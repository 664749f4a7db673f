import UnifiContainers.Lib.Run
import UnifiContainers.Properties.File

/-!
# Files under edits

A file is loaded and its keys are set and deleted, in any order. Its list and its dict stay
consistent, it goes by what a plain dict would go by, and what is dumped is read back as that dict.
-/

namespace UnifiContainers.Properties

open LinkedList Fallible

inductive Edit where
  | set (key : Key) (value : Value)
  | delete (key : Key)
  deriving DecidableEq, Repr

/-- One edit; `none` is the `KeyError` of a deletion. -/
def PropertiesFile.edit (file : PropertiesFile) : Edit → Option PropertiesFile
  | .set key value => some (file.setItem key value)
  | .delete key => file.delItem key

/-- The edit of a dict with these items. -/
def editItems (items : List (Key × Value)) : Edit → Option (List (Key × Value))
  | .set key value => some (OrderedDict.set items key value)
  | .delete key => (items.lookup key).map fun _ => OrderedDict.erase items key

/-- The edit of the elements of a file. -/
def editElements (elements : List Element) : Edit → Option (List Element)
  | .set key value => some (setKey elements key value)
  | .delete key =>
      if elements.any (Element.hasKey key) then some (deleteKey elements key) else none

/-! ### The file's own check -/

/-- `loads(source) == expected`, for a dict of at most one item. -/
def loadsAs (source : List Char) (expected : List (Key × Value)) : Bool :=
  match loads source with
  | .error _ => false
  | .ok items => items == expected

/-- The first loop of `_check`: a key leads to nodes that hold it, in the order of the file. -/
def PropertiesFile.checkKey (file : PropertiesFile) (key : Key) (nodes : List ℕ) : Bool :=
  !nodes.isEmpty &&
  (nodes.all fun n =>
    (file.lines.findNode n).isSome && (file.lines.value? n).any (Element.hasKey key)) &&
  decide ((nodes.filterMap file.lines.findNode).Pairwise (· ≤ ·))

/-- The second loop of `_check`: a source reads as its element, and its key leads to it. -/
def PropertiesFile.checkLine (file : PropertiesFile) (n : ℕ) : Bool :=
  match file.lines.value? n with
  | some (.keyValue key value source) =>
      (source.isEmpty || loadsAs source [(key, value)]) &&
        (file.key2nodes.lookup key).any fun nodes => nodes.contains n
  | some line => loadsAs line.source []
  | none => false

/-- `_check` -/
def PropertiesFile.check (file : PropertiesFile) : Bool :=
  (file.key2nodes.all fun entry => file.checkKey entry.1 entry.2) &&
    file.lines.iternodes.all file.checkLine

/-- The elements that were read read as themselves. -/
def Sourced (elements : List Element) : Prop :=
  ∀ e ∈ elements, e.isFresh = false → e.source ≠ [] ∧ e.Faithful

variable {file after : PropertiesFile} {cells : List (ℕ × Element)} {elements : List Element}
  {key : Key} {value : Value} {text : List Char} {e : Element} {edit : Edit}

theorem loadsAs_source (hs : e.source ≠ []) (h : e.Faithful) :
    loadsAs e.source e.entry?.toList = true := by
  rw [Element.Faithful, dumped_of_source hs, ← parse_meaning] at h
  obtain ⟨elements, hparse, helements⟩ := map_ok h
  have hitems : itemsOf elements = e.entry?.toList := by
    rw [itemsOf, helements, entries_singleton]
    cases e <;> rfl
  simp [loadsAs, loads, hparse, hitems, Functor.map, Except.map]

theorem Represents.nodes_ne_nil (h : Represents file cells) {nodes : List ℕ}
    (hmem : (key, nodes) ∈ file.key2nodes) : nodesOf key cells = nodes ∧ nodes ≠ [] := by
  have hlookup := OrderedDict.lookup_of_mem h.nodup hmem
  rw [h.index] at hlookup
  split at hlookup
  · cases hlookup
  · next hne =>
    obtain rfl := Option.some.inj hlookup
    exact ⟨rfl, hne⟩

/-- The nodes of a key are found in the order of the file. -/
theorem Represents.checkKey (h : Represents file cells) (hnodes : nodesOf key cells ≠ []) :
    file.checkKey key (nodesOf key cells) = true := by
  have hsub : (nodesOf key cells).Sublist (cells.map Prod.fst) := List.filter_sublist.map _
  simp only [PropertiesFile.checkKey, Bool.and_eq_true, Bool.not_eq_true',
    List.isEmpty_eq_false_iff, decide_eq_true_eq, List.all_eq_true]
  refine ⟨⟨hnodes, fun n hn => ⟨h.lines.findNode_isSome.mpr (hsub.subset hn), ?_⟩⟩,
    (h.lines.findNode_sorted hsub).imp le_of_lt⟩
  obtain ⟨cell, hcell, rfl⟩ := List.mem_map.mp hn
  obtain ⟨hmem, hkey⟩ := List.mem_filter.mp hcell
  rw [h.lines.mem_iff (show (cell.1, cell.2) ∈ cells from hmem), Option.any_some]
  exact hkey

/-- Consistent lists and dicts pass the check. -/
theorem Represents.check (h : Represents file cells) (hsourced : Sourced (cells.map Prod.snd)) :
    file.check = true := by
  rw [PropertiesFile.check, Bool.and_eq_true, List.all_eq_true, List.all_eq_true]
  constructor
  · rintro ⟨key, nodes⟩ hmem
    obtain ⟨rfl, hne⟩ := h.nodes_ne_nil hmem
    exact h.checkKey hne
  · intro n hn
    rw [h.lines.iternodes] at hn
    obtain ⟨⟨n, e⟩, hmem, rfl⟩ := List.mem_map.mp hn
    have hself := hsourced e (List.mem_map_of_mem hmem)
    rw [PropertiesFile.checkLine, h.lines.mem_iff hmem]
    cases e with
    | comment source => exact loadsAs_source (hself rfl).1 (hself rfl).2
    | whitespace source => exact loadsAs_source (hself rfl).1 (hself rfl).2
    | keyValue key value source =>
      have hkey : n ∈ nodesOf key cells := (mem_nodesOf key h.lines.nodup hmem).mpr (by
        rw [hasKey_iff]
        exact ⟨value, source, rfl⟩)
      have hlookup : file.key2nodes.lookup key = some (nodesOf key cells) := by
        rw [h.index, if_neg (List.ne_nil_of_mem hkey)]
      simp only [hlookup, Option.any_some]
      rw [Bool.and_eq_true, List.contains_iff_mem]
      refine ⟨?_, hkey⟩
      by_cases hsource : source = []
      · rw [hsource]
        rfl
      · have hread := hself (List.isEmpty_eq_false_iff.mpr hsource)
        rw [Bool.or_eq_true]
        exact .inr (loadsAs_source hread.1 hread.2)

/-! ### What an edit keeps -/

theorem mem_rewrite (h : e ∈ rewrite key value elements) :
    e ∈ elements ∨ e = fresh key value := by
  induction elements with
  | nil => cases h
  | cons f rest ih =>
    rw [rewrite] at h
    split at h
    · rcases List.mem_cons.mp h with h | h
      · exact .inr h
      · exact .inl (List.mem_cons_of_mem f (List.mem_filter.mp h).1)
    · rcases List.mem_cons.mp h with rfl | h
      · exact .inl List.mem_cons_self
      · exact (ih h).imp_left (List.mem_cons_of_mem f)

/-- Setting a key gives the last line an ending, or it changes no element that it leaves. -/
theorem mem_setKey (h : e ∈ setKey elements key value) :
    e ∈ elements ∨ e = fresh key value ∨
      ∃ last, elements.getLast? = some last ∧ last.isFresh = false ∧ e = last.endLine := by
  rw [setKey] at h
  split at h
  · exact (mem_rewrite h).imp_right .inl
  · rcases List.mem_append.mp h with h | h
    · rcases List.eq_nil_or_concat elements with rfl | ⟨init, last, rfl⟩
      · cases h
      · rw [List.concat_eq_append] at h ⊢
        rw [endLast_concat] at h
        rcases List.mem_append.mp h with h | h
        · exact .inl (List.mem_append_left _ h)
        · rw [List.mem_singleton] at h
          split at h
          · exact .inl (List.mem_append_right _ (List.mem_singleton.mpr h))
          · next hlast => exact .inr (.inr ⟨last, List.getLast?_concat, by simpa using hlast, h⟩)
    · exact .inr (.inl (List.mem_singleton.mp h))

theorem sourced_setKey (h : Sourced elements) (key : Key) (value : Value) :
    Sourced (setKey elements key value) := by
  intro e he hfresh
  rcases mem_setKey he with he | rfl | ⟨last, hlast, hread, rfl⟩
  · exact h e he hfresh
  · cases hfresh
  · obtain ⟨hs, hfaithful⟩ := h last (List.mem_of_getLast? hlast) hread
    refine ⟨?_, endLine_faithful hs hfaithful⟩
    rw [endLine_source]
    exact endSource_ne_nil last

theorem sourced_edit (h : Sourced elements) {others : List Element}
    (hedit : editElements elements edit = some others) : Sourced others := by
  cases edit with
  | set key value =>
    cases hedit
    exact sourced_setKey h key value
  | delete key =>
    rw [editElements] at hedit
    split at hedit
    · cases hedit
      exact fun e he => h e (List.mem_filter.mp he).1
    · cases hedit

/-! ### The last line -/

theorem pendingOf_append {u : List Char} (hu : Terminated u) (hpending : pendingOf u = none)
    (v : List Char) : pendingOf (u ++ v) = pendingOf v := by
  rw [pendingOf] at hpending
  rw [pendingOf, pendingOf]
  rcases contents_append hu v with h | ⟨w, rfl, h⟩
  · rw [h, logical_append, hpending]
  · rw [h, logical_append, hpending, contents_lf, logical, feed_nil]

/-- What is before the last element does not count. -/
theorem loneBackslash_append {u v : List Char} (hu : Terminated u) (hpending : pendingOf u = none)
    (hv : v ≠ []) : LoneBackslash (u ++ v) ↔ LoneBackslash v := by
  rw [LoneBackslash, LoneBackslash, pendingOf_append hu hpending]
  refine and_congr_left fun hcontinued => ?_
  obtain ⟨line, hline, hrest⟩ := hcontinued
  rcases contents_append hu v with h | ⟨w, rfl, h⟩
  · rw [h, getLast?_append_of_ne_nil (contents_ne_nil hv)]
  · have hw : contents w ≠ [] := by
      intro hnil
      rw [pendingOf, contents_lf, hnil] at hrest
      cases hrest
    rw [h, contents_lf, getLast?_append_of_ne_nil hw, getLast?_cons_of_ne_nil hw]

theorem overhangs_iff (hs : e.source ≠ []) (h : e.Faithful) :
    e.Overhangs ↔ LoneBackslash e.source := by
  refine ⟨And.right, fun hlone => ⟨?_, hlone⟩⟩
  by_contra hnone
  have hentry : e.entry? = none := by simpa using hnone
  rw [Element.Faithful, dumped_of_source hs, entries_singleton, hentry] at h
  obtain ⟨line, hline, hpending⟩ := hlone.2
  rcases pendingOf_of_no_entry h with hempty | hempty
  · cases hpending.symm.trans hempty
  · exact hline (Option.some.inj (hpending.symm.trans hempty))

/-- An element that was read and is not the last one leaves nothing to be continued. -/
theorem coherent_closed {f : Element} {others : List Element} (h : Coherent (e :: others))
    (hmem : f ∈ others) (hf : f.source ≠ []) : e.Closed := by
  obtain ⟨-, -, rfl | hclosed | ⟨-, hfresh⟩⟩ := h
  · cases hmem
  · exact hclosed
  · have hread := isFresh_of_source hf
    rw [hfresh f hmem] at hread
    cases hread

theorem terminated_append {u v : List Char} (hu : Terminated u) (hv : Terminated v) :
    Terminated (u ++ v) := by
  intro c hc
  by_cases hnil : v = []
  · rw [hnil, List.append_nil] at hc
    exact hu c hc
  · rw [getLast?_append_of_ne_nil hnil] at hc
    exact hv c hc

/-- Nothing is left to be continued before the last element. -/
theorem coherent_before {init : List Element} (h : Coherent (init ++ [e]))
    (hsources : ∀ f ∈ init ++ [e], f.source ≠ []) :
    Terminated (dumps init) ∧ pendingOf (dumps init) = none := by
  induction init with
  | nil => exact ⟨fun c hc => (by cases hc), rfl⟩
  | cons f init ih =>
    have hclosed := coherent_closed h (List.mem_append_right init (List.mem_singleton_self e))
      (hsources e (by simp))
    obtain ⟨hterminated, hpending⟩ := ih h.2.1 fun g hg => hsources g (List.mem_cons_of_mem f hg)
    rw [dumps, List.flatMap_cons, ← dumps]
    exact ⟨terminated_append hclosed.1 hterminated,
      (pendingOf_append hclosed.1 hclosed.2 _).trans hpending⟩

/-- The text overhangs where its last element does. -/
theorem loneBackslash_dumps {init : List Element} (h : Coherent (init ++ [e]))
    (hsources : ∀ f ∈ init ++ [e], f.source ≠ []) :
    LoneBackslash (dumps (init ++ [e])) ↔ e.Overhangs := by
  obtain ⟨hterminated, hpending⟩ := coherent_before h hsources
  have hsource := hsources e (by simp)
  rw [dumps, List.flatMap_append, ← dumps, List.flatMap_singleton, dumped_of_source hsource,
    loneBackslash_append hterminated hpending hsource,
    overhangs_iff hsource (coherent_faithful h e (by simp))]

/-- No other element overhangs. -/
theorem not_overhangs_before {init : List Element} (h : Coherent (init ++ [e]))
    (hsources : ∀ f ∈ init ++ [e], f.source ≠ []) : ∀ f ∈ init, ¬f.Overhangs := by
  induction init with
  | nil => simp
  | cons g init ih =>
    intro f hf
    rcases List.mem_cons.mp hf with rfl | hf
    · have hclosed := coherent_closed h (List.mem_append_right init (List.mem_singleton_self e))
        (hsources e (by simp))
      rw [Element.Closed, dumped_of_source (hsources f (by simp))] at hclosed
      rintro ⟨-, -, line, -, hpending⟩
      rw [hclosed.2] at hpending
      cases hpending
    · exact ih h.2.1 (fun other hother => hsources other (List.mem_cons_of_mem g hother)) f hf

/-! ### Elements that are dumped and read back -/

/-- Elements that are read back as they are, also when more are written after them. -/
structure Sound (elements : List Element) : Prop where
  coherent : Coherent elements
  sources : ∀ e ∈ elements, e.isFresh = false → e.source ≠ []
  ends : ∀ e ∈ elements, ¬e.Overhangs

theorem not_overhangs_fresh (key : Key) (value : Value) : ¬(fresh key value).Overhangs := by
  rintro ⟨-, hlone⟩
  cases hlone.1

theorem not_overhangs_endLine (hs : e.source ≠ []) (h : e.Faithful) (hends : ¬e.Overhangs) :
    ¬e.endLine.Overhangs := by
  rintro ⟨-, -, line, hline, hpending⟩
  have hclosed := endLine_closed hs h hends
  rw [Element.Closed, Element.Drained, endLine_dumped, ← endLine_source, hpending] at hclosed
  rcases hclosed with ⟨-, hnone⟩ | ⟨-, hempty⟩
  · cases hnone
  · exact hline (Option.some.inj hempty)

theorem Sound.setKey (h : Sound elements) (hkey : NoSplitPair key) (hvalue : NoSplitPair value) :
    Sound (setKey elements key value) := by
  refine ⟨?_, fun e he hread => ?_, fun e he => ?_⟩
  · rw [Properties.setKey]
    split
    · exact coherent_rewrite hkey hvalue h.coherent
    · exact coherent_endLast h.sources (fun e he => h.ends e (List.mem_of_getLast? he)) h.coherent
        hkey hvalue
  · rcases mem_setKey he with he | rfl | ⟨last, -, -, rfl⟩
    · exact h.sources e he hread
    · cases hread
    · rw [endLine_source]
      exact endSource_ne_nil last
  · rcases mem_setKey he with he | rfl | ⟨last, hlast, hread, rfl⟩
    · exact h.ends e he
    · exact not_overhangs_fresh key value
    · have hmem := List.mem_of_getLast? hlast
      exact not_overhangs_endLine (h.sources last hmem hread)
        (coherent_faithful h.coherent last hmem) (h.ends last hmem)

theorem Sound.deleteKey (h : Sound elements) (key : Key) : Sound (deleteKey elements key) where
  coherent := coherent_filter _ h.coherent
  sources e he := h.sources e (List.mem_filter.mp he).1
  ends e he := h.ends e (List.mem_filter.mp he).1

/-- What is set has no code points that would be read as one. -/
def Edit.Plain : Edit → Prop
  | .set key value => NoSplitPair key ∧ NoSplitPair value
  | .delete _ => True

theorem sound_edit (h : Sound elements) (hplain : edit.Plain) {others : List Element}
    (hedit : editElements elements edit = some others) : Sound others := by
  cases edit with
  | set key value =>
    cases hedit
    exact h.setKey hplain.1 hplain.2
  | delete key =>
    rw [editElements] at hedit
    split at hedit
    · cases hedit
      exact h.deleteKey key
    · cases hedit

theorem dumps_sources (h : ∀ e ∈ elements, e.source ≠ []) :
    dumps elements = elements.flatMap Element.source := by
  rw [dumps, List.flatMap_def, List.flatMap_def]
  exact congrArg List.flatten (List.map_congr_left fun e he => dumped_of_source (h e he))

/-- What is loaded and not edited is dumped as it was. -/
theorem dumps_parse (h : parse text = .ok elements) : dumps elements = text := by
  rw [dumps_sources (parse_coherent h).2, List.flatMap_def]
  exact parse_sources h

theorem sourced_parse (h : parse text = .ok elements) : Sourced elements := by
  obtain ⟨hcoherent, hsources⟩ := parse_coherent h
  exact fun e he _ => ⟨hsources e he, coherent_faithful hcoherent e he⟩

theorem sound_parse (h : parse text = .ok elements) (htext : ¬LoneBackslash text) :
    Sound elements := by
  obtain ⟨hcoherent, hsources⟩ := parse_coherent h
  refine ⟨hcoherent, fun e he _ => hsources e he, fun e he hover => ?_⟩
  rcases List.eq_nil_or_concat elements with rfl | ⟨init, last, rfl⟩
  · cases he
  rw [List.concat_eq_append] at *
  rcases List.mem_append.mp he with he | he
  · exact not_overhangs_before hcoherent hsources e he hover
  · rw [List.mem_singleton.mp he, ← loneBackslash_dumps hcoherent hsources, dumps_parse h] at hover
    exact htext hover

/-- Dumped elements are read back as the same dict. -/
theorem loads_dumps (h : Coherent elements) : loads (dumps elements) = .ok (itemsOf elements) := by
  have hmeaning := meaning_dumps h
  rw [← parse_meaning] at hmeaning
  obtain ⟨others, hparse, hentries⟩ := map_ok hmeaning
  rw [loads, hparse, itemsOf, ← hentries]
  rfl

/-! ### Runs of edits -/

/-- The file holds these elements. -/
def Holding (file : PropertiesFile) (elements : List Element) : Prop :=
  ∃ cells, Represents file cells ∧ cells.map Prod.snd = elements

theorem holding_edit (h : Holding file elements) (edit : Edit) :
    Option.Rel Holding (file.edit edit) (editElements elements edit) := by
  obtain ⟨cells, h, rfl⟩ := h
  cases edit with
  | set key value =>
    obtain ⟨others, hothers, hset⟩ := h.setItem key value
    exact .some ⟨others, hothers, hset⟩
  | delete key =>
    obtain ⟨hnone, hsome⟩ := h.delItem key
    rw [PropertiesFile.edit, editElements]
    cases hdelete : file.delItem key with
    | none =>
      rw [hnone.mp hdelete, if_neg Bool.false_ne_true]
      exact .none
    | some after =>
      obtain ⟨others, hothers, hafter⟩ := hsome after hdelete
      rw [if_pos]
      · exact .some ⟨others, hothers, hafter⟩
      · by_contra hany
        rw [hnone.mpr (by simpa using hany)] at hdelete
        cases hdelete

theorem editItems_itemsOf (elements : List Element) (edit : Edit) :
    editItems (itemsOf elements) edit = (editElements elements edit).map itemsOf := by
  cases edit with
  | set key value => exact congrArg some (itemsOf_setKey elements key value).symm
  | delete key =>
    rw [editItems, editElements, ← lookup_itemsOf_isSome]
    cases (itemsOf elements).lookup key with
    | none => rfl
    | some value => exact congrArg some (itemsOf_deleteKey elements key).symm

theorem holding_load (h : PropertiesFile.loads text = .ok file) :
    ∃ elements, parse text = .ok elements ∧ Holding file elements := by
  obtain ⟨elements, hparse, rfl⟩ := map_ok h
  exact ⟨elements, hparse, represents_load elements⟩

theorem Holding.items (h : Holding file elements) : file.items = itemsOf elements := by
  obtain ⟨cells, h, rfl⟩ := h
  exact h.items

theorem Holding.dumps (h : Holding file elements) : file.dumps = Properties.dumps elements := by
  obtain ⟨cells, h, rfl⟩ := h
  exact h.dumps

/-- The elements of an edited file, with what each edit keeps of them. -/
theorem holding_exec {P : List Element → Prop} (guard : Edit → Prop)
    (hstep : ∀ elements others edit, P elements → guard edit →
      editElements elements edit = some others → P others)
    (h : Holding file elements) (hP : P elements) {edits : List Edit}
    (hguard : ∀ edit ∈ edits, guard edit)
    (hexec : StepRun.exec PropertiesFile.edit file edits = some after) :
    ∃ others, Holding after others ∧ P others := by
  have hrel := StepRun.exec_rel PropertiesFile.edit
    (fun _ _ edit h => holding_edit h edit) h edits
  rw [hexec] at hrel
  obtain ⟨others, hothers, hholding⟩ : ∃ others,
      StepRun.exec editElements elements edits = some others ∧ Holding after others := by
    revert hrel
    generalize StepRun.exec editElements elements edits = result
    rintro (h | _)
    exact ⟨_, rfl, h⟩
  refine ⟨others, hholding, ?_⟩
  exact StepRun.guarded_invariant editElements (fun s a t => hstep s t a) hP
    (StepRun.guarded_of_forall editElements elements hguard) hothers

/-- What is loaded is dumped as it was. -/
theorem dumps_load (h : PropertiesFile.loads text = .ok file) : file.dumps = text := by
  obtain ⟨elements, hparse, hholding⟩ := holding_load h
  rw [hholding.dumps, dumps_parse hparse]

theorem dumps_load_mixed :
    (PropertiesFile.load [.comment ['#', '\r'], .keyValue [97] [] ['a', '\\', '\n', ' ']]).dumps =
      ['#', '\r', 'a', '\\', '\n', ' '] :=
  dumps_load rfl

/-- A file that was loaded and edited passes its own check. -/
theorem check_exec (h : PropertiesFile.loads text = .ok file) (edits : List Edit)
    (hexec : StepRun.exec PropertiesFile.edit file edits = some after) : after.check = true := by
  obtain ⟨elements, hparse, hholding⟩ := holding_load h
  obtain ⟨others, ⟨cells, hcells, rfl⟩, hsourced⟩ := holding_exec (fun _ => True)
    (fun _ _ _ h _ hedit => sourced_edit h hedit) hholding (sourced_parse hparse)
    (fun _ _ => trivial) hexec
  exact hcells.check hsourced

theorem check_exec_moved : ∃ file after, PropertiesFile.loads ['a', '=', '1'] = .ok file ∧
    StepRun.exec PropertiesFile.edit file [.set [98] [50], .delete [97]] = some after ∧
    after.check = true := by
  have hload : PropertiesFile.loads ['a', '=', '1'] =
      .ok (PropertiesFile.load [.keyValue [97] [49] ['a', '=', '1']]) := rfl
  exact ⟨_, _, hload, rfl, check_exec hload [.set [98] [50], .delete [97]] rfl⟩

/-- A file goes by what a dict goes by under the same edits: it fails where the dict fails, and has
the same items in the same order. -/
theorem items_exec (text : List Char) (edits : List Edit) :
    (fun file => (StepRun.exec PropertiesFile.edit file edits).map PropertiesFile.items) <$>
        PropertiesFile.loads text =
      (fun items => StepRun.exec editItems items edits) <$> loads text := by
  rw [PropertiesFile.loads, loads, Functor.map_map, Functor.map_map]
  refine congrArg (· <$> parse text) (funext fun elements => ?_)
  have hstep : ∀ file items edit, file.items = items ∧ (∃ elements, Holding file elements) →
      Option.Rel (fun file items => file.items = items ∧ ∃ elements, Holding file elements)
        (file.edit edit) (editItems items edit) := by
    rintro file items edit ⟨rfl, elements, hholding⟩
    rw [hholding.items, editItems_itemsOf]
    have hrel := holding_edit hholding edit
    revert hrel
    generalize file.edit edit = next
    generalize editElements elements edit = next'
    rintro (h | _)
    · exact .some ⟨h.items, _, h⟩
    · exact .none
  have hholding := represents_load elements
  have hrel := StepRun.exec_rel PropertiesFile.edit hstep
    ⟨Holding.items hholding, elements, hholding⟩ edits
  revert hrel
  generalize StepRun.exec PropertiesFile.edit (PropertiesFile.load elements) edits = result
  generalize StepRun.exec editItems (itemsOf elements) edits = result'
  rintro (h | _)
  · exact congrArg some h.1
  · rfl

/-- What is dumped after any edits is read back as the dict that it had become. -/
theorem loads_dumps_exec (h : PropertiesFile.loads text = .ok file) (htext : ¬LoneBackslash text)
    (edits : List Edit) (hplain : ∀ edit ∈ edits, edit.Plain)
    (hexec : StepRun.exec PropertiesFile.edit file edits = some after) :
    loads after.dumps = .ok after.items := by
  obtain ⟨elements, hparse, hholding⟩ := holding_load h
  obtain ⟨others, hothers, hsound⟩ := holding_exec Edit.Plain
    (fun _ _ _ h hplain hedit => sound_edit h hplain hedit) hholding (sound_parse hparse htext)
    hplain hexec
  rw [hothers.dumps, hothers.items, loads_dumps hsound.coherent]

theorem loads_dumps_exec_moved : ∃ file after, PropertiesFile.loads ['a', '=', '1'] = .ok file ∧
    StepRun.exec PropertiesFile.edit file [.set [98] [10], .delete [97]] = some after ∧
    loads after.dumps = .ok after.items := by
  have hload : PropertiesFile.loads ['a', '=', '1'] =
      .ok (PropertiesFile.load [.keyValue [97] [49] ['a', '=', '1']]) := rfl
  refine ⟨_, _, hload, rfl, loads_dumps_exec hload ?_ [.set [98] [10], .delete [97]] ?_ rfl⟩
  · exact fun hlone => by cases hlone.1
  · intro edit hedit
    rcases List.mem_pair.mp hedit with rfl | rfl
    · exact ⟨by decide, by decide⟩
    · trivial

end UnifiContainers.Properties
