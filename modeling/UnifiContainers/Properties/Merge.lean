import UnifiContainers.Properties.Edits

/-!
# Merging keys into a file

`sysprops.merge` edits the text of a file and `sysprops.parse` reads it. The file grows by the keys
it lacks, and by nothing else; a second merge finds nothing to do.
-/

namespace UnifiContainers.Properties

open OrderedDict Fallible

/-- One turn of the loop of `merge`. -/
def mergeOne (onlyIfAbsent : Bool) (props : PropertiesFile) (update : Key × Value) :
    PropertiesFile :=
  if onlyIfAbsent && (props.getItem update.1).isSome then props
  else props.setItem update.1 update.2

/-- `sysprops.merge` -/
def merge (existing : List Char) (updates : List (Key × Value)) (onlyIfAbsent : Bool) :
    Except InvalidUEscapeError (List Char) :=
  (fun props => (updates.foldl (mergeOne onlyIfAbsent) props).dumps) <$>
    PropertiesFile.loads existing

/-- What the loop makes of a dict. -/
def mergeItems (onlyIfAbsent : Bool) (items updates : List (Key × Value)) : List (Key × Value) :=
  updates.foldl (fun items update =>
    if onlyIfAbsent then setdefault items update.1 update.2
    else set items update.1 update.2) items

/-- What the loop makes of the elements of a file. -/
def mergeElements (onlyIfAbsent : Bool) (elements : List Element) (updates : List (Key × Value)) :
    List Element :=
  updates.foldl (fun elements update =>
    if onlyIfAbsent && elements.any (Element.hasKey update.1) then elements
    else setKey elements update.1 update.2) elements

/-- No string of an update has code points that would be read as one. -/
def Plain (updates : List (Key × Value)) : Prop :=
  ∀ update ∈ updates, NoSplitPair update.1 ∧ NoSplitPair update.2

instance (updates : List (Key × Value)) : Decidable (Plain updates) :=
  inferInstanceAs (Decidable (∀ update ∈ updates, _))

variable {onlyIfAbsent : Bool} {existing merged text : List Char}
  {items updates : List (Key × Value)} {elements : List Element} {file : PropertiesFile}
  {key : Key} {value : Value}

/-! ### The file and its elements -/

theorem mergeItems_cons (items : List (Key × Value)) (update : Key × Value) :
    mergeItems onlyIfAbsent items (update :: updates) = mergeItems onlyIfAbsent
      (if onlyIfAbsent then setdefault items update.1 update.2
        else set items update.1 update.2) updates := rfl

theorem mergeElements_cons (elements : List Element) (update : Key × Value) :
    mergeElements onlyIfAbsent elements (update :: updates) = mergeElements onlyIfAbsent
      (if onlyIfAbsent && elements.any (Element.hasKey update.1) then elements
        else setKey elements update.1 update.2) updates := rfl

theorem Holding.getItem (h : Holding file elements) (key : Key) :
    file.getItem key = (itemsOf elements).lookup key := by
  obtain ⟨cells, h, rfl⟩ := h
  exact h.getItem key

theorem Holding.setItem (h : Holding file elements) (key : Key) (value : Value) :
    Holding (file.setItem key value) (setKey elements key value) := by
  obtain ⟨cells, h, rfl⟩ := h
  exact h.setItem key value

theorem holding_merge (h : Holding file elements) (updates : List (Key × Value)) :
    Holding (updates.foldl (mergeOne onlyIfAbsent) file)
      (mergeElements onlyIfAbsent elements updates) := by
  induction updates generalizing file elements with
  | nil => exact h
  | cons update updates ih =>
    rw [List.foldl_cons, mergeElements_cons]
    refine ih ?_
    rw [mergeOne, h.getItem, lookup_itemsOf_isSome]
    split
    · exact h
    · exact h.setItem update.1 update.2

theorem merge_eq (existing : List Char) (updates : List (Key × Value)) (onlyIfAbsent : Bool) :
    merge existing updates onlyIfAbsent =
      (fun elements => dumps (mergeElements onlyIfAbsent elements updates)) <$> parse existing := by
  rw [merge, PropertiesFile.loads, Functor.map_map]
  refine congrArg (· <$> parse existing) (funext fun elements => ?_)
  exact (holding_merge (represents_load elements) updates).dumps

theorem itemsOf_merge (elements : List Element) (updates : List (Key × Value)) :
    itemsOf (mergeElements onlyIfAbsent elements updates) =
      mergeItems onlyIfAbsent (itemsOf elements) updates := by
  induction updates generalizing elements with
  | nil => rfl
  | cons update updates ih =>
    rw [mergeElements_cons, ih, mergeItems_cons]
    refine congrArg (mergeItems onlyIfAbsent · updates) ?_
    cases onlyIfAbsent with
    | false => exact itemsOf_setKey elements update.1 update.2
    | true =>
      simp only [Bool.true_and, if_true, setdefault, lookup_itemsOf_isSome]
      split
      · rfl
      · exact itemsOf_setKey elements update.1 update.2

theorem sound_merge (onlyIfAbsent : Bool) (h : Sound elements) (hplain : Plain updates) :
    Sound (mergeElements onlyIfAbsent elements updates) := by
  induction updates generalizing elements with
  | nil => exact h
  | cons update updates ih =>
    rw [mergeElements_cons]
    refine ih ?_ fun other hother => hplain other (List.mem_cons_of_mem update hother)
    split
    · exact h
    · obtain ⟨hkey, hvalue⟩ := hplain update List.mem_cons_self
      exact h.setKey hkey hvalue

/-! ### What the merged text says -/

/-- The merged text reads as the dict that the updates make of the one read. -/
theorem loads_merge (hexisting : ¬LoneBackslash existing) (hplain : Plain updates)
    (onlyIfAbsent : Bool) : merge existing updates onlyIfAbsent >>= loads =
      (fun items => mergeItems onlyIfAbsent items updates) <$> loads existing := by
  rw [merge_eq, loads]
  cases hparse : parse existing with
  | error e => rfl
  | ok elements =>
    have hsound := sound_merge onlyIfAbsent (sound_parse hparse hexisting) hplain
    show loads (dumps (mergeElements onlyIfAbsent elements updates)) = _
    rw [loads_dumps hsound.coherent, itemsOf_merge]
    rfl

/-- With all keys held, the text is left as it is. -/
theorem merge_held (hload : loads existing = .ok items)
    (hheld : ∀ update ∈ updates, (items.lookup update.1).isSome = true) :
    merge existing updates true = .ok existing := by
  obtain ⟨elements, hparse, rfl⟩ := map_ok hload
  have hsame : mergeElements true elements updates = elements := by
    induction updates with
    | nil => rfl
    | cons update updates ih =>
      have hany : elements.any (Element.hasKey update.1) = true := by
        rw [← lookup_itemsOf_isSome]
        exact hheld update List.mem_cons_self
      rw [mergeElements_cons, hany, Bool.true_and, if_pos rfl]
      exact ih fun other hother => hheld other (List.mem_cons_of_mem update hother)
  rw [merge_eq, hparse]
  show Except.ok (dumps (mergeElements true elements updates)) = _
  rw [hsame, dumps_parse hparse]

theorem mergeItems_held (hheld : ∀ update ∈ updates, (items.lookup update.1).isSome = true) :
    mergeItems true items updates = items := by
  induction updates with
  | nil => rfl
  | cons update updates ih =>
    rw [mergeItems_cons, if_pos rfl, setdefault, if_pos (hheld update List.mem_cons_self)]
    exact ih fun other hother => hheld other (List.mem_cons_of_mem update hother)

theorem lookup_mergeItems (items updates : List (Key × Value)) (key : Key) :
    (mergeItems true items updates).lookup key = (items.lookup key).or (updates.lookup key) :=
  lookup_setdefaults items updates key

/-- What is merged was loaded. -/
theorem exists_loads (h : merge existing updates onlyIfAbsent = .ok merged) :
    ∃ items, loads existing = .ok items := by
  rw [merge_eq] at h
  obtain ⟨elements, hparse, -⟩ := map_ok h
  rw [loads, hparse]
  exact ⟨itemsOf elements, rfl⟩

/-- The backslash and the line ending that may go from the last line. -/
def Dropped (s : List Char) : Prop :=
  s ∈ [[], ['\\'], ['\\', '\n'], ['\\', '\r'], ['\\', '\r', '\n']]

theorem dropEol_append (s : List Char) :
    ∃ eol ∈ [[], ['\n'], ['\r'], ['\r', '\n']], s = dropEol s ++ eol := by
  rcases List.eq_nil_or_concat s with rfl | ⟨init, c, rfl⟩
  · exact ⟨[], by simp, rfl⟩
  rw [List.concat_eq_append]
  by_cases hlf : c = '\n'
  · subst hlf
    rw [dropEol_concat_lf]
    split
    · next hcr =>
      obtain ⟨rest, rfl⟩ := List.getLast?_eq_some_iff.mp hcr
      exact ⟨['\r', '\n'], by simp, by simp⟩
    · exact ⟨['\n'], by simp, rfl⟩
  · by_cases hcr : c = '\r'
    · subst hcr
      exact ⟨['\r'], by simp, by rw [dropEol_concat_cr]⟩
    · refine ⟨[], by simp, ?_⟩
      have hnotLf : (init ++ [c]).getLast? ≠ some '\n' := by simpa using hlf
      have hnotCr : (init ++ [c]).getLast? ≠ some '\r' := by simpa using hcr
      simp only [dropEol, if_neg hnotLf, if_neg hnotCr, List.append_nil]

theorem subContinued_append (s : List Char) : ∃ tail, Dropped tail ∧ s = subContinued s ++ tail := by
  rw [subContinued]
  split
  · next hcontinued =>
    obtain ⟨eol, heol, hs⟩ := dropEol_append s
    obtain ⟨init, hinit⟩ : ∃ init, dropEol s = init ++ ['\\'] := by
      rcases List.eq_nil_or_concat (dropEol s) with hnil | ⟨init, c, hlast⟩
      · rw [isContinued, hnil] at hcontinued
        cases hcontinued
      · rw [List.concat_eq_append] at hlast
        refine ⟨init, ?_⟩
        rw [isContinued, hlast, List.reverse_append, List.reverse_singleton, List.singleton_append,
          List.takeWhile_cons] at hcontinued
        split at hcontinued
        · next hc => rw [hlast, beq_iff_eq.mp hc]
        · cases hcontinued
    refine ⟨'\\' :: eol, ?_, ?_⟩
    · simp only [List.mem_cons, List.not_mem_nil, or_false] at heol
      rcases heol with rfl | rfl | rfl | rfl <;> simp [Dropped]
    · rw [hinit, List.dropLast_concat]
      rw [hinit] at hs
      exact hs.trans (by simp)
  · exact ⟨[], by simp [Dropped], by simp⟩

theorem mergeItems_concat (items : List (Key × Value)) (update : Key × Value) :
    mergeItems true items (updates ++ [update]) =
      setdefault (mergeItems true items updates) update.1 update.2 := by
  rw [mergeItems, List.foldl_append]
  rfl

theorem mergeElements_concat (elements : List Element) (update : Key × Value) :
    mergeElements true elements (updates ++ [update]) =
      if (mergeElements true elements updates).any (Element.hasKey update.1) then
        mergeElements true elements updates
      else setKey (mergeElements true elements updates) update.1 update.2 := by
  rw [mergeElements, List.foldl_append]
  rfl

/-- The elements grow by the entries that the dict grows by. -/
theorem mergeElements_eq (elements : List Element) (updates : List (Key × Value)) :
    ∃ added ⊆ updates, mergeItems true (itemsOf elements) updates = itemsOf elements ++ added ∧
      mergeElements true elements updates =
        if added = [] then elements
        else endLast elements ++ added.map fun item => fresh item.1 item.2 := by
  induction updates using List.reverseRecOn with
  | nil => exact ⟨[], List.nil_subset _, by rw [List.append_nil]; rfl, rfl⟩
  | append_singleton updates update ih =>
    obtain ⟨added, hsub, hitems, helements⟩ := ih
    have hany : (mergeElements true elements updates).any (Element.hasKey update.1) =
        ((itemsOf elements ++ added).lookup update.1).isSome := by
      rw [← lookup_itemsOf_isSome, itemsOf_merge, hitems]
    rw [mergeItems_concat, mergeElements_concat, hitems, hany, setdefault]
    cases hlookup : (itemsOf elements ++ added).lookup update.1 with
    | some value =>
      exact ⟨added, List.subset_append_of_subset_left _ hsub, rfl, helements⟩
    | none =>
      refine ⟨added ++ [update], List.append_subset.mpr ⟨List.subset_append_of_subset_left _ hsub,
        List.subset_append_right _ _⟩, ?_, ?_⟩
      · rw [Option.isSome_none, if_neg Bool.false_ne_true, set_of_absent hlookup,
          List.append_assoc]
      · rw [hlookup] at hany
        rw [Option.isSome_none, if_neg Bool.false_ne_true, if_neg (by simp), setKey, hany,
          if_neg (by simp), helements]
        split
        · next hnil => rw [hnil]; rfl
        · next hne =>
          obtain ⟨others, last, hlast⟩ := (List.eq_nil_or_concat added).resolve_left hne
          have hfresh : (fresh last.1 last.2).isFresh = true := rfl
          rw [hlast, List.concat_eq_append, List.map_append, List.map_append, List.map_singleton,
            ← List.append_assoc, endLast_concat, hfresh, if_pos rfl]
          simp

/-- The text of a file without what goes from its end, and what comes for it. -/
theorem endLast_text (hsources : ∀ e ∈ elements, e.source ≠ []) :
    ∃ kept tail eol, Dropped tail ∧ (eol = [] ∨ eol = ['\n']) ∧
      dumps elements = kept ++ tail ∧ dumps (endLast elements) = kept ++ eol := by
  rcases List.eq_nil_or_concat elements with rfl | ⟨init, e, rfl⟩
  · exact ⟨[], [], [], by simp [Dropped], .inl rfl, rfl, rfl⟩
  rw [List.concat_eq_append] at hsources ⊢
  have hsource := hsources e (by simp)
  obtain ⟨kept, tail, eol, htail, heol, hs, hend⟩ : ∃ kept tail eol, Dropped tail ∧
      (eol = [] ∨ eol = ['\n']) ∧ e.source = kept ++ tail ∧ e.endSource = kept ++ eol := by
    have hadd : ∀ s, ∃ eol, (eol = [] ∨ eol = ['\n']) ∧ addEol s = s ++ eol := by
      intro s
      rw [addEol]
      split
      · exact ⟨[], .inl rfl, (List.append_nil s).symm⟩
      · exact ⟨['\n'], .inr rfl, rfl⟩
    cases e with
    | comment source =>
      obtain ⟨eol, heol, hadd⟩ := hadd source
      exact ⟨source, [], eol, by simp [Dropped], heol, (List.append_nil source).symm, hadd⟩
    | whitespace source =>
      obtain ⟨eol, heol, hadd⟩ := hadd source
      exact ⟨source, [], eol, by simp [Dropped], heol, (List.append_nil source).symm, hadd⟩
    | keyValue key value source =>
      obtain ⟨eol, heol, hadd⟩ := hadd (subContinued source)
      obtain ⟨tail, htail, hsub⟩ := subContinued_append source
      exact ⟨subContinued source, tail, eol, htail, heol, hsub, hadd⟩
  refine ⟨dumps init ++ kept, tail, eol, htail, heol, ?_, ?_⟩
  · rw [dumps, List.flatMap_append, List.flatMap_singleton, dumped_of_source hsource, hs,
      List.append_assoc]
    rfl
  · rw [endLast_concat, isFresh_of_source hsource, if_neg Bool.false_ne_true, dumps,
      List.flatMap_append, List.flatMap_singleton, endLine_dumped, hend, List.append_assoc]
    rfl

/-- With `only_if_absent` the text grows by a line for each entry that its dict grows by. What was
there stays, but for a backslash that would continue the last line, and its ending. -/
theorem merge_grows (hload : loads existing = .ok items) (updates : List (Key × Value)) :
    ∃ added kept tail eol,
      mergeItems true items updates = items ++ added ∧ existing = kept ++ tail ∧
      Dropped tail ∧ (eol = [] ∨ eol = ['\n']) ∧
      merge existing updates true = .ok (if added = [] then existing
        else kept ++ eol ++ added.flatMap fun item => joinKeyValue item.1 item.2 ++ ['\n']) := by
  obtain ⟨elements, hparse, rfl⟩ := map_ok hload
  have hsources := (parse_coherent hparse).2
  obtain ⟨added, -, hitems, helements⟩ := mergeElements_eq elements updates
  obtain ⟨kept, tail, eol, htail, heol, hdumps, hend⟩ := endLast_text hsources
  rw [dumps_parse hparse] at hdumps
  refine ⟨added, kept, tail, eol, hitems, hdumps, htail, heol, ?_⟩
  rw [merge_eq, hparse]
  show Except.ok (dumps (mergeElements true elements updates)) = _
  rw [helements]
  split
  · rw [dumps_parse hparse]
  · rw [dumps, List.flatMap_append, ← dumps, hend, List.flatMap_map]
    rfl

theorem merge_grows_continued : ∃ added kept tail eol,
    mergeItems true [([97], [49])] [([98], [50])] = [([97], [49])] ++ added ∧
      ['a', '=', '1', '\\'] = kept ++ tail ∧ Dropped tail ∧ (eol = [] ∨ eol = ['\n']) ∧
      merge ['a', '=', '1', '\\'] [([98], [50])] true = .ok (if added = [] then ['a', '=', '1', '\\']
        else kept ++ eol ++ added.flatMap fun item => joinKeyValue item.1 item.2 ++ ['\n']) :=
  merge_grows rfl [([98], [50])]

end UnifiContainers.Properties
