import UnifiContainers.Properties.Writing

/-!
# The elements of a file

Each element that the parser answers reads as itself, and all but the last leave nothing to be
continued, so that the sources can be taken out, changed and put back one by one.
-/

namespace UnifiContainers.Properties

variable {c : Char} {l s u v text : List Char} {ls xs ys : List (List Char)}

/-! ### Lines and their order -/

/-- One line can follow another: the first is ended, and not within a `\r\n`. -/
def Follows (l m : List Char) : Prop :=
  (∃ c ∈ l.getLast?, isEol c = true) ∧ ¬(l.getLast? = some '\r' ∧ m.head? = some '\n')

/-- The lines of some text. -/
structure Splits (ls : List (List Char)) : Prop where
  line : ∀ l ∈ ls, l ≠ [] ∧ IsLine l
  chain : ls.IsChain Follows

theorem splits_nil : Splits [] := ⟨by simp, List.isChain_nil⟩

theorem Splits.left (h : Splits (xs ++ ys)) : Splits xs :=
  ⟨fun l hl => h.line l (List.mem_append_left ys hl), (List.isChain_append.mp h.chain).1⟩

theorem Splits.right (h : Splits (xs ++ ys)) : Splits ys :=
  ⟨fun l hl => h.line l (List.mem_append_right xs hl), (List.isChain_append.mp h.chain).2.1⟩

theorem Splits.tail (h : Splits (l :: ls)) : Splits ls :=
  ⟨fun m hm => h.line m (List.mem_cons_of_mem l hm), h.chain.tail⟩

theorem splits_cons (hne : l ≠ []) (hline : IsLine l) (hls : Splits ls)
    (hfollows : ∀ m ∈ ls.head?, Follows l m) : Splits (l :: ls) := by
  constructor
  · intro m hm
    rcases List.mem_cons.mp hm with rfl | hm
    · exact ⟨hne, hline⟩
    · exact hls.line m hm
  · exact List.isChain_cons.mpr ⟨hfollows, hls.chain⟩

theorem getLast?_cons_of_ne_nil {α : Type*} {l : List α} (h : l ≠ []) (c : α) :
    (c :: l).getLast? = l.getLast? := by
  cases l with
  | nil => exact absurd rfl h
  | cons d l => rfl

theorem head?_flatten (hl : l ≠ []) (ls : List (List Char)) : (l :: ls).flatten.head? = l.head? := by
  cases l with
  | nil => exact absurd rfl hl
  | cons c l => rfl

theorem splits_consLine (hc : isEol c = false) (h : Splits ls) : Splits (consLine c ls) := by
  cases ls with
  | nil => exact splits_cons (List.cons_ne_nil c []) (isLine_cons hc (by decide)) splits_nil (by simp)
  | cons l ls =>
    have hl := h.line l List.mem_cons_self
    refine splits_cons (List.cons_ne_nil c l) (isLine_cons hc hl.2) h.tail ?_
    intro m hm
    have hfollows := (List.isChain_cons.mp h.chain).1 m hm
    rwa [Follows, getLast?_cons_of_ne_nil hl.1]

theorem splits_asciiSplitlines (text : List Char) : Splits (asciiSplitlines text) := by
  induction text using lines_cases with
  | nil => exact splits_nil
  | lf rest ih =>
    rw [asciiSplitlines_lf]
    exact splits_cons (List.cons_ne_nil _ _) (by decide) ih fun m _ => ⟨⟨'\n', rfl, rfl⟩, by simp⟩
  | crlf rest ih =>
    rw [asciiSplitlines_crlf]
    exact splits_cons (List.cons_ne_nil _ _) (by decide) ih fun m _ => ⟨⟨'\n', rfl, rfl⟩, by simp⟩
  | cr rest h ih =>
    rw [asciiSplitlines_cr h]
    refine splits_cons (List.cons_ne_nil _ _) (by decide) ih fun m hm => ⟨⟨'\r', rfl, rfl⟩, ?_⟩
    rintro ⟨-, hhead⟩
    have hflat := flatten_asciiSplitlines rest
    cases hlines : asciiSplitlines rest with
    | nil =>
      rw [hlines] at hm
      cases hm
    | cons first others =>
      rw [hlines] at hm ih hflat
      cases hm
      rw [← hflat, head?_flatten (ih.line _ List.mem_cons_self).1] at h
      exact h hhead
  | char c rest hc ih =>
    rw [asciiSplitlines_cons hc]
    exact splits_consLine hc ih

/-- A line that others can follow is split off as it is. -/
theorem asciiSplitlines_append (hne : l ≠ []) (hline : IsLine l)
    (hv : v = [] ∨ (∃ c ∈ l.getLast?, isEol c = true) ∧
      ¬(l.getLast? = some '\r' ∧ v.head? = some '\n')) :
    asciiSplitlines (l ++ v) = l :: asciiSplitlines v := by
  induction l with
  | nil => exact absurd rfl hne
  | cons c l ih =>
    by_cases hc : isEol c = true
    · have hending : ending (c :: l) = c :: l := List.dropWhile_cons_of_neg (by simp [hc])
      rw [IsLine, hending] at hline
      simp only [List.mem_cons, List.cons.injEq, reduceCtorEq, List.not_mem_nil, or_false,
        false_or] at hline
      rcases hline with ⟨rfl, rfl⟩ | ⟨rfl, rfl⟩ | ⟨rfl, rfl⟩
      · refine asciiSplitlines_cr fun hhead => ?_
        rcases hv with rfl | ⟨-, hnot⟩
        · cases hhead
        · exact hnot ⟨rfl, hhead⟩
      · exact asciiSplitlines_lf v
      · exact asciiSplitlines_crlf v
    · have hc' : isEol c = false := by simpa using hc
      have hline' : IsLine l := by
        rw [IsLine, ending, List.dropWhile_cons_of_pos (by simp [hc'])] at hline
        exact hline
      rw [List.cons_append, asciiSplitlines_cons hc']
      by_cases hnil : l = []
      · subst hnil
        rcases hv with rfl | ⟨⟨d, hd, heol⟩, -⟩
        · rfl
        · cases hd
          exact absurd heol hc
      · rw [getLast?_cons_of_ne_nil hnil] at hv
        rw [ih hnil hline' hv]
        rfl

theorem asciiSplitlines_flatten (h : Splits ls) : asciiSplitlines ls.flatten = ls := by
  induction ls with
  | nil => rfl
  | cons l ls ih =>
    have hl := h.line l List.mem_cons_self
    rw [List.flatten_cons, asciiSplitlines_append hl.1 hl.2 ?_, ih h.tail]
    cases ls with
    | nil => exact .inl rfl
    | cons m ls =>
      have hfollows := (List.isChain_cons.mp h.chain).1 m rfl
      have hm := h.line m (List.mem_cons_of_mem l List.mem_cons_self)
      rw [head?_flatten hm.1]
      exact .inr hfollows

theorem contents_flatten (h : Splits ls) : contents ls.flatten = ls.map content := by
  rw [contents, asciiSplitlines_flatten h]

theorem getLast?_flatten (h : Splits (ls ++ [l])) : (ls ++ [l]).flatten.getLast? = l.getLast? := by
  have hl := (h.line l (by simp)).1
  rw [List.flatten_append, List.flatten_singleton, List.getLast?_append]
  cases hlast : l.getLast? with
  | none => exact absurd (List.getLast?_eq_none_iff.mp hlast) hl
  | some c => rfl

theorem terminated_of_splits (h : Splits (xs ++ ys)) (hys : ys ≠ []) : Terminated xs.flatten := by
  rcases List.eq_nil_or_concat xs with rfl | ⟨init, l, rfl⟩
  · intro c hc
    cases hc
  · rw [List.concat_eq_append] at h ⊢
    intro c hc
    rw [getLast?_flatten h.left] at hc
    obtain ⟨m, ys, rfl⟩ := List.exists_cons_of_ne_nil hys
    obtain ⟨⟨d, hd, heol⟩, -⟩ := (List.isChain_append.mp h.chain).2.2 l (by simp) m rfl
    cases hc.symm.trans hd
    exact heol

/-! ### Elements -/

/-- A `KeyValue` whose source is `_NOSOURCE`: it was set, not read. -/
def Element.isFresh : Element → Bool
  | .keyValue _ _ source => source.isEmpty
  | _ => false

/-- What `dump` writes for an element. -/
def Element.dumped : Element → List Char
  | .comment source => source
  | .whitespace source => source
  | .keyValue key value source =>
      if source = [] then joinKeyValue key value ++ ['\n'] else source

/-- `_with_source` -/
def Element.withSource : Element → List Char → Element
  | .comment _, source => .comment source
  | .whitespace _, source => .whitespace source
  | .keyValue key value _, source => .keyValue key value source

def dumps (elements : List Element) : List Char := elements.flatMap Element.dumped

theorem dumped_of_source {e : Element} (h : e.source ≠ []) : e.dumped = e.source := by
  cases e with
  | comment source => rfl
  | whitespace source => rfl
  | keyValue key value source => exact if_neg h

theorem isFresh_of_source {e : Element} (h : e.source ≠ []) : e.isFresh = false := by
  cases e with
  | comment source => rfl
  | whitespace source => rfl
  | keyValue key value source => exact List.isEmpty_eq_false_iff.mpr h

/-- What an element is written as means the element's own entry. -/
def Element.Faithful (e : Element) : Prop := meaning e.dumped = .ok (entries [e])

/-- Any element can be written after this one. -/
def Element.Closed (e : Element) : Prop := Terminated e.dumped ∧ pendingOf e.dumped = none

/-- A line of blanks is to be continued, which a line of an entry can do without a difference. -/
def Element.Drained (e : Element) : Prop := Terminated e.dumped ∧ pendingOf e.dumped = some []

/-- Elements that read as themselves when they are written one after the other. -/
def Coherent : List Element → Prop
  | [] => True
  | e :: rest =>
      e.Faithful ∧ Coherent rest ∧
        (rest = [] ∨ e.Closed ∨ e.Drained ∧ ∀ f ∈ rest, f.isFresh = true)

theorem coherent_faithful {elements : List Element} (h : Coherent elements) :
    ∀ e ∈ elements, e.Faithful := by
  induction elements with
  | nil => simp
  | cons e rest ih =>
    obtain ⟨hfaithful, hrest, -⟩ := h
    intro f hf
    rcases List.mem_cons.mp hf with rfl | hf
    · exact hfaithful
    · exact ih hrest f hf

theorem entriesOf_singleton (line : List Char) : entriesOf [line] = entryOf line := by
  rw [entriesOf_cons]
  cases entryOf line with
  | error e => rfl
  | ok first => exact congrArg Except.ok (List.append_nil first)

/-- The lines of an element, which complete at most one logical line. -/
theorem meaning_flatten (h : Splits ls) : meaning ls.flatten =
    entriesOf ((logical none (ls.map content)).1 ++ (logical none (ls.map content)).2.toList) := by
  rw [meaning, contents_flatten h, logicalLines]

theorem pendingOf_flatten (h : Splits ls) :
    pendingOf ls.flatten = (logical none (ls.map content)).2 := by
  rw [pendingOf, contents_flatten h]

theorem flatten_ne_nil (h : Splits ls) (hne : ls ≠ []) : ls.flatten ≠ [] := by
  obtain ⟨l, ls, rfl⟩ := List.exists_cons_of_ne_nil hne
  have hl := (h.line l List.mem_cons_self).1
  rw [List.flatten_cons]
  exact fun hnil => hl (List.append_eq_nil_iff.mp hnil).1

theorem coherent_cons {e : Element} {others : List Element} (h : Splits (xs ++ ys)) (hxs : xs ≠ [])
    (hsource : e.source = xs.flatten)
    (hmeaning : entriesOf (logical none (xs.map content)).1 = .ok (entries [e]))
    (hpending : (logical none (xs.map content)).2 = none) (hys : ys = [] → others = [])
    (hothers : Coherent others) : Coherent (e :: others) := by
  have hne := flatten_ne_nil h.left hxs
  have hdumped : e.dumped = xs.flatten := by rw [dumped_of_source (hsource ▸ hne), hsource]
  refine ⟨?_, hothers, ?_⟩
  · rw [Element.Faithful, hdumped, meaning_flatten h.left, hpending, Option.toList_none,
      List.append_nil, hmeaning]
  · by_cases hnil : ys = []
    · exact .inl (hys hnil)
    · refine .inr (.inl ⟨?_, ?_⟩)
      · rw [hdumped]
        exact terminated_of_splits h hnil
      · rw [hdumped, pendingOf_flatten h.left, hpending]

open Fallible

theorem entryOf_of_elementOf {line source : List Char} {e : Element}
    (h : elementOf line source = .ok e) : entryOf line = .ok (entries [e]) := by
  rw [← entries_elementOf line source, h]
  rfl

/-- What the parser answers from here on, when the lines `xs` wait to be continued. -/
theorem parseFrom_coherent {pending : Option (List Char × List Char)} {elements : List Element}
    (hsplits : Splits (xs ++ ys)) (hnone : pending = none → xs = [])
    (hsource : (pending.getD ([], [])).2 = xs.flatten)
    (hpending : logical none (xs.map content) = ([], pending.map Prod.fst))
    (heol : ∀ read ∈ pending, ∀ c ∈ read.1, isEol c = false)
    (h : parseFrom pending ys = .ok elements) :
    Coherent elements ∧ ∀ e ∈ elements, e.source ≠ [] := by
  induction ys generalizing xs pending elements with
  | nil =>
    cases pending with
    | none =>
      cases h
      exact ⟨trivial, by simp⟩
    | some read =>
      obtain ⟨e, he, h⟩ := bind_ok h
      cases h
      have hxs : xs ≠ [] := by
        rintro rfl
        cases hpending
      have hread : e.source = xs.flatten := (elementOf_source he).trans hsource
      have hne := flatten_ne_nil hsplits.left hxs
      refine ⟨⟨?_, trivial, .inl rfl⟩, ?_⟩
      · rw [Element.Faithful, dumped_of_source (hread ▸ hne), hread, meaning_flatten hsplits.left,
          hpending]
        exact (entriesOf_singleton read.1).trans (entryOf_of_elementOf he)
      · intro other hother
        obtain rfl := List.mem_singleton.mp hother
        exact hread ▸ hne
  | cons next rest ih =>
    have hnext := (hsplits.line next (by simp)).2
    have hsplits' : Splits ((xs ++ [next]) ++ rest) := by
      rwa [List.append_assoc, List.singleton_append]
    have hrest : Splits ([] ++ rest) := hsplits'.right
    have hlast : ∀ others, parseFrom none rest = .ok others → rest = [] → others = [] := by
      rintro others hothers rfl
      cases hothers
      rfl
    have hlogical : logical none ((xs ++ [next]).map content) =
        feed (pending.map Prod.fst) (content next) := by
      rw [List.map_append, logical_append, hpending]
      simp [logical]
    rw [feed_content hnext heol] at hlogical
    rw [parseFrom_cons] at h
    split at h
    · next hcomment =>
      rw [if_pos hcomment] at hlogical
      rw [Bool.and_eq_true, Option.isNone_iff_eq_none] at hcomment
      obtain ⟨others, hothers, rfl⟩ := map_ok h
      obtain rfl := hnone hcomment.1
      obtain ⟨hcoherent, hsources⟩ := ih hrest (fun _ => rfl) rfl rfl (by simp) hothers
      refine ⟨coherent_cons hsplits' (List.cons_ne_nil _ _) (by simp [Element.source]) ?_ ?_
        (hlast others hothers) hcoherent, ?_⟩
      · rw [hlogical]
        rfl
      · rw [hlogical]
      · intro e he
        rcases List.mem_cons.mp he with rfl | he
        · exact (hsplits.line next (by simp)).1
        · exact hsources e he
    · next hcomment =>
      rw [if_neg hcomment] at hlogical
      split at h
      · next hblank =>
        rw [if_pos hblank] at hlogical
        rw [Bool.and_eq_true, Option.isNone_iff_eq_none] at hblank
        obtain ⟨others, hothers, rfl⟩ := map_ok h
        obtain rfl := hnone hblank.1
        obtain ⟨hcoherent, hsources⟩ := ih hrest (fun _ => rfl) rfl rfl (by simp) hothers
        refine ⟨coherent_cons hsplits' (List.cons_ne_nil _ _) (by simp [Element.source]) ?_ ?_
          (hlast others hothers) hcoherent, ?_⟩
        · rw [hlogical, entriesOf_empty]
          rfl
        · rw [hlogical]
        · intro e he
          rcases List.mem_cons.mp he with rfl | he
          · exact (hsplits.line next (by simp)).1
          · exact hsources e he
      · next hblank =>
        rw [if_neg hblank] at hlogical
        have hread : (pending.getD ([], [])).2 ++ next = (xs ++ [next]).flatten := by
          rw [hsource, List.flatten_append, List.flatten_singleton]
        dsimp only at h
        split at h
        · next hcontinued =>
          rw [if_pos hcontinued] at hlogical
          refine ih hsplits' ?_ ?_ ?_ ?_ h
          · intro hnil
            cases hnil
          · exact hread
          · exact hlogical
          · intro read hread c hc
            cases hread
            exact not_isEol_of_mem_joined hnext heol ((List.dropLast_sublist _).subset hc)
        · next hcontinued =>
          rw [if_neg hcontinued] at hlogical
          obtain ⟨e, he, h⟩ := bind_ok h
          obtain ⟨others, hothers, h⟩ := bind_ok h
          cases h
          obtain ⟨hcoherent, hsources⟩ := ih hrest (fun _ => rfl) rfl rfl (by simp) hothers
          have hsource' : e.source = (xs ++ [next]).flatten := (elementOf_source he).trans hread
          refine ⟨coherent_cons hsplits' (by simp) hsource' ?_ ?_ (hlast others hothers) hcoherent,
            ?_⟩
          · rw [hlogical, entriesOf_singleton, entryOf_of_elementOf he]
          · rw [hlogical]
          · intro other hother
            rcases List.mem_cons.mp hother with rfl | hother
            · rw [hsource']
              exact flatten_ne_nil hsplits'.left (by simp)
            · exact hsources other hother

/-- The elements of a text read as themselves, and none of them is without a source. -/
theorem parse_coherent {elements : List Element} (h : parse text = .ok elements) :
    Coherent elements ∧ ∀ e ∈ elements, e.source ≠ [] := by
  rw [parse, lineiter_eq] at h
  have hsplits : Splits ([] ++ asciiSplitlines text) := splits_asciiSplitlines text
  exact parseFrom_coherent hsplits (fun _ => rfl) rfl rfl (by simp) h

/-! ### Writing elements one after the other -/

theorem contents_of_not_eol (hl : ∀ c ∈ l, isEol c = false) (hne : l ≠ []) : contents l = [l] := by
  have hending : ending l = [] := List.dropWhile_eq_nil_iff.mpr fun c hc => by simp [hl c hc]
  have hsplits : Splits [l] :=
    splits_cons hne (by rw [IsLine, hending]; exact List.mem_cons_self) splits_nil (by simp)
  have hcontents := contents_flatten hsplits
  rwa [List.flatten_singleton, List.map_singleton, content_of_not_eol hl] at hcontents

/-- A text that does not end in a line ending may be given one. -/
theorem contents_line (hl : ∀ c ∈ l, isEol c = false) (text : List Char) :
    contents (l ++ '\n' :: text) = l :: contents text := by
  induction l with
  | nil => exact contents_lf text
  | cons c l ih =>
    rw [List.cons_append, contents_cons (hl c List.mem_cons_self),
      ih fun d hd => hl d (List.mem_cons_of_mem c hd)]
    rfl

variable {key value : List CodePoint} {p : List Char} {e : Element} {elements : List Element}

theorem joinKeyValue_not_comment (key value : List CodePoint) :
    isComment (joinKeyValue key value) = false := by
  obtain ⟨c, rest, hjoin, hblank, -, hmark⟩ := joinKeyValue_head key value
  rw [hjoin, isComment, List.dropWhile_cons_of_neg (by simp [hblank]), List.head?_cons,
    Option.any_some]
  simp only [List.mem_cons, List.not_mem_nil, or_false, not_or] at hmark
  simp [hmark.1, hmark.2]

theorem joinKeyValue_stripped (key value : List CodePoint) :
    (joinKeyValue key value).dropWhile isBlank = joinKeyValue key value := by
  obtain ⟨c, rest, hjoin, hblank, -⟩ := joinKeyValue_head key value
  rw [hjoin]
  exact List.dropWhile_cons_of_neg (by simp [hblank])

theorem dangles_append (hu : dangles u = false) (v : List Char) : dangles (u ++ v) = dangles v := by
  induction u using escape_cases with
  | nil => rfl
  | single => cases hu
  | plain c rest hc ih =>
    rw [dangles_plain hc] at hu
    rw [List.cons_append, dangles_plain hc, ih hu]
  | pair d rest ih =>
    rw [dangles_pair] at hu
    rw [List.cons_append, List.cons_append, dangles_pair, ih hu]

/-- A written line completes the line that it continues, if one is to be continued. -/
theorem feed_joinKeyValue {pending : Option (List Char)} (h : dangles (pending.getD []) = false)
    (key value : List CodePoint) : feed pending (joinKeyValue key value) =
      ([pending.getD [] ++ joinKeyValue key value], none) := by
  have hline : dangles (pending.getD [] ++ joinKeyValue key value) = false := by
    rw [dangles_append h, dangles_joinKeyValue]
  rw [feed, joinKeyValue_not_comment, Bool.and_false, joinKeyValue_stripped]
  simp only [hline, Bool.false_eq_true, if_false]

theorem logicalLines_joinKeyValue {pending : Option (List Char)}
    (h : dangles (pending.getD []) = false) (key value : List CodePoint) (text : List Char) :
    logicalLines pending (contents (joinKeyValue key value ++ '\n' :: text)) =
      (pending.getD [] ++ joinKeyValue key value) :: logicalLines none (contents text) := by
  rw [contents_line (joinKeyValue_not_eol key value), logicalLines_cons, feed_joinKeyValue h]
  rfl

theorem isFresh_iff : e.isFresh = true ↔ ∃ key value, e = .keyValue key value [] := by
  cases e with
  | comment source => exact iff_of_false Bool.false_ne_true fun ⟨_, _, h⟩ => by cases h
  | whitespace source => exact iff_of_false Bool.false_ne_true fun ⟨_, _, h⟩ => by cases h
  | keyValue key value source =>
    rw [Element.isFresh, List.isEmpty_iff]
    constructor
    · rintro rfl
      exact ⟨key, value, rfl⟩
    · rintro ⟨_, _, h⟩
      cases h
      rfl

/-- A line that was only blanks so far is continued by the line of an entry as if it were not. -/
theorem meaningFrom_drained (hfresh : ∀ f ∈ elements, f.isFresh = true) :
    meaningFrom (some []) (dumps elements) = meaning (dumps elements) := by
  cases elements with
  | nil => rfl
  | cons f elements =>
    obtain ⟨key, value, rfl⟩ := isFresh_iff.mp (hfresh f List.mem_cons_self)
    have htext : dumps (.keyValue key value [] :: elements) =
        joinKeyValue key value ++ '\n' :: dumps elements := by
      rw [dumps, List.flatMap_cons, Element.dumped, if_pos rfl, List.append_assoc]
      rfl
    rw [meaningFrom, meaning, htext, logicalLines_joinKeyValue rfl, logicalLines_joinKeyValue rfl]
    rfl

theorem completed_of_drained (h : pendingOf u = some []) : completed u = meaning u := by
  rw [pendingOf] at h
  rw [completed, meaning, logicalLines, h, entriesOf_append, Option.toList_some, entriesOf_empty,
    entriesOf]
  cases entriesOf (logical none (contents u)).1 with
  | error e => rfl
  | ok first => exact congrArg Except.ok (List.append_nil first).symm

theorem entries_cons (e : Element) (elements : List Element) :
    entries (e :: elements) = entries [e] ++ entries elements :=
  List.filterMap_append (l := [e])

theorem dumps_head (hfresh : ∀ f ∈ elements, f.isFresh = true) :
    (dumps elements).head? ≠ some '\n' := by
  cases elements with
  | nil => simp [dumps]
  | cons f elements =>
    obtain ⟨key, value, rfl⟩ := isFresh_iff.mp (hfresh f List.mem_cons_self)
    obtain ⟨c, rest, hjoin, -, heol, -⟩ := joinKeyValue_head key value
    rw [dumps, List.flatMap_cons, Element.dumped, if_pos rfl, hjoin]
    intro hhead
    cases hhead
    cases heol

/-- Elements that read as themselves are read back with their entries. -/
theorem meaning_dumps (h : Coherent elements) :
    meaning (dumps elements) = .ok (entries elements) := by
  induction elements with
  | nil => rfl
  | cons e rest ih =>
    obtain ⟨hfaithful, hrest, hlast | hclosed | ⟨hdrained, hfresh⟩⟩ := h
    · subst hlast
      rw [dumps, List.flatMap_singleton, hfaithful]
    · rw [dumps, List.flatMap_cons, meaning_append hclosed.1 hclosed.2, hfaithful, ← dumps, ih hrest,
        entries_cons e rest]
      rfl
    · rw [dumps, List.flatMap_cons, ← dumps, meaning_append_of_head hdrained.1 (dumps_head hfresh),
        hdrained.2, meaningFrom_drained hfresh, completed_of_drained hdrained.2, hfaithful, ih hrest,
        entries_cons e rest]
      rfl

end UnifiContainers.Properties
