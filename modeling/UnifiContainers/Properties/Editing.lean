import UnifiContainers.Properties.Elements

/-!
# Setting a key

A key that the file holds is rewritten where it first stands; a new one goes to the end, behind a
last line that is given an ending and relieved of a backslash that would continue it. The backslash
goes, not the line that it leaves empty: if the line before is to be continued too, the new key
continues that.
-/

namespace UnifiContainers.Properties

variable {c : Char} {l s u v text : List Char} {ls : List (List Char)} {key other : Key}
  {value : Value} {e : Element} {elements : List Element}

/-! ### The end of the last line -/

/-- `lastsrc` with a line ending. -/
def addEol (lastsrc : List Char) : List Char :=
  if lastsrc.getLast?.any isEol then lastsrc else lastsrc ++ ['\n']

/-- `lastsrc`, the source of the last line before a new one is added. -/
def Element.endSource : Element → List Char
  | .keyValue _ _ source => addEol (subContinued source)
  | lastline => addEol lastline.source

def Element.endLine (lastline : Element) : Element := lastline.withSource lastline.endSource

theorem terminated_addEol (s : List Char) : Terminated (addEol s) := by
  intro c hc
  rw [addEol] at hc
  split at hc
  · next hany =>
    rw [Option.mem_def] at hc
    rwa [hc, Option.any_some] at hany
  · rw [List.getLast?_append] at hc
    cases hc
    rfl

/-- The last line of a text, and the text before it. -/
theorem last_line (h : s ≠ []) : ∃ ls l, Splits (ls ++ [l]) ∧ s = (ls ++ [l]).flatten := by
  have hflat := flatten_asciiSplitlines s
  have hne : asciiSplitlines s ≠ [] := by
    intro hnil
    rw [hnil] at hflat
    exact h hflat.symm
  obtain ⟨ls, l, hlast⟩ := List.eq_nil_or_concat (asciiSplitlines s) |>.resolve_left hne
  rw [List.concat_eq_append] at hlast
  exact ⟨ls, l, hlast ▸ splits_asciiSplitlines s, by rw [← hlast, hflat]⟩

theorem getLast?_append_of_ne_nil {α : Type*} {v : List α} (hv : v ≠ []) (u : List α) :
    (u ++ v).getLast? = v.getLast? := by
  rw [List.getLast?_append]
  cases hlast : v.getLast? with
  | none => exact absurd (List.getLast?_eq_none_iff.mp hlast) hv
  | some c => rfl

theorem contents_append_lf (hs : s ≠ []) (h : s.getLast?.any isEol = false) :
    contents (s ++ ['\n']) = contents s := by
  have htail : ∀ {c rest}, isEol c = true → (c :: rest).getLast?.any isEol = false →
      rest ≠ [] ∧ rest.getLast?.any isEol = false := by
    intro c rest hc hlast
    have hne : rest ≠ [] := by
      rintro rfl
      rw [List.getLast?_singleton, Option.any_some, hc] at hlast
      cases hlast
    exact ⟨hne, by rwa [getLast?_cons_of_ne_nil hne] at hlast⟩
  induction s using lines_cases with
  | nil => exact absurd rfl hs
  | lf rest ih =>
    obtain ⟨hne, hlast⟩ := htail rfl h
    rw [List.cons_append, contents_lf, contents_lf, ih hne hlast]
  | crlf rest ih =>
    obtain ⟨-, hlast⟩ := htail rfl h
    obtain ⟨hne, hlast⟩ := htail rfl hlast
    rw [List.cons_append, List.cons_append, contents_crlf, contents_crlf, ih hne hlast]
  | cr rest hhead ih =>
    obtain ⟨hne, hlast⟩ := htail rfl h
    obtain ⟨d, rest, rfl⟩ := List.exists_cons_of_ne_nil hne
    have hnext : (d :: rest ++ ['\n']).head? ≠ some '\n' := hhead
    rw [List.cons_append, contents_cr hnext, contents_cr hhead, ih hne hlast]
  | char c rest hc ih =>
    rw [List.cons_append, contents_cons hc, contents_cons hc]
    by_cases hne : rest = []
    · subst hne
      rfl
    · rw [getLast?_cons_of_ne_nil hne] at h
      rw [ih hne h]

/-- With a line ending a text has the lines that it has without. -/
theorem contents_addEol (h : s ≠ []) : contents (addEol s) = contents s := by
  rw [addEol]
  split
  · rfl
  · next hlast => exact contents_append_lf h (by simpa using hlast)

theorem getLast?_content (hc : c ∈ (content l).getLast?) : isEol c = false :=
  not_isEol_of_mem_content (List.mem_of_getLast? hc)

theorem dropEol_concat_lf (s : List Char) :
    dropEol (s ++ ['\n']) = if s.getLast? = some '\r' then s.dropLast else s := by
  rw [dropEol, if_pos List.getLast?_concat, List.dropLast_concat]

theorem dropEol_concat_cr (s : List Char) : dropEol (s ++ ['\r']) = s := by
  have hne : (s ++ ['\r']).getLast? ≠ some '\n' := by
    rw [List.getLast?_concat]
    decide
  rw [dropEol, if_neg hne]
  exact (if_pos List.getLast?_concat).trans List.dropLast_concat

theorem dropEol_flatten (h : Splits (ls ++ [l])) :
    dropEol (ls ++ [l]).flatten = ls.flatten ++ content l := by
  have hl := h.line l (by simp)
  have hlast : content l ≠ [] → ∀ d, isEol d = true →
      (ls.flatten ++ content l).getLast? ≠ some d := by
    intro hne d hd heq
    rw [getLast?_append_of_ne_nil hne] at heq
    rw [getLast?_content heq] at hd
    cases hd
  have hflat : (ls ++ [l]).flatten = ls.flatten ++ content l ++ ending l := by
    rw [List.flatten_append, List.flatten_singleton, List.append_assoc, content_append_ending]
  have hending := hl.2
  rw [IsLine, List.mem_cons, List.mem_cons, List.mem_cons, List.mem_singleton] at hending
  rw [hflat]
  rcases hending with hnil | hcr | hlf | hcrlf
  · have hne : content l ≠ [] := by
      intro hcontent
      refine hl.1 ?_
      rw [← content_append_ending l, hcontent, hnil]
      rfl
    rw [hnil, List.append_nil, dropEol, if_neg (hlast hne '\n' rfl)]
    exact if_neg (hlast hne '\r' rfl)
  · rw [hcr, dropEol_concat_cr]
  · rw [hlf, dropEol_concat_lf, if_neg]
    by_cases hne : content l = []
    · -- the line before does not end within a `\r\n`
      have hline : l = ['\n'] := by rw [← content_append_ending l, hne, hlf, List.nil_append]
      rw [hne, List.append_nil]
      rcases List.eq_nil_or_concat ls with rfl | ⟨init, m, rfl⟩
      · simp
      · rw [List.concat_eq_append] at h ⊢
        have hfollows := (List.isChain_append.mp h.chain).2.2 m (by simp) l (by simp)
        rw [getLast?_flatten h.left]
        exact fun hcr => hfollows.2 ⟨hcr, by rw [hline]; rfl⟩
    · exact hlast hne '\r' rfl
  · have hconcat : ls.flatten ++ content l ++ ['\r', '\n'] =
        (ls.flatten ++ content l ++ ['\r']) ++ ['\n'] := by simp
    rw [hcrlf, hconcat, dropEol_concat_lf, if_pos List.getLast?_concat, List.dropLast_concat]

theorem trailing_terminated (hu : Terminated u) (v : List Char) :
    trailing (u ++ v) = trailing v := by
  rw [trailing, List.reverse_append, List.takeWhile_append, trailing]
  split
  · rcases List.eq_nil_or_concat u with rfl | ⟨init, d, rfl⟩
    · simp_all
    · rw [List.concat_eq_append] at hu ⊢
      have heol := hu d List.getLast?_concat
      have hd : (d == '\\') = false := by
        rw [beq_eq_false_iff_ne]
        rintro rfl
        cases heol
      simp_all
  · rfl

/-- A text is continued if its last line is. -/
theorem isContinued_flatten (h : Splits (ls ++ [l])) :
    isContinued (ls ++ [l]).flatten = dangles (content l) := by
  have hterminated := terminated_of_splits h (List.cons_ne_nil l [])
  rw [isContinued, dropEol_flatten h, dangles_eq, ← trailing, trailing_terminated hterminated]

/-! ### The backslash that continues a line -/

theorem dangles_split (h : dangles s = true) : ∃ r, s = r ++ ['\\'] ∧ dangles r = false := by
  induction s using escape_cases with
  | nil => cases h
  | single => exact ⟨[], rfl, rfl⟩
  | plain c rest hc ih =>
    rw [dangles_plain hc] at h
    obtain ⟨r, rfl, hr⟩ := ih h
    exact ⟨c :: r, rfl, by rw [dangles_plain hc, hr]⟩
  | pair d rest ih =>
    rw [dangles_pair] at h
    obtain ⟨r, rfl, hr⟩ := ih h
    exact ⟨'\\' :: d :: r, rfl, by rw [dangles_pair, hr]⟩

theorem dangles_stripped (s : List Char) : dangles (s.dropWhile isBlank) = dangles s := by
  induction s with
  | nil => rfl
  | cons c s ih =>
    rw [List.dropWhile_cons]
    split
    · next hblank =>
      rw [ih, dangles_plain]
      rintro rfl
      cases hblank
    · rfl

theorem stripped_backslash (r : List Char) :
    (r ++ ['\\']).dropWhile isBlank = r.dropWhile isBlank ++ ['\\'] := by
  rw [List.dropWhile_append]
  split
  · next hempty =>
    rw [List.isEmpty_iff.mp hempty]
    rfl
  · rfl

theorem isComment_backslash (r : List Char) : isComment (r ++ ['\\']) = isComment r := by
  rw [isComment, isComment, stripped_backslash]
  cases r.dropWhile isBlank <;> rfl

variable {pending : Option (List Char)}

theorem feed_of_not_dangles (hpending : dangles (pending.getD []) = false)
    (h : dangles l = false) : (feed pending l).2 = none := by
  have hline : dangles (pending.getD [] ++ l.dropWhile isBlank) = false := by
    rw [dangles_append hpending, dangles_stripped, h]
  rw [feed]
  simp only [hline, Bool.false_eq_true, if_false]
  split <;> rfl

theorem logical_not_dangles (lines : List (List Char)) (h : dangles (pending.getD []) = false) :
    dangles ((logical pending lines).2.getD []) = false := by
  induction lines generalizing pending with
  | nil => exact h
  | cons next lines ih =>
    refine ih ?_
    rw [feed]
    split
    · rfl
    · dsimp only
      split
      · next hdangles =>
        obtain ⟨r, hr, hdangles⟩ := dangles_split hdangles
        rw [hr, Option.getD_some, List.dropLast_concat, hdangles]
      · rfl

/-- A line without its last backslash, where it has more: what would have been continued ends. -/
theorem feed_backslash (hpending : dangles (pending.getD []) = false) {r : List Char}
    (hr : dangles r = false) :
    (feed pending (r ++ ['\\'])).1 ++ (feed pending (r ++ ['\\'])).2.toList =
      (feed pending r).1 := by
  have hline : dangles (pending.getD [] ++ r.dropWhile isBlank) = false := by
    rw [dangles_append hpending, dangles_stripped, hr]
  have hcontinued : dangles (pending.getD [] ++ (r.dropWhile isBlank ++ ['\\'])) = true := by
    rw [← List.append_assoc, dangles_append hline]
    rfl
  rw [feed, feed, isComment_backslash, stripped_backslash]
  simp only [hline, hcontinued, if_true, Bool.false_eq_true, if_false]
  split
  · rfl
  · rw [← List.append_assoc, List.dropLast_concat]
    rfl

theorem feed_lone (pending : Option (List Char)) (hpending : dangles (pending.getD []) = false) :
    feed pending ['\\'] = ([], some (pending.getD [])) := by
  have hcontinued : dangles (pending.getD [] ++ ['\\']) = true := by
    rw [dangles_append hpending]
    rfl
  have hcomment : isComment ['\\'] = false := rfl
  have hstripped : (['\\'] : List Char).dropWhile isBlank = ['\\'] := rfl
  rw [feed, hcomment, hstripped]
  simp only [hcontinued, Bool.and_false, Bool.false_eq_true, if_false, if_true,
    List.dropLast_concat]

theorem feed_empty (pending : Option (List Char)) (hpending : dangles (pending.getD []) = false) :
    feed pending [] = ([pending.getD []], none) := by
  have hcomment : isComment [] = false := rfl
  rw [feed, hcomment, Bool.and_false, List.dropWhile_nil, List.append_nil]
  simp only [hpending, Bool.false_eq_true, if_false]

/-- The last line is a backslash and nothing else, which would continue the line of an entry. -/
def LoneBackslash (text : List Char) : Prop :=
  (contents text).getLast? = some ['\\'] ∧ ∃ line ≠ [], pendingOf text = some line

theorem logical_singleton (pending : Option (List Char)) (l : List Char) :
    logical pending [l] = feed pending l := by
  simp [logical]

theorem logical_concat (pending : Option (List Char)) (lines : List (List Char)) (l : List Char) :
    logical pending (lines ++ [l]) =
      ((logical pending lines).1 ++ (feed (logical pending lines).2 l).1,
        (feed (logical pending lines).2 l).2) := by
  rw [logical_append, logical_singleton]

/-- The lines of a text whose last line was continued, without its last backslash. -/
theorem subContinued_flatten (h : Splits (ls ++ [l])) {r : List Char}
    (hr : content l = r ++ ['\\']) (hdangles : dangles r = false) :
    contents (subContinued (ls ++ [l]).flatten) =
      ls.map content ++ if r = [] then [] else [r] := by
  have hcontinued : isContinued (ls ++ [l]).flatten = true := by
    rw [isContinued_flatten h, hr, dangles_append hdangles]
    rfl
  have hnoeol : ∀ c ∈ r, isEol c = false := fun c hc =>
    not_isEol_of_mem_content (hr ▸ List.mem_append_left _ hc : c ∈ content l)
  rw [subContinued, if_pos hcontinued, dropEol_flatten h, hr, ← List.append_assoc,
    List.dropLast_concat]
  have hterminated := terminated_of_splits h (List.cons_ne_nil l [])
  rcases contents_append hterminated r with happend | ⟨w, rfl, -⟩
  · rw [happend, contents_flatten h.left]
    split
    · next hnil =>
      rw [hnil]
      rfl
    · next hne => rw [contents_of_not_eol hnoeol hne]
  · cases hnoeol '\n' List.mem_cons_self

theorem dangles_pending (ls : List (List Char)) : dangles ((logical none ls).2.getD []) = false :=
  logical_not_dangles ls rfl

/-- The last backslash adds nothing to what a text says. -/
theorem meaning_subContinued (s : List Char) : meaning (subContinued s) = meaning s := by
  by_cases hs : s = []
  · subst hs
    rfl
  obtain ⟨ls, l, hsplits, rfl⟩ := last_line hs
  by_cases hdangles : dangles (content l) = true
  · obtain ⟨r, hr, hrest⟩ := dangles_split hdangles
    have hpending := dangles_pending (ls.map content)
    rw [meaning, meaning, subContinued_flatten hsplits hr hrest, contents_flatten hsplits,
      List.map_append, List.map_singleton, logicalLines, logicalLines, logical_concat, hr,
      List.append_assoc, feed_backslash hpending hrest]
    split
    · next hnil =>
      rw [hnil, List.append_nil, entriesOf_append, entriesOf_append, feed_empty _ hpending]
      cases (logical none (ls.map content)).2 <;> rfl
    · next hne =>
      rw [logical_concat, feed_of_not_dangles hpending hrest, Option.toList_none, List.append_nil]
  · rw [subContinued, isContinued_flatten hsplits, if_neg hdangles]

/-- Without its last backslash a text leaves nothing to be continued but the line that a lone
backslash continued. -/
theorem pendingOf_subContinued (s : List Char) :
    LoneBackslash s ∧ pendingOf (subContinued s) = pendingOf s ∨
      ¬LoneBackslash s ∧
        (pendingOf (subContinued s) = none ∨ pendingOf (subContinued s) = some []) := by
  by_cases hs : s = []
  · subst hs
    refine .inr ⟨fun h => ?_, .inl rfl⟩
    cases h.1
  obtain ⟨ls, l, hsplits, rfl⟩ := last_line hs
  have hpending := dangles_pending (ls.map content)
  have hcontents : contents (ls ++ [l]).flatten = ls.map content ++ [content l] := by
    rw [contents_flatten hsplits, List.map_append, List.map_singleton]
  by_cases hlone : content l = ['\\']
  · have hbefore : pendingOf (ls ++ [l]).flatten =
        some ((logical none (ls.map content)).2.getD []) := by
      rw [pendingOf, hcontents, logical_concat, hlone, feed_lone _ hpending]
    have hafter : pendingOf (subContinued (ls ++ [l]).flatten) =
        (logical none (ls.map content)).2 := by
      rw [pendingOf, subContinued_flatten hsplits (r := []) hlone rfl, if_pos rfl, List.append_nil]
    have hempty : ¬∃ line ≠ [], some ([] : List Char) = some line := by
      rintro ⟨line, hne, heq⟩
      exact hne (Option.some.inj heq).symm
    rw [LoneBackslash, hbefore, hafter, hcontents, List.getLast?_concat, hlone]
    cases (logical none (ls.map content)).2 with
    | none => exact .inr ⟨fun h => hempty h.2, .inl rfl⟩
    | some p =>
      by_cases hp : p = []
      · subst hp
        exact .inr ⟨fun h => hempty h.2, .inr rfl⟩
      · exact .inl ⟨⟨rfl, p, hp, rfl⟩, rfl⟩
  · have hnot : ¬LoneBackslash (ls ++ [l]).flatten := by
      intro h
      have hlast := h.1
      rw [hcontents, List.getLast?_concat] at hlast
      exact hlone (Option.some.inj hlast)
    refine .inr ⟨hnot, .inl ?_⟩
    by_cases hdangles : dangles (content l) = true
    · obtain ⟨r, hr, hrest⟩ := dangles_split hdangles
      have hne : r ≠ [] := fun hnil => hlone (by rw [hr, hnil, List.nil_append])
      rw [pendingOf, subContinued_flatten hsplits hr hrest, if_neg hne, logical_concat]
      exact feed_of_not_dangles hpending hrest
    · rw [subContinued, isContinued_flatten hsplits, if_neg hdangles, pendingOf, hcontents,
        logical_concat]
      exact feed_of_not_dangles hpending (by simpa using hdangles)

theorem addEol_meaning (s : List Char) :
    meaning (addEol s) = meaning s ∧ pendingOf (addEol s) = pendingOf s := by
  by_cases hs : s = []
  · subst hs
    exact ⟨rfl, rfl⟩
  · rw [meaning, meaning, pendingOf, pendingOf, contents_addEol hs]
    exact ⟨rfl, rfl⟩

/-! ### Elements -/

open Fallible

theorem addEol_ne_nil (s : List Char) : addEol s ≠ [] := by
  rw [addEol]
  split
  · next hany =>
    rintro rfl
    cases hany
  · exact fun h => by cases (List.append_eq_nil_iff.mp h).2

/-- The element is an entry that was read, and its last line a lone backslash. -/
def Element.Overhangs (e : Element) : Prop := e.entry?.isSome = true ∧ LoneBackslash e.source

theorem endLine_source (e : Element) : e.endLine.source = e.endSource := by
  cases e <;> rfl

theorem endLine_entry (e : Element) : e.endLine.entry? = e.entry? := by
  cases e <;> rfl

theorem endSource_ne_nil (e : Element) : e.endSource ≠ [] := by
  cases e <;> exact addEol_ne_nil _

theorem endLine_dumped (e : Element) : e.endLine.dumped = e.endSource := by
  rw [dumped_of_source, endLine_source]
  rw [endLine_source]
  exact endSource_ne_nil e

theorem meaning_endSource (e : Element) : meaning e.endSource = meaning e.source := by
  cases e with
  | comment source => exact (addEol_meaning source).1
  | whitespace source => exact (addEol_meaning source).1
  | keyValue key value source =>
    exact (addEol_meaning _).1.trans (meaning_subContinued source)

theorem entries_singleton (e : Element) : entries [e] = e.entry?.toList := by
  cases e <;> rfl

theorem endLine_faithful (hs : e.source ≠ []) (h : e.Faithful) : e.endLine.Faithful := by
  rw [Element.Faithful, endLine_dumped, meaning_endSource, entries_singleton, endLine_entry,
    ← entries_singleton, ← h, dumped_of_source hs]

theorem terminated_endSource (e : Element) : Terminated e.endSource := by
  cases e <;> exact terminated_addEol _

theorem eq_nil_of_entryOf {line : List Char} (h : entryOf line = .ok []) : line = [] := by
  by_contra hne
  rw [entryOf, if_neg hne] at h
  obtain ⟨key, -, h⟩ := bind_ok h
  obtain ⟨value, -, h⟩ := bind_ok h
  cases h

/-- A text without an entry leaves at most a line of blanks to be continued. -/
theorem pendingOf_of_no_entry (h : meaning s = .ok []) :
    pendingOf s = none ∨ pendingOf s = some [] := by
  rw [pendingOf]
  rw [meaning, logicalLines, entriesOf_append] at h
  obtain ⟨first, -, h⟩ := bind_ok h
  obtain ⟨others, hothers, h⟩ := bind_ok h
  have hnil := List.append_eq_nil_iff.mp (Except.ok.inj h)
  cases hp : (logical none (contents s)).2 with
  | none => exact .inl rfl
  | some p =>
    rw [hp, Option.toList_some, entriesOf_singleton, hnil.2] at hothers
    exact .inr (congrArg some (eq_nil_of_entryOf hothers))

/-- Only behind a lone backslash is the line of an entry left to be continued. -/
theorem endLine_closed (hs : e.source ≠ []) (h : e.Faithful) (hends : ¬e.Overhangs) :
    e.endLine.Closed ∨ e.endLine.Drained := by
  have hpending : pendingOf e.endSource = none ∨ pendingOf e.endSource = some [] := by
    rw [Element.Faithful, dumped_of_source hs] at h
    cases e with
    | comment source => exact (addEol_meaning source).2.symm ▸ pendingOf_of_no_entry h
    | whitespace source => exact (addEol_meaning source).2.symm ▸ pendingOf_of_no_entry h
    | keyValue key value source =>
      rcases pendingOf_subContinued source with ⟨hlone, -⟩ | ⟨-, hpending⟩
      · exact absurd ⟨rfl, hlone⟩ hends
      · exact (addEol_meaning _).2.symm ▸ hpending
  rw [Element.Closed, Element.Drained, endLine_dumped]
  exact hpending.imp (⟨terminated_endSource e, ·⟩) (⟨terminated_endSource e, ·⟩)

/-! ### Setting and deleting keys -/

def Element.hasKey (key : Key) (e : Element) : Bool := e.entry?.any fun entry => entry.1 == key

/-- A `KeyValue` with `_NOSOURCE`. -/
def fresh (key : Key) (value : Value) : Element := .keyValue key value []

/-- The first entry of the key with a new value, and no other. -/
def rewrite (key : Key) (value : Value) : List Element → List Element
  | [] => []
  | e :: rest =>
      if e.hasKey key then fresh key value :: rest.filter fun f => !f.hasKey key
      else e :: rewrite key value rest

/-- The last element as `__setitem__` leaves it before it adds another. -/
def endLast : List Element → List Element
  | [] => []
  | [e] => [if e.isFresh then e else e.endLine]
  | e :: rest => e :: endLast rest

/-- `__setitem__` on the elements of a file. -/
def setKey (elements : List Element) (key : Key) (value : Value) : List Element :=
  if elements.any (Element.hasKey key) then rewrite key value elements
  else endLast elements ++ [fresh key value]

/-- `__delitem__` on the elements of a file, for a key that it holds. -/
def deleteKey (elements : List Element) (key : Key) : List Element :=
  elements.filter fun e => !e.hasKey key

theorem hasKey_fresh (key other : Key) (value : Value) :
    (fresh key value).hasKey other = (key == other) := rfl

theorem fresh_dumped (key : Key) (value : Value) :
    (fresh key value).dumped = joinKeyValue key value ++ ['\n'] := by
  rw [fresh, Element.dumped, if_pos rfl]

theorem fresh_closed (key : Key) (value : Value) : (fresh key value).Closed := by
  constructor
  · intro c hc
    rw [fresh_dumped, List.getLast?_concat] at hc
    cases hc
    rfl
  · rw [fresh_dumped, pendingOf, contents_line (joinKeyValue_not_eol key value), logical,
      feed_joinKeyValue rfl]
    rfl

theorem fresh_faithful (hkey : NoSplitPair key) (hvalue : NoSplitPair value) :
    (fresh key value).Faithful := by
  rw [Element.Faithful, fresh_dumped, meaning, logicalLines_joinKeyValue rfl, entriesOf_cons,
    Option.getD_none, List.nil_append, entryOf_joinKeyValue, reread_eq hkey, reread_eq hvalue]
  rfl

/-- Elements can be taken out. -/
theorem coherent_filter (p : Element → Bool) (h : Coherent elements) :
    Coherent (elements.filter p) := by
  induction elements with
  | nil => trivial
  | cons e rest ih =>
    obtain ⟨hfaithful, hrest, hends⟩ := h
    rw [List.filter_cons]
    split
    · refine ⟨hfaithful, ih hrest, ?_⟩
      rcases hends with rfl | hclosed | ⟨hdrained, hfresh⟩
      · exact .inl rfl
      · exact .inr (.inl hclosed)
      · exact .inr (.inr ⟨hdrained, fun f hf => hfresh f (List.mem_filter.mp hf).1⟩)
    · exact ih hrest

theorem rewrite_fresh (h : ∀ e ∈ elements, e.isFresh = true) :
    ∀ e ∈ rewrite key value elements, e.isFresh = true := by
  induction elements with
  | nil => simp [rewrite]
  | cons e rest ih =>
    have hrest : ∀ f ∈ rest, f.isFresh = true := fun f hf => h f (List.mem_cons_of_mem e hf)
    rw [rewrite]
    split
    · intro f hf
      rcases List.mem_cons.mp hf with rfl | hf
      · rfl
      · exact hrest f (List.mem_filter.mp hf).1
    · intro f hf
      rcases List.mem_cons.mp hf with rfl | hf
      · exact h f List.mem_cons_self
      · exact ih hrest f hf

theorem coherent_rewrite (hkey : NoSplitPair key) (hvalue : NoSplitPair value)
    (h : Coherent elements) : Coherent (rewrite key value elements) := by
  induction elements with
  | nil => trivial
  | cons e rest ih =>
    obtain ⟨hfaithful, hrest, hends⟩ := h
    rw [rewrite]
    split
    · exact ⟨fresh_faithful hkey hvalue, coherent_filter _ hrest,
        .inr (.inl (fresh_closed key value))⟩
    · refine ⟨hfaithful, ih hrest, ?_⟩
      rcases hends with rfl | hclosed | ⟨hdrained, hfresh⟩
      · exact .inl rfl
      · exact .inr (.inl hclosed)
      · exact .inr (.inr ⟨hdrained, rewrite_fresh hfresh⟩)

theorem endLast_cons_cons (e f : Element) (rest : List Element) :
    endLast (e :: f :: rest) = e :: endLast (f :: rest) := by
  rw [endLast]
  simp

theorem endLast_concat (elements : List Element) (e : Element) :
    endLast (elements ++ [e]) = elements ++ [if e.isFresh then e else e.endLine] := by
  induction elements with
  | nil => rfl
  | cons f elements ih =>
    cases elements with
    | nil => rfl
    | cons g elements =>
      rw [List.cons_append, List.cons_append, endLast_cons_cons, ← List.cons_append, ih]
      rfl

theorem endLast_of_fresh (h : ∀ e ∈ elements, e.isFresh = true) : endLast elements = elements := by
  induction elements with
  | nil => rfl
  | cons e rest ih =>
    cases rest with
    | nil =>
      rw [endLast, if_pos (h e List.mem_cons_self)]
    | cons f rest =>
      rw [endLast_cons_cons, ih fun g hg => h g (List.mem_cons_of_mem e hg)]

/-- The last element does not overhang. -/
def Ends (elements : List Element) : Prop := ∀ e ∈ elements.getLast?, ¬e.Overhangs

theorem coherent_endLast (hsources : ∀ e ∈ elements, e.isFresh = false → e.source ≠ [])
    (hends : Ends elements) (h : Coherent elements) (hkey : NoSplitPair key)
    (hvalue : NoSplitPair value) : Coherent (endLast elements ++ [fresh key value]) := by
  have hlast : Coherent [fresh key value] := ⟨fresh_faithful hkey hvalue, trivial, .inl rfl⟩
  induction elements with
  | nil => exact hlast
  | cons e rest ih =>
    obtain ⟨hfaithful, hrest, hnext⟩ := h
    cases rest with
    | nil =>
      rw [endLast, List.singleton_append]
      have hfresh : ∀ f ∈ [fresh key value], f.isFresh = true := by simp [fresh, Element.isFresh]
      cases he : e.isFresh with
      | true =>
        obtain ⟨k, v, rfl⟩ := isFresh_iff.mp he
        exact ⟨hfaithful, hlast, .inr (.inl (fresh_closed k v))⟩
      | false =>
        have hsource := hsources e List.mem_cons_self he
        refine ⟨endLine_faithful hsource hfaithful, hlast, .inr ?_⟩
        exact (endLine_closed hsource hfaithful (hends e rfl)).imp_right (⟨·, hfresh⟩)
    | cons f rest =>
      rw [endLast_cons_cons, List.cons_append]
      refine ⟨hfaithful, ih (fun g hg => hsources g (List.mem_cons_of_mem e hg)) ?_ hrest, ?_⟩
      · rwa [Ends, List.getLast?_cons_cons] at hends
      · rcases hnext with hnil | hclosed | ⟨hdrained, hfresh⟩
        · cases hnil
        · exact .inr (.inl hclosed)
        · rw [endLast_of_fresh hfresh]
          refine .inr (.inr ⟨hdrained, fun g hg => ?_⟩)
          rcases List.mem_append.mp hg with hg | hg
          · exact hfresh g hg
          · obtain rfl := List.mem_singleton.mp hg
            rfl

/-! ### What the keys are set to -/

open OrderedDict

theorem entries_append (xs ys : List Element) : entries (xs ++ ys) = entries xs ++ entries ys :=
  List.filterMap_append

theorem itemsOf_concat_fresh (elements : List Element) (key : Key) (value : Value) :
    itemsOf (elements ++ [fresh key value]) = set (itemsOf elements) key value := by
  rw [itemsOf, entries_append]
  exact ofItems_concat (key, value)

theorem hasKey_iff : e.hasKey key = true ↔ ∃ value source, e = .keyValue key value source := by
  cases e with
  | comment source => simp [Element.hasKey, Element.entry?]
  | whitespace source => simp [Element.hasKey, Element.entry?]
  | keyValue k v source => simp [Element.hasKey, Element.entry?]

theorem erase_entries_singleton (h : e.hasKey key = false) :
    erase (entries [e]) key = entries [e] := by
  cases e with
  | comment source => rfl
  | whitespace source => rfl
  | keyValue k v source =>
    have hk : (k == key) = false := h
    simp [erase, entries, Element.entry?, bne, hk]

theorem entries_filter (elements : List Element) (key : Key) :
    entries (elements.filter fun e => !e.hasKey key) = erase (entries elements) key := by
  induction elements with
  | nil => rfl
  | cons e rest ih =>
    rw [List.filter_cons, entries_cons e rest, erase, List.filter_append, ← erase, ← erase, ← ih]
    cases hkey : e.hasKey key with
    | true =>
      obtain ⟨value, source, rfl⟩ := hasKey_iff.mp hkey
      simp [erase, entries, Element.entry?]
    | false => exact (entries_cons e _).trans (by rw [erase_entries_singleton hkey])

theorem update_entries_rewrite (d : List (Key × Value))
    (h : elements.any (Element.hasKey key) = true) :
    update d (entries (rewrite key value elements)) =
      set (update d (entries elements)) key value := by
  induction elements generalizing d with
  | nil => cases h
  | cons e rest ih =>
    rw [rewrite]
    cases hkey : e.hasKey key with
    | true =>
      -- the key keeps the place of its first entry
      obtain ⟨w, source, rfl⟩ := hasKey_iff.mp hkey
      have hfirst : entries (Element.keyValue key w source :: rest) = (key, w) :: entries rest := rfl
      have hfresh : entries (fresh key value :: rest.filter fun f => !f.hasKey key) =
          (key, value) :: erase (entries rest) key := congrArg _ (entries_filter rest key)
      rw [if_pos rfl, hfresh, hfirst, update_cons, update_cons,
        set_update (mem_keys_set_self d key w), set_set]
    | false =>
      rw [List.any_cons, hkey, Bool.false_or] at h
      rw [if_neg Bool.false_ne_true, entries_cons, entries_cons e rest, update_append,
        update_append, ih _ h]

theorem entries_endLast (elements : List Element) :
    entries (endLast elements) = entries elements := by
  rcases List.eq_nil_or_concat elements with rfl | ⟨init, e, rfl⟩
  · rfl
  · rw [List.concat_eq_append, endLast_concat, entries_append, entries_append]
    split
    · rfl
    · rw [entries_singleton, endLine_entry, entries_singleton]

/-- Setting a key of the file sets it in the dict. -/
theorem itemsOf_setKey (elements : List Element) (key : Key) (value : Value) :
    itemsOf (setKey elements key value) = set (itemsOf elements) key value := by
  rw [setKey]
  split
  · next hany => exact update_entries_rewrite [] hany
  · rw [itemsOf_concat_fresh, itemsOf, entries_endLast, itemsOf]

theorem itemsOf_deleteKey (elements : List Element) (key : Key) :
    itemsOf (deleteKey elements key) = erase (itemsOf elements) key := by
  rw [itemsOf, deleteKey, entries_filter, itemsOf, erase_ofItems]

/-- The value of a key is that of its last entry. -/
theorem lookup_itemsOf (elements : List Element) (key : Key) : (itemsOf elements).lookup key =
    ((elements.filter (Element.hasKey key)).getLast?.bind Element.entry?).map Prod.snd := by
  induction elements using List.reverseRecOn with
  | nil => rfl
  | append_singleton elements e ih =>
    rw [List.filter_append, itemsOf, entries_append]
    cases hkey : e.hasKey key with
    | true =>
      obtain ⟨value, source, rfl⟩ := hasKey_iff.mp hkey
      have hentry : entries [Element.keyValue key value source] = [(key, value)] := rfl
      rw [hentry, ofItems_concat, lookup_set, if_pos (beq_self_eq_true key)]
      simp [hkey, Element.entry?]
    | false =>
      have hfilter : [e].filter (Element.hasKey key) = [] := by simp [hkey]
      rw [hfilter, List.append_nil, ← ih]
      cases e with
      | comment source =>
        have hentry : entries [Element.comment source] = [] := rfl
        rw [hentry, List.append_nil, itemsOf]
      | whitespace source =>
        have hentry : entries [Element.whitespace source] = [] := rfl
        rw [hentry, List.append_nil, itemsOf]
      | keyValue k v source =>
        have hk : (key == k) = false := by
          rw [beq_eq_false_iff_ne]
          rintro rfl
          simp [Element.hasKey, Element.entry?] at hkey
        have hentry : entries [Element.keyValue k v source] = [(k, v)] := rfl
        rw [hentry, ofItems_concat, lookup_set, hk, if_neg Bool.false_ne_true, itemsOf]

theorem lookup_itemsOf_isSome (elements : List Element) (key : Key) :
    ((itemsOf elements).lookup key).isSome = elements.any (Element.hasKey key) := by
  rw [lookup_itemsOf, Option.isSome_map]
  rcases List.eq_nil_or_concat (elements.filter (Element.hasKey key)) with hnil | ⟨init, e, hlast⟩
  · rw [hnil, eq_comm]
    simpa [List.any_eq_false, List.filter_eq_nil_iff] using hnil
  · rw [List.concat_eq_append] at hlast
    have hfilter : e ∈ elements.filter (Element.hasKey key) := by simp [hlast]
    obtain ⟨hmem, hkey⟩ := List.mem_filter.mp hfilter
    rw [hlast, List.getLast?_concat, List.any_eq_true.mpr ⟨e, hmem, hkey⟩]
    obtain ⟨value, source, rfl⟩ := hasKey_iff.mp hkey
    rfl

theorem hasKey_unique (h : e.hasKey key = true) (hne : other ≠ key) : e.hasKey other = false := by
  obtain ⟨value, source, rfl⟩ := hasKey_iff.mp h
  exact beq_eq_false_iff_ne.mpr (Ne.symm hne)

end UnifiContainers.Properties
