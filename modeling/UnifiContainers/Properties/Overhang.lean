import UnifiContainers.Properties.Merge

/-!
# The line that is continued by mistake

Behind a lone backslash the last line of a file is still to be continued when a key is added, and
what is added continues it. The key is lost; in every other file it is read back.
-/

namespace UnifiContainers.Properties

open OrderedDict Fallible

variable {c : Char} {p q s : List Char} {key value : List CodePoint} {codes : List CodePoint}

/-! ### A line that goes on -/

theorem separator?_append_none (hs : s ≠ []) (h : separator? s = none) (q : List Char) :
    separator? (s ++ q) = none := by
  obtain ⟨c, rest, rfl⟩ := List.exists_cons_of_ne_nil hs
  have hblank : isBlank c = false := by
    by_contra hblank
    rw [Bool.not_eq_false] at hblank
    rw [separator?] at h
    split at h
    · rw [List.head?_cons, Option.any_some, if_pos hblank] at h
      cases h
    · split at h
      · cases h
      · rw [List.head?_cons, Option.any_some, if_pos hblank] at h
        cases h
  have hdrop : ∀ t : List Char, (c :: t).dropWhile isBlank = c :: t := fun t =>
    List.dropWhile_cons_of_neg (by simp [hblank])
  simp only [separator?, hdrop, List.cons_append, List.head?_cons, Option.any_some] at h ⊢
  split
  · next hsep =>
    rw [if_pos hsep] at h
    cases h
  · simp [hblank]

theorem separator?_append_some {found : List Char} (h : separator? s = some found)
    (q : List Char) : (separator? (s ++ q)).isSome = true := by
  obtain ⟨c, rest, rfl⟩ : ∃ c rest, s = c :: rest := by
    cases s with
    | nil => cases h
    | cons c rest => exact ⟨c, rest, rfl⟩
  cases hblank : isBlank c with
  | true =>
    rw [separator?]
    simp only [List.cons_append, List.head?_cons, Option.any_some, hblank, if_true]
    split
    · rfl
    · split <;> rfl
  | false =>
    have hdrop : ∀ t : List Char, (c :: t).dropWhile isBlank = c :: t := fun t =>
      List.dropWhile_cons_of_neg (by simp [hblank])
    simp only [separator?, hdrop, List.cons_append, List.head?_cons, Option.any_some, hblank,
      Bool.false_eq_true, if_false] at h ⊢
    split
    · rfl
    · next hsep =>
      rw [if_neg hsep] at h
      cases h

/-- A key that is separated stays separated. -/
theorem scan_append_some {found : List Char × List Char} (h : scan p = some found)
    (q : List Char) : ∃ rest, scan (p ++ q) = some (found.1, rest) := by
  induction p using escape_cases generalizing found with
  | nil => cases h
  | single => cases h
  | plain c rest hc ih =>
    rw [List.cons_append, scan_plain hc]
    rw [scan_plain hc] at h
    cases hsep : separator? (c :: rest) with
    | some value =>
      obtain ⟨v, hv⟩ := Option.isSome_iff_exists.mp (separator?_append_some hsep q)
      rw [List.cons_append] at hv
      rw [hsep] at h
      cases h
      rw [hv]
      exact ⟨v, rfl⟩
    | none =>
      have hnone := separator?_append_none (List.cons_ne_nil c rest) hsep q
      rw [List.cons_append] at hnone
      rw [hsep] at h
      obtain ⟨inner, hinner, rfl⟩ := Option.map_eq_some_iff.mp h
      obtain ⟨v, hv⟩ := ih hinner
      rw [hnone, hv]
      exact ⟨v, rfl⟩
  | pair d rest ih =>
    rw [scan_pair] at h
    obtain ⟨inner, hinner, rfl⟩ := Option.map_eq_some_iff.mp h
    obtain ⟨v, hv⟩ := ih hinner
    rw [List.cons_append, List.cons_append, scan_pair, hv]
    exact ⟨v, rfl⟩

/-- A line without a separator becomes part of the key. -/
theorem scan_append_none (h : scan p = none) (hdangles : dangles p = false) (q : List Char) :
    scan (p ++ q) = (scan q).map fun found => (p ++ found.1, found.2) := by
  induction p using escape_cases with
  | nil =>
    rw [List.nil_append]
    cases scan q <;> rfl
  | single => cases hdangles
  | plain c rest hc ih =>
    rw [dangles_plain hc] at hdangles
    rw [scan_plain hc] at h
    cases hsep : separator? (c :: rest) with
    | some value =>
      rw [hsep] at h
      cases h
    | none =>
      have hnone := separator?_append_none (List.cons_ne_nil c rest) hsep q
      rw [List.cons_append] at hnone
      rw [hsep] at h
      rw [List.cons_append, scan_plain hc, hnone, ih (Option.map_eq_none_iff.mp h) hdangles]
      cases scan q <;> rfl
  | pair d rest ih =>
    rw [dangles_pair] at hdangles
    rw [scan_pair] at h
    rw [List.cons_append, List.cons_append, scan_pair,
      ih (Option.map_eq_none_iff.mp h) hdangles]
    cases scan q <;> rfl

theorem uEscape?_not_backslash {d1 d2 d3 d4 : Char} {u : CodePoint}
    (h : uEscape? d1 d2 d3 d4 = some u) : d1 ≠ '\\' ∧ d2 ≠ '\\' ∧ d3 ≠ '\\' ∧ d4 ≠ '\\' := by
  have hbackslash : hexDigit? '\\' = none := rfl
  rw [uEscape?] at h
  obtain ⟨n1, h1, h⟩ := Option.bind_eq_some_iff.mp h
  obtain ⟨n2, h2, h⟩ := Option.bind_eq_some_iff.mp h
  obtain ⟨n3, h3, h⟩ := Option.bind_eq_some_iff.mp h
  obtain ⟨n4, h4, -⟩ := Option.bind_eq_some_iff.mp h
  refine ⟨?_, ?_, ?_, ?_⟩
  · rintro rfl
    cases hbackslash.symm.trans h1
  · rintro rfl
    cases hbackslash.symm.trans h2
  · rintro rfl
    cases hbackslash.symm.trans h3
  · rintro rfl
    cases hbackslash.symm.trans h4

/-- Text that decodes to characters of its own, whatever follows it. -/
structure Unit (head : List Char) (first : List CodePoint) : Prop where
  ne_nil : head ≠ []
  codes : first ≠ []
  decode : ∀ rest, decodeEscapes (head ++ rest) = (first ++ ·) <$> decodeEscapes rest
  dangles : ∀ rest, Properties.dangles (head ++ rest) = Properties.dangles rest

theorem unit_plain (hc : c ≠ '\\') : Unit [c] [ord c] where
  ne_nil := List.cons_ne_nil _ _
  codes := List.cons_ne_nil _ _
  decode := decodeEscapes_plain hc
  dangles := dangles_plain hc

theorem unit_short {e : Char} (hu : e ≠ 'u') (hnl : e ≠ '\n') : Unit ['\\', e] [unescapes e] where
  ne_nil := List.cons_ne_nil _ _
  codes := List.cons_ne_nil _ _
  decode := decodeEscapes_short hu hnl
  dangles := dangles_pair e

/-- `ESCAPE_RGX` does not match a backslash at the end of a line. -/
theorem unit_lf : Unit ['\\', '\n'] [ord '\\', ord '\n'] where
  ne_nil := List.cons_ne_nil _ _
  codes := List.cons_ne_nil _ _
  decode rest := by
    have hkeep : decodeEscapes ('\\' :: '\n' :: rest) =
        (ord '\\' :: ·) <$> decodeEscapes ('\n' :: rest) := by
      rw [decodeEscapes.eq_def]
      rfl
    rw [List.cons_append, List.singleton_append, hkeep, decodeEscapes_plain (by decide),
      Functor.map_map]
    rfl
  dangles := dangles_pair '\n'

theorem decodeEscapes_u_none {d1 d2 d3 d4 : Char} (h : uEscape? d1 d2 d3 d4 = none)
    (rest : List Char) : decodeEscapes ('\\' :: 'u' :: d1 :: d2 :: d3 :: d4 :: rest) =
      .error ⟨'\\' :: 'u' :: [d1, d2, d3, d4].takeWhile (· ≠ '\n')⟩ := by
  rw [decodeEscapes.eq_def]
  simp [h]

theorem unit_u {d1 d2 d3 d4 : Char} {u : CodePoint} (h : uEscape? d1 d2 d3 d4 = some u) :
    Unit ['\\', 'u', d1, d2, d3, d4] [u] where
  ne_nil := List.cons_ne_nil _ _
  codes := List.cons_ne_nil _ _
  decode := decodeEscapes_u h
  dangles rest := by
    obtain ⟨h1, h2, h3, h4⟩ := uEscape?_not_backslash h
    exact (dangles_pair 'u' _).trans ((dangles_plain h1 _).trans ((dangles_plain h2 _).trans
      ((dangles_plain h3 _).trans (dangles_plain h4 rest))))

/-- Text that decodes begins with such a unit, or it is a single backslash. -/
theorem exists_unit (h : decodeEscapes p = .ok codes) (hp : p ≠ []) : p = ['\\'] ∨
    ∃ head rest first, p = head ++ rest ∧ Unit head first := by
  obtain ⟨c, rest, rfl⟩ := List.exists_cons_of_ne_nil hp
  by_cases hc : c = '\\'
  · subst hc
    cases rest with
    | nil => exact .inl rfl
    | cons e more =>
      refine .inr ?_
      by_cases hnl : e = '\n'
      · subst hnl
        exact ⟨_, more, _, rfl, unit_lf⟩
      · by_cases hu : e = 'u'
        · subst hu
          rcases more with _ | ⟨d1, _ | ⟨d2, _ | ⟨d3, _ | ⟨d4, tail⟩⟩⟩⟩
          · cases h
          · cases h
          · cases h
          · cases h
          · cases hunit : uEscape? d1 d2 d3 d4 with
            | some u => exact ⟨_, tail, _, rfl, unit_u hunit⟩
            | none =>
              rw [decodeEscapes_u_none hunit] at h
              cases h
        · exact ⟨_, more, _, rfl, unit_short hu hnl⟩
  · exact .inr ⟨[c], rest, _, rfl, unit_plain hc⟩

theorem decodeEscapes_append (hdangles : dangles p = false) (h : decodeEscapes p = .ok codes)
    (q : List Char) : decodeEscapes (p ++ q) = (codes ++ ·) <$> decodeEscapes q := by
  induction hlen : p.length using Nat.strong_induction_on generalizing p codes with
  | _ n ih =>
    by_cases hp : p = []
    · subst hp
      cases h
      exact (id_map _).symm
    · rcases exists_unit h hp with rfl | ⟨head, rest, first, rfl, hunit⟩
      · cases hdangles
      · rw [hunit.decode] at h
        rw [hunit.dangles] at hdangles
        obtain ⟨later, hlater, rfl⟩ := map_ok h
        have hshort : rest.length < n := by
          have hpos := List.length_pos_iff.mpr hunit.ne_nil
          rw [List.length_append] at hlen
          omega
        rw [List.append_assoc, hunit.decode, ih rest.length hshort hdangles hlater rfl,
          Functor.map_map]
        simp only [List.append_assoc]

theorem decodeEscapes_eq_nil (h : decodeEscapes p = .ok []) : p = [] := by
  by_contra hp
  rcases exists_unit h hp with rfl | ⟨head, rest, first, rfl, hunit⟩
  · cases h
  · rw [hunit.decode] at h
    obtain ⟨later, -, hnil⟩ := map_ok h
    exact hunit.codes (List.append_eq_nil_iff.mp hnil).1

/-! ### The key that is lost -/

theorem length_unitPoints_joinPairs (s : List CodePoint) :
    ((joinPairs s).flatMap unitPoints).length = (s.flatMap unitPoints).length := by
  induction s using joinPairs.induct with
  | case1 => rfl
  | case2 c => rfl
  | case3 c d rest h ih =>
    have hjoined : (unitPoints (unsurrogate c d h)).length = 2 := by
      have hlt : 0xFFFF < (unsurrogate c d h).val := by
        simp only [unsurrogate]
        omega
      obtain ⟨hi, lo, -, hpoints, -⟩ := unitPoints_of_lt hlt
      rw [hpoints]
      rfl
    rw [joinPairs, dif_pos h, List.flatMap_cons, List.flatMap_cons, List.flatMap_cons,
      List.length_append, List.length_append, List.length_append, ih, hjoined,
      unitPoints_of_le (by have := h.1.2; omega), unitPoints_of_le (by have := h.2.2; omega)]
    simp only [List.length_singleton]
    omega
  | case4 c d rest h ih =>
    rw [joinPairs, dif_neg h, List.flatMap_cons, List.length_append, ih, ← List.length_append,
      ← List.flatMap_cons]

theorem unitPoints_ne_nil (c : CodePoint) : unitPoints c ≠ [] := by
  rw [unitPoints, units]
  split <;> simp

theorem unitPoints_unit {c d : CodePoint} (h : d ∈ unitPoints c) : unitPoints d = [d] := by
  obtain ⟨unit, -, rfl⟩ := List.mem_map.mp h
  exact unitPoints_of_le (Nat.le_of_lt_succ unit.isLt)

theorem flatMap_unitPoints_twice (s : List CodePoint) :
    (s.flatMap unitPoints).flatMap unitPoints = s.flatMap unitPoints := by
  rw [List.flatMap_assoc]
  refine List.flatMap_congr fun c _ => ?_
  exact (List.flatMap_congr fun d hd => unitPoints_unit hd).trans (List.flatMap_singleton' _)

/-- More units make a longer string. -/
theorem joinPairs_append_ne {codes : List CodePoint} (hne : codes ≠ []) (key : Key) :
    joinPairs (codes ++ key.flatMap unitPoints) ≠ key := by
  intro heq
  have hlength := length_unitPoints_joinPairs (codes ++ key.flatMap unitPoints)
  rw [heq, List.flatMap_append, List.length_append, flatMap_unitPoints_twice] at hlength
  have hnil : (codes.flatMap unitPoints).length = 0 := by omega
  obtain ⟨c, rest, rfl⟩ := List.exists_cons_of_ne_nil hne
  rw [List.length_eq_zero_iff, List.flatMap_cons] at hnil
  exact unitPoints_ne_nil c (List.append_eq_nil_iff.mp hnil).1

theorem entryOf_ok {line : List Char} (hline : line ≠ []) {found : List (Key × Value)}
    (h : entryOf line = .ok found) : ∃ key value, found = [(key, value)] ∧
      unescape ((scan line).getD (line, [])).1 = .ok key := by
  rw [entryOf, if_neg hline] at h
  obtain ⟨key, hkey, h⟩ := bind_ok h
  obtain ⟨value, -, h⟩ := bind_ok h
  cases h
  exact ⟨key, value, rfl, hkey⟩

/-- The line of a key that continues another line has another key. -/
theorem entryOf_joined (hp : p ≠ []) (hdangles : dangles p = false) {old : Key × Value}
    (hold : entryOf p = .ok [old]) (hne : old.1 ≠ key) {found : List (Key × Value)}
    (h : entryOf (p ++ joinKeyValue key value) = .ok found) : ∀ entry ∈ found, entry.1 ≠ key := by
  have hline : p ++ joinKeyValue key value ≠ [] := fun hnil => hp (List.append_eq_nil_iff.mp hnil).1
  obtain ⟨k, v, rfl, hk⟩ := entryOf_ok hline h
  obtain ⟨oldKey, oldValue, hsame, hold⟩ := entryOf_ok hp hold
  rw [List.cons.injEq] at hsame
  rw [hsame.1] at hne
  rintro entry hmem rfl
  rw [List.mem_singleton] at hmem
  subst hmem
  cases hscan : scan p with
  | some found =>
    -- the separator is in the line that was there, and so is the key
    obtain ⟨rest, hjoined⟩ := scan_append_some hscan (joinKeyValue k value)
    rw [hscan] at hold
    rw [hjoined] at hk
    exact hne (Except.ok.inj (hold.symm.trans hk))
  | none =>
    -- all of the line that was there belongs to the key
    rw [hscan] at hold
    rw [scan_append_none hscan hdangles, scan_joinKeyValue] at hk
    obtain ⟨codes, hcodes, -⟩ := map_ok hold
    have hnotEmpty : codes ≠ [] := by
      rintro rfl
      exact hp (decodeEscapes_eq_nil hcodes)
    have hjoined : unescape (p ++ escape k) = .ok k := hk
    rw [unescape, decodeEscapes_append hdangles hcodes, decodeEscapes_escape] at hjoined
    exact joinPairs_append_ne hnotEmpty k (Except.ok.inj hjoined)

/-! ### The merged file -/

variable {existing : List Char} {items updates added : List (Key × Value)}
  {elements init : List Element} {e : Element}

theorem loads_meaning (text : List Char) : loads text = ofItems <$> meaning text := by
  rw [loads, ← parse_meaning, Functor.map_map]
  rfl

theorem coherent_fresh (hplain : Plain added) :
    Coherent (added.map fun item => fresh item.1 item.2) := by
  induction added with
  | nil => trivial
  | cons item added ih =>
    obtain ⟨hkey, hvalue⟩ := hplain item List.mem_cons_self
    exact ⟨fresh_faithful hkey hvalue, ih fun other hother =>
      hplain other (List.mem_cons_of_mem item hother), .inr (.inl (fresh_closed item.1 item.2))⟩

theorem entries_fresh (added : List (Key × Value)) :
    entries (added.map fun item => fresh item.1 item.2) = added := by
  induction added with
  | nil => rfl
  | cons item added ih => rw [List.map_cons, entries_cons, ih]; rfl

theorem coherent_left {others : List Element} (h : Coherent (init ++ others)) :
    Coherent init := by
  induction init with
  | nil => trivial
  | cons f init ih =>
    obtain ⟨hfaithful, hrest, hnext⟩ := h
    refine ⟨hfaithful, ih hrest, ?_⟩
    rcases hnext with hnil | hclosed | ⟨hdrained, hfresh⟩
    · exact .inl (List.append_eq_nil_iff.mp hnil).1
    · exact .inr (.inl hclosed)
    · exact .inr (.inr ⟨hdrained, fun g hg => hfresh g (List.mem_append_left _ hg)⟩)

/-- The text of an overhanging entry completes nothing: its line is still to be continued. -/
theorem overhang_pending (hsource : e.source ≠ []) (hfaithful : e.Faithful) (h : e.Overhangs) :
    ∃ p old, p ≠ [] ∧ dangles p = false ∧ pendingOf e.endSource = some p ∧
      e.entry? = some old ∧ entryOf p = .ok [old] ∧ completed e.endSource = .ok [] := by
  obtain ⟨hentry, hlone⟩ := h
  obtain ⟨old, hold⟩ := Option.isSome_iff_exists.mp hentry
  obtain ⟨p, hp, hpending⟩ := hlone.2
  have hend : pendingOf e.endSource = some p := by
    cases e with
    | comment source => cases hold
    | whitespace source => cases hold
    | keyValue key value source =>
      rcases pendingOf_subContinued source with ⟨-, hsame⟩ | ⟨hnot, -⟩
      · exact ((addEol_meaning _).2.trans hsame).trans hpending
      · exact absurd hlone hnot
  have hdangles : dangles p = false := by
    have h := dangles_pending (contents e.endSource)
    rw [← pendingOf, hend] at h
    exact h
  have hmeaning : meaning e.endSource = .ok [old] := by
    rw [meaning_endSource, ← dumped_of_source hsource, hfaithful, entries_singleton, hold]
    rfl
  rw [meaning, logicalLines, entriesOf_append] at hmeaning
  rw [pendingOf] at hend
  rw [hend, Option.toList_some, entriesOf_singleton] at hmeaning
  obtain ⟨first, hfirst, hmeaning⟩ := bind_ok hmeaning
  obtain ⟨others, hothers, hmeaning⟩ := bind_ok hmeaning
  have hsplit : first ++ others = [old] := Except.ok.inj hmeaning
  obtain ⟨key, value, rfl, -⟩ := entryOf_ok hp hothers
  have hempty : first = [] := by
    cases first with
    | nil => rfl
    | cons f first =>
      have hlength := congrArg List.length hsplit
      simp at hlength
  subst hempty
  refine ⟨p, old, hp, hdangles, by rw [pendingOf, hend], hold, ?_, hfirst⟩
  rw [hothers]
  exact congrArg Except.ok hsplit

/-- Behind an overhanging entry the first key that is added is not read back. -/
theorem meaning_overhang (hcoherent : Coherent (init ++ [e]))
    (hsources : ∀ f ∈ init ++ [e], f.source ≠ []) (hover : e.Overhangs)
    (hplain : Plain ((key, value) :: added))
    (hinit : ∀ entry ∈ entries (init ++ [e]), entry.1 ≠ key) (hadded : key ∉ keys added)
    {found : List (Key × Value)}
    (h : meaning (dumps (endLast (init ++ [e]) ++
      ((key, value) :: added).map fun item => fresh item.1 item.2)) = .ok found) :
    ∀ entry ∈ found, entry.1 ≠ key := by
  obtain ⟨hterminated, hpending⟩ := coherent_before hcoherent hsources
  have hsource := hsources e (by simp)
  obtain ⟨p, old, hp, hdangles, hend, hold, hline, hcompleted⟩ :=
    overhang_pending hsource (coherent_faithful hcoherent e (by simp)) hover
  have hrest : Plain added := fun other hother => hplain other (List.mem_cons_of_mem _ hother)
  have hfresh : ∀ f ∈ ((key, value) :: added).map fun item => fresh item.1 item.2,
      f.isFresh = true := by
    intro f hf
    obtain ⟨item, -, rfl⟩ := List.mem_map.mp hf
    rfl
  have htext : dumps (endLast (init ++ [e]) ++
      ((key, value) :: added).map fun item => fresh item.1 item.2) =
      dumps init ++ (e.endSource ++
        dumps (((key, value) :: added).map fun item => fresh item.1 item.2)) := by
    rw [endLast_concat, isFresh_of_source hsource, if_neg Bool.false_ne_true, dumps, dumps, dumps,
      List.flatMap_append, List.flatMap_append, List.flatMap_singleton, endLine_dumped,
      List.append_assoc]
  have hlines : dumps (((key, value) :: added).map fun item => fresh item.1 item.2) =
      joinKeyValue key value ++ '\n' :: dumps (added.map fun item => fresh item.1 item.2) := by
    rw [List.map_cons, dumps, List.flatMap_cons, fresh_dumped, List.append_assoc]
    rfl
  have hdanglesSome : dangles ((some p).getD []) = false := hdangles
  rw [htext, meaning_append hterminated hpending, meaning_dumps (coherent_left hcoherent),
    meaning_append_of_head (terminated_endSource e) (dumps_head hfresh), hcompleted, hend,
    meaningFrom, hlines, logicalLines_joinKeyValue hdanglesSome, entriesOf_cons,
    Option.getD_some] at h
  obtain ⟨first, hfirst, h⟩ := bind_ok h
  obtain ⟨last, hlast, h⟩ := bind_ok h
  obtain ⟨nothing, hnothing, hlast⟩ := bind_ok hlast
  obtain ⟨others, hothers, hlast⟩ := bind_ok hlast
  obtain ⟨joined, hjoined, hothers⟩ := bind_ok hothers
  obtain ⟨read, hread, hothers⟩ := bind_ok hothers
  have hmeaning : meaning (dumps (added.map fun item => fresh item.1 item.2)) = .ok read := hread
  rw [meaning_dumps (coherent_fresh hrest), entries_fresh] at hmeaning
  cases hfirst
  cases hnothing
  cases hmeaning
  cases hothers
  cases hlast
  cases h
  intro entry hmem
  rcases List.mem_append.mp hmem with hmem | hmem
  · exact hinit entry (by rw [entries_append]; exact List.mem_append_left _ hmem)
  · rw [List.nil_append] at hmem
    rcases List.mem_append.mp hmem with hmem | hmem
    · have hne : old.1 ≠ key := hinit old (by
        rw [entries_append, entries_singleton, hold]
        simp)
      exact entryOf_joined hp hdangles hline hne hjoined entry hmem
    · rintro rfl
      exact hadded (List.mem_map_of_mem hmem)

end UnifiContainers.Properties
