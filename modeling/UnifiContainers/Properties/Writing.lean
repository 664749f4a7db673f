import UnifiContainers.Properties.Meaning

/-!
# What a written line says

A key and a value are joined into one line, which is read back as that entry whatever precedes it
and follows it, as long as the line before it is not left to be continued.
-/

namespace UnifiContainers.Properties

variable {c : Char} {key value : List CodePoint} {tokens : List Token} {rest line : List Char}

/-! ### The tokens of a line -/

/-- The tokens of a value, whose first space is escaped. -/
def valueLineTokens : List CodePoint → List Token
  | [] => []
  | c :: value => keyTokens c ++ value.flatMap valueTokens

def lineTokens (key value : List CodePoint) : List Token :=
  key.flatMap keyTokens ++ .plain '=' :: valueLineTokens value

/-- A token that stands neither for a line ending nor for a separator, nor begins a comment. -/
def Token.Solid : Token → Prop
  | plain c => c ≠ '\\' ∧ isBlank c = false ∧ isEol c = false ∧ c ∉ ['=', ':', '#', '!']
  | short e => isEol e = false
  | unicode _ => True

theorem digitChar_solid (n : ℕ) : (Token.plain (Nat.digitChar (n % 16))).Solid := by
  have hdigit : ∀ d : Fin 16, Nat.digitChar d.val ≠ '\\' ∧ isBlank (Nat.digitChar d.val) = false ∧
      isEol (Nat.digitChar d.val) = false ∧ Nat.digitChar d.val ∉ ['=', ':', '#', '!'] := by decide
  exact hdigit ⟨n % 16, Nat.mod_lt n (by decide)⟩

theorem tokensText_append (xs ys : List Token) :
    tokensText (xs ++ ys) = tokensText xs ++ tokensText ys := List.flatMap_append

/-- Every character is written with something. -/
theorem valueTokens_ne_nil (c : CodePoint) : valueTokens c ≠ [] := by
  intro hempty
  have hcodes := congrArg List.length (valueTokens_code c)
  rw [hempty, List.length_map, unitPoints, units] at hcodes
  split at hcodes <;> cases hcodes

theorem baseEscape_head (c : CodePoint) (value : List CodePoint) :
    (baseEscape (c :: value)).head? = some ' ' ↔ c = ord ' ' := by
  have htokens : baseEscape (c :: value) =
      tokensText (valueTokens c) ++ tokensText (value.flatMap valueTokens) := by
    rw [baseEscape_eq, List.flatMap_cons, tokensText_append]
  constructor
  · intro h
    by_contra hne
    have hno := valueTokens_no_space hne
    rw [htokens] at h
    cases hfirst : tokensText (valueTokens c) with
    | cons d others =>
      rw [hfirst] at h hno
      cases h
      exact hno List.mem_cons_self
    | nil =>
      rw [tokensText, List.flatMap_eq_nil_iff] at hfirst
      refine absurd (List.eq_nil_iff_forall_not_mem.mpr fun token hmem => ?_) (valueTokens_ne_nil c)
      have := hfirst token hmem
      cases token <;> cases this
  · rintro rfl
    rfl

theorem joinKeyValue_eq (key value : List CodePoint) :
    joinKeyValue key value = tokensText (lineTokens key value) := by
  have hvalue : (if (baseEscape value).head? = some ' ' then '\\' :: baseEscape value
      else baseEscape value) = tokensText (valueLineTokens value) := by
    cases value with
    | nil => rfl
    | cons c value =>
      by_cases hc : c = ord ' '
      · rw [if_pos ((baseEscape_head c value).mpr hc), valueLineTokens, tokensText_append, keyTokens,
          if_pos hc, ← baseEscape_eq, hc]
        rfl
      · rw [if_neg fun h => hc ((baseEscape_head c value).mp h), valueLineTokens, keyTokens,
          if_neg hc, baseEscape_eq, List.flatMap_cons]
  rw [joinKeyValue, escape_eq, lineTokens, tokensText_append]
  exact congrArg (tokensText (key.flatMap keyTokens) ++ '=' :: ·) hvalue

theorem valueTokens_solid {c : CodePoint} (hc : c ≠ ord ' ') :
    ∀ token ∈ valueTokens c, token.Solid := by
  intro token hmem
  rw [valueTokens] at hmem
  cases hneeds : needsEscape c with
  | false =>
    obtain ⟨hrange, hspecial⟩ := needsEscape_eq_false hneeds
    rw [hneeds] at hmem
    obtain rfl := List.mem_singleton.mp hmem
    have hne : ∀ x : Char, ord x ≠ c → Char.ofNat c.val ≠ x := fun x hx heq =>
      hx (heq ▸ ord_ofNat hrange.2)
    have hlow : ∀ x : Char, x.toNat < 32 → Char.ofNat c.val ≠ x := fun x hx =>
      hne x fun heq => absurd hrange.1 (by rw [← heq]; exact Nat.not_le.mpr hx)
    refine ⟨hne _ (hspecial _ (by simp)), ?_, ?_, ?_⟩
    · simp [isBlank, hne ' ' hc.symm, hlow '\t' (by decide), hlow '\x0c' (by decide)]
    · simp [isEol, hlow '\r' (by decide), hlow '\n' (by decide)]
    · have h := fun x hx => hne x (hspecial x hx)
      simp [h '=', h ':', h '#', h '!']
  | true =>
    rw [hneeds] at hmem
    cases hlookup : escapes.lookup c with
    | some e =>
      rw [hlookup] at hmem
      obtain rfl := List.mem_singleton.mp hmem
      have hall : ∀ entry ∈ escapes, isEol entry.2 = false := by decide
      obtain ⟨i, j, hsplit, -⟩ := List.lookup_eq_some_iff.mp hlookup
      exact hall (c, e) (hsplit ▸ by simp)
    | none =>
      rw [hlookup] at hmem
      obtain ⟨unit, -, rfl⟩ := List.mem_map.mp hmem
      trivial

theorem keyTokens_solid (c : CodePoint) : ∀ token ∈ keyTokens c, token.Solid := by
  intro token hmem
  rw [keyTokens] at hmem
  split at hmem
  · obtain rfl := List.mem_singleton.mp hmem
    rfl
  · next hne => exact valueTokens_solid hne token hmem

/-- In a value an unescaped space may stand, a separator may not. -/
def Token.Inline : Token → Prop
  | plain c => c ≠ '\\' ∧ isEol c = false
  | short e => isEol e = false
  | unicode _ => True

theorem Token.Solid.inline {token : Token} (h : token.Solid) : token.Inline := by
  cases token with
  | plain c => exact ⟨h.1, h.2.2.1⟩
  | short e => exact h
  | unicode unit => trivial

theorem valueTokens_inline (c : CodePoint) : ∀ token ∈ valueTokens c, token.Inline := by
  by_cases hc : c = ord ' '
  · subst hc
    intro token hmem
    obtain rfl := List.mem_singleton.mp hmem
    exact ⟨by decide, rfl⟩
  · exact fun token hmem => (valueTokens_solid hc token hmem).inline

theorem lineTokens_inline (key value : List CodePoint) :
    ∀ token ∈ lineTokens key value, token.Inline := by
  intro token hmem
  rw [lineTokens, List.mem_append, List.mem_cons] at hmem
  rcases hmem with hmem | rfl | hmem
  · obtain ⟨c, -, hmem⟩ := List.mem_flatMap.mp hmem
    exact (keyTokens_solid c token hmem).inline
  · exact ⟨by decide, rfl⟩
  · cases value with
    | nil => cases hmem
    | cons c value =>
      rcases List.mem_append.mp hmem with hmem | hmem
      · exact (keyTokens_solid c token hmem).inline
      · obtain ⟨d, -, hmem⟩ := List.mem_flatMap.mp hmem
        exact valueTokens_inline d token hmem

/-! ### Reading tokens -/

theorem not_isEol_of_mem_text {token : Token} (h : token.Inline) (hc : c ∈ token.text) :
    isEol c = false := by
  cases token with
  | plain d =>
    obtain rfl := List.mem_singleton.mp hc
    exact h.2
  | short e =>
    rcases List.mem_cons.mp hc with rfl | hc
    · rfl
    · obtain rfl := List.mem_singleton.mp hc
      exact h
  | unicode unit =>
    have hd := fun n => (digitChar_solid n).2.2.1
    simp only [Token.text, uEscape, List.mem_cons, List.not_mem_nil, or_false] at hc
    rcases hc with rfl | rfl | rfl | rfl | rfl | rfl
    · rfl
    · rfl
    all_goals exact hd _

theorem dangles_token {token : Token} (h : token.Inline) (rest : List Char) :
    dangles (token.text ++ rest) = dangles rest := by
  cases token with
  | plain d => exact dangles_plain h.1 rest
  | short e => exact dangles_pair e rest
  | unicode unit =>
    have hd := fun n => (digitChar_solid n).1
    simp only [Token.text, uEscape, List.cons_append, List.nil_append]
    rw [dangles_pair, dangles_plain (hd _), dangles_plain (hd _), dangles_plain (hd _),
      dangles_plain (hd _)]

theorem separator?_solid (hblank : isBlank c = false) (hsep : c ∉ ['=', ':', '#', '!'])
    (rest : List Char) : separator? (c :: rest) = none := by
  have hdrop : (c :: rest).dropWhile isBlank = c :: rest :=
    List.dropWhile_cons_of_neg (by simp [hblank])
  have hnot : ¬(c = '=' ∨ c = ':') := by
    rintro (rfl | rfl) <;> simp at hsep
  rw [separator?, hdrop]
  simp only [hnot, if_false, List.head?_cons, Option.any_some, hblank]
  rfl

theorem scan_solid (h : (Token.plain c).Solid) (rest : List Char) :
    scan (c :: rest) = (scan rest).map fun found => (c :: found.1, found.2) := by
  rw [scan_plain h.1, separator?_solid h.2.1 h.2.2.2]

theorem scan_token {token : Token} (h : token.Solid) (rest : List Char) :
    scan (token.text ++ rest) = (scan rest).map fun found => (token.text ++ found.1, found.2) := by
  cases token with
  | plain d => exact scan_solid h rest
  | short e => exact scan_pair e rest
  | unicode unit =>
    simp only [Token.text, uEscape, List.cons_append, List.nil_append]
    rw [scan_pair, scan_solid (digitChar_solid _), scan_solid (digitChar_solid _),
      scan_solid (digitChar_solid _), scan_solid (digitChar_solid _)]
    simp only [Option.map_map]
    rfl

theorem dangles_tokens (h : ∀ token ∈ tokens, token.Inline) (rest : List Char) :
    dangles (tokensText tokens ++ rest) = dangles rest := by
  induction tokens with
  | nil => rfl
  | cons token tokens ih =>
    rw [tokensText, List.flatMap_cons, List.append_assoc, dangles_token (h token List.mem_cons_self)]
    exact ih fun t ht => h t (List.mem_cons_of_mem _ ht)

theorem scan_tokens (h : ∀ token ∈ tokens, token.Solid) (rest : List Char) :
    scan (tokensText tokens ++ rest) =
      (scan rest).map fun found => (tokensText tokens ++ found.1, found.2) := by
  induction tokens with
  | nil => exact Option.map_id'.symm
  | cons token tokens ih =>
    rw [tokensText, List.flatMap_cons, List.append_assoc, scan_token (h token List.mem_cons_self),
      ← tokensText, ih fun t ht => h t (List.mem_cons_of_mem _ ht), Option.map_map]
    congr 1
    funext found
    exact Prod.ext (List.append_assoc _ _ _).symm rfl

/-! ### The line -/

theorem text_head {token : Token} (h : token.Solid ∨ token = .plain '=') :
    ∃ c rest, token.text = c :: rest ∧ isBlank c = false ∧ isEol c = false ∧ c ∉ ['#', '!'] := by
  rcases h with h | rfl
  · cases token with
    | plain c =>
      refine ⟨c, [], rfl, h.2.1, h.2.2.1, ?_⟩
      have := h.2.2.2
      simp only [List.mem_cons, List.not_mem_nil, or_false, not_or] at this ⊢
      exact ⟨this.2.2.1, this.2.2.2⟩
    | short e => exact ⟨'\\', [e], rfl, rfl, rfl, by decide⟩
    | unicode unit => exact ⟨'\\', _, rfl, rfl, rfl, by decide⟩
  · exact ⟨'=', [], rfl, rfl, rfl, by decide⟩

/-- A line begins with none of the characters that a reader leaves out or takes for a comment. -/
theorem joinKeyValue_head (key value : List CodePoint) :
    ∃ c rest, joinKeyValue key value = c :: rest ∧ isBlank c = false ∧ isEol c = false ∧
      c ∉ ['#', '!'] := by
  have hfirst : ∃ token tokens, lineTokens key value = token :: tokens ∧
      (token.Solid ∨ token = .plain '=') := by
    cases key with
    | nil => exact ⟨.plain '=', valueLineTokens value, rfl, .inr rfl⟩
    | cons c key =>
      have hsolid := keyTokens_solid c
      have hne : keyTokens c ≠ [] := by
        rw [keyTokens]
        split
        · exact List.cons_ne_nil _ _
        · exact valueTokens_ne_nil c
      cases htokens : keyTokens c with
      | nil => exact absurd htokens hne
      | cons token tokens =>
        refine ⟨token, tokens ++ key.flatMap keyTokens ++ .plain '=' :: valueLineTokens value, ?_,
          .inl (hsolid token (htokens ▸ List.mem_cons_self))⟩
        rw [lineTokens, List.flatMap_cons, htokens, List.cons_append, List.cons_append]
  obtain ⟨token, tokens, htokens, hsolid⟩ := hfirst
  obtain ⟨c, rest, htext, hc⟩ := text_head hsolid
  refine ⟨c, rest ++ tokensText tokens, ?_, hc⟩
  rw [joinKeyValue_eq, htokens, tokensText, List.flatMap_cons, htext, List.cons_append, tokensText]

theorem joinKeyValue_not_eol (key value : List CodePoint) :
    ∀ c ∈ joinKeyValue key value, isEol c = false := by
  intro c hc
  rw [joinKeyValue_eq] at hc
  obtain ⟨token, hmem, hc⟩ := List.mem_flatMap.mp hc
  exact not_isEol_of_mem_text (lineTokens_inline key value token hmem) hc

theorem dangles_joinKeyValue (key value : List CodePoint) :
    dangles (joinKeyValue key value) = false := by
  have h := dangles_tokens (lineTokens_inline key value) []
  rwa [List.append_nil, ← joinKeyValue_eq] at h

theorem valueLine_not_blank (value : List CodePoint) :
    (tokensText (valueLineTokens value)).dropWhile isBlank = tokensText (valueLineTokens value) := by
  cases value with
  | nil => rfl
  | cons c value =>
    cases htokens : keyTokens c with
    | nil =>
      rw [keyTokens] at htokens
      split at htokens
      · cases htokens
      · exact absurd htokens (valueTokens_ne_nil c)
    | cons token tokens =>
      obtain ⟨d, rest, htext, hblank, -⟩ :=
        text_head (.inl (keyTokens_solid c token (htokens ▸ List.mem_cons_self)))
      rw [valueLineTokens, htokens, List.cons_append, tokensText, List.flatMap_cons, htext,
        List.cons_append]
      exact List.dropWhile_cons_of_neg (by simp [hblank])

theorem scan_equals (rest : List Char) : scan ('=' :: rest) = some ([], rest.dropWhile isBlank) := by
  rw [scan_plain (by decide)]
  rfl

theorem scan_joinKeyValue (key value : List CodePoint) : scan (joinKeyValue key value) =
    some (escape key, tokensText (valueLineTokens value)) := by
  have hsolid : ∀ token ∈ key.flatMap keyTokens, token.Solid := by
    intro token hmem
    obtain ⟨c, -, hmem⟩ := List.mem_flatMap.mp hmem
    exact keyTokens_solid c token hmem
  rw [joinKeyValue_eq, lineTokens, tokensText_append, scan_tokens hsolid]
  have hequals : tokensText (.plain '=' :: valueLineTokens value) =
      '=' :: tokensText (valueLineTokens value) := rfl
  rw [hequals, scan_equals, valueLine_not_blank, Option.map_some, List.append_nil, ← escape_eq]

/-- The string that the reader makes of the units of a string. -/
def reread (s : List CodePoint) : List CodePoint := joinPairs (s.flatMap unitPoints)

theorem reread_eq {s : List CodePoint} (h : NoSplitPair s) : reread s = s :=
  (joinPairs_unitPoints_iff s).mpr h

theorem decodeEscapes_valueLine (value : List CodePoint) (rest : List Char) :
    decodeEscapes (tokensText (valueLineTokens value) ++ rest) =
      (value.flatMap unitPoints ++ ·) <$> decodeEscapes rest := by
  have hwf : ∀ token ∈ valueLineTokens value, token.WellFormed := by
    intro token hmem
    cases value with
    | nil => cases hmem
    | cons c value =>
      rcases List.mem_append.mp hmem with hmem | hmem
      · exact keyTokens_wellFormed c token hmem
      · obtain ⟨d, -, hmem⟩ := List.mem_flatMap.mp hmem
        exact valueTokens_wellFormed d token hmem
  have hcodes : (valueLineTokens value).map Token.code = value.flatMap unitPoints := by
    cases value with
    | nil => rfl
    | cons c value =>
      rw [valueLineTokens, List.map_append, keyTokens_code, List.map_flatMap, List.flatMap_cons]
      exact congrArg (unitPoints c ++ ·) (List.flatMap_congr fun d _ => valueTokens_code d)
  rw [decodeEscapes_tokens hwf, hcodes]

theorem unescape_valueLine (value : List CodePoint) :
    unescape (tokensText (valueLineTokens value)) = .ok (reread value) := by
  have h := decodeEscapes_valueLine value []
  rw [List.append_nil] at h
  rw [unescape, h]
  show Except.ok (joinPairs (value.flatMap unitPoints ++ [])) = _
  rw [List.append_nil, reread]

theorem entryOf_joinKeyValue (key value : List CodePoint) :
    entryOf (joinKeyValue key value) = .ok [(reread key, reread value)] := by
  obtain ⟨c, rest, hjoin, -⟩ := joinKeyValue_head key value
  rw [entryOf, if_neg (by rw [hjoin]; exact List.cons_ne_nil _ _), scan_joinKeyValue]
  simp only [Option.getD_some, unescape_escape, unescape_valueLine, Fallible.ok_bind]
  rfl

end UnifiContainers.Properties
