import Mathlib.Data.Char
import Mathlib.Data.List.Lex
import Mathlib.Data.List.Chain
import UnifiContainers.Lib.Fallible

/-!
# Escapes in a properties file

The file is text; a key or value is any string Python can hold, lone surrogates too, since `\uXXXX`
names UTF-16 units. What the writer escapes the reader decodes to the same string, unless the string
holds the two halves of a surrogate pair next to each other.
-/

namespace UnifiContainers.Properties

/-- A character of a Python string. -/
abbrev CodePoint := Fin 0x110000

theorem toNat_lt (c : Char) : c.toNat < 0x110000 := by
  have h := c.valid
  simp only [UInt32.isValidChar, Nat.isValidChar] at h
  change c.val.toNat < _
  omega

def ord (c : Char) : CodePoint := ⟨c.toNat, toNat_lt c⟩

def IsHigh (c : CodePoint) : Prop := 0xD800 ≤ c.val ∧ c.val < 0xDC00

def IsLow (c : CodePoint) : Prop := 0xDC00 ≤ c.val ∧ c.val < 0xE000

instance (c : CodePoint) : Decidable (IsHigh c) := inferInstanceAs (Decidable (_ ∧ _))

instance (c : CodePoint) : Decidable (IsLow c) := inferInstanceAs (Decidable (_ ∧ _))

/-! ### Reading -/

structure InvalidUEscapeError where
  escape : List Char
  deriving DecidableEq, Repr

theorem shiftLeft_pair (m n : ℕ) : (m <<< 10) + n = m * 1024 + n := by
  rw [Nat.shiftLeft_eq]

/-- `_unsurrogate` -/
def unsurrogate (c d : CodePoint) (h : IsHigh c ∧ IsLow d) : CodePoint :=
  ⟨((c.val - 0xD800) <<< 10) + (d.val - 0xDC00) + 0x10000, by
    obtain ⟨⟨hc, hc'⟩, hd, hd'⟩ := h
    rw [shiftLeft_pair]
    omega⟩

/-- `SURROGATE_PAIR_RGX.sub(_unsurrogate, ...)` -/
def joinPairs : List CodePoint → List CodePoint
  | [] => []
  | [c] => [c]
  | c :: d :: rest =>
      if h : IsHigh c ∧ IsLow d then unsurrogate c d h :: joinPairs rest
      else c :: joinPairs (d :: rest)

def hexDigit? (c : Char) : Option (Fin 16) :=
  if h : 48 ≤ c.toNat ∧ c.toNat ≤ 57 then some ⟨c.toNat - 48, by omega⟩
  else if h : 65 ≤ c.toNat ∧ c.toNat ≤ 70 then some ⟨c.toNat - 55, by omega⟩
  else if h : 97 ≤ c.toNat ∧ c.toNat ≤ 102 then some ⟨c.toNat - 87, by omega⟩
  else none

/-- The number that four hexadecimal digits write, `none` if `U_ESCAPE_RGX` does not match. -/
def uEscape? (d1 d2 d3 d4 : Char) : Option CodePoint := do
  let n1 ← hexDigit? d1
  let n2 ← hexDigit? d2
  let n3 ← hexDigit? d3
  let n4 ← hexDigit? d4
  return ⟨((n1.val * 16 + n2.val) * 16 + n3.val) * 16 + n4.val, by omega⟩

/-- `_unescapes.get(esc, esc)` -/
def unescapes (e : Char) : CodePoint :=
  if e = 't' then ord '\t'
  else if e = 'n' then ord '\n'
  else if e = 'f' then ord '\x0c'
  else if e = 'r' then ord '\r'
  else ord e

/-- `ESCAPE_RGX.sub(_unesc, ...)`: a backslash, then `u` and up to four characters or any one. -/
def decodeEscapes : List Char → Except InvalidUEscapeError (List CodePoint)
  | [] => .ok []
  | c :: rest =>
      if c ≠ '\\' then (ord c :: ·) <$> decodeEscapes rest
      else
        match rest with
        | [] => .ok [ord '\\']
        | e :: more =>
            -- `.` does not match a line feed
            if e = '\n' then (ord '\\' :: ·) <$> decodeEscapes (e :: more)
            else if e ≠ 'u' then (unescapes e :: ·) <$> decodeEscapes more
            else
              match more with
              | d1 :: d2 :: d3 :: d4 :: tail =>
                  match uEscape? d1 d2 d3 d4 with
                  | some u => (u :: ·) <$> decodeEscapes tail
                  | none => .error ⟨'\\' :: 'u' :: [d1, d2, d3, d4].takeWhile (· ≠ '\n')⟩
              | short => .error ⟨'\\' :: 'u' :: short.takeWhile (· ≠ '\n')⟩

def unescape (field : List Char) : Except InvalidUEscapeError (List CodePoint) :=
  joinPairs <$> decodeEscapes field

/-! ### Writing -/

/-- `"\\u{0:04x}".format(unit)` -/
def uEscape (unit : ℕ) : List Char :=
  ['\\', 'u', Nat.digitChar (unit / 4096 % 16), Nat.digitChar (unit / 256 % 16),
    Nat.digitChar (unit / 16 % 16), Nat.digitChar (unit % 16)]

/-- `_to_u_escape` -/
def toUEscape (c : CodePoint) : List Char :=
  if 0xFFFF < c.val then
    let co := c.val - 0x10000
    uEscape (0xD800 + (co >>> 10)) ++ uEscape (0xDC00 + (co &&& 0x3FF))
  else uEscape c.val

/-- `_escapes` -/
def escapes : List (CodePoint × Char) :=
  [(ord '\t', 't'), (ord '\n', 'n'), (ord '\x0c', 'f'), (ord '\r', 'r'), (ord '!', '!'),
    (ord '#', '#'), (ord ':', ':'), (ord '=', '='), (ord '\\', '\\')]

/-- `_esc` -/
def esc (c : CodePoint) : List Char :=
  match escapes.lookup c with
  | some e => ['\\', e]
  | none => toUEscape c

/-- `NEEDS_ESCAPE_ASCII_RGX` -/
def needsEscape (c : CodePoint) : Bool :=
  !(decide (0x20 ≤ c.val) && decide (c.val ≤ 0x7E)) ||
    ['\\', '#', '!', '=', ':'].any fun special => ord special == c

/-- `_base_escape` -/
def baseEscape (field : List CodePoint) : List Char :=
  field.flatMap fun c => if needsEscape c then esc c else [Char.ofNat c.val]

def escape (field : List CodePoint) : List Char :=
  (baseEscape field).flatMap fun c => if c = ' ' then ['\\', ' '] else [c]

/-- `join_key_value` with its default separator. -/
def joinKeyValue (key value : List CodePoint) : List Char :=
  let value := baseEscape value
  escape key ++ '=' :: if value.head? = some ' ' then '\\' :: value else value

/-! ### Tokens -/

/-- What the reader takes in one step. -/
inductive Token where
  | plain (c : Char)
  | short (e : Char)
  | unicode (unit : Fin 0x10000)
  deriving DecidableEq, Repr

namespace Token

def text : Token → List Char
  | plain c => [c]
  | short e => ['\\', e]
  | unicode unit => uEscape unit.val

def code : Token → CodePoint
  | plain c => ord c
  | short e => unescapes e
  | unicode unit => unit.castLE (by decide)

def WellFormed : Token → Prop
  | plain c => c ≠ '\\'
  | short e => e ≠ 'u' ∧ e ≠ '\n'
  | unicode _ => True

end Token

def tokensText (tokens : List Token) : List Char := tokens.flatMap Token.text

theorem hexDigit?_digitChar : ∀ n : Fin 16, hexDigit? (Nat.digitChar n.val) = some n := by decide

theorem uEscape?_digits (unit : Fin 0x10000) :
    uEscape? (Nat.digitChar (unit.val / 4096 % 16)) (Nat.digitChar (unit.val / 256 % 16))
      (Nat.digitChar (unit.val / 16 % 16)) (Nat.digitChar (unit.val % 16)) =
      some (unit.castLE (by decide)) := by
  have hdigit : ∀ n, hexDigit? (Nat.digitChar (n % 16)) = some ⟨n % 16, Nat.mod_lt n (by decide)⟩ :=
    fun n => hexDigit?_digitChar ⟨n % 16, Nat.mod_lt n (by decide)⟩
  simp only [uEscape?, hdigit, Option.bind_eq_bind, Option.bind_some, Option.pure_def,
    Option.some.injEq, Fin.ext_iff, Fin.val_castLE]
  omega

variable {c e : Char} {rest u v : List Char}

theorem decodeEscapes_plain (hc : c ≠ '\\') (rest : List Char) :
    decodeEscapes (c :: rest) = (ord c :: ·) <$> decodeEscapes rest := by
  rw [decodeEscapes.eq_def]
  exact if_pos hc

theorem decodeEscapes_short (hu : e ≠ 'u') (hnl : e ≠ '\n') (rest : List Char) :
    decodeEscapes ('\\' :: e :: rest) = (unescapes e :: ·) <$> decodeEscapes rest := by
  rw [decodeEscapes.eq_def]
  exact (if_neg (not_not.mpr rfl)).trans ((if_neg hnl).trans (if_pos hu))

theorem decodeEscapes_u {d1 d2 d3 d4 : Char} {unit : CodePoint}
    (hunit : uEscape? d1 d2 d3 d4 = some unit) (rest : List Char) :
    decodeEscapes ('\\' :: 'u' :: d1 :: d2 :: d3 :: d4 :: rest) =
      (unit :: ·) <$> decodeEscapes rest := by
  rw [decodeEscapes.eq_def]
  show (match uEscape? d1 d2 d3 d4 with
    | some u => (u :: ·) <$> decodeEscapes rest
    | none => .error _) = _
  rw [hunit]

theorem decodeEscapes_token {token : Token} (h : token.WellFormed) (rest : List Char) :
    decodeEscapes (token.text ++ rest) = (token.code :: ·) <$> decodeEscapes rest := by
  cases token with
  | plain c => exact decodeEscapes_plain h rest
  | short e => exact decodeEscapes_short h.1 h.2 rest
  | unicode unit => exact decodeEscapes_u (uEscape?_digits unit) rest

theorem decodeEscapes_tokens {tokens : List Token} (h : ∀ token ∈ tokens, token.WellFormed)
    (rest : List Char) :
    decodeEscapes (tokensText tokens ++ rest) =
      (tokens.map Token.code ++ ·) <$> decodeEscapes rest := by
  induction tokens with
  | nil => exact (id_map _).symm
  | cons token tokens ih =>
    rw [tokensText, List.flatMap_cons, List.append_assoc,
      decodeEscapes_token (h token List.mem_cons_self), ← tokensText,
      ih fun t ht => h t (List.mem_cons_of_mem _ ht), Functor.map_map]
    rfl

/-! ### The tokens that the writer writes -/

/-- The UTF-16 units of a character. -/
def units (c : CodePoint) : List (Fin 0x10000) :=
  if h : 0xFFFF < c.val then
    [⟨0xD800 + (c.val - 0x10000) / 1024, by omega⟩, ⟨0xDC00 + (c.val - 0x10000) % 1024, by omega⟩]
  else [⟨c.val, by omega⟩]

def valueTokens (c : CodePoint) : List Token :=
  if needsEscape c then
    match escapes.lookup c with
    | some e => [.short e]
    | none => (units c).map Token.unicode
  else [.plain (Char.ofNat c.val)]

/-- In a key a space is escaped too. -/
def keyTokens (c : CodePoint) : List Token :=
  if c = ord ' ' then [.short ' '] else valueTokens c

theorem toUEscape_eq (c : CodePoint) :
    toUEscape c = tokensText ((units c).map Token.unicode) := by
  rw [toUEscape, units]
  split
  · simp [tokensText, Token.text, Nat.shiftRight_eq_div_pow,
      Nat.and_two_pow_sub_one_eq_mod _ 10]
  · simp [tokensText, Token.text]

theorem baseEscape_eq (field : List CodePoint) :
    baseEscape field = tokensText (field.flatMap valueTokens) := by
  rw [baseEscape, tokensText, List.flatMap_assoc]
  refine List.flatMap_congr fun c _ => ?_
  rw [valueTokens, esc]
  cases needsEscape c with
  | false => rfl
  | true =>
    cases hlookup : escapes.lookup c with
    | some e => rfl
    | none => exact toUEscape_eq c

/-- A character that is written as it is. -/
theorem needsEscape_eq_false {c : CodePoint} (h : needsEscape c = false) :
    (32 ≤ c.val ∧ c.val ≤ 126) ∧ ∀ special ∈ ['\\', '#', '!', '=', ':'], ord special ≠ c := by
  rw [needsEscape, Bool.or_eq_false_iff, Bool.not_eq_false', Bool.and_eq_true, decide_eq_true_eq,
    decide_eq_true_eq, List.any_eq_false] at h
  exact ⟨h.1, fun special hmem heq => h.2 special hmem (beq_iff_eq.mpr heq)⟩

theorem ord_ofNat {c : CodePoint} (h : c.val ≤ 126) : ord (Char.ofNat c.val) = c := by
  have hvalid : c.val.isValidChar := .inl (by omega)
  refine Fin.ext ?_
  change (Char.ofNat c.val).toNat = c.val
  rw [Char.ofNat, dif_pos hvalid]
  rfl

theorem escapes_lookup {c : CodePoint} {e : Char} (h : escapes.lookup c = some e) :
    e ≠ ' ' ∧ e ≠ 'u' ∧ e ≠ '\n' ∧ unescapes e = c ∧ c.val ≤ 0xFFFF := by
  have hall : ∀ entry ∈ escapes, entry.2 ≠ ' ' ∧ entry.2 ≠ 'u' ∧ entry.2 ≠ '\n' ∧
      unescapes entry.2 = entry.1 ∧ entry.1.val ≤ 0xFFFF := by decide
  obtain ⟨i, j, hsplit, -⟩ := List.lookup_eq_some_iff.mp h
  exact hall (c, e) (hsplit ▸ by simp)

theorem uEscape_no_space (unit : Fin 0x10000) : ' ' ∉ uEscape unit.val := by
  have hdigit : ∀ n : Fin 16, ' ' ≠ Nat.digitChar n.val := by decide
  have hmod : ∀ n, ' ' ≠ Nat.digitChar (n % 16) := fun n => hdigit ⟨n % 16, Nat.mod_lt n (by decide)⟩
  simp [uEscape, hmod]

theorem valueTokens_no_space {c : CodePoint} (h : c ≠ ord ' ') :
    ' ' ∉ tokensText (valueTokens c) := by
  rw [valueTokens]
  cases hneeds : needsEscape c with
  | false =>
    have hle := (needsEscape_eq_false hneeds).1.2
    intro hmem
    have hspace : ' ' = Char.ofNat c.val := by simpa [tokensText, Token.text] using hmem
    rw [← ord_ofNat hle, ← hspace] at h
    exact h rfl
  | true =>
    cases hlookup : escapes.lookup c with
    | some e => simp [tokensText, Token.text, (escapes_lookup hlookup).1.symm]
    | none => simp [tokensText, Token.text, uEscape_no_space]

theorem escape_eq (field : List CodePoint) :
    escape field = tokensText (field.flatMap keyTokens) := by
  rw [escape, baseEscape_eq, tokensText, tokensText, List.flatMap_assoc, List.flatMap_assoc,
    List.flatMap_assoc]
  refine List.flatMap_congr fun c _ => ?_
  rw [← tokensText, keyTokens]
  split
  · next hspace =>
    subst hspace
    rfl
  · next hne =>
    rw [← List.flatMap_assoc, ← tokensText]
    refine (List.flatMap_congr fun d hmem => if_neg ?_).trans (List.flatMap_singleton' _)
    intro hd
    exact valueTokens_no_space hne (hd ▸ hmem)

/-- The units of a character as characters. -/
def unitPoints (c : CodePoint) : List CodePoint := (units c).map (Fin.castLE (by decide))

theorem unitPoints_of_le {c : CodePoint} (h : c.val ≤ 0xFFFF) : unitPoints c = [c] := by
  rw [unitPoints, units, dif_neg (by omega)]
  rfl

theorem valueTokens_code (c : CodePoint) : (valueTokens c).map Token.code = unitPoints c := by
  rw [valueTokens]
  cases hneeds : needsEscape c with
  | false =>
    have hle := (needsEscape_eq_false hneeds).1.2
    rw [unitPoints_of_le (by omega)]
    exact congrArg (fun point => [point]) (ord_ofNat hle)
  | true =>
    cases hlookup : escapes.lookup c with
    | some e =>
      have he := escapes_lookup hlookup
      rw [unitPoints_of_le he.2.2.2.2]
      exact congrArg (fun point => [point]) he.2.2.2.1
    | none => exact List.map_map

theorem keyTokens_code (c : CodePoint) : (keyTokens c).map Token.code = unitPoints c := by
  rw [keyTokens]
  split
  · next hspace =>
    subst hspace
    rfl
  · exact valueTokens_code c

/-! ### The round trip -/

/-- No two characters in a row are the halves of a surrogate pair. -/
def NoSplitPair (s : List CodePoint) : Prop := s.IsChain fun c d => ¬(IsHigh c ∧ IsLow d)

instance (s : List CodePoint) : Decidable (NoSplitPair s) :=
  inferInstanceAs (Decidable (s.IsChain _))

theorem noSplitPair_cons {c : CodePoint} {s : List CodePoint} : NoSplitPair (c :: s) ↔
    (∀ d ∈ s.head?, ¬(IsHigh c ∧ IsLow d)) ∧ NoSplitPair s := List.isChain_cons

theorem joinPairs_cons {c : CodePoint} {s : List CodePoint}
    (h : ∀ d ∈ s.head?, ¬(IsHigh c ∧ IsLow d)) : joinPairs (c :: s) = c :: joinPairs s := by
  cases s with
  | nil => rfl
  | cons d s =>
    rw [joinPairs]
    exact dif_neg (h d rfl)

theorem unitPoints_of_lt {c : CodePoint} (h : 0xFFFF < c.val) :
    ∃ hi lo, ∃ hpair : IsHigh hi ∧ IsLow lo,
      unitPoints c = [hi, lo] ∧ unsurrogate hi lo hpair = c := by
  have hc := c.isLt
  refine ⟨⟨0xD800 + (c.val - 0x10000) / 1024, by omega⟩,
    ⟨0xDC00 + (c.val - 0x10000) % 1024, by omega⟩, ⟨?_, ?_⟩, ?_, ?_⟩
  · constructor <;> simp only <;> omega
  · constructor <;> simp only <;> omega
  · rw [unitPoints, units, dif_pos h]
    rfl
  · refine Fin.ext ?_
    simp only [unsurrogate, shiftLeft_pair]
    omega

/-- The units of a text begin with a low surrogate only where the text does. -/
theorem head?_unitPoints {s : List CodePoint} {d : CodePoint}
    (h : d ∈ (s.flatMap unitPoints).head?) (hlow : IsLow d) : d ∈ s.head? := by
  cases s with
  | nil => cases h
  | cons c s =>
    rw [List.flatMap_cons] at h
    rcases Nat.lt_or_ge 0xFFFF c.val with hlt | hle
    · obtain ⟨hi, lo, hpair, hunits, -⟩ := unitPoints_of_lt hlt
      rw [hunits] at h
      cases h
      have := hpair.1.2
      have := hlow.1
      omega
    · rw [unitPoints_of_le hle] at h
      exact h

theorem joinPairs_unitPoints_iff (s : List CodePoint) :
    joinPairs (s.flatMap unitPoints) = s ↔ NoSplitPair s := by
  induction s with
  | nil => exact iff_of_true rfl List.isChain_nil
  | cons c s ih =>
    rw [List.flatMap_cons, noSplitPair_cons, ← ih]
    rcases Nat.lt_or_ge 0xFFFF c.val with hlt | hle
    · obtain ⟨hi, lo, hpair, hunits, hjoined⟩ := unitPoints_of_lt hlt
      have hjoin : joinPairs (hi :: lo :: s.flatMap unitPoints) =
          c :: joinPairs (s.flatMap unitPoints) := by
        rw [joinPairs, dif_pos hpair, hjoined]
      have hhead : ∀ d ∈ s.head?, ¬(IsHigh c ∧ IsLow d) := fun d _ hd => by
        have := hd.1.2
        omega
      rw [hunits, List.cons_append, List.cons_append, List.nil_append, hjoin,
        List.cons.injEq, and_iff_right rfl, and_iff_right hhead]
    · rw [unitPoints_of_le hle, List.cons_append, List.nil_append]
      by_cases hhead : ∀ d ∈ s.head?, ¬(IsHigh c ∧ IsLow d)
      · rw [joinPairs_cons fun d hd hpair => hhead d (head?_unitPoints hd hpair.2) hpair,
          List.cons.injEq, and_iff_right rfl, and_iff_right hhead]
      · refine iff_of_false (fun hjoin => ?_) fun h => hhead h.1
        push Not at hhead
        obtain ⟨d, hd, hpair⟩ := hhead
        obtain ⟨rest, rfl⟩ : ∃ rest, s = d :: rest := by
          cases s with
          | nil => cases hd
          | cons other rest =>
            cases hd
            exact ⟨rest, rfl⟩
        have hlow := hpair.2.2
        rw [List.flatMap_cons, unitPoints_of_le (show d.val ≤ 0xFFFF by omega), List.cons_append,
          List.nil_append, joinPairs, dif_pos hpair, List.cons.injEq] at hjoin
        have hval := congrArg Fin.val hjoin.1
        simp only [unsurrogate] at hval
        omega

theorem unsurrogate_not_surrogate (c d : CodePoint) (h : IsHigh c ∧ IsLow d) :
    ¬IsHigh (unsurrogate c d h) ∧ ¬IsLow (unsurrogate c d h) := by
  have hval : 0x10000 ≤ (unsurrogate c d h).val := by
    simp only [unsurrogate]
    omega
  exact ⟨fun hhigh => by have := hhigh.2; omega, fun hlow => by have := hlow.2; omega⟩

theorem head?_joinPairs {s : List CodePoint} {d : CodePoint} (h : d ∈ (joinPairs s).head?)
    (hlow : IsLow d) : d ∈ s.head? := by
  cases s with
  | nil => exact h
  | cons c s =>
    cases s with
    | nil => exact h
    | cons e s =>
      rw [joinPairs] at h
      split at h
      · next hpair =>
        cases h
        exact absurd hlow (unsurrogate_not_surrogate c e hpair).2
      · exact h

/-- The reader joins every pair, so that what it decodes never holds one split. -/
theorem joinPairs_noSplitPair (s : List CodePoint) : NoSplitPair (joinPairs s) := by
  induction s using joinPairs.induct with
  | case1 => exact List.isChain_nil
  | case2 c => exact List.isChain_singleton c
  | case3 c d rest h ih =>
    rw [joinPairs, dif_pos h, noSplitPair_cons]
    exact ⟨fun e _ he => (unsurrogate_not_surrogate c d h).1 he.1, ih⟩
  | case4 c d rest h ih =>
    rw [joinPairs, dif_neg h, noSplitPair_cons]
    refine ⟨fun e he hpair => h ?_, ih⟩
    have hd := head?_joinPairs he hpair.2
    cases hd
    exact hpair

/-- The text of tokens that write the units of a string. -/
theorem decodeEscapes_field {tokens : CodePoint → List Token}
    (hwf : ∀ c, ∀ token ∈ tokens c, token.WellFormed)
    (hcode : ∀ c, (tokens c).map Token.code = unitPoints c) (field : List CodePoint) :
    decodeEscapes (tokensText (field.flatMap tokens)) = .ok (field.flatMap unitPoints) := by
  have hall : ∀ token ∈ field.flatMap tokens, token.WellFormed := by
    intro token hmem
    obtain ⟨c, -, hmem⟩ := List.mem_flatMap.mp hmem
    exact hwf c token hmem
  have hcodes : (field.flatMap tokens).map Token.code = field.flatMap unitPoints := by
    rw [List.map_flatMap]
    exact List.flatMap_congr fun c _ => hcode c
  have hdecode := decodeEscapes_tokens hall []
  rw [List.append_nil, hcodes] at hdecode
  rw [hdecode]
  exact congrArg Except.ok (List.append_nil _)

theorem valueTokens_wellFormed (c : CodePoint) : ∀ token ∈ valueTokens c, token.WellFormed := by
  intro token hmem
  rw [valueTokens] at hmem
  cases hneeds : needsEscape c with
  | false =>
    obtain ⟨hrange, hspecial⟩ := needsEscape_eq_false hneeds
    rw [hneeds] at hmem
    obtain rfl := List.mem_singleton.mp hmem
    intro heq
    exact hspecial '\\' List.mem_cons_self (heq ▸ ord_ofNat hrange.2)
  | true =>
    rw [hneeds] at hmem
    cases hlookup : escapes.lookup c with
    | some e =>
      rw [hlookup] at hmem
      obtain rfl := List.mem_singleton.mp hmem
      exact ⟨(escapes_lookup hlookup).2.1, (escapes_lookup hlookup).2.2.1⟩
    | none =>
      rw [hlookup] at hmem
      obtain ⟨unit, -, rfl⟩ := List.mem_map.mp hmem
      trivial

theorem keyTokens_wellFormed (c : CodePoint) : ∀ token ∈ keyTokens c, token.WellFormed := by
  intro token hmem
  rw [keyTokens] at hmem
  split at hmem
  · obtain rfl := List.mem_singleton.mp hmem
    exact ⟨by decide, by decide⟩
  · exact valueTokens_wellFormed c token hmem

theorem decodeEscapes_escape (field : List CodePoint) :
    decodeEscapes (escape field) = .ok (field.flatMap unitPoints) := by
  rw [escape_eq]
  exact decodeEscapes_field keyTokens_wellFormed keyTokens_code field

theorem unescape_baseEscape (field : List CodePoint) :
    unescape (baseEscape field) = .ok (joinPairs (field.flatMap unitPoints)) := by
  rw [baseEscape_eq, unescape, decodeEscapes_field valueTokens_wellFormed valueTokens_code]
  rfl

theorem unescape_escape (field : List CodePoint) :
    unescape (escape field) = .ok (joinPairs (field.flatMap unitPoints)) := by
  rw [unescape, decodeEscapes_escape]
  rfl

/-- The reader gets back what the writer escaped exactly if no surrogate pair is split in it. -/
theorem unescape_escape_iff (field : List CodePoint) :
    unescape (escape field) = .ok field ∧ unescape (baseEscape field) = .ok field ↔
      NoSplitPair field := by
  rw [unescape_escape, unescape_baseEscape, and_self, Except.ok.injEq, joinPairs_unitPoints_iff]

end UnifiContainers.Properties
