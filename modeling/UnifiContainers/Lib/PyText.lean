import Mathlib.Data.List.DropRight

/-!
# Numerals and text files as Python reads and writes them

`\d` and `int` accept every Unicode decimal digit (category `Nd`), not only `0` to `9`, so a text
that a pattern takes for a number need not be the text the number prints as. Printing is ASCII.
Integers are unbounded.
-/

namespace PyText

def decimalZeros : List Nat :=
  [0x30, 0x660, 0x6f0, 0x7c0, 0x966, 0x9e6, 0xa66, 0xae6, 0xb66, 0xbe6, 0xc66, 0xce6, 0xd66,
    0xde6, 0xe50, 0xed0, 0xf20, 0x1040, 0x1090, 0x17e0, 0x1810, 0x1946, 0x19d0, 0x1a80, 0x1a90,
    0x1b50, 0x1bb0, 0x1c40, 0x1c50, 0xa620, 0xa8d0, 0xa900, 0xa9d0, 0xa9f0, 0xaa50, 0xabf0,
    0xff10, 0x104a0, 0x10d30, 0x11066, 0x110f0, 0x11136, 0x111d0, 0x112f0, 0x11450, 0x114d0,
    0x11650, 0x116c0, 0x11730, 0x118e0, 0x11950, 0x11c50, 0x11d50, 0x11da0, 0x11f50, 0x16a60,
    0x16ac0, 0x16b50, 0x1d7ce, 0x1d7d8, 0x1d7e2, 0x1d7ec, 0x1d7f6, 0x1e140, 0x1e2f0, 0x1e4f0,
    0x1e950, 0x1fbf0]

/-- The value of a Unicode decimal digit. -/
def decimal? (c : Char) : Option Nat :=
  decimalZeros.findSome? fun z0 =>
    if z0 ≤ c.toNat ∧ c.toNat < z0 + 10 then some (c.toNat - z0) else none

def isDecimal (c : Char) : Bool := (decimal? c).isSome

/-- `int` on a text of decimal digits. -/
def int (digits : List Char) : Nat :=
  digits.foldl (fun value c => 10 * value + (decimal? c).getD 0) 0

def str (n : Nat) : List Char := Nat.toDigits 10 n

/-- A nonempty run of the digits `0` to `9`. -/
def IsNumeral (s : List Char) : Prop := s ≠ [] ∧ ∀ c ∈ s, c.isDigit = true

/-- Written the way `str` prints: no leading zero. -/
def NoLeadingZero (s : List Char) : Prop := s = ['0'] ∨ s.head? ≠ some '0'

-- both before any instance that tries all characters
instance (priority := high) decidableForallMemChar (p : Char → Prop) [DecidablePred p]
    (s : List Char) : Decidable (∀ c ∈ s, p c) := List.decidableBAll p s

instance (priority := high) decidableExistsMemChar (p : Char → Prop) [DecidablePred p]
    (s : List Char) : Decidable (∃ c ∈ s, p c) := List.decidableBEx p s

instance (s : List Char) : Decidable (IsNumeral s) := inferInstanceAs (Decidable (_ ∧ _))

instance (s : List Char) : Decidable (NoLeadingZero s) := inferInstanceAs (Decidable (_ ∨ _))

theorem isDigit_iff (c : Char) : c.isDigit = true ↔ 48 ≤ c.toNat ∧ c.toNat < 58 := by
  simp only [Char.isDigit, Bool.and_eq_true, decide_eq_true_eq, ge_iff_le, UInt32.le_iff_toNat_le]
  change 48 ≤ c.toNat ∧ c.toNat ≤ 57 ↔ _
  omega

private theorem decimalZeros_tail : ∀ z0 ∈ decimalZeros.tail, 128 ≤ z0 := by decide

theorem decimal?_digit {c : Char} (h : c.isDigit = true) : decimal? c = some (c.toNat - 48) := by
  have hc := (isDigit_iff c).mp h
  have hz : (48 ≤ c.toNat ∧ c.toNat < 48 + 10) := by omega
  simp [decimal?, decimalZeros, hz]

theorem isDecimal_ascii {c : Char} (h : c.toNat < 128) : isDecimal c = c.isDigit := by
  cases hd : c.isDigit with
  | true => simp [isDecimal, decimal?_digit hd]
  | false =>
      have hc : ¬ (48 ≤ c.toNat ∧ c.toNat < 58) := fun hh => by
        rw [(isDigit_iff c).mpr hh] at hd
        cases hd
      have hnone : decimal? c = none := by
        rw [decimal?, List.findSome?_eq_none_iff]
        intro z0 hz
        rw [if_neg]
        rcases List.mem_cons.mp (show z0 ∈ 48 :: decimalZeros.tail from hz) with rfl | hz
        · omega
        · have hbig := decimalZeros_tail z0 hz
          omega
      simp [isDecimal, hnone]

theorem isDecimal_digit {c : Char} (h : c.isDigit = true) : isDecimal c = true := by
  simp [isDecimal, decimal?_digit h]

private theorem int_foldl {digits : List Char} (h : ∀ c ∈ digits, c.isDigit = true) (n : Nat) :
    digits.foldl (fun value c => 10 * value + (decimal? c).getD 0) n =
      Nat.ofDigitChars 10 digits n := by
  induction digits generalizing n with
  | nil => simp
  | cons c cs ih =>
      rw [List.foldl_cons, Nat.ofDigitChars_cons, ih (fun d hd => h d (by simp [hd])),
        decimal?_digit (h c (by simp))]
      rfl

theorem int_eq_ofDigitChars {digits : List Char} (h : ∀ c ∈ digits, c.isDigit = true) :
    int digits = Nat.ofDigitChars 10 digits 0 := int_foldl h 0

theorem str_isNumeral (n : Nat) : IsNumeral (str n) :=
  ⟨Nat.toDigits_ne_nil, fun _ hc => Nat.isDigit_of_mem_toDigits (by decide) (by decide) hc⟩

@[simp]
theorem int_str (n : Nat) : int (str n) = n := by
  rw [int_eq_ofDigitChars (str_isNumeral n).2, str, Nat.ofDigitChars_ten_toDigits]

private theorem ofDigitChars_pos {c : Char} {cs : List Char} (hc : c.isDigit = true)
    (h0 : c ≠ '0') : 0 < Nat.ofDigitChars 10 (c :: cs) 0 := by
  have hd := (isDigit_iff c).mp hc
  have hne : c.toNat ≠ 48 := fun h => h0 (Char.toNat_inj.mp h)
  rw [Nat.ofDigitChars_cons, Nat.ofDigitChars_eq_ofDigitChars_zero]
  have hpow : 0 < 10 ^ cs.length := Nat.pow_pos (by omega)
  have hval : 0 < 10 * 0 + (c.toNat - '0'.toNat) := by
    change 0 < 10 * 0 + (c.toNat - 48)
    omega
  have := Nat.mul_pos hpow hval
  omega

private theorem digitChar_sub {c : Char} (h : c.isDigit = true) :
    Nat.toDigits 10 (c.toNat - 48) = [c] := by
  have hc := (isDigit_iff c).mp h
  rw [Nat.toDigits_of_lt_base (by omega)]
  congr 1
  apply Char.toNat_inj.mp
  rw [Nat.toNat_digitChar_of_lt_ten (by omega)]
  omega

/-- A numeral without leading zero is the printed form of its value. -/
theorem str_int {s : List Char} (hs : IsNumeral s) (h0 : NoLeadingZero s) : str (int s) = s := by
  rw [int_eq_ofDigitChars hs.2, str]
  induction s using List.reverseRec with
  | nil => exact absurd rfl hs.1
  | append_singleton front c ih =>
      have hc : c.isDigit = true := hs.2 c (by simp)
      have hcn := (isDigit_iff c).mp hc
      rw [Nat.ofDigitChars_append, Nat.ofDigitChars_cons, Nat.ofDigitChars_nil]
      cases front with
      | nil => simpa using digitChar_sub hc
      | cons d ds =>
          have hd : d.isDigit = true := hs.2 d (by simp)
          have hdz : d ≠ '0' := by
            rcases h0 with h | h
            · simp at h
            · simpa using h
          have hfront : IsNumeral (d :: ds) :=
            ⟨by simp, fun e he => hs.2 e (List.mem_append_left _ he)⟩
          have hih := ih hfront (Or.inr (by simpa using hdz))
          have hlast : Nat.toDigits 10 (c.toNat - '0'.toNat) = [c] := digitChar_sub hc
          have hlt : c.toNat - '0'.toNat < 10 := by
            change c.toNat - 48 < 10
            omega
          rw [← Nat.toDigits_append_toDigits (by decide) (ofDigitChars_pos hd hdz) hlt, hih, hlast]

/-- What `str` prints has no leading zero. -/
theorem str_noLeadingZero (n : Nat) : NoLeadingZero (str n) := by
  induction n using Nat.strong_induction_on with
  | _ n ih =>
      by_cases hsmall : n < 10
      · have hstr : str n = [n.digitChar] := Nat.toDigits_of_lt_base hsmall
        have hdigit : ∀ m < 10, NoLeadingZero [m.digitChar] := by decide
        rw [hstr]
        exact hdigit n hsmall
      · have hpos : 0 < n / 10 := Nat.div_pos (by omega) (by decide)
        have hstr : str n = str (n / 10) ++ [(n % 10).digitChar] :=
          Nat.toDigits_of_base_le (by decide) (by omega)
        rcases ih (n / 10) (by omega) with hzero | hhead
        · have hint := int_str (n / 10)
          rw [hzero] at hint
          exact absurd hint.symm hpos.ne'
        · obtain ⟨c, cs, hcons⟩ := List.exists_cons_of_ne_nil (str_isNumeral (n / 10)).1
          rw [hcons] at hhead
          right
          rw [hstr, hcons]
          exact hhead

theorem int_inj {s t : List Char} (hs : IsNumeral s) (ht : IsNumeral t) (hs0 : NoLeadingZero s)
    (ht0 : NoLeadingZero t) (h : int s = int t) : s = t := by
  rw [← str_int hs hs0, h, str_int ht ht0]

/-! ### Text files -/

/-- `str.isspace` on one character. -/
def isSpace (c : Char) : Bool :=
  let n := c.toNat
  (9 ≤ n && n ≤ 13) || (0x1c ≤ n && n ≤ 0x20) || n == 0x85 || n == 0xa0 || n == 0x1680 ||
    (0x2000 ≤ n && n ≤ 0x200a) || n == 0x2028 || n == 0x2029 || n == 0x202f || n == 0x205f ||
    n == 0x3000

def strip (s : List Char) : List Char := (s.dropWhile isSpace).rdropWhile isSpace

/-- What reading a file in text mode makes of its line ends. -/
def universalNewlines : List Char → List Char
  | '\r' :: '\n' :: rest => '\n' :: universalNewlines rest
  | '\r' :: rest => '\n' :: universalNewlines rest
  | c :: rest => c :: universalNewlines rest
  | [] => []

theorem universalNewlines_crlf (rest : List Char) :
    universalNewlines ('\r' :: '\n' :: rest) = '\n' :: universalNewlines rest := rfl

theorem universalNewlines_cr {rest : List Char} (h : ∀ after, rest ≠ '\n' :: after) :
    universalNewlines ('\r' :: rest) = '\n' :: universalNewlines rest := by
  rw [universalNewlines]
  exact h

theorem universalNewlines_cons {c : Char} (hc : c ≠ '\r') (rest : List Char) :
    universalNewlines (c :: rest) = c :: universalNewlines rest := by
  rw [universalNewlines]
  · intro after heq
    exact absurd heq hc
  · exact hc

/-- Induction on a text by the line ends it holds. -/
@[elab_as_elim]
theorem newlines_induction {motive : List Char → Prop} (nil : motive [])
    (crlf : ∀ rest, motive rest → motive ('\r' :: '\n' :: rest))
    (cr : ∀ rest, (∀ after, rest ≠ '\n' :: after) → motive rest → motive ('\r' :: rest))
    (cons : ∀ c rest, c ≠ '\r' → motive rest → motive (c :: rest)) (s : List Char) : motive s := by
  induction s using universalNewlines.induct with
  | case1 rest ih => exact crlf rest ih
  | case2 rest hrest ih => exact cr rest hrest ih
  | case3 c rest _ hc ih => exact cons c rest hc ih
  | case4 => exact nil

theorem universalNewlines_of_not_mem {s : List Char} (h : '\r' ∉ s) : universalNewlines s = s := by
  induction s with
  | nil => rfl
  | cons c s ih =>
      have hc : c ≠ '\r' := fun hc => h (by simp [hc])
      rw [universalNewlines_cons hc, ih fun hs => h (by simp [hs])]

theorem return_not_mem_universalNewlines (s : List Char) : '\r' ∉ universalNewlines s := by
  induction s using newlines_induction with
  | nil => exact List.not_mem_nil
  | crlf rest ih =>
      rw [universalNewlines_crlf]
      simpa using ih
  | cr rest hrest ih =>
      rw [universalNewlines_cr hrest]
      simpa using ih
  | cons c rest hc ih =>
      rw [universalNewlines_cons hc]
      intro h
      rcases List.mem_cons.mp h with heq | h
      · exact hc heq.symm
      · exact ih h

theorem universalNewlines_append {s : List Char} (t : List Char) (h : '\r' ∉ s) :
    universalNewlines (s ++ t) = s ++ universalNewlines t := by
  induction s with
  | nil => rfl
  | cons c s ih =>
      have hc : c ≠ '\r' := fun hc => h (by simp [hc])
      rw [List.cons_append, universalNewlines_cons hc, ih fun hs => h (by simp [hs])]
      rfl

/-- Text that begins with anything but a newline is read by itself. -/
theorem universalNewlines_append_cons (s t : List Char) {c : Char} (hc : c ≠ '\n') :
    universalNewlines (s ++ c :: t) = universalNewlines s ++ universalNewlines (c :: t) := by
  induction s using newlines_induction with
  | nil => rfl
  | crlf rest ih =>
      rw [List.cons_append, List.cons_append, universalNewlines_crlf, universalNewlines_crlf, ih]
      rfl
  | cr rest hrest ih =>
      have hlone : ∀ after, rest ++ c :: t ≠ '\n' :: after := by
        intro after heq
        cases rest with
        | nil => exact hc (List.cons.inj heq).1
        | cons d rest => exact hrest rest (congrArg (· :: rest) (List.cons.inj heq).1)
      rw [List.cons_append, universalNewlines_cr hlone, universalNewlines_cr hrest, ih]
      rfl
  | cons d rest hd ih =>
      rw [List.cons_append, universalNewlines_cons hd, universalNewlines_cons hd, ih]
      rfl

theorem mem_of_universalNewlines {c : Char} {s : List Char} (h : c ∈ universalNewlines s)
    (hc : c ≠ '\n') : c ∈ s := by
  induction s using newlines_induction with
  | nil => exact h
  | crlf rest ih =>
      rw [universalNewlines_crlf] at h
      rcases List.mem_cons.mp h with heq | h
      · exact absurd heq hc
      · exact List.mem_cons_of_mem _ (List.mem_cons_of_mem _ (ih h))
  | cr rest hrest ih =>
      rw [universalNewlines_cr hrest] at h
      rcases List.mem_cons.mp h with heq | h
      · exact absurd heq hc
      · exact List.mem_cons_of_mem _ (ih h)
  | cons d rest hd ih =>
      rw [universalNewlines_cons hd] at h
      rcases List.mem_cons.mp h with heq | h
      · exact heq ▸ List.mem_cons_self
      · exact List.mem_cons_of_mem _ (ih h)

theorem getLast?_universalNewlines {s : List Char} (h : s.getLast? = some '\n') :
    (universalNewlines s).getLast? = some '\n' := by
  have hlast : ∀ {c : Char} {t : List Char}, (c :: t).getLast? = some '\n' →
      (t.getLast? = some '\n' → (universalNewlines t).getLast? = some '\n') →
        (t = [] ∨ (universalNewlines t).getLast? = some '\n') := by
    intro c t hc ht
    cases t with
    | nil => exact .inl rfl
    | cons d t => exact .inr (ht (by rwa [List.getLast?_cons_cons] at hc))
  induction s using newlines_induction with
  | nil => exact h
  | crlf rest ih =>
      rw [List.getLast?_cons_cons] at h
      rw [universalNewlines_crlf, List.getLast?_cons]
      rcases hlast h ih with rfl | hrest
      · rfl
      · rw [hrest, Option.getD_some]
  | cr rest hlone ih =>
      rw [universalNewlines_cr hlone, List.getLast?_cons]
      rcases hlast h ih with rfl | hrest
      · rfl
      · rw [hrest, Option.getD_some]
  | cons c rest hc ih =>
      rw [universalNewlines_cons hc, List.getLast?_cons]
      rcases hlast h ih with rfl | hrest
      · exact h
      · rw [hrest, Option.getD_some]

theorem strip_append_newline (s : List Char) : strip (s ++ ['\n']) = strip s := by
  have hspace : isSpace '\n' = true := by decide
  rw [strip, List.dropWhile_append]
  split
  · rename_i hempty
    rw [List.isEmpty_iff] at hempty
    simp [strip, hempty, hspace]
  · rw [List.rdropWhile_concat_pos _ _ _ hspace, strip]

theorem mem_universalNewlines {c : Char} {s : List Char} (hc : isSpace c = false)
    (h : c ∈ s) : c ∈ universalNewlines s := by
  induction s using newlines_induction with
  | nil => exact h
  | crlf rest ih =>
      rw [universalNewlines_crlf]
      rcases List.mem_cons.mp h with rfl | h
      · exact absurd hc (by decide)
      · rcases List.mem_cons.mp h with rfl | h
        · exact absurd hc (by decide)
        · exact List.mem_cons_of_mem _ (ih h)
  | cr rest hrest ih =>
      rw [universalNewlines_cr hrest]
      rcases List.mem_cons.mp h with rfl | h
      · exact absurd hc (by decide)
      · exact List.mem_cons_of_mem _ (ih h)
  | cons d rest hd ih =>
      rw [universalNewlines_cons hd]
      rcases List.mem_cons.mp h with rfl | h
      · exact List.mem_cons_self
      · exact List.mem_cons_of_mem _ (ih h)

theorem mem_dropWhile {p : Char → Bool} {c : Char} {s : List Char} (hc : p c = false)
    (h : c ∈ s) : c ∈ s.dropWhile p := by
  rw [← List.takeWhile_append_dropWhile (p := p) (l := s)] at h
  rcases List.mem_append.mp h with h | h
  · rw [List.mem_takeWhile_imp h] at hc
    cases hc
  · exact h

theorem mem_rdropWhile {p : Char → Bool} {c : Char} {s : List Char} (hc : p c = false)
    (h : c ∈ s) : c ∈ s.rdropWhile p := by
  rw [List.rdropWhile, List.mem_reverse]
  exact mem_dropWhile hc (List.mem_reverse.mpr h)

theorem mem_strip {c : Char} {s : List Char} (hc : isSpace c = false) (h : c ∈ s) :
    c ∈ strip s :=
  mem_rdropWhile hc (mem_dropWhile hc h)

theorem strip_eq_nil {s : List Char} : strip s = [] ↔ ∀ c ∈ s, isSpace c = true := by
  rw [strip, List.rdropWhile_eq_nil_iff]
  constructor
  · intro h
    have hnil : s.dropWhile isSpace = [] := by
      by_contra hne
      have hhead := List.head_dropWhile_not isSpace hne
      rw [h _ (List.head_mem hne)] at hhead
      cases hhead
    exact List.dropWhile_eq_nil_iff.mp hnil
  · intro h
    rw [List.dropWhile_eq_nil_iff.mpr h]
    simp

/-- What `strip` leaves neither begins nor ends with space. -/
theorem strip_ends {c : Char} {s : List Char}
    (h : c ∈ (strip s).head? ∨ c ∈ (strip s).getLast?) : isSpace c = false := by
  have hne : strip s ≠ [] := by
    intro hnil
    rw [hnil] at h
    rcases h with h | h <;> cases h
  rcases h with h | h
  · obtain ⟨rest, hprefix⟩ := List.rdropWhile_prefix isSpace (s.dropWhile isSpace)
    have hdrop : s.dropWhile isSpace = strip s ++ rest := hprefix.symm
    have hhead : c ∈ (s.dropWhile isSpace).head? := by
      rw [hdrop, List.head?_append_of_ne_nil _ hne]
      exact h
    have hnot := List.head?_dropWhile_not isSpace s
    rwa [Option.mem_def.mp hhead] at hnot
  · have hlast := List.rdropWhile_last_not isSpace (s.dropWhile isSpace) hne
    rw [List.getLast?_eq_some_getLast hne] at h
    cases h
    exact Bool.eq_false_iff.mpr hlast

theorem strip_of_ends {s : List Char} (hhead : ∀ c ∈ s.head?, isSpace c = false)
    (hlast : ∀ c ∈ s.getLast?, isSpace c = false) : strip s = s := by
  have hdrop : s.dropWhile isSpace = s := by
    cases s with
    | nil => rfl
    | cons c s => exact List.dropWhile_cons_of_neg (by simp [hhead c rfl])
  rw [strip, hdrop, List.rdropWhile_eq_self_iff]
  intro hne
  rw [hlast _ (List.getLast?_eq_some_getLast hne)]
  exact Bool.false_ne_true

theorem mem_of_strip {c : Char} {s : List Char} (h : c ∈ strip s) : c ∈ s :=
  (List.dropWhile_suffix isSpace).subset ((List.rdropWhile_prefix isSpace _).subset h)

/-! ### Lines -/

/-- Where `str.splitlines` cuts. -/
def isLineBoundary (c : Char) : Bool :=
  let n := c.toNat
  (10 ≤ n && n ≤ 13) || (0x1c ≤ n && n ≤ 0x1e) || n == 0x85 || n == 0x2028 || n == 0x2029

/-- The lines of a text that goes on with `line`. -/
def splitlinesFrom (line : List Char) : List Char → List (List Char)
  | [] => if line = [] then [] else [line]
  | '\r' :: '\n' :: rest => line :: splitlinesFrom [] rest
  | c :: rest => if isLineBoundary c then line :: splitlinesFrom [] rest
      else splitlinesFrom (line ++ [c]) rest

def splitlines (s : List Char) : List (List Char) := splitlinesFrom [] s

theorem splitlinesFrom_cons {c : Char} (hc : c ≠ '\r') (line rest : List Char) :
    splitlinesFrom line (c :: rest) = if isLineBoundary c then line :: splitlinesFrom [] rest
      else splitlinesFrom (line ++ [c]) rest := by
  rw [splitlinesFrom]
  intro more heq
  exact absurd heq hc

/-- After a newline the lines begin anew. -/
theorem splitlinesFrom_newline {s : List Char} (hs : '\r' ∉ s) (line t : List Char) :
    splitlinesFrom line (s ++ '\n' :: t) = splitlinesFrom line (s ++ ['\n']) ++ splitlines t := by
  have hnewline : isLineBoundary '\n' = true := by decide
  induction s generalizing line with
  | nil =>
      rw [List.nil_append, List.nil_append, splitlinesFrom_cons (by decide),
        splitlinesFrom_cons (by decide), if_pos hnewline, if_pos hnewline]
      rfl
  | cons c s ih =>
      have hc : c ≠ '\r' := fun heq => hs (heq ▸ List.mem_cons_self)
      have hrest : '\r' ∉ s := fun hmem => hs (List.mem_cons_of_mem c hmem)
      rw [List.cons_append, List.cons_append, splitlinesFrom_cons hc, splitlinesFrom_cons hc,
        ih hrest, ih hrest]
      split <;> rfl

theorem splitlinesFrom_line {s : List Char} (hs : ∀ c ∈ s, isLineBoundary c = false)
    (line : List Char) : splitlinesFrom line (s ++ ['\n']) = [line ++ s] := by
  induction s generalizing line with
  | nil => simp [splitlinesFrom_cons, splitlinesFrom, isLineBoundary]
  | cons c s ih =>
      have hc : c ≠ '\r' := fun heq => absurd (hs c List.mem_cons_self) (by rw [heq]; decide)
      rw [List.cons_append, splitlinesFrom_cons hc, if_neg (by simp [hs c List.mem_cons_self]),
        ih fun d hd => hs d (List.mem_cons_of_mem c hd)]
      simp

/-! ### Integers -/

/-- Digits with single underscores between them; `afterDigit` tells what stands before. -/
def digitGroups (afterDigit : Bool) : List Char → Bool
  | [] => afterDigit
  | c :: rest =>
      if c = '_' then afterDigit && digitGroups false rest else isDecimal c && digitGroups true rest

def unsigned? (s : List Char) : Option Nat :=
  if digitGroups false s then some (int (s.filter (· ≠ '_'))) else none

/-- `int` on any text; `none` is its `ValueError`. -/
def parseInt? (s : List Char) : Option Int :=
  match strip s with
  | '-' :: rest => (unsigned? rest).map fun (n : Nat) => -(n : Int)
  | '+' :: rest => (unsigned? rest).map fun (n : Nat) => (n : Int)
  | rest => (unsigned? rest).map fun (n : Nat) => (n : Int)

private theorem digitGroups_chars {afterDigit : Bool} {s : List Char}
    (h : digitGroups afterDigit s = true) : ∀ c ∈ s, c = '_' ∨ isDecimal c = true := by
  induction s generalizing afterDigit with
  | nil => simp
  | cons d s ih =>
      intro c hc
      rw [digitGroups] at h
      split at h
      · rename_i hd
        rcases List.mem_cons.mp hc with hc | hc
        · exact Or.inl (hc.trans hd)
        · exact ih (Bool.and_eq_true_iff.mp h).2 c hc
      · rcases List.mem_cons.mp hc with hc | hc
        · exact Or.inr (hc ▸ (Bool.and_eq_true_iff.mp h).1)
        · exact ih (Bool.and_eq_true_iff.mp h).2 c hc

private theorem unsigned?_chars {s : List Char} {n : Nat} (h : unsigned? s = some n) :
    ∀ c ∈ s, c = '_' ∨ isDecimal c = true := by
  simp only [unsigned?, Option.ite_none_right_eq_some] at h
  exact digitGroups_chars h.1

private theorem parseInt?_parts {s : List Char} {n : Int} (h : parseInt? s = some n) :
    ∃ sign digits k, strip s = sign ++ digits ∧ (∀ c ∈ sign, c = '-' ∨ c = '+') ∧
      unsigned? digits = some k := by
  rw [parseInt?] at h
  split at h
  · rename_i digits hsign
    obtain ⟨k, hk, -⟩ := Option.map_eq_some_iff.mp h
    exact ⟨['-'], digits, k, hsign, by simp, hk⟩
  · rename_i digits hsign
    obtain ⟨k, hk, -⟩ := Option.map_eq_some_iff.mp h
    exact ⟨['+'], digits, k, hsign, by simp, hk⟩
  · obtain ⟨k, hk, -⟩ := Option.map_eq_some_iff.mp h
    exact ⟨[], strip s, k, rfl, by simp, hk⟩

/-- A text that converts holds nothing but space, a sign, underscores and digits. -/
theorem parseInt?_chars {s : List Char} {n : Int} (h : parseInt? s = some n) {c : Char}
    (hc : c ∈ s) :
    isSpace c = true ∨ c = '-' ∨ c = '+' ∨ c = '_' ∨ isDecimal c = true := by
  by_cases hspace : isSpace c = true
  · exact .inl hspace
  · have hmem : c ∈ strip s := mem_strip (by simpa using hspace) hc
    obtain ⟨sign, digits, k, hstrip, hsign, hk⟩ := parseInt?_parts h
    rw [hstrip] at hmem
    right
    rcases List.mem_append.mp hmem with hmem | hmem
    · rcases hsign c hmem with hminus | hplus
      · exact .inl hminus
      · exact .inr (.inl hplus)
    · exact .inr (.inr (unsigned?_chars hk c hmem))

end PyText
