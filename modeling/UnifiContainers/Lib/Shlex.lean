import Mathlib.Data.List.Infix

/-!
# Splitting a text the way a shell does

Python's `shlex.split`: words stand between white space, quotes and a backslash make one word of what
white space would cut, and both are dropped on the way. The words joined with blanks come back as
they are exactly where no word needs a quote.
-/

namespace Shlex

abbrev Word := List Char

inductive State where
  | blank
  | word (token : Word)
  | single (token : Word)
  | double (token : Word)
  | escape (token : Word)
  | doubleEscape (token : Word)
  deriving DecidableEq, Repr

/-- The texts of its `ValueError`. -/
inductive Error where
  | noClosingQuotation
  | noEscapedCharacter
  deriving DecidableEq, Repr

def isWhitespace (c : Char) : Bool := c = ' ' || c = '\t' || c = '\r' || c = '\n'

/-- What has a meaning of its own outside white space. -/
def isSpecial (c : Char) : Bool := c = '\'' || c = '"' || c = '\\'

/-- A character of a word outside quotes. -/
def take (token : Word) (c : Char) : State :=
  if c = '\'' then .single token else if c = '"' then .double token
  else if c = '\\' then .escape token else .word (token ++ [c])

def step : State → Char → State × List Word
  | .blank, c => (if isWhitespace c then .blank else take [] c, [])
  | .word token, c => if isWhitespace c then (.blank, [token]) else (take token c, [])
  | .single token, c => (if c = '\'' then .word token else .single (token ++ [c]), [])
  | .double token, c =>
      (if c = '"' then .word token else if c = '\\' then .doubleEscape token
        else .double (token ++ [c]), [])
  | .escape token, c => (.word (token ++ [c]), [])
  -- between double quotes a backslash stays unless it stands before one of these two
  | .doubleEscape token, c =>
      (.double (token ++ if c = '\\' || c = '"' then [c] else ['\\', c]), [])

def run (s : State) : List Char → State × List Word
  | [] => (s, [])
  | c :: text => ((run (step s c).1 text).1, (step s c).2 ++ (run (step s c).1 text).2)

/-- The text ends here. -/
def finish : State → Except Error (List Word)
  | .blank => .ok []
  | .word token => .ok [token]
  | .single _ | .double _ => .error .noClosingQuotation
  | .escape _ | .doubleEscape _ => .error .noEscapedCharacter

def split (text : List Char) : Except Error (List Word) :=
  (finish (run .blank text).1).map ((run .blank text).2 ++ ·)

/-- `" ".join` -/
def join (words : List Word) : List Char := [' '].intercalate words

/-- A word that stands for itself. -/
structure IsPlain (w : Word) : Prop where
  nonempty : w ≠ []
  chars : ∀ c ∈ w, isWhitespace c = false ∧ isSpecial c = false

variable {s : State} {c : Char} {text more : List Char} {token w : Word} {words : List Word}

/-! ### Steps and runs -/

theorem run_cons (s : State) (c : Char) (text : List Char) :
    run s (c :: text) =
      ((run (step s c).1 text).1, (step s c).2 ++ (run (step s c).1 text).2) := rfl

theorem run_append (s : State) (text more : List Char) :
    run s (text ++ more) =
      ((run (run s text).1 more).1, (run s text).2 ++ (run (run s text).1 more).2) := by
  induction text generalizing s with
  | nil => rfl
  | cons c text ih =>
    rw [List.cons_append, run_cons, run_cons, ih]
    simp only [List.append_assoc]

theorem take_plain (h : isSpecial c = false) (token : Word) : take token c = .word (token ++ [c]) := by
  simp only [isSpecial, Bool.or_eq_false_iff, decide_eq_false_iff_not] at h
  rw [take, if_neg h.1.1, if_neg h.1.2, if_neg h.2]

theorem run_plain (h : ∀ c ∈ text, isWhitespace c = false ∧ isSpecial c = false) :
    run (.word token) text = (.word (token ++ text), []) := by
  induction text generalizing token with
  | nil => simp [run]
  | cons c text ih =>
    have hc := h c List.mem_cons_self
    have hstep : step (.word token) c = (.word (token ++ [c]), []) := by
      rw [step, if_neg (by simp [hc.1]), take_plain hc.2]
    rw [run_cons, hstep, ih fun d hd => h d (List.mem_cons_of_mem c hd)]
    simp

theorem run_blank_plain (h : IsPlain w) : run .blank w = (.word w, []) := by
  cases w with
  | nil => exact absurd rfl h.nonempty
  | cons c w =>
    have hc := h.chars c List.mem_cons_self
    have hstep : step .blank c = (.word [c], []) := by
      rw [step, if_neg (by simp [hc.1]), take_plain hc.2]
      rfl
    rw [run_cons, hstep, run_plain fun d hd => h.chars d (List.mem_cons_of_mem c hd)]
    rfl

theorem run_double (h : ∀ c ∈ text, c ≠ '"' ∧ c ≠ '\\') :
    run (.double token) text = (.double (token ++ text), []) := by
  induction text generalizing token with
  | nil => simp [run]
  | cons c text ih =>
    have hc := h c List.mem_cons_self
    rw [run_cons, step, if_neg hc.1, if_neg hc.2, ih fun d hd => h d (List.mem_cons_of_mem c hd)]
    simp

/-! ### Words that stand for themselves -/

theorem join_cons_cons (w v : Word) (words : List Word) :
    join (w :: v :: words) = w ++ ' ' :: join (v :: words) := by
  simp [join, List.intercalate]

theorem mem_join (h : c ∈ join words) : c = ' ' ∨ ∃ w ∈ words, c ∈ w := by
  induction words with
  | nil => cases h
  | cons w words ih =>
    cases words with
    | nil => exact .inr ⟨w, List.mem_cons_self, by simpa [join, List.intercalate] using h⟩
    | cons v words =>
      rw [join_cons_cons] at h
      rcases List.mem_append.mp h with h | h
      · exact .inr ⟨w, List.mem_cons_self, h⟩
      · rcases List.mem_cons.mp h with h | h
        · exact .inl h
        · rcases ih h with h | ⟨u, hu, h⟩
          · exact .inl h
          · exact .inr ⟨u, List.mem_cons_of_mem w hu, h⟩

theorem run_join (h : ∀ w ∈ words, IsPlain w) (hne : words ≠ []) :
    run .blank (join words) = (.word (words.getLast hne), words.dropLast) := by
  induction words with
  | nil => exact absurd rfl hne
  | cons w words ih =>
    have hw := run_blank_plain (h w List.mem_cons_self)
    cases words with
    | nil =>
      simp only [join, List.intercalate_singleton, List.getLast_singleton, List.dropLast_singleton]
      exact hw
    | cons v words =>
      have hstep : step (.word w) ' ' = (.blank, [w]) := rfl
      rw [join_cons_cons, run_append, hw, run_cons, hstep,
        ih (fun u hu => h u (List.mem_cons_of_mem w hu)) (List.cons_ne_nil v words)]
      simp

theorem split_join (h : ∀ w ∈ words, IsPlain w) : split (join words) = .ok words := by
  cases words with
  | nil => rfl
  | cons w words =>
    have hrun := run_join h (List.cons_ne_nil w words)
    rw [split, hrun, finish, Except.map, List.dropLast_append_getLast]

/-- A text between double quotes is one word. -/
theorem split_double (h : ∀ c ∈ text, c ≠ '"' ∧ c ≠ '\\') :
    split ('"' :: (text ++ ['"'])) = .ok [text] := by
  have hopen : step .blank '"' = (.double [], []) := rfl
  have hclose : step (.double text) '"' = (.word text, []) := rfl
  have hrun : run .blank ('"' :: (text ++ ['"'])) = (.word text, []) := by
    rw [run_cons, hopen, run_append, run_double h, List.nil_append, run_cons, hclose]
    rfl
  rw [split, hrun]
  rfl

/-! ### What is dropped on the way -/

/-- The length of the words joined, with a blank behind each. -/
def weight : List Word → ℕ
  | [] => 0
  | w :: words => w.length + 1 + weight words

/-- What the state has taken in. -/
def pending : State → ℕ
  | .blank => 0
  | .word token | .single token | .double token | .escape token => token.length
  | .doubleEscape token => token.length + 1

theorem weight_append (words more : List Word) :
    weight (words ++ more) = weight words + weight more := by
  induction words with
  | nil => rw [List.nil_append, weight, Nat.zero_add]
  | cons w words ih =>
    rw [List.cons_append, weight, weight, ih]
    omega

theorem length_join (hne : words ≠ []) : (join words).length + 1 = weight words := by
  induction words with
  | nil => exact absurd rfl hne
  | cons w words ih =>
    cases words with
    | nil => simp [join, weight]
    | cons v words =>
      have hrest := ih (List.cons_ne_nil v words)
      have hcons : weight (w :: v :: words) = w.length + 1 + weight (v :: words) := rfl
      rw [join_cons_cons, List.length_append, List.length_cons, hrest, hcons]
      omega

theorem pending_take (token : Word) (c : Char) : pending (take token c) ≤ token.length + 1 := by
  unfold take
  split_ifs <;> simp [pending]

theorem step_weight (s : State) (c : Char) :
    weight (step s c).2 + pending (step s c).1 ≤ pending s + 1 := by
  cases s with
  | blank =>
    rw [step]
    have := pending_take [] c
    split_ifs <;> simp_all [weight, pending]
  | word token =>
    rw [step]
    have := pending_take token c
    split_ifs <;> simp_all [weight, pending]
  | single token =>
    rw [step]
    split_ifs <;> simp [weight, pending]
  | double token =>
    rw [step]
    split_ifs <;> simp [weight, pending]
  | escape token => simp [step, weight, pending]
  | doubleEscape token =>
    rw [step]
    split_ifs <;> simp [weight, pending]

theorem run_weight (s : State) (text : List Char) :
    weight (run s text).2 + pending (run s text).1 ≤ pending s + text.length := by
  induction text generalizing s with
  | nil => simp [run, weight]
  | cons c text ih =>
    have hstep := step_weight s c
    have hrest := ih (step s c).1
    rw [run_cons, List.length_cons]
    simp only [weight_append]
    omega

/-- Outside quotes. -/
def Bare : State → Prop
  | .blank => True
  | .word token => IsPlain token
  | _ => False

/-- A quote or a backslash is a character that no word gets. -/
theorem pending_take_special (h : isSpecial c = true) (token : Word) :
    pending (take token c) = token.length := by
  simp only [isSpecial, Bool.or_eq_true, decide_eq_true_eq] at h
  unfold take
  split_ifs with hsingle hdouble hescape
  · rfl
  · rfl
  · rfl
  · rcases h with (h | h) | h
    · exact absurd h hsingle
    · exact absurd h hdouble
    · exact absurd h hescape

theorem IsPlain.concat (h : ∀ d ∈ token, isWhitespace d = false ∧ isSpecial d = false)
    (hspace : isWhitespace c = false) (hspecial : isSpecial c = false) : IsPlain (token ++ [c]) := by
  refine ⟨by simp, fun d hd => ?_⟩
  rcases List.mem_append.mp hd with hd | hd
  · exact h d hd
  · cases List.mem_singleton.mp hd
    exact ⟨hspace, hspecial⟩

/-- Outside quotes a step loses its character, or it goes on to a plain word. -/
theorem step_bare (hs : Bare s) (c : Char) :
    weight (step s c).2 + pending (step s c).1 ≤ pending s ∨
      Bare (step s c).1 ∧ ∀ w ∈ (step s c).2, IsPlain w := by
  have hnone : ∀ w ∈ ([] : List Word), IsPlain w := fun w hw => by cases hw
  cases s with
  | blank =>
    rw [step]
    split
    · exact .inr ⟨trivial, hnone⟩
    · rename_i hspace
      cases hspecial : isSpecial c with
      | true => exact .inl (by rw [pending_take_special hspecial]; simp [weight])
      | false =>
        rw [take_plain hspecial]
        exact .inr ⟨IsPlain.concat (by simp) (Bool.eq_false_iff.mpr hspace) hspecial, hnone⟩
  | word token =>
    have htoken : IsPlain token := hs
    rw [step]
    split
    · refine .inr ⟨trivial, fun w hw => ?_⟩
      cases List.mem_singleton.mp hw
      exact htoken
    · rename_i hspace
      cases hspecial : isSpecial c with
      | true => exact .inl (by rw [pending_take_special hspecial]; simp [weight, pending])
      | false =>
        rw [take_plain hspecial]
        exact .inr ⟨IsPlain.concat htoken.chars (Bool.eq_false_iff.mpr hspace) hspecial, hnone⟩
  | single token => exact hs.elim
  | double token => exact hs.elim
  | escape token => exact hs.elim
  | doubleEscape token => exact hs.elim

/-- From outside quotes the lexer loses a character, or it cuts plain words out. -/
theorem run_bare (hs : Bare s) (text : List Char) :
    weight (run s text).2 + pending (run s text).1 < pending s + text.length ∨
      Bare (run s text).1 ∧ ∀ w ∈ (run s text).2, IsPlain w := by
  induction text generalizing s with
  | nil => exact .inr ⟨hs, fun w hw => by cases hw⟩
  | cons c text ih =>
    have hstep := step_weight s c
    have hrest := run_weight (step s c).1 text
    rw [run_cons, List.length_cons]
    simp only [weight_append]
    rcases step_bare hs c with hlost | ⟨hbare, hout⟩
    · left
      omega
    · rcases ih hbare with hlost | ⟨hend, hwords⟩
      · left
        omega
      · refine .inr ⟨hend, fun w hw => ?_⟩
        rcases List.mem_append.mp hw with hw | hw
        · exact hout w hw
        · exact hwords w hw

/-- Splitting undoes joining exactly on words that stand for themselves. -/
theorem split_join_iff : split (join words) = .ok words ↔ ∀ w ∈ words, IsPlain w := by
  refine ⟨fun h => ?_, split_join⟩
  by_cases hne : words = []
  · subst hne
    exact fun w hw => by cases hw
  -- joined, the words are as long as the text they were cut out of: nothing was lost
  have hlength := length_join hne
  have hrun := run_weight .blank (join words)
  have hbare := run_bare (s := .blank) trivial (join words)
  have hstart : pending .blank = 0 := rfl
  rw [hstart, Nat.zero_add] at hrun hbare
  rw [split] at h
  generalize run .blank (join words) = ran at h hrun hbare
  obtain ⟨ended, out⟩ := ran
  cases ended with
  | blank =>
    simp only [finish, Except.map, List.append_nil, Except.ok.injEq] at h
    subst h
    simp only [pending] at hrun
    omega
  | word token =>
    simp only [finish, Except.map, Except.ok.injEq] at h
    have hsum : weight words = weight out + (token.length + 1) := by
      rw [← h, weight_append]
      rfl
    simp only [pending] at hbare
    rcases hbare with hlost | ⟨htoken, hout⟩
    · omega
    · intro w hw
      rw [← h] at hw
      rcases List.mem_append.mp hw with hw | hw
      · exact hout w hw
      · cases List.mem_singleton.mp hw
        exact htoken
  | single token => cases h
  | double token => cases h
  | escape token => cases h
  | doubleEscape token => cases h

end Shlex
