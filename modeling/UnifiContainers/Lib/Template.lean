import UnifiContainers.Lib.Search

/-!
# Replacement templates with escapes

An escape takes digits and the marks of a named group, or one character after the backslash. Any
other text comes out of a template as it went in, and so does the end of a template that no escape
can reach into.
-/

namespace Regex

open PyText

variable {groups n : ℕ} {template text rest : List Char} {pieces : List Piece}

/-! ### What an escape takes -/

/-- A character of a group reference or of an octal escape. -/
def isReference (c : Char) : Bool := c.isDigit || c == 'g' || c == '<' || c == '>'

/-- The character stands for itself, after a backslash too. -/
structure IsMark (c : Char) : Prop where
  reference : isReference c = false
  control : controls.lookup c = none

theorem IsMark.ne_backslash {c : Char} (h : IsMark c) : c ≠ '\\' := by
  intro heq
  have hcontrol := h.control
  rw [heq] at hcontrol
  cases hcontrol

/-- What an escape has read. -/
structure Escaped (groups : ℕ) (text rest : List Char) (pieces : List Piece) : Prop where
  used : ∃ used, text = used ++ rest ∧ ((∀ c ∈ used, isReference c = true) ∨
    ∃ c, used = [c] ∧ (controls.lookup c = none → pieces = [.char '\\', .char c]))
  bound : ∀ n, .group n ∈ pieces → n ≤ groups

theorem isReference_digit {c : Char} (h : c.isDigit = true) : isReference c = true := by
  rw [isReference, h]
  rfl

theorem isReference_octal {c : Char} (h : isOctal c = true) : isReference c = true := by
  apply isReference_digit
  rw [isOctal, Bool.and_eq_true, decide_eq_true_iff, decide_eq_true_iff, Char.le_def, Char.le_def,
    UInt32.le_iff_toNat_le, UInt32.le_iff_toNat_le] at h
  rw [isDigit_iff]
  exact ⟨h.1, Nat.lt_of_le_of_lt h.2 (by decide)⟩

theorem escaped_group (used : List Char) {k : ℕ} (hused : ∀ c ∈ used, isReference c = true)
    (htext : text = used ++ template)
    (h : (groupPiece groups k).map (·, template) = some (pieces, rest)) :
    Escaped groups text rest pieces := by
  rw [groupPiece] at h
  split at h
  · rename_i hk
    cases h
    refine ⟨⟨used, htext, .inl hused⟩, fun n hn => ?_⟩
    cases List.mem_singleton.mp hn
    exact hk
  · cases h

theorem escaped_char (used : List Char) {c : Char} (hused : ∀ c ∈ used, isReference c = true)
    (htext : text = used ++ rest) : Escaped groups text rest [.char c] := by
  refine ⟨⟨used, htext, .inl hused⟩, fun n hn => ?_⟩
  cases List.mem_singleton.mp hn

theorem references {used : List Char} (h : ∀ c ∈ used, c.isDigit = true) :
    ∀ c ∈ used, isReference c = true := fun c hc => isReference_digit (h c hc)

theorem escape_ok (h : escape groups text = some (pieces, rest)) :
    Escaped groups text rest pieces := by
  revert h
  fun_cases escape groups text
  case case1 => nofun
  case case2 => nofun
  case case3 after name c rest' hdrop hname =>
    intro h
    have hsplit : after = name ++ c :: rest' := by
      rw [← hdrop]
      exact List.takeWhile_append_dropWhile.symm
    have hc : c = '>' := by
      have hstop := List.head?_dropWhile_not (fun x => decide (x ≠ '>')) after
      rw [hdrop] at hstop
      simpa using hstop
    refine escaped_group ('g' :: '<' :: (name ++ [c])) ?_ (by simp [hsplit]) h
    intro d hd
    rcases List.mem_cons.mp hd with heq | hd
    · subst heq
      decide
    · rcases List.mem_cons.mp hd with heq | hd
      · subst heq
        decide
      · rcases List.mem_append.mp hd with hd | hd
        · exact isReference_digit (List.all_eq_true.mp hname.2 d hd)
        · cases List.mem_singleton.mp hd
          rw [hc]
          decide
  case case4 => nofun
  case case5 after more =>
    intro h
    cases h
    have hprefix : more <+: after := (List.takeWhile_prefix _).trans (List.take_prefix 2 after)
    refine escaped_char ('0' :: more) ?_ ?_
    · intro d hd
      rcases List.mem_cons.mp hd with heq | hd
      · subst heq
        decide
      · exact isReference_octal (List.mem_takeWhile_imp hd)
    · exact congrArg ('0' :: ·) (List.prefix_iff_eq_append.mp hprefix).symm
  case case6 c hzero hc d hd e after hoctal hle hg =>
    intro h
    cases h
    rw [Bool.and_eq_true, Bool.and_eq_true] at hoctal
    refine escaped_char [c, d, e] ?_ rfl
    simp [isReference_octal hoctal.1.1, isReference_octal hoctal.1.2, isReference_octal hoctal.2]
  case case7 => nofun
  case case8 c hzero hc d hd e after hoctal hg =>
    exact escaped_group [c, d] (references (by simp [hc, hd])) rfl
  case case9 c hzero hc d hd hg =>
    exact escaped_group [c, d] (references (by simp [hc, hd])) rfl
  case case10 c hzero hc d after hd hg =>
    exact escaped_group [c] (references (by simp [hc])) rfl
  case case11 c hzero hc hg =>
    exact escaped_group [c] (references (by simp [hc])) rfl
  case case12 c after hg hzero hc control hcontrol =>
    intro h
    cases h
    refine ⟨⟨[c], rfl, .inr ⟨c, rfl, fun hnone => ?_⟩⟩, fun n hn => ?_⟩
    · cases hnone.symm.trans hcontrol
    · cases List.mem_singleton.mp hn
  case case13 => nofun
  case case14 c after hg hzero hc hcontrol halpha =>
    intro h
    cases h
    refine ⟨⟨[c], rfl, .inr ⟨c, rfl, fun _ => rfl⟩⟩, fun n hn => ?_⟩
    simp at hn

/-- An escape leaves a mark behind it alone, or takes the mark alone. -/
theorem escape_mark {c : Char} (hc : IsMark c) (h : escape groups text = some (pieces, rest)) :
    ∃ used, text = used ++ rest ∧ (c ∉ used ∨ used = [c] ∧ pieces = [.char '\\', .char c]) := by
  obtain ⟨used, htext, hused⟩ := (escape_ok h).used
  refine ⟨used, htext, ?_⟩
  rcases hused with hreference | ⟨d, hone, hpieces⟩
  · left
    intro hmem
    have hsame := hreference c hmem
    rw [hc.reference] at hsame
    cases hsame
  · subst hone
    by_cases heq : c = d
    · subst heq
      exact .inr ⟨rfl, hpieces hc.control⟩
    · exact .inl fun hmem => heq (List.mem_singleton.mp hmem)

/-! ### What a template keeps -/

theorem compileFrom_group (h : compileFrom groups n template = some pieces) {k : ℕ}
    (hk : .group k ∈ pieces) : k ≤ groups := by
  induction n generalizing template pieces with
  | zero =>
    cases template with
    | nil =>
      cases h
      cases hk
    | cons c rest => cases h
  | succ n ih =>
    cases template with
    | nil =>
      cases h
      cases hk
    | cons c rest =>
      rw [compileFrom] at h
      split at h
      · obtain ⟨⟨first, later⟩, hescape, h⟩ := Option.bind_eq_some_iff.mp h
        obtain ⟨others, hothers, hpieces⟩ := Option.map_eq_some_iff.mp h
        subst hpieces
        rcases List.mem_append.mp hk with hk | hk
        · exact (escape_ok hescape).bound k hk
        · exact ih hothers hk
      · obtain ⟨others, hothers, hpieces⟩ := Option.map_eq_some_iff.mp h
        subst hpieces
        rcases List.mem_cons.mp hk with heq | hk
        · cases heq
        · exact ih hothers hk

theorem compileFrom_plain_ok {plain : List Char} (hplain : '\\' ∉ plain)
    (h : compileFrom groups n plain = some pieces) : pieces = plain.map .char := by
  induction plain generalizing n pieces with
  | nil =>
    cases n <;> (cases h; rfl)
  | cons c plain ih =>
    cases n with
    | zero => cases h
    | succ n =>
      have hc : c ≠ '\\' := fun heq => hplain (by simp [heq])
      rw [compileFrom, if_neg hc] at h
      obtain ⟨others, hothers, hpieces⟩ := Option.map_eq_some_iff.mp h
      subst hpieces
      rw [ih (fun hmem => hplain (List.mem_cons_of_mem c hmem)) hothers]
      rfl

/-- Text before the escapes comes out as it went in. -/
theorem compile_append {plain : List Char} (hplain : '\\' ∉ plain) :
    compile groups (plain ++ template) =
      (compile groups template).map (plain.map Piece.char ++ ·) := by
  induction plain with
  | nil => simp
  | cons c plain ih =>
    have hc : c ≠ '\\' := fun heq => hplain (by simp [heq])
    have hrest := ih fun hmem => hplain (List.mem_cons_of_mem c hmem)
    rw [compile] at hrest
    rw [compile, List.cons_append, List.length_cons, compileFrom, if_neg hc, hrest,
      Option.map_map]
    rfl

/-- After an escape the mark is still ahead, unless the escape took it. -/
theorem mark_after_used {c : Char} {used tail : List Char}
    (hsplit : template ++ c :: tail = used ++ rest)
    (hused : c ∉ used ∨ used = [c] ∧ pieces = [.char '\\', .char c]) :
    (∃ left, rest = left ++ c :: tail) ∨ rest = tail ∧ pieces = [.char '\\', .char c] := by
  rcases hused with hfree | ⟨hone, hpieces⟩
  · left
    rcases List.append_eq_append_iff.mp hsplit with ⟨excess, hexcess, hrest⟩ | ⟨left, -, hleft⟩
    · cases excess with
      | nil => exact ⟨[], hrest.symm⟩
      | cons d excess =>
        obtain ⟨hd, -⟩ := List.cons.inj hrest
        exact absurd (by simp [hexcess, hd]) hfree
    · exact ⟨left, hleft⟩
  · subst hone
    cases template with
    | nil => exact .inr ⟨(List.cons.inj hsplit).2.symm, hpieces⟩
    | cons d template => exact .inl ⟨template, (List.cons.inj hsplit).2.symm⟩

/-- From a mark on, a template ends as it was written. -/
theorem compileFrom_mark {c : Char} (hc : IsMark c) {tail : List Char} (htail : '\\' ∉ tail)
    (h : compileFrom groups n (template ++ c :: tail) = some pieces) :
    ∃ before, pieces = before ++ (c :: tail).map Piece.char := by
  induction n generalizing template pieces with
  | zero => cases template <;> cases h
  | succ n ih =>
    cases template with
    | nil =>
      have hplain : '\\' ∉ c :: tail := by
        rw [List.mem_cons, not_or]
        exact ⟨fun heq => hc.ne_backslash heq.symm, htail⟩
      exact ⟨[], compileFrom_plain_ok hplain h⟩
    | cons d template =>
      rw [List.cons_append, compileFrom] at h
      split at h
      · obtain ⟨⟨first, later⟩, hescape, h⟩ := Option.bind_eq_some_iff.mp h
        obtain ⟨others, hothers, hpieces⟩ := Option.map_eq_some_iff.mp h
        obtain ⟨used, hsplit, hused⟩ := escape_mark hc hescape
        subst hpieces
        rcases mark_after_used hsplit hused with ⟨left, hleft⟩ | ⟨hlater, hfirst⟩
        · rw [hleft] at hothers
          obtain ⟨before, hbefore⟩ := ih hothers
          exact ⟨first ++ before, by rw [hbefore, List.append_assoc]⟩
        · rw [hlater] at hothers
          rw [compileFrom_plain_ok htail hothers, hfirst]
          exact ⟨[.char '\\'], rfl⟩
      · obtain ⟨others, hothers, hpieces⟩ := Option.map_eq_some_iff.mp h
        obtain ⟨before, hbefore⟩ := ih hothers
        subst hpieces hbefore
        exact ⟨.char d :: before, rfl⟩

theorem compile_mark {c : Char} (hc : IsMark c) {tail : List Char} (htail : '\\' ∉ tail)
    (h : compile groups (template ++ c :: tail) = some pieces) :
    ∃ before, pieces = before ++ (c :: tail).map Piece.char := compileFrom_mark hc htail h

theorem compile_group (h : compile groups template = some pieces) {k : ℕ}
    (hk : .group k ∈ pieces) : k ≤ groups := compileFrom_group h hk

/-! ### What a template refers to -/

theorem expand_append (found : List (List Char)) (before after : List Piece) :
    expand found (before ++ after) = expand found before ++ expand found after :=
  List.flatMap_append

/-- Without groups a template can refer to the whole match alone. -/
theorem plain_or_group (h : ∀ k, .group k ∈ pieces → k = 0) :
    (∃ plain : List Char, pieces = plain.map .char) ∨
      ∃ (plain : List Char) (after : List Piece),
        pieces = plain.map .char ++ .group 0 :: after := by
  induction pieces with
  | nil => exact .inl ⟨[], rfl⟩
  | cons piece pieces ih =>
    cases piece with
    | group k =>
      cases h k List.mem_cons_self
      exact .inr ⟨[], pieces, rfl⟩
    | char c =>
      rcases ih fun k hk => h k (List.mem_cons_of_mem _ hk) with ⟨plain, hplain⟩ | hgroup
      · exact .inl ⟨c :: plain, by rw [hplain]; rfl⟩
      · obtain ⟨plain, after, hsplit⟩ := hgroup
        exact .inr ⟨c :: plain, after, by rw [hsplit]; rfl⟩

/-- A template whose text lacks a character of the match does not refer to the match. -/
theorem plain_of_not_mem {found : List Char} {c : Char} (hpieces : ∀ k, .group k ∈ pieces → k = 0)
    (hfound : c ∈ found) (h : c ∉ expand [found] pieces) :
    pieces = (expand [found] pieces).map Piece.char := by
  rcases plain_or_group hpieces with ⟨plain, hplain⟩ | ⟨plain, after, hsplit⟩
  · rw [hplain, expand_plain]
  · refine absurd ?_ h
    rw [hsplit, expand_append]
    exact List.mem_append_right _ (List.mem_append_left _ hfound)

end Regex
