import UnifiContainers.Lib.Search

/-!
# All matches of a pattern

`re.finditer` and `re.findall` over the matcher of `Regex`, for a pattern that matches no empty
text: the matches are taken from left to right, each beginning where the one before it ends, or
later. A position with a match of its own may be passed over, but only inside a match that was
taken.
-/

namespace Regex

variable {γ : Type*}

namespace Pattern

/-- From one cursor to the other, text moves from what is left to what was consumed. -/
def Shifts (s u : Cursor γ) : Prop :=
  ∃ word, s.after = word ++ u.after ∧ u.before = word.reverse ++ s.before

theorem Shifts.refl (s : Cursor γ) : Shifts s s := ⟨[], rfl, rfl⟩

theorem Shifts.trans {s t u : Cursor γ} (h : Shifts s t) (h' : Shifts t u) : Shifts s u := by
  obtain ⟨word, hafter, hbefore⟩ := h
  obtain ⟨more, hafter', hbefore'⟩ := h'
  refine ⟨word ++ more, ?_, ?_⟩
  · rw [hafter, hafter', List.append_assoc]
  · rw [hbefore', hbefore, List.reverse_append, List.append_assoc]

variable [DecidableEq γ]

/-- The next `n` matches from a position on. -/
def finditerFrom (p : Pattern γ) : ℕ → List Char → List Char → List (Cursor γ × Cursor γ)
  | 0, _, _ => []
  | n + 1, before, after =>
      match searchFrom p before after with
      | none => []
      | some (s, u) => (s, u) :: finditerFrom p n u.before u.after

def finditer (p : Pattern γ) (text : List Char) : List (Cursor γ × Cursor γ) :=
  finditerFrom p text.length [] text

/-- `re.findall` of a pattern with one group. -/
def findall (p : Pattern γ) (name : γ) (text : List Char) : List (List Char) :=
  (finditer p text).map fun found => (found.2.groups name).getD []

/-- Every match consumes something. -/
def Advances (p : Pattern γ) : Prop := ∀ s u, Matches p s u → u.after.length < s.after.length

variable {p : Pattern γ}

theorem Matches.shifts {s u : Cursor γ} (h : Matches p s u) : Shifts s u := by
  induction h with
  | empty s => exact .refl s
  | @one accepts s c cs hc hs => exact ⟨[c], hs, rfl⟩
  | seq _ _ ih ih' => exact ih.trans ih'
  | altLeft _ ih => exact ih
  | altRight _ ih => exact ih
  | manyNil greedy body s => exact .refl s
  | manyCons _ _ _ ih ih' => exact ih.trans ih'
  | group _ ih => exact ih
  | bol _ => exact .refl _
  | eol _ => exact .refl _

theorem Matches.text {s u : Cursor γ} (h : Matches p s u) :
    u.before.reverse ++ u.after = s.before.reverse ++ s.after := by
  obtain ⟨word, hafter, hbefore⟩ := h.shifts
  rw [hafter, hbefore, List.reverse_append, List.reverse_reverse, List.append_assoc]

/-- A search that has a match ahead of it stops there or earlier. -/
theorem searchFrom_ahead {skipped before after : List Char} {v : Cursor γ}
    (h : Matches p (Cursor.fresh (skipped.reverse ++ before) after) v) :
    ∃ s u, searchFrom p before (skipped ++ after) = some (s, u) ∧
      s.before.length ≤ skipped.length + before.length := by
  induction skipped generalizing before with
  | nil =>
    cases hrun : (run p (Cursor.fresh before after)).head? with
    | none =>
      rw [List.head?_eq_none_iff] at hrun
      have hmem := (mem_run p _ v).mpr h
      rw [List.reverse_nil, List.nil_append, hrun] at hmem
      cases hmem
    | some u => exact ⟨_, u, searchFrom_of_head? hrun, by simp [Cursor.fresh]⟩
  | cons c skipped ih =>
    cases hrun : (run p (Cursor.fresh before (c :: (skipped ++ after)))).head? with
    | some u =>
      refine ⟨_, u, searchFrom_of_head? hrun, ?_⟩
      simp only [Cursor.fresh]
      omega
    | none =>
      rw [List.reverse_cons, List.append_assoc] at h
      obtain ⟨s, u, hsearch, hle⟩ := ih h
      rw [List.cons_append, searchFrom_of_nil (List.head?_eq_none_iff.mp hrun)]
      refine ⟨s, u, hsearch, ?_⟩
      simp only [List.length_cons, List.singleton_append] at hle ⊢
      omega

/-- What a search finds is a match of the text it searches. -/
theorem searchFrom_matches {before after : List Char} {s u : Cursor γ}
    (h : searchFrom p before after = some (s, u)) :
    ∃ b a, before.reverse ++ after = b ++ a ∧ s = Cursor.fresh b.reverse a ∧
      before.length ≤ b.length ∧ Matches p s u := by
  obtain ⟨skipped, tail, rfl, rfl, hfound, -⟩ := exists_of_searchFrom h
  refine ⟨before.reverse ++ skipped, tail, by rw [List.append_assoc], ?_, ?_, ?_⟩
  · rw [List.reverse_append, List.reverse_reverse]
  · rw [List.length_append, List.length_reverse]
    omega
  · exact (mem_run p _ u).mp (List.mem_of_head? hfound)

theorem matches_of_mem_finditerFrom {n : ℕ} {before after : List Char} {s u : Cursor γ}
    (h : (s, u) ∈ finditerFrom p n before after) :
    ∃ b a, before.reverse ++ after = b ++ a ∧ s = Cursor.fresh b.reverse a ∧ Matches p s u := by
  induction n generalizing before after with
  | zero => cases h
  | succ n ih =>
    rw [finditerFrom] at h
    split at h
    · cases h
    · rename_i s' u' hsearch
      obtain ⟨b, a, htext, hs, -, hmatch⟩ := searchFrom_matches hsearch
      rcases List.mem_cons.mp h with heq | hlater
      · cases heq
        exact ⟨b, a, htext, hs, hmatch⟩
      · obtain ⟨b', a', htext', hs', hmatch'⟩ := ih hlater
        refine ⟨b', a', ?_, hs', hmatch'⟩
        rw [← htext', hmatch.text, hs, htext, Cursor.fresh, List.reverse_reverse]

/-- A match that is taken is the engine's first choice at its position. -/
theorem head?_of_mem_finditerFrom {n : ℕ} {before after : List Char} {s u : Cursor γ}
    (h : (s, u) ∈ finditerFrom p n before after) : (run p s).head? = some u := by
  induction n generalizing before after with
  | zero => cases h
  | succ n ih =>
    rw [finditerFrom] at h
    split at h
    · cases h
    · rename_i s' u' hsearch
      obtain ⟨skipped, tail, -, -, hfound, -⟩ := exists_of_searchFrom hsearch
      rcases List.mem_cons.mp h with heq | hlater
      · cases heq
        exact hfound
      · exact ih hlater

/-- The matches that are taken reach every position with a match. -/
theorem finditerFrom_covers (hp : Advances p) {n : ℕ} {before after b a : List Char}
    {v : Cursor γ} (hn : after.length ≤ n) (htext : before.reverse ++ after = b ++ a)
    (hle : before.length ≤ b.length) (h : Matches p (Cursor.fresh b.reverse a) v) :
    ∃ s u, (s, u) ∈ finditerFrom p n before after ∧ s.before.length ≤ b.length ∧
      b.length < u.before.length := by
  induction n generalizing before after with
  | zero =>
    have hpos := hp _ _ h
    have hlength := congrArg List.length htext
    simp only [List.length_append, List.length_reverse, Cursor.fresh] at hpos hlength
    omega
  | succ n ih =>
    have hprefix : before.reverse <+: b := by
      have hbefore : before.reverse <+: b ++ a := htext ▸ List.prefix_append _ _
      exact List.prefix_of_prefix_length_le hbefore (List.prefix_append _ _) (by simpa using hle)
    obtain ⟨skipped, rfl⟩ := hprefix
    rw [List.append_assoc] at htext
    have hafter : after = skipped ++ a := List.append_cancel_left htext
    subst hafter
    have hahead := h
    rw [List.reverse_append, List.reverse_reverse] at hahead
    obtain ⟨s, u, hsearch, hs⟩ := searchFrom_ahead hahead
    obtain ⟨b', a', htext', rfl, hle', hmatch⟩ := searchFrom_matches hsearch
    have hadvance := hp _ _ hmatch
    have htext'' := hmatch.text
    rw [finditerFrom, hsearch]
    by_cases hinside : (before.reverse ++ skipped).length < u.before.length
    · refine ⟨_, u, List.mem_cons_self, ?_, hinside⟩
      rw [List.length_append, List.length_reverse]
      omega
    · have hrest : u.after.length ≤ n := by
        have hlength := congrArg List.length htext'
        simp only [List.length_append, List.length_reverse, Cursor.fresh] at *
        omega
      have hjoin : u.before.reverse ++ u.after = (before.reverse ++ skipped) ++ a := by
        rw [htext'', Cursor.fresh, List.reverse_reverse, ← htext', List.append_assoc]
      obtain ⟨s', u', hmem, hbegin, hend⟩ := ih hrest hjoin (not_lt.mp hinside)
      exact ⟨s', u', List.mem_cons_of_mem _ hmem, hbegin, hend⟩

theorem matches_of_mem_finditer {text : List Char} {s u : Cursor γ}
    (h : (s, u) ∈ finditer p text) :
    ∃ b a, text = b ++ a ∧ s = Cursor.fresh b.reverse a ∧ Matches p s u :=
  matches_of_mem_finditerFrom h

theorem finditer_covers (hp : Advances p) {b a : List Char} {v : Cursor γ}
    (h : Matches p (Cursor.fresh b.reverse a) v) :
    ∃ s u, (s, u) ∈ finditer p (b ++ a) ∧ s.before.length ≤ b.length ∧
      b.length < u.before.length :=
  finditerFrom_covers hp (Nat.le_refl _) rfl (Nat.zero_le _) h

theorem head?_of_mem_finditer {text : List Char} {s u : Cursor γ}
    (h : (s, u) ∈ finditer p text) : (run p s).head? = some u :=
  head?_of_mem_finditerFrom h

/-! ### First choices -/

variable {s : Cursor γ} {accepts : Char → Bool}

theorem run_one_cons {c : Char} {cs : List Char} (hs : s.after = c :: cs) :
    run (one accepts) s = if accepts c then [s.advance [c] cs] else [] := by
  rw [run, hs]

theorem head?_repeated_one {n : ℕ} (h : s.after.length ≤ n) :
    (repeated (run (one accepts)) true n s).head? =
      some (s.advance (s.after.takeWhile accepts) (s.after.dropWhile accepts)) := by
  induction n generalizing s with
  | zero =>
    have hnil : s.after = [] := List.length_eq_zero_iff.mp (Nat.le_zero.mp h)
    obtain ⟨before, after, groups⟩ := s
    cases hnil
    rfl
  | succ n ih =>
    obtain ⟨before, after, groups⟩ := s
    cases after with
    | nil => rfl
    | cons c cs =>
      rw [repeated, run_one_cons rfl, if_pos rfl]
      by_cases hc : accepts c = true
      · have hrest := ih (s := Cursor.advance ⟨before, c :: cs, groups⟩ [c] cs)
          (Nat.le_of_succ_le_succ h)
        rw [if_pos hc]
        simp only [Cursor.advance, List.length_cons, List.filter_cons, Nat.lt_add_one,
          decide_true, if_true, List.filter_nil, List.flatMap_cons, List.flatMap_nil,
          List.append_nil, List.head?_append] at hrest ⊢
        rw [hrest]
        simp [hc]
      · rw [if_neg hc]
        simp [Cursor.advance, hc]

/-- A greedy class takes all it can. -/
theorem head?_run_many_one : (run (many true (one accepts)) s).head? =
    some (s.advance (s.after.takeWhile accepts) (s.after.dropWhile accepts)) := by
  rw [run]
  exact head?_repeated_one (Nat.le_refl _)

theorem head?_run_plus_one {c : Char} {cs : List Char} (hs : s.after = c :: cs)
    (hc : accepts c = true) : (run (plus true (one accepts)) s).head? =
      some (s.advance (s.after.takeWhile accepts) (s.after.dropWhile accepts)) := by
  rw [plus, run, run_one_cons hs, if_pos hc, List.flatMap_singleton, head?_run_many_one, hs,
    List.takeWhile_cons_of_pos hc, List.dropWhile_cons_of_pos hc]
  simp [Cursor.advance]

theorem run_lit {text rest : List Char} (hs : s.after = text ++ rest) :
    run (lit text) s = [s.advance text rest] := by
  induction text generalizing s with
  | nil =>
    obtain ⟨before, after, groups⟩ := s
    cases hs
    rfl
  | cons c text ih =>
    rw [List.cons_append] at hs
    have hone : (c == c) = true := beq_self_eq_true c
    rw [lit, run, run_one_cons hs, if_pos hone, List.flatMap_singleton,
      ih (s := s.advance [c] (text ++ rest)) rfl]
    simp [Cursor.advance]

theorem run_lit_seq {text rest : List Char} (hs : s.after = text ++ rest) (q : Pattern γ) :
    run (seq (lit text) q) s = run q (s.advance text rest) := by
  rw [run, run_lit hs, List.flatMap_singleton]

end Pattern

end Regex
