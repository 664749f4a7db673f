/-!
# Computations that answer or raise

What a success of a composed computation says about its parts.
-/

namespace Fallible

variable {ε α β : Type}

theorem ok_bind (a : α) (f : α → Except ε β) : ((.ok a : Except ε α) >>= f) = f a := rfl

theorem bind_ok {x : Except ε α} {f : α → Except ε β} {b : β} (h : (x >>= f) = .ok b) :
    ∃ a, x = .ok a ∧ f a = .ok b := by
  cases x with
  | error e => cases h
  | ok a => exact ⟨a, rfl, h⟩

theorem mem_of_mapM_ok {g : α → Except ε β} {items : List α} {answers : List β}
    (h : items.mapM g = .ok answers) {answer : β} (hmem : answer ∈ answers) :
    ∃ item ∈ items, g item = .ok answer := by
  induction items generalizing answers with
  | nil =>
    cases h
    cases hmem
  | cons item items ih =>
    rw [List.mapM_cons] at h
    obtain ⟨first, hfirst, h⟩ := bind_ok h
    obtain ⟨rest, hrest, h⟩ := bind_ok h
    cases h
    rcases List.mem_cons.mp hmem with heq | hmem
    · subst heq
      exact ⟨item, List.mem_cons_self, hfirst⟩
    · obtain ⟨other, hother, hanswer⟩ := ih hrest hmem
      exact ⟨other, List.mem_cons_of_mem item hother, hanswer⟩

theorem exists_of_mapM_ok {g : α → Except ε β} {items : List α} {answers : List β}
    (h : items.mapM g = .ok answers) {item : α} (hmem : item ∈ items) :
    ∃ answer ∈ answers, g item = .ok answer := by
  induction items generalizing answers with
  | nil => cases hmem
  | cons first items ih =>
    rw [List.mapM_cons] at h
    obtain ⟨answer, hanswer, h⟩ := bind_ok h
    obtain ⟨rest, hrest, h⟩ := bind_ok h
    cases h
    rcases List.mem_cons.mp hmem with heq | hmem
    · subst heq
      exact ⟨answer, List.mem_cons_self, hanswer⟩
    · obtain ⟨other, hother, hg⟩ := ih hrest hmem
      exact ⟨other, List.mem_cons_of_mem answer hother, hg⟩

/-- A pass over a list succeeds exactly if it succeeds at every item. -/
theorem mapM_ok_iff (g : α → Except ε β) (items : List α) :
    (∃ answers, items.mapM g = .ok answers) ↔ ∀ item ∈ items, ∃ answer, g item = .ok answer := by
  induction items with
  | nil => exact ⟨fun _ _ hmem => absurd hmem List.not_mem_nil, fun _ => ⟨[], rfl⟩⟩
  | cons item items ih =>
    constructor
    · intro h
      obtain ⟨answers, h⟩ := h
      rw [List.mapM_cons] at h
      obtain ⟨first, hfirst, h⟩ := bind_ok h
      obtain ⟨rest, hrest, -⟩ := bind_ok h
      intro other hother
      rcases List.mem_cons.mp hother with heq | hother
      · exact ⟨first, heq ▸ hfirst⟩
      · exact ih.mp ⟨rest, hrest⟩ other hother
    · intro h
      obtain ⟨first, hfirst⟩ := h item List.mem_cons_self
      obtain ⟨rest, hrest⟩ := ih.mpr fun other hother => h other (List.mem_cons_of_mem item hother)
      refine ⟨first :: rest, ?_⟩
      rw [List.mapM_cons, hfirst, hrest]
      rfl

end Fallible
