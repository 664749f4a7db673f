import Mathlib.Data.List.Basic

/-!
# Runs of a labelled machine

A machine is a partial step function: `step s a` is the state after the label `a`, or `none`
when `a` is not enabled in `s`. A run is a list of labels, so every interleaving of several
parties is one list. The rules below carry an invariant from one step to every run, with or
without a guard that each step of the run has to meet.
-/

namespace StepRun

variable {σ α : Type*} (step : σ → α → Option σ)

/-- The state a list of labels leads to, or `none` when some label is not enabled. -/
def exec : σ → List α → Option σ
  | s, [] => some s
  | s, a :: as => (step s a).bind fun t => exec t as

/-- Every step of the run meets `guard` in the state it is taken from. -/
def Guarded (guard : σ → α → Prop) : σ → List α → Prop
  | _, [] => True
  | s, a :: as => guard s a ∧ ∀ t, step s a = some t → Guarded guard t as

theorem exec_cons (s : σ) (a : α) (as : List α) :
    exec step s (a :: as) = (step s a).bind fun t => exec step t as := rfl

theorem exec_cons_some {s u : σ} {a : α} {as : List α} (h : exec step s (a :: as) = some u) :
    ∃ t, step s a = some t ∧ exec step t as = some u := by
  rwa [exec_cons, Option.bind_eq_some_iff] at h

instance decidableGuarded {guard : σ → α → Prop} [∀ s a, Decidable (guard s a)] :
    (s : σ) → (as : List α) → Decidable (Guarded step guard s as)
  | _, [] => isTrue trivial
  | s, a :: as =>
      match h : step s a with
      | none => decidable_of_iff (guard s a) (by simp [Guarded, h])
      | some t =>
          have : Decidable (Guarded step guard t as) := decidableGuarded t as
          decidable_of_iff (guard s a ∧ Guarded step guard t as) (by simp [Guarded, h])

theorem guarded_true (s : σ) (as : List α) : Guarded step (fun _ _ => True) s as := by
  induction as generalizing s with
  | nil => trivial
  | cons a as ih => exact ⟨trivial, fun t _ => ih t⟩

theorem guarded_of_forall {P : α → Prop} (s : σ) {as : List α} (h : ∀ a ∈ as, P a) :
    Guarded step (fun _ a => P a) s as := by
  induction as generalizing s with
  | nil => trivial
  | cons a as ih =>
    exact ⟨h a List.mem_cons_self, fun t _ => ih t fun b hb => h b (List.mem_cons_of_mem a hb)⟩

/-- What each step preserves under the guard holds at the end of every guarded run. -/
theorem guarded_invariant {guard : σ → α → Prop} {inv : σ → Prop}
    (hstep : ∀ s a t, inv s → guard s a → step s a = some t → inv t)
    {s u : σ} {as : List α} (hs : inv s) (hg : Guarded step guard s as)
    (h : exec step s as = some u) : inv u := by
  induction as generalizing s with
  | nil =>
      cases h
      exact hs
  | cons a as ih =>
      obtain ⟨t, ht, hu⟩ := exec_cons_some step h
      exact ih (hstep s a t hs hg.1 ht) (hg.2 t ht) hu

/-- What each step preserves holds at the end of every run. -/
theorem invariant {inv : σ → Prop} (hstep : ∀ s a t, inv s → step s a = some t → inv t)
    {s u : σ} {as : List α} (hs : inv s) (h : exec step s as = some u) : inv u :=
  guarded_invariant step (fun s a t hi _ => hstep s a t hi) hs (guarded_true step s as) h

/-- Machines whose steps agree under a relation agree along every run. -/
theorem exec_rel {τ : Type*} {step' : τ → α → Option τ} {R : σ → τ → Prop}
    (hstep : ∀ s t a, R s t → Option.Rel R (step s a) (step' t a)) {s : σ} {t : τ} (h : R s t)
    (as : List α) : Option.Rel R (exec step s as) (exec step' t as) := by
  induction as generalizing s t with
  | nil => exact .some h
  | cons a as ih =>
    rw [exec_cons, exec_cons]
    have hrel := hstep s t a h
    revert hrel
    generalize step s a = next
    generalize step' t a = next'
    rintro (h | _)
    · exact ih h
    · exact .none

end StepRun
