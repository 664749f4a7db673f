/-!
# Computations that leave a trace and may raise

A computation over events `ε` does a list of events and then returns a value or raises. Whoever is
killed half way has done a prefix of the trace.
-/

/-- What a computation did, and what it returned; `none` is an exception that escapes it. -/
structure Traced (ε α : Type) where
  trace : List ε
  result : Option α
  deriving DecidableEq

namespace Traced

variable {ε α β : Type}

instance : Monad (Traced ε) where
  pure a := ⟨[], some a⟩
  bind x f :=
    match x.result with
    | none => ⟨x.trace, none⟩
    | some a => ⟨x.trace ++ (f a).trace, (f a).result⟩

def emit (e : ε) : Traced ε Unit := ⟨[e], some ()⟩

@[simp]
theorem pure_def (a : α) : (pure a : Traced ε α) = ⟨[], some a⟩ := rfl

@[simp]
theorem bind_some {t : List ε} {a : α} (f : α → Traced ε β) :
    ((⟨t, some a⟩ : Traced ε α) >>= f) = ⟨t ++ (f a).trace, (f a).result⟩ := rfl

@[simp]
theorem bind_none {t : List ε} (f : α → Traced ε β) :
    ((⟨t, none⟩ : Traced ε α) >>= f) = ⟨t, none⟩ := rfl

/-! ### What a computation that runs to its end does -/

/-- The computation returns `a`, and of its events those that `keep` selects are `events`. -/
structure Yields (keep : ε → Bool) (x : Traced ε α) (events : List ε) (a : α) : Prop where
  returns : x.result = some a
  kept : x.trace.filter keep = events

theorem bind_result_none {x : Traced ε α} (f : α → Traced ε β) (h : x.result = none) :
    (x >>= f).result = none := by
  obtain ⟨t, result⟩ := x
  cases h
  rfl

namespace Yields

variable {keep : ε → Bool} {x : Traced ε α} {f : α → Traced ε β} {events more : List ε} {a : α}
  {b : β}

theorem pure (keep : ε → Bool) (a : α) : Yields keep (Pure.pure a) [] a := ⟨rfl, rfl⟩

theorem emit (keep : ε → Bool) (e : ε) : Yields keep (Traced.emit e) ([e].filter keep) () :=
  ⟨rfl, rfl⟩

theorem bind (hx : Yields keep x events a) (hf : Yields keep (f a) more b) :
    Yields keep (x >>= f) (events ++ more) b := by
  obtain ⟨t, result⟩ := x
  obtain ⟨hret, hkept⟩ := hx
  cases hret
  exact ⟨hf.returns, by simp [← hkept, ← hf.kept]⟩

theorem bind_silent (hx : Yields keep x [] a) (hf : Yields keep (f a) more b) :
    Yields keep (x >>= f) more b := hx.bind hf

theorem bind_result (hx : Yields keep x events a) (f : α → Traced ε β) :
    (x >>= f).result = (f a).result := by
  obtain ⟨t, result⟩ := x
  cases hx.returns
  rfl

end Yields

/-! ### Computations whose events tell whether they raise -/

theorem bind_result_some {x : Traced ε α} {f : α → Traced ε β} {b : β}
    (h : (x >>= f).result = some b) : ∃ a, x.result = some a ∧ (f a).result = some b := by
  obtain ⟨t, result⟩ := x
  cases result with
  | none => cases h
  | some a => exact ⟨a, rfl, h⟩

/-- The computation raises if one of its events is among the fatal ones, and only then. -/
def RaisesAt (fatal : ε → Prop) (x : Traced ε α) : Prop :=
  x.result = none ↔ ∃ e ∈ x.trace, fatal e

namespace RaisesAt

variable {fatal : ε → Prop} {x y : Traced ε α} {f : α → Traced ε β}

theorem pure (fatal : ε → Prop) (a : α) : RaisesAt fatal (Pure.pure a : Traced ε α) := by
  simp [RaisesAt]

theorem bind (hx : RaisesAt fatal x) (hf : ∀ a, RaisesAt fatal (f a)) :
    RaisesAt fatal (x >>= f) := by
  obtain ⟨t, result⟩ := x
  cases result with
  | none => exact ⟨fun _ => hx.mp rfl, fun _ => rfl⟩
  | some a =>
    have hquiet : ∀ e ∈ t, ¬ fatal e := by
      intro e he hfatal
      have hnone : some a = none := hx.mpr ⟨e, he, hfatal⟩
      cases hnone
    have hrest : (f a).result = none ↔ ∃ e ∈ (f a).trace, fatal e := hf a
    rw [RaisesAt, bind_some, hrest]
    constructor
    · intro h
      obtain ⟨e, he, hfatal⟩ := h
      exact ⟨e, List.mem_append_right t he, hfatal⟩
    · intro h
      obtain ⟨e, he, hfatal⟩ := h
      exact ⟨e, (List.mem_append.mp he).resolve_left fun he => hquiet e he hfatal, hfatal⟩

theorem ite {c : Prop} [Decidable c] (hx : RaisesAt fatal x) (hy : RaisesAt fatal y) :
    RaisesAt fatal (if c then x else y) := by
  split
  · exact hx
  · exact hy

end RaisesAt

/-! ### Computations that return -/

/-- The computation returns, and what it returns satisfies `post`. -/
def Returns (post : α → Prop) (x : Traced ε α) : Prop := ∃ a, x.result = some a ∧ post a

namespace Returns

variable {mid post : α → Prop} {last : β → Prop} {x y : Traced ε α} {f : α → Traced ε β} {a : α}

theorem pure (h : post a) : Returns post (Pure.pure a : Traced ε α) := ⟨a, rfl, h⟩

theorem bind (hx : Returns mid x) (hf : ∀ a, mid a → Returns last (f a)) :
    Returns last (x >>= f) := by
  obtain ⟨t, result⟩ := x
  obtain ⟨a, ha, hmid⟩ := hx
  cases ha
  exact hf a hmid

theorem ite {c : Prop} [Decidable c] (hx : Returns post x) (hy : Returns post y) :
    Returns post (if c then x else y) := by
  split
  · exact hx
  · exact hy

end Returns

end Traced
