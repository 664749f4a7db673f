import UnifiContainers.Lib.Run
import Mathlib.Logic.Function.Basic
import Mathlib.Tactic.Linarith
import Mathlib.Algebra.Order.Field.Rat

/-!
# The readiness endpoint

Requests run `Gate.ready` side by side: one that takes the lock reads the clock and may run the
probe, and the others are answered from the stored verdict. Their steps interleave freely, the
clock never goes back, and a probe takes any time and may raise.
-/

namespace UnifiContainers.Readyz

open StepRun

/-! ### The endpoint -/

inductive Outcome where
  | value (ready : Bool)
  | raised
  deriving DecidableEq, Repr

abbrev Response := ℕ × String

def ready : Response := (200, "ready\n")

def notReady : Response := (503, "not ready\n")

def notFound : Response := (404, "not found\n")

def probeError : Response := (500, "probe failed\n")

/-- What `do_GET` answers once `ready` has returned or raised. -/
def responseOf : Outcome → Response
  | .value true => ready
  | .value false => notReady
  | .raised => probeError

/-- `path.split("?", 1)[0]` -/
def pathOf (target : String) : List Char := target.toList.takeWhile (· ≠ '?')

/-- Where a request stands in `ready`. -/
inductive Place where
  | called
  | refused
  | admitted
  | probing
  | leaving (answer : Outcome)
  deriving DecidableEq, Repr

/-- The request has the lock. -/
def Place.hasLock : Place → Bool
  | .called | .refused => false
  | .admitted | .probing | .leaving _ => true

inductive Event where
  | started (request : ℕ) (time : ℚ)
  | finished (request : ℕ) (outcome : Outcome)
  | answered (request : ℕ) (response : Response)
  deriving DecidableEq, Repr

/-- The gate, the clock, the requests that are under way, and what happened, the latest first. -/
structure Endpoint where
  verdict : Bool
  last : Option ℚ
  locked : Bool
  now : ℚ
  places : ℕ → Option Place
  log : List Event

inductive Act where
  | tick (time : ℚ)
  | get (request : ℕ) (target : String)
  | tryLock (request : ℕ)
  | readVerdict (request : ℕ)
  | readClock (request : ℕ)
  | endProbe (request : ℕ) (outcome : Outcome)
  | release (request : ℕ)
  deriving DecidableEq, Repr

/-- The request whose step it is. -/
def Act.request : Act → Option ℕ
  | .tick _ => none
  | .get i _ | .tryLock i | .readVerdict i | .readClock i | .endProbe i _ | .release i => some i

namespace Endpoint

def start (now : ℚ) : Endpoint := ⟨false, none, false, now, fun _ => none, []⟩

def put (i : ℕ) (place : Place) (s : Endpoint) : Endpoint :=
  { s with places := Function.update s.places i (some place) }

def answer (i : ℕ) (response : Response) (s : Endpoint) : Endpoint :=
  { s with places := Function.update s.places i none, log := .answered i response :: s.log }

def letIn (i : ℕ) (s : Endpoint) : Endpoint := { s.put i .admitted with locked := true }

def startProbe (i : ℕ) (s : Endpoint) : Endpoint :=
  { s.put i .probing with last := some s.now, log := .started i s.now :: s.log }

/-- An exception leaves the verdict of the run before. -/
def endProbe (i : ℕ) (outcome : Outcome) (s : Endpoint) : Endpoint :=
  { s.put i (.leaving outcome) with
    verdict := match outcome with
      | .value ready => ready
      | .raised => s.verdict
    log := .finished i outcome :: s.log }

def leave (i : ℕ) (answer : Outcome) (s : Endpoint) : Endpoint :=
  { s.answer i (responseOf answer) with locked := false }

/-- No run has started, or the last one at least the interval ago. -/
def Elapsed (interval : ℚ) (s : Endpoint) : Prop := ∀ last ∈ s.last, interval ≤ s.now - last

instance (interval : ℚ) (s : Endpoint) : Decidable (s.Elapsed interval) :=
  inferInstanceAs (Decidable (∀ last ∈ s.last, _))

end Endpoint

open Endpoint

/-- `Gate.ready` and `do_GET`, one step of one request; `none` where the step is not the request's
next one, or the clock would go back. -/
def step (interval : ℚ) (s : Endpoint) : Act → Option Endpoint
  | .tick time => if s.now ≤ time then some { s with now := time } else none
  | .get i target =>
      match s.places i with
      | some _ => none
      | none =>
          if pathOf target = "/readyz".toList then some (s.put i .called)
          else some (s.answer i notFound)
  | .tryLock i =>
      if s.places i = some .called then
        if s.locked then some (s.put i .refused)
        else some (s.letIn i)
      else none
  | .readVerdict i =>
      if s.places i = some .refused then some (s.answer i (responseOf (.value s.verdict))) else none
  | .readClock i =>
      if s.places i = some .admitted then
        if s.Elapsed interval then some (s.startProbe i)
        else some (s.put i (.leaving (.value s.verdict)))
      else none
  | .endProbe i outcome =>
      if s.places i = some .probing then some (s.endProbe i outcome) else none
  | .release i =>
      match s.places i with
      | some (.leaving answer) => some (s.leave i answer)
      | _ => none

/-- What a step can be. -/
inductive Steps (interval : ℚ) (s : Endpoint) : Act → Endpoint → Prop where
  | tick (time : ℚ) : s.now ≤ time → Steps interval s (.tick time) { s with now := time }
  | called (i : ℕ) (target : String) :
      s.places i = none → Steps interval s (.get i target) (s.put i .called)
  | unknown (i : ℕ) (target : String) :
      s.places i = none → Steps interval s (.get i target) (s.answer i notFound)
  | refused (i : ℕ) :
      s.places i = some .called → s.locked = true → Steps interval s (.tryLock i) (s.put i .refused)
  | admitted (i : ℕ) :
      s.places i = some .called → s.locked = false → Steps interval s (.tryLock i) (s.letIn i)
  | told (i : ℕ) :
      s.places i = some .refused →
        Steps interval s (.readVerdict i) (s.answer i (responseOf (.value s.verdict)))
  | started (i : ℕ) :
      s.places i = some .admitted → s.Elapsed interval →
        Steps interval s (.readClock i) (s.startProbe i)
  | cached (i : ℕ) :
      s.places i = some .admitted → ¬ s.Elapsed interval →
        Steps interval s (.readClock i) (s.put i (.leaving (.value s.verdict)))
  | ended (i : ℕ) (outcome : Outcome) :
      s.places i = some .probing → Steps interval s (.endProbe i outcome) (s.endProbe i outcome)
  | left (i : ℕ) (answer : Outcome) :
      s.places i = some (.leaving answer) → Steps interval s (.release i) (s.leave i answer)

section

variable {interval : ℚ} {s t : Endpoint} {a : Act} {i j : ℕ} {place : Place}

theorem steps_of_step (h : step interval s a = some t) : Steps interval s a t := by
  cases a with
  | tick time =>
    obtain ⟨htime, ht⟩ := Option.ite_none_right_eq_some.mp h
    cases ht
    exact .tick time htime
  | get i target =>
    rw [step] at h
    split at h
    · cases h
    · rename_i hplace
      split at h
      · cases h
        exact .called i target hplace
      · cases h
        exact .unknown i target hplace
  | tryLock i =>
    obtain ⟨hplace, h⟩ := Option.ite_none_right_eq_some.mp h
    split at h
    · rename_i hlocked
      cases h
      exact .refused i hplace hlocked
    · rename_i hfree
      cases h
      exact .admitted i hplace (Bool.eq_false_iff.mpr hfree)
  | readVerdict i =>
    obtain ⟨hplace, h⟩ := Option.ite_none_right_eq_some.mp h
    cases h
    exact .told i hplace
  | readClock i =>
    obtain ⟨hplace, h⟩ := Option.ite_none_right_eq_some.mp h
    split at h
    · rename_i helapsed
      cases h
      exact .started i hplace helapsed
    · rename_i helapsed
      cases h
      exact .cached i hplace helapsed
  | endProbe i outcome =>
    obtain ⟨hplace, h⟩ := Option.ite_none_right_eq_some.mp h
    cases h
    exact .ended i outcome hplace
  | release i =>
    rw [step] at h
    split at h
    · rename_i answer hplace
      cases h
      exact .left i answer hplace
    · cases h

/-! ### The lock -/

def Endpoint.hasLock (s : Endpoint) (i : ℕ) : Prop :=
  ∃ place, s.places i = some place ∧ place.hasLock = true

@[simp]
theorem places_put_self : (s.put i place).places i = some place := by
  simp [put]

theorem places_put_of_ne (h : j ≠ i) : (s.put i place).places j = s.places j := by
  simp [put, h]

@[simp]
theorem places_answer_self {response : Response} : (s.answer i response).places i = none := by
  simp [answer]

theorem places_answer_of_ne {response : Response} (h : j ≠ i) :
    (s.answer i response).places j = s.places j := by
  simp [answer, h]

@[simp]
theorem places_letIn_self : (s.letIn i).places i = some .admitted := places_put_self

@[simp]
theorem places_startProbe_self : (s.startProbe i).places i = some .probing := places_put_self

@[simp]
theorem places_endProbe_self {outcome : Outcome} :
    (s.endProbe i outcome).places i = some (.leaving outcome) := places_put_self

@[simp]
theorem places_leave_self {answer : Outcome} : (s.leave i answer).places i = none := by
  show (s.answer i (responseOf answer)).places i = none
  exact places_answer_self

theorem hasLock_iff (h : s.places i = some place) : s.hasLock i ↔ place.hasLock = true := by
  constructor
  · intro hlock
    obtain ⟨other, hother, hlock⟩ := hlock
    cases h.symm.trans hother
    exact hlock
  · intro hlock
    exact ⟨place, h, hlock⟩

theorem hasLock_put : (s.put i place).hasLock j ↔
    if j = i then place.hasLock = true else s.hasLock j := by
  by_cases hj : j = i
  · subst hj
    rw [if_pos rfl]
    exact hasLock_iff places_put_self
  · rw [if_neg hj, hasLock, hasLock, places_put_of_ne hj]

theorem hasLock_answer {response : Response} :
    (s.answer i response).hasLock j ↔ j ≠ i ∧ s.hasLock j := by
  by_cases hj : j = i
  · subst hj
    simp [hasLock]
  · rw [hasLock, hasLock, places_answer_of_ne hj]
    exact (and_iff_right hj).symm

/-- The lock is held by this request, or by none. -/
structure HeldBy (s : Endpoint) (holder : Option ℕ) : Prop where
  locked : s.locked = holder.isSome
  hasLock : ∀ i, s.hasLock i ↔ holder = some i

/-- A request moves on and neither takes nor releases the lock. -/
theorem HeldBy.put {holder : Option ℕ} (h : HeldBy s holder)
    (hsame : place.hasLock = true ↔ s.hasLock i) : HeldBy (s.put i place) holder := by
  refine ⟨h.locked, fun j => ?_⟩
  rw [hasLock_put]
  split
  · rename_i hj
    rw [hj, hsame]
    exact h.hasLock i
  · exact h.hasLock j

theorem HeldBy.answer {holder : Option ℕ} {response : Response} (h : HeldBy s holder)
    (hout : ¬ s.hasLock i) : HeldBy (s.answer i response) holder := by
  refine ⟨h.locked, fun j => ?_⟩
  rw [hasLock_answer, h.hasLock j]
  refine and_iff_right_of_imp fun hj heq => hout ?_
  rw [← heq]
  exact (h.hasLock j).mpr hj

theorem heldBy_start (now : ℚ) : HeldBy (start now) none := by
  refine ⟨rfl, fun i => ?_⟩
  constructor
  · intro h
    obtain ⟨place, hplace, -⟩ := h
    cases hplace
  · intro h
    cases h

theorem heldBy_step {holder : Option ℕ} (h : HeldBy s holder) (hstep : step interval s a = some t) :
    ∃ holder', HeldBy t holder' := by
  cases steps_of_step hstep with
  | tick time htime => exact ⟨holder, h.locked, h.hasLock⟩
  | called i target hplace =>
    refine ⟨holder, h.put ⟨nofun, fun hlock => ?_⟩⟩
    obtain ⟨place, hsome, -⟩ := hlock
    cases hplace.symm.trans hsome
  | unknown i target hplace =>
    refine ⟨holder, h.answer fun hlock => ?_⟩
    obtain ⟨place, hsome, -⟩ := hlock
    cases hplace.symm.trans hsome
  | refused i hplace hlocked => exact ⟨holder, h.put (hasLock_iff hplace).symm⟩
  | admitted i hplace hfree =>
    have hnone : holder = none := by
      have hlocked := h.locked
      rw [hfree] at hlocked
      exact Option.not_isSome_iff_eq_none.mp (by rw [← hlocked]; exact Bool.false_ne_true)
    subst hnone
    refine ⟨some i, rfl, fun j => ?_⟩
    show (s.put i .admitted).hasLock j ↔ some i = some j
    rw [hasLock_put]
    split
    · rename_i hj
      simp [hj, Place.hasLock]
    · rename_i hj
      rw [h.hasLock j, Option.some.injEq]
      exact ⟨nofun, fun heq => absurd heq.symm hj⟩
  | told i hplace => exact ⟨holder, h.answer fun hlock => nomatch (hasLock_iff hplace).mp hlock⟩
  | started i hplace helapsed =>
    have hput : HeldBy (s.put i .probing) holder := h.put (hasLock_iff hplace).symm
    exact ⟨holder, hput.locked, hput.hasLock⟩
  | cached i hplace helapsed => exact ⟨holder, h.put (hasLock_iff hplace).symm⟩
  | ended i outcome hplace =>
    have hput : HeldBy (s.put i (.leaving outcome)) holder := h.put (hasLock_iff hplace).symm
    exact ⟨holder, hput.locked, hput.hasLock⟩
  | left i answer hplace =>
    have hheld : holder = some i := (h.hasLock i).mp ((hasLock_iff hplace).mpr rfl)
    refine ⟨none, rfl, fun j => ?_⟩
    show (s.answer i (responseOf answer)).hasLock j ↔ none = some j
    rw [hasLock_answer, h.hasLock j, hheld, Option.some.injEq]
    constructor
    · intro hboth
      exact absurd hboth.2.symm hboth.1
    · intro hnone
      cases hnone

/-- Only one request at a time is behind the lock. -/
theorem HeldBy.unique {holder : Option ℕ} (h : HeldBy s holder) (hi : s.hasLock i)
    (hj : s.hasLock j) : i = j :=
  Option.some.inj (((h.hasLock i).mp hi).symm.trans ((h.hasLock j).mp hj))

/-! ### The clock -/

/-- The clock readings at the starts of the runs, the latest first. -/
def starts (log : List Event) : List ℚ :=
  log.filterMap fun
    | .started _ time => some time
    | _ => none

/-- The starts are in the past and at least the interval apart, and the latest is remembered. -/
structure Timely (interval : ℚ) (s : Endpoint) : Prop where
  last : s.last = (starts s.log).head?
  past : ∀ time ∈ starts s.log, time ≤ s.now
  spaced : (starts s.log).Pairwise fun later earlier => interval ≤ later - earlier

theorem timely_start (interval now : ℚ) : Timely interval (start now) :=
  ⟨rfl, fun _ htime => (List.not_mem_nil htime).elim, .nil⟩

theorem timely_step (hinterval : 0 ≤ interval) (h : Timely interval s)
    (hstep : step interval s a = some t) : Timely interval t := by
  cases steps_of_step hstep with
  | tick time htime => exact ⟨h.last, fun t ht => (h.past t ht).trans htime, h.spaced⟩
  | started i hplace helapsed =>
    refine ⟨rfl, ?_, ?_⟩
    · intro time htime
      rcases List.mem_cons.mp htime with heq | hearlier
      · exact heq.le
      · exact h.past time hearlier
    · refine List.pairwise_cons.mpr ⟨?_, h.spaced⟩
      intro earlier hearlier
      have hspaced := h.spaced
      have hlast := h.last
      change earlier ∈ starts s.log at hearlier
      cases hstarts : starts s.log with
      | nil =>
        rw [hstarts] at hearlier
        cases hearlier
      | cons latest before =>
        rw [hstarts] at hearlier hspaced hlast
        have hnow : interval ≤ s.now - latest := helapsed latest hlast
        rcases List.mem_cons.mp hearlier with heq | hbefore
        · rw [heq]
          exact hnow
        · have hgap := (List.pairwise_cons.mp hspaced).1 earlier hbefore
          linarith
  | called | unknown | refused | admitted | told | cached | ended | left =>
    exact ⟨h.last, h.past, h.spaced⟩

/-! ### A request that goes on by itself -/

/-- In at most `n` steps of its own the request is answered, or runs the probe itself. -/
def Finishes (interval : ℚ) (s : Endpoint) (i n : ℕ) : Prop :=
  ∃ acts t, (∀ a ∈ acts, a.request = some i) ∧ acts.length ≤ n ∧
    exec (step interval) s acts = some t ∧ (t.places i = none ∨ t.places i = some .probing)

theorem finishes_of_done (h : s.places i = none ∨ s.places i = some .probing) (n : ℕ) :
    Finishes interval s i n :=
  ⟨[], s, fun _ ha => (List.not_mem_nil ha).elim, Nat.zero_le n, rfl, h⟩

theorem Finishes.step {n : ℕ} (ha : a.request = some i) (hstep : step interval s a = some t)
    (h : Finishes interval t i n) : Finishes interval s i (n + 1) := by
  obtain ⟨acts, u, hown, hlength, hexec, hdone⟩ := h
  refine ⟨a :: acts, u, ?_, Nat.succ_le_succ hlength, ?_, hdone⟩
  · intro b hb
    rcases List.mem_cons.mp hb with heq | hrest
    · rw [heq]
      exact ha
    · exact hown b hrest
  · rw [exec_cons, hstep]
    exact hexec

theorem finishes_leaving {answer : Outcome} (h : s.places i = some (.leaving answer)) (n : ℕ) :
    Finishes interval s i (n + 1) := by
  have hstep : Readyz.step interval s (.release i) = some (s.leave i answer) := by
    rw [Readyz.step, h]
  exact Finishes.step rfl hstep (finishes_of_done (.inl places_leave_self) n)

theorem finishes_admitted (h : s.places i = some .admitted) (n : ℕ) :
    Finishes interval s i (n + 2) := by
  by_cases helapsed : s.Elapsed interval
  · have hstep : Readyz.step interval s (.readClock i) = some (s.startProbe i) := by
      rw [Readyz.step, if_pos h, if_pos helapsed]
    exact Finishes.step rfl hstep (finishes_of_done (.inr places_startProbe_self) (n + 1))
  · have hstep : Readyz.step interval s (.readClock i) =
        some (s.put i (.leaving (.value s.verdict))) := by
      rw [Readyz.step, if_pos h, if_neg helapsed]
    exact Finishes.step rfl hstep (finishes_leaving places_put_self n)

theorem finishes_refused (h : s.places i = some .refused) (n : ℕ) :
    Finishes interval s i (n + 1) := by
  have hstep : Readyz.step interval s (.readVerdict i) =
      some (s.answer i (responseOf (.value s.verdict))) := by
    rw [Readyz.step, if_pos h]
  exact Finishes.step rfl hstep (finishes_of_done (.inl places_answer_self) n)

/-- Whatever the others are at, a request that does not run the probe itself is answered. -/
theorem finishes (h : s.places i = some place) : Finishes interval s i 3 := by
  cases place with
  | called =>
    cases hlocked : s.locked with
    | true =>
      have hstep : Readyz.step interval s (.tryLock i) = some (s.put i .refused) := by
        rw [Readyz.step, if_pos h, if_pos hlocked]
      exact Finishes.step rfl hstep (finishes_refused places_put_self 1)
    | false =>
      have hstep : Readyz.step interval s (.tryLock i) = some (s.letIn i) := by
        rw [Readyz.step, if_pos h, hlocked]
        rfl
      exact Finishes.step rfl hstep (finishes_admitted places_letIn_self 0)
  | refused => exact finishes_refused h 2
  | admitted => exact finishes_admitted h 1
  | probing => exact finishes_of_done (.inr h) 3
  | leaving answer => exact finishes_leaving h 2

/-! ### A request that has the lock before its clock reading -/

/-- The request is about to read the clock, and finds the interval elapsed. -/
structure Due (interval : ℚ) (i : ℕ) (s : Endpoint) : Prop where
  held : HeldBy s (some i)
  place : s.places i = some .admitted
  elapsed : s.Elapsed interval

/-- The others leave it there: none of them starts a run meanwhile. -/
theorem due_step (h : Due interval i s) (ha : a.request ≠ some i)
    (hstep : step interval s a = some t) : Due interval i t := by
  obtain ⟨holder, hheld⟩ := heldBy_step h.held hstep
  have hother (j : ℕ) (hj : a.request = some j) : i ≠ j := fun heq => ha (by rw [hj, heq])
  have hfree (j : ℕ) (place : Place) (hj : a.request = some j) (hplace : s.places j = some place)
      (hlock : place.hasLock = true) : False :=
    hother j hj (h.held.unique ((hasLock_iff h.place).mpr rfl) ((hasLock_iff hplace).mpr hlock))
  have hstays (t : Endpoint) (holder : Option ℕ) (hheld : HeldBy t holder)
      (hplace : t.places i = s.places i) (hlast : t.last = s.last) (hnow : s.now ≤ t.now) :
      Due interval i t := by
    have hplace' : t.places i = some .admitted := hplace.trans h.place
    have hholder : holder = some i := (hheld.hasLock i).mp ((hasLock_iff hplace').mpr rfl)
    refine ⟨hholder ▸ hheld, hplace', fun last hmem => ?_⟩
    rw [hlast] at hmem
    have helapsed := h.elapsed last hmem
    linarith
  cases steps_of_step hstep with
  | tick time htime => exact hstays _ holder hheld rfl rfl htime
  | called j target hplace =>
    exact hstays _ holder hheld (places_put_of_ne (hother j rfl)) rfl le_rfl
  | unknown j target hplace =>
    exact hstays _ holder hheld (places_answer_of_ne (hother j rfl)) rfl le_rfl
  | refused j hplace hlocked =>
    exact hstays _ holder hheld (places_put_of_ne (hother j rfl)) rfl le_rfl
  | admitted j hplace hunlocked =>
    have hlocked := h.held.locked
    rw [hunlocked] at hlocked
    cases hlocked
  | told j hplace => exact hstays _ holder hheld (places_answer_of_ne (hother j rfl)) rfl le_rfl
  | started j hplace helapsed => exact (hfree j _ rfl hplace rfl).elim
  | cached j hplace helapsed => exact (hfree j _ rfl hplace rfl).elim
  | ended j outcome hplace => exact (hfree j _ rfl hplace rfl).elim
  | left j answer hplace => exact (hfree j _ rfl hplace rfl).elim

/-! ### Probes are rationed -/

/-- What holds of the probe runs and the requests however the endpoint is polled. -/
structure Rationed (interval : ℚ) (s : Endpoint) : Prop where
  /-- No two runs overlap. -/
  one : ∀ i j, s.places i = some .probing → s.places j = some .probing → i = j
  spaced : (starts s.log).Pairwise fun later earlier => interval ≤ later - earlier
  /-- No request waits for another one. -/
  finishes : ∀ i place, s.places i = some place → Finishes interval s i 3
  /-- The lock is held only by a request that is under way. -/
  locked : s.locked = true → ∃ i, s.hasLock i
  /-- A run that ends in any way gives the lock back with its answer. -/
  released : ∀ i outcome, s.places i = some .probing →
    ∃ t, exec (step interval) s [.endProbe i outcome, .release i] = some t ∧ t.locked = false
  /-- A request that finds the lock free with the interval elapsed starts a run, whatever the
  others do between its steps. -/
  starts : ∀ i others t, s.places i = some .called → s.locked = false → s.Elapsed interval →
    (∀ a ∈ others, a.request ≠ some i) →
    exec (step interval) s (.tryLock i :: others) = some t →
      ∃ u, step interval t (.readClock i) = some u ∧ u.places i = some .probing ∧
        starts u.log = t.now :: starts t.log

theorem endProbe_release {outcome : Outcome} (h : s.places i = some .probing) :
    exec (step interval) s [.endProbe i outcome, .release i] =
      some ((s.endProbe i outcome).leave i outcome) := by
  have hend : step interval s (.endProbe i outcome) = some (s.endProbe i outcome) := by
    rw [step, if_pos h]
  have hrelease : step interval (s.endProbe i outcome) (.release i) =
      some ((s.endProbe i outcome).leave i outcome) := by
    rw [step, places_endProbe_self]
  rw [exec_cons, hend, Option.bind_some, exec_cons, hrelease, Option.bind_some]
  rfl

theorem due_letIn {holder : Option ℕ} (h : HeldBy s holder) (hplace : s.places i = some .called)
    (hfree : s.locked = false) (helapsed : s.Elapsed interval) : Due interval i (s.letIn i) := by
  have hstep : step interval s (.tryLock i) = some (s.letIn i) := by
    rw [step, if_pos hplace, hfree]
    rfl
  obtain ⟨holder', hheld⟩ := heldBy_step h hstep
  have hholder : holder' = some i :=
    (hheld.hasLock i).mp ((hasLock_iff places_letIn_self).mpr rfl)
  exact ⟨hholder ▸ hheld, places_letIn_self, helapsed⟩

/-- However many requests there are and however their steps interleave with probes that take any
time and fail in any way: the runs do not overlap and start at least the interval apart, no request
waits for another one, a run that has ended leaves the lock free, and a request that finds the lock
free with the interval elapsed starts a run. -/
theorem probes_rationed (interval now : ℚ) (acts : List Act) (s : Endpoint)
    (hinterval : 0 ≤ interval) (hrun : exec (step interval) (start now) acts = some s) :
    Rationed interval s := by
  have hkept (s : Endpoint) (a : Act) (t : Endpoint) (h : ∃ holder, HeldBy s holder)
      (hstep : step interval s a = some t) : ∃ holder, HeldBy t holder := by
    obtain ⟨holder, h⟩ := h
    exact heldBy_step h hstep
  have hheld := StepRun.invariant (step interval) hkept ⟨none, heldBy_start now⟩ hrun
  have htimely : Timely interval s := by
    apply StepRun.invariant (step interval) _ (timely_start interval now) hrun
    intro s a t h hstep
    exact timely_step hinterval h hstep
  obtain ⟨holder, hheld⟩ := hheld
  constructor
  · intro i j hi hj
    exact hheld.unique ((hasLock_iff hi).mpr rfl) ((hasLock_iff hj).mpr rfl)
  · exact htimely.spaced
  · intro i place hplace
    exact Readyz.finishes hplace
  · intro hlocked
    rw [hheld.locked] at hlocked
    obtain ⟨i, hi⟩ := Option.isSome_iff_exists.mp hlocked
    exact ⟨i, (hheld.hasLock i).mpr hi⟩
  · intro i outcome hplace
    exact ⟨_, endProbe_release hplace, rfl⟩
  · intro i others t hplace hfree helapsed hothers hexec
    obtain ⟨u, hletIn, hexec⟩ := exec_cons_some (step interval) hexec
    have hstep : step interval s (.tryLock i) = some (s.letIn i) := by
      rw [step, if_pos hplace, hfree]
      rfl
    cases hstep.symm.trans hletIn
    have hdue : Due interval i t := by
      apply StepRun.guarded_invariant (step interval) _ (due_letIn hheld hplace hfree helapsed)
        (guarded_of_forall (step interval) (s.letIn i) hothers) hexec
      intro s a t h ha hstep
      exact due_step h ha hstep
    refine ⟨t.startProbe i, ?_, places_startProbe_self, rfl⟩
    rw [step, if_pos hdue.place, if_pos hdue.elapsed]

/-- A probe raises while two requests are answered beside it. -/
def besideProbe : List Act :=
  [.get 0 "/readyz", .tryLock 0, .readClock 0, .get 1 "/readyz?v", .tryLock 1, .tick 3,
    .readVerdict 1, .endProbe 0 .raised, .get 2 "/readyz", .tryLock 2, .release 0]

theorem probes_rationed_example :
    ∃ s, exec (step 2) (start 0) besideProbe = some s ∧ Rationed 2 s := by
  obtain ⟨s, hrun⟩ : ∃ s, exec (step 2) (start 0) besideProbe = some s := ⟨_, rfl⟩
  exact ⟨s, hrun, probes_rationed 2 0 besideProbe s (by norm_num) hrun⟩

/-- One request has run the probe, the next one has the lock, one time unit later. -/
def cachedHolder : Endpoint :=
  let probed := ((((start 0).put 0 .called).letIn 0).startProbe 0).endProbe 0 (.value true)
  ({ probed.leave 0 (.value true) with now := 1 }.put 1 .called).letIn 1

/-- It is told the stored verdict and has not left when the interval is over. -/
def late : Endpoint := { cachedHolder.put 1 (.leaving (.value true)) with now := 5 }.put 2 .called

/-- A request between its clock reading and its release has the lock without a probe in flight, and
another one that comes by is answered from the stored verdict. -/
theorem probes_rationed_refused : ¬ ∀ (interval now : ℚ) (acts : List Act) (s : Endpoint),
    0 ≤ interval → exec (step interval) (start now) acts = some s →
      ∀ i, s.places i = some .called → (∀ j, s.places j ≠ some .probing) → s.Elapsed interval →
        ∀ own t, (∀ a ∈ own, a.request = some i) → exec (step interval) s own = some t →
          t.places i = none → starts t.log ≠ starts s.log := by
  intro hstarts
  have hcached : step 2 cachedHolder (.readClock 1) =
      some (cachedHolder.put 1 (.leaving (.value true))) := by
    have helapsed : ¬ cachedHolder.Elapsed 2 := by decide +kernel
    have hplace : cachedHolder.places 1 = some .admitted := rfl
    rw [step, if_pos hplace, if_neg helapsed]
    rfl
  have hrun : exec (step 2) (start 0)
      [.get 0 "/readyz", .tryLock 0, .readClock 0, .endProbe 0 (.value true), .release 0, .tick 1,
        .get 1 "/readyz", .tryLock 1, .readClock 1, .tick 5, .get 2 "/readyz"] = some late := by
    show (step 2 cachedHolder (.readClock 1)).bind (fun t => exec (step 2) t _) = _
    rw [hcached]
    rfl
  refine hstarts 2 0 _ late (by norm_num) hrun 2 rfl ?_ (by decide +kernel)
    [.tryLock 2, .readVerdict 2] _ (by decide) rfl rfl rfl
  intro j
  by_cases h2 : j = 2
  · subst h2
    decide
  · by_cases h1 : j = 1
    · subst h1
      decide
    · by_cases h0 : j = 0
      · subst h0
        decide
      · simp [late, cachedHolder, put, answer, leave, endProbe, startProbe, letIn, start, h1, h2]

/-! ### What the answers say -/

/-- How the run that finished last ended. -/
def lastOutcome (log : List Event) : Option Outcome :=
  log.findSome? fun
    | .finished _ outcome => some outcome
    | _ => none

/-- Each answer 200 was given when the run that had finished last had returned true. -/
def Current : List Event → Prop
  | [] => True
  | .answered _ response :: earlier =>
      (response.1 = 200 → lastOutcome earlier = some (.value true)) ∧ Current earlier
  | .started _ _ :: earlier => Current earlier
  | .finished _ _ :: earlier => Current earlier

instance decidableCurrent : (log : List Event) → Decidable (Current log)
  | [] => isTrue trivial
  | .answered _ _ :: earlier =>
      have := decidableCurrent earlier
      inferInstanceAs (Decidable (_ ∧ Current earlier))
  | .started _ _ :: earlier => decidableCurrent earlier
  | .finished _ _ :: earlier => decidableCurrent earlier

/-- The verdicts at hand are those of the run that finished last. -/
structure Fresh (s : Endpoint) : Prop where
  current : Current s.log
  verdict : s.verdict = true → lastOutcome s.log = some (.value true)
  leaving : ∀ i, s.places i = some (.leaving (.value true)) → lastOutcome s.log = some (.value true)

/-- A probe that raises does so while the stored verdict is false. -/
def Unready (s : Endpoint) (a : Act) : Prop :=
  match a with
  | .endProbe _ .raised => s.verdict = false
  | _ => True

instance (s : Endpoint) (a : Act) : Decidable (Unready s a) := by
  unfold Unready
  split <;> infer_instance

theorem fresh_start (now : ℚ) : Fresh (start now) := ⟨trivial, nofun, nofun⟩

theorem responseOf_ready {outcome : Outcome} (h : (responseOf outcome).1 = 200) :
    outcome = .value true := by
  cases outcome with
  | value ready =>
    cases ready with
    | true => rfl
    | false => cases h
  | raised => cases h

theorem Fresh.put (h : Fresh s)
    (hplace : place = .leaving (.value true) → lastOutcome s.log = some (.value true)) :
    Fresh (s.put i place) := by
  refine ⟨h.current, h.verdict, fun j hj => ?_⟩
  by_cases heq : j = i
  · subst heq
    rw [places_put_self, Option.some.injEq] at hj
    exact hplace hj
  · rw [places_put_of_ne heq] at hj
    exact h.leaving j hj

theorem Fresh.answer {outcome : Outcome} (h : Fresh s)
    (houtcome : outcome = .value true → lastOutcome s.log = some (.value true)) :
    Fresh (s.answer i (responseOf outcome)) := by
  refine ⟨⟨fun hready => houtcome (responseOf_ready hready), h.current⟩, h.verdict, fun j hj => ?_⟩
  by_cases heq : j = i
  · subst heq
    rw [places_answer_self] at hj
    cases hj
  · rw [places_answer_of_ne heq] at hj
    exact h.leaving j hj

theorem fresh_step {holder : Option ℕ} (hheld : HeldBy s holder) (h : Fresh s) (ha : Unready s a)
    (hstep : step interval s a = some t) : Fresh t := by
  cases steps_of_step hstep with
  | tick time htime => exact ⟨h.current, h.verdict, h.leaving⟩
  | called i target hplace => exact h.put nofun
  | unknown i target hplace =>
    refine ⟨⟨nofun, h.current⟩, h.verdict, fun j hj => ?_⟩
    by_cases heq : j = i
    · subst heq
      rw [places_answer_self] at hj
      cases hj
    · rw [places_answer_of_ne heq] at hj
      exact h.leaving j hj
  | refused i hplace hlocked => exact h.put nofun
  | admitted i hplace hfree =>
    have hput : Fresh (s.put i .admitted) := h.put nofun
    exact ⟨hput.current, hput.verdict, hput.leaving⟩
  | told i hplace => exact h.answer fun heq => h.verdict (Outcome.value.inj heq)
  | started i hplace helapsed =>
    have hput : Fresh (s.put i .probing) := h.put nofun
    exact ⟨hput.current, hput.verdict, hput.leaving⟩
  | cached i hplace helapsed =>
    exact h.put fun heq => h.verdict (Outcome.value.inj (Place.leaving.inj heq))
  | ended i outcome hplace =>
    -- No other request is on its way out: it would have the lock too.
    have hleaving (j : ℕ) (hj : (s.endProbe i outcome).places j = some (.leaving (.value true))) :
        outcome = .value true := by
      by_cases heq : j = i
      · subst heq
        rw [places_endProbe_self, Option.some.injEq] at hj
        exact Place.leaving.inj hj
      · have hplaces : (s.put i (.leaving outcome)).places j = some (.leaving (.value true)) := hj
        rw [places_put_of_ne heq] at hplaces
        exact absurd (hheld.unique ((hasLock_iff hplaces).mpr rfl) ((hasLock_iff hplace).mpr rfl))
          heq
    cases outcome with
    | value ready => exact ⟨h.current, fun hready => by rw [show ready = true from hready]; rfl,
        fun j hj => by rw [hleaving j hj]; rfl⟩
    | raised =>
      have hfalse : s.verdict = false := ha
      refine ⟨h.current, fun htrue => ?_, fun j hj => nomatch hleaving j hj⟩
      exact absurd (hfalse.symm.trans htrue) Bool.false_ne_true
  | left i answer hplace =>
    have hanswer : Fresh (s.answer i (responseOf answer)) := by
      apply h.answer
      intro heq
      exact h.leaving i (heq ▸ hplace)
    exact ⟨hanswer.current, hanswer.verdict, hanswer.leaving⟩

/-- In every run in which probes raise only while the stored verdict is false, each answer 200 says
that the probe run that finished last returned true. -/
theorem answers_current (interval now : ℚ) (acts : List Act) (s : Endpoint)
    (hunready : Guarded (step interval) Unready (start now) acts)
    (hrun : exec (step interval) (start now) acts = some s) : Current s.log := by
  have hkept (s : Endpoint) (a : Act) (t : Endpoint) (h : (∃ holder, HeldBy s holder) ∧ Fresh s)
      (ha : Unready s a) (hstep : step interval s a = some t) :
      (∃ holder, HeldBy t holder) ∧ Fresh t := by
    obtain ⟨⟨holder, hheld⟩, hfresh⟩ := h
    exact ⟨heldBy_step hheld hstep, fresh_step hheld hfresh ha hstep⟩
  have hinv := StepRun.guarded_invariant (step interval) hkept
    ⟨⟨none, heldBy_start now⟩, fresh_start now⟩ hunready hrun
  exact hinv.2.current

/-- A probe raises before any has returned, and the next one returns true. -/
def raisesUnready : List Act :=
  [.get 0 "/readyz", .tryLock 0, .readClock 0, .endProbe 0 .raised, .release 0, .tick 2,
    .get 1 "/readyz", .tryLock 1, .readClock 1, .endProbe 1 (.value true), .release 1]

theorem answers_current_example :
    ∃ s, exec (step 2) (start 0) raisesUnready = some s ∧ Current s.log := by
  obtain ⟨s, hrun⟩ : ∃ s, exec (step 2) (start 0) raisesUnready = some s :=
    Option.isSome_iff_exists.mp (by decide +kernel)
  exact ⟨s, hrun, answers_current 2 0 raisesUnready s (by decide +kernel) hrun⟩

/-- The run before returned true, this one raises, and within the interval the next request is
told that the controller is ready. -/
theorem answers_current_raised : ¬ ∀ (interval now : ℚ) (acts : List Act) (s : Endpoint),
    exec (step interval) (start now) acts = some s → Current s.log := by
  intro hcurrent
  have hstale : (exec (step 2) (start 0)
      [.get 0 "/readyz", .tryLock 0, .readClock 0, .endProbe 0 (.value true), .release 0, .tick 2,
        .get 1 "/readyz", .tryLock 1, .readClock 1, .endProbe 1 .raised, .release 1, .tick 3,
        .get 2 "/readyz", .tryLock 2, .readClock 2, .release 2]).map
      (fun s => decide (Current s.log)) = some false := by
    decide +kernel
  obtain ⟨s, hrun, hs⟩ := Option.map_eq_some_iff.mp hstale
  exact absurd (hcurrent 2 0 _ s hrun) (of_decide_eq_false hs)

end

end UnifiContainers.Readyz
