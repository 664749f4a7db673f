import UnifiContainers.Runtime.Supervisor
import Mathlib.Data.List.MinMax
import Mathlib.Algebra.Order.Field.Rat
import Mathlib.Tactic.Linarith

/-!
# The shutdown ladder in time

Only waiting takes time. The controller ends at the earliest of the times at which it would end by
itself or in answer to what it has been sent so far; the supervisor learns of it when it polls or
waits. Times are seconds on the monotonic clock.
-/

namespace UnifiContainers.Ladder

open Supervisor (exitStatus)

def gracefulWait : ℚ := 3

def dbWait : ℚ := 3

def killGrace : ℚ := 1

/-! ### The controller and its group -/

inductive Ending where
  | exited (code : ℕ)
  | killed (signal : ℕ) (positive : 0 < signal)
  deriving DecidableEq, Repr

/-- `Popen.returncode`. -/
def Ending.returncode : Ending → ℤ
  | .exited code => code
  | .killed signal _ => -signal

/-- The shell's convention. -/
def Ending.status : Ending → ℤ
  | .exited code => code
  | .killed signal _ => 128 + signal

/-- How the controller ends, some time after it is asked to. -/
structure Response where
  delay : ℚ
  ending : Ending
  nonneg : 0 ≤ delay

/-- `others` says whether the group holds a process besides the controller when it is signalled. -/
structure Behaviour where
  own : Option (ℚ × Ending)
  onStopFile : Option Response
  onTerm : Option Response
  onKill : Option Response
  others : Bool

inductive Event where
  | gracefulStop
  /-- `killpg` with SIGTERM, and whether the group was there to take it. -/
  | term (sent : Bool)
  | kill (sent : Bool)
  deriving DecidableEq, Repr

/-- The supervisor's side of a run: the clock, what it has done and when, and the return code it has
learnt. -/
structure Machine where
  now : ℚ
  trace : List (ℚ × Event)
  returncode : Option ℤ
  deriving DecidableEq

section

variable (b : Behaviour)

def Behaviour.response : Event → Option Response
  | .gracefulStop => b.onStopFile
  | .term sent => if sent then b.onTerm else none
  | .kill sent => if sent then b.onKill else none

/-- The ends the controller is heading for. -/
def Behaviour.endings (trace : List (ℚ × Event)) : List (ℚ × Ending) :=
  b.own.toList ++ trace.filterMap fun e =>
    (b.response e.2).map fun r => (e.1 + r.delay, r.ending)

def Behaviour.ends (trace : List (ℚ × Event)) : Option (ℚ × Ending) :=
  (b.endings trace).argmin Prod.fst

/-- The controller has not ended by `t`. -/
def Behaviour.Alive (trace : List (ℚ × Event)) (t : ℚ) : Prop :=
  ∀ ending ∈ b.endings trace, t < ending.1

/-! ### Waiting -/

def poll (m : Machine) : Machine :=
  match m.returncode, b.ends m.trace with
  | none, some (t, ending) =>
      if t ≤ m.now then { m with returncode := some ending.returncode } else m
  | _, _ => m

/-- `Popen.wait` with a timeout. -/
def wait (timeout : ℚ) (m : Machine) : Machine :=
  match m.returncode with
  | some _ => m
  | none =>
      match b.ends m.trace with
      | some (t, ending) =>
          if t ≤ m.now + timeout then
            { m with now := max m.now t, returncode := some ending.returncode }
          else { m with now := m.now + timeout }
      | none => { m with now := m.now + timeout }

/-- `_wait_for_exit`. -/
def waitForExit (deadline want : ℚ) (m : Machine) : Machine :=
  wait b (max 0 (min want (deadline - m.now))) m

def pauseUntil (deadline want : ℚ) (m : Machine) : Machine :=
  let remaining := min want (deadline - m.now)
  if 0 < remaining then { m with now := m.now + remaining } else m

/-! ### The rungs -/

def Machine.record (m : Machine) (e : Event) : Machine :=
  { m with trace := m.trace ++ [(m.now, e)] }

/-- The group is empty once the controller is reaped and nobody else is in it. -/
def groupThere (m : Machine) : Bool := b.others || m.returncode.isNone

def gracefulRung (deadline : ℚ) (m : Machine) : Machine :=
  let m := poll b m
  if m.returncode.isNone then waitForExit b deadline gracefulWait (m.record .gracefulStop) else m

def termRung (deadline : ℚ) (m : Machine) : Machine :=
  let sent := groupThere b m
  let m := m.record (.term sent)
  if sent then pauseUntil deadline dbWait m else m

def killRung (m : Machine) : Machine :=
  let m := poll b m
  if m.returncode.isNone then
    let m := m.record (.kill (groupThere b m))
    waitForExit b (m.now + killGrace) killGrace m
  else m

/-- `Supervisor.stop`. -/
def stop (budget : ℚ) (m : Machine) : Machine :=
  let deadline := m.now + budget
  killRung b (termRung b deadline (gracefulRung b deadline m))

/-- Where `run` leaves the wait for the controller: at its own end, or at a stop signal before that.
With neither it waits for ever. -/
def supervise (signal : Option ℚ) : Option Machine :=
  match b.own, signal with
  | some (t, ending), none => some ⟨t, [], some ending.returncode⟩
  | some (t, ending), some s =>
      if t ≤ s then some ⟨t, [], some ending.returncode⟩ else some ⟨s, [], none⟩
  | none, some s => some ⟨s, [], none⟩
  | none, none => none

/-- `Supervisor.run`: where it enters `stop`, where it leaves it, and its status. -/
def run (budget : ℚ) (signal : Option ℚ) : Option (Machine × Machine × ℤ) :=
  (supervise b signal).map fun entry =>
    (entry, stop b budget entry, exitStatus (stop b budget entry).returncode)

end

/-! ### What one step does to the knowledge of the controller's end -/

section

variable {b : Behaviour} {m : Machine} {trace : List (ℚ × Event)} {t timeout deadline want : ℚ}

theorem alive_iff : b.Alive trace t ↔ ∀ ending, b.ends trace = some ending → t < ending.1 := by
  constructor
  · intro h ending hends
    exact h ending (List.argmin_mem hends)
  · intro h ending hmem
    cases hends : b.ends trace with
    | none =>
      rw [Behaviour.ends, List.argmin_eq_none] at hends
      rw [hends] at hmem
      cases hmem
    | some first => exact lt_of_lt_of_le (h first hends) (List.le_of_mem_argmin hmem hends)

/-- The return code, where it is known, is that of the controller's end. -/
def Consistent (b : Behaviour) (m : Machine) : Prop :=
  ∀ code, m.returncode = some code →
    ∃ ending, b.ends m.trace = some ending ∧ ending.1 ≤ m.now ∧ code = ending.2.returncode

/-- The return code is known as soon as there is one. -/
def UpToDate (b : Behaviour) (m : Machine) : Prop :=
  Consistent b m ∧ (m.returncode = none ↔ b.Alive m.trace m.now)

theorem Consistent.not_alive (h : Consistent b m) {code : ℤ} (hcode : m.returncode = some code) :
    ¬ b.Alive m.trace m.now := by
  intro halive
  obtain ⟨ending, hends, hle, -⟩ := h code hcode
  exact absurd (alive_iff.mp halive ending hends) (not_lt.mpr hle)

theorem Consistent.poll (h : Consistent b m) :
    UpToDate b (poll b m) ∧ (poll b m).now = m.now ∧ (poll b m).trace = m.trace := by
  rw [Ladder.poll]
  split
  · rename_i t ending hcode hends
    split
    · rename_i hle
      refine ⟨⟨?_, ?_⟩, rfl, rfl⟩
      · intro code heq
        exact ⟨(t, ending), hends, hle, (Option.some.inj heq).symm⟩
      · simp only [reduceCtorEq, false_iff]
        intro halive
        exact absurd (alive_iff.mp halive _ hends) (not_lt.mpr hle)
    · rename_i hlt
      refine ⟨⟨h, ?_⟩, rfl, rfl⟩
      simp only [hcode, true_iff]
      rw [alive_iff]
      intro other hother
      rw [hends] at hother
      cases hother
      exact not_le.mp hlt
  · rename_i hno
    refine ⟨⟨h, ?_⟩, rfl, rfl⟩
    cases hcode : m.returncode with
    | some code => simpa using h.not_alive hcode
    | none =>
      simp only [true_iff]
      rw [alive_iff]
      intro ending hends
      exact absurd hends (hno ending.1 ending.2 hcode)

theorem Consistent.wait (h : Consistent b m) (htimeout : 0 ≤ timeout) :
    UpToDate b (wait b timeout m) ∧ m.now ≤ (wait b timeout m).now ∧
      (wait b timeout m).now ≤ m.now + timeout ∧ (wait b timeout m).trace = m.trace := by
  rw [Ladder.wait]
  split
  · rename_i code hcode
    refine ⟨⟨h, ?_⟩, le_refl _, by linarith, rfl⟩
    simpa [hcode] using h.not_alive hcode
  · rename_i hcode
    split
    · rename_i t ending hends
      split
      · rename_i hle
        refine ⟨⟨?_, ?_⟩, le_max_left _ _, max_le (by linarith) hle, rfl⟩
        · intro code heq
          exact ⟨(t, ending), hends, le_max_right _ _, (Option.some.inj heq).symm⟩
        · simp only [reduceCtorEq, false_iff]
          intro halive
          exact absurd (alive_iff.mp halive _ hends) (not_lt.mpr (le_max_right _ _))
      · rename_i hlt
        refine ⟨⟨?_, ?_⟩, by simpa using htimeout, le_refl _, rfl⟩
        · intro code heq
          rw [hcode] at heq
          cases heq
        · simp only [hcode, true_iff]
          rw [alive_iff]
          intro other hother
          rw [hends] at hother
          cases hother
          exact not_le.mp hlt
    · rename_i hends
      refine ⟨⟨?_, ?_⟩, by simpa using htimeout, le_refl _, rfl⟩
      · intro code heq
        rw [hcode] at heq
        cases heq
      · simp only [hcode, true_iff]
        rw [alive_iff]
        intro other hother
        rw [hends] at hother
        cases hother

theorem ends_record {ending : ℚ × Ending} (h : b.ends m.trace = some ending)
    (hle : ending.1 ≤ m.now) (e : Event) : b.ends (m.record e).trace = some ending := by
  have hendings : b.endings (m.record e).trace =
      b.endings m.trace ++ ((b.response e).map fun r => (m.now + r.delay, r.ending)).toList := by
    simp only [Behaviour.endings, Machine.record, List.filterMap_append, List.append_assoc]
    cases hresponse : b.response e <;> simp [hresponse]
  rw [Behaviour.ends, hendings]
  cases hresponse : b.response e with
  | none => simpa [Behaviour.ends] using h
  | some r =>
    have hnot : ¬ m.now + r.delay < ending.1 := by
      have := r.nonneg
      intro hlt
      linarith
    rw [Behaviour.ends] at h
    simp [List.argmin_concat, h, hnot]

theorem Consistent.record (h : Consistent b m) (e : Event) : Consistent b (m.record e) := by
  intro code hcode
  obtain ⟨ending, hends, hle, heq⟩ := h code hcode
  exact ⟨ending, ends_record hends hle e, hle, heq⟩

theorem Consistent.later (h : Consistent b m) (hle : m.now ≤ t) :
    Consistent b { m with now := t } := by
  intro code hcode
  obtain ⟨ending, hends, hnow, heq⟩ := h code hcode
  exact ⟨ending, hends, le_trans hnow hle, heq⟩

/-! ### The rungs one by one -/

theorem gracefulRung_spec (h : Consistent b m) (deadline : ℚ) :
    UpToDate b (gracefulRung b deadline m) ∧ m.now ≤ (gracefulRung b deadline m).now ∧
      (gracefulRung b deadline m).now ≤ m.now + max 0 (min gracefulWait (deadline - m.now)) ∧
      ((b.Alive m.trace m.now ∧
          (gracefulRung b deadline m).trace = m.trace ++ [(m.now, .gracefulStop)]) ∨
        (¬ b.Alive m.trace m.now ∧ (gracefulRung b deadline m).trace = m.trace)) := by
  obtain ⟨hpoll, hnow, htrace⟩ := h.poll
  have hzero : 0 ≤ max 0 (min gracefulWait (deadline - m.now)) := le_max_left _ _
  rw [gracefulRung]
  rw [UpToDate, hnow, htrace] at hpoll
  split
  · rename_i hnone
    have halive := hpoll.2.mp (Option.isNone_iff_eq_none.mp hnone)
    have hwait := (hpoll.1.record .gracefulStop).wait
      (le_max_left 0 (min gracefulWait (deadline - (poll b m).now)))
    rw [waitForExit]
    simp only [Machine.record, hnow, htrace] at hwait ⊢
    exact ⟨hwait.1, hwait.2.1, hwait.2.2.1, Or.inl ⟨halive, hwait.2.2.2⟩⟩
  · rename_i hsome
    have hdead : ¬ b.Alive m.trace m.now := fun halive =>
      hsome (Option.isNone_iff_eq_none.mpr (hpoll.2.mpr halive))
    rw [hnow]
    exact ⟨h.poll.1, le_refl _, by linarith, Or.inr ⟨hdead, htrace⟩⟩

/-- How long the supervisor pauses once the group has its SIGTERM. -/
def termPause (sent : Bool) (deadline t : ℚ) : ℚ :=
  if sent then max 0 (min dbWait (deadline - t)) else 0

theorem termRung_spec (h : UpToDate b m) (deadline : ℚ) :
    ∃ sent, (sent = true ↔ b.others = true ∨ b.Alive m.trace m.now) ∧
      Consistent b (termRung b deadline m) ∧
      (termRung b deadline m).now = m.now + termPause sent deadline m.now ∧
      (termRung b deadline m).trace = m.trace ++ [(m.now, .term sent)] := by
  refine ⟨groupThere b m, ?_, ?_⟩
  · rw [groupThere, Bool.or_eq_true, Option.isNone_iff_eq_none, h.2]
  · have hrecord := h.1.record (.term (groupThere b m))
    rw [termRung]
    cases hsent : groupThere b m with
    | false =>
      rw [hsent] at hrecord
      exact ⟨hrecord, by simp [Machine.record, termPause], rfl⟩
    | true =>
      rw [hsent] at hrecord
      rw [if_pos rfl, pauseUntil]
      split
      · rename_i hpos
        have hmax : max 0 (min dbWait (deadline - m.now)) = min dbWait (deadline - m.now) :=
          max_eq_right (le_of_lt hpos)
        refine ⟨hrecord.later ?_, ?_, rfl⟩
        · linarith
        · show m.now + min dbWait (deadline - m.now) = _
          rw [termPause, if_pos rfl, hmax]
      · rename_i hneg
        have hmax : max 0 (min dbWait (deadline - m.now)) = 0 := max_eq_left (not_lt.mp hneg)
        refine ⟨hrecord, ?_, rfl⟩
        show m.now = _
        rw [termPause, if_pos rfl, hmax, add_zero]

theorem killRung_spec (h : Consistent b m) :
    UpToDate b (killRung b m) ∧ m.now ≤ (killRung b m).now ∧
      (killRung b m).now ≤ m.now + killGrace ∧
      ((b.Alive m.trace m.now ∧ (killRung b m).trace = m.trace ++ [(m.now, .kill true)]) ∨
        (¬ b.Alive m.trace m.now ∧ (killRung b m).trace = m.trace)) := by
  obtain ⟨hpoll, hnow, htrace⟩ := h.poll
  rw [killRung]
  dsimp only
  rw [UpToDate, hnow, htrace] at hpoll
  split
  · rename_i hnone
    have halive := hpoll.2.mp (Option.isNone_iff_eq_none.mp hnone)
    have hthere : groupThere b (poll b m) = true := by
      rw [groupThere, hnone, Bool.or_true]
    have hgrace : max 0 (min killGrace ((poll b m).now + killGrace - (poll b m).now)) =
        killGrace := by
      rw [add_sub_cancel_left, min_self]
      exact max_eq_right (by decide)
    have hwait := (hpoll.1.record (.kill true)).wait (by decide : 0 ≤ killGrace)
    rw [waitForExit, hthere]
    simp only [Machine.record, hnow, htrace] at hwait hgrace ⊢
    rw [hgrace]
    exact ⟨hwait.1, hwait.2.1, hwait.2.2.1, Or.inl ⟨halive, hwait.2.2.2⟩⟩
  · rename_i hsome
    have hdead : ¬ b.Alive m.trace m.now := fun halive =>
      hsome (Option.isNone_iff_eq_none.mpr (hpoll.2.mpr halive))
    have hpos : 0 ≤ killGrace := by decide
    rw [hnow]
    exact ⟨h.poll.1, le_refl _, by linarith, Or.inr ⟨hdead, htrace⟩⟩

/-! ### The ladder -/

def Event.rung : Event → ℕ
  | .gracefulStop => 0
  | .term _ => 1
  | .kill _ => 2

@[simp]
theorem rung_gracefulStop : Event.gracefulStop.rung = 0 := rfl

@[simp]
theorem rung_term (sent : Bool) : (Event.term sent).rung = 1 := rfl

@[simp]
theorem rung_kill (sent : Bool) : (Event.kill sent).rung = 2 := rfl

/-- The status that the controller's end calls for; without an end in time, that of SIGTERM. -/
def Behaviour.statusAt (b : Behaviour) (trace : List (ℚ × Event)) (t : ℚ) : ℤ :=
  match b.ends trace with
  | some (time, ending) => if time ≤ t then ending.status else 128 + 15
  | none => 128 + 15

/-- What `stop` and the status owe, from where `stop` is entered to where it is left. -/
structure Escalates (b : Behaviour) (budget : ℚ) (entry final : Machine) (status : ℤ) : Prop where
  waits : final.now - entry.now ≤ min budget (gracefulWait + dbWait) + killGrace
  term_once : (final.trace.filter fun e => e.2.rung = 1).length = 1
  ordered : final.trace.Pairwise fun e f => e.2.rung < f.2.rung
  term_sent : ∀ t sent, (t, .term sent) ∈ final.trace →
    (sent = true ↔ b.others = true ∨ b.Alive (final.trace.filter fun e => e.2.rung < 1) t)
  graceful_iff : (∃ t, (t, .gracefulStop) ∈ final.trace) ↔ b.Alive [] entry.now
  kill_iff : ∀ t sent, (t, .term sent) ∈ final.trace →
    ((∃ t' sent', (t', .kill sent') ∈ final.trace) ↔
      b.Alive (final.trace.filter fun e => e.2.rung < 2)
        (t + termPause sent (entry.now + budget) t))
  kill_sent : ∀ t sent, (t, .kill sent) ∈ final.trace → sent = true
  status : status = b.statusAt final.trace final.now

theorem exitStatus_returncode (ending : Ending) :
    exitStatus (some ending.returncode) = ending.status := by
  cases ending with
  | exited code =>
    have hcode : ¬ (code : ℤ) < 0 := by omega
    simp [exitStatus, Ending.returncode, Ending.status, hcode]
  | killed signal positive =>
    have hsignal : -(signal : ℤ) < 0 := by omega
    simp only [exitStatus, Ending.returncode, Ending.status, hsignal, if_true, neg_neg]

theorem UpToDate.status (h : UpToDate b m) : exitStatus m.returncode = b.statusAt m.trace m.now := by
  rw [Behaviour.statusAt]
  cases hcode : m.returncode with
  | none =>
    have halive := alive_iff.mp (h.2.mp hcode)
    split
    · rename_i t ending hends
      rw [if_neg (not_le.mpr (halive _ hends))]
      rfl
    · rfl
  | some code =>
    obtain ⟨ending, hends, hle, heq⟩ := h.1 code hcode
    rw [hends, heq]
    simp only [hle, if_true]
    exact exitStatus_returncode ending.2

theorem termPause_le (sent : Bool) (hle : t ≤ deadline) :
    t + termPause sent deadline t ≤ deadline ∧ termPause sent deadline t ≤ dbWait := by
  have hpos : 0 ≤ dbWait := by decide
  rw [termPause]
  split
  · have hmin : min dbWait (deadline - t) ≤ deadline - t := min_le_right _ _
    have hmax : max 0 (min dbWait (deadline - t)) ≤ deadline - t :=
      max_le (by linarith) hmin
    exact ⟨by linarith, max_le hpos (min_le_left _ _)⟩
  · exact ⟨by linarith, hpos⟩

/-- Of events on one rung, a test of the rung keeps all or none. -/
theorem filter_rung {trace : List (ℚ × Event)} {k : ℕ} (h : ∀ e ∈ trace, e.2.rung = k)
    (p : ℕ → Bool) : trace.filter (fun e => p e.2.rung) = if p k = true then trace else [] := by
  split
  · rename_i hp
    exact List.filter_eq_self.mpr fun e he => by rw [h e he, hp]
  · rename_i hp
    exact List.filter_eq_nil_iff.mpr fun e he => by rwa [h e he]

section

variable {graceful kills : List (ℚ × Event)} {t t' : ℚ} {sent sent' : Bool}

theorem filter_climb (hgraceful : ∀ e ∈ graceful, e.2 = .gracefulStop)
    (hkills : ∀ e ∈ kills, e.2 = .kill true) (p : ℕ → Bool) :
    (graceful ++ (t, .term sent) :: kills).filter (fun e => p e.2.rung) =
      (if p 0 = true then graceful else []) ++ ((if p 1 = true then [(t, .term sent)] else []) ++
        if p 2 = true then kills else []) := by
  have hbefore : ∀ e ∈ graceful, e.2.rung = 0 := by
    intro e he
    rw [hgraceful e he, rung_gracefulStop]
  have hterm : ∀ e ∈ [(t, Event.term sent)], e.2.rung = 1 := by simp
  have hafter : ∀ e ∈ kills, e.2.rung = 2 := by
    intro e he
    rw [hkills e he, rung_kill]
  have happend : (t, Event.term sent) :: kills = [(t, Event.term sent)] ++ kills := rfl
  rw [happend, List.filter_append, List.filter_append, filter_rung hbefore, filter_rung hterm,
    filter_rung hafter]

theorem term_mem_climb (hgraceful : ∀ e ∈ graceful, e.2 = .gracefulStop)
    (hkills : ∀ e ∈ kills, e.2 = .kill true)
    (h : (t', .term sent') ∈ graceful ++ (t, .term sent) :: kills) : t' = t ∧ sent' = sent := by
  rcases List.mem_append.mp h with h | h
  · cases hgraceful _ h
  · rcases List.mem_cons.mp h with h | h
    · cases h
      exact ⟨rfl, rfl⟩
    · cases hkills _ h

end

theorem escalates_of_trace {entry final first second : Machine} {budget : ℚ} {status : ℤ}
    {sent : Bool}
    (hwaits : final.now - entry.now ≤ min budget (gracefulWait + dbWait) + killGrace)
    (hstatus : status = b.statusAt final.trace final.now)
    (hfirst : (b.Alive [] entry.now ∧ first.trace = [(entry.now, .gracefulStop)]) ∨
      (¬ b.Alive [] entry.now ∧ first.trace = []))
    (hsent : sent = true ↔ b.others = true ∨ b.Alive first.trace first.now)
    (hpause : second.now = first.now + termPause sent (entry.now + budget) first.now)
    (hsecond : second.trace = first.trace ++ [(first.now, .term sent)])
    (hthird : (b.Alive second.trace second.now ∧
        final.trace = second.trace ++ [(second.now, .kill true)]) ∨
      (¬ b.Alive second.trace second.now ∧ final.trace = second.trace)) :
    Escalates b budget entry final status := by
  obtain ⟨kills, htrace, hkill⟩ : ∃ kills,
      final.trace = first.trace ++ (first.now, .term sent) :: kills ∧
        ((b.Alive second.trace second.now ∧ kills = [(second.now, .kill true)]) ∨
          (¬ b.Alive second.trace second.now ∧ kills = [])) := by
    rcases hthird with ⟨halive, h⟩ | ⟨hdead, h⟩
    · exact ⟨_, by rw [h, hsecond, List.append_assoc, List.singleton_append], .inl ⟨halive, rfl⟩⟩
    · exact ⟨_, by rw [h, hsecond], .inr ⟨hdead, rfl⟩⟩
  have hgraceful : ∀ e ∈ first.trace, e.2 = .gracefulStop := by
    rcases hfirst with ⟨-, h⟩ | ⟨-, h⟩ <;> simp [h]
  have hkills : ∀ e ∈ kills, e.2 = .kill true := by
    rcases hkill with ⟨-, rfl⟩ | ⟨-, rfl⟩ <;> simp
  have hterm : ∀ t sent', (t, .term sent') ∈ final.trace → t = first.now ∧ sent' = sent :=
    fun t sent' hmem => term_mem_climb hgraceful hkills (htrace ▸ hmem)
  constructor
  · exact hwaits
  · rw [htrace, filter_climb hgraceful hkills (· = 1)]
    rfl
  · rw [htrace]
    rcases hfirst with ⟨-, h⟩ | ⟨-, h⟩ <;> rcases hkill with ⟨-, rfl⟩ | ⟨-, rfl⟩ <;> simp [h]
  · intro t sent' hmem
    have hbefore : final.trace.filter (fun e => e.2.rung < 1) = first.trace := by
      rw [htrace, filter_climb hgraceful hkills (· < 1)]
      exact List.append_nil _
    rw [(hterm t sent' hmem).1, (hterm t sent' hmem).2, hbefore, hsent]
  · rw [htrace]
    rcases hfirst with ⟨halive, h⟩ | ⟨hdead, h⟩
    · exact iff_of_true ⟨entry.now, by simp [h]⟩ halive
    · refine iff_of_false ?_ hdead
      intro ⟨t, hmem⟩
      rw [h, List.nil_append, List.mem_cons] at hmem
      rcases hmem with hmem | hmem
      · cases hmem
      · cases hkills _ hmem
  · intro t sent' hmem
    have hbefore : final.trace.filter (fun e => e.2.rung < 2) = second.trace := by
      rw [htrace, filter_climb hgraceful hkills (· < 2), hsecond]
      rfl
    rw [(hterm t sent' hmem).1, (hterm t sent' hmem).2, hbefore, ← hpause, htrace]
    rcases hkill with ⟨halive, rfl⟩ | ⟨hdead, rfl⟩
    · exact iff_of_true ⟨second.now, true, by simp⟩ halive
    · refine iff_of_false ?_ hdead
      intro ⟨t', sent'', hmem⟩
      rcases List.mem_append.mp hmem with hmem | hmem
      · cases hgraceful _ hmem
      · cases List.mem_singleton.mp hmem
  · intro t sent' hmem
    rw [htrace] at hmem
    rcases List.mem_append.mp hmem with hmem | hmem
    · cases hgraceful _ hmem
    · rcases List.mem_cons.mp hmem with hmem | hmem
      · cases hmem
      · cases hkills _ hmem
        rfl
  · exact hstatus

theorem stop_escalates {entry : Machine} {budget : ℚ} (h : Consistent b entry)
    (htrace : entry.trace = []) (hbudget : 0 ≤ budget) :
    Escalates b budget entry (stop b budget entry) (exitStatus (stop b budget entry).returncode) := by
  obtain ⟨hsync, hstart, hgraceful, hfirst⟩ := gracefulRung_spec h (entry.now + budget)
  obtain ⟨sent, hsent, hterm, hpause, hsecond⟩ := termRung_spec hsync (entry.now + budget)
  obtain ⟨hend, hkillstart, hkill, hthird⟩ := killRung_spec hterm
  change UpToDate b (stop b budget entry) at hend
  change (stop b budget entry).now ≤ _ at hkill
  rw [htrace, List.nil_append] at hfirst
  have hwaits : (stop b budget entry).now - entry.now ≤
      min budget (gracefulWait + dbWait) + killGrace := by
    have hfirst : max 0 (min gracefulWait (entry.now + budget - entry.now)) =
        min gracefulWait budget := by
      rw [add_sub_cancel_left]
      exact max_eq_right (le_min (by decide) hbudget)
    rw [hfirst] at hgraceful
    have hbudgeted := min_le_right gracefulWait budget
    have hcapped := min_le_left gracefulWait budget
    have hsecond := termPause_le sent
      (by linarith : (gracefulRung b (entry.now + budget) entry).now ≤ entry.now + budget)
    have hmin : (stop b budget entry).now - entry.now - killGrace ≤
        min budget (gracefulWait + dbWait) := le_min (by linarith) (by linarith)
    linarith
  exact escalates_of_trace hwaits hend.status hfirst hsent hpause hsecond hthird

theorem supervise_consistent {signal : Option ℚ} (h : supervise b signal = some m) :
    Consistent b m ∧ m.trace = [] := by
  have howned : ∀ t ending, b.own = some (t, ending) →
      Consistent b ⟨t, [], some ending.returncode⟩ := by
    intro t ending hown code hcode
    refine ⟨(t, ending), ?_, le_refl t, (Option.some.inj hcode).symm⟩
    simp [Behaviour.ends, Behaviour.endings, hown]
  have hsignalled : ∀ s, Consistent b ⟨s, [], none⟩ := fun s code hcode => by cases hcode
  unfold supervise at h
  split at h
  · rename_i t ending hown
    cases h
    exact ⟨howned t ending hown, rfl⟩
  · rename_i t ending s hown
    split at h
    · cases h
      exact ⟨howned t ending hown, rfl⟩
    · cases h
      exact ⟨hsignalled s, rfl⟩
  · cases h
    exact ⟨hsignalled _, rfl⟩
  · cases h

/-- Whatever the controller and its group do, a run that reaches the ladder climbs it within its
bounds, in order, and reports how the controller ended. -/
theorem run_escalates (b : Behaviour) (budget : ℚ) (hbudget : 0 ≤ budget) (signal : Option ℚ)
    {entry final : Machine} {status : ℤ} (h : run b budget signal = some (entry, final, status)) :
    Escalates b budget entry final status := by
  obtain ⟨m, hm, heq⟩ := Option.map_eq_some_iff.mp h
  cases heq
  obtain ⟨hconsistent, htrace⟩ := supervise_consistent hm
  exact stop_escalates hconsistent htrace hbudget

/-- A controller that ignores everything but SIGKILL. -/
def stubborn : Behaviour :=
  ⟨none, none, none, some ⟨1, .killed 9 (by decide), zero_le_one⟩, true⟩

theorem run_escalates_stubborn :
    ∃ entry final, run stubborn 8 (some 100) = some (entry, final, 137) ∧
      Escalates stubborn 8 entry final 137 :=
  ⟨⟨100, [], none⟩, stop stubborn 8 ⟨100, [], none⟩, by decide +kernel,
    run_escalates stubborn 8 (by decide) (some 100) (by decide +kernel)⟩

end

end UnifiContainers.Ladder
