import UnifiContainers.Lib.PyText
import UnifiContainers.Lib.Traced

/-!
# Stop signals and the shutdown ladder

`Supervisor.run` from the moment the controller is spawned and recorded. A stop signal delivered at
a program point runs the handler installed at that moment, which raises `_Stop` until `stop` has
switched that signal to be ignored. The handler's exception is caught around the wait only.
-/

namespace UnifiContainers.Supervisor

open PyText Traced

inductive StopSignal where
  | term
  | int
  | hup
  deriving DecidableEq, Repr

def stopSignals : List StopSignal := [.term, .int, .hup]

def StopSignal.name : StopSignal → String
  | .term => "SIGTERM"
  | .int => "SIGINT"
  | .hup => "SIGHUP"

/-- The program points of `run` after the controller is recorded: in the try statement, in the
except clause, in `stop` with `count` signals switched to be ignored, and around its rungs. -/
inductive Point where
  | logRunning
  | wait
  | logExited
  | logCaught
  | switching (count : ℕ)
  | graceful
  | groupTerm
  | groupKill
  | logExiting
  deriving DecidableEq, Repr

abbrev Deliveries := Point → List StopSignal

inductive GroupAnswer where
  | signalled
  | empty
  | failed (error : String)
  deriving DecidableEq, Repr

/-- How the controller behaves: the code that ends an undisturbed wait, what `poll` finds before
the first and before the last rung, and what the timed waits reap. -/
structure Controller where
  pid : ℕ
  pgid : ℕ
  rundir : String
  exits : ℤ
  poll : Option ℤ
  pollAgain : Option ℤ
  stopFileError : Option String
  gracefulWait : Option ℤ
  killWait : Option ℤ
  onTerm : GroupAnswer
  onKill : GroupAnswer

inductive Event where
  | logged (line : String)
  | requestedGracefulStop
  | signalledGroup (kill : Bool)
  | escaped (sig : StopSignal)
  deriving DecidableEq, Repr

def Event.isRung : Event → Bool
  | .requestedGracefulStop | .signalledGroup _ => true
  | _ => false

/-- A rung, or a `_Stop` that escapes. -/
def Event.notable : Event → Bool
  | .logged _ => false
  | _ => true

abbrev Run := Traced Event

def log (line : String) : Run Unit := Traced.emit (.logged line)

/-- The first of the signals whose handler raises, and the ones still pending then. -/
def firstRaise (ignored : List StopSignal) : List StopSignal → Option (StopSignal × List StopSignal)
  | [] => none
  | sig :: rest => if sig ∈ ignored then firstRaise ignored rest else some (sig, rest)

/-- Signals delivered where nothing catches `_Stop`. -/
def deliver (ignored : List StopSignal) (signals : List StopSignal) : Run Unit :=
  match firstRaise ignored signals with
  | none => pure ()
  | some (sig, _) => ⟨[.escaped sig], none⟩

def showInt (n : ℤ) : String :=
  if n < 0 then "-" ++ String.ofList (str n.natAbs) else String.ofList (str n.natAbs)

/-- 128 + signal number for a death by signal; no code reads as SIGTERM. -/
def exitStatus : Option ℤ → ℤ
  | none => 128 + 15
  | some code => if code < 0 then 128 + -code else code

section

variable (d : Deliveries) (c : Controller)

/-- The body of the try statement: its log lines, the return code known when it is left, and the
signal that ended it with those still pending. -/
def tryBody : List Event × Option ℤ × Option (StopSignal × List StopSignal) :=
  let running := "controller running as pid " ++ String.ofList (str c.pid) ++ " (process group " ++
    String.ofList (str c.pgid) ++ ")"
  match firstRaise [] (d .logRunning) with
  | some raised => ([], none, some raised)
  | none =>
      match firstRaise [] (d .wait) with
      | some raised => ([.logged running], none, some raised)
      | none =>
          match firstRaise [] (d .logExited) with
          | some raised => ([.logged running], some c.exits, some raised)
          | none =>
              ([.logged running, .logged ("controller exited with " ++ showInt c.exits)],
                some c.exits, none)

def tryStatement : Run (Option ℤ) :=
  match tryBody d c with
  | (lines, code, none) => ⟨lines, some code⟩
  | (lines, code, some (sig, pending)) => do
      (⟨lines, some ()⟩ : Run Unit)
      deliver [] (pending ++ d .logCaught)
      log ("caught " ++ sig.name ++ "; stopping")
      return code

def ignoreStopSignals : Run Unit := do
  deliver (stopSignals.take 0) (d (.switching 0))
  deliver (stopSignals.take 1) (d (.switching 1))
  deliver (stopSignals.take 2) (d (.switching 2))

def reaped (code poll : Option ℤ) : Option ℤ := code.or poll

def requestGracefulStop : Run Unit := do
  Traced.emit .requestedGracefulStop
  match c.stopFileError with
  | some error => log ("could not write " ++ c.rundir ++ "/server.stop: " ++ error)
  | none => log ("requested graceful stop via " ++ c.rundir ++ "/server.stop")

def signalGroup (kill : Bool) (answer : GroupAnswer) : Run Bool := do
  Traced.emit (.signalledGroup kill)
  match answer with
  | .signalled => return true
  | .empty => return false
  | .failed error =>
      log ("killpg(" ++ String.ofList (str c.pgid) ++ ", " ++ (if kill then "9" else "15") ++ "): " ++
        error)
      return false

def gracefulRung (code : Option ℤ) : Run (Option ℤ) :=
  let found := reaped code c.poll
  if found.isNone then do
    requestGracefulStop c
    return c.gracefulWait
  else pure found

def termRung : Run Unit := do
  if ← signalGroup c false c.onTerm then
    log ("sent SIGTERM to process group " ++ String.ofList (str c.pgid))

def killRung (code : Option ℤ) : Run (Option ℤ) :=
  let found := reaped code c.pollAgain
  if found.isNone then do
    log ("controller ignored SIGTERM; SIGKILL to process group " ++ String.ofList (str c.pgid))
    let _ ← signalGroup c true c.onKill
    return c.killWait
  else pure found

/-- The rungs of `stop`; the return code known at the end. -/
def ladder (code : Option ℤ) : Run (Option ℤ) := do
  deliver stopSignals (d .graceful)
  let code ← gracefulRung c code
  deliver stopSignals (d .groupTerm)
  termRung c
  deliver stopSignals (d .groupKill)
  killRung c code

def stop (code : Option ℤ) : Run (Option ℤ) := do
  ignoreStopSignals d
  ladder d c code

/-- `run`, after the spawn. -/
def run : Run ℤ := do
  let code ← tryStatement d c
  let code ← stop d c code
  deliver stopSignals (d .logExiting)
  log ("exiting " ++ showInt (exitStatus code))
  return exitStatus code

end

/-! ### The ladder once and to its end -/

def codeAtStop (d : Deliveries) (c : Controller) : Option ℤ := (tryBody d c).2.1

def codeAfterRequest (c : Controller) (code : Option ℤ) : Option ℤ :=
  if (reaped code c.poll).isNone then c.gracefulWait else reaped code c.poll

def lastCode (c : Controller) (code : Option ℤ) : Option ℤ :=
  let found := reaped (codeAfterRequest c code) c.pollAgain
  if found.isNone then c.killWait else found

/-- The rungs of a ladder that starts with `code` known: the graceful request if the controller is
up, SIGTERM to the group, SIGKILL if it is still up. -/
def rungs (c : Controller) (code : Option ℤ) : List Event :=
  (if (reaped code c.poll).isNone then [.requestedGracefulStop] else []) ++
    ([.signalledGroup false] ++
      if (reaped (codeAfterRequest c code) c.pollAgain).isNone then [.signalledGroup true] else [])

/-- `run` executes one whole ladder and returns its exit status, and no `_Stop` leaves it. -/
structure OnceToTheEnd (d : Deliveries) (c : Controller) : Prop where
  contained : ∀ sig, .escaped sig ∉ (run d c).trace
  once : (run d c).trace.filter Event.isRung = rungs c (codeAtStop d c)
  status : (run d c).result = some (exitStatus (lastCode c (codeAtStop d c)))

def tryPoints : List Point := [.logRunning, .wait, .logExited]

/-- The signal that ends the try statement is the only one until it is logged. -/
def Caught (d : Deliveries) : Prop :=
  ∀ p ∈ tryPoints.find? (fun p => d p ≠ []), (d p).length = 1 ∧ d .logCaught = []

/-- After the try statement a signal comes only once it is ignored. -/
def Switched (d : Deliveries) : Prop :=
  ∀ count < 3, ∀ sig ∈ d (.switching count), sig ∈ stopSignals.take count

/-- No stop signal arrives where it would escape. -/
structure Quiet (d : Deliveries) : Prop where
  caught : Caught d
  switching : Switched d

section

variable {d : Deliveries} {c : Controller} {ignored signals : List StopSignal} {code : Option ℤ}

private theorem firstRaise_eq_none : firstRaise ignored signals = none ↔
    ∀ sig ∈ signals, sig ∈ ignored := by
  induction signals with
  | nil => simp [firstRaise]
  | cons sig rest ih =>
      rw [firstRaise]
      split
      · rename_i h
        simp [ih, h]
      · rename_i h
        simp [h]

private theorem deliver_quiet (h : ∀ sig ∈ signals, sig ∈ ignored) :
    deliver ignored signals = ⟨[], some ()⟩ := by
  rw [deliver, firstRaise_eq_none.mpr h]
  rfl

private theorem deliver_raises (h : ¬ ∀ sig ∈ signals, sig ∈ ignored) :
    ∃ sig, deliver ignored signals = ⟨[.escaped sig], none⟩ := by
  rw [← firstRaise_eq_none] at h
  obtain ⟨⟨sig, rest⟩, hraise⟩ := Option.ne_none_iff_exists'.mp h
  exact ⟨sig, by rw [deliver, hraise]⟩

private theorem firstRaise_handled {sig : StopSignal} {rest : List StopSignal} :
    firstRaise [] (sig :: rest) = some (sig, rest) := by
  simp [firstRaise]

private theorem tryBody_raised : (tryBody d c).2.2 =
    (tryPoints.find? fun p => d p ≠ []).bind fun p => firstRaise [] (d p) := by
  cases hr : d .logRunning with
  | cons sig rest => simp [tryBody, tryPoints, hr, firstRaise_handled]
  | nil =>
      cases hw : d .wait with
      | cons sig rest => simp [tryBody, tryPoints, hr, hw, firstRaise]
      | nil =>
          cases he : d .logExited with
          | cons sig rest => simp [tryBody, tryPoints, hr, hw, he, firstRaise]
          | nil => simp [tryBody, tryPoints, hr, hw, he, firstRaise]

private theorem tryBody_lines : (tryBody d c).1.filter Event.notable = [] := by
  unfold tryBody
  dsimp only
  repeat' split
  all_goals rfl

private theorem yields_log (line : String) : Yields Event.notable (log line) [] () :=
  Yields.emit Event.notable (.logged line)

private theorem yields_deliver (h : ∀ sig ∈ signals, sig ∈ ignored) :
    Yields Event.notable (deliver ignored signals) [] () := by
  rw [deliver_quiet h]
  exact ⟨rfl, rfl⟩

private theorem yields_deliver_ignored (signals : List StopSignal) :
    Yields Event.notable (deliver stopSignals signals) [] () :=
  yields_deliver fun sig _ => by cases sig <;> decide

/-! ### The try statement -/

private theorem tryStatement_caught (h : Caught d) :
    Yields Event.notable (tryStatement d c) [] (codeAtStop d c) := by
  have hraised := tryBody_raised (d := d) (c := c)
  have hlines := tryBody_lines (d := d) (c := c)
  rw [tryStatement, codeAtStop]
  generalize tryBody d c = body at hraised hlines
  obtain ⟨lines, code, raised⟩ := body
  cases raised with
  | none => exact ⟨rfl, hlines⟩
  | some raised =>
      obtain ⟨sig, pending⟩ := raised
      obtain ⟨p, hp, hfirst⟩ := Option.bind_eq_some_iff.mp hraised.symm
      obtain ⟨hone, hnone⟩ := h p hp
      obtain ⟨only, honly⟩ := List.length_eq_one_iff.mp hone
      rw [honly, firstRaise_handled] at hfirst
      cases hfirst
      have hbody : Yields Event.notable ⟨lines, some ()⟩ [] () := ⟨rfl, hlines⟩
      have hdeliver : Yields Event.notable (deliver [] ([] ++ d .logCaught)) [] () :=
        yields_deliver (by simp [hnone])
      exact hbody.bind_silent (hdeliver.bind_silent ((yields_log _).bind_silent (Yields.pure _ code)))

private theorem tryStatement_disturbed (h : ¬ Caught d) : (tryStatement d c).result = none := by
  obtain ⟨p, hp, hsecond⟩ : ∃ p ∈ tryPoints.find? (fun p => d p ≠ []),
      ¬ ((d p).length = 1 ∧ d .logCaught = []) := by
    simpa [Caught] using h
  have hne : d p ≠ [] := by simpa using List.find?_some hp
  obtain ⟨sig, pending, hcons⟩ := List.exists_cons_of_ne_nil hne
  have hraised : (tryBody d c).2.2 = some (sig, pending) := by
    rw [tryBody_raised, Option.mem_def.mp hp, Option.bind_some, hcons, firstRaise_handled]
  have hmore : ¬ ∀ s ∈ pending ++ d .logCaught, s ∈ ([] : List StopSignal) := by
    intro hall
    have hnil := List.eq_nil_iff_forall_not_mem.mpr fun s hs => List.not_mem_nil (hall s hs)
    obtain ⟨hpending, hlater⟩ := List.append_eq_nil_iff.mp hnil
    exact hsecond ⟨by rw [hcons, hpending]; rfl, hlater⟩
  obtain ⟨other, hescape⟩ := deliver_raises hmore
  rw [tryStatement]
  generalize tryBody d c = body at hraised
  obtain ⟨lines, code, raised⟩ := body
  cases hraised
  simp [hescape]

/-! ### `stop` -/

private theorem ignoreStopSignals_quiet (h : Switched d) :
    Yields Event.notable (ignoreStopSignals d) [] () :=
  (yields_deliver (h 0 (by omega))).bind_silent
    ((yields_deliver (h 1 (by omega))).bind_silent (yields_deliver (h 2 (by omega))))

private theorem ignoreStopSignals_disturbed (h : ¬ Switched d) :
    (ignoreStopSignals d).result = none := by
  have escape {count : ℕ}
      (hfail : ¬ ∀ sig ∈ d (.switching count), sig ∈ stopSignals.take count) :
      (deliver (stopSignals.take count) (d (.switching count))).result = none := by
    obtain ⟨sig, hescape⟩ := deliver_raises hfail
    rw [hescape]
  unfold ignoreStopSignals
  by_cases h0 : ∀ sig ∈ d (.switching 0), sig ∈ stopSignals.take 0
  · rw [(yields_deliver h0).bind_result]
    by_cases h1 : ∀ sig ∈ d (.switching 1), sig ∈ stopSignals.take 1
    · rw [(yields_deliver h1).bind_result]
      refine escape fun h2 => h fun count hcount => ?_
      match count, hcount with
      | 0, _ => exact h0
      | 1, _ => exact h1
      | 2, _ => exact h2
    · exact bind_result_none _ (escape h1)
  · exact bind_result_none _ (escape h0)

private theorem requestGracefulStop_yields :
    Yields Event.notable (requestGracefulStop c) [.requestedGracefulStop] () := by
  have hemit := Yields.emit Event.notable .requestedGracefulStop
  unfold requestGracefulStop
  cases c.stopFileError with
  | some error => exact hemit.bind (yields_log _)
  | none => exact hemit.bind (yields_log _)

private theorem signalGroup_yields (kill : Bool) (answer : GroupAnswer) :
    ∃ done, Yields Event.notable (signalGroup c kill answer) [.signalledGroup kill] done := by
  have hemit := Yields.emit Event.notable (.signalledGroup kill)
  cases answer with
  | signalled => exact ⟨true, hemit.bind (Yields.pure _ true)⟩
  | empty => exact ⟨false, hemit.bind (Yields.pure _ false)⟩
  | failed error => exact ⟨false, hemit.bind ((yields_log _).bind (Yields.pure _ false))⟩

private theorem gracefulRung_yields : Yields Event.notable (gracefulRung c code)
    (if (reaped code c.poll).isNone then [.requestedGracefulStop] else [])
    (codeAfterRequest c code) := by
  unfold gracefulRung codeAfterRequest
  dsimp only
  split
  · exact requestGracefulStop_yields.bind (Yields.pure _ _)
  · exact Yields.pure _ _

private theorem termRung_yields : Yields Event.notable (termRung c) [.signalledGroup false] () := by
  obtain ⟨done, hdone⟩ := signalGroup_yields (c := c) false c.onTerm
  unfold termRung
  cases done with
  | true => exact hdone.bind (yields_log _)
  | false => exact hdone.bind (Yields.pure _ ())

private theorem killRung_yields (c : Controller) (code : Option ℤ) :
    Yields Event.notable (killRung c code)
    (if (reaped code c.pollAgain).isNone then [.signalledGroup true] else [])
    (if (reaped code c.pollAgain).isNone then c.killWait else reaped code c.pollAgain) := by
  unfold killRung
  dsimp only
  split
  · obtain ⟨done, hdone⟩ := signalGroup_yields (c := c) true c.onKill
    exact (yields_log _).bind (hdone.bind (Yields.pure _ _))
  · exact Yields.pure _ _

private theorem ladder_yields :
    Yields Event.notable (ladder d c code) (rungs c code) (lastCode c code) := by
  have hkill := killRung_yields c (codeAfterRequest c code)
  have hterm := termRung_yields (c := c)
  exact (yields_deliver_ignored _).bind_silent (gracefulRung_yields.bind
    ((yields_deliver_ignored _).bind_silent (hterm.bind
      ((yields_deliver_ignored _).bind_silent hkill))))

/-! ### The whole run -/

private theorem run_yields (hquiet : Quiet d) :
    Yields Event.notable (run d c) (rungs c (codeAtStop d c))
      (exitStatus (lastCode c (codeAtStop d c))) := by
  have hstop : Yields Event.notable (stop d c (codeAtStop d c)) (rungs c (codeAtStop d c))
      (lastCode c (codeAtStop d c)) :=
    (ignoreStopSignals_quiet hquiet.switching).bind_silent ladder_yields
  have hexit : Yields Event.notable (do
      deliver stopSignals (d .logExiting)
      log ("exiting " ++ showInt (exitStatus (lastCode c (codeAtStop d c))))
      return exitStatus (lastCode c (codeAtStop d c))) []
      (exitStatus (lastCode c (codeAtStop d c))) :=
    (yields_deliver_ignored _).bind_silent ((yields_log _).bind_silent (Yields.pure _ _))
  rw [← List.append_nil (rungs c (codeAtStop d c))]
  exact (tryStatement_caught hquiet.caught).bind_silent (hstop.bind hexit)

private theorem run_disturbed (h : ¬ Quiet d) : (run d c).result = none := by
  by_cases hcaught : Caught d
  · have hswitched : ¬ Switched d := fun hswitched => h ⟨hcaught, hswitched⟩
    rw [run, (tryStatement_caught hcaught).bind_result]
    exact bind_result_none _ (bind_result_none _ (ignoreStopSignals_disturbed hswitched))
  · exact bind_result_none _ (tryStatement_disturbed hcaught)

private theorem rungs_isRung : ∀ e ∈ rungs c code, e.isRung = true := by
  intro e he
  unfold rungs at he
  split at he <;> split at he <;> simp at he <;> rcases he with rfl | rfl | rfl <;> rfl

end

/-- The ladder runs once and to its end exactly when no stop signal falls into a gap between the
handler states: a second one before the first is logged, or one that is not yet ignored after the
try statement. -/
theorem run_onceToTheEnd_iff (d : Deliveries) (c : Controller) : OnceToTheEnd d c ↔ Quiet d := by
  constructor
  · intro h
    by_contra hdisturbed
    exact Option.some_ne_none _ (h.status.symm.trans (run_disturbed hdisturbed))
  · intro h
    obtain ⟨hstatus, hkept⟩ := run_yields (c := c) h
    have hrungs (e : Event) (he : e ∈ (run d c).trace) (hnotable : e.notable = true) :
        e.isRung = true :=
      rungs_isRung e (hkept ▸ List.mem_filter.mpr ⟨he, hnotable⟩)
    refine ⟨fun sig hmem => Bool.false_ne_true (hrungs _ hmem rfl), ?_, hstatus⟩
    rw [← hkept]
    apply List.filter_congr
    intro e he
    cases e with
    | logged line => rfl
    | requestedGracefulStop => rfl
    | signalledGroup kill => rfl
    | escaped sig => exact (hrungs _ he rfl).trans rfl

/-! ### A second signal -/

def Deliveries.stopped (more : Deliveries) : Deliveries
  | .wait => [.term]
  | p => more p

def Controller.obedient : Controller where
  pid := 7
  pgid := 7
  rundir := "/usr/lib/unifi/run"
  exits := 0
  poll := none
  pollAgain := some 0
  stopFileError := none
  gracefulWait := some 0
  killWait := none
  onTerm := .signalled
  onKill := .signalled

example : OnceToTheEnd (Deliveries.stopped fun _ => []) .obedient :=
  ⟨fun sig => by cases sig <;> decide, by decide, by decide⟩

/-- A SIGINT while the SIGTERM is being logged ends `run` with no rung of the ladder done. -/
theorem run_not_onceToTheEnd :
    let d := Deliveries.stopped fun p => if p = .logCaught then [.int] else []
    run d .obedient = ⟨[.logged "controller running as pid 7 (process group 7)", .escaped .int],
      none⟩ ∧ ¬ OnceToTheEnd d .obedient := by
  refine ⟨by decide, fun h => h.contained .int (by decide)⟩

end UnifiContainers.Supervisor
