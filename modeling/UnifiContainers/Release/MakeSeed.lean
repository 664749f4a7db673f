import UnifiContainers.Runtime.OwnerSetup
import Mathlib.Algebra.Order.Field.Rat

/-!
# Making the seed

`make-seed` boots the base image, completes the wizard, stops the container and snapshots its
volume. What a run does to the seed file is read off the trace of its events; whoever is killed half
way has done a prefix of it.
-/

namespace UnifiContainers.MakeSeed

open OwnerSetup

/-! ### What happens in a run -/

abbrev Bytes := List UInt8

/-- How a container that was told to stop ended. -/
inductive Ended where
  | exited
  | killed
  deriving DecidableEq, Repr

inductive WizardStep where
  | addDefaultAdmin
  | setSuperIdentity
  | setInstalled
  | login
  deriving DecidableEq, Repr

inductive Event where
  | createdVolume
  | started
  | inspected (health : String) (running : Bool)
  | status (up : Bool)
  | asked (request : WizardStep) (status : ℕ)
  | stopped (ended : Ended)
  | madeParents
  | openedPartial
  | wrote (chunk : Bytes)
  | tarExited (code : ℤ)
  | removedPartial
  | renamed
  | removedContainer
  | removedVolume
  deriving DecidableEq, Repr

/-- One look at the container, and the whole seconds since the first. -/
structure Poll where
  health : String
  running : Bool
  elapsed : ℤ
  deriving DecidableEq, Repr

/-- What the controller answers the wizard; `none` is an exception that escapes the request. -/
structure Wizard where
  status : ℕ → Option Response
  addDefaultAdmin : Option Response
  setSuperIdentity : Option Response
  setInstalled : Option Response
  login : Option Response

/-- Everything that is not up to the code. A step that does not succeed raises. -/
structure Run where
  connects : Bool
  createsVolume : Bool
  starts : Bool
  /-- The successive looks at the container; after the last one the wait is interrupted. -/
  polls : List Poll
  wizard : Wizard
  /-- When the container exits once it is told to, in seconds. -/
  exitsAfter : Option ℚ
  stopReturns : Bool
  makesParents : Bool
  opensPartial : Bool
  spawns : Bool
  chunks : List Bytes
  tarCode : ℤ
  unlinks : Bool
  renames : Bool

abbrev Job := Traced Event

def raise {α : Type} : Job α := ⟨[], none⟩

def step (succeeds : Bool) (event : Event) : Job Unit :=
  if succeeds then Traced.emit event else raise

/-! ### The wizard -/

def Response.ok (response : Response) : Bool := 200 ≤ response.status && response.status < 300

/-- The field of `meta` if it has one, else of the body. -/
def metaField (name : String) : Json → Option Json
  | .object body =>
      match body.lookup "meta" with
      | some (.object fields) => (fields.lookup name).or (body.lookup name)
      | _ => body.lookup name
  | _ => none

def rcOf (body : Json) : Option Json := metaField "rc" body

/-- `rc_of(response.json()) == "ok"` -/
def rcOk (response : Response) : Bool :=
  match rcOf response.json with
  | some (.string rc) => rc = "ok"
  | _ => false

def isUp (response : Response) : Bool := ((metaField "up" response.json).map Json.truthy).getD false

def waitAttempts : ℕ := 60

/-- The attempts from number `attempt` on, `left` of them. -/
def waitUp (status : ℕ → Option Response) (attempt : ℕ) : ℕ → Job Bool
  | 0 => return false
  | left + 1 =>
      match status attempt with
      | none => raise
      | some response => do
          Traced.emit (.status (isUp response))
          if isUp response then return true
          waitUp status (attempt + 1) left

def ask (request : WizardStep) : Option Response → Job Response
  | none => raise
  | some response => do
      Traced.emit (.asked request response.status)
      return response

/-- The refusal the seed cannot continue without. -/
structure WizardError where
  request : WizardStep
  status : ℕ
  text : List Char
  deriving DecidableEq, Repr

def refusal (request : WizardStep) (response : Response) : Option WizardError :=
  some ⟨request, response.status, response.text.take 300⟩

/-- Run the wizard, up to the first refusal. A controller that never reports up, and one that does
not take its name, get no more than a warning. -/
def seed (wizard : Wizard) : Job (Option WizardError) := do
  let _ ← waitUp wizard.status 0 waitAttempts
  let added ← ask .addDefaultAdmin wizard.addDefaultAdmin
  if !Response.ok added then return refusal .addDefaultAdmin added
  let _ ← ask .setSuperIdentity wizard.setSuperIdentity
  let installed ← ask .setInstalled wizard.setInstalled
  if !Response.ok installed then return refusal .setInstalled installed
  let login ← ask .login wizard.login
  if !rcOk login then return refusal .login login
  return none

/-! ### The build -/

def healthTimeout : ℤ := 720

def stopTimeout : ℚ := 120

/-- Poll until the container is healthy. -/
def waitHealthy (timeout : ℤ) : List Poll → Job Bool
  | [] => raise
  | poll :: polls => do
      Traced.emit (.inspected poll.health poll.running)
      if poll.health = "healthy" then return true
      if !poll.running then return false
      if timeout ≤ poll.elapsed then return false
      waitHealthy timeout polls

/-- The daemon kills what has not exited within the timeout. -/
def endOf (exitsAfter : Option ℚ) : Ended :=
  match exitsAfter with
  | some seconds => if seconds ≤ stopTimeout then .exited else .killed
  | none => .killed

/-- `container.stop`, which returns either way. -/
def stop (run : Run) : Job Unit := step run.stopReturns (.stopped (endOf run.exitsAfter))

/-- Tar the volume to a partial file, renamed into place. -/
def snapshot (run : Run) : Job Unit := do
  step run.opensPartial .openedPartial
  if !run.spawns then raise
  (⟨run.chunks.map .wrote, some ()⟩ : Job Unit)
  Traced.emit (.tarExited run.tarCode)
  if run.tarCode ≠ 0 then
    step run.unlinks .removedPartial
    raise
  else step run.renames .renamed

/-- The `try` block: the exit status, or an exception that is no `WizardError`. -/
def attempt (run : Run) : Job ℤ := do
  step run.starts .started
  if !(← waitHealthy healthTimeout run.polls) then return 1
  match ← seed run.wizard with
  | some _ => return 1
  | none =>
      stop run
      step run.makesParents .madeParents
      snapshot run
      return 0

/-- The `finally` block, which does not fail. -/
def cleanup {α : Type} (job : Job α) : Job α :=
  ⟨job.trace ++ [.removedContainer, .removedVolume], job.result⟩

def build (run : Run) : Job ℤ := do
  if !run.connects then raise
  step run.createsVolume .createdVolume
  cleanup (attempt run)

/-! ### The files -/

/-- `seed.tgz` and the file that is renamed to it. -/
structure Files where
  seed : Option Bytes
  draft : Option Bytes
  deriving DecidableEq, Repr

def Files.after (files : Files) : Event → Files
  | .openedPartial => { files with draft := some [] }
  | .wrote chunk => { files with draft := files.draft.map (· ++ chunk) }
  | .removedPartial => { files with draft := none }
  | .renamed => ⟨files.draft, none⟩
  | _ => files

def filesAfter (files : Files) (trace : List Event) : Files := trace.foldl Files.after files

section

variable {files : Files} {trace : List Event}

theorem filesAfter_append (files : Files) (trace more : List Event) :
    filesAfter files (trace ++ more) = filesAfter (filesAfter files trace) more := List.foldl_append

theorem seed_after {event : Event} (h : event ≠ .renamed) : (files.after event).seed = files.seed := by
  cases event with
  | renamed => exact absurd rfl h
  | _ => rfl

/-- Only the rename changes the seed. -/
theorem seed_filesAfter (h : .renamed ∉ trace) : (filesAfter files trace).seed = files.seed := by
  induction trace generalizing files with
  | nil => rfl
  | cons event trace ih =>
    have hevent : event ≠ .renamed := fun heq => h (heq ▸ List.mem_cons_self)
    show (filesAfter (files.after event) trace).seed = files.seed
    rw [ih fun hmem => h (List.mem_cons_of_mem event hmem), seed_after hevent]

theorem draft_wrote (files : Files) (chunks : List Bytes) :
    (filesAfter files (chunks.map .wrote)).draft = files.draft.map (· ++ chunks.flatten) := by
  induction chunks generalizing files with
  | nil => cases h : files.draft <;> simp [filesAfter, h]
  | cons chunk chunks ih =>
    show (filesAfter (files.after (.wrote chunk)) (chunks.map .wrote)).draft = _
    rw [ih]
    cases h : files.draft <;> simp [Files.after, h]

end

/-! ### How far a run gets -/

/-- The events that do not come from the snapshot. -/
def Quiet (trace : List Event) : Prop := .renamed ∉ trace

/-- The job renames nothing, and returns this value exactly under the condition. -/
structure Passes {α : Type} (job : Job α) (value : α) (condition : Prop) : Prop where
  quiet : Quiet job.trace
  result : job.result = some value ↔ condition

/-- The job ends with the events exactly under the condition, and renames nothing else. -/
structure LeadsTo {α : Type} (job : Job α) (condition : Prop) (events : List Event) : Prop where
  reached : condition → ∃ before, Quiet before ∧ job.trace = before ++ events
  quiet : ¬ condition → Quiet job.trace

section

variable {α β : Type} {x : Job α} {f : α → Job β} {a : α} {b : β} {p q : Prop}
  {events : List Event}

theorem Quiet.append {before after : List Event} (hbefore : Quiet before) (hafter : Quiet after) :
    Quiet (before ++ after) := by
  intro hmem
  rcases List.mem_append.mp hmem with hmem | hmem
  · exact hbefore hmem
  · exact hafter hmem

theorem Passes.bind (hx : Passes x a p) (hf : Passes (f a) b q)
    (hother : ∀ c, c ≠ a → Passes (f c) b False) : Passes (x >>= f) b (p ∧ q) := by
  obtain ⟨trace, result⟩ := x
  cases result with
  | none =>
    have hp : ¬ p := fun h => nomatch hx.result.mpr h
    exact ⟨hx.quiet, iff_of_false nofun fun h => hp h.1⟩
  | some c =>
    rw [Traced.bind_some]
    by_cases hc : c = a
    · subst hc
      exact ⟨hx.quiet.append hf.quiet, hf.result.trans (and_iff_right (hx.result.mp rfl)).symm⟩
    · have hp : ¬ p := fun h => hc (Option.some.inj (hx.result.mpr h))
      have hfail := hother c hc
      exact ⟨hx.quiet.append hfail.quiet, iff_of_false hfail.result.mp fun h => hp h.1⟩

theorem LeadsTo.bind (hx : Passes x a p) (hf : LeadsTo (f a) q events)
    (hother : ∀ c, c ≠ a → Quiet (f c).trace) : LeadsTo (x >>= f) (p ∧ q) events := by
  obtain ⟨trace, result⟩ := x
  cases result with
  | none =>
    have hp : ¬ p := fun h => nomatch hx.result.mpr h
    exact ⟨fun h => absurd h.1 hp, fun _ => hx.quiet⟩
  | some c =>
    rw [Traced.bind_some]
    by_cases hc : c = a
    · subst hc
      have hp : p := hx.result.mp rfl
      constructor
      · intro h
        obtain ⟨before, hbefore, htrace⟩ := hf.reached h.2
        exact ⟨trace ++ before, hx.quiet.append hbefore, by rw [htrace, List.append_assoc]⟩
      · intro h
        exact hx.quiet.append (hf.quiet fun hq => h ⟨hp, hq⟩)
    · have hp : ¬ p := fun h => hc (Option.some.inj (hx.result.mpr h))
      exact ⟨fun h => absurd h.1 hp, fun _ => hx.quiet.append (hother c hc)⟩

theorem Passes.congr (hx : Passes x a p) (h : p ↔ q) : Passes x a q := ⟨hx.quiet, hx.result.trans h⟩

theorem passes_pure {c : α} (h : c = a ↔ p) : Passes (pure c : Job α) a p :=
  ⟨List.not_mem_nil, (Option.some_inj (a := c) (b := a)).trans h⟩

theorem passes_step {event : Event} (succeeds : Bool) (h : event ≠ .renamed) :
    Passes (step succeeds event) () (succeeds = true) := by
  cases succeeds with
  | false => exact ⟨List.not_mem_nil, iff_of_false nofun nofun⟩
  | true => exact ⟨fun hmem => h (List.mem_singleton.mp hmem).symm, iff_of_true rfl rfl⟩

/-- A stage that any answer passes. -/
theorem Passes.bind_any (hquiet : Quiet x.trace) (hx : x.result.isSome = true ↔ p)
    (hf : ∀ c, Passes (f c) b q) : Passes (x >>= f) b (p ∧ q) := by
  obtain ⟨trace, result⟩ := x
  cases result with
  | none =>
    have hp : ¬ p := fun h => nomatch hx.mpr h
    exact ⟨hquiet, iff_of_false nofun fun h => hp h.1⟩
  | some c =>
    rw [Traced.bind_some]
    exact ⟨hquiet.append (hf c).quiet, (hf c).result.trans (and_iff_right (hx.mp rfl)).symm⟩

theorem passes_ask {request : WizardStep} {answer : Option Response} {f : Response → Job β}
    {q : Response → Prop} (hf : ∀ response, Passes (f response) b (q response)) :
    Passes (ask request answer >>= f) b (∃ response, answer = some response ∧ q response) := by
  cases answer with
  | none => exact ⟨List.not_mem_nil, iff_of_false nofun fun h => by obtain ⟨_, h, _⟩ := h; cases h⟩
  | some response =>
    have hasked : Quiet [.asked request response.status] := by
      intro hmem
      cases List.mem_singleton.mp hmem
    rw [show ask request (some response) = ⟨[.asked request response.status], some response⟩
      from rfl, Traced.bind_some]
    refine ⟨hasked.append (hf response).quiet, (hf response).result.trans ?_⟩
    simp

/-- A refusal ends the job with another value. -/
theorem passes_unless {accepted : Bool} {refused : α} (hrefused : refused ≠ a)
    (hx : Passes x a p) :
    Passes (if !accepted then pure refused else x) a (accepted = true ∧ p) := by
  cases accepted with
  | false => exact passes_pure (iff_of_false hrefused nofun)
  | true => exact hx.congr (and_iff_right rfl).symm

end

/-! ### The stages -/

/-- The wait ends at a look that finds the container healthy. -/
def SeenHealthy (timeout : ℤ) : List Poll → Prop
  | [] => False
  | poll :: polls => poll.health = "healthy" ∨
      poll.running = true ∧ poll.elapsed < timeout ∧ SeenHealthy timeout polls

/-- No request raises before the controller reports up or the attempts are used up. -/
def Waited (status : ℕ → Option Response) (attempt : ℕ) : ℕ → Prop
  | 0 => True
  | left + 1 => ∃ response, status attempt = some response ∧
      (isUp response = true ∨ Waited status (attempt + 1) left)

/-- Every request completes, and the wizard's own steps are accepted. -/
structure WizardDone (wizard : Wizard) : Prop where
  waited : Waited wizard.status 0 waitAttempts
  added : ∃ response, wizard.addDefaultAdmin = some response ∧ Response.ok response = true
  named : ∃ response, wizard.setSuperIdentity = some response
  installed : ∃ response, wizard.setInstalled = some response ∧ Response.ok response = true
  login : ∃ response, wizard.login = some response ∧ rcOk response = true

section

variable {run : Run}

theorem passes_waitHealthy (timeout : ℤ) (polls : List Poll) :
    Passes (waitHealthy timeout polls) true (SeenHealthy timeout polls) := by
  induction polls with
  | nil => exact ⟨List.not_mem_nil, iff_of_false nofun id⟩
  | cons poll polls ih =>
    have hemit : Passes (Traced.emit (.inspected poll.health poll.running)) () True :=
      (passes_step true (by nofun)).congr (iff_of_true rfl trivial)
    have hrest : Passes (if poll.health = "healthy" then pure true
        else if !poll.running then pure false
        else if timeout ≤ poll.elapsed then pure false
        else waitHealthy timeout polls) true (SeenHealthy timeout (poll :: polls)) := by
      rw [SeenHealthy]
      by_cases hhealth : poll.health = "healthy"
      · rw [if_pos hhealth]
        exact passes_pure (iff_of_true rfl (.inl hhealth))
      · rw [if_neg hhealth]
        refine (passes_unless Bool.false_ne_true ?_).congr (or_iff_right hhealth).symm
        by_cases hlate : timeout ≤ poll.elapsed
        · rw [if_pos hlate]
          exact passes_pure (iff_of_false nofun fun h => absurd h.1 (not_lt.mpr hlate))
        · rw [if_neg hlate]
          exact ih.congr (and_iff_right (not_le.mp hlate)).symm
    exact (hemit.bind hrest nofun).congr (and_iff_right trivial)

theorem waitUp_waited (status : ℕ → Option Response) (attempt left : ℕ) :
    Quiet (waitUp status attempt left).trace ∧
      ((waitUp status attempt left).result.isSome = true ↔ Waited status attempt left) := by
  induction left generalizing attempt with
  | zero => exact ⟨List.not_mem_nil, iff_of_true rfl trivial⟩
  | succ left ih =>
    rw [Waited]
    cases hstatus : status attempt with
    | none =>
      rw [waitUp, hstatus]
      refine ⟨List.not_mem_nil, iff_of_false nofun fun h => ?_⟩
      obtain ⟨_, h, _⟩ := h
      cases h
    | some response =>
      have hone : Quiet [Event.status (isUp response)] := by
        intro hmem
        cases List.mem_singleton.mp hmem
      have hrun : waitUp status attempt (left + 1) =
          (⟨[.status (isUp response)], some ()⟩ : Job Unit) >>= fun _ =>
            if isUp response = true then pure true else waitUp status (attempt + 1) left := by
        rw [waitUp, hstatus]
        rfl
      rw [hrun, Traced.bind_some]
      by_cases hup : isUp response = true
      · rw [if_pos hup]
        exact ⟨hone.append List.not_mem_nil, iff_of_true rfl ⟨response, rfl, .inl hup⟩⟩
      · rw [if_neg hup]
        obtain ⟨hquiet, hsome⟩ := ih (attempt + 1)
        refine ⟨hone.append hquiet, hsome.trans ?_⟩
        constructor
        · intro h
          exact ⟨response, rfl, .inr h⟩
        · intro h
          obtain ⟨other, hother, h⟩ := h
          cases hother
          exact h.resolve_left hup

theorem refusal_ne_none (request : WizardStep) (response : Response) :
    refusal request response ≠ none := Option.some_ne_none _

theorem passes_seed (wizard : Wizard) : Passes (seed wizard) none (WizardDone wizard) := by
  obtain ⟨hquiet, hwaited⟩ := waitUp_waited wizard.status 0 waitAttempts
  rw [seed]
  refine Passes.congr (Passes.bind_any hquiet hwaited fun _ => passes_ask fun added =>
    passes_unless (refusal_ne_none _ _) (passes_ask fun named => passes_ask fun installed =>
      passes_unless (refusal_ne_none _ _) (passes_ask fun login =>
        passes_unless (refusal_ne_none _ _) (passes_pure (iff_of_true rfl trivial))))) ?_
  constructor
  · intro h
    obtain ⟨hwaited, added, hadded, hok, named, hnamed, installed, hinstalled, hok', login, hlogin,
      hrc, -⟩ := h
    exact ⟨hwaited, ⟨added, hadded, hok⟩, ⟨named, hnamed⟩, ⟨installed, hinstalled, hok'⟩,
      ⟨login, hlogin, hrc⟩⟩
  · intro h
    obtain ⟨hwaited, ⟨added, hadded, hok⟩, ⟨named, hnamed⟩, ⟨installed, hinstalled, hok'⟩,
      ⟨login, hlogin, hrc⟩⟩ := h
    exact ⟨hwaited, added, hadded, hok, named, hnamed, installed, hinstalled, hok', login, hlogin,
      hrc, trivial⟩

/-- Everything succeeds up to the snapshot. -/
structure Reaches (run : Run) : Prop where
  connects : run.connects = true
  createsVolume : run.createsVolume = true
  starts : run.starts = true
  healthy : SeenHealthy healthTimeout run.polls
  wizard : WizardDone run.wizard
  stopReturns : run.stopReturns = true
  makesParents : run.makesParents = true

theorem leadsTo_snapshot : LeadsTo (snapshot run >>= fun _ => pure (0 : ℤ)) True
    (snapshot run).trace := by
  refine ⟨fun _ => ⟨[], List.not_mem_nil, ?_⟩, fun h => absurd trivial h⟩
  rw [List.nil_append]
  generalize snapshot run = job
  obtain ⟨trace, result⟩ := job
  cases result with
  | none => rfl
  | some _ => exact List.append_nil trace

theorem leadsTo_attempt : LeadsTo (attempt run) (run.starts = true ∧
    SeenHealthy healthTimeout run.polls ∧ WizardDone run.wizard ∧ run.stopReturns = true ∧
      run.makesParents = true ∧ True) (snapshot run).trace := by
  have hquiet : Quiet (pure 1 : Job ℤ).trace := List.not_mem_nil
  have hstop : Passes (stop run) () (run.stopReturns = true) := passes_step _ (by nofun)
  refine LeadsTo.bind (passes_step _ (by nofun)) ?_ (fun c hc => absurd rfl hc)
  refine LeadsTo.bind (passes_waitHealthy _ _) ?_ ?_
  · refine LeadsTo.bind (passes_seed _) ?_ ?_
    · refine LeadsTo.bind hstop ?_ (fun c hc => absurd rfl hc)
      exact LeadsTo.bind (passes_step _ (by nofun)) leadsTo_snapshot (fun c hc => absurd rfl hc)
    · intro c hc
      cases c with
      | none => exact absurd rfl hc
      | some refused => exact hquiet
  · intro c hc
    cases c with
    | true => exact absurd rfl hc
    | false => exact hquiet

theorem quiet_cleanup : Quiet [.removedContainer, .removedVolume] := by
  intro hmem
  cases hmem with
  | tail _ hmem =>
    cases hmem with
    | tail _ hmem => cases hmem

theorem LeadsTo.cleanup {α : Type} {job : Job α} {p : Prop} {events : List Event}
    (h : LeadsTo job p events) :
    LeadsTo (cleanup job) p (events ++ [.removedContainer, .removedVolume]) := by
  constructor
  · intro hp
    obtain ⟨before, hbefore, htrace⟩ := h.reached hp
    refine ⟨before, hbefore, ?_⟩
    show job.trace ++ _ = _
    rw [htrace, List.append_assoc]
  · intro hp
    exact (h.quiet hp).append quiet_cleanup

/-- The snapshot comes after everything else has succeeded, or not at all. -/
theorem leadsTo_build (run : Run) : LeadsTo (build run) (Reaches run)
    ((snapshot run).trace ++ [.removedContainer, .removedVolume]) := by
  have hrest : LeadsTo (step run.createsVolume .createdVolume >>= fun _ => cleanup (attempt run))
      (run.createsVolume = true ∧ run.starts = true ∧ SeenHealthy healthTimeout run.polls ∧
        WizardDone run.wizard ∧ run.stopReturns = true ∧ run.makesParents = true ∧ True)
      ((snapshot run).trace ++ [.removedContainer, .removedVolume]) :=
    LeadsTo.bind (passes_step _ (by nofun)) leadsTo_attempt.cleanup fun c hc => absurd rfl hc
  rw [build]
  cases hconnects : run.connects with
  | false =>
    refine ⟨fun h => ?_, fun _ => List.not_mem_nil⟩
    cases hconnects.symm.trans h.connects
  | true =>
    constructor
    · intro h
      exact hrest.reached ⟨h.createsVolume, h.starts, h.healthy, h.wizard, h.stopReturns,
        h.makesParents, trivial⟩
    · intro h
      refine hrest.quiet fun hall => h ?_
      obtain ⟨hvolume, hstarts, hhealthy, hwizard, hstop, hparents, -⟩ := hall
      exact ⟨hconnects, hvolume, hstarts, hhealthy, hwizard, hstop, hparents⟩

/-! ### What becomes of the seed -/

/-- Everything succeeds, the snapshot included. -/
structure Completes (run : Run) : Prop extends Reaches run where
  opensPartial : run.opensPartial = true
  spawns : run.spawns = true
  tar : run.tarCode = 0
  renames : run.renames = true

/-- The events up to the rename. -/
def drafted (chunks : List Bytes) : List Event :=
  [.openedPartial] ++ chunks.map .wrote ++ [.tarExited 0]

theorem quiet_wrote (chunks : List Bytes) : Quiet (chunks.map .wrote) := by
  intro hmem
  obtain ⟨chunk, -, heq⟩ := List.mem_map.mp hmem
  cases heq

theorem quiet_one {event : Event} (h : event ≠ .renamed) : Quiet [event] := fun hmem =>
  h (List.mem_singleton.mp hmem).symm

theorem draft_drafted (files : Files) (chunks : List Bytes) :
    (filesAfter files (drafted chunks)).draft = some chunks.flatten := by
  rw [drafted, filesAfter_append, filesAfter_append]
  show (filesAfter _ (chunks.map .wrote)).draft = _
  rw [draft_wrote]
  rfl

/-- What the tar step does with the partial file in the end. -/
theorem snapshot_ended (run : Run) (hopens : run.opensPartial = true) (hspawns : run.spawns = true) :
    (snapshot run).trace = [.openedPartial] ++ (run.chunks.map .wrote ++ ([.tarExited run.tarCode] ++
      (if run.tarCode ≠ 0 then step run.unlinks .removedPartial >>= fun _ => raise
        else step run.renames .renamed : Job Unit).trace)) := by
  rw [snapshot, hopens, hspawns]
  rfl

/-- The snapshot renames the whole output of a tar that exited 0, or nothing. -/
theorem snapshot_trace (run : Run) :
    (run.opensPartial = true ∧ run.spawns = true ∧ run.tarCode = 0 ∧ run.renames = true →
      (snapshot run).trace = drafted run.chunks ++ [.renamed]) ∧
    (¬ (run.opensPartial = true ∧ run.spawns = true ∧ run.tarCode = 0 ∧ run.renames = true) →
      Quiet (snapshot run).trace) := by
  constructor
  · intro h
    obtain ⟨hopens, hspawns, htar, hrenames⟩ := h
    rw [snapshot_ended run hopens hspawns, htar, hrenames, drafted]
    simp [step, Traced.emit]
  · intro h
    by_cases hopens : run.opensPartial = true
    · have hopened : Quiet [.openedPartial] := quiet_one (by simp)
      by_cases hspawns : run.spawns = true
      · rw [snapshot_ended run hopens hspawns]
        refine hopened.append ((quiet_wrote run.chunks).append ((quiet_one (by simp)).append ?_))
        by_cases htar : run.tarCode = 0
        · have hrenames : run.renames = false :=
            Bool.eq_false_iff.mpr fun hrenames => h ⟨hopens, hspawns, htar, hrenames⟩
          rw [if_neg (not_not.mpr htar), hrenames]
          exact List.not_mem_nil
        · rw [if_pos htar]
          cases run.unlinks with
          | false => exact List.not_mem_nil
          | true => exact quiet_one (by simp)
      · rw [snapshot, hopens, Bool.eq_false_iff.mpr hspawns]
        exact hopened
    · rw [snapshot, Bool.eq_false_iff.mpr hopens]
      exact List.not_mem_nil

/-- A run that completes renames the whole output of tar, once; another one renames nothing. -/
theorem build_trace (run : Run) :
    (Completes run → ∃ before after, Quiet before ∧ Quiet after ∧
      (build run).trace = before ++ drafted run.chunks ++ .renamed :: after) ∧
    (¬ Completes run → Quiet (build run).trace) := by
  obtain ⟨hreached, hquiet⟩ := leadsTo_build run
  obtain ⟨hrenamed, hkept⟩ := snapshot_trace run
  constructor
  · intro h
    obtain ⟨before, hbefore, htrace⟩ := hreached h.toReaches
    refine ⟨before, [.removedContainer, .removedVolume], hbefore, quiet_cleanup, ?_⟩
    rw [htrace, hrenamed ⟨h.opensPartial, h.spawns, h.tar, h.renames⟩]
    simp
  · intro h
    by_cases hreaches : Reaches run
    · obtain ⟨before, hbefore, htrace⟩ := hreached hreaches
      rw [htrace]
      refine hbefore.append ((hkept fun hall => h ?_).append quiet_cleanup)
      obtain ⟨hopens, hspawns, htar, hrenames⟩ := hall
      exact ⟨hreaches, hopens, hspawns, htar, hrenames⟩
    · exact hquiet hreaches

/-- What a run may do with the seed file. -/
structure OnlyClean (run : Run) (files : Files) : Prop where
  /-- At every moment the file is the old one or the complete new one. -/
  whole : ∀ before after, (build run).trace = before ++ after →
    (filesAfter files before).seed = files.seed ∨
      (filesAfter files before).seed = some run.chunks.flatten
  /-- It is replaced only in a run with a finished, cleanly stopped controller. -/
  replaced : .renamed ∈ (build run).trace → SeenHealthy healthTimeout run.polls ∧
    (∃ response, run.wizard.login = some response ∧ rcOk response = true) ∧
      endOf run.exitsAfter = .exited ∧ run.tarCode = 0
  untouched : .renamed ∉ (build run).trace → (filesAfter files (build run).trace).seed = files.seed

theorem seed_renamed (files : Files) {before after : List Event} (chunks : List Bytes)
    (hafter : Quiet after) :
    (filesAfter files (before ++ drafted chunks ++ .renamed :: after)).seed =
      some chunks.flatten := by
  rw [filesAfter_append, filesAfter_append]
  show (filesAfter ((filesAfter _ (drafted chunks)).after .renamed) after).seed = _
  rw [seed_filesAfter hafter]
  exact draft_drafted _ chunks

theorem build_whole (run : Run) (files : Files) (before after : List Event)
    (h : (build run).trace = before ++ after) :
    (filesAfter files before).seed = files.seed ∨
      (filesAfter files before).seed = some run.chunks.flatten := by
  obtain ⟨hrenamed, hquiet⟩ := build_trace run
  by_cases hcompletes : Completes run
  · obtain ⟨start, rest, hstart, hrest, htrace⟩ := hrenamed hcompletes
    have hdrafted : Quiet (start ++ drafted run.chunks) :=
      hstart.append (((quiet_one (by nofun)).append (quiet_wrote _)).append (quiet_one (by nofun)))
    rw [htrace] at h
    rcases List.append_eq_append_iff.mp h with ⟨more, hbefore, hmore⟩ | ⟨more, hbefore, -⟩
    · cases more with
      | nil =>
        rw [hbefore, List.append_nil]
        exact .inl (seed_filesAfter hdrafted)
      | cons event more =>
        obtain ⟨hevent, hlater⟩ := List.cons.inj hmore
        subst hevent
        rw [hbefore]
        refine .inr (seed_renamed files run.chunks fun hmem => hrest ?_)
        rw [hlater]
        exact List.mem_append_left after hmem
    · refine .inl (seed_filesAfter fun hmem => hdrafted ?_)
      rw [hbefore]
      exact List.mem_append_left more hmem
  · refine .inl (seed_filesAfter fun hmem => hquiet hcompletes ?_)
    rw [h]
    exact List.mem_append_left after hmem

/-- Only a finished and cleanly stopped controller is ever snapshotted, exactly if the container
exits on its own in time in every run that gets to the snapshot and through it. -/
theorem onlyClean_iff (run : Run) (files : Files) :
    OnlyClean run files ↔ (Completes run → endOf run.exitsAfter = .exited) := by
  obtain ⟨hrenamed, hquiet⟩ := build_trace run
  constructor
  · intro h hcompletes
    obtain ⟨before, after, -, -, htrace⟩ := hrenamed hcompletes
    refine (h.replaced ?_).2.2.1
    rw [htrace]
    simp
  · intro h
    refine ⟨build_whole run files, fun hmem => ?_, seed_filesAfter⟩
    have hcompletes : Completes run := by
      by_contra hnot
      exact hquiet hnot hmem
    exact ⟨hcompletes.healthy, hcompletes.wizard.login, h hcompletes, hcompletes.tar⟩

/-- A run in which every step succeeds and the controller does not come down. -/
def hangingRun : Run where
  connects := true
  createsVolume := true
  starts := true
  polls := [⟨"starting", true, 0⟩, ⟨"healthy", true, 5⟩]
  wizard :=
    { status := fun _ => some ⟨200, [], some (.object [("meta", .object [("up", .bool true)])])⟩
      addDefaultAdmin := some ⟨200, [], none⟩
      setSuperIdentity := some ⟨200, [], none⟩
      setInstalled := some ⟨200, [], none⟩
      login := some ⟨200, [], some (.object [("meta", .object [("rc", .string "ok")])])⟩ }
  exitsAfter := none
  stopReturns := true
  makesParents := true
  opensPartial := true
  spawns := true
  chunks := [[31, 139]]
  tarCode := 0
  unlinks := true
  renames := true

theorem completes_hangingRun : Completes hangingRun where
  connects := rfl
  createsVolume := rfl
  starts := rfl
  healthy := .inr ⟨rfl, by decide, .inl rfl⟩
  wizard := ⟨⟨_, rfl, .inl rfl⟩, ⟨_, rfl, rfl⟩, ⟨_, rfl⟩, ⟨_, rfl, rfl⟩, ⟨_, rfl, rfl⟩⟩
  stopReturns := rfl
  makesParents := rfl
  opensPartial := rfl
  spawns := rfl
  tar := rfl
  renames := rfl

/-- Its volume is snapshotted after the daemon has killed it. -/
theorem killed_snapshotted : ¬ ∀ run files, OnlyClean run files := by
  intro hclean
  obtain ⟨before, after, -, -, htrace⟩ := (build_trace hangingRun).1 completes_hangingRun
  have hended := ((hclean hangingRun ⟨none, none⟩).replaced (by rw [htrace]; simp)).2.2.1
  cases hended

end

end UnifiContainers.MakeSeed
