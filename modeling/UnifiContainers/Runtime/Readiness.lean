import UnifiContainers.Lib.Run
import Mathlib.Data.Int.Notation

/-!
# Readiness of the marker-gated variants

Two provers run the same marker-gated probe in one container: Docker's HEALTHCHECK process and the
readyz endpoint. A tick is cut into the steps at which the other prover can get in between: the
file tests, the requests and their answers, and the file writes. `/tmp` outlives a boot, so a boot
starts by clearing what the last one left there.
-/

namespace UnifiContainers.Healthcheck

open StepRun

def marker : String := "/tmp/unifi-ready"

def loginMarker : String := "/tmp/unifi-login-ready"

def cookieJar : String := "/tmp/unifi-cookies"

def bootState : List String := [marker, loginMarker, cookieJar]

abbrev Files := String → Bool

/-- `clear_readiness_state`, its removals succeeding. -/
def clearReadinessState (paths : List String) (files : Files) : Files :=
  paths.foldl (fun files path => Function.update files path false) files

def v2Settled (status : ℕ) : Bool := 200 ≤ status && status < 500

/-- A variant's gate: the fleet size it waits for, if it has a fleet stage. -/
structure Gate where
  expectedFleet : Option ℤ

def Gate.fleetReady (gate : Gate) (count : ℕ) : Bool :=
  gate.expectedFleet.all fun expected => expected ≤ (count : ℤ)

inductive Prover where
  | healthcheck
  | readyz
  deriving DecidableEq, Repr

/-- Where a tick stands: `marker_gate` around `staged` around `marker_gate` around the login. -/
inductive Stage where
  | checkMarker
  | checkLogin
  | askLogin
  | awaitLogin
  | writeLogin
  | askV2
  | awaitV2
  | forget
  | askDevices
  | awaitDevices
  | writeMarker
  deriving DecidableEq, Repr

/-- What a tick does next, with what its surroundings answer. -/
inductive Act where
  | proceed
  | saveJar
  | login (ok : Bool)
  | v2 (status : ℕ)
  | devices (count : ℕ)
  | written (done : Bool)
  | removed (done : Bool)
  | raised
  deriving DecidableEq, Repr

inductive Event where
  | started
  | asked
  | login (ok : Bool)
  | v2 (status : ℕ)
  | devices (count : ℕ)
  | marked
  | answered (ready : Bool)
  | raised
  deriving DecidableEq, Repr

/-- One step of a tick: the files it leaves, where it goes on (`none` when it is over), and what is
seen of it, last event first. -/
def tick (gate : Gate) (files : Files) : Stage → Act → Option (Files × Option Stage × List Event)
  | .checkMarker, .proceed =>
      if files marker then some (files, none, [.answered true])
      else some (files, some .checkLogin, [])
  | .checkLogin, .proceed =>
      if files loginMarker then some (files, some .askV2, [])
      else some (files, some .askLogin, [])
  | .askLogin, .proceed => some (files, some .awaitLogin, [.asked])
  | .awaitLogin, .login ok =>
      if ok then some (files, some .writeLogin, [.login true])
      else some (files, none, [.answered false, .login false])
  | .writeLogin, .written done =>
      some (if done then Function.update files loginMarker true else files, some .askV2, [])
  | .askV2, .proceed => some (files, some .awaitV2, [.asked])
  | .awaitV2, .v2 status =>
      -- tested before `v2Settled`, which takes a 401 for settled
      if status = 401 ∨ status = 403 then some (files, some .forget, [.v2 status])
      else if !v2Settled status then some (files, none, [.answered false, .v2 status])
      else if gate.expectedFleet.isNone then some (files, some .writeMarker, [.v2 status])
      else some (files, some .askDevices, [.v2 status])
  | .forget, .removed done =>
      some (if done then Function.update files loginMarker false else files, none,
        [.answered false])
  | .askDevices, .proceed => some (files, some .awaitDevices, [.asked])
  | .awaitDevices, .devices count =>
      if gate.fleetReady count then some (files, some .writeMarker, [.devices count])
      else some (files, none, [.answered false, .devices count])
  | .writeMarker, .written done =>
      if done then some (Function.update files marker true, none, [.answered true, .marked])
      else some (files, none, [.answered true])
  | .awaitLogin, .saveJar => some (Function.update files cookieJar true, some .awaitLogin, [])
  | .awaitV2, .saveJar => some (Function.update files cookieJar true, some .awaitV2, [])
  | .awaitDevices, .saveJar => some (Function.update files cookieJar true, some .awaitDevices, [])
  | .awaitLogin, .raised => some (files, none, [.raised])
  | .awaitV2, .raised => some (files, none, [.raised])
  | .awaitDevices, .raised => some (files, none, [.raised])
  | _, _ => none

/-- The container: its files, the ticks in flight, and what this boot has seen, last first. -/
structure State where
  files : Files
  stage : Prover → Option Stage
  history : List (Prover × Event)

inductive Label where
  | boot
  | start (p : Prover)
  | tick (p : Prover) (act : Act)
  deriving DecidableEq, Repr

def step (gate : Gate) (s : State) : Label → Option State
  | .boot => some ⟨clearReadinessState bootState s.files, fun _ => none, []⟩
  | .start p =>
      if s.stage p = none then
        some { s with
          stage := Function.update s.stage p (some .checkMarker)
          history := (p, .started) :: s.history }
      else none
  | .tick p act => do
      let stage ← s.stage p
      let (files, next, events) ← tick gate s.files stage act
      return ⟨files, Function.update s.stage p next, events.map (Prod.mk p) ++ s.history⟩

/-! ### What a boot has proven -/

abbrev History := List (Prover × Event)

def LoggedIn (history : History) : Prop := ∃ p, (p, .login true) ∈ history

def GoodStatus (status : ℕ) : Prop :=
  200 ≤ status ∧ status < 500 ∧ status ≠ 401 ∧ status ≠ 403

/-- In its current pass `p` got a good v2 status, after some login had succeeded. -/
def Settled (p : Prover) (history : History) : Prop :=
  ∃ since status before, history = since ++ (p, .v2 status) :: before ∧ GoodStatus status ∧
    LoggedIn before ∧ ∀ e ∈ since, e.1 = p → e.2 = .asked

/-- One staged pass has proven everything the variant waits for. -/
def Proven (gate : Gate) (history : History) : Prop :=
  ∃ p pass, Settled p pass ∧
    match gate.expectedFleet with
    | none => pass <:+ history
    | some expected =>
        ∃ count : ℕ, expected ≤ count ∧ (p, .devices count) :: pass <:+ history

/-- What a tick has behind it at each stage. -/
def StageOk (gate : Gate) (history : History) (p : Prover) : Option Stage → Prop
  | some .writeLogin | some .askV2 | some .awaitV2 => LoggedIn history
  | some .askDevices | some .awaitDevices => gate.expectedFleet.isSome ∧ Settled p history
  | some .writeMarker => Proven gate history
  | _ => True

section

variable {gate : Gate} {history before : History} {p q : Prover} {stage : Option Stage}

theorem LoggedIn.mono (h : LoggedIn before) (hsuffix : before <:+ history) : LoggedIn history := by
  obtain ⟨p, hp⟩ := h
  exact ⟨p, hsuffix.subset hp⟩

theorem Proven.mono (h : Proven gate before) (hsuffix : before <:+ history) :
    Proven gate history := by
  obtain ⟨p, pass, hpass, hwhere⟩ := h
  refine ⟨p, pass, hpass, ?_⟩
  cases hfleet : gate.expectedFleet with
  | none =>
      simp only [hfleet] at hwhere
      exact hwhere.trans hsuffix
  | some expected =>
      simp only [hfleet] at hwhere
      obtain ⟨count, hcount, hpassed⟩ := hwhere
      exact ⟨count, hcount, hpassed.trans hsuffix⟩

theorem Settled.mono (h : Settled p history) (events : History)
    (hevents : ∀ e ∈ events, e.1 = p → e.2 = .asked) : Settled p (events ++ history) := by
  obtain ⟨since, status, before, rfl, hgood, hlogin, hsince⟩ := h
  refine ⟨events ++ since, status, before, by rw [List.append_assoc], hgood, hlogin, fun e he => ?_⟩
  exact (List.mem_append.mp he).elim (hevents e) (hsince e)

theorem StageOk.mono (h : StageOk gate history q stage) (events : History)
    (hevents : ∀ e ∈ events, e.1 ≠ q) : StageOk gate (events ++ history) q stage := by
  have hsuffix : history <:+ events ++ history := List.suffix_append _ _
  have hasked : ∀ e ∈ events, e.1 = q → e.2 = .asked := fun e he hq => absurd hq (hevents e he)
  unfold StageOk at h ⊢
  split at h
  · exact h.mono hsuffix
  · exact h.mono hsuffix
  · exact h.mono hsuffix
  · exact ⟨h.1, h.2.mono events hasked⟩
  · exact ⟨h.1, h.2.mono events hasked⟩
  · exact h.mono hsuffix
  · trivial

structure TickOk (gate : Gate) (history : History) (p : Prover) (files after : Files)
    (next : Option Stage) (events : List Event) : Prop where
  login : after loginMarker = true → files loginMarker = true ∨ LoggedIn history
  marker : after marker = true ↔ files marker = true ∨ .marked ∈ events
  marked : .marked ∈ events → Proven gate history
  stage : StageOk gate (events.map (Prod.mk p) ++ history) p next
  answers : .answered true ∈ events → Proven gate history

private theorem goodStatus {status : ℕ} (hdead : ¬ (status = 401 ∨ status = 403))
    (hsettled : v2Settled status = true) : GoodStatus status := by
  simp only [v2Settled, Bool.and_eq_true, decide_eq_true_eq] at hsettled
  exact ⟨hsettled.1, hsettled.2, fun h => hdead (Or.inl h), fun h => hdead (Or.inr h)⟩

private theorem settled_v2 {status : ℕ} (hlogin : LoggedIn history)
    (hgood : GoodStatus status) : Settled p ((p, .v2 status) :: history) :=
  ⟨[], status, history, rfl, hgood, hlogin, by simp⟩

private theorem settled_asked (h : Settled p history) : Settled p ((p, .asked) :: history) :=
  h.mono [(p, .asked)] (by simp)

private theorem files_ne : loginMarker ≠ marker ∧ cookieJar ≠ marker ∧ cookieJar ≠ loginMarker := by
  decide

private theorem update_other {files : Files} {path other : String} {b : Bool} (h : path ≠ other) :
    Function.update files path b other = files other := Function.update_of_ne h.symm b files

private theorem TickOk.quiet {files after : Files} {next : Option Stage} {events : List Event}
    (hfiles : after = files ∨ after = Function.update files cookieJar true)
    (hmarked : .marked ∉ events) (hanswers : .answered true ∉ events)
    (hstage : StageOk gate (events.map (Prod.mk p) ++ history) p next) :
    TickOk gate history p files after next events where
  login h := by
    rcases hfiles with rfl | rfl
    · exact Or.inl h
    · rw [update_other files_ne.2.2] at h
      exact Or.inl h
  marker := by
    rcases hfiles with rfl | rfl
    · simp [hmarked]
    · rw [update_other files_ne.2.1]
      simp [hmarked]
  marked h := absurd h hmarked
  stage := hstage
  answers h := absurd h hanswers

theorem tick_ok {files after : Files} {at_ : Stage} {act : Act} {next : Option Stage}
    {events : List Event} (hmarker : files marker = true → Proven gate history)
    (hlogin : files loginMarker = true → LoggedIn history)
    (hstage : StageOk gate history p (some at_))
    (h : tick gate files at_ act = some (after, next, events)) :
    TickOk gate history p files after next events := by
  cases at_ with
  | checkMarker =>
      cases act <;> simp only [tick, reduceCtorEq] at h
      split at h
      · rename_i hfound
        cases h
        exact ⟨Or.inl, by simp, by simp, trivial, fun _ => hmarker hfound⟩
      · cases h
        exact .quiet (Or.inl rfl) (by simp) (by simp) trivial
  | checkLogin =>
      cases act <;> simp only [tick, reduceCtorEq] at h
      split at h
      · rename_i hfound
        cases h
        exact .quiet (Or.inl rfl) (by simp) (by simp) (hlogin hfound)
      · cases h
        exact .quiet (Or.inl rfl) (by simp) (by simp) trivial
  | askLogin =>
      cases act <;> simp only [tick, reduceCtorEq] at h
      cases h
      exact .quiet (Or.inl rfl) (by simp) (by simp) trivial
  | awaitLogin =>
      cases act with
      | login ok =>
          cases ok
          · cases h
            exact .quiet (Or.inl rfl) (by simp) (by simp) trivial
          · cases h
            exact .quiet (Or.inl rfl) (by simp) (by simp) ⟨p, by simp⟩
      | saveJar =>
          cases h
          exact .quiet (Or.inr rfl) (by simp) (by simp) trivial
      | raised =>
          cases h
          exact .quiet (Or.inl rfl) (by simp) (by simp) trivial
      | _ => simp only [tick, reduceCtorEq] at h
  | writeLogin =>
      cases act <;> simp only [tick, reduceCtorEq] at h
      rename_i done
      have hproven : LoggedIn history := hstage
      cases h
      refine ⟨fun _ => Or.inr hproven, ?_, by simp, hproven, by simp⟩
      cases done <;> simp [update_other files_ne.1]
  | askV2 =>
      cases act <;> simp only [tick, reduceCtorEq] at h
      cases h
      exact .quiet (Or.inl rfl) (by simp) (by simp)
        (LoggedIn.mono hstage (List.suffix_append _ _))
  | awaitV2 =>
      have hlogged : LoggedIn history := hstage
      cases act with
      | v2 status =>
          simp only [tick] at h
          split at h
          · cases h
            exact .quiet (Or.inl rfl) (by simp) (by simp) trivial
          · rename_i hdead
            split at h
            · cases h
              exact .quiet (Or.inl rfl) (by simp) (by simp) trivial
            · rename_i hsettled
              have hgood := goodStatus hdead (by simpa using hsettled)
              have hpass : Settled p ((p, .v2 status) :: history) := settled_v2 hlogged hgood
              split at h
              · rename_i hfleet
                cases h
                refine .quiet (Or.inl rfl) (by simp) (by simp) ⟨p, _, hpass, ?_⟩
                rw [Option.isNone_iff_eq_none.mp hfleet]
                exact List.suffix_rfl
              · rename_i hfleet
                cases h
                refine .quiet (Or.inl rfl) (by simp) (by simp) ⟨?_, hpass⟩
                exact Option.isSome_iff_ne_none.mpr fun hnone => hfleet (by simp [hnone])
      | saveJar =>
          cases h
          exact .quiet (Or.inr rfl) (by simp) (by simp) hlogged
      | raised =>
          cases h
          exact .quiet (Or.inl rfl) (by simp) (by simp) trivial
      | _ => simp only [tick, reduceCtorEq] at h
  | forget =>
      cases act <;> simp only [tick, reduceCtorEq] at h
      rename_i done
      cases h
      refine ⟨fun hfound => Or.inl ?_, ?_, by simp, trivial, by simp⟩
      · cases done
        · exact hfound
        · simp at hfound
      · cases done <;> simp [update_other files_ne.1]
  | askDevices =>
      cases act <;> simp only [tick, reduceCtorEq] at h
      cases h
      exact .quiet (Or.inl rfl) (by simp) (by simp) ⟨hstage.1, settled_asked hstage.2⟩
  | awaitDevices =>
      obtain ⟨hfleet, hpass⟩ : gate.expectedFleet.isSome ∧ Settled p history := hstage
      cases act with
      | devices count =>
          simp only [tick] at h
          split at h
          · rename_i hready
            cases h
            refine .quiet (Or.inl rfl) (by simp) (by simp) ⟨p, history, hpass, ?_⟩
            obtain ⟨expected, hexpected⟩ := Option.isSome_iff_exists.mp hfleet
            rw [hexpected]
            refine ⟨count, ?_, List.suffix_rfl⟩
            simpa [Gate.fleetReady, hexpected] using hready
          · cases h
            exact .quiet (Or.inl rfl) (by simp) (by simp) trivial
      | saveJar =>
          cases h
          exact .quiet (Or.inr rfl) (by simp) (by simp) ⟨hfleet, hpass⟩
      | raised =>
          cases h
          exact .quiet (Or.inl rfl) (by simp) (by simp) trivial
      | _ => simp only [tick, reduceCtorEq] at h
  | writeMarker =>
      cases act <;> simp only [tick, reduceCtorEq] at h
      have hproven : Proven gate history := hstage
      split at h
      · cases h
        refine ⟨fun hfound => Or.inl ?_, by simp, fun _ => hproven, trivial, fun _ => hproven⟩
        rwa [update_other files_ne.1.symm] at hfound
      · cases h
        exact ⟨Or.inl, by simp, by simp, trivial, fun _ => hproven⟩

end

/-! ### The invariant of a boot -/

/-- Each file stands for something this boot has proven, and so does each tick in flight and each
ready answer. -/
structure Sound (gate : Gate) (s : State) : Prop where
  loggedIn : s.files loginMarker = true → LoggedIn s.history
  proven : s.files marker = true → Proven gate s.history
  marked : ∀ p, (p, .marked) ∈ s.history → s.files marker = true
  stages : ∀ p, StageOk gate s.history p (s.stage p)
  answers : ∀ p before, (p, .answered true) :: before <:+ s.history → Proven gate before

/-- What `p` did in this boot since its last start, last first. -/
def ownSince (p : Prover) (since : History) : History := since.filter fun e => e.1 = p

/-- A tick that started once the marker had been written has answered ready as the first thing it
did, or is still about to test for the marker. -/
def Latched (s : State) : Prop :=
  ∀ p since before, s.history = since ++ (p, .started) :: before →
    (∃ q, (q, .marked) ∈ before) →
      (ownSince p since = [] ∧ s.stage p = some .checkMarker) ∨
        ∃ later, ownSince p since = later ++ [(p, .answered true)]

section

variable {gate : Gate} {s t : State}

theorem clear_bootState (files : Files) :
    clearReadinessState bootState files marker = false ∧
      clearReadinessState bootState files loginMarker = false := by
  simp [clearReadinessState, bootState, Function.update, files_ne.1.symm, files_ne.2.1.symm,
    files_ne.2.2.symm]

theorem sound_boot (files : Files) :
    Sound gate ⟨clearReadinessState bootState files, fun _ => none, []⟩ where
  loggedIn h := by simp [clear_bootState] at h
  proven h := by simp [clear_bootState] at h
  marked := by simp
  stages _ := trivial
  answers := by simp

theorem sound_start {p : Prover} (h : Sound gate s) :
    Sound gate { s with
      stage := Function.update s.stage p (some .checkMarker)
      history := (p, .started) :: s.history } where
  loggedIn hfile := (h.loggedIn hfile).mono (List.suffix_cons _ _)
  proven hfile := (h.proven hfile).mono (List.suffix_cons _ _)
  marked q hq := h.marked q (by simpa using hq)
  stages q := by
    by_cases hq : q = p
    · subst hq
      simp [StageOk]
    · simp only [Function.update_of_ne hq]
      exact (h.stages q).mono [(p, .started)] (by simpa using Ne.symm hq)
  answers q before hsuffix := by
    rcases List.suffix_cons_iff.mp hsuffix with heq | hold
    · simp at heq
    · exact h.answers q before hold

private theorem suffix_events {p q : Prover} {events : List Event} {history before : History}
    (hsuffix : (q, .answered true) :: before <:+ events.map (Prod.mk p) ++ history) :
    (q, .answered true) :: before <:+ history ∨ (.answered true ∈ events ∧ history <:+ before) := by
  induction events with
  | nil => exact Or.inl hsuffix
  | cons e events ih =>
      rcases List.suffix_cons_iff.mp hsuffix with heq | hold
      · simp only [List.cons.injEq, Prod.mk.injEq] at heq
        refine Or.inr ⟨by simp [heq.1.2], ?_⟩
        rw [heq.2]
        exact List.suffix_append _ _
      · exact (ih hold).imp id fun ⟨hmem, hsuf⟩ => ⟨List.mem_cons_of_mem _ hmem, hsuf⟩

theorem sound_tick {p : Prover} {at_ : Stage} {act : Act} {files : Files} {next : Option Stage}
    {events : List Event} (h : Sound gate s) (hat : s.stage p = some at_)
    (htick : tick gate s.files at_ act = some (files, next, events)) :
    Sound gate ⟨files, Function.update s.stage p next, events.map (Prod.mk p) ++ s.history⟩ := by
  have hok := tick_ok h.proven h.loggedIn (hat ▸ h.stages p) htick
  have hsuffix : s.history <:+ events.map (Prod.mk p) ++ s.history := List.suffix_append _ _
  refine ⟨fun hfile => ?_, fun hfile => ?_, fun q hq => ?_, fun q => ?_, fun q before hq => ?_⟩
  · exact ((hok.login hfile).elim h.loggedIn id).mono hsuffix
  · exact ((hok.marker.mp hfile).elim h.proven hok.marked).mono hsuffix
  · apply hok.marker.mpr
    rcases List.mem_append.mp hq with hnew | hold
    · obtain ⟨e, he, heq⟩ := List.mem_map.mp hnew
      cases heq
      exact Or.inr he
    · exact Or.inl (h.marked q hold)
  · by_cases hqp : q = p
    · subst hqp
      simpa using hok.stage
    · simp only [Function.update_of_ne hqp]
      apply (h.stages q).mono _
      intro e he
      obtain ⟨e', -, rfl⟩ := List.mem_map.mp he
      exact Ne.symm hqp
  · rcases suffix_events hq with hold | ⟨hnew, hbefore⟩
    · exact h.answers q before hold
    · exact (hok.answers hnew).mono hbefore

theorem tick_not_started {files after : Files} {at_ : Stage} {act : Act} {next : Option Stage}
    {events : List Event} (h : tick gate files at_ act = some (after, next, events)) :
    .started ∉ events := by
  unfold tick at h
  split at h
  all_goals repeat' split at h
  all_goals cases h
  all_goals simp

private theorem append_started {p q : Prover} {events : List Event} {history since before : History}
    (hnone : .started ∉ events)
    (h : events.map (Prod.mk q) ++ history = since ++ (p, .started) :: before) :
    ∃ since', since = events.map (Prod.mk q) ++ since' ∧
      history = since' ++ (p, .started) :: before := by
  rcases List.append_eq_append_iff.mp h with ⟨since', hsince, hhistory⟩ | ⟨rest, hevents, hrest⟩
  · exact ⟨since', hsince, hhistory⟩
  · cases rest with
    | nil => exact ⟨[], by simpa using hevents.symm, by simpa using hrest.symm⟩
    | cons e rest =>
        have he : e ∈ events.map (Prod.mk q) := by simp [hevents]
        obtain ⟨e', he', rfl⟩ := List.mem_map.mp he
        simp only [List.cons_append, List.cons.injEq, Prod.mk.injEq] at hrest
        exact absurd (hrest.1.2 ▸ he') hnone

theorem latched_start {q : Prover} (h : Latched s) (hidle : s.stage q = none) :
    Latched { s with
      stage := Function.update s.stage q (some .checkMarker)
      history := (q, .started) :: s.history } := by
  intro p since before heq hmarked
  cases since with
  | nil =>
      simp only [List.nil_append, List.cons.injEq, Prod.mk.injEq] at heq
      exact Or.inl ⟨rfl, by simp [heq.1.1]⟩
  | cons e since =>
      simp only [List.cons_append, List.cons.injEq] at heq
      obtain ⟨rfl, hold⟩ := heq
      by_cases hpq : q = p
      · subst hpq
        rcases h q since before hold hmarked with ⟨-, hstage⟩ | ⟨later, hlater⟩
        · rw [hidle] at hstage
          cases hstage
        · exact Or.inr ⟨(q, .started) :: later, by
            rw [ownSince, List.filter_cons, if_pos (by simp), ← ownSince, hlater]
            rfl⟩
      · rw [ownSince, List.filter_cons, if_neg (by simpa using hpq), ← ownSince]
        simpa [Function.update_of_ne (Ne.symm hpq)] using h p since before hold hmarked

theorem latched_tick {q : Prover} {at_ : Stage} {act : Act} {files : Files} {next : Option Stage}
    {events : List Event} (hsound : Sound gate s) (h : Latched s) (hat : s.stage q = some at_)
    (htick : tick gate s.files at_ act = some (files, next, events)) :
    Latched ⟨files, Function.update s.stage q next, events.map (Prod.mk q) ++ s.history⟩ := by
  intro p since before heq hmarked
  obtain ⟨since', rfl, hold⟩ := append_started (tick_not_started htick) heq
  have hown : ownSince p (events.map (Prod.mk q) ++ since') =
      (if q = p then events.map (Prod.mk q) else []) ++ ownSince p since' := by
    rw [ownSince, List.filter_append]
    congr 1
    split
    · rename_i hqp
      apply List.filter_eq_self.mpr
      intro e he
      obtain ⟨e', -, rfl⟩ := List.mem_map.mp he
      simpa using hqp
    · rename_i hqp
      apply List.filter_eq_nil_iff.mpr
      intro e he
      obtain ⟨e', -, rfl⟩ := List.mem_map.mp he
      simpa using hqp
  rw [hown]
  rcases h p since' before hold hmarked with ⟨hnone, hstage⟩ | ⟨later, hlater⟩
  · by_cases hqp : q = p
    · subst hqp
      -- the tick is at its first step, and the marker file is there
      have hfound : s.files marker = true := by
        obtain ⟨r, hr⟩ := hmarked
        exact hsound.marked r (by rw [hold]; simp [hr])
      rw [hat] at hstage
      cases hstage
      cases act <;> simp only [tick, reduceCtorEq] at htick
      rw [if_pos hfound] at htick
      cases htick
      exact Or.inr ⟨[], by simp [hnone]⟩
    · exact Or.inl ⟨by simp [hqp, hnone], by simpa [Function.update_of_ne (Ne.symm hqp)] using hstage⟩
  · exact Or.inr ⟨(if q = p then events.map (Prod.mk q) else []) ++ later, by
      rw [hlater, List.append_assoc]⟩

theorem step_invariant {label : Label} (h : Sound gate s ∧ Latched s)
    (hstep : step gate s label = some t) : Sound gate t ∧ Latched t := by
  cases label with
  | boot =>
      cases hstep
      exact ⟨sound_boot s.files, fun p since before heq => by simp at heq⟩
  | start p =>
      simp only [step] at hstep
      split at hstep
      · rename_i hidle
        cases hstep
        exact ⟨sound_start h.1, latched_start h.2 hidle⟩
      · cases hstep
  | tick p act =>
      simp only [step, bind, Option.bind_eq_some_iff] at hstep
      obtain ⟨at_, hat, ⟨files, next, events⟩, htick, ht⟩ := hstep
      cases ht
      exact ⟨sound_tick h.1 hat htick, latched_tick h.1 h.2 hat htick⟩

theorem answers_at_once (h : Sound gate s) {p q : Prover} (hmarked : (q, .marked) ∈ s.history)
    (hstage : s.stage p = some .checkMarker) :
    step gate s (.tick p .proceed) = some ⟨s.files, Function.update s.stage p none,
      (p, .answered true) :: s.history⟩ := by
  simp [step, hstage, tick, h.marked q hmarked]

/-- Readiness is sound and latched within every boot: a tick answers ready only after one staged
pass of this boot has proven everything, and once the ready marker is written, every tick that
starts later answers ready before it asks anything. -/
theorem ready_sound (gate : Gate) (left t : State) (labels : List Label)
    (hrun : exec (step gate) left (.boot :: labels) = some t) :
    (∀ p before, (p, .answered true) :: before <:+ t.history → Proven gate before) ∧ Latched t ∧
      ∀ p q, (q, .marked) ∈ t.history → t.stage p = some .checkMarker →
        step gate t (.tick p .proceed) = some ⟨t.files, Function.update t.stage p none,
          (p, .answered true) :: t.history⟩ := by
  obtain ⟨booted, hboot, hrest⟩ := exec_cons_some (step gate) hrun
  cases hboot
  have h := invariant (step gate) (fun _ _ _ hinv hstep => step_invariant hinv hstep)
    ⟨sound_boot left.files, fun p since before heq => by simp at heq⟩ hrest
  exact ⟨h.1.answers, h.2, fun _ _ hmarked hstage => answers_at_once h.1 hmarked hstage⟩

private def stale : State := ⟨fun _ => true, fun _ => none, []⟩

private def provenOnce : List Label :=
  [.start .healthcheck, .tick .healthcheck .proceed, .tick .healthcheck .proceed,
    .tick .healthcheck .proceed, .tick .healthcheck (.login true),
    .tick .healthcheck (.written true), .tick .healthcheck .proceed, .tick .healthcheck (.v2 404),
    .tick .healthcheck .proceed, .tick .healthcheck (.devices 3),
    .tick .healthcheck (.written true), .start .readyz]

theorem ready_sound_example :
    let t := (exec (step ⟨some 3⟩) stale (.boot :: provenOnce)).get (by decide)
    (∀ p before, (p, .answered true) :: before <:+ t.history → Proven ⟨some 3⟩ before) ∧
      Latched t ∧
      ∀ p q, (q, .marked) ∈ t.history → t.stage p = some .checkMarker →
        step ⟨some 3⟩ t (.tick p .proceed) = some ⟨t.files, Function.update t.stage p none,
          (p, .answered true) :: t.history⟩ :=
  ready_sound ⟨some 3⟩ stale _ provenOnce (Option.some_get _).symm

end

end UnifiContainers.Healthcheck
