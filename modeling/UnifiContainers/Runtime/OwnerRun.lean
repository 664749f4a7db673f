import UnifiContainers.Runtime.ApiKey
import UnifiContainers.Runtime.Clients
import UnifiContainers.Runtime.Transport

/-!
# The owner seed over a failing transport

One run of the seed makes up to some hundreds of requests, in loops that take each verdict for an
answer. It ends with 0 or 1 unless one of its requests raises past `jsonRequest`, the client
refuses to send one, or a body is nested too deep to be read.
-/

namespace UnifiContainers.OwnerRun

open OwnerSetup SeedEnv Transport
open UosOwner (KeyFile KeyVerdict Faults keyCheckAttempts ownerWaitAttempts readKey illegalHeader)

inductive Request where
  | system
  | login (username password : List Char)
  | info
  | setup (request : SetupRequest)
  | mint (owner : Json) (name : List Char)
  | probe (key : Json)

inductive Event where
  | requested (request : Request) (outcome : Outcome)
  /-- The answer's body was parsed. -/
  | loaded (response : Response)
  | published (key : Json)

abbrev Call := Traced Event

/-- How the requests of one run go: each kind of request, by its attempt. -/
structure Outcomes where
  system : ℕ → Outcome
  /-- The first login, and the one after each attempt. -/
  login : ℕ → Outcome
  info : Outcome
  setup : ℕ → Outcome
  existing : ℕ → Outcome
  owner : ℕ → Outcome
  mint : Outcome
  minted : ℕ → Outcome

/-! ### What the client refuses to send -/

/-- The text of a value in a format string; `render` is Python's `str` of what is not a string. -/
def formatted (render : Json → List Char) : Json → List Char
  | .string text => text.toList
  | other => render other

def mintPath (render : Json → List Char) (owner : Json) : List Char :=
  "/api/v2/user/".toList ++ formatted render owner ++ "/keys".toList

/-- A path without its fragment, which begins at the last `#`. -/
def selector (path : List Char) : List Char :=
  if '#' ∈ path then ((path.reverse.dropWhile (· ≠ '#')).drop 1).reverse else path

/-- Printable ASCII without the space. -/
def isTarget (path : List Char) : Bool := path.all fun c => 0x20 < c.toNat && c.toNat < 0x7f

/-- A text in Latin-1 whose line breaks continue the header; integers are sent as text, anything
else raises. -/
def isHeader : Json → Bool
  | .string text => !illegalHeader text.toList
  | .number _ | .bool _ => true
  | _ => false

def Request.isSendable (render : Json → List Char) : Request → Bool
  | .mint owner _ => isTarget (selector (mintPath render owner))
  | .probe key => isHeader key
  | _ => true

/-! ### The run -/

def apiWaitAttempts : ℕ := 120

section

variable (limit : ℕ) (render : Json → List Char)

def send (request : Request) (outcome : Outcome) : Call Response :=
  if request.isSendable render then
    match jsonRequest outcome with
    | .ok response => ⟨[.requested request outcome], some response⟩
    | .error _ => ⟨[.requested request outcome], none⟩
  else ⟨[.requested request outcome], none⟩

/-- `response.json()`. -/
def parse (response : Response) : Call Json :=
  match Clients.load limit response with
  | .ok body => ⟨[.loaded response], some body⟩
  | .error _ => ⟨[.loaded response], none⟩

def waitForApi : List Outcome → Call Bool
  | [] => return false
  | outcome :: rest => do
      let response ← send render .system outcome
      if response.status ≠ 0 then return true else waitForApi rest

def loginStatus (cfg : Config) (outcome : Outcome) : Call ℕ := do
  let response ← send render (.login cfg.username cfg.password) outcome
  return response.status

def isSetup (outcome : Outcome) : Call Bool := do
  let response ← send render .info outcome
  return Clients.isSetupOf (← parse limit response)

def setupRequest (cfg : Config) : SetupRequest :=
  ⟨cfg.consoleName, cfg.username, cfg.password, cfg.country, cfg.timezone, false, false⟩

/-- The attempts from number `attempt` on, `left` of them. -/
def attemptSetup (cfg : Config) (outcomes : Outcomes) (attempt : ℕ) : ℕ → Call Bool
  | 0 => return false
  | left + 1 => do
      let response ← send render (.setup (setupRequest cfg)) (outcomes.setup attempt)
      let code ← if response.status = 200 then loginStatus render cfg (outcomes.login attempt)
        else pure 0
      if code = 200 then return true
      else if alreadySetup response then return true
      else attemptSetup cfg outcomes (attempt + 1) left

def ensureOwner (cfg : Config) (outcomes : Outcomes) : Call Bool := do
  let code ← loginStatus render cfg (outcomes.login 0)
  if code = 200 then return true
  else
    let done ← isSetup limit render outcomes.info
    if done then return true else attemptSetup render cfg outcomes 1 setupAttempts

def keyCheck (key : Json) : List Outcome → Call KeyVerdict
  | [] => return .noVerdict
  | outcome :: rest => do
      let response ← send render (.probe key) outcome
      if response.status = 200 then return .ok
      else if response.status = 401 ∨ response.status = 403 then return .rejected
      else keyCheck key rest

def waitForOwnerId : List Outcome → Call (Option Json)
  | [] => return none
  | outcome :: rest => do
      let response ← send render .info outcome
      let owner := Clients.ownerIdOf (← parse limit response)
      if owner.isSome then return owner else waitForOwnerId rest

def mintKey (owner : Json) (name : List Char) (outcome : Outcome) : Call (Option Json) := do
  let response ← send render (.mint owner name) outcome
  return Clients.mintedKeyOf (← parse limit response)

/-- Only a string can be joined to the newline that ends the key file. -/
def publishKey (faults : Faults) (key : Json) : Call Bool :=
  match key with
  | .string text => ⟨[.published key], (UosOwner.publishKey faults text).result⟩
  | _ => ⟨[.published key], none⟩

/-- `ensure_api_key` from the owner query on. -/
def mintAndPublish (cfg : Config) (faults : Faults) (outcomes : Outcomes) : Call Bool := do
  match ← waitForOwnerId limit render ((List.range ownerWaitAttempts).map outcomes.owner) with
  | none => return false
  | some owner =>
      match ← mintKey limit render owner cfg.keyName outcomes.mint with
      | none => return false
      | some key =>
          match ← keyCheck render key ((List.range keyCheckAttempts).map outcomes.minted) with
          | .ok => publishKey faults key
          | _ => return false

def ensureApiKey (cfg : Config) (faults : Faults) (file : KeyFile) (outcomes : Outcomes) :
    Call Bool :=
  let existing := readKey file
  if existing = "" then mintAndPublish limit render cfg faults outcomes
  else do
    match ← keyCheck render (.string existing)
        ((List.range keyCheckAttempts).map outcomes.existing) with
    | .ok => return true
    | .noVerdict => return false
    | .rejected => mintAndPublish limit render cfg faults outcomes

/-- The exit status. -/
def run (cfg : Config) (faults : Faults) (file : KeyFile) (outcomes : Outcomes) : Call ℕ := do
  let _ ← waitForApi render ((List.range apiWaitAttempts).map outcomes.system)
  let seeded ← ensureOwner limit render cfg outcomes
  if seeded = false then return 1
  else if cfg.seedApiKey then
    let published ← ensureApiKey limit render cfg faults file outcomes
    if published then return 0 else return 1
  else return 0

end

/-! ### How it ends -/

/-- The client refuses to send the request or what goes wrong with it is not caught, the body is
nested too deep, or the key is no text. -/
def Event.IsFatal (limit : ℕ) (render : Json → List Char) : Event → Prop
  | .requested request outcome => request.isSendable render = false ∨ ¬ outcome.Caught
  | .loaded response => ∃ body, response.parsed = some body ∧ limit < Clients.depth body
  | .published key => ∀ text, key ≠ .string text

section

variable {limit : ℕ} {render : Json → List Char}

theorem send_raises (request : Request) (outcome : Outcome) :
    (send render request outcome).RaisesAt (Event.IsFatal limit render) := by
  have htrace : (send render request outcome).trace = [.requested request outcome] := by
    rw [send]
    split
    · split <;> rfl
    · rfl
  simp only [Traced.RaisesAt, htrace, List.mem_singleton, exists_eq_left, Event.IsFatal]
  rw [send]
  by_cases hsendable : request.isSendable render = true
  · rw [if_pos hsendable, hsendable]
    simp only [Bool.true_eq_false, false_or]
    cases hrequest : jsonRequest outcome with
    | ok response =>
      have hcaught := hasVerdict_iff.mp (hasVerdict_of_returns hrequest)
      exact iff_of_false (by simp) (not_not.mpr hcaught)
    | error failure =>
      refine iff_of_true rfl fun hcaught => ?_
      have hverdict := hasVerdict_iff.mpr hcaught
      rw [Outcome.HasVerdict, hrequest] at hverdict
      cases hverdict
  · rw [if_neg hsendable]
    exact iff_of_true rfl (.inl (Bool.eq_false_iff.mpr hsendable))

theorem parse_raises (response : Response) :
    (parse limit response).RaisesAt (Event.IsFatal limit render) := by
  rw [Traced.RaisesAt, parse, Clients.load]
  cases hparsed : response.parsed with
  | none => simp [Event.IsFatal, hparsed]
  | some body =>
    by_cases hdeep : limit < Clients.depth body <;> simp [Event.IsFatal, hparsed, hdeep]

theorem publishKey_raises (faults : Faults) (key : Json) :
    (publishKey faults key).RaisesAt (Event.IsFatal limit render) := by
  rw [Traced.RaisesAt, publishKey.eq_def]
  split
  · rename_i text
    obtain ⟨ops, done, hpublish⟩ := UosOwner.publishKey_returns faults text
    rw [hpublish]
    simp [Event.IsFatal]
  · rename_i hkey
    simpa [Event.IsFatal] using hkey

theorem waitForApi_raises (answers : List Outcome) :
    (waitForApi render answers).RaisesAt (Event.IsFatal limit render) := by
  induction answers with
  | nil => exact .pure _ _
  | cons outcome rest ih =>
    exact (send_raises .system outcome).bind fun _ => .ite (.pure _ _) ih

theorem loginStatus_raises (cfg : Config) (outcome : Outcome) :
    (loginStatus render cfg outcome).RaisesAt (Event.IsFatal limit render) :=
  (send_raises _ outcome).bind fun _ => .pure _ _

theorem attemptSetup_raises (cfg : Config) (outcomes : Outcomes) (attempt left : ℕ) :
    (attemptSetup render cfg outcomes attempt left).RaisesAt (Event.IsFatal limit render) := by
  induction left generalizing attempt with
  | zero => exact .pure _ _
  | succ left ih =>
    refine (send_raises _ _).bind fun response => ?_
    have hrest (code : ℕ) : Traced.RaisesAt (Event.IsFatal limit render)
        (if code = 200 then pure true else if alreadySetup response = true then pure true
          else attemptSetup render cfg outcomes (attempt + 1) left) :=
      .ite (.pure _ _) (.ite (.pure _ _) (ih (attempt + 1)))
    dsimp only
    exact .ite ((loginStatus_raises cfg _).bind hrest) ((Traced.RaisesAt.pure _ 0).bind hrest)

theorem ensureOwner_raises (cfg : Config) (outcomes : Outcomes) :
    (ensureOwner limit render cfg outcomes).RaisesAt (Event.IsFatal limit render) := by
  have hsetup : (isSetup limit render outcomes.info).RaisesAt (Event.IsFatal limit render) :=
    (send_raises _ _).bind fun response => (parse_raises response).bind fun body => .pure _ _
  refine (loginStatus_raises cfg _).bind fun code => .ite (.pure _ _) ?_
  exact hsetup.bind fun done => .ite (.pure _ _) (attemptSetup_raises cfg outcomes 1 setupAttempts)

theorem keyCheck_raises (key : Json) (answers : List Outcome) :
    (keyCheck render key answers).RaisesAt (Event.IsFatal limit render) := by
  induction answers with
  | nil => exact .pure _ _
  | cons outcome rest ih =>
    exact (send_raises _ outcome).bind fun response => .ite (.pure _ _) (.ite (.pure _ _) ih)

theorem waitForOwnerId_raises (answers : List Outcome) :
    (waitForOwnerId limit render answers).RaisesAt (Event.IsFatal limit render) := by
  induction answers with
  | nil => exact .pure _ _
  | cons outcome rest ih =>
    exact (send_raises _ outcome).bind fun response => (parse_raises response).bind fun body =>
      .ite (.pure _ _) ih

theorem mintAndPublish_raises (cfg : Config) (faults : Faults) (outcomes : Outcomes) :
    (mintAndPublish limit render cfg faults outcomes).RaisesAt (Event.IsFatal limit render) := by
  refine (waitForOwnerId_raises _).bind fun owner => ?_
  cases owner with
  | none => exact .pure _ _
  | some owner =>
    have hmint : (mintKey limit render owner cfg.keyName outcomes.mint).RaisesAt
        (Event.IsFatal limit render) :=
      (send_raises _ _).bind fun response => (parse_raises response).bind fun body => .pure _ _
    refine hmint.bind fun key => ?_
    cases key with
    | none => exact .pure _ _
    | some key =>
      refine (keyCheck_raises key _).bind fun verdict => ?_
      cases verdict with
      | ok => exact publishKey_raises faults key
      | rejected | noVerdict => exact .pure _ _

theorem ensureApiKey_raises (cfg : Config) (faults : Faults) (file : KeyFile)
    (outcomes : Outcomes) :
    (ensureApiKey limit render cfg faults file outcomes).RaisesAt (Event.IsFatal limit render) := by
  refine .ite (mintAndPublish_raises cfg faults outcomes) ?_
  refine (keyCheck_raises _ _).bind fun verdict => ?_
  cases verdict with
  | ok | noVerdict => exact .pure _ _
  | rejected => exact mintAndPublish_raises cfg faults outcomes

theorem run_raises (limit : ℕ) (render : Json → List Char) (cfg : Config) (faults : Faults)
    (file : KeyFile) (outcomes : Outcomes) :
    (run limit render cfg faults file outcomes).RaisesAt (Event.IsFatal limit render) := by
  refine (waitForApi_raises _).bind fun _ => (ensureOwner_raises cfg outcomes).bind fun seeded => ?_
  refine .ite (.pure _ _) (.ite ?_ (.pure _ _))
  exact (ensureApiKey_raises cfg faults file outcomes).bind fun published =>
    .ite (.pure _ _) (.pure _ _)

/-- A run that returns, returns 0 or 1. -/
theorem run_status {cfg : Config} {faults : Faults} {file : KeyFile} {outcomes : Outcomes}
    {code : ℕ} (h : (run limit render cfg faults file outcomes).result = some code) :
    code = 0 ∨ code = 1 := by
  obtain ⟨_, -, h⟩ := Traced.bind_result_some h
  obtain ⟨seeded, -, h⟩ := Traced.bind_result_some h
  split at h
  · cases h
    exact .inr rfl
  · split at h
    · obtain ⟨published, -, h⟩ := Traced.bind_result_some h
      split at h
      · cases h
        exact .inl rfl
      · cases h
        exact .inr rfl
    · cases h
      exact .inl rfl

/-! ### What it does with the answers -/

/-- What a request is answered, if it gets a verdict. -/
def verdict (outcome : Outcome) : Response := outcome.answer.getD noVerdict

/-- The console whose answers are the verdicts. -/
def Outcomes.console (outcomes : Outcomes) : Console where
  login k := (verdict (outcomes.login k)).status
  ulp := verdict outcomes.info
  setup k := verdict (outcomes.setup k)

theorem send_result {request : Request} {outcome : Outcome} {response : Response}
    (h : (send render request outcome).result = some response) : response = verdict outcome := by
  rw [send] at h
  split at h
  · split at h
    · rename_i hrequest
      cases h
      have hverdict := hasVerdict_of_returns hrequest
      rw [Outcome.HasVerdict, hrequest] at hverdict
      exact Except.ok.inj hverdict
    · cases h
  · cases h

theorem loginStatus_result {cfg : Config} {outcome : Outcome} {code : ℕ}
    (h : (loginStatus render cfg outcome).result = some code) :
    code = (verdict outcome).status := by
  obtain ⟨response, hresponse, h⟩ := Traced.bind_result_some h
  cases h
  rw [send_result hresponse]

theorem parse_result {response : Response} {body : Json}
    (h : (parse limit response).result = some body) : body = response.json := by
  rw [parse, Clients.load] at h
  rw [Response.json]
  cases hparsed : response.parsed with
  | none =>
    rw [hparsed] at h
    cases h
    rfl
  | some other =>
    rw [hparsed] at h
    by_cases hdeep : limit < Clients.depth other
    · simp [hdeep] at h
    · simp only [if_neg hdeep] at h
      cases h
      rfl

theorem isSetup_result {outcome : Outcome} {done : Bool}
    (h : (isSetup limit render outcome).result = some done) :
    done = OwnerSetup.isSetup (verdict outcome) := by
  obtain ⟨response, hresponse, h⟩ := Traced.bind_result_some h
  obtain ⟨body, hbody, h⟩ := Traced.bind_result_some h
  cases h
  rw [parse_result hbody, send_result hresponse]
  rfl

theorem attemptSetup_succ (cfg : Config) (console : Console) (attempt left : ℕ)
    (last : Option Response) :
    (OwnerSetup.attemptSetup cfg console attempt last (left + 1)).result =
      if (console.setup attempt).status = 200 ∧ console.login attempt = 200 then some true
      else if alreadySetup (console.setup attempt) = true then some true
      else (OwnerSetup.attemptSetup cfg console (attempt + 1)
        (some (console.setup attempt)) left).result := by
  by_cases hstatus : (console.setup attempt).status = 200 <;>
    by_cases hlogin : console.login attempt = 200 <;>
    by_cases hdone : alreadySetup (console.setup attempt) = true <;>
    by_cases hlast : attempt < setupAttempts <;>
    simp [OwnerSetup.attemptSetup, postSetup, OwnerSetup.loginStatus, log, Traced.emit, hstatus,
      hlogin, hdone, hlast]

theorem attemptSetup_result {cfg : Config} {outcomes : Outcomes} {attempt left : ℕ} {done : Bool}
    (h : (attemptSetup render cfg outcomes attempt left).result = some done)
    (last : Option Response) :
    (OwnerSetup.attemptSetup cfg outcomes.console attempt last left).result = some done := by
  induction left generalizing attempt last with
  | zero => exact h
  | succ left ih =>
    obtain ⟨response, hresponse, h⟩ := Traced.bind_result_some h
    have hverdict := send_result hresponse
    subst hverdict
    have hsetup : outcomes.console.setup attempt = verdict (outcomes.setup attempt) := rfl
    have hlogin : outcomes.console.login attempt = (verdict (outcomes.login attempt)).status := rfl
    rw [attemptSetup_succ, hsetup, hlogin]
    -- what both do once the code of the login is known
    have hrest (code : ℕ) (h : Traced.result (if code = 200 then pure true
        else if alreadySetup (verdict (outcomes.setup attempt)) = true then pure true
        else attemptSetup render cfg outcomes (attempt + 1) left) = some done) :
        (if code = 200 then some true
          else if alreadySetup (verdict (outcomes.setup attempt)) = true then some true
          else (OwnerSetup.attemptSetup cfg outcomes.console (attempt + 1)
            (some (verdict (outcomes.setup attempt))) left).result) = some done := by
      split at h
      · rw [if_pos ‹_›]
        exact h
      · rw [if_neg ‹_›]
        split at h
        · rw [if_pos ‹_›]
          exact h
        · rw [if_neg ‹_›]
          exact ih h _
    by_cases hstatus : (verdict (outcomes.setup attempt)).status = 200
    · simp only [if_pos hstatus] at h
      obtain ⟨code, hcode, h⟩ := Traced.bind_result_some h
      rw [loginStatus_result hcode] at h
      simpa only [hstatus, true_and] using hrest _ h
    · simp only [if_neg hstatus] at h
      have hnoLogin := hrest 0 h
      rw [if_neg (by decide)] at hnoLogin
      rwa [if_neg fun hcreated => hstatus hcreated.1]

/-- A call that returns does what `OwnerSetup.ensureOwner` does with the verdicts. -/
theorem ensureOwner_result {cfg : Config} {outcomes : Outcomes} {done : Bool}
    (h : (ensureOwner limit render cfg outcomes).result = some done) :
    (OwnerSetup.ensureOwner cfg outcomes.console).result = some done := by
  obtain ⟨code, hcode, h⟩ := Traced.bind_result_some h
  have hlogin : outcomes.console.login 0 = code := (loginStatus_result hcode).symm
  by_cases hok : code = 200
  · rw [if_pos hok] at h
    cases h
    simp [OwnerSetup.ensureOwner, OwnerSetup.loginStatus, log, Traced.emit, hlogin, hok]
  · rw [if_neg hok] at h
    obtain ⟨setUp, hsetUp, h⟩ := Traced.bind_result_some h
    have hulp : OwnerSetup.isSetup outcomes.console.ulp = setUp := (isSetup_result hsetUp).symm
    cases setUp with
    | true =>
      cases h
      simp [OwnerSetup.ensureOwner, OwnerSetup.loginStatus, log, Traced.emit, hlogin, hok, hulp]
    | false =>
      have hattempts := attemptSetup_result h none
      simp [OwnerSetup.ensureOwner, OwnerSetup.loginStatus, log, Traced.emit, hlogin, hok, hulp,
        hattempts]

end

/-! ### Runs that return -/

/-- The request gets its verdict, and the answer's body is not nested too deep. -/
structure Readable (limit : ℕ) (outcome : Outcome) : Prop where
  caught : outcome.Caught
  shallow : ∀ body, (verdict outcome).parsed = some body → Clients.depth body ≤ limit

/-- Every request gets its verdict, every body can be read, the owner's id fits into a path, and
the key into a header and a file. -/
structure Outcomes.Sound (limit : ℕ) (render : Json → List Char) (outcomes : Outcomes) : Prop where
  system : ∀ k, (outcomes.system k).Caught
  login : ∀ k, (outcomes.login k).Caught
  info : Readable limit outcomes.info
  setup : ∀ k, (outcomes.setup k).Caught
  existing : ∀ k, (outcomes.existing k).Caught
  owner : ∀ k, Readable limit (outcomes.owner k)
  ownerId : ∀ k id, Clients.ownerIdOf (verdict (outcomes.owner k)).json = some id →
    isTarget (selector (mintPath render id)) = true
  mint : Readable limit outcomes.mint
  key : ∀ key, Clients.mintedKeyOf (verdict outcomes.mint).json = some key →
    ∃ text, key = .string text ∧ illegalHeader text.toList = false
  minted : ∀ k, (outcomes.minted k).Caught

section

variable {limit : ℕ} {render : Json → List Char} {outcome : Outcome} {answers : List Outcome}

theorem send_returns {request : Request} (hsendable : request.isSendable render = true)
    (h : outcome.Caught) : (send render request outcome).Returns (· = verdict outcome) := by
  have hverdict : jsonRequest outcome = .ok (verdict outcome) := hasVerdict_iff.mpr h
  refine ⟨verdict outcome, ?_, rfl⟩
  rw [send, if_pos hsendable, hverdict]

theorem parse_returns {response : Response}
    (h : ∀ body, response.parsed = some body → Clients.depth body ≤ limit) :
    (parse limit response).Returns (· = response.json) := by
  have hload : Clients.load limit response = .ok response.json := by
    rw [Clients.load, Response.json]
    cases hparsed : response.parsed with
    | none => rfl
    | some body => exact if_neg (not_lt.mpr (h body hparsed))
  refine ⟨response.json, ?_, rfl⟩
  rw [parse, hload]

theorem sendParse_returns {α : Type} {request : Request} {read : Json → α}
    (hsendable : request.isSendable render = true) (h : Readable limit outcome) :
    (do
      let response ← send render request outcome
      return read (← parse limit response)).Returns (· = read (verdict outcome).json) := by
  refine (send_returns hsendable h.caught).bind fun response hresponse => ?_
  subst hresponse
  exact (parse_returns h.shallow).bind fun body hbody => .pure (congrArg read hbody)

theorem waitForApi_returns (h : ∀ outcome ∈ answers, outcome.Caught) :
    (waitForApi render answers).Returns fun _ => True := by
  induction answers with
  | nil => exact .pure trivial
  | cons outcome rest ih =>
    rw [List.forall_mem_cons] at h
    exact (send_returns rfl h.1).bind fun _ _ => .ite (.pure trivial) (ih h.2)

theorem loginStatus_returns (cfg : Config) (h : outcome.Caught) :
    (loginStatus render cfg outcome).Returns fun _ => True :=
  (send_returns rfl h).bind fun _ _ => .pure trivial

theorem keyCheck_returns {key : Json} (hkey : isHeader key = true)
    (h : ∀ outcome ∈ answers, outcome.Caught) :
    (keyCheck render key answers).Returns fun _ => True := by
  induction answers with
  | nil => exact .pure trivial
  | cons outcome rest ih =>
    rw [List.forall_mem_cons] at h
    have hsend : (send render (.probe key) outcome).Returns (· = verdict outcome) :=
      send_returns hkey h.1
    exact hsend.bind fun _ _ => .ite (.pure trivial) (.ite (.pure trivial) (ih h.2))

/-- The owner that is waited for is read from one of the answers. -/
theorem waitForOwnerId_returns (h : ∀ outcome ∈ answers, Readable limit outcome) :
    (waitForOwnerId limit render answers).Returns fun owner => ∀ id, owner = some id →
      ∃ outcome ∈ answers, Clients.ownerIdOf (verdict outcome).json = some id := by
  induction answers with
  | nil => exact .pure fun id hid => (by cases hid)
  | cons outcome rest ih =>
    rw [List.forall_mem_cons] at h
    refine (send_returns rfl h.1.caught).bind fun response hresponse => ?_
    subst hresponse
    refine (parse_returns h.1.shallow).bind fun body hbody => ?_
    subst hbody
    refine .ite (.pure fun id hid => ⟨outcome, List.mem_cons_self, hid⟩) ?_
    obtain ⟨owner, howner, hread⟩ := ih h.2
    refine ⟨owner, howner, fun id hid => ?_⟩
    obtain ⟨other, hother, hid⟩ := hread id hid
    exact ⟨other, List.mem_cons_of_mem outcome hother, hid⟩

variable {outcomes : Outcomes}

theorem attemptSetup_returns (cfg : Config) (h : outcomes.Sound limit render)
    (attempt left : ℕ) :
    (attemptSetup render cfg outcomes attempt left).Returns fun _ => True := by
  induction left generalizing attempt with
  | zero => exact .pure trivial
  | succ left ih =>
    refine (send_returns rfl (h.setup attempt)).bind fun response _ => ?_
    have hrest (code : ℕ) : Traced.Returns (fun _ => True)
        (if code = 200 then pure true else if alreadySetup response = true then pure true
          else attemptSetup render cfg outcomes (attempt + 1) left) :=
      .ite (.pure trivial) (.ite (.pure trivial) (ih (attempt + 1)))
    dsimp only
    exact .ite ((loginStatus_returns cfg (h.login attempt)).bind fun code _ => hrest code)
      (hrest 0)

theorem ensureOwner_returns (cfg : Config) (h : outcomes.Sound limit render) :
    (ensureOwner limit render cfg outcomes).Returns fun _ => True := by
  refine (loginStatus_returns cfg (h.login 0)).bind fun code _ => .ite (.pure trivial) ?_
  refine (sendParse_returns rfl h.info).bind fun done _ => .ite (.pure trivial) ?_
  exact attemptSetup_returns cfg h 1 setupAttempts

theorem mintAndPublish_returns (cfg : Config) (faults : Faults)
    (h : outcomes.Sound limit render) :
    (mintAndPublish limit render cfg faults outcomes).Returns fun _ => True := by
  have howners : ∀ outcome ∈ (List.range ownerWaitAttempts).map outcomes.owner,
      Readable limit outcome := List.forall_mem_map.mpr fun k _ => h.owner k
  have hminted : ∀ outcome ∈ (List.range keyCheckAttempts).map outcomes.minted,
      outcome.Caught := List.forall_mem_map.mpr fun k _ => h.minted k
  refine (waitForOwnerId_returns howners).bind fun owner howner => ?_
  cases owner with
  | none => exact .pure trivial
  | some id =>
    obtain ⟨outcome, hmem, hid⟩ := howner id rfl
    obtain ⟨k, -, rfl⟩ := List.mem_map.mp hmem
    have hmint : (mintKey limit render id cfg.keyName outcomes.mint).Returns
        (· = Clients.mintedKeyOf (verdict outcomes.mint).json) :=
      sendParse_returns (h.ownerId k id hid) h.mint
    refine hmint.bind fun key hkey => ?_
    cases key with
    | none => exact .pure trivial
    | some key =>
      obtain ⟨text, rfl, hlegal⟩ := h.key key hkey.symm
      have hheader : isHeader (.string text) = true := by rw [isHeader, hlegal, Bool.not_false]
      refine (keyCheck_returns hheader hminted).bind fun verdict _ => ?_
      cases verdict with
      | ok =>
        obtain ⟨ops, done, hpublish⟩ := UosOwner.publishKey_returns faults text
        exact ⟨done, congrArg Traced.result hpublish, trivial⟩
      | rejected | noVerdict => exact .pure trivial

theorem ensureApiKey_returns (cfg : Config) (faults : Faults) {file : KeyFile}
    (hfile : illegalHeader (readKey file).toList = false) (h : outcomes.Sound limit render) :
    (ensureApiKey limit render cfg faults file outcomes).Returns fun _ => True := by
  have hheader : isHeader (.string (readKey file)) = true := by
    rw [isHeader, hfile, Bool.not_false]
  have hexisting : ∀ outcome ∈ (List.range keyCheckAttempts).map outcomes.existing,
      outcome.Caught := List.forall_mem_map.mpr fun k _ => h.existing k
  refine .ite (mintAndPublish_returns cfg faults h) ?_
  refine (keyCheck_returns hheader hexisting).bind fun verdict _ => ?_
  cases verdict with
  | ok | noVerdict => exact .pure trivial
  | rejected => exact mintAndPublish_returns cfg faults h

theorem run_returns (cfg : Config) (faults : Faults) {file : KeyFile}
    (hfile : illegalHeader (readKey file).toList = false) (h : outcomes.Sound limit render) :
    (run limit render cfg faults file outcomes).Returns fun code => code = 0 ∨ code = 1 := by
  have hsystem : ∀ outcome ∈ (List.range apiWaitAttempts).map outcomes.system, outcome.Caught :=
    List.forall_mem_map.mpr fun k _ => h.system k
  refine (waitForApi_returns hsystem).bind fun _ _ => ?_
  refine (ensureOwner_returns cfg h).bind fun seeded _ => ?_
  refine .ite (.pure (.inr rfl)) (.ite ?_ (.pure (.inl rfl)))
  refine (ensureApiKey_returns cfg faults hfile h).bind fun published _ => ?_
  exact .ite (.pure (.inl rfl)) (.pure (.inr rfl))

end

/-- A request gets its verdict exactly when nothing is raised but what is caught where it is raised;
and a run ends with 0 or 1 exactly when this holds of every request it makes, the client sends each
of them, each body it reads is shallow enough, and the key it publishes is a text. A sound console
and a key file that can be sent are enough. -/
theorem verdicts_iff (outcome : Outcome) (limit : ℕ) (render : Json → List Char) (cfg : Config)
    (faults : Faults) (file : KeyFile) (outcomes : Outcomes) :
    (outcome.HasVerdict ↔ outcome.Caught) ∧
      ((∃ code, (run limit render cfg faults file outcomes).result = some code ∧
          (code = 0 ∨ code = 1)) ↔
        ∀ e ∈ (run limit render cfg faults file outcomes).trace, ¬ e.IsFatal limit render) ∧
      (illegalHeader (readKey file).toList = false → outcomes.Sound limit render →
        ∃ code, (run limit render cfg faults file outcomes).result = some code ∧
          (code = 0 ∨ code = 1)) := by
  refine ⟨hasVerdict_iff, ?_, fun hfile hsound => run_returns cfg faults hfile hsound⟩
  have hraises := run_raises limit render cfg faults file outcomes
  constructor
  · intro h e he hfatal
    obtain ⟨code, hcode, -⟩ := h
    rw [hraises.mpr ⟨e, he, hfatal⟩] at hcode
    cases hcode
  · intro h
    cases hresult : (run limit render cfg faults file outcomes).result with
    | none =>
      obtain ⟨e, he, hfatal⟩ := hraises.mp hresult
      exact absurd hfatal (h e he)
    | some code => exact ⟨code, rfl, run_status hresult⟩

/-- Every request goes the same way. -/
def always (outcome : Outcome) : Outcomes where
  system _ := outcome
  login _ := outcome
  info := outcome
  setup _ := outcome
  existing _ := outcome
  owner _ := outcome
  mint := outcome
  minted _ := outcome

/-- A line that is no status line, and an error status whose body times out. -/
def badStatusLine : Outcome := ⟨.raised .protocolError, .body [] none⟩

def slowError : Outcome := ⟨.httpError 502, .raised .timeout⟩

/-- Either one ends the request, and the run, in an exception. -/
theorem transport_crashes :
    (¬ badStatusLine.HasVerdict ∧ (run 900 (fun _ => []) (configFromEnv fun _ => none)
        UosOwner.noFaults .absent (always badStatusLine)).result = none) ∧
      ¬ slowError.HasVerdict ∧ (run 900 (fun _ => []) (configFromEnv fun _ => none)
        UosOwner.noFaults .absent (always slowError)).result = none :=
  ⟨⟨fun h => (by cases h), rfl⟩, fun h => (by cases h), rfl⟩

end UnifiContainers.OwnerRun
