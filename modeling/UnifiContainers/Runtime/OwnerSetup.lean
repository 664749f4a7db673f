import UnifiContainers.Lib.Traced
import UnifiContainers.Runtime.SeedEnv

/-!
# First-run setup

`ensureOwner` posts `/api/setup` unless the console tells it that setup is done. Two services can
tell: unifi-core by accepting a login, ULP by its info answer. Each can also give no verdict.
-/

namespace UnifiContainers.OwnerSetup

open PyText SeedEnv

/-! ### Answers -/

inductive Json where
  | null
  | bool (value : Bool)
  | number (value : ℤ)
  /-- A double, by its bits. -/
  | float (bits : BitVec 64)
  | string (value : String)
  | array (items : List Json)
  | object (fields : List (String × Json))

/-- The truth value Python gives it. -/
def Json.truthy : Json → Bool
  | .null => false
  | .bool value => value
  | .number value => value ≠ 0
  | .float bits => bits.toNat % 2 ^ 63 ≠ 0
  | .string value => value ≠ ""
  | .array items => !items.isEmpty
  | .object fields => !fields.isEmpty

/-- An HTTP answer; status 0 is the absence of one. `parsed` is what `json.loads` makes of the
body. -/
structure Response where
  status : ℕ
  text : List Char
  parsed : Option Json

def Response.json (response : Response) : Json := response.parsed.getD (.object [])

/-- The request never completed. -/
def noVerdict : Response := ⟨0, [], none⟩

/-- `_data`. -/
def dataOf (response : Response) : Option Json :=
  match response.json with
  | .object body => body.lookup "data"
  | _ => none

/-- `Ulp.is_setup`, on the answer to its info request. -/
def isSetup (info : Response) : Bool :=
  match dataOf info with
  | some (.object data) => ((data.lookup "is_setuped").map Json.truthy).getD false
  | _ => false

/-! ### Calls -/

structure SetupRequest where
  name : List Char
  username : List Char
  password : List Char
  country : Country
  timezone : List Char
  updateFirmware : Bool
  sendDiagnostics : Bool

inductive Event where
  | login (username password : List Char) (status : ℕ)
  | info (answer : Response)
  /-- `POST /api/setup`. -/
  | setup (request : SetupRequest) (answer : Response)
  | logged (line : List Char)
  | slept (seconds : ℕ)

def Event.isPost : Event → Bool
  | .setup _ _ => true
  | _ => false

abbrev Call := Traced Event

def log (line : List Char) : Call Unit := Traced.emit (.logged line)

/-- What the console answers during one call: to the first login and the one after each attempt, to
the info request, and to each attempt. -/
structure Console where
  login : ℕ → ℕ
  ulp : Response
  setup : ℕ → Response

def setupAttempts : ℕ := 5

def setupRetrySeconds : ℕ := 15

def loginStatus (cfg : Config) (status : ℕ) : Call ℕ := do
  Traced.emit (.login cfg.username cfg.password status)
  return status

def postSetup (cfg : Config) (answer : Response) : Call Response := do
  Traced.emit (.setup ⟨cfg.consoleName, cfg.username, cfg.password, cfg.country, cfg.timezone,
    false, false⟩ answer)
  return answer

/-- `"already setup" in response.text.lower()`. -/
def alreadySetup (response : Response) : Bool :=
  "already setup".toList <:+: response.text.map Char.toLower

/-- The attempts from number `attempt` on, `left` of them. -/
def attemptSetup (cfg : Config) (console : Console) (attempt : ℕ) (last : Option Response) :
    ℕ → Call Bool
  | 0 => do
      log ("FAILED to seed owner; last response: ".toList ++
        (last.map fun response => strip response.text).getD "(never attempted)".toList)
      return false
  | left + 1 => do
      let response ← postSetup cfg (console.setup attempt)
      log ("/api/setup attempt ".toList ++ str attempt ++ " -> ".toList ++ str response.status)
      if response.status = 200 then
        if (← loginStatus cfg (console.login attempt)) = 200 then
          log ("owner '".toList ++ cfg.username ++ "' created; UOS API ready on :443".toList)
          return true
      if alreadySetup response then
        log "console reports setup already complete — treating as seeded".toList
        return true
      if attempt < setupAttempts then
        Traced.emit (.slept setupRetrySeconds)
      attemptSetup cfg console (attempt + 1) (some response) left

def ensureOwner (cfg : Config) (console : Console) : Call Bool := do
  let code ← loginStatus cfg (console.login 0)
  if code = 200 then
    log "already seeded (login OK) — nothing to do".toList
    return true
  Traced.emit (.info console.ulp)
  if isSetup console.ulp then
    log ("already seeded (login gave HTTP ".toList ++ str code ++
      ", ULP reports setup complete)".toList)
    return true
  log ("owner not present yet (login HTTP ".toList ++ str code ++
    ", ULP reports no setup) — seeding".toList)
  attemptSetup cfg console 1 none setupAttempts

/-! ### When setup is posted -/

/-- The answer carries a data object that says whether setup is done. -/
def Reports (info : Response) : Prop :=
  ∃ body data value, info.json = .object body ∧ body.lookup "data" = some (.object data) ∧
    data.lookup "is_setuped" = some value

/-- Whatever the answer says about setup, it says that setup is done. -/
def SaysDone (info : Response) : Prop :=
  ∀ body data value, info.json = .object body → body.lookup "data" = some (.object data) →
    data.lookup "is_setuped" = some value → value.truthy = true

section

variable {cfg : Config} {console : Console} {info : Response}

theorem isSetup_iff (info : Response) : isSetup info = true ↔
    ∃ body data value, info.json = .object body ∧ body.lookup "data" = some (.object data) ∧
      data.lookup "is_setuped" = some value ∧ value.truthy = true := by
  constructor
  · intro h
    rw [isSetup] at h
    split at h
    · rename_i data hdata
      rw [dataOf] at hdata
      split at hdata
      · rename_i body hbody
        cases hvalue : data.lookup "is_setuped" with
        | none => simp [hvalue] at h
        | some value => exact ⟨body, data, value, hbody, hdata, hvalue, by simpa [hvalue] using h⟩
      · cases hdata
    · cases h
  · intro ⟨body, data, value, hbody, hdata, hvalue, htruthy⟩
    simp [isSetup, dataOf, hbody, hdata, hvalue, htruthy]

theorem isSetup_iff_reports (h : SaysDone info) : isSetup info = true ↔ Reports info := by
  rw [isSetup_iff]
  constructor
  · intro ⟨body, data, value, hbody, hdata, hvalue, _⟩
    exact ⟨body, data, value, hbody, hdata, hvalue⟩
  · intro ⟨body, data, value, hbody, hdata, hvalue⟩
    exact ⟨body, data, value, hbody, hdata, hvalue, h body data value hbody hdata hvalue⟩

theorem attemptSetup_posts (cfg : Config) (console : Console) (attempt left : ℕ)
    (last : Option Response) :
    ∃ e ∈ (attemptSetup cfg console attempt last (left + 1)).trace, e.isPost = true := by
  rw [attemptSetup]
  exact ⟨_, List.mem_cons_self, rfl⟩

/-- The call ends without posting in two cases only. -/
theorem ensureOwner_posts_nothing_iff (cfg : Config) (console : Console) :
    (∀ e ∈ (ensureOwner cfg console).trace, e.isPost = false) ↔
      console.login 0 = 200 ∨ isSetup console.ulp = true := by
  by_cases hlogin : console.login 0 = 200
  · simp [ensureOwner, loginStatus, Traced.emit, log, hlogin, Event.isPost]
  · cases hsetup : isSetup console.ulp with
    | true => simp [ensureOwner, loginStatus, Traced.emit, log, hlogin, hsetup, Event.isPost]
    | false =>
      obtain ⟨e, he, hpost⟩ := attemptSetup_posts cfg console 1 4 none
      simp only [hlogin, Bool.false_eq_true, or_self, iff_false]
      intro h
      have hmem : e ∈ (ensureOwner cfg console).trace := by
        simp [ensureOwner, loginStatus, Traced.emit, log, hlogin, hsetup, setupAttempts, he]
      rw [h e hmem] at hpost
      cases hpost

/-- A console whose setup is done, and that accepts no login, is sent no setup exactly when ULP
gives its verdict. -/
theorem ensureOwner_posts_iff (cfg : Config) (console : Console)
    (hlogin : ∀ k, console.login k ≠ 200) (hulp : SaysDone console.ulp) :
    (∀ e ∈ (ensureOwner cfg console).trace, e.isPost = false) ↔ Reports console.ulp := by
  rw [ensureOwner_posts_nothing_iff, isSetup_iff_reports hulp]
  simp [hlogin 0]

theorem ensureOwner_posts_iff_answered :
    (∀ e ∈ (ensureOwner (configFromEnv fun _ => none)
        ⟨fun _ => 429, ⟨200, [], some (.object [("data", .object [("is_setuped", .bool true)])])⟩,
          fun _ => noVerdict⟩).trace, e.isPost = false) ↔
      Reports ⟨200, [], some (.object [("data", .object [("is_setuped", .bool true)])])⟩ := by
  apply ensureOwner_posts_iff
  · exact fun _ => (by decide : 429 ≠ 200)
  · intro body data value hbody hdata hvalue
    cases hbody
    cases hdata
    cases hvalue
    rfl

/-- The login is rate-limited and ULP is not up yet. -/
theorem ensureOwner_posts_again :
    ¬ ∀ (cfg : Config) (console : Console), (∀ k, console.login k ≠ 200) → SaysDone console.ulp →
      ∀ e ∈ (ensureOwner cfg console).trace, e.isPost = false := by
  intro h
  have hnone := h (configFromEnv fun _ => none)
    ⟨fun _ => 429, noVerdict, fun _ => ⟨500, "Device is already setup".toList, none⟩⟩
    (fun _ => (by decide : 429 ≠ 200)) (fun body data value hbody hdata _ => by cases hbody; cases hdata)
  rw [ensureOwner_posts_nothing_iff] at hnone
  exact absurd hnone (by decide)

end

end UnifiContainers.OwnerSetup
