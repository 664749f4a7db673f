import UnifiContainers.Updaters.Network

/-!
# The UniFi OS updater

It asks the firmware API for both platforms and for the bundled application, and rewrites the env
file of the pins and the README row. The release and the application move under two conditions.
-/

namespace UnifiContainers.Updaters.Uos

open Regex Pattern PyText Pins Fallible

def releasesUrl : Text := "https://community.ui.com/releases".toList

/-- ``^\| `ghcr\.io/jamesbraid/unifi-os-server` \| \S+ \| \[Release notes\]\([^)]*\) \|$`` -/
def readmeRowRe : Pattern Empty :=
  .ofLine (.seq (.lit "| `ghcr.io/jamesbraid/unifi-os-server` | ".toList)
    (.seq word (.seq (.lit " | [Release notes](".toList)
      (.seq (.many true (.one (· ≠ ')'))) (.lit ") |".toList)))))

structure Release where
  version : Text
  url : Text
  sha256 : Text
  deriving DecidableEq, Repr

/-- The answers to the three requests, in their order; `none` where one raised. -/
structure Answers where
  amd64 : Option Payload
  arm64 : Option Payload
  app : Option Payload

def amd64Platform : Text := "linux-x64".toList

def arm64Platform : Text := "linux-arm64".toList

def appPlatforms : List Text := ["uos-deb11-amd64".toList, "uos-deb11-arm64".toList]

/-! ### The firmware API -/

/-- `lstrip("v")` -/
def lstripV (text : Text) : Text := text.dropWhile (· = 'v')

def builds (platform : Text) (firmware : List Firmware) : List Firmware :=
  firmware.filter fun entry => entry.platform = some platform ∧ entry.channel = some gaChannel

def seen (firmware : List Firmware) : List Text :=
  sortedSet (firmware.map fun entry => shown entry.channel ++ '/' :: shown entry.platform)

def parseRelease (payload : Payload) (platform : Text) : Except Failure Release := do
  let firmware ← field payload
  match builds platform firmware with
  | [] => throw (.refused (.noBuild platform (seen firmware)))
  | entry :: _ => return ⟨lstripV (← field entry.version), ← field entry.href,
      ← field entry.sha256Checksum⟩

def appVersionOn (firmware : List Firmware) (platform : Text) : Except Failure Text := do
  match builds platform firmware with
  | [] => throw (.refused (.noAppBuild platform (seen firmware)))
  | entry :: _ => return lstripV (← field entry.version)

def parseAppVersion (payload : Payload) : Except Failure Text := do
  let firmware ← field payload
  let versions ← appPlatforms.mapM (appVersionOn firmware)
  match versions.dedup with
  | [app] => return app
  | _ => throw (.refused (.appsDisagree (sortedSet versions)))

def checkVersionsMatch (amd64 arm64 : Release) : Except Failure Unit :=
  if amd64.version ≠ arm64.version then
    .error (.refused (.mismatch amd64.version arm64.version))
  else .ok ()

/-! ### The pins -/

def subPin (text key value : Text) : Except Failure Text := do
  let (new, n) ← Network.sub (keyRe key) [] (assignment key value) text
  if n ≠ 1 then throw (.refused (.pin key))
  return new

def urlAmd64Key : Text := "UOS_URL_AMD64".toList

def shaAmd64Key : Text := "UOS_SHA256_AMD64".toList

def urlArm64Key : Text := "UOS_URL_ARM64".toList

def shaArm64Key : Text := "UOS_SHA256_ARM64".toList

def appKey : Text := "UOS_APP_VERSION".toList

def rewritePins (text version : Text) (amd64 arm64 : Release) : Except Failure Text := do
  let text ← subPin text uosKey version
  let text ← subPin text urlAmd64Key amd64.url
  let text ← subPin text shaAmd64Key amd64.sha256
  let text ← subPin text urlArm64Key arm64.url
  subPin text shaArm64Key arm64.sha256

def row (version link : Text) : Text :=
  "| `ghcr.io/jamesbraid/unifi-os-server` | ".toList ++ (version ++
    (" | [Release notes](".toList ++ (link ++ ") |".toList)))

def rewriteReadme (text version link : Text) : Except Failure Text := do
  let (text, n) ← Network.sub readmeRowRe [] (row version link) text
  if n ≠ 1 then throw (.refused .uosRow)
  return text

/-- The README that `bump` writes. -/
def newReadme (content : Option Text) (version : Text) : Except Failure Text := do
  rewriteReadme (← readText content) version releasesUrl

/-! ### The bump -/

/-- `version.split("-")[0]` -/
def upstreamPart (version : Text) : Text := version.takeWhile (· ≠ '-')

section

variable (pk : Packaging) (env : DotEnv) (net : Answers)

def appVersionMoved (current : Option Text) (latest : Text) : Except Failure Bool :=
  if current = some latest then .ok false
  else
    match current with
    | none | some [] => .ok true
    | some current => do
        let new ← version pk (upstreamPart latest)
        let old ← version pk (upstreamPart current)
        return decide (old ≤ new)

/-- What `bump` decides before anything is written. -/
structure Decision where
  amd64 : Release
  arm64 : Release
  app : Text
  uosMoved : Bool
  appMoved : Bool

def decision (text : Text) : Except Failure Decision := do
  let pinned ← field (env.values text uosKey)
  let amd64 ← parseRelease (← net.amd64.elim (.error .request) .ok) amd64Platform
  let arm64 ← parseRelease (← net.arm64.elim (.error .request) .ok) arm64Platform
  checkVersionsMatch amd64 arm64
  let app ← parseAppVersion (← net.app.elim (.error .request) .ok)
  let new ← version pk amd64.version
  let current ← pinned.elim (.error .noText) .ok
  let old ← version pk current
  let appMoved ← appVersionMoved pk ((env.values text appKey).getD (some [])) app
  return ⟨amd64, arm64, app, decide (old < new), appMoved⟩

/-- The text that `bump` writes. -/
def newPins (text : Text) (d : Decision) : Except Failure Text := do
  let text ← if d.uosMoved then rewritePins text d.amd64.version d.amd64 d.arm64 else .ok text
  subPin text appKey d.app

def bump (write : Bool) : Bump (Option Text) := do
  let files ← get
  let text ← lift (readText files.pin)
  let d ← lift (decision pk env net text)
  if !d.uosMoved && !d.appMoved then return none
  if write then
    writePin (← lift (newPins text d))
    if d.uosMoved then writeReadme (← lift (newReadme files.readme d.amd64.version))
  return some (if d.uosMoved then d.amd64.version else d.app)

end

/-! ### Rewriting one pin -/

/-- Two texts that a key cannot tell apart. -/
structure SameKey (env : DotEnv) (key text new : Text) : Prop where
  values : env.values new key = env.values text key
  reassigned : Reassigned env key new ↔ Reassigned env key text

theorem SameKey.trans {env : DotEnv} {key text mid new : Text} (h : SameKey env key text mid)
    (h' : SameKey env key mid new) : SameKey env key text new :=
  ⟨h'.values.trans h.values, h'.reassigned.trans h.reassigned⟩

/-- What a rewrite of a key leaves to the readers of the file. -/
structure Rewritten (env : DotEnv) (key value text new : Text) : Prop where
  byLine : ByLine env new
  own : env.values new key =
    if Reassigned env key text then env.values text key else some (some value)
  others : ∀ other, IsKey other → key ≠ other → SameKey env other text new

section

variable {env : DotEnv} {key value text new : Text}

theorem universalNewlines_of_byLine (h : ByLine env text) : universalNewlines text = text := by
  apply universalNewlines_of_not_mem
  intro hmem
  rw [← unlines_lines text] at hmem
  rcases mem_unlines hmem with heq | ⟨line, hline, hreturn⟩
  · cases heq
  · exact env.alone_return line (h line hline) hreturn

theorem values_eq_valueIn (env : DotEnv) (htext : ByLine env text) (key : Text) :
    env.values text key = valueIn env (lines text) key :=
  env.values_eq text htext key

theorem subPin_eq (hkey : IsKey key) (hvalue : IsWord value) (text : Text) :
    subPin text key value =
      if (lines text).any (isAssignment key) then .ok (unlines (setLine key value (lines text)))
      else .error (.refused (.pin key)) := by
  have htemplate : '\\' ∉ assignment key value :=
    not_mem_assignment hkey hvalue (by decide) (by decide) (by decide)
  have hsub := subn_plain (linePattern_keyRe key (hkey.not_mem (by decide))) [] htemplate text
  rw [subPin, Network.sub]
  simp only [hsub]
  split
  · rfl
  · rfl

theorem subPin_rewritten (env : DotEnv) (hkey : IsKey key) (hvalue : IsWord value)
    (htext : ByLine env text) (h : subPin text key value = .ok new) :
    Rewritten env key value text new := by
  rw [subPin_eq hkey hvalue] at h
  split at h
  · rename_i hany
    cases h
    have hlines : lines (unlines (setLine key value (lines text))) =
        setLine key value (lines text) :=
      lines_replaceFirst (not_mem_assignment hkey hvalue (by decide) (by decide) (by decide))
    have hnew : ByLine env (unlines (setLine key value (lines text))) := by
      intro line hline
      rw [hlines] at hline
      rcases mem_replaceFirst hline with heq | hmem
      · subst heq
        exact env.alone_word key hkey value hvalue
      · exact htext line hmem
    constructor
    · exact hnew
    · rw [values_eq_valueIn env hnew, values_eq_valueIn env htext, hlines,
        valueIn_setLine_self hkey hvalue hany]
      rfl
    · intro other hother hne
      constructor
      · rw [values_eq_valueIn env hnew, values_eq_valueIn env htext, hlines,
          valueIn_setLine_other hkey hvalue hne]
      · rw [Reassigned, Reassigned, hlines, valueIn_afterFirst_other hkey hother hvalue hne]
  · cases h

end

/-! ### The pins a bump writes -/

theorem isKey_keys : ∀ key ∈ [uosKey, urlAmd64Key, shaAmd64Key, urlArm64Key, shaArm64Key, appKey],
    IsKey key := by
  decide

structure Decision.WellFormed (d : Decision) : Prop where
  version : IsWord d.amd64.version
  urlAmd64 : IsWord d.amd64.url
  shaAmd64 : IsWord d.amd64.sha256
  urlArm64 : IsWord d.arm64.url
  shaArm64 : IsWord d.arm64.sha256
  app : IsWord d.app

section

variable {env : DotEnv} {text new : Text} {d : Decision}

/-- Four more pins are written after the version; none of them is the version or the app. -/
theorem rewritePins_rewritten (env : DotEnv) (hd : d.WellFormed) (htext : ByLine env text)
    (h : rewritePins text d.amd64.version d.amd64 d.arm64 = .ok new) :
    ByLine env new ∧
      (env.values new uosKey = if Reassigned env uosKey text then env.values text uosKey
        else some (some d.amd64.version)) ∧
      SameKey env appKey text new := by
  rw [rewritePins] at h
  obtain ⟨text₁, h₁, h⟩ := bind_ok h
  obtain ⟨text₂, h₂, h⟩ := bind_ok h
  obtain ⟨text₃, h₃, h⟩ := bind_ok h
  obtain ⟨text₄, h₄, h₅⟩ := bind_ok h
  have r₁ := subPin_rewritten env (isKey_keys uosKey (by simp)) hd.version htext h₁
  have r₂ := subPin_rewritten env (isKey_keys urlAmd64Key (by simp)) hd.urlAmd64 r₁.byLine h₂
  have r₃ := subPin_rewritten env (isKey_keys shaAmd64Key (by simp)) hd.shaAmd64 r₂.byLine h₃
  have r₄ := subPin_rewritten env (isKey_keys urlArm64Key (by simp)) hd.urlArm64 r₃.byLine h₄
  have r₅ := subPin_rewritten env (isKey_keys shaArm64Key (by simp)) hd.shaArm64 r₄.byLine h₅
  have hlater (key : Text) (hkey : IsKey key) (h₂ : urlAmd64Key ≠ key) (h₃ : shaAmd64Key ≠ key)
      (h₄ : urlArm64Key ≠ key) (h₅ : shaArm64Key ≠ key) : SameKey env key text₁ new :=
    (((r₂.others key hkey h₂).trans (r₃.others key hkey h₃)).trans (r₄.others key hkey h₄)).trans
      (r₅.others key hkey h₅)
  have huos := hlater uosKey (isKey_keys uosKey (by simp)) (by decide) (by decide) (by decide)
    (by decide)
  have happ := hlater appKey (isKey_keys appKey (by simp)) (by decide) (by decide) (by decide)
    (by decide)
  refine ⟨r₅.byLine, ?_, (r₁.others appKey (isKey_keys appKey (by simp)) (by decide)).trans happ⟩
  rw [huos.values, r₁.own]

/-- What the written pins give their readers. -/
structure Written (env : DotEnv) (d : Decision) (text new : Text) : Prop where
  byLine : ByLine env new
  app : env.values new appKey =
    if Reassigned env appKey text then env.values text appKey else some (some d.app)
  version : d.uosMoved = true → env.values new uosKey =
    if Reassigned env uosKey text then env.values text uosKey else some (some d.amd64.version)

theorem newPins_written (env : DotEnv) (hd : d.WellFormed) (htext : ByLine env text)
    (h : newPins text d = .ok new) : Written env d text new := by
  rw [newPins] at h
  have happ := isKey_keys appKey (by simp)
  by_cases hmoved : d.uosMoved = true
  · rw [if_pos hmoved] at h
    obtain ⟨mid, hmid, h⟩ := bind_ok h
    obtain ⟨hmidText, hversion, hsame⟩ := rewritePins_rewritten env hd htext hmid
    have r := subPin_rewritten env happ hd.app hmidText h
    constructor
    · exact r.byLine
    · rw [r.own, hsame.values]
      simp only [hsame.reassigned]
    · intro _
      rw [(r.others uosKey (isKey_keys uosKey (by simp)) (by decide)).values, hversion]
  · rw [if_neg hmoved] at h
    obtain ⟨mid, hmid, h⟩ := bind_ok h
    cases hmid
    have r := subPin_rewritten env happ hd.app htext h
    exact ⟨r.byLine, r.own, fun hyes => absurd hyes hmoved⟩

end

/-! ### What a bump comes to -/

theorem newReadme_ok_iff (content : Option Text) (version : Text) :
    (∃ new, newReadme content version = .ok new) ↔
      Network.HasRow readmeRowRe content ∧ (compile 0 (row version releasesUrl)).isSome = true :=
  Network.readText_bind_ok_iff
    (fun text => Network.replaceRow_ok_iff readmeRowRe (row version releasesUrl) text .uosRow)
    content

section

variable {pk : Packaging} {env : DotEnv} {net : Answers} {files after : Files}
  {result : Option Text} {text : Text} {d : Decision}

/-- The outcome of `bump(write=True)` from what it decides and writes. -/
def outcome (files : Files) (text : Text) (d : Decision) :
    EStateM.Result Failure Files (Option Text) :=
  if !d.uosMoved && !d.appMoved then .ok none files
  else
    match newPins text d with
    | .error e => .error e files
    | .ok new =>
        if d.uosMoved then
          match newReadme files.readme d.amd64.version with
          | .error e => .error e { files with pin := some new }
          | .ok readme => .ok (some d.amd64.version) ⟨some new, some readme⟩
        else .ok (some d.app) { files with pin := some new }

theorem bump_eq : bump pk env net true files =
    match readText files.pin with
    | .error e => .error e files
    | .ok text =>
        match decision pk env net text with
        | .error e => .error e files
        | .ok d => outcome files text d := by
  rw [bump, get_bind]
  cases readText files.pin with
  | error e => rfl
  | ok text =>
    rw [lift_ok_bind]
    dsimp only
    cases decision pk env net text with
    | error e => rfl
    | ok d =>
      rw [lift_ok_bind]
      dsimp only [outcome]
      by_cases hnone : (!d.uosMoved && !d.appMoved) = true
      · rw [if_pos hnone, if_pos hnone]
        rfl
      · rw [if_neg hnone, if_neg hnone, if_pos rfl]
        cases newPins text d with
        | error e => rfl
        | ok new =>
          rw [lift_ok_bind]
          cases newReadme files.readme d.amd64.version with
          | error e => cases d.uosMoved <;> rfl
          | ok readme => cases d.uosMoved <;> rfl

/-- What a decision was taken from. -/
structure Decided (pk : Packaging) (env : DotEnv) (net : Answers) (text : Text) (d : Decision) :
    Prop where
  amd64 : ∃ payload, net.amd64 = some payload ∧ parseRelease payload amd64Platform = .ok d.amd64
  arm64 : ∃ payload, net.arm64 = some payload ∧ parseRelease payload arm64Platform = .ok d.arm64
  agree : d.arm64.version = d.amd64.version
  app : ∃ payload, net.app = some payload ∧ parseAppVersion payload = .ok d.app
  uosMoved : ∃ current new old, env.values text uosKey = some (some current) ∧
    pk.version (String.ofList d.amd64.version) = some new ∧
    pk.version (String.ofList current) = some old ∧ d.uosMoved = decide (old < new)
  appMoved : appVersionMoved pk ((env.values text appKey).getD (some [])) d.app = .ok d.appMoved

theorem decision_ok (h : decision pk env net text = .ok d) : Decided pk env net text d := by
  rw [decision] at h
  obtain ⟨pinned, hpinned, h⟩ := bind_ok h
  obtain ⟨first, hfirst, h⟩ := bind_ok h
  obtain ⟨amd64, hamd64, h⟩ := bind_ok h
  obtain ⟨second, hsecond, h⟩ := bind_ok h
  obtain ⟨arm64, harm64, h⟩ := bind_ok h
  obtain ⟨_, hmatch, h⟩ := bind_ok h
  obtain ⟨third, hthird, h⟩ := bind_ok h
  obtain ⟨app, happ, h⟩ := bind_ok h
  obtain ⟨new, hnew, h⟩ := bind_ok h
  obtain ⟨current, hcurrent, h⟩ := bind_ok h
  obtain ⟨old, hold, h⟩ := bind_ok h
  obtain ⟨appMoved, happMoved, h⟩ := bind_ok h
  cases h
  have hvalue : env.values text uosKey = some (some current) := by
    rw [field_ok hpinned]
    cases pinned with
    | none => cases hcurrent
    | some value =>
      cases hcurrent
      rfl
  have hagree : arm64.version = amd64.version := by
    rw [checkVersionsMatch] at hmatch
    split at hmatch
    · cases hmatch
    · rename_i heq
      exact (not_not.mp heq).symm
  exact ⟨⟨first, answer_ok hfirst, hamd64⟩, ⟨second, answer_ok hsecond, harm64⟩, hagree,
    ⟨third, answer_ok hthird, happ⟩,
    ⟨current, new, old, hvalue, version_ok hnew, version_ok hold, rfl⟩,
    happMoved⟩

theorem mem_builds {platform : Text} {firmware : List Firmware} {entry : Firmware}
    (h : entry ∈ builds platform firmware) : entry ∈ firmware := (List.mem_filter.mp h).1

/-- A build of the platform in the release channel. -/
def IsRecord (answer : Option Payload) (platform : Text) (r : Release) : Prop :=
  ∃ firmware, answer = some (some firmware) ∧ ∃ entry ∈ builds platform firmware,
    entry.version.map lstripV = some r.version ∧ entry.href = some r.url ∧
      entry.sha256Checksum = some r.sha256

theorem parseRelease_ok {payload : Payload} {platform : Text} {r : Release}
    (h : parseRelease payload platform = .ok r) : IsRecord (some payload) platform r := by
  rw [parseRelease] at h
  obtain ⟨firmware, hfirmware, h⟩ := bind_ok h
  cases hbuilds : builds platform firmware with
  | nil =>
    rw [hbuilds] at h
    cases h
  | cons entry rest =>
    rw [hbuilds] at h
    obtain ⟨version, hversion, h⟩ := bind_ok h
    obtain ⟨url, hurl, h⟩ := bind_ok h
    obtain ⟨sha, hsha, h⟩ := bind_ok h
    cases h
    refine ⟨firmware, congrArg some (field_ok hfirmware), entry, ?_, ?_, field_ok hurl,
      field_ok hsha⟩
    · rw [hbuilds]
      exact List.mem_cons_self
    · rw [field_ok hversion]
      rfl

theorem parseAppVersion_ok {payload : Payload} {app : Text}
    (h : parseAppVersion payload = .ok app) :
    ∃ firmware, payload = some firmware ∧ ∃ entry ∈ firmware,
      entry.version.map lstripV = some app := by
  rw [parseAppVersion] at h
  obtain ⟨firmware, hfirmware, h⟩ := bind_ok h
  obtain ⟨versions, hversions, h⟩ := bind_ok h
  have hmem : app ∈ versions := by
    rw [← List.mem_dedup]
    split at h
    · rename_i single hdedup
      cases h
      rw [hdedup]
      exact List.mem_singleton_self app
    · cases h
  obtain ⟨platform, -, hplatform⟩ := mem_of_mapM_ok hversions hmem
  rw [appVersionOn] at hplatform
  cases hbuilds : builds platform firmware with
  | nil =>
    rw [hbuilds] at hplatform
    cases hplatform
  | cons entry rest =>
    rw [hbuilds] at hplatform
    obtain ⟨version, hversion, hplatform⟩ := bind_ok hplatform
    cases hplatform
    refine ⟨firmware, field_ok hfirmware, entry, mem_builds (hbuilds ▸ List.mem_cons_self), ?_⟩
    rw [field_ok hversion]
    rfl

/-- Every character of the strings of the three answers has a property. -/
structure Answers.Chars (accepts : Char → Prop) (net : Answers) : Prop where
  amd64 : AllChars accepts net.amd64
  arm64 : AllChars accepts net.arm64
  app : AllChars accepts net.app

section

variable {accepts : Char → Prop}

theorem chars_version {answer : Option Payload} {firmware : List Firmware} {entry : Firmware}
    {s : Text} (hchars : AllChars accepts answer) (hanswer : answer = some (some firmware))
    (hentry : entry ∈ firmware) (hversion : entry.version.map lstripV = some s) :
    ∀ c ∈ s, accepts c := by
  obtain ⟨version, hlisted, hs⟩ := Option.map_eq_some_iff.mp hversion
  subst hs
  intro c hc
  have hmem : version ∈ entry.texts := by simp [Firmware.texts, hlisted]
  exact hchars firmware hanswer entry hentry version hmem c
    ((List.dropWhile_sublist _).subset hc)

theorem IsRecord.chars {answer : Option Payload} {platform : Text} {r : Release}
    (h : IsRecord answer platform r) (hchars : AllChars accepts answer) :
    (∀ c ∈ r.version, accepts c) ∧ (∀ c ∈ r.url, accepts c) ∧ ∀ c ∈ r.sha256, accepts c := by
  obtain ⟨firmware, hanswer, entry, hbuild, hversion, hurl, hsha⟩ := h
  have hentry := mem_builds hbuild
  have hurlMem : r.url ∈ entry.texts := by simp [Firmware.texts, hurl]
  have hshaMem : r.sha256 ∈ entry.texts := by simp [Firmware.texts, hsha]
  exact ⟨chars_version hchars hanswer hentry hversion,
    hchars firmware hanswer entry hentry r.url hurlMem,
    hchars firmware hanswer entry hentry r.sha256 hshaMem⟩

/-- What a decision takes over from the answers. -/
structure Decision.Chars (accepts : Char → Prop) (d : Decision) : Prop where
  version : ∀ c ∈ d.amd64.version, accepts c
  urlAmd64 : ∀ c ∈ d.amd64.url, accepts c
  shaAmd64 : ∀ c ∈ d.amd64.sha256, accepts c
  urlArm64 : ∀ c ∈ d.arm64.url, accepts c
  shaArm64 : ∀ c ∈ d.arm64.sha256, accepts c
  app : ∀ c ∈ d.app, accepts c

theorem Decided.records (h : Decided pk env net text d) :
    IsRecord net.amd64 amd64Platform d.amd64 ∧ IsRecord net.arm64 arm64Platform d.arm64 := by
  obtain ⟨first, hfirst, hamd64⟩ := h.amd64
  obtain ⟨second, hsecond, harm64⟩ := h.arm64
  rw [hfirst, hsecond]
  exact ⟨parseRelease_ok hamd64, parseRelease_ok harm64⟩

theorem Decided.chars (h : Decided pk env net text d) (hnet : net.Chars accepts) :
    d.Chars accepts := by
  obtain ⟨hamd64, harm64⟩ := h.records
  obtain ⟨hversion, hurl, hsha⟩ := hamd64.chars hnet.amd64
  obtain ⟨-, hurl', hsha'⟩ := harm64.chars hnet.arm64
  obtain ⟨payload, hanswer, hparse⟩ := h.app
  obtain ⟨firmware, hfirmware, entry, hentry, happ⟩ := parseAppVersion_ok hparse
  rw [hfirmware] at hanswer
  exact ⟨hversion, hurl, hsha, hurl', hsha', chars_version hnet.app hanswer hentry happ⟩

end

structure Answers.WellFormed (net : Answers) : Prop where
  amd64 : IsWellFormed net.amd64
  arm64 : IsWellFormed net.arm64
  app : IsWellFormed net.app

theorem decision_wellFormed (hnet : net.WellFormed) (hd : decision pk env net text = .ok d) :
    d.WellFormed := by
  have h := (decision_ok hd).chars ⟨hnet.amd64, hnet.arm64, hnet.app⟩
  exact ⟨h.version, h.urlAmd64, h.shaAmd64, h.urlArm64, h.shaArm64, h.app⟩

end

/-! ### What a bump is answered, and what it leaves -/

/-- The amd64 release that the API answers. -/
def Answers.release (net : Answers) : Except Failure Release := do
  parseRelease (← net.amd64.elim (.error .request) .ok) amd64Platform

/-- The bundled application that the API answers. -/
def Answers.appVersion (net : Answers) : Except Failure Text := do
  parseAppVersion (← net.app.elim (.error .request) .ok)

/-- The library puts one text after another. -/
def Advances (pk : Packaging) (current latest : Text) : Prop :=
  ∃ old new, pk.version (String.ofList current) = some old ∧
    pk.version (String.ofList latest) = some new ∧ old < new

section

variable {pk : Packaging} {env : DotEnv} {net : Answers} {files after : Files}
  {result : Option Text} {raw text : Text} {d : Decision}

theorem Decided.release (h : Decided pk env net text d) : net.release = .ok d.amd64 := by
  obtain ⟨payload, hanswer, hparse⟩ := h.amd64
  rw [Answers.release, hanswer]
  exact hparse

theorem Decided.appVersion (h : Decided pk env net text d) :
    net.appVersion = .ok d.app := by
  obtain ⟨payload, hanswer, hparse⟩ := h.app
  rw [Answers.appVersion, hanswer]
  exact hparse

theorem Decided.advances_iff {current : Text} (h : Decided pk env net text d)
    (hcurrent : env.values text uosKey = some (some current)) :
    Advances pk current d.amd64.version ↔ d.uosMoved = true := by
  obtain ⟨pinned, new, old, hpinned, hnew, hold, hmoved⟩ := h.uosMoved
  cases hcurrent.symm.trans hpinned
  rw [hmoved, decide_eq_true_iff]
  constructor
  · intro hadvances
    obtain ⟨old', new', hold', hnew', hlt⟩ := hadvances
    cases hold.symm.trans hold'
    cases hnew.symm.trans hnew'
    exact hlt
  · intro hlt
    exact ⟨old, new, hold, hnew, hlt⟩

/-- A bump that succeeds ends in what its decision comes to. -/
theorem bump_ok (hpin : files.pin = some raw)
    (h : bump pk env net true files = .ok result after) :
    ∃ d, decision pk env net (universalNewlines raw) = .ok d ∧
      outcome files (universalNewlines raw) d = .ok result after := by
  rw [bump_eq, hpin] at h
  dsimp only [readText] at h
  cases hd : decision pk env net (universalNewlines raw) with
  | error e =>
    rw [hd] at h
    cases h
  | ok d =>
    rw [hd] at h
    exact ⟨d, rfl, h⟩

/-- A success either changes nothing, or leaves the rewritten pins. -/
theorem outcome_ok (h : outcome files text d = .ok result after) :
    d.uosMoved = false ∧ d.appMoved = false ∧ after = files ∧ result = none ∨
      (d.uosMoved = true ∨ d.appMoved = true) ∧
        ∃ new, newPins text d = .ok new ∧ after.pin = some new ∧ ∃ v, result = some v := by
  rw [outcome] at h
  by_cases hnone : (!d.uosMoved && !d.appMoved) = true
  · rw [if_pos hnone] at h
    cases h
    left
    rw [Bool.and_eq_true, Bool.not_eq_true', Bool.not_eq_true'] at hnone
    exact ⟨hnone.1, hnone.2, rfl, rfl⟩
  · rw [if_neg hnone] at h
    right
    constructor
    · cases huos : d.uosMoved
      · cases happ : d.appMoved
        · exact absurd (by rw [huos, happ]; rfl) hnone
        · exact .inr rfl
      · exact .inl rfl
    · cases hnew : newPins text d with
      | error e =>
        rw [hnew] at h
        cases h
      | ok new =>
        rw [hnew] at h
        refine ⟨new, rfl, ?_⟩
        dsimp only at h
        split at h
        · split at h
          · cases h
          · cases h
            exact ⟨rfl, _, rfl⟩
        · cases h
          exact ⟨rfl, _, rfl⟩

end

/-! ### The bundled application -/

/-- The upstream `X.Y.Z` part of the application that a text pins. -/
def PinnedApp (env : DotEnv) (text : Text) (v : VersionText) : Prop :=
  ∃ app, env.values text appKey = some (some app) ∧ upstreamPart app = v.upstream

section

variable {pk : Versions} {env : DotEnv} {net : Answers} {files after : Files}
  {result : Option Text} {raw text : Text} {d : Decision} {v w x : VersionText}

theorem upstreamRank_congr (pk : Versions) (h : v.upstream = w.upstream) :
    upstreamRank v = upstreamRank w := by
  obtain ⟨k, hk⟩ := pk.plain v
  have hk' : pk.version (String.ofList w.upstream) = some k := by rw [← h, hk]
  exact le_antisymm ((pk.plain_le_iff hk hk').mp (le_refl k))
    ((pk.plain_le_iff hk' hk).mp (le_refl k))

theorem upstream_ne_nil (v : VersionText) : v.upstream ≠ [] := by
  simp [VersionText.upstream]

theorem ne_nil_of_upstreamPart {app : Text} (h : upstreamPart app = w.upstream) : app ≠ [] := by
  intro hnil
  subst hnil
  exact upstream_ne_nil w h.symm

/-- An application that moves on its own does not move back. -/
theorem appMoved_le {current latest : Text} (hcurrent : upstreamPart current = v.upstream)
    (hlatest : upstreamPart latest = w.upstream)
    (h : appVersionMoved pk.toPackaging (some current) latest = .ok true) :
    upstreamRank v ≤ upstreamRank w := by
  unfold appVersionMoved at h
  split at h
  · cases h
  · split at h
    · rename_i heq
      cases heq
    · rename_i heq
      cases heq
      exact absurd rfl (ne_nil_of_upstreamPart hcurrent)
    · rename_i text _ heq
      cases heq
      obtain ⟨new, hnew, h⟩ := bind_ok h
      obtain ⟨old, hold, h⟩ := bind_ok h
      have hnew' := version_ok hnew
      have hold' := version_ok hold
      rw [hlatest] at hnew'
      rw [hcurrent] at hold'
      have hle : old ≤ new := of_decide_eq_true (Except.ok.inj h)
      exact (pk.plain_le_iff hold' hnew').mp hle

/-- A bump that succeeds keeps or raises the upstream version of the bundled application exactly if
neither pin is due to move, or a later line assigns the application again, or the application that
the API answers is `X.Y.Z` upstream and, where the release moves, not an older one. -/
theorem bump_app_forward_iff (pk : Versions) (env : DotEnv) (net : Answers) (files after : Files)
    (result : Option Text) (raw current before app : Text) (release : Release) (v : VersionText)
    (hpin : files.pin = some raw) (htext : ByLine env (universalNewlines raw))
    (hnet : net.WellFormed)
    (hcurrent : env.values (universalNewlines raw) uosKey = some (some current))
    (hbefore : env.values (universalNewlines raw) appKey = some (some before))
    (hv : upstreamPart before = v.upstream)
    (hrelease : net.release = .ok release) (happ : net.appVersion = .ok app)
    (h : bump pk.toPackaging env net true files = .ok result after) :
    (∃ new x, after.pin = some new ∧ PinnedApp env (universalNewlines new) x ∧
        upstreamRank v ≤ upstreamRank x) ↔
      (Advances pk.toPackaging current release.version ∨
          appVersionMoved pk.toPackaging (some before) app = .ok true →
        Reassigned env appKey (universalNewlines raw) ∨
          ∃ w : VersionText, upstreamPart app = w.upstream ∧
            (Advances pk.toPackaging current release.version →
              upstreamRank v ≤ upstreamRank w)) := by
  obtain ⟨d, hd, hresult⟩ := bump_ok hpin h
  have hdecided := decision_ok hd
  cases hdecided.release.symm.trans hrelease
  cases hdecided.appVersion.symm.trans happ
  have hmoved := hdecided.appMoved
  rw [hbefore, Option.getD_some] at hmoved
  have hwords := decision_wellFormed hnet hd
  rw [hdecided.advances_iff hcurrent, hmoved, Except.ok.injEq]
  rcases outcome_ok hresult with ⟨huos, hsame, hfiles, -⟩ | ⟨hmove, new, hnew, hpinned, -⟩
  · subst hfiles
    rw [huos, hsame]
    refine ⟨fun _ hyes => ?_, fun _ => ⟨raw, v, hpin, ⟨before, hbefore, hv⟩, le_refl _⟩⟩
    rcases hyes with hyes | hyes
    · cases hyes
    · cases hyes
  · have hwritten := newPins_written env hwords htext hnew
    have hread : universalNewlines new = new := universalNewlines_of_byLine hwritten.byLine
    by_cases hagain : Reassigned env appKey (universalNewlines raw)
    · have hsame := hwritten.app
      rw [if_pos hagain, hbefore] at hsame
      refine ⟨fun _ _ => .inl hagain, fun _ => ?_⟩
      refine ⟨new, v, hpinned, ⟨before, ?_, hv⟩, le_refl _⟩
      rw [hread]
      exact hsame
    · have hvalue := hwritten.app
      rw [if_neg hagain] at hvalue
      constructor
      · intro hforward _
        obtain ⟨new', x, hnew', ⟨app, happ', hx⟩, hle⟩ := hforward
        cases hpinned.symm.trans hnew'
        rw [hread, hvalue] at happ'
        cases happ'
        exact .inr ⟨x, hx, fun _ => hle⟩
      · intro hcond
        rcases hcond hmove with hyes | ⟨w, hw, hle⟩
        · exact absurd hyes hagain
        · refine ⟨new, w, hpinned, ⟨d.app, ?_, hw⟩, ?_⟩
          · rw [hread]
            exact hvalue
          · cases huos : d.uosMoved with
            | true => exact hle huos
            | false =>
              rcases hmove with hyes | happMoved
              · rw [huos] at hyes
                cases hyes
              · rw [happMoved] at hmoved
                exact appMoved_le hv hw hmoved

end

/-! ### A release that comes with an older application -/

def build (platform version href sha256 : String) : Firmware where
  channel := some gaChannel
  platform := some platform.toList
  version := some version.toList
  versionMajor := none
  versionMinor := none
  versionPatch := none
  href := some href.toList
  sha256Checksum := some sha256.toList

def answering (release app : String) : Answers where
  amd64 := some (some [build "linux-x64" release "https://fw-download.ubnt.com/x64" "f6"])
  arm64 := some (some [build "linux-arm64" release "https://fw-download.ubnt.com/arm64" "8e"])
  app := some (some [build "uos-deb11-amd64" app "https://fw-download.ubnt.com/amd64" "0a",
    build "uos-deb11-arm64" app "https://fw-download.ubnt.com/arm64" "0a"])

def pinning (release app : String) : Text :=
  "UOS_VERSION=".toList ++ (release.toList ++
    ("\nUOS_URL_AMD64=https://fw-download.ubnt.com/x64\nUOS_SHA256_AMD64=f6".toList ++
      ("\nUOS_URL_ARM64=https://fw-download.ubnt.com/arm64\nUOS_SHA256_ARM64=8e".toList ++
        ("\nUOS_APP_VERSION=".toList ++ (app.toList ++ ['\n'])))))

def repo (release app : String) : Files where
  pin := some (pinning release app)
  readme := some (row release.toList releasesUrl)

def upstreamText (major minor patch : {s : List Char // IsNumeral s}) : VersionText :=
  ⟨major, minor, patch, ⟨"0".toList, by decide⟩⟩

def app101 : VersionText :=
  upstreamText ⟨"10".toList, by decide⟩ ⟨"6".toList, by decide⟩ ⟨"101".toList, by decide⟩

def app109 : VersionText :=
  upstreamText ⟨"10".toList, by decide⟩ ⟨"6".toList, by decide⟩ ⟨"109".toList, by decide⟩

theorem wellFormed_answering_newer : (answering "v5.1.43" "10.6.109-36013-1").WellFormed := by
  constructor <;> (intro firmware h; cases h; decide)

theorem wellFormed_answering_older : (answering "v5.1.43" "10.6.101-35991-1").WellFormed := by
  constructor <;> (intro firmware h; cases h; decide)

/-- The release moves on, and the application of a torn read is pinned with it. -/
theorem bump_app_older : ¬ ∀ (pk : Versions) (env : DotEnv) (net : Answers) (files after : Files)
    (result : Option Text) (raw : Text) (v : VersionText), files.pin = some raw →
    ByLine env (universalNewlines raw) → net.WellFormed → PinnedApp env (universalNewlines raw) v →
    bump pk.toPackaging env net true files = .ok result after →
      ∃ new x, after.pin = some new ∧ PinnedApp env (universalNewlines new) x ∧
        upstreamRank v ≤ upstreamRank x := by
  intro hforward
  have hbump : bump numericVersions.toPackaging lineEnv
      (answering "v5.1.43" "10.6.101-35991-1") true (repo "5.1.42" "10.6.109-36013-1") =
        .ok (some "5.1.43".toList) (repo "5.1.43" "10.6.101-35991-1") := by
    decide +kernel
  have hpinned : PinnedApp lineEnv (universalNewlines (pinning "5.1.42" "10.6.109-36013-1"))
      app109 := ⟨"10.6.109-36013-1".toList, by decide +kernel, by decide +kernel⟩
  obtain ⟨new, x, hnew, ⟨app, happ, hx⟩, hle⟩ := hforward numericVersions lineEnv _ _ _ _ _
    app109 rfl (by decide +kernel) wellFormed_answering_older hpinned hbump
  cases hnew
  have hvalue : lineEnv.values (universalNewlines (pinning "5.1.43" "10.6.101-35991-1")) appKey =
      some (some "10.6.101-35991-1".toList) := by
    decide +kernel
  cases hvalue.symm.trans happ
  have hsame : app101.upstream = x.upstream := by
    rw [← hx]
    decide +kernel
  rw [← upstreamRank_congr numericVersions hsame] at hle
  revert hle
  decide +kernel

/-- The release moves on, and a newer application with it. -/
theorem bump_app_newer : ∃ new x,
    (repo "5.1.43" "10.6.109-36013-1").pin = some new ∧
      PinnedApp lineEnv (universalNewlines new) x ∧ upstreamRank app101 ≤ upstreamRank x := by
  have hbump : bump numericVersions.toPackaging lineEnv
      (answering "v5.1.43" "10.6.109-36013-1") true (repo "5.1.42" "10.6.101-35991-1") =
        .ok (some "5.1.43".toList) (repo "5.1.43" "10.6.109-36013-1") := by
    decide +kernel
  apply (bump_app_forward_iff numericVersions lineEnv (answering "v5.1.43" "10.6.109-36013-1")
    (repo "5.1.42" "10.6.101-35991-1") _ _ (pinning "5.1.42" "10.6.101-35991-1") "5.1.42".toList
    "10.6.101-35991-1".toList "10.6.109-36013-1".toList
    ⟨"5.1.43".toList, "https://fw-download.ubnt.com/x64".toList, "f6".toList⟩ app101 rfl
    (by decide +kernel) wellFormed_answering_newer (by decide +kernel) (by decide +kernel)
    (by decide +kernel) (by decide +kernel) (by decide +kernel) hbump).mpr
  intro _
  exact .inr ⟨app109, by decide +kernel, fun _ => by decide +kernel⟩

end UnifiContainers.Updaters.Uos
