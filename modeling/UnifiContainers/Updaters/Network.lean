import UnifiContainers.Updaters.Firmware

/-!
# The Network updater

It takes the GA version and its checksum from the firmware API and the release-notes link from the
community feed, and rewrites the pins in the Dockerfile and the README row.
-/

namespace UnifiContainers.Updaters.Network

open Regex Pattern PyText Pins

def debPlatform : Text := "debian".toList

def fallbackLink : Text := "https://community.ui.com/releases".toList

def pkgshaRe : Pattern Unit := argRe "PKGSHA256".toList

/-- ``^\| `ghcr\.io/jamesbraid/unifi-network` \| \S+ \| \[Release notes\]\([^)]*\) \|$`` -/
def readmeRowRe : Pattern Empty :=
  .ofLine (.seq (.lit "| `ghcr.io/jamesbraid/unifi-network` | ".toList)
    (.seq word (.seq (.lit " | [Release notes](".toList)
      (.seq (.many true (.one (· ≠ ')'))) (.lit ") |".toList)))))

/-- What the updater is answered; `none` where a request or the reading of its payload raised. -/
structure Answers where
  ga : Option Payload
  deb : Option Payload
  /-- The hash of what is downloaded from a URL. -/
  artifactSha256 : Text → Option Text
  feed : Option (List (Option Text × Option Text))

/-! ### The feed -/

/-- `feed_links(feed).get(version)`: the first entry of a version counts. -/
def feedLink (entries : List (Option Text × Option Text)) (version : Text) : Option Text :=
  (entries.find? fun entry =>
    searchGroup (.group () dotted) () (entry.1.getD []) = some version).map fun entry =>
      strip (entry.2.getD [])

def releaseNotesLink (feed : Option (List (Option Text × Option Text))) (version : Text) : Text :=
  match feed.bind fun entries => feedLink entries version with
  | none | some [] => fallbackLink
  | some link => link

/-! ### The firmware API -/

def versionOf (entry : Firmware) : Except Failure Text := do
  let major ← field entry.versionMajor
  let minor ← field entry.versionMinor
  let patch ← field entry.versionPatch
  return str major ++ '.' :: (str minor ++ '.' :: str patch)

/-- The numbers of a record's version. -/
def numbers (entry : Firmware) : Option Rank := do
  return mkRank (← entry.versionMajor) (← entry.versionMinor) (← entry.versionPatch) 0

def parseGaVersion (pk : Packaging) (payload : Payload) : Except Failure Text := do
  let firmware := payload.getD []
  let versions ← (firmware.filter fun entry => entry.channel = some gaChannel).mapM versionOf
  let keyed ← versions.dedup.mapM fun text => do return (← version pk text, text)
  match keyed.argmax Prod.fst with
  | none => throw (.refused (.noGa (sortedSet (firmware.map fun entry => shown entry.channel))))
  | some newest => return newest.2

/-- `parse_deb_sha256`, in the records that are left. -/
def debSha256 (version : Text) : List Firmware → Except Failure (Option Text)
  | [] => return none
  | entry :: rest =>
      if entry.channel ≠ some gaChannel ∨ entry.platform ≠ some debPlatform then
        debSha256 version rest
      else do
        if (← versionOf entry) = version then
          return some (← field entry.sha256Checksum)
        else debSha256 version rest

def parseDebSha256 (payload : Payload) (version : Text) : Except Failure (Option Text) :=
  debSha256 version (payload.getD [])

/-! ### The pins -/

def buildPkgurl (version : Text) : Text :=
  "https://dl.ui.com/unifi/".toList ++ (version ++ "/unifi_sysvinit_all.deb".toList)

def readPins (dockerfile : Text) : Except Failure (Text × Text × Text) :=
  match searchGroup pkgurlRe () dockerfile, searchGroup pkgshaRe () dockerfile with
  | some url, some sha =>
      match searchGroup versionInUrlRe () url with
      | none => .error (.refused (.noVersionInUrl url))
      | some version => .ok (url, sha, version)
  | _, _ => .error (.refused .missingPins)

/-- `pattern.subn(template, text, count=1)` with its exceptions. -/
def sub {γ : Type} [DecidableEq γ] (p : Pattern γ) (names : List γ) (template text : Text) :
    Except Failure (Text × ℕ) :=
  match subn p names template text with
  | none => .error .template
  | some replaced => .ok replaced

def rewriteDockerfile (text url sha256 : Text) : Except Failure Text := do
  let (text, nUrl) ← sub pkgurlRe [()] (argLine "PKGURL".toList url) text
  let (text, nSha) ← sub pkgshaRe [()] (argLine "PKGSHA256".toList sha256) text
  if nUrl ≠ 1 ∨ nSha ≠ 1 then throw (.refused .dockerfilePins)
  return text

def row (version link : Text) : Text :=
  "| `ghcr.io/jamesbraid/unifi-network` | ".toList ++ (version ++
    (" | [Release notes](".toList ++ (link ++ ") |".toList)))

def rewriteReadme (text version link : Text) : Except Failure Text := do
  let (text, n) ← sub readmeRowRe [] (row version link) text
  if n ≠ 1 then throw (.refused .networkRow)
  return text

/-- The README that `bump` writes. -/
def newReadme (content : Option Text) (version link : Text) : Except Failure Text := do
  rewriteReadme (← readText content) version link

/-! ### The bump -/

section

variable (pk : Packaging) (net : Answers)

/-- The part of `bump` before anything is written: the version to move to with its URL and
checksum, if there is one. -/
def due (dockerfile : Text) : Except Failure (Option (Text × Text × Text)) := do
  let (_, _, current) ← readPins dockerfile
  let ga ← net.ga.elim (.error .request) .ok
  let newest ← parseGaVersion pk ga
  if (← version pk newest) ≤ (← version pk current) then return none
  let url := buildPkgurl newest
  let deb ← net.deb.elim (.error .request) .ok
  let sha ← match ← parseDebSha256 deb newest with
    | none | some [] => (net.artifactSha256 url).elim (.error .request) .ok
    | some sha => .ok sha
  return some (newest, url, sha)

def bump (write : Bool) : Bump (Option Text) := do
  let files ← get
  let dockerfile ← lift (readText files.pin)
  match ← lift (due pk net dockerfile) with
  | none => return none
  | some (newest, url, sha) =>
      if write then
        writePin (← lift (rewriteDockerfile dockerfile url sha))
        writeReadme (← lift (newReadme files.readme newest (releaseNotesLink net.feed newest)))
      return some newest

end

/-! ### The README -/

/-- A README that is text and has a row for the pattern. -/
def HasRow (p : Pattern Empty) (content : Option Text) : Prop :=
  ∃ raw, content = some raw ∧ (search p (universalNewlines raw)).isSome = true

/-- One row is rewritten exactly if it is there and the new one is a template. -/
theorem replaceRow_ok_iff (p : Pattern Empty) (template text : Text) (refusal : Refusal) :
    (∃ new, (do
      let (text, n) ← sub p [] template text
      if n ≠ 1 then throw (.refused refusal)
      return text : Except Failure Text) = .ok new) ↔
      (compile 0 template).isSome = true ∧ (search p text).isSome = true := by
  rw [sub, subn]
  show _ ↔ (compile ([] : List Empty).length template).isSome = true ∧ _
  cases compile ([] : List Empty).length template with
  | none => simp [bind, Except.bind]
  | some pieces =>
    cases search p text with
    | none => simp [bind, Except.bind, throw, throwThe, MonadExceptOf.throw]
    | some found => simp [bind, Except.bind, pure, Except.pure]

theorem readText_bind_ok_iff {p : Pattern Empty} {template : Text}
    {rewrite : Text → Except Failure Text}
    (hrewrite : ∀ text, (∃ new, rewrite text = .ok new) ↔
      (compile 0 template).isSome = true ∧ (search p text).isSome = true) (content : Option Text) :
    (∃ new, (readText content >>= rewrite) = .ok new) ↔
      HasRow p content ∧ (compile 0 template).isSome = true := by
  cases content with
  | none =>
    constructor
    · intro h
      obtain ⟨new, hnew⟩ := h
      cases hnew
    · intro h
      obtain ⟨⟨raw, hraw, -⟩, -⟩ := h
      cases hraw
  | some raw =>
    show (∃ new, rewrite (universalNewlines raw) = .ok new) ↔ _
    rw [hrewrite, and_comm]
    apply and_congr_left
    intro _
    constructor
    · intro h
      exact ⟨raw, rfl, h⟩
    · intro h
      obtain ⟨_, heq, hrow⟩ := h
      cases heq
      exact hrow

theorem newReadme_ok_iff (content : Option Text) (version link : Text) :
    (∃ new, newReadme content version link = .ok new) ↔
      HasRow readmeRowRe content ∧ (compile 0 (row version link)).isSome = true :=
  readText_bind_ok_iff
    (fun text => replaceRow_ok_iff readmeRowRe (row version link) text .networkRow) content

/-! ### What a bump comes to -/

/-- The outcome of `bump(write=True)` from what is due. -/
theorem bump_eq (pk : Packaging) (net : Answers) (files : Files) : bump pk net true files =
    match readText files.pin with
    | .error e => .error e files
    | .ok dockerfile =>
        match due pk net dockerfile with
        | .error e => .error e files
        | .ok none => .ok none files
        | .ok (some (newest, url, sha)) =>
            match rewriteDockerfile dockerfile url sha with
            | .error e => .error e files
            | .ok new =>
                match newReadme files.readme newest (releaseNotesLink net.feed newest) with
                | .error e => .error e { files with pin := some new }
                | .ok readme => .ok (some newest) ⟨some new, some readme⟩ := by
  rw [bump, get_bind]
  cases readText files.pin with
  | error e => rfl
  | ok dockerfile =>
    rw [lift_ok_bind]
    dsimp only
    cases due pk net dockerfile with
    | error e => rfl
    | ok found =>
      rw [lift_ok_bind]
      cases found with
      | none => rfl
      | some moved =>
        obtain ⟨newest, url, sha⟩ := moved
        dsimp only
        rw [if_pos rfl]
        cases rewriteDockerfile dockerfile url sha with
        | error e => rfl
        | ok new =>
          rw [lift_ok_bind]
          cases newReadme files.readme newest (releaseNotesLink net.feed newest) with
          | error e => rfl
          | ok readme => rfl

end UnifiContainers.Updaters.Network
