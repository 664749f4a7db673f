import UnifiContainers.Updaters.UosPins
import UnifiContainers.Updaters.Verify

/-!
# The UniFi OS pins at build time

The extraction takes the installer's URL and checksum for an architecture from the env file that the
updater rewrites and CI checks. From pins that pass the check, every run of the updater leads to pins
that pass it and that name a download and its checksum for each architecture.
-/

namespace UnifiContainers.Updaters.Uos

open Regex Pattern PyText Pins Fallible

/-! ### The check -/

def shaKeys : List Text := [shaAmd64Key, shaArm64Key]

def urlKeys : List Text := [urlAmd64Key, urlArm64Key]

/-- `\d+\.\d+\.\d+-\d+-\d+` -/
def dpkgRe : Pattern Empty := .seq dotted (.seq (.lit ['-']) (.seq digits (.seq (.lit ['-']) digits)))

/-- `re.fullmatch` -/
def fullmatch {γ : Type} [DecidableEq γ] (p : Pattern γ) (text : Text) : Bool :=
  (run p (Cursor.start text)).any fun found => found.after.isEmpty

/-- What `verify` prints. -/
inductive Finding where
  | missing (key : Text)
  | badSha256 (key : Text)
  | unreachable (key url : Text)
  | badApp (app : Text)
  | fine (version app : Text)
  deriving DecidableEq, Repr

/-- The printed line; `quoted` is Python's `repr`. -/
def Finding.message (quoted : Text → Text) : Finding → Text
  | .missing key => "FAIL: ".toList ++ key ++ " missing from pins.env".toList
  | .badSha256 key => "FAIL: ".toList ++ key ++ " is not a 64-hex-digit sha256".toList
  | .unreachable key url => "FAIL: ".toList ++ key ++ " not reachable: ".toList ++ url
  | .badApp app => "FAIL: UOS_APP_VERSION is not a full dpkg version: ".toList ++ quoted app
  | .fine version app => "ok: ".toList ++ version ++ " app ".toList ++ app

/-- The exit status. -/
def Finding.status : Finding → ℕ
  | .fine _ _ => 0
  | _ => 1

section

variable (env : DotEnv) (reachable : Text → Bool)

/-- The value of a key, empty where there is none. -/
def pin (text key : Text) : Text := ((env.values text key).join).getD []

/-- `verify`, with the URLs that answer. -/
def verify (content : Option Text) : Except Failure Finding := do
  let text ← readText content
  match (uosKey :: (shaKeys ++ urlKeys)).find? fun key => pin env text key = [] with
  | some key => return .missing key
  | none =>
      match shaKeys.find? fun key => !isSha256 (pin env text key) with
      | some key => return .badSha256 key
      | none =>
          match urlKeys.find? fun key => !reachable (pin env text key) with
          | some key => return .unreachable key (pin env text key)
          | none => do
              let app ← ((env.values text appKey).getD (some [])).elim (.error .noText) .ok
              return if fullmatch dpkgRe app then .fine (pin env text uosKey) app else .badApp app

/-! ### The extraction -/

inductive Suffix where
  | amd64
  | arm64
  deriving DecidableEq, Repr

def Suffix.text : Suffix → Text
  | .amd64 => "AMD64".toList
  | .arm64 => "ARM64".toList

/-- `ARCHES` -/
def arches (arch : String) : Option Suffix :=
  if arch = "amd64" ∨ arch = "x86_64" then some .amd64
  else if arch = "arm64" ∨ arch = "aarch64" then some .arm64
  else none

/-- The `ExtractError`s of `select`. -/
inductive ExtractError where
  | unsupported (arch : String)
  | missing (key : Text)
  deriving DecidableEq, Repr

def ExtractError.message : ExtractError → Text
  | .unsupported arch => "unsupported arch: ".toList ++ arch.toList
  | .missing key => key ++ " missing from pins.env".toList

/-- `pins[key]`; a key without a value is there. -/
def item (text key : Text) : Except ExtractError (Option Text) :=
  (env.values text key).elim (.error (.missing key)) .ok

/-- `select` -/
def select (text : Text) (arch : String) : Except ExtractError (Option Text × Option Text) :=
  match arches arch with
  | none => .error (.unsupported arch)
  | some suffix => do
      let url ← item env text ("UOS_URL_".toList ++ suffix.text)
      let sha256 ← item env text ("UOS_SHA256_".toList ++ suffix.text)
      return (url, sha256)

end

/-! ### Pins that pass -/

section

variable {env : DotEnv} {reachable : Text → Bool} {raw text key value v app : Text}

theorem values_of_pin (h : pin env text key ≠ []) :
    env.values text key = some (some (pin env text key)) := by
  rw [pin] at h ⊢
  cases hvalue : env.values text key with
  | none =>
    rw [hvalue] at h
    exact absurd rfl h
  | some found =>
    cases found with
    | none =>
      rw [hvalue] at h
      exact absurd rfl h
    | some value => rfl

theorem pin_eq (h : env.values text key = some (some value)) : pin env text key = value := by
  rw [pin, h]
  rfl

/-- What the check has seen of pins that pass it. -/
structure Checked (env : DotEnv) (reachable : Text → Bool) (text v app : Text) : Prop where
  present : ∀ key ∈ releaseKeys, pin env text key ≠ []
  sha256 : ∀ key ∈ shaKeys, isSha256 (pin env text key) = true
  url : ∀ key ∈ urlKeys, reachable (pin env text key) = true
  version : pin env text uosKey = v
  bundled : (env.values text appKey).getD (some []) = some app
  full : fullmatch dpkgRe app = true

theorem mem_checkedKeys : key ∈ uosKey :: (shaKeys ++ urlKeys) ↔ key ∈ releaseKeys := by
  have hsub : ∀ key ∈ uosKey :: (shaKeys ++ urlKeys), key ∈ releaseKeys := by decide
  have hsup : ∀ key ∈ releaseKeys, key ∈ uosKey :: (shaKeys ++ urlKeys) := by decide
  exact ⟨hsub key, hsup key⟩

theorem verify_fine_iff : verify env reachable (some raw) = .ok (.fine v app) ↔
    Checked env reachable (universalNewlines raw) v app := by
  rw [verify, readText, ok_bind]
  generalize universalNewlines raw = text
  constructor
  · intro h
    split at h
    · cases h
    · rename_i hpresent
      split at h
      · cases h
      · rename_i hsha
        split at h
        · cases h
        · rename_i hurl
          rw [List.find?_eq_none] at hpresent hsha hurl
          obtain ⟨found, hfound, h⟩ := bind_ok h
          have happ : (env.values text appKey).getD (some []) = some found := by
            cases hvalue : (env.values text appKey).getD (some []) with
            | none =>
              rw [hvalue] at hfound
              cases hfound
            | some value =>
              rw [hvalue] at hfound
              cases hfound
              rfl
          split at h
          · rename_i hfull
            cases h
            exact {
              present := fun key hkey => by simpa using hpresent key (mem_checkedKeys.mpr hkey)
              sha256 := fun key hkey => by simpa using hsha key hkey
              url := fun key hkey => by simpa using hurl key hkey
              version := rfl
              bundled := happ
              full := hfull }
          · cases h
  · intro h
    have hpresent : (uosKey :: (shaKeys ++ urlKeys)).find? (fun key => pin env text key = []) =
        none := by
      rw [List.find?_eq_none]
      intro key hkey
      simpa using h.present key (mem_checkedKeys.mp hkey)
    have hsha : shaKeys.find? (fun key => !isSha256 (pin env text key)) = none := by
      rw [List.find?_eq_none]
      intro key hkey
      simp [h.sha256 key hkey]
    have hurl : urlKeys.find? (fun key => !reachable (pin env text key)) = none := by
      rw [List.find?_eq_none]
      intro key hkey
      simp [h.url key hkey]
    rw [hpresent, hsha, hurl, h.bundled, h.version]
    dsimp only
    rw [Option.elim_some, ok_bind, if_pos h.full]
    rfl

/-- From pins that pass, each architecture of the table gets a download and its checksum. -/
theorem Checked.select (h : Checked env reachable text v app) {arch : String} {suffix : Suffix}
    (harch : arches arch = some suffix) :
    ∃ url sha256, select env text arch = .ok (some url, some sha256) ∧ reachable url = true ∧
      isSha256 sha256 = true := by
  have hurl : "UOS_URL_".toList ++ suffix.text ∈ urlKeys := by
    cases suffix <;> decide
  have hsha : "UOS_SHA256_".toList ++ suffix.text ∈ shaKeys := by
    cases suffix <;> decide
  have hmem : ∀ key ∈ urlKeys ++ shaKeys, key ∈ releaseKeys := by decide
  have hurlValue := values_of_pin (h.present _ (hmem _ (List.mem_append_left _ hurl)))
  have hshaValue := values_of_pin (h.present _ (hmem _ (List.mem_append_right _ hsha)))
  refine ⟨_, _, ?_, h.url _ hurl, h.sha256 _ hsha⟩
  rw [Uos.select, harch]
  dsimp only
  rw [item, hurlValue, Option.elim_some]
  simp only [item, hshaValue, Option.elim_some]
  rfl

end

/-! ### Bumps -/

/-- The API names versions and downloads that are there, checksums in the form of a pin and full
versions of the bundled application. -/
structure Answers.Published (reachable : Text → Bool) (net : Answers) : Prop where
  chars : net.Chars IsPlainChar
  release : ∀ r, IsRecord net.amd64 amd64Platform r ∨ IsRecord net.arm64 arm64Platform r →
    r.version ≠ [] ∧ r.url ≠ [] ∧ isSha256 r.sha256 = true ∧ reachable r.url = true
  app : ∀ app, net.appVersion = .ok app → fullmatch dpkgRe app = true

/-- A well-formed env file whose pins pass the check, at a version not older than `v`. -/
def PassesFrom (pk : Packaging) (env : DotEnv) (reachable : Text → Bool) (v : Text)
    (files : Files) : Prop :=
  ∃ raw v' app, files.pin = some raw ∧ WellFormed (universalNewlines raw) ∧
    verify env reachable files.pin = .ok (.fine v' app) ∧ NotOlder pk v v'

/-- One run of the updater. -/
def bumpStep (pk : Packaging) (env : DotEnv) (files : Files) (net : Answers) : Option Files :=
  some (left (bump pk env net true) files)

section

variable {pk : Packaging} {env : EnvReader} {reachable : Text → Bool} {net : Answers}
  {files : Files} {raw text new v app : Text} {d : Decision}

/-- A bump leaves the env file alone, or it has found something due and pinned it. -/
theorem bump_left (pk : Packaging) (env : DotEnv) (net : Answers) (hpin : files.pin = some raw) :
    (left (bump pk env net true) files).pin = some raw ∨
      ∃ d new, decision pk env net (universalNewlines raw) = .ok d ∧
        (d.uosMoved = true ∨ d.appMoved = true) ∧ newPins (universalNewlines raw) d = .ok new ∧
        (left (bump pk env net true) files).pin = some new := by
  rw [left, bump_eq, hpin]
  dsimp only [readText]
  cases hd : decision pk env net (universalNewlines raw) with
  | error e => exact .inl hpin
  | ok d =>
    dsimp only
    rw [outcome]
    by_cases hidle : (!d.uosMoved && !d.appMoved) = true
    · rw [if_pos hidle]
      exact .inl hpin
    · rw [if_neg hidle]
      have hmoved : d.uosMoved = true ∨ d.appMoved = true := by
        cases huos : d.uosMoved
        · cases happ : d.appMoved
          · rw [huos, happ] at hidle
            exact absurd rfl hidle
          · exact .inr rfl
        · exact .inl rfl
      cases hnew : newPins (universalNewlines raw) d with
      | error e => exact .inl hpin
      | ok new =>
        refine .inr ⟨d, new, rfl, hmoved, hnew, ?_⟩
        dsimp only
        by_cases huos : d.uosMoved = true
        · rw [if_pos huos]
          cases newReadme files.readme d.amd64.version with
          | error e => rfl
          | ok readme => rfl
        · rw [if_neg huos]

theorem ne_nil_of_isSha256 {sha : Text} (h : isSha256 sha = true) : sha ≠ [] :=
  (Network.isHex_of_isSha256 h).1

theorem checked_bumped (hchecked : Checked env.toDotEnv reachable text v app)
    (hnet : net.Published reachable) (hd : Decided pk env.toDotEnv net text d)
    (hmoved : d.uosMoved = true ∨ d.appMoved = true)
    (h : Bumped pk env.toDotEnv text new d.amd64 d.arm64 d.app) :
    ∃ v', Checked env.toDotEnv reachable new v' d.app := by
  have happ : env.values new appKey = some (some d.app) :=
    h.app ((or_congr hd.releaseMoves_iff hd.appMoves_iff).mpr hmoved)
  have hfull := hnet.app d.app hd.appVersion
  have hlatest : (env.values new appKey).getD (some []) = some d.app := by
    rw [happ]
    rfl
  by_cases hmoves : ReleaseMoves pk env.toDotEnv text d.amd64
  · obtain ⟨hamd64, harm64⟩ := hd.records
    have hfirst := hnet.release d.amd64 (.inl hamd64)
    have hsecond := hnet.release d.arm64 (.inr harm64)
    have hpins := h.release hmoves
    have hread : ∀ item ∈ releasePins d.amd64 d.arm64, pin env.toDotEnv new item.1 = item.2 :=
      fun item hitem => pin_eq (hpins item hitem)
    simp only [releasePins, List.forall_mem_cons] at hread
    obtain ⟨hversion, hurl, hsha, hurl', hsha', -⟩ := hread
    have hnone : ∀ P : Text → Prop, ∀ key ∈ ([] : List Text), P key := fun _ _ hkey => by cases hkey
    refine ⟨d.amd64.version, ?_, ?_, ?_, hversion, hlatest, hfull⟩
    · simp only [releaseKeys, List.forall_mem_cons, hversion, hurl, hsha, hurl', hsha']
      exact ⟨hfirst.1, hfirst.2.1, ne_nil_of_isSha256 hfirst.2.2.1, hsecond.2.1,
        ne_nil_of_isSha256 hsecond.2.2.1, hnone _⟩
    · simp only [shaKeys, List.forall_mem_cons, hsha, hsha']
      exact ⟨hfirst.2.2.1, hsecond.2.2.1, hnone _⟩
    · simp only [urlKeys, List.forall_mem_cons, hurl, hurl']
      exact ⟨hfirst.2.2.2, hsecond.2.2.2, hnone _⟩
  · have hkept : ∀ key ∈ releaseKeys, pin env.toDotEnv new key = pin env.toDotEnv text key := by
      intro key hkey
      rw [pin, pin, h.kept hmoves key hkey]
    have hmem : ∀ key ∈ uosKey :: (shaKeys ++ urlKeys), key ∈ releaseKeys := by decide
    refine ⟨v, fun key hkey => ?_, fun key hkey => ?_, fun key hkey => ?_, ?_, hlatest, hfull⟩
    · rw [hkept key hkey]
      exact hchecked.present key hkey
    · rw [hkept key (hmem key (by simp [hkey]))]
      exact hchecked.sha256 key hkey
    · rw [hkept key (hmem key (by simp [hkey]))]
      exact hchecked.url key hkey
    · rw [hkept uosKey List.mem_cons_self]
      exact hchecked.version

/-- The version of the pins that are read back is not older than the one before. -/
theorem notOlder_bumped {v' : Text} (h : Bumped pk env.toDotEnv text new d.amd64 d.arm64 d.app)
    (hv : pin env.toDotEnv text uosKey = v) (hv' : pin env.toDotEnv new uosKey = v') :
    NotOlder pk v v' := by
  obtain ⟨before, now, old, latest, hbefore, hnow, hold, hlatest, hle⟩ := h.forward
  rw [pin_eq hbefore] at hv
  rw [pin_eq hnow] at hv'
  subst hv hv'
  intro k hk
  cases (version_eq hold).symm.trans hk
  exact ⟨latest, version_eq hlatest, hle⟩

/-- One bump, successful or not, takes pins that pass to pins that pass. -/
theorem passesFrom_bump (hnet : net.Published reachable)
    (h : PassesFrom pk env.toDotEnv reachable v files) :
    PassesFrom pk env.toDotEnv reachable v (left (bump pk env.toDotEnv net true) files) := by
  obtain ⟨raw, mid, app, hpin, htext, hverify, hmid⟩ := h
  rcases bump_left pk env.toDotEnv net hpin with
    hsame | ⟨d, new, hd, hmoved, hnew, hpinned⟩
  · refine ⟨raw, mid, app, hsame, htext, ?_, hmid⟩
    rw [hsame, ← hpin]
    exact hverify
  · rw [hpin] at hverify
    have hdecided := decision_ok hd
    have hwritten := newPins_pinned env (hdecided.chars hnet.chars) htext
      (return_not_mem_universalNewlines raw) hnew
    have hbumped := bumped_of_pinned hdecided hwritten
    have hsame := universalNewlines_of_byLine hwritten.byLine
    have hchecked := verify_fine_iff.mp hverify
    obtain ⟨v', hnext⟩ := checked_bumped hchecked hnet hdecided hmoved hbumped
    refine ⟨new, v', d.app, hpinned, ?_, ?_, ?_⟩
    · rw [hsame]
      exact hwritten.wellFormed
    · rw [hpinned, verify_fine_iff, hsame]
      exact hnext
    · exact hmid.trans (notOlder_bumped hbumped hchecked.version hnext.version)

end

/-- What an extraction is given for an architecture. -/
def Extracts (env : DotEnv) (reachable : Text → Bool) (content : Option Text) (arch : String) :
    Prop :=
  ∃ text url sha256, readText content = .ok text ∧
    select env text arch = .ok (some url, some sha256) ∧ reachable url = true ∧
      isSha256 sha256 = true

def digestPins (release app : String) : Text :=
  "UOS_VERSION=".toList ++ (release.toList ++
    ("\nUOS_URL_AMD64=https://fw-download.ubnt.com/x64\nUOS_SHA256_AMD64=".toList ++
      ((Network.digest 'a').toList ++
        ("\nUOS_URL_ARM64=https://fw-download.ubnt.com/arm64\nUOS_SHA256_ARM64=".toList ++
          ((Network.digest 'b').toList ++
            ("\nUOS_APP_VERSION=".toList ++ (app.toList ++ ['\n'])))))))

def digestAnswers (release app : String) : Answers where
  amd64 := some (some [build "linux-x64" release "https://fw-download.ubnt.com/x64"
    (Network.digest 'a')])
  arm64 := some (some [build "linux-arm64" release "https://fw-download.ubnt.com/arm64"
    (Network.digest 'b')])
  app := some (some [build "uos-deb11-amd64" app "https://fw-download.ubnt.com/amd64" "0a",
    build "uos-deb11-arm64" app "https://fw-download.ubnt.com/arm64" "0a"])

theorem published_digestAnswers :
    (digestAnswers "v5.1.43" "10.6.109-36013-1").Published fun _ => true where
  chars := by constructor <;> (intro firmware h; cases h; decide +kernel)
  release := by
    intro r h
    rcases h with h | h <;>
      (obtain ⟨firmware, hanswer, entry, hentry, hversion, hurl, hsha⟩ := h
       cases hanswer
       cases List.mem_singleton.mp (mem_builds hentry)
       cases r
       cases hversion
       cases hurl
       cases hsha
       decide +kernel)
  app := by
    intro app h
    have happ : (digestAnswers "v5.1.43" "10.6.109-36013-1").appVersion =
        .ok "10.6.109-36013-1".toList := by decide +kernel
    cases happ.symm.trans h
    decide +kernel

end UnifiContainers.Updaters.Uos
