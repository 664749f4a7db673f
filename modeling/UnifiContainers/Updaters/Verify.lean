import UnifiContainers.Lib.Run
import UnifiContainers.Updaters.NetworkPins

/-!
# The check of the Network pins

CI checks the pins of a checkout, the updater rewrites them. From pins that pass, every run of the
updater leads to pins that pass, also where a bump fails half way.
-/

namespace UnifiContainers.Updaters

open Pins

def lowerHexDigits : Text := "0123456789abcdef".toList

/-- `[0-9a-f]{64}` on the whole text. -/
def isSha256 (s : Text) : Bool := s.length = 64 && s.all fun c => lowerHexDigits.contains c

/-- The last version is one for the library, and not an older one, if the first is. -/
def NotOlder (pk : Packaging) (first last : Text) : Prop :=
  ∀ k, version pk first = .ok k → ∃ l, version pk last = .ok l ∧ k ≤ l

theorem NotOlder.refl (pk : Packaging) (v : Text) : NotOlder pk v v := fun k hk => ⟨k, hk, le_rfl⟩

theorem NotOlder.trans {pk : Packaging} {first mid last : Text} (h : NotOlder pk first mid)
    (h' : NotOlder pk mid last) : NotOlder pk first last := by
  intro k hk
  obtain ⟨l, hl, hkl⟩ := h k hk
  obtain ⟨m, hm, hlm⟩ := h' l hl
  exact ⟨m, hm, hkl.trans hlm⟩

namespace Network

open Regex Pattern PyText Fallible

/-- What `verify` prints. -/
inductive Finding where
  | badSha256 (sha256 : Text)
  | layout (url : Text)
  | unreachable (url : Text)
  | fine (version url sha256 : Text)
  deriving DecidableEq, Repr

def Finding.message : Finding → Text
  | .badSha256 sha256 => "FAIL: PKGSHA256 is not a 64-hex-digit sha256: ".toList ++ sha256
  | .layout url => "FAIL: PKGURL does not match the expected layout: ".toList ++ url
  | .unreachable url => "FAIL: PKGURL not reachable: ".toList ++ url
  | .fine version url sha256 => "ok: ".toList ++ version ++ ' ' :: url ++ " sha256=".toList ++ sha256

/-- The exit status. -/
def Finding.status : Finding → ℕ
  | .fine _ _ _ => 0
  | _ => 1

/-- `verify`, with the URLs that answer. -/
def verify (reachable : Text → Bool) (content : Option Text) : Except Failure Finding := do
  let (url, sha256, version) ← readPins (← readText content)
  if !isSha256 sha256 then return .badSha256 sha256
  if url ≠ buildPkgurl version then return .layout url
  if !reachable url then return .unreachable url
  return .fine version url sha256

/-- The check finds nothing to say against the pins of `version`. -/
def Passes (reachable : Text → Bool) (files : Files) (version : Text) : Prop :=
  ∃ url sha256, verify reachable files.pin = .ok (.fine version url sha256)

/-- The pins pass, and their version is not older than `v`. -/
def PassesFrom (pk : Packaging) (reachable : Text → Bool) (v : Text) (files : Files) : Prop :=
  ∃ v', Passes reachable files v' ∧ NotOlder pk v v'

/-- The API answers checksums in the form of a pin, and what it releases can be downloaded. -/
structure Answers.Published (reachable : Text → Bool) (net : Answers) : Prop where
  deb : ∀ firmware, net.deb = some (some firmware) → ∀ entry ∈ firmware,
    ∀ sha, entry.sha256Checksum = some sha → isSha256 sha = true
  artifactSha256 : ∀ url sha, net.artifactSha256 url = some sha → isSha256 sha = true
  url : ∀ ga v, net.ga = some ga → IsGreatest ga v → reachable (buildPkgurl v) = true

/-- One run of the updater. -/
def bumpStep (pk : Packaging) (files : Files) (net : Answers) : Option Files :=
  some (left (bump pk net true) files)

variable {pk : Packaging} {reachable : Text → Bool} {net : Answers} {files : Files}
  {raw text url sha v : Text}

theorem isHex_of_isSha256 (h : isSha256 sha = true) : IsHex sha := by
  have hlower : ∀ c ∈ lowerHexDigits, c ∈ hexDigits := by decide
  rw [isSha256, Bool.and_eq_true, decide_eq_true_iff, List.all_eq_true] at h
  refine ⟨fun hnil => ?_, fun c hc => hlower c (List.contains_iff_mem.mp (h.2 c hc))⟩
  rw [hnil] at h
  cases h.1

theorem Answers.Published.hexChecksums (h : net.Published reachable) : net.HexChecksums where
  deb firmware hdeb entry hentry sha hsha := isHex_of_isSha256 (h.deb firmware hdeb entry hentry sha hsha)
  artifactSha256 url sha hsha := isHex_of_isSha256 (h.artifactSha256 url sha hsha)

theorem verify_fine_iff : verify reachable (some raw) = .ok (.fine v url sha) ↔
    readPins (universalNewlines raw) = .ok (url, sha, v) ∧ isSha256 sha = true ∧
      url = buildPkgurl v ∧ reachable url = true := by
  rw [verify, readText, ok_bind]
  cases readPins (universalNewlines raw) with
  | error e =>
    constructor
    · intro h
      cases h
    · intro h
      cases h.1
  | ok pins =>
    obtain ⟨url', sha', v'⟩ := pins
    rw [ok_bind, Except.ok.injEq, Prod.mk.injEq, Prod.mk.injEq]
    dsimp only
    constructor
    · intro h
      split at h
      · cases h
      · rename_i hsha
        split at h
        · cases h
        · rename_i hurl
          split at h
          · cases h
          · rename_i hreach
            cases h
            exact ⟨⟨rfl, rfl, rfl⟩, by simpa using hsha, not_not.mp hurl, by simpa using hreach⟩
    · rintro ⟨⟨rfl, rfl, rfl⟩, hsha, hurl, hreach⟩
      rw [if_neg (by simp [hsha]), if_neg (not_not.mpr hurl), if_neg (by simp [hreach])]
      rfl

/-- A bump leaves the pin file alone, or it has found a version due and pinned it. -/
theorem bump_left (pk : Packaging) (net : Answers) (hpin : files.pin = some raw) :
    (left (bump pk net true) files).pin = some raw ∨
      ∃ v url sha new, due pk net (universalNewlines raw) = .ok (some (v, url, sha)) ∧
        rewriteDockerfile (universalNewlines raw) url sha = .ok new ∧
        (left (bump pk net true) files).pin = some new := by
  rw [left, bump_eq, hpin]
  dsimp only [readText]
  cases due pk net (universalNewlines raw) with
  | error e => exact .inl hpin
  | ok found =>
    cases found with
    | none => exact .inl hpin
    | some moved =>
      obtain ⟨v, url, sha⟩ := moved
      dsimp only
      cases hnew : rewriteDockerfile (universalNewlines raw) url sha with
      | error e => exact .inl hpin
      | ok new =>
        refine .inr ⟨v, url, sha, new, rfl, hnew, ?_⟩
        dsimp only
        cases newReadme files.readme v (releaseNotesLink net.feed v) with
        | error e => rfl
        | ok readme => rfl

/-- One bump, successful or not, takes pins that pass to pins that pass. -/
theorem passes_bump {pk : Versions} (hnet : net.Published reachable)
    (h : Passes reachable files v) :
    PassesFrom pk.toPackaging reachable v (left (bump pk.toPackaging net true) files) := by
  obtain ⟨url, sha, hverify⟩ := h
  obtain ⟨raw, hpin⟩ : ∃ raw, files.pin = some raw := by
    cases hpin : files.pin with
    | none =>
      rw [hpin] at hverify
      cases hverify
    | some raw => exact ⟨raw, rfl⟩
  rw [hpin] at hverify
  obtain ⟨hread, -, -, -⟩ := verify_fine_iff.mp hverify
  rcases bump_left pk.toPackaging net hpin with
    hsame | ⟨newest, url', sha', new, hdueOk, hnew, hpinned⟩
  · refine ⟨v, ⟨url, sha, ?_⟩, NotOlder.refl _ v⟩
    rw [hsame]
    exact hverify
  · have hdue := due_of_ok hdueOk
    obtain ⟨ga, hga, hversion⟩ := hdue.answered
    obtain ⟨_, _, _, k, l, hread', hk, hl, hlt⟩ := hdue.advances
    cases hread.symm.trans hread'
    obtain ⟨deb, hdeb, hchecksum, hhex⟩ := hdue.isChecksum hnet.hexChecksums
    have hsha : isSha256 sha' = true := by
      rcases hchecksum with ⟨entry, hentry, -, hlisted⟩ | ⟨-, hartifact⟩
      · cases deb with
        | none => cases hentry
        | some firmware => exact hnet.deb firmware hdeb entry hentry sha' hlisted
      · exact hnet.artifactSha256 _ sha' hartifact
    obtain ⟨w, hw⟩ := parseGaVersion_ok hversion
    have hrepinned : Repinned (universalNewlines raw) new newest sha' := by
      rw [hdue.location] at hnew
      subst hw
      exact repinned_of_rewrite hhex (return_not_mem_universalNewlines raw) hnew
    refine ⟨newest, ⟨buildPkgurl newest, sha', ?_⟩, fun k' hk' => ?_⟩
    · rw [hpinned, verify_fine_iff, hrepinned.newlines]
      exact ⟨hrepinned.pins, hsha, rfl, hnet.url ga newest hga (parseGaVersion_greatest hversion)⟩
    · cases hl.symm.trans hk'
      exact ⟨k, hk, hlt.le⟩

/-- From pins that pass the check every run of the updater leads to pins that pass it, however many
of the bumps fail, and never to an older version. -/
theorem verified_bumps (pk : Versions) (reachable : Text → Bool) (files : Files)
    (nets : List Answers) {after : Files} {v : Text} (h : Passes reachable files v)
    (hnets : ∀ net ∈ nets, net.Published reachable)
    (hrun : StepRun.exec (bumpStep pk.toPackaging) files nets = some after) :
    PassesFrom pk.toPackaging reachable v after := by
  have hstep : ∀ files net next, PassesFrom pk.toPackaging reachable v files →
      net.Published reachable → bumpStep pk.toPackaging files net = some next →
      PassesFrom pk.toPackaging reachable v next := by
    rintro files net next ⟨mid, hpasses, hmid⟩ hnet hnext
    obtain ⟨v', hpasses', hlast⟩ := passes_bump hnet hpasses
    cases hnext
    exact ⟨v', hpasses', hmid.trans hlast⟩
  exact StepRun.guarded_invariant (bumpStep pk.toPackaging) hstep ⟨v, h, NotOlder.refl _ v⟩
    (StepRun.guarded_of_forall _ files hnets) hrun

def digest (c : Char) : String := String.ofList (List.replicate 64 c)

/-- The README has no row, so that the bump raises after it has written the Dockerfile. -/
theorem verified_bumps_rowless :
    left (bump numericVersions.toPackaging (networkAnswering 10 5 67 (digest 'e')) true)
        (rowless (dockerfile "10.4.57" (digest 'a'))) =
      rowless (dockerfile "10.5.67" (digest 'e')) ∧
    PassesFrom numericVersions.toPackaging (fun _ => true) "10.4.57".toList
      (rowless (dockerfile "10.5.67" (digest 'e'))) := by
  have hbump : left (bump numericVersions.toPackaging (networkAnswering 10 5 67 (digest 'e')) true)
      (rowless (dockerfile "10.4.57" (digest 'a'))) =
        rowless (dockerfile "10.5.67" (digest 'e')) := by
    decide +kernel
  refine ⟨hbump, ?_⟩
  refine verified_bumps numericVersions (fun _ => true)
    (rowless (dockerfile "10.4.57" (digest 'a'))) [networkAnswering 10 5 67 (digest 'e')] ?_ ?_ ?_
  · exact ⟨buildPkgurl "10.4.57".toList, (digest 'a').toList, by decide +kernel⟩
  · intro net hnet
    cases List.mem_singleton.mp hnet
    refine ⟨fun firmware hdeb => ?_, fun url sha h => (by cases h), fun ga v _ _ => rfl⟩
    cases hdeb
    decide +kernel
  · rw [StepRun.exec_cons, bumpStep, hbump]
    rfl

end Network

end UnifiContainers.Updaters
