import UnifiContainers.Updaters.Uos

/-!
# What a failed bump leaves

The pin file is written before the README is rewritten. A README that cannot be rewritten then
fails a bump whose pins already stand.
-/

namespace UnifiContainers.Updaters

open Regex Pattern PyText Pins

/-- Every failure leaves the files as they were. -/
def LeavesFiles (bump : Bump (Option Text)) (files : Files) : Prop :=
  ∀ e after, bump files = .error e after → after = files

theorem files_ne_iff {files : Files} {raw new : Text} (hpin : files.pin = some raw) :
    { files with pin := some new } ≠ files ↔ new ≠ raw := by
  apply not_congr
  constructor
  · intro heq
    have hsame := congrArg Files.pin heq
    rw [hpin] at hsame
    exact Option.some.inj hsame
  · intro heq
    rw [heq, ← hpin]

/-- If what fails after the pins were replaced is the README alone, then the README decides. -/
theorem leavesFiles_iff_readme (bump : Bump (Option Text)) (files : Files) {ι : Type}
    (replaces : ι → Prop) (readme : ι → Except Failure Text)
    (hlate : ∀ i e, replaces i → readme i = .error e →
      ∃ after, bump files = .error e after ∧ after ≠ files)
    (herror : ∀ e after, bump files = .error e after → after ≠ files →
      ∃ i, replaces i ∧ readme i = .error e) :
    LeavesFiles bump files ↔ ∀ i, replaces i → ∃ text, readme i = .ok text := by
  constructor
  · intro hleaves i hreplaces
    cases hreadme : readme i with
    | ok text => exact ⟨text, rfl⟩
    | error e =>
      obtain ⟨after, hbump, hne⟩ := hlate i e hreplaces hreadme
      exact absurd (hleaves e after hbump) hne
  · intro hcond e after h
    by_contra hne
    obtain ⟨i, hreplaces, hreadme⟩ := herror e after h hne
    obtain ⟨text, hok⟩ := hcond i hreplaces
    cases hreadme.symm.trans hok

/-! ### Network -/

namespace Network

variable {pk : Packaging} {net : Answers} {files after : Files} {newest new : Text} {e : Failure}

/-- The Dockerfile is about to give way to another text, in a move to `newest`. -/
def Replaces (pk : Packaging) (net : Answers) (files : Files) (newest new : Text) : Prop :=
  ∃ raw url sha, files.pin = some raw ∧
    due pk net (universalNewlines raw) = .ok (some (newest, url, sha)) ∧
    rewriteDockerfile (universalNewlines raw) url sha = .ok new ∧ new ≠ raw

theorem bump_of_replaces (hreplaces : Replaces pk net files newest new)
    (hreadme : newReadme files.readme newest (releaseNotesLink net.feed newest) = .error e) :
    bump pk net true files = .error e { files with pin := some new } ∧
      { files with pin := some new } ≠ files := by
  obtain ⟨raw, url, sha, hpin, hdue, hnew, hne⟩ := hreplaces
  constructor
  · rw [bump_eq, hpin]
    dsimp only [readText]
    rw [hdue]
    dsimp only
    rw [hnew]
    dsimp only
    rw [hreadme]
  · exact (files_ne_iff hpin).mpr hne

/-- A failure that leaves other files comes from the README. -/
theorem replaces_of_error (h : bump pk net true files = .error e after) (hne : after ≠ files) :
    ∃ newest new, Replaces pk net files newest new ∧
      newReadme files.readme newest (releaseNotesLink net.feed newest) = .error e := by
  rw [bump_eq] at h
  cases hpin : files.pin with
  | none =>
    rw [hpin] at h
    cases h
    exact absurd rfl hne
  | some raw =>
    rw [hpin] at h
    dsimp only [readText] at h
    split at h
    · cases h
      exact absurd rfl hne
    · cases h
    · rename_i newest url sha hdue
      split at h
      · cases h
        exact absurd rfl hne
      · rename_i new hnew
        split at h
        · rename_i hreadme
          cases h
          exact ⟨newest, new, ⟨raw, url, sha, hpin, hdue, hnew, (files_ne_iff hpin).mp hne⟩,
            hreadme⟩
        · cases h

theorem leavesFiles_iff : LeavesFiles (bump pk net true) files ↔
    ∀ newest new, Replaces pk net files newest new →
      HasRow readmeRowRe files.readme ∧
        (compile 0 (row newest (releaseNotesLink net.feed newest))).isSome = true := by
  have hreadme := leavesFiles_iff_readme (bump pk net true) files
    (fun i : Text × Text => Replaces pk net files i.1 i.2)
    (fun i => newReadme files.readme i.1 (releaseNotesLink net.feed i.1))
    (fun _ _ hreplaces hreadme => ⟨_, bump_of_replaces hreplaces hreadme⟩)
    (fun e after h hne => by
      obtain ⟨newest, new, hreplaces, hreadme⟩ := replaces_of_error h hne
      exact ⟨(newest, new), hreplaces, hreadme⟩)
  simp only [newReadme_ok_iff, Prod.forall] at hreadme
  exact hreadme

end Network

/-! ### UOS -/

namespace Uos

variable {pk : Packaging} {env : DotEnv} {net : Answers} {files after : Files} {version new : Text}
  {e : Failure}

/-- The env file is about to give way to another text, in a move of the release to `version`. -/
def Replaces (pk : Packaging) (env : DotEnv) (net : Answers) (files : Files) (version new : Text) :
    Prop :=
  ∃ raw d, files.pin = some raw ∧ decision pk env net (universalNewlines raw) = .ok d ∧
    d.uosMoved = true ∧ d.amd64.version = version ∧
    newPins (universalNewlines raw) d = .ok new ∧ new ≠ raw

theorem bump_of_replaces (hreplaces : Replaces pk env net files version new)
    (hreadme : newReadme files.readme version = .error e) :
    bump pk env net true files = .error e { files with pin := some new } ∧
      { files with pin := some new } ≠ files := by
  obtain ⟨raw, d, hpin, hd, hmoved, hversion, hnew, hne⟩ := hreplaces
  constructor
  · rw [bump_eq, hpin]
    dsimp only [readText]
    rw [hd]
    dsimp only [outcome]
    rw [hmoved, hnew]
    dsimp only
    rw [hversion, hreadme]
    rfl
  · exact (files_ne_iff hpin).mpr hne

theorem replaces_of_error (h : bump pk env net true files = .error e after) (hne : after ≠ files) :
    ∃ version new, Replaces pk env net files version new ∧
      newReadme files.readme version = .error e := by
  rw [bump_eq] at h
  cases hpin : files.pin with
  | none =>
    rw [hpin] at h
    cases h
    exact absurd rfl hne
  | some raw =>
    rw [hpin] at h
    dsimp only [readText] at h
    split at h
    · cases h
      exact absurd rfl hne
    · rename_i d hd
      rw [outcome] at h
      split at h
      · cases h
      · split at h
        · cases h
          exact absurd rfl hne
        · rename_i new hnew
          split at h
          · rename_i hmoved
            split at h
            · rename_i hreadme
              cases h
              exact ⟨d.amd64.version, new,
                ⟨raw, d, hpin, hd, hmoved, rfl, hnew, (files_ne_iff hpin).mp hne⟩, hreadme⟩
            · cases h
          · cases h

theorem leavesFiles_iff : LeavesFiles (bump pk env net true) files ↔
    ∀ version new, Replaces pk env net files version new →
      Network.HasRow readmeRowRe files.readme ∧
        (compile 0 (row version releasesUrl)).isSome = true := by
  have hreadme := leavesFiles_iff_readme (bump pk env net true) files
    (fun i : Text × Text => Replaces pk env net files i.1 i.2)
    (fun i => newReadme files.readme i.1)
    (fun _ _ hreplaces hreadme => ⟨_, bump_of_replaces hreplaces hreadme⟩)
    (fun e after h hne => by
      obtain ⟨version, new, hreplaces, hreadme⟩ := replaces_of_error h hne
      exact ⟨(version, new), hreplaces, hreadme⟩)
  simp only [newReadme_ok_iff, Prod.forall] at hreadme
  exact hreadme

end Uos

/-! ### Both updaters -/

/-- A bump that fails leaves the pin file and the README as they were exactly if the README can be
rewritten whenever the pins are about to be replaced by another text: it is text, it has the row,
and the new row is a template without errors. -/
theorem failed_bumps_leave_files_iff (pk : Packaging) (env : DotEnv) (files : Files)
    (network : Network.Answers) (uos : Uos.Answers) :
    (LeavesFiles (Network.bump pk network true) files ↔
      ∀ newest new, Network.Replaces pk network files newest new →
        Network.HasRow Network.readmeRowRe files.readme ∧
          (compile 0 (Network.row newest (Network.releaseNotesLink network.feed newest))).isSome =
            true) ∧
      (LeavesFiles (Uos.bump pk env uos true) files ↔
        ∀ version new, Uos.Replaces pk env uos files version new →
          Network.HasRow Uos.readmeRowRe files.readme ∧
            (compile 0 (Uos.row version Uos.releasesUrl)).isSome = true) :=
  ⟨Network.leavesFiles_iff, Uos.leavesFiles_iff⟩

def dockerfile (version sha256 : String) : Text :=
  "FROM debian\n".toList ++ (argLine "PKGURL".toList (Network.buildPkgurl version.toList) ++
    ('\n' :: (argLine "PKGSHA256".toList sha256.toList ++ ['\n'])))

def gaBuild (platform : Text) (major minor patch : ℕ) (sha256 : String) : Firmware where
  channel := some gaChannel
  platform := some platform
  version := none
  versionMajor := some major
  versionMinor := some minor
  versionPatch := some patch
  href := none
  sha256Checksum := some sha256.toList

def networkAnswering (major minor patch : ℕ) (sha256 : String) : Network.Answers where
  ga := some (some [gaBuild "uos-deb11-amd64".toList major minor patch sha256])
  deb := some (some [gaBuild Network.debPlatform major minor patch sha256])
  artifactSha256 _ := none
  feed := none

def rowless (pin : Text) : Files := ⟨some pin, some "# UniFi containers\n".toList⟩

/-- Both updaters leave new pins beside a README without the row. -/
theorem failed_bumps_leave_new_pins :
    (¬ ∀ pk net files, LeavesFiles (Network.bump pk net true) files) ∧
      ¬ ∀ pk env net files, LeavesFiles (Uos.bump pk env net true) files := by
  constructor
  · intro hleaves
    have hbump : Network.bump numericVersions.toPackaging (networkAnswering 10 5 67 "8e") true
        (rowless (dockerfile "10.4.57" "f6")) =
          .error (.refused .networkRow) (rowless (dockerfile "10.5.67" "8e")) := by
      decide +kernel
    have hsame := hleaves _ _ _ _ _ hbump
    revert hsame
    decide +kernel
  · intro hleaves
    have hbump : Uos.bump numericVersions.toPackaging lineEnv
        (Uos.answering "v5.1.43" "10.6.109-36013-1") true
        (rowless (Uos.pinning "5.1.42" "10.6.101-35991-1")) =
          .error (.refused .uosRow) (rowless (Uos.pinning "5.1.43" "10.6.109-36013-1")) := by
      decide +kernel
    have hsame := hleaves _ _ _ _ _ _ hbump
    revert hsame
    decide +kernel

end UnifiContainers.Updaters
