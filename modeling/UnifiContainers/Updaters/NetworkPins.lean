import UnifiContainers.Updaters.Tagging

/-!
# What a Network bump pins

The reader of the pins, the two substitutions and the release gate each look for a line of their
own. They agree on the first line of each argument, so a bump reads back what it wrote.
-/

namespace UnifiContainers.Updaters.Network

open Regex Pattern PyText Pins Fallible

/-! ### The version -/

def released (payload : Payload) : List Firmware :=
  (payload.getD []).filter fun entry => entry.channel = some gaChannel

/-- The version of a released record that no released record exceeds. -/
def IsGreatest (payload : Payload) (v : Text) : Prop :=
  ∃ entry ∈ released payload, versionOf entry = .ok v ∧
    ∃ top, numbers entry = some top ∧
      ∀ other ∈ released payload, ∃ rank, numbers other = some rank ∧ rank ≤ top

theorem parseGaVersion_greatest {pk : Versions} {payload : Payload} {v : Text}
    (h : parseGaVersion pk.toPackaging payload = .ok v) : IsGreatest payload v := by
  obtain ⟨entry, hentry, hversion, key, hkey, hgreatest⟩ := parseGaVersion_spec h
  obtain ⟨w, hw, hnumbers⟩ := versionOf_ok hversion
  refine ⟨entry, hentry, hversion, upstreamRank w, hnumbers, fun other hother => ?_⟩
  obtain ⟨text, k, hread, hk, hle⟩ := hgreatest other hother
  obtain ⟨q, hq, hrank⟩ := versionOf_ok hread
  refine ⟨upstreamRank q, hrank, ?_⟩
  rw [hq] at hk
  rw [hw] at hkey
  exact (pk.plain_le_iff (version_ok hk) (version_ok hkey)).mp hle

/-! ### The checksum -/

def hexDigits : Text := "0123456789abcdefABCDEF".toList

def IsHex (s : Text) : Prop := s ≠ [] ∧ ∀ c ∈ s, c ∈ hexDigits

instance (s : Text) : Decidable (IsHex s) := inferInstanceAs (Decidable (_ ∧ _))

theorem IsHex.isWord {s : Text} (h : IsHex s) : IsWord s := by
  have hdigits : ∀ c ∈ hexDigits, isSpace c = false ∧ c ∉ specialChars := by decide
  exact fun c hc => hdigits c (h.2 c hc)

/-- The checksums that the updater is answered are hex strings. -/
structure Answers.HexChecksums (net : Answers) : Prop where
  deb : ∀ firmware, net.deb = some (some firmware) → ∀ entry ∈ firmware,
    ∀ sha, entry.sha256Checksum = some sha → IsHex sha
  artifactSha256 : ∀ url sha, net.artifactSha256 url = some sha → IsHex sha

/-- The checksum of a published build of the version, if there is one, else the artifact's. -/
def IsChecksum (net : Answers) (firmware : List Firmware) (v sha : Text) : Prop :=
  (∃ entry ∈ firmware, IsDebBuild v entry ∧ entry.sha256Checksum = some sha) ∨
    (∀ entry ∈ firmware, ¬ IsDebBuild v entry) ∧ net.artifactSha256 (buildPkgurl v) = some sha

section

variable {pk : Packaging} {net : Answers} {text new newest url sha v : Text}

theorem debSha256_none {firmware : List Firmware} (h : debSha256 v firmware = .ok none) :
    ∀ entry ∈ firmware, ¬ IsDebBuild v entry := by
  induction firmware with
  | nil => exact fun _ hmem => absurd hmem List.not_mem_nil
  | cons entry rest ih =>
    rw [debSha256] at h
    intro other hother
    split at h
    · rename_i hplatform
      rcases List.mem_cons.mp hother with heq | hother
      · subst heq
        intro hbuild
        rcases hplatform with hchannel | hdebian
        · exact hchannel hbuild.1
        · exact hdebian hbuild.2.1
      · exact ih h other hother
    · obtain ⟨found, hfound, h⟩ := bind_ok h
      split at h
      · obtain ⟨checksum, -, h⟩ := bind_ok h
        cases h
      · rename_i hversion
        rcases List.mem_cons.mp hother with heq | hother
        · subst heq
          intro hbuild
          cases hfound.symm.trans hbuild.2.2
          exact hversion rfl
        · exact ih h other hother

theorem Due.isChecksum (hdue : Due pk net text newest url sha) (hnet : net.HexChecksums) :
    ∃ deb, net.deb = some deb ∧ IsChecksum net (deb.getD []) newest sha ∧ IsHex sha := by
  obtain ⟨deb, published, hdeb, hpublished, hsha⟩ := hdue.checksum
  refine ⟨deb, hdeb, ?_⟩
  have hhex {checksum : Text} (h : debSha256 newest (deb.getD []) = .ok (some checksum)) :
      IsHex checksum := by
    obtain ⟨entry, hentry, -, hchecksum⟩ := debSha256_some h
    cases deb with
    | none => cases hentry
    | some firmware => exact hnet.deb firmware hdeb entry hentry checksum hchecksum
  rcases hsha with ⟨heq, -⟩ | ⟨hnone | hempty, hartifact⟩
  · subst heq
    exact ⟨.inl (debSha256_some hpublished), hhex hpublished⟩
  · subst hnone
    rw [hdue.location] at hartifact
    exact ⟨.inr ⟨debSha256_none hpublished, hartifact⟩, hnet.artifactSha256 _ sha hartifact⟩
  · subst hempty
    exact absurd rfl (hhex hpublished).1

/-! ### The lines -/

/-- Where the first line of an argument stands. -/
def pinLine (name text : Text) : ℕ := (lines text).findIdx (isArg name)

/-- The two pins are rewritten where they stood, and read back. -/
structure Repinned (text new v sha : Text) : Prop where
  lines : lines new = ((lines text).set (pinLine "PKGURL".toList text)
    (argLine "PKGURL".toList (buildPkgurl v))).set (pinLine "PKGSHA256".toList text)
      (argLine "PKGSHA256".toList sha)
  newlines : universalNewlines new = new
  pins : readPins new = .ok (buildPkgurl v, sha, v)
  gate : pkgurlVersion new = some v

theorem searchGroup_pkgsha_argRewritten (hsha : IsWord sha) (hne : sha ≠ [])
    (hany : (lines text).any (isArg "PKGSHA256".toList) = true) :
    searchGroup pkgshaRe () (argRewritten "PKGSHA256".toList sha text) = some sha := by
  rw [pkgshaRe, searchGroup_argRe _ _ (by decide), lines_argRewritten (by decide) hsha,
    find?_replaceFirst_self hany (isArg_argLine _ hsha hne), Option.bind_some, argValue_argLine]

theorem repinned_of_rewrite {w : VersionText} (hsha : IsHex sha) (htext : '\r' ∉ text)
    (h : rewriteDockerfile text (buildPkgurl w.upstream) sha = .ok new) :
    Repinned text new w.upstream sha := by
  have hurl := isWord_buildPkgurl w
  have hurlNe : buildPkgurl w.upstream ≠ [] := by
    rw [buildPkgurl_eq]
    exact List.cons_ne_nil _ _
  obtain ⟨hany, hanySha, hnew⟩ := rewriteDockerfile_eq hurl hsha.isWord h
  have hfound := searchGroup_pkgurl_argRewritten hurl hsha.isWord hurlNe hsha.1 hany
  have hgate := pkgurlVersion_argRewritten hurl hsha.isWord hurlNe hsha.1 hany
  rw [searchGroup_buildPkgurl (isDotted_upstream w)] at hgate
  have hsum := searchGroup_pkgsha_argRewritten hsha.isWord hsha.1 hanySha
  have hdisjoint (line : Text) : isArg "PKGURL".toList line = true →
      isArg "PKGSHA256".toList line = false := isArg_pkgsha_of_pkgurl
  have hother := hdisjoint (argLine "PKGURL".toList (buildPkgurl w.upstream))
    (isArg_argLine _ hurl hurlNe)
  have hreturn :
      '\r' ∉ argRewritten "PKGURL".toList (buildPkgurl w.upstream) text :=
    return_not_mem_argRewritten (by decide) hurl htext
  subst hnew
  exact {
    lines := by
      rw [lines_argRewritten (by decide) hsha.isWord, lines_argRewritten (by decide) hurl,
        replaceFirst_eq_set, findIdx_replaceFirst_other hdisjoint hother, replaceFirst_eq_set]
      rfl
    newlines := universalNewlines_of_not_mem
      (return_not_mem_argRewritten (by decide) hsha.isWord hreturn)
    pins := by
      rw [readPins, hfound, hsum]
      dsimp only
      rw [searchGroup_buildPkgurl (isDotted_upstream w)]
    gate := hgate }

end

/-! ### The bump -/

section

variable {pk : Packaging} {net : Answers} {files after : Files} {text v : Text}

/-- The newest version is not above the pinned one. -/
def UpToDate (pk : Packaging) (newest current : Text) : Prop :=
  ∃ k l, version pk newest = .ok k ∧ version pk current = .ok l ∧ k ≤ l

theorem due_eq_none {ga : Payload} {pinnedUrl pinnedSha newest current : Text}
    (hread : readPins text = .ok (pinnedUrl, pinnedSha, current)) (hga : net.ga = some ga)
    (hversion : parseGaVersion pk ga = .ok newest) (hle : UpToDate pk newest current) :
    due pk net text = .ok none := by
  obtain ⟨k, l, hk, hl, hle⟩ := hle
  rw [due, hread, ok_bind]
  dsimp only
  rw [hga, Option.elim_some, ok_bind, hversion, ok_bind, hk, ok_bind, hl, ok_bind, if_pos hle]
  rfl

theorem upToDate_of_none {pinnedUrl pinnedSha current : Text}
    (hread : readPins text = .ok (pinnedUrl, pinnedSha, current))
    (h : due pk net text = .ok none) :
    ∃ ga newest, net.ga = some ga ∧ parseGaVersion pk ga = .ok newest ∧
      UpToDate pk newest current := by
  rw [due] at h
  obtain ⟨_, hpins, h⟩ := bind_ok h
  cases hread.symm.trans hpins
  dsimp only at h
  obtain ⟨ga, hga, h⟩ := bind_ok h
  obtain ⟨newest, hversion, h⟩ := bind_ok h
  obtain ⟨k, hk, h⟩ := bind_ok h
  obtain ⟨l, hl, h⟩ := bind_ok h
  split at h
  · rename_i hle
    exact ⟨ga, newest, answer_ok hga, hversion, k, l, hk, hl, hle⟩
  · obtain ⟨deb, -, h⟩ := bind_ok h
    obtain ⟨published, -, h⟩ := bind_ok h
    split at h <;>
      (obtain ⟨checksum, -, h⟩ := bind_ok h; cases h)

/-- What a bump that succeeds has found due and written. -/
theorem bump_ok {answer : Option Text} (hpin : files.pin = some text)
    (h : bump pk net true files = .ok answer after) :
    match answer with
    | none => after = files ∧ due pk net (universalNewlines text) = .ok none
    | some v => ∃ url sha new, after.pin = some new ∧
        due pk net (universalNewlines text) = .ok (some (v, url, sha)) ∧
        rewriteDockerfile (universalNewlines text) url sha = .ok new := by
  rw [bump_eq, hpin] at h
  dsimp only [readText] at h
  split at h
  · cases h
  · rename_i hdue
    cases h
    exact ⟨rfl, hdue⟩
  · rename_i newest url sha hdue
    split at h
    · cases h
    · rename_i new hnew
      split at h
      · cases h
      · cases h
        exact ⟨url, sha, new, rfl, hdue, hnew⟩

end

/-- A bump that answers a version has moved the pins up to the greatest one, in the two lines that
are read back, and has then nothing more to do. A bump that answers none found the pins there and
wrote nothing. -/
theorem bump_repins (pk : Versions) (net : Answers) (files : Files)
    (raw pinnedUrl pinnedSha current : Text) (hpin : files.pin = some raw)
    (hread : readPins (universalNewlines raw) = .ok (pinnedUrl, pinnedSha, current))
    (hnet : net.HexChecksums) :
    (∀ v after, bump pk.toPackaging net true files = .ok (some v) after →
      (∃ ga, net.ga = some ga ∧ IsGreatest ga v) ∧
        (∃ k l, version pk.toPackaging v = .ok k ∧ version pk.toPackaging current = .ok l ∧
          l < k) ∧
        (∃ deb sha new, net.deb = some deb ∧ IsChecksum net (deb.getD []) v sha ∧
          after.pin = some new ∧ Repinned (universalNewlines raw) new v sha) ∧
        bump pk.toPackaging net true after = .ok none after) ∧
      ∀ after, bump pk.toPackaging net true files = .ok none after →
        after = files ∧ ∃ ga newest, net.ga = some ga ∧ IsGreatest ga newest ∧
          UpToDate pk.toPackaging newest current := by
  constructor
  · intro v after h
    obtain ⟨url, sha, new, hafter, hdueOk, hnew⟩ := bump_ok hpin h
    have hdue := due_of_ok hdueOk
    obtain ⟨ga, hga, hversion⟩ := hdue.answered
    obtain ⟨_, _, _, k, l, hread', hk, hl, hlt⟩ := hdue.advances
    cases hread.symm.trans hread'
    obtain ⟨deb, hdeb, hchecksum, hhex⟩ := hdue.isChecksum hnet
    obtain ⟨w, hw⟩ := parseGaVersion_ok hversion
    have hrepinned : Repinned (universalNewlines raw) new v sha := by
      rw [hdue.location] at hnew
      subst hw
      exact repinned_of_rewrite hhex (return_not_mem_universalNewlines raw) hnew
    refine ⟨⟨ga, hga, parseGaVersion_greatest hversion⟩, ⟨k, l, hk, hl, hlt⟩,
      ⟨deb, sha, new, hdeb, hchecksum, hafter, hrepinned⟩, ?_⟩
    have hnone : due pk.toPackaging net (universalNewlines new) = .ok none := by
      rw [hrepinned.newlines]
      exact due_eq_none hrepinned.pins hga hversion ⟨k, k, hk, hk, le_rfl⟩
    rw [bump_eq, hafter]
    dsimp only [readText]
    rw [hnone]
  · intro after h
    obtain ⟨hafter, hdue⟩ := bump_ok hpin h
    obtain ⟨ga, newest, hga, hversion, hle⟩ := upToDate_of_none hread hdue
    exact ⟨hafter, ga, newest, hga, parseGaVersion_greatest hversion, hle⟩

def rowed (version sha256 : String) : Files :=
  ⟨some (dockerfile version sha256), some (row version.toList fallbackLink)⟩

theorem bump_repins_example :
    bump numericVersions.toPackaging (networkAnswering 10 5 67 "8e") true (rowed "10.4.57" "f6") =
        .ok (some "10.5.67".toList) (rowed "10.5.67" "8e") ∧
      bump numericVersions.toPackaging (networkAnswering 10 5 67 "8e") true
        (rowed "10.5.67" "8e") = .ok none (rowed "10.5.67" "8e") := by
  have hbump : bump numericVersions.toPackaging (networkAnswering 10 5 67 "8e") true
      (rowed "10.4.57" "f6") = .ok (some "10.5.67".toList) (rowed "10.5.67" "8e") := by
    decide +kernel
  refine ⟨hbump, ((bump_repins numericVersions (networkAnswering 10 5 67 "8e")
    (rowed "10.4.57" "f6") (dockerfile "10.4.57" "f6") (buildPkgurl "10.4.57".toList) "f6".toList
    "10.4.57".toList rfl (by decide +kernel) ⟨?_, ?_⟩).1 _ _ hbump).2.2.2⟩
  · intro firmware h
    cases h
    decide +kernel
  · intro url sha h
    cases h

end UnifiContainers.Updaters.Network
