import UnifiContainers.Updaters.Refusals
import UnifiContainers.Release.Plan
import Mathlib.Tactic.IntervalCases

/-!
# Which pinned versions can be tagged

A pinned version becomes the upstream part of a release tag, which the release gate parses and
plans with the same pins. The Network updater writes its version from integers, into a URL that the
gate reads back; the UOS updater copies the text that the API answers.
-/

namespace UnifiContainers.Updaters

open Regex Pattern PyText Pins Fallible

/-- The files that a bump leaves, whether it fails or not. -/
def left (bump : Bump (Option Text)) (files : Files) : Files :=
  match bump files with
  | .ok _ after => after
  | .error _ after => after

/-- The pinned version is `X.Y.Z`, and the tag of its next release is parsed and planned. -/
def Tagged (pk : Packaging) (tags : List String) (product : Product) (pinned : Option Text) :
    Prop :=
  ∃ s, pinned = some s ∧ IsVersion (String.ofList s) ∧
    (parse (nextRelease tags product (String.ofList s)).gitTag).isSome = true ∧
    ∀ lookup : Product → Option String, lookup product = some (String.ofList s) →
      ∃ p, plan pk (nextRelease tags product (String.ofList s)).gitTag tags lookup = .ok p

theorem tagged_iff {pk : Packaging} {tags : List String} {product : Product} {s : Text} :
    Tagged pk tags product (some s) ↔
      IsVersion (String.ofList s) ∧ Accepted pk tags product := by
  constructor
  · intro h
    obtain ⟨_, heq, hversion, -, hplan⟩ := h
    cases heq
    refine ⟨hversion, ?_⟩
    rw [← accepted_next hversion]
    exact (plan_ok_iff (r := nextRelease tags product (String.ofList s)) hversion.isUpstream
      rfl).mp (hplan (fun _ => some (String.ofList s)) rfl)
  · intro h
    obtain ⟨hversion, haccepted⟩ := h
    refine ⟨s, rfl, hversion, ?_, fun lookup hpin => ?_⟩
    · rw [parse_gitTag hversion.isUpstream]
      rfl
    · apply (plan_ok_iff hversion.isUpstream hpin).mpr
      exact (accepted_next hversion).mpr haccepted

/-! ### The URL of the Network pin -/

namespace Network

variable {pk : Packaging} {net : Answers} {v w text new sha rest rest' : Text}

def host : Text := "https://dl.ui.com".toList

def marker : Text := "/unifi/".toList

/-- `\d+\.\d+\.\d+` as a property of a text. -/
def IsDotted (v : Text) : Prop :=
  ∃ x y z, IsDigits x ∧ IsDigits y ∧ IsDigits z ∧ v = x ++ '.' :: (y ++ '.' :: z)

def isDottedChar (c : Char) : Bool := isDecimal c || c == '.'

theorem IsDotted.chars (h : IsDotted v) : ∀ c ∈ v, isDottedChar c = true := by
  obtain ⟨x, y, z, hx, hy, hz, rfl⟩ := h
  intro c hc
  rw [isDottedChar, Bool.or_eq_true, beq_iff_eq]
  rcases List.mem_append.mp hc with hc | hc
  · exact .inl (hx.2 c hc)
  · rcases List.mem_cons.mp hc with hdot | hc
    · exact .inr hdot
    · rcases List.mem_append.mp hc with hc | hc
      · exact .inl (hy.2 c hc)
      · rcases List.mem_cons.mp hc with hdot | hc
        · exact .inr hdot
        · exact .inl (hz.2 c hc)

/-- A slash ends the version. -/
theorem IsDotted.append_inj (hv : IsDotted v) (hw : IsDotted w)
    (h : v ++ '/' :: rest = w ++ '/' :: rest') : v = w ∧ rest = rest' := by
  have hslash : isDottedChar '/' = false := by decide
  exact classWords_cons_inj hv.chars hw.chars hslash hslash h

theorem matches_versionInUrlRe {s u : Cursor Unit} : Matches versionInUrlRe s u ↔
    ∃ v rest, s.after = marker ++ (v ++ '/' :: rest) ∧ IsDotted v ∧
      u = ((s.advance marker (v ++ '/' :: rest)).store () v ('/' :: rest)).advance ['/'] rest := by
  rw [versionInUrlRe, matches_lit_seq]
  constructor
  · intro h
    obtain ⟨after, hafter, h⟩ := h
    obtain ⟨t, hgroup, hslash⟩ := matches_seq.mp h
    obtain ⟨v, after', hafter', hv, ht⟩ := consumes_dotted.matches_group.mp hgroup
    subst ht
    obtain ⟨rest, hrest, hu⟩ := matches_lit.mp hslash
    have hsplit : after = v ++ after' := hafter'
    have hend : after' = '/' :: rest := hrest
    subst hend hsplit
    exact ⟨v, rest, hafter, mem_dotted.mp hv, hu⟩
  · intro h
    obtain ⟨v, rest, hafter, hv, hu⟩ := h
    refine ⟨v ++ '/' :: rest, hafter, ?_⟩
    refine matches_seq.mpr ⟨_, consumes_dotted.matches_group.mpr ⟨v, '/' :: rest, rfl,
      mem_dotted.mpr hv, rfl⟩, ?_⟩
    exact matches_lit.mpr ⟨rest, rfl, hu⟩

theorem buildPkgurl_eq (v : Text) :
    buildPkgurl v = host ++ (marker ++ (v ++ '/' :: "unifi_sysvinit_all.deb".toList)) := by
  have hhead : "https://dl.ui.com/unifi/".toList = host ++ marker := by decide
  have htail : "/unifi_sysvinit_all.deb".toList = '/' :: "unifi_sysvinit_all.deb".toList := by
    decide
  have hsplit := congrArg₂ (fun head tail : Text => head ++ (v ++ tail)) hhead htail
  exact hsplit.trans (List.append_assoc host marker _)

theorem marker_not_in_host (rest : Text) :
    ∀ k < host.length, marker.isPrefixOf ((host ++ (marker ++ rest)).drop k) = false := by
  intro k hk
  have hk17 : k < 17 := hk
  interval_cases k <;> rfl

/-- The gate reads the version back out of the URL. -/
theorem searchGroup_buildPkgurl (hv : IsDotted v) :
    searchGroup versionInUrlRe () (buildPkgurl v) = some v := by
  let tail : Text := "unifi_sysvinit_all.deb".toList
  let s : Cursor Unit := Cursor.fresh host.reverse (marker ++ (v ++ '/' :: tail))
  have hmatch : (run versionInUrlRe s).head? = some (((s.advance marker (v ++ '/' :: tail)).store ()
      v ('/' :: tail)).advance ['/'] tail) := by
    apply head?_run_eq_some
    · exact matches_versionInUrlRe.mpr ⟨v, tail, rfl, hv, rfl⟩
    · intro u hu
      obtain ⟨w, rest, hafter, hw, hu⟩ := matches_versionInUrlRe.mp hu
      obtain ⟨hsame, htail⟩ := hv.append_inj hw (List.append_cancel_left hafter)
      subst hu hsame
      rw [← htail]
  rw [buildPkgurl_eq, searchGroup, search]
  have hskip := searchFrom_lit_skip marker (.seq (.group () dotted) (.lit ['/'])) host []
    (marker ++ (v ++ '/' :: tail)) (marker_not_in_host _)
  rw [List.append_nil] at hskip
  have hfound :
      searchFrom versionInUrlRe [] (host ++ (marker ++ (v ++ '/' :: tail))) = some (s, _) :=
    hskip.trans (searchFrom_of_head? hmatch)
  rw [hfound]
  rfl

/-! ### The rewritten Dockerfile -/

theorem nonSpace_word (h : IsWord v) : ∀ c ∈ v, nonSpace c = true := by
  intro c hc
  rw [nonSpace, (h c hc).1]
  rfl

theorem isArg_argLine (name : Text) (h : IsWord v) (hne : v ≠ []) :
    isArg name (argLine name v) = true :=
  isArg_iff.mpr ⟨v, rfl, hne, nonSpace_word h⟩

theorem not_mem_argLine {name : Text} {c : Char} (hname : c ∉ "ARG ".toList ++ (name ++ ['=']))
    (hv : c ∉ v) : c ∉ argLine name v := by
  have hline : argLine name v = ("ARG ".toList ++ (name ++ ['='])) ++ v := by
    simp [argLine]
  rw [hline, List.mem_append]
  exact not_or.mpr ⟨hname, hv⟩

def argRewritten (name value text : Text) : Text :=
  unlines (replaceFirst (isArg name) (argLine name value) (lines text))

/-- One argument is rewritten where the file has it. -/
theorem sub_argRe {name : Text} (hnewline : '\n' ∉ name)
    (hescape : '\\' ∉ "ARG ".toList ++ (name ++ ['='])) (hv : IsWord v) (text : Text) :
    sub (argRe name) [()] (argLine name v) text =
      .ok (if (lines text).any (isArg name) then (argRewritten name v text, 1) else (text, 0)) := by
  have htemplate : '\\' ∉ argLine name v := not_mem_argLine hescape (hv.not_mem (by decide))
  rw [sub, subn_plain (linePattern_argRe hnewline) [()] htemplate text]
  rfl

theorem rewriteDockerfile_eq {url : Text} (hurl : IsWord url) (hsha : IsWord sha)
    (h : rewriteDockerfile text url sha = .ok new) :
    (lines text).any (isArg "PKGURL".toList) = true ∧
      (lines (argRewritten "PKGURL".toList url text)).any (isArg "PKGSHA256".toList) = true ∧
      new = argRewritten "PKGSHA256".toList sha (argRewritten "PKGURL".toList url text) := by
  rw [rewriteDockerfile, pkgurlRe, pkgshaRe, sub_argRe (by decide) (by decide) hurl] at h
  obtain ⟨⟨first, nUrl⟩, hfirst, h⟩ := bind_ok h
  dsimp only at h
  rw [sub_argRe (by decide) (by decide) hsha] at h
  obtain ⟨⟨second, nSha⟩, hsecond, h⟩ := bind_ok h
  dsimp only at h
  cases hany : (lines text).any (isArg "PKGURL".toList) with
  | false =>
    rw [hany] at hfirst
    cases hfirst
    cases h
  | true =>
    rw [hany] at hfirst
    cases hfirst
    cases hanySha :
        (lines (argRewritten "PKGURL".toList url text)).any (isArg "PKGSHA256".toList) with
    | false =>
      rw [hanySha] at hsecond
      cases hsecond
      cases h
    | true =>
      rw [hanySha] at hsecond
      cases hsecond
      cases h
      exact ⟨rfl, rfl, rfl⟩

theorem lines_argRewritten {name : Text} (hname : '\n' ∉ "ARG ".toList ++ (name ++ ['=']))
    (hv : IsWord v) (text : Text) :
    lines (argRewritten name v text) = replaceFirst (isArg name) (argLine name v) (lines text) :=
  lines_replaceFirst (not_mem_argLine hname (hv.not_mem (by decide)))

theorem isArg_pkgurl_of_pkgsha {line : Text} (h : isArg "PKGSHA256".toList line = true) :
    isArg "PKGURL".toList line = false := by
  obtain ⟨value, hline, -⟩ := isArg_iff.mp h
  subst hline
  rfl

theorem isArg_pkgsha_of_pkgurl {line : Text} (h : isArg "PKGURL".toList line = true) :
    isArg "PKGSHA256".toList line = false := by
  rw [Bool.eq_false_iff]
  intro hsha
  rw [isArg_pkgurl_of_pkgsha hsha] at h
  cases h

theorem searchGroup_argRe (name text : Text) (hname : '\n' ∉ name) :
    searchGroup (argRe name) () text =
      ((lines text).find? (isArg name)).bind fun line => argValue name line () :=
  searchGroup_eq (linePattern_argRe hname) () text

/-- The URL that was written is the one that is found. -/
theorem searchGroup_pkgurl_argRewritten {url : Text} (hurl : IsWord url) (hsha : IsWord sha)
    (hurlNe : url ≠ []) (hshaNe : sha ≠ [])
    (hany : (lines text).any (isArg "PKGURL".toList) = true) :
    searchGroup pkgurlRe () (argRewritten "PKGSHA256".toList sha
      (argRewritten "PKGURL".toList url text)) = some url := by
  have hdisjoint (line : Text) : isArg "PKGSHA256".toList line = true →
      isArg "PKGURL".toList line = false := isArg_pkgurl_of_pkgsha
  have hother := hdisjoint (argLine "PKGSHA256".toList sha) (isArg_argLine _ hsha hshaNe)
  rw [pkgurlRe, searchGroup_argRe _ _ (by decide), lines_argRewritten (by decide) hsha,
    lines_argRewritten (by decide) hurl,
    find?_replaceFirst_other hdisjoint hother,
    find?_replaceFirst_self hany (isArg_argLine _ hurl hurlNe), Option.bind_some, argValue_argLine]

/-- The gate reads the URL that was written. -/
theorem pkgurlVersion_argRewritten {url : Text} (hurl : IsWord url) (hsha : IsWord sha)
    (hurlNe : url ≠ []) (hshaNe : sha ≠ [])
    (hany : (lines text).any (isArg "PKGURL".toList) = true) :
    pkgurlVersion (argRewritten "PKGSHA256".toList sha (argRewritten "PKGURL".toList url text)) =
      searchGroup versionInUrlRe () url := by
  rw [pkgurlVersion, searchGroup_pkgurl_argRewritten hurl hsha hurlNe hshaNe hany,
    Option.bind_some]

theorem return_not_mem_argRewritten {name : Text}
    (hname : '\r' ∉ "ARG ".toList ++ (name ++ ['='])) (hv : IsWord v)
    (htext : '\r' ∉ text) : '\r' ∉ argRewritten name v text :=
  not_mem_replaceFirst_text (by decide) (not_mem_argLine hname (hv.not_mem (by decide))) htext

/-! ### The version that is due -/

theorem versionOf_ok {entry : Firmware} (h : versionOf entry = .ok v) :
    ∃ w : VersionText, v = w.upstream ∧ numbers entry = some (upstreamRank w) := by
  rw [versionOf] at h
  obtain ⟨major, hmajor, h⟩ := bind_ok h
  obtain ⟨minor, hminor, h⟩ := bind_ok h
  obtain ⟨patch, hpatch, h⟩ := bind_ok h
  cases h
  refine ⟨⟨⟨str major, str_isNumeral major⟩, ⟨str minor, str_isNumeral minor⟩,
    ⟨str patch, str_isNumeral patch⟩, ⟨str 0, str_isNumeral 0⟩⟩, rfl, ?_⟩
  rw [numbers, field_ok hmajor, field_ok hminor, field_ok hpatch, upstreamRank, int_str, int_str,
    int_str]
  rfl

/-- It is the version of a released record, and the library puts no other one above it. -/
theorem parseGaVersion_spec {payload : Payload} (h : parseGaVersion pk payload = .ok v) :
    ∃ entry ∈ (payload.getD []).filter fun entry => entry.channel = some gaChannel,
      versionOf entry = .ok v ∧ ∃ key, version pk v = .ok key ∧
        ∀ other ∈ (payload.getD []).filter fun entry => entry.channel = some gaChannel,
          ∃ text k, versionOf other = .ok text ∧ version pk text = .ok k ∧ k ≤ key := by
  rw [parseGaVersion] at h
  obtain ⟨versions, hversions, h⟩ := bind_ok h
  obtain ⟨keyed, hkeyed, h⟩ := bind_ok h
  cases hmax : keyed.argmax Prod.fst with
  | none =>
    rw [hmax] at h
    cases h
  | some newest =>
    rw [hmax] at h
    cases h
    obtain ⟨found, hfound, hpair⟩ := mem_of_mapM_ok hkeyed (List.argmax_mem hmax)
    obtain ⟨key, hkey, hpair⟩ := bind_ok hpair
    cases hpair
    obtain ⟨entry, hentry, hversion⟩ := mem_of_mapM_ok hversions (List.mem_dedup.mp hfound)
    refine ⟨entry, hentry, hversion, key, hkey, fun other hother => ?_⟩
    obtain ⟨text, htext, hread⟩ := exists_of_mapM_ok hversions hother
    obtain ⟨⟨k, name⟩, hmem, hlisted⟩ := exists_of_mapM_ok hkeyed (List.mem_dedup.mpr htext)
    obtain ⟨k, hk, heq⟩ := bind_ok hlisted
    cases heq
    exact ⟨text, k, hread, hk, List.le_of_mem_argmax hmem hmax⟩

theorem parseGaVersion_ok {payload : Payload} (h : parseGaVersion pk payload = .ok v) :
    ∃ w : VersionText, v = w.upstream := by
  obtain ⟨entry, -, hversion, -⟩ := parseGaVersion_spec h
  obtain ⟨w, hw, -⟩ := versionOf_ok hversion
  exact ⟨w, hw⟩

theorem isWord_buildPkgurl (w : VersionText) : IsWord (buildPkgurl w.upstream) := by
  have hhead : IsWord "https://dl.ui.com/unifi/".toList := by decide
  have htail : IsWord "/unifi_sysvinit_all.deb".toList := by decide
  exact hhead.append ((isWord_upstream w).append htail)

theorem isDotted_upstream (w : VersionText) : IsDotted w.upstream :=
  ⟨w.major.1, w.minor.1, w.patch.1, .of_numeral w.major.2, .of_numeral w.minor.2,
    .of_numeral w.patch.2, rfl⟩

/-- The checksums that the updater is answered are single words, the one of the artifact not an
empty one. -/
structure Answers.WellFormed (net : Answers) : Prop where
  deb : IsWellFormed net.deb
  artifactSha256 : ∀ url sha, net.artifactSha256 url = some sha → sha ≠ [] ∧ IsWord sha

/-- A record of the standalone package in exactly this version. -/
def IsDebBuild (v : Text) (entry : Firmware) : Prop :=
  entry.channel = some gaChannel ∧ entry.platform = some debPlatform ∧ versionOf entry = .ok v

theorem debSha256_some {firmware : List Firmware} (h : debSha256 v firmware = .ok (some sha)) :
    ∃ entry ∈ firmware, IsDebBuild v entry ∧ entry.sha256Checksum = some sha := by
  induction firmware with
  | nil => cases h
  | cons entry rest ih =>
    rw [debSha256] at h
    have hlater (h : debSha256 v rest = .ok (some sha)) :
        ∃ other ∈ entry :: rest, IsDebBuild v other ∧ other.sha256Checksum = some sha := by
      obtain ⟨other, hother, hsha⟩ := ih h
      exact ⟨other, List.mem_cons_of_mem entry hother, hsha⟩
    split at h
    · exact hlater h
    · rename_i hplatform
      obtain ⟨found, hfound, h⟩ := bind_ok h
      obtain ⟨hchannel, hdebian⟩ := not_or.mp hplatform
      split at h
      · rename_i hversion
        obtain ⟨checksum, hchecksum, h⟩ := bind_ok h
        cases h
        subst hversion
        exact ⟨entry, List.mem_cons_self, ⟨not_not.mp hchannel, not_not.mp hdebian, hfound⟩,
          field_ok hchecksum⟩
      · exact hlater h

/-- What is due, from the answers. -/
structure Due (pk : Packaging) (net : Answers) (text newest url sha : Text) : Prop where
  answered : ∃ ga, net.ga = some ga ∧ parseGaVersion pk ga = .ok newest
  advances : ∃ pinnedUrl pinnedSha current k l,
    readPins text = .ok (pinnedUrl, pinnedSha, current) ∧
      version pk newest = .ok k ∧ version pk current = .ok l ∧ l < k
  location : url = buildPkgurl newest
  checksum : ∃ deb published, net.deb = some deb ∧ parseDebSha256 deb newest = .ok published ∧
    (published = some sha ∧ sha ≠ [] ∨
      (published = none ∨ published = some []) ∧ net.artifactSha256 url = some sha)

theorem due_of_ok {newest url : Text} (h : due pk net text = .ok (some (newest, url, sha))) :
    Due pk net text newest url sha := by
  rw [due] at h
  obtain ⟨⟨pinnedUrl, pinnedSha, current⟩, hread, h⟩ := bind_ok h
  dsimp only at h
  obtain ⟨ga, hga, h⟩ := bind_ok h
  obtain ⟨version, hversion, h⟩ := bind_ok h
  obtain ⟨k, hk, h⟩ := bind_ok h
  obtain ⟨l, hl, h⟩ := bind_ok h
  split at h
  · cases h
  · rename_i hle
    obtain ⟨deb, hdeb, h⟩ := bind_ok h
    obtain ⟨published, hpublished, h⟩ := bind_ok h
    have hlt : l < k := not_le.mp hle
    split at h
    · obtain ⟨checksum, hchecksum, h⟩ := bind_ok h
      cases h
      exact ⟨⟨ga, answer_ok hga, hversion⟩, ⟨_, _, _, k, l, hread, hk, hl, hlt⟩, rfl,
        deb, none, answer_ok hdeb, hpublished, .inr ⟨.inl rfl, answer_ok hchecksum⟩⟩
    · obtain ⟨checksum, hchecksum, h⟩ := bind_ok h
      cases h
      exact ⟨⟨ga, answer_ok hga, hversion⟩, ⟨_, _, _, k, l, hread, hk, hl, hlt⟩, rfl,
        deb, some [], answer_ok hdeb, hpublished, .inr ⟨.inr rfl, answer_ok hchecksum⟩⟩
    · rename_i checksum hne
      cases h
      exact ⟨⟨ga, answer_ok hga, hversion⟩, ⟨_, _, _, k, l, hread, hk, hl, hlt⟩, rfl,
        deb, some sha, answer_ok hdeb, hpublished, .inl ⟨rfl, hne⟩⟩

theorem due_ok {newest url : Text} (hnet : net.WellFormed)
    (h : due pk net text = .ok (some (newest, url, sha))) :
    (∃ w : VersionText, newest = w.upstream) ∧ url = buildPkgurl newest ∧ sha ≠ [] ∧
      IsWord sha := by
  have hdue := due_of_ok h
  obtain ⟨ga, -, hversion⟩ := hdue.answered
  refine ⟨parseGaVersion_ok hversion, hdue.location, ?_⟩
  obtain ⟨deb, published, hdeb, hpublished, ⟨heq, hne⟩ | ⟨-, hartifact⟩⟩ := hdue.checksum
  · subst heq
    obtain ⟨entry, hentry, -, hsha⟩ := debSha256_some hpublished
    cases deb with
    | none => cases hentry
    | some firmware =>
      exact ⟨hne, hnet.deb firmware hdeb entry hentry sha (by simp [Firmware.texts, hsha])⟩
  · exact hnet.artifactSha256 url sha hartifact

/-! ### The tag of a rewritten Dockerfile -/

/-- A bump that leaves another Dockerfile has rewritten the pins. -/
theorem replaces_of_left {files : Files} {raw : Text} (hpin : files.pin = some raw)
    (hnew : (left (bump pk net true) files).pin = some new) (hne : new ≠ raw) :
    ∃ newest, Replaces pk net files newest new := by
  rw [left, bump_eq, hpin] at hnew
  dsimp only [readText] at hnew
  have hsame {text : Text} (h : files.pin = some text) : text = raw :=
    Option.some.inj (h.symm.trans hpin)
  cases hdue : due pk net (universalNewlines raw) with
  | error e =>
    rw [hdue] at hnew
    exact absurd (hsame hnew) hne
  | ok found =>
    rw [hdue] at hnew
    cases found with
    | none => exact absurd (hsame hnew) hne
    | some moved =>
      obtain ⟨newest, url, sha⟩ := moved
      dsimp only at hnew
      cases hrewrite : rewriteDockerfile (universalNewlines raw) url sha with
      | error e =>
        rw [hrewrite] at hnew
        exact absurd (hsame hnew) hne
      | ok written =>
        rw [hrewrite] at hnew
        dsimp only at hnew
        have hwritten : written = new := by
          split at hnew
          · rename_i heq
            split at heq
            · cases heq
            · cases heq
              exact Option.some.inj hnew
          · rename_i heq
            split at heq
            · cases heq
              exact Option.some.inj hnew
            · cases heq
        subst hwritten
        exact ⟨newest, raw, url, sha, hpin, hdue, hrewrite, hne⟩

/-- The gate reads the version that was written. -/
theorem pinnedVersion_of_replaces {files : Files} {newest : Text} (env : DotEnv)
    (hnet : net.WellFormed) (h : Replaces pk net files newest new) :
    (∃ w : VersionText, newest = w.upstream) ∧
      pinnedVersion env .network (universalNewlines new) = some newest := by
  obtain ⟨raw, url, sha, hpin, hdue, hrewrite, -⟩ := h
  obtain ⟨⟨w, hnewest⟩, hurl, hshaNe, hsha⟩ := due_ok hnet hdue
  subst hnewest hurl
  have hword := isWord_buildPkgurl w
  have hne : buildPkgurl w.upstream ≠ [] := by
    rw [buildPkgurl_eq]
    exact List.cons_ne_nil _ _
  obtain ⟨hany, -, hnew⟩ := rewriteDockerfile_eq hword hsha hrewrite
  have hurl :
      '\r' ∉ argRewritten "PKGURL".toList (buildPkgurl w.upstream) (universalNewlines raw) :=
    return_not_mem_argRewritten (by decide) hword (return_not_mem_universalNewlines raw)
  have hreturn : '\r' ∉ new := by
    rw [hnew]
    exact return_not_mem_argRewritten (by decide) hsha hurl
  refine ⟨⟨w, rfl⟩, ?_⟩
  rw [universalNewlines_of_not_mem hreturn, hnew]
  show pkgurlVersion _ = _
  rw [pkgurlVersion_argRewritten hword hsha hne hshaNe hany,
    searchGroup_buildPkgurl (isDotted_upstream w)]

end Network

theorem isVersion_upstream (w : VersionText) : IsVersion (String.ofList w.upstream) :=
  ⟨w.major.1, w.minor.1, w.patch.1, w.major.2, w.minor.2, w.patch.2, String.toList_ofList⟩

/-! ### The tag of a rewritten env file -/

namespace Uos

variable {pk : Packaging} {env : DotEnv} {net : Answers} {files : Files} {raw new current : Text}

/-- A bump that leaves another env file has rewritten the pins. -/
theorem newPins_of_left (hpin : files.pin = some raw)
    (hnew : (left (bump pk env net true) files).pin = some new) (hne : new ≠ raw) :
    ∃ d, decision pk env net (universalNewlines raw) = .ok d ∧
      newPins (universalNewlines raw) d = .ok new := by
  rw [left, bump_eq, hpin] at hnew
  dsimp only [readText] at hnew
  have hsame (h : files.pin = some new) : new = raw := Option.some.inj (h.symm.trans hpin)
  cases hd : decision pk env net (universalNewlines raw) with
  | error e =>
    rw [hd] at hnew
    exact absurd (hsame hnew) hne
  | ok d =>
    rw [hd] at hnew
    refine ⟨d, rfl, ?_⟩
    dsimp only [outcome] at hnew
    by_cases hnone : (!d.uosMoved && !d.appMoved) = true
    · rw [if_pos hnone] at hnew
      exact absurd (hsame hnew) hne
    · rw [if_neg hnone] at hnew
      cases hwritten : newPins (universalNewlines raw) d with
      | error e =>
        rw [hwritten] at hnew
        exact absurd (hsame hnew) hne
      | ok written =>
        rw [hwritten] at hnew
        dsimp only at hnew
        cases huos : d.uosMoved with
        | false =>
          rw [huos] at hnew
          exact congrArg Except.ok (Option.some.inj hnew)
        | true =>
          rw [huos, if_pos rfl] at hnew
          cases hreadme : newReadme files.readme d.amd64.version with
          | error e =>
            rw [hreadme] at hnew
            exact congrArg Except.ok (Option.some.inj hnew)
          | ok readme =>
            rw [hreadme] at hnew
            exact congrArg Except.ok (Option.some.inj hnew)

/-- The version that the gate reads once the release has moved: the answered one, unless a later
line assigns the key again. -/
def gateVersion (env : DotEnv) (text current version : Text) : Text :=
  if Reassigned env uosKey text then current else version

theorem pinnedVersion_of_left {release : Release} (hnet : net.WellFormed)
    (hpin : files.pin = some raw) (htext : ByLine env (universalNewlines raw))
    (hcurrent : env.values (universalNewlines raw) uosKey = some (some current))
    (hrelease : net.release = .ok release) (hmoves : Advances pk current release.version)
    (hnew : (left (bump pk env net true) files).pin = some new) (hne : new ≠ raw) :
    pinnedVersion env .unifiOs (universalNewlines new) =
      (some (gateVersion env (universalNewlines raw) current release.version)).filter (· ≠ []) := by
  obtain ⟨d, hd, hwritten⟩ := newPins_of_left hpin hnew hne
  have hdecided := decision_ok hd
  cases hdecided.release.symm.trans hrelease
  have hw := newPins_written env (decision_wellFormed hnet hd) htext hwritten
  have hvalue := hw.version ((hdecided.advances_iff hcurrent).mp hmoves)
  rw [universalNewlines_of_byLine hw.byLine, pinnedVersion, hvalue, gateVersion]
  split
  · rw [hcurrent]
    rfl
  · rfl

end Uos

/-- An empty text is no version. -/
theorem tagged_filter_iff {pk : Packaging} {tags : List String} {product : Product} {s : Text} :
    Tagged pk tags product ((some s).filter (· ≠ [])) ↔
      IsVersion (String.ofList s) ∧ Accepted pk tags product := by
  by_cases hs : s = []
  · subst hs
    constructor
    · intro h
      obtain ⟨_, heq, -⟩ := h
      cases heq
    · intro h
      obtain ⟨x, y, z, -, -, -, heq⟩ := h.1
      simp at heq
  · rw [Option.filter_some, if_pos (by simpa using hs)]
    exact tagged_iff

/-- After a bump that rewrites the version pin, the pinned version can be tagged and released
exactly if the product is Network or the version that the gate reads is `X.Y.Z` in ASCII digits,
and the library takes every release of the product that the tags name. -/
theorem rewritten_pins_tagged_iff (pk : Packaging) (env : DotEnv) (files : Files) (raw new : Text)
    (tags : List String) (hpin : files.pin = some raw) (hne : new ≠ raw) :
    (∀ net : Network.Answers, net.WellFormed →
      (left (Network.bump pk net true) files).pin = some new →
        (Tagged pk tags .network (pinnedVersion env .network (universalNewlines new)) ↔
          Accepted pk tags .network)) ∧
      ∀ (net : Uos.Answers) (release : Uos.Release) (current : Text), net.WellFormed →
        ByLine env (universalNewlines raw) →
        env.values (universalNewlines raw) uosKey = some (some current) →
        net.release = .ok release → Uos.Advances pk current release.version →
        (left (Uos.bump pk env net true) files).pin = some new →
          (Tagged pk tags .unifiOs (pinnedVersion env .unifiOs (universalNewlines new)) ↔
            IsVersion (String.ofList
              (Uos.gateVersion env (universalNewlines raw) current release.version)) ∧
              Accepted pk tags .unifiOs) := by
  constructor
  · intro net hnet hnew
    obtain ⟨newest, hreplaces⟩ := Network.replaces_of_left hpin hnew hne
    obtain ⟨⟨w, hnewest⟩, hpinned⟩ := Network.pinnedVersion_of_replaces env hnet hreplaces
    rw [hpinned, tagged_iff, hnewest]
    exact and_iff_right (isVersion_upstream w)
  · intro net release current hnet htext hcurrent hrelease hmoves hnew
    rw [Uos.pinnedVersion_of_left hnet hpin htext hcurrent hrelease hmoves hnew hne]
    exact tagged_filter_iff

/-- The API's text is copied whole, and a build suffix makes a tag that is no release. -/
theorem rewritten_pin_untagged : ¬ ∀ (pk : Packaging) (env : DotEnv) (files : Files)
    (raw new : Text) (tags : List String) (net : Uos.Answers) (release : Uos.Release)
    (current : Text), files.pin = some raw → new ≠ raw → net.WellFormed →
    ByLine env (universalNewlines raw) →
    env.values (universalNewlines raw) uosKey = some (some current) → net.release = .ok release →
    Uos.Advances pk current release.version →
    (left (Uos.bump pk env net true) files).pin = some new →
      Tagged pk tags .unifiOs (pinnedVersion env .unifiOs (universalNewlines new)) := by
  intro htagged
  let version := "5.1.43+atag-5.1.43-34628"
  have hlt : mkRank 5 1 42 0 < mkRank 5 1 43 0 := by decide
  have hadvances : Uos.Advances numericVersions.toPackaging "5.1.42".toList version.toList :=
    ⟨mkRank 5 1 42 0, mkRank 5 1 43 0, by decide +kernel, by decide +kernel, hlt⟩
  obtain ⟨s, hs, -, hparse, -⟩ := htagged numericVersions.toPackaging lineEnv
    (Uos.repo "5.1.42" "10.6.109-36013-1") (Uos.pinning "5.1.42" "10.6.109-36013-1")
    (Uos.pinning version "10.6.109-36013-1") []
    (Uos.answering ("v" ++ version) "10.6.109-36013-1")
    ⟨version.toList, "https://fw-download.ubnt.com/x64".toList, "f6".toList⟩ "5.1.42".toList rfl
    (by decide +kernel) (by constructor <;> (intro firmware h; cases h; decide +kernel))
    (by decide +kernel) (by decide +kernel) (by decide +kernel) hadvances (by decide +kernel)
  have hpinned : pinnedVersion lineEnv .unifiOs
      (universalNewlines (Uos.pinning version "10.6.109-36013-1")) = some version.toList := by
    decide +kernel
  cases hpinned.symm.trans hs
  revert hparse
  decide +kernel

theorem rewritten_pins_tagged :
    Tagged numericVersions.toPackaging ["network/10.4.57-1"] .network
        (pinnedVersion lineEnv .network (universalNewlines (dockerfile "10.5.67" "8e"))) ∧
      Tagged numericVersions.toPackaging ["unifi-os/5.1.42-2"] .unifiOs
        (pinnedVersion lineEnv .unifiOs
          (universalNewlines (Uos.pinning "5.1.43" "10.6.109-36013-1"))) := by
  constructor
  · apply ((rewritten_pins_tagged_iff numericVersions.toPackaging lineEnv
      (rowless (dockerfile "10.4.57" "f6")) (dockerfile "10.4.57" "f6") (dockerfile "10.5.67" "8e")
      ["network/10.4.57-1"] rfl (by decide +kernel)).1 (networkAnswering 10 5 67 "8e")
      ⟨by intro firmware h; cases h; decide +kernel, by intro url sha h; cases h⟩
      (by decide +kernel)).mpr
    decide +kernel
  · have hlt : mkRank 5 1 42 0 < mkRank 5 1 43 0 := by decide
    have hadvances : Uos.Advances numericVersions.toPackaging "5.1.42".toList "5.1.43".toList :=
      ⟨mkRank 5 1 42 0, mkRank 5 1 43 0, by decide +kernel, by decide +kernel, hlt⟩
    apply ((rewritten_pins_tagged_iff numericVersions.toPackaging lineEnv
      (Uos.repo "5.1.42" "10.6.101-35991-1") (Uos.pinning "5.1.42" "10.6.101-35991-1")
      (Uos.pinning "5.1.43" "10.6.109-36013-1") ["unifi-os/5.1.42-2"] rfl (by decide +kernel)).2
      (Uos.answering "v5.1.43" "10.6.109-36013-1")
      ⟨"5.1.43".toList, "https://fw-download.ubnt.com/x64".toList, "f6".toList⟩ "5.1.42".toList
      Uos.wellFormed_answering_newer (by decide +kernel) (by decide +kernel) (by decide +kernel)
      hadvances (by decide +kernel)).mpr
    refine ⟨⟨"5".toList, "1".toList, "43".toList, by decide, by decide, by decide, ?_⟩, ?_⟩
    · decide +kernel
    · decide +kernel

end UnifiContainers.Updaters
