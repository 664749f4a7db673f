import UnifiContainers.Release.Plan
import UnifiContainers.Lib.Run

/-!
# Which release tag to cut next

`decide` and `decideRebuild` choose the next release of a product from its pinned version and the
tags that exist. Each release they return is tagged, so successive calls form a run over a growing
tag list.
-/

namespace UnifiContainers

open Regex PyText StepRun

namespace CutRelease

variable (pk : Packaging)

/-- The release to cut, or `none` when nothing is due, with the reason. `pinsChangedSince` answers
whether the pins differ from a release tag; it may be left out. -/
protected def decide (product : Product) (pinned : Option String) (tags : List String)
    (pinsChangedSince : Option (String → Bool)) :
    Except ReleaseError (Option Release × String) :=
  match pinned.filter (· ≠ "") with
  | none => return (none, product.name ++ " has no pinned version to release")
  | some pinned => do
      match ← maxByVersion pk (buildsOf tags product pinned) with
      | some top =>
          if pinsChangedSince.any (· top.gitTag) then
            return (some (nextRelease tags product pinned),
              "the pins changed since " ++ top.gitTag ++ " was cut")
          else
            return (none, product.name ++ " " ++ pinned ++ " is already released as " ++
              top.gitTag ++ "; a rebuild is deliberate — pass --rebuild to cut the next build")
      | none =>
          return (some (nextRelease tags product pinned),
            product.name ++ " pins " ++ pinned ++ ", which has no release tag yet")

def decideRebuild (product : Product) (pinned : Option String) (tags : List String) :
    Option Release × String :=
  match pinned.filter (· ≠ "") with
  | none => (none, product.name ++ " has no pinned version to rebuild")
  | some pinned =>
      if buildsOf tags product pinned = [] then
        (none, product.name ++ " " ++ pinned ++ " has never been released, so there is nothing " ++
          "to rebuild — cut the first release without --rebuild")
      else
        (some (nextRelease tags product pinned), "rebuilding " ++ product.name ++ " " ++ pinned)

end CutRelease

/-! ### Runs of cuts -/

/-- One call of a chooser for a product and its pinned version `X.Y.Z`. -/
structure CutCall where
  product : Product
  pinned : {u : String // IsVersion u}
  pinsChangedSince : Option (Option (String → Bool))
  /-- Where in the list a returned release's tag shows up. -/
  place : ℕ

namespace CutCall

def choose (pk : Packaging) (tags : List String) (c : CutCall) :
    Except ReleaseError (Option Release × String) :=
  match c.pinsChangedSince with
  | some changed => CutRelease.decide pk c.product (some c.pinned.1) tags changed
  | none => .ok (CutRelease.decideRebuild c.product (some c.pinned.1) tags)

def record (c : CutCall) (tags : List String) (r : Release) : List String :=
  tags.take c.place ++ r.gitTag :: tags.drop c.place

@[simp]
theorem mem_record {c : CutCall} {tags : List String} {r : Release} {t : String} :
    t ∈ c.record tags r ↔ t = r.gitTag ∨ t ∈ tags := by
  rw [record, List.mem_append, List.mem_cons, or_left_comm, ← List.mem_append,
    List.take_append_drop]

end CutCall

/-- One call, its release tagged. A call that raises ends the run. -/
def cutStep (pk : Packaging) (tags : List String) (c : CutCall) : Option (List String) :=
  match c.choose pk tags with
  | .ok (some r, _) => some (c.record tags r)
  | .ok (none, _) => some tags
  | .error _ => none

section

variable {pk : Packaging} {tags : List String}

theorem nonempty_of_isVersion {u : String} (h : IsVersion u) : u ≠ "" := by
  rintro rfl
  obtain ⟨x, y, z, -, -, -, hs⟩ := h
  simp at hs

private theorem buildsOf_isVersion {p : Product} {u : String} (h : IsVersion u) :
    ∀ q ∈ buildsOf tags p u, IsVersion q.upstream := by
  intro q hq
  rw [(mem_buildsOf.mp hq).2.2]
  exact h

private theorem pinned_filter {u : String} (h : IsVersion u) :
    (some u).filter (· ≠ "") = some u := by
  simp [Option.filter, nonempty_of_isVersion h]

theorem decide_of_unreleased (pk : Packaging) {p : Product} {u : String} (h : IsVersion u)
    (hnone : buildsOf tags p u = []) (changed : Option (String → Bool)) :
    ∃ reason, CutRelease.decide pk p (some u) tags changed =
      .ok (some (nextRelease tags p u), reason) := by
  simp only [CutRelease.decide, pinned_filter h, hnone]
  exact ⟨_, rfl⟩

theorem decide_of_released (pk : Packaging) {p : Product} {u : String} (h : IsVersion u)
    (hsome : buildsOf tags p u ≠ []) (changed : Option (String → Bool)) :
    ∃ top ∈ buildsOf tags p u, (∀ q ∈ buildsOf tags p u, q.revision ≤ top.revision) ∧
      ∃ reason, CutRelease.decide pk p (some u) tags changed =
        .ok (if changed.any (· top.gitTag) then some (nextRelease tags p u) else none, reason) := by
  obtain ⟨top, htop, hmem, hmax⟩ := maxByVersion_spec pk (buildsOf_isVersion h) hsome
  have hup := (mem_buildsOf.mp hmem).2.2
  refine ⟨top, hmem, fun q hq => ?_, ?_⟩
  · have hqu := (mem_buildsOf.mp hq).2.2
    exact (rank_le_same (hqu ▸ h) (hqu.trans hup.symm)).mp (hmax q hq)
  · simp only [CutRelease.decide, pinned_filter h, htop, bind, Except.bind, pure, Except.pure]
    split <;> exact ⟨_, rfl⟩

/-- A call never raises, and returns the next build or nothing. -/
theorem choose_ok (pk : Packaging) (tags : List String) (c : CutCall) :
    ∃ found reason, c.choose pk tags = .ok (found, reason) ∧
      ∀ r, found = some r → r = nextRelease tags c.product c.pinned := by
  unfold CutCall.choose
  cases hc : c.pinsChangedSince with
  | none =>
      refine ⟨_, _, rfl, fun r hr => ?_⟩
      simp only [pinned_filter c.pinned.2] at hr
      split at hr
      · cases hr
      · cases hr
        rfl
  | some changed =>
      by_cases hnone : buildsOf tags c.product c.pinned = []
      · obtain ⟨reason, hd⟩ := decide_of_unreleased pk c.pinned.2 hnone changed
        exact ⟨_, _, hd, fun r hr => (Option.some.inj hr).symm⟩
      · obtain ⟨top, -, -, reason, hd⟩ :=
          decide_of_released pk c.pinned.2 hnone changed
        refine ⟨_, _, hd, fun r hr => ?_⟩
        split at hr
        · exact (Option.some.inj hr).symm
        · cases hr

theorem cutStep_cases {others : List String} {c : CutCall} (h : cutStep pk tags c = some others) :
    others = tags ∨ others = c.record tags (nextRelease tags c.product c.pinned) := by
  obtain ⟨found, reason, hc, hnext⟩ := choose_ok pk tags c
  cases found with
  | none =>
      rw [cutStep, hc] at h
      exact Or.inl (Option.some.inj h).symm
  | some r =>
      rw [cutStep, hc] at h
      rw [← hnext r rfl]
      exact Or.inr (Option.some.inj h).symm

theorem isAscii_gitTag {r : Release} (h : IsVersion r.upstream) : IsAscii r.gitTag := by
  obtain ⟨x, y, z, hx, hy, hz, hs⟩ := h
  intro c hc
  rw [gitTag_toList, hs] at hc
  simp only [List.mem_append, List.mem_cons] at hc
  have hnum : ∀ {s : List Char}, IsNumeral s → c ∈ s → c.toNat < 128 := fun h hc => by
    have := (isDigit_iff c).mp (h.2 c hc)
    omega
  rcases hc with hc | rfl | (hc | rfl | hc | rfl | hc) | rfl | hc
  · have hname : ∀ p : Product, ∀ c ∈ p.name.toList, c.toNat < 128 := by
      intro p
      cases p <;> decide
    exact hname _ c hc
  · decide
  · exact hnum hx hc
  · decide
  · exact hnum hy hc
  · decide
  · exact hnum hz hc
  · decide
  · exact hnum (str_isNumeral _) hc

private theorem cutStep_keeps {start others : List String} {c : CutCall}
    (hinv : (∀ t ∈ start, t ∈ tags) ∧ ∀ t ∈ tags, IsAscii t)
    (h : cutStep pk tags c = some others) :
    (∀ t ∈ start, t ∈ others) ∧ ∀ t ∈ others, IsAscii t := by
  rcases cutStep_cases h with hsame | hnew
  · rwa [hsame]
  · constructor
    · intro t ht
      rw [hnew, CutCall.mem_record]
      exact Or.inr (hinv.1 t ht)
    · intro t ht
      rw [hnew, CutCall.mem_record] at ht
      rcases ht with rfl | ht
      · exact isAscii_gitTag c.pinned.2
      · exact hinv.2 t ht

theorem cutRun_keeps {others : List String} {calls : List CutCall} (hascii : ∀ t ∈ tags, IsAscii t)
    (h : exec (cutStep pk) tags calls = some others) :
    (∀ t ∈ tags, t ∈ others) ∧ ∀ t ∈ others, IsAscii t :=
  invariant (cutStep pk) (fun _ _ _ hinv hstep => cutStep_keeps hinv hstep)
    ⟨fun _ ht => ht, hascii⟩ h

/-- A release tag among ASCII tags plans to the newest build exactly when no build exceeds it. -/
theorem planAt_newestBuild (pk : Packaging) {t : String} {q : Release}
    (hascii : ∀ t ∈ tags, IsAscii t) (ht : IsAscii t) (hq : parse t = some q) :
    ∃ pl, planAt pk tags t = .ok pl ∧ pl.newestBuild = isHighestBuild tags q := by
  refine ⟨_, plan_eq hq (by simp [hq]) ?_ (isVersion_of_parse ht hq), rfl⟩
  intro r hr
  obtain ⟨⟨s, hs, hsr⟩, -⟩ := mem_releasesFor.mp hr
  exact isVersion_of_parse (hascii s hs) hsr

theorem isHighestBuild_of_next {others : List String} {r : Release}
    (hr : IsVersion r.upstream) (hnext : IsNextBuild tags r)
    (hmem : ∀ t, t ∈ others ↔ t = r.gitTag ∨ t ∈ tags) : isHighestBuild others r = true := by
  rw [isHighestBuild_iff]
  intro q hq
  obtain ⟨⟨t, ht, htq⟩, hqp, hqu⟩ := mem_buildsOf.mp hq
  rcases (hmem t).mp ht with rfl | ht
  · rw [parse_gitTag hr.isUpstream] at htq
    cases htq
    exact le_rfl
  · exact (hnext.above q (mem_buildsOf.mpr ⟨⟨t, ht, htq⟩, hqp, hqu⟩)).le

/-- What holds of a release that a call returned when the tags were `tags`, at that moment and
after every further run of calls. -/
structure SoundCut (pk : Packaging) (tags : List String) (c : CutCall) (r : Release) : Prop where
  product_eq : r.product = c.product
  upstream_eq : r.upstream = c.pinned
  fresh : r.gitTag ∉ tags
  parses : parse r.gitTag = some r
  next : IsNextBuild tags r
  newest : ∃ pl, planAt pk (c.record tags r) r.gitTag = .ok pl ∧ pl.newestBuild = true
  overtakes : ∀ later others, exec (cutStep pk) (c.record tags r) later = some others →
    ∀ t ∈ tags, ∀ q, parse t = some q → q.product = r.product → q.upstream = r.upstream →
      ∃ pl, planAt pk others t = .ok pl ∧ pl.newestBuild = false
  settled : ∀ later others, exec (cutStep pk) (c.record tags r) later = some others →
    ∀ changed : Option (String → Bool),
      (∀ newest ∈ buildsOf others r.product r.upstream, isHighestBuild others newest = true →
        changed.any (· newest.gitTag) = false) →
      ∃ reason, CutRelease.decide pk r.product (some r.upstream) others changed =
        .ok (none, reason)

theorem soundCut {c : CutCall} {r : Release} (hascii : ∀ t ∈ tags, IsAscii t)
    (hr : r = nextRelease tags c.product c.pinned) : SoundCut pk tags c r := by
  have hproduct : r.product = c.product := by rw [hr]; rfl
  have hupstream : r.upstream = c.pinned := by rw [hr]; rfl
  have hversion : IsVersion r.upstream := hupstream ▸ c.pinned.2
  have hparse := parse_gitTag hversion.isUpstream
  have hnext : IsNextBuild tags r := hr ▸ nextRelease_isNextBuild tags c.product c.pinned
  have hrecord : ∀ t ∈ c.record tags r, IsAscii t := by
    intro t ht
    rcases CutCall.mem_record.mp ht with rfl | ht
    · exact isAscii_gitTag hversion
    · exact hascii t ht
  have hbuild : ∀ {later others}, exec (cutStep pk) (c.record tags r) later = some others →
      r ∈ buildsOf others r.product r.upstream := fun h =>
    mem_buildsOf.mpr ⟨⟨_, (cutRun_keeps hrecord h).1 _ (CutCall.mem_record.mpr (Or.inl rfl)),
      hparse⟩, rfl, rfl⟩
  refine ⟨hproduct, hupstream, fun hmem => ?_, hparse, hnext, ?_, ?_, ?_⟩
  · exact lt_irrefl _ (hnext.above r (mem_buildsOf.mpr ⟨⟨_, hmem, hparse⟩, rfl, rfl⟩))
  · obtain ⟨pl, hpl, hnew⟩ := planAt_newestBuild pk hrecord (isAscii_gitTag hversion) hparse
    exact ⟨pl, hpl, hnew.trans
      (isHighestBuild_of_next hversion hnext fun _ => CutCall.mem_record)⟩
  · intro later others h t ht q hq hqp hqu
    obtain ⟨pl, hpl, hnew⟩ :=
      planAt_newestBuild pk (cutRun_keeps hrecord h).2 (hascii t ht) hq
    refine ⟨pl, hpl, hnew.trans ?_⟩
    -- `r` stays among the tags, one revision above every build that was there before it
    have hlt := hnext.above q (mem_buildsOf.mpr ⟨⟨t, ht, hq⟩, hqp, hqu⟩)
    rw [← Bool.not_eq_true, isHighestBuild_iff]
    intro hall
    have := hall r (by rw [hqp, hqu]; exact hbuild h)
    omega
  · intro later others h changed hfalse
    obtain ⟨top, hmem, hmax, reason, hd⟩ := decide_of_released pk hversion
      (List.ne_nil_of_mem (hbuild h)) changed
    obtain ⟨-, hp, hu⟩ := mem_buildsOf.mp hmem
    have htop : isHighestBuild others top = true := by
      rw [isHighestBuild_iff, hp, hu]
      exact hmax
    rw [hfalse top hmem htop] at hd
    exact ⟨reason, hd⟩

/-- Cutting and planning agree over every run of calls. -/
theorem cutRun_sound (pk : Packaging) (start tags : List String) (calls : List CutCall)
    (hascii : ∀ t ∈ start, IsAscii t) (hrun : exec (cutStep pk) start calls = some tags)
    (c : CutCall) :
    ∃ found reason, c.choose pk tags = .ok (found, reason) ∧
      ∀ r, found = some r → SoundCut pk tags c r := by
  obtain ⟨found, reason, hc, hnext⟩ := choose_ok pk tags c
  exact ⟨found, reason, hc, fun r hr => soundCut (cutRun_keeps hascii hrun).2 (hnext r hr)⟩

private def examplePin : {u : String // IsVersion u} :=
  ⟨"10.4.57", ['1', '0'], ['4'], ['5', '7'], by decide, by decide, by decide, by decide⟩

theorem cutRun_sound_example :
    ∃ found reason, CutCall.choose numericPackaging
        ["network/10.4.57-1", "network/10.4.57-2", "v10.4.57-1"]
        ⟨.network, examplePin, some (some fun _ => true), 0⟩ = .ok (found, reason) ∧
      ∀ r, found = some r → SoundCut numericPackaging
        ["network/10.4.57-1", "network/10.4.57-2", "v10.4.57-1"]
        ⟨.network, examplePin, some (some fun _ => true), 0⟩ r :=
  cutRun_sound numericPackaging ["v10.4.57-1"] _
    [⟨.network, examplePin, some none, 0⟩, ⟨.network, examplePin, none, 1⟩] (by decide) (by decide) _

end

end UnifiContainers
