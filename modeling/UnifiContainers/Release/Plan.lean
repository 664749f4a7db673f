import UnifiContainers.Lib.Fallible
import UnifiContainers.Release.Order

/-!
# The release plan

`plan` turns a release tag into the two decisions a release workflow follows, and `emit` prints
them as the step outputs that the later jobs read.
-/

namespace UnifiContainers

open Regex PyText

structure Plan where
  release : Release
  pinned : String
  newestBuild : Bool
  top : Bool
  deriving DecidableEq, Repr

/-- The text of a `ValueError`; `quoted` is Python's `repr` of a string. -/
def ReleaseError.message (quoted : String → String) : ReleaseError → String
  | .notARelease gitTag =>
      quoted gitTag ++ " is not a release tag. Expected <product>/<version>-<revision>, " ++
        "e.g. network/10.4.57-1 or unifi-os/5.1.21-3"
  | .pinDisagrees gitTag release pinned =>
      gitTag ++ " names upstream " ++ release.upstream ++ " but " ++ release.product.name ++
        " pins " ++ pinned.getD "None" ++ ". Tag and pin must agree or the release publishes an " ++
        "image built from a different upstream version than its tag says."
  | .invalidVersion text => "Invalid version: " ++ quoted text

/-- A plan for a release tag. `pinnedLookup` is `pins.pinned_version`. -/
def plan (pk : Packaging) (gitTag : String) (tags : List String)
    (pinnedLookup : Product → Option String) : Except ReleaseError Plan :=
  match parse gitTag with
  | none => .error (.notARelease gitTag)
  | some rel =>
      match pinnedLookup rel.product with
      | none => .error (.pinDisagrees gitTag rel none)
      | some pinned =>
          if pinned ≠ rel.upstream then .error (.pinDisagrees gitTag rel (some pinned))
          else do
            let newestBuild := isHighestBuild tags rel
            let top ← isHighestStable pk tags rel
            return ⟨rel, pinned, newestBuild, top⟩

def emit (plan : Plan) : List (String × String) :=
  let rel := plan.release
  let version := if plan.newestBuild then versionTags rel else []
  [("publish", if plan.newestBuild then "true" else "false"),
    ("image", rel.image),
    ("push_base", (version.lookup .base).getD ""),
    ("push_sim", (version.lookup .sim).getD ""),
    ("push_seeded", (version.lookup .seeded).getD ""),
    ("globals", if plan.newestBuild then " ".intercalate (globalTags rel plan.top) else ""),
    ("build", rel.version)]

/-- `steps.ver.outputs.<key>`: an output that was never written reads as the empty string. -/
def output (values : List (String × String)) (key : String) : String :=
  (values.lookup key).getD ""

def pushKey : Variant → String
  | .base => "push_base"
  | .sim => "push_sim"
  | .seeded => "push_seeded"

def versionTag (upstream : String) : Variant → String
  | .base => upstream
  | .sim => upstream ++ "-sim"
  | .seeded => upstream ++ "-seeded"

@[simp]
theorem output_publish (p : Plan) :
    output (emit p) "publish" = if p.newestBuild then "true" else "false" := rfl

@[simp]
theorem output_push (p : Plan) (v : Variant) :
    output (emit p) (pushKey v) = if p.newestBuild then versionTag p.release.upstream v else "" := by
  cases h : p.newestBuild <;> cases v <;> simp [emit, output, pushKey, versionTags, versionTag, h] <;> rfl

@[simp]
theorem output_globals (p : Plan) :
    output (emit p) "globals" = if p.newestBuild && p.top then "latest sim seeded" else "" := by
  cases h : p.newestBuild <;> cases ht : p.top <;> simp [emit, output, globalTags, h, ht] <;> rfl

section

variable {pk : Packaging}

theorem plan_ok {t : String} {tags : List String} {lookup : Product → Option String} {p : Plan}
    (h : plan pk t tags lookup = .ok p) :
    parse t = some p.release ∧ lookup p.release.product = some p.release.upstream ∧
      p.pinned = p.release.upstream ∧ p.newestBuild = isHighestBuild tags p.release ∧
      isHighestStable pk tags p.release = .ok p.top := by
  simp only [plan] at h
  split at h
  · cases h
  · rename_i rel hrel
    split at h
    · cases h
    · rename_i pinned hpin
      split at h
      · cases h
      · rename_i heq
        have hpu : pinned = rel.upstream := not_not.mp heq
        cases ht : isHighestStable pk tags rel with
        | error e =>
            rw [ht] at h
            cases h
        | ok top =>
            rw [ht] at h
            cases h
            exact ⟨hrel, hpin.trans (congrArg some hpu), hpu, rfl, ht⟩

theorem plan_eq {t : String} {tags : List String} {lookup : Product → Option String} {r : Release}
    (ht : parse t = some r) (hpin : lookup r.product = some r.upstream)
    (h : ∀ q ∈ releasesFor tags r.product, IsVersion q.upstream) (hr : IsVersion r.upstream) :
    plan pk t tags lookup = .ok ⟨r, r.upstream, isHighestBuild tags r,
      decide (∀ q ∈ releasesFor tags r.product, q.rank ≤ r.rank)⟩ := by
  simp only [plan, ht, hpin, ne_eq, not_true_eq_false, if_false, isHighestStable_eq h hr]
  rfl

end

/-! ### Which tags are planned -/

section

open Fallible

variable {pk : Packaging}

/-- The library takes the version of every release of the product that the tags name. -/
def Accepted (pk : Packaging) (tags : List String) (product : Product) : Prop :=
  ∀ q ∈ releasesFor tags product, (pk.version q.version).isSome = true

instance (pk : Packaging) (tags : List String) (product : Product) :
    Decidable (Accepted pk tags product) :=
  inferInstanceAs (Decidable (∀ q ∈ releasesFor tags product, _))

theorem versionOf_ok_iff {r : Release} :
    (∃ k, versionOf pk r = .ok k) ↔ (pk.version r.version).isSome = true := by
  rw [versionOf]
  cases pk.version r.version with
  | none => simp
  | some k => simp

theorem maxByVersion_ok_iff {pool : List Release} : (∃ top, maxByVersion pk pool = .ok top) ↔
    ∀ q ∈ pool, (pk.version q.version).isSome = true := by
  have hkeyed := mapM_ok_iff (fun r => do return (← versionOf pk r, r)) pool
  have hone (q : Release) : (∃ keyed : pk.Key × Release,
      (do return (← versionOf pk q, q) : Except ReleaseError (pk.Key × Release)) = .ok keyed) ↔
        (pk.version q.version).isSome = true := by
    rw [← versionOf_ok_iff]
    cases versionOf pk q with
    | error e => simp [bind, Except.bind]
    | ok k => simp [bind, Except.bind, pure, Except.pure]
  simp only [hone] at hkeyed
  rw [← hkeyed, maxByVersion]
  constructor
  · intro h
    obtain ⟨top, h⟩ := h
    obtain ⟨keyed, hmap, -⟩ := bind_ok h
    exact ⟨keyed, hmap⟩
  · intro h
    obtain ⟨keyed, hmap⟩ := h
    exact ⟨_, by rw [hmap]; rfl⟩

theorem maxByVersion_mem {pool : List Release} {top : Release}
    (h : maxByVersion pk pool = .ok (some top)) : top ∈ pool := by
  rw [maxByVersion] at h
  obtain ⟨keyed, hmap, h⟩ := bind_ok h
  cases hmax : keyed.argmax Prod.fst with
  | none =>
    rw [hmax] at h
    cases h
  | some best =>
    rw [hmax] at h
    cases h
    obtain ⟨q, hq, hbest⟩ := mem_of_mapM_ok hmap (List.argmax_mem hmax)
    obtain ⟨k, -, hbest⟩ := bind_ok hbest
    cases hbest
    exact hq

/-- The comparison with the other releases fails only on a version that the library refuses. -/
theorem isHighestStable_ok_iff {tags : List String} {r : Release} (hr : IsUpstream r.upstream) :
    (∃ top, isHighestStable pk tags r = .ok top) ↔
      Accepted pk (tags ++ [r.gitTag]) r.product := by
  have hself : r ∈ releasesFor (tags ++ [r.gitTag]) r.product :=
    mem_releasesFor.mpr ⟨⟨r.gitTag, by simp, parse_gitTag hr⟩, rfl⟩
  rw [Accepted, ← maxByVersion_ok_iff, isHighestStable, highest]
  constructor
  · intro h
    obtain ⟨top, h⟩ := h
    obtain ⟨best, hbest, -⟩ := bind_ok h
    exact ⟨best, hbest⟩
  · intro h
    have haccepted := maxByVersion_ok_iff.mp h
    obtain ⟨best, hbest⟩ := h
    rw [hbest]
    cases best with
    | none => exact ⟨false, rfl⟩
    | some top =>
      obtain ⟨k, hk⟩ := versionOf_ok_iff.mpr (haccepted top (maxByVersion_mem hbest))
      obtain ⟨l, hl⟩ := versionOf_ok_iff.mpr (haccepted r hself)
      exact ⟨decide (k = l), by simp [hk, hl, bind, Except.bind, pure, Except.pure]⟩

/-- A tag whose pin agrees is planned exactly if the library takes every release it is compared
with. -/
theorem plan_ok_iff {tags : List String} {lookup : Product → Option String} {r : Release}
    (hr : IsUpstream r.upstream) (hpin : lookup r.product = some r.upstream) :
    (∃ p, plan pk r.gitTag tags lookup = .ok p) ↔ Accepted pk (tags ++ [r.gitTag]) r.product := by
  rw [← isHighestStable_ok_iff hr]
  simp only [plan, parse_gitTag hr, hpin, ne_eq, not_true_eq_false, if_false]
  constructor
  · intro h
    obtain ⟨p, h⟩ := h
    obtain ⟨top, htop, -⟩ := bind_ok h
    exact ⟨top, htop⟩
  · intro h
    obtain ⟨top, htop⟩ := h
    exact ⟨⟨r, r.upstream, isHighestBuild tags r, top⟩, by rw [htop]; rfl⟩

theorem accepted_next {tags : List String} {p : Product} {u : String} (hu : IsVersion u) :
    Accepted pk (tags ++ [(nextRelease tags p u).gitTag]) p ↔ Accepted pk tags p := by
  have hparse := parse_gitTag (r := nextRelease tags p u) hu.isUpstream
  constructor
  · intro h q hq
    obtain ⟨⟨t, ht, hparsed⟩, hproduct⟩ := mem_releasesFor.mp hq
    exact h q (mem_releasesFor.mpr ⟨⟨t, List.mem_append_left _ ht, hparsed⟩, hproduct⟩)
  · intro h q hq
    obtain ⟨⟨t, ht, hparsed⟩, hproduct⟩ := mem_releasesFor.mp hq
    rcases List.mem_append.mp ht with ht | ht
    · exact h q (mem_releasesFor.mpr ⟨⟨t, ht, hparsed⟩, hproduct⟩)
    · rw [List.mem_singleton.mp ht, hparse] at hparsed
      cases hparsed
      exact versionOf_ok_iff.mp (exists_versionOf pk hu)

end

/-! ### One release owns each name -/

def NoLeadingZeros (t : String) : Prop :=
  ∀ found ∈ tagRe.matchStart t.toList,
    (∀ part ∈ ((found.groups .upstream).getD []).splitOn '.', NoLeadingZero part) ∧
      NoLeadingZero ((found.groups .revision).getD [])

instance (t : String) : Decidable (NoLeadingZeros t) :=
  inferInstanceAs (Decidable (∀ found ∈ tagRe.matchStart t.toList, _ ∧ _))

private theorem NoLeadingZeros.components {t : String} (h : NoLeadingZeros t) {w : TagText}
    (hw : w.Valid) (hn : w.Numeric) (ht : w.text = t.toList) :
    NoLeadingZero w.major ∧ NoLeadingZero w.minor ∧ NoLeadingZero w.patch := by
  have hs : w.upstream.splitOn '.' = [w.major, w.minor, w.patch] := by
    rw [TagText.upstream, List.splitOn_append_cons_self_of_not_mem (dot_not_mem hn.major),
      List.splitOn_append_cons_self_of_not_mem (dot_not_mem hn.minor),
      List.splitOn_eq_singleton (dot_not_mem hn.patch)]
  have hc := (h w.cursor (by rw [← ht]; exact matchStart_tagRe hw)).1
  simp only [TagText.cursor, Option.getD_some, hs] at hc
  exact ⟨hc _ (by simp), hc _ (by simp), hc _ (by simp)⟩

/-- The plan of `t` against `tags`, with the pin at `t`'s checkout equal to `t`'s upstream. -/
def planAt (pk : Packaging) (tags : List String) (t : String) : Except ReleaseError Plan :=
  plan pk t tags fun _ => (parse t).map Release.upstream

theorem release_eq_of_rank {t s : String} {r q : Release} (ht : parse t = some r)
    (hs : parse s = some q) (hta : IsAscii t) (hsa : IsAscii s) (ht0 : NoLeadingZeros t)
    (hs0 : NoLeadingZeros s) (hp : r.product = q.product) (hrank : r.rank = q.rank) : r = q := by
  obtain ⟨w, hw, hwt, rfl⟩ := parse_iff.mp ht
  obtain ⟨v, hv, hvs, rfl⟩ := parse_iff.mp hs
  have hwn := TagText.numeric_of_ascii hw fun c hc => hta c (hwt ▸ hc)
  have hvn := TagText.numeric_of_ascii hv fun c hc => hsa c (hvs ▸ hc)
  obtain ⟨hw1, hw2, hw3⟩ := ht0.components hw hwn hwt
  obtain ⟨hv1, hv2, hv3⟩ := hs0.components hv hvn hvs
  rw [rank_of_tagText hwn, rank_of_tagText hvn] at hrank
  obtain ⟨h1, h2, h3, h4⟩ := mkRank_inj hrank
  have hx := int_inj hwn.major hvn.major hw1 hv1 h1
  have hy := int_inj hwn.minor hvn.minor hw2 hv2 h2
  have hz := int_inj hwn.patch hvn.patch hw3 hv3 h3
  have hp' : w.product = v.product := hp
  simp [TagText.release, TagText.upstream, hx, hy, hz, h4, hp']

/-- The same releases of a product: the two lists differ at most in order, in repetitions and in
tags that are not releases of the product. -/
def SameReleaseTags (p : Product) (tags others : List String) : Prop :=
  ∀ t r, parse t = some r → r.product = p → (t ∈ tags ↔ t ∈ others)

private theorem releasesFor_congr {p : Product} {tags others : List String}
    (h : SameReleaseTags p tags others) (r : Release) :
    r ∈ releasesFor tags p ↔ r ∈ releasesFor others p := by
  simp only [mem_releasesFor]
  constructor
  · rintro ⟨⟨t, ht, hr⟩, hp⟩
    exact ⟨⟨t, (h t r hr hp).mp ht, hr⟩, hp⟩
  · rintro ⟨⟨t, ht, hr⟩, hp⟩
    exact ⟨⟨t, (h t r hr hp).mpr ht, hr⟩, hp⟩

/-- What planning each of a product's release tags against one tag list gives. -/
structure OneOwner (pk : Packaging) (tags : List String) (p : Product) : Prop where
  /-- Per upstream version, exactly the release with the greatest revision is the newest build. -/
  newest : ∀ u, buildsOf tags p u ≠ [] → ∃ owner ∈ buildsOf tags p u,
    (∀ q ∈ buildsOf tags p u, q ≠ owner → q.revision < owner.revision) ∧
      ∀ t ∈ tags, ∀ q, parse t = some q → q.product = p → q.upstream = u →
        ∃ pl, planAt pk tags t = .ok pl ∧ pl.release = q ∧ (pl.newestBuild = true ↔ q = owner)
  /-- Exactly the greatest release is the top. It is a newest build too, and it alone emits
  globals, together with its three push targets. -/
  top : ∃ owner ∈ releasesFor tags p,
    (∀ q ∈ releasesFor tags p, q ≠ owner → q.rank < owner.rank) ∧
      ∀ t ∈ tags, ∀ q, parse t = some q → q.product = p →
        ∃ pl, planAt pk tags t = .ok pl ∧ pl.release = q ∧ (pl.top = true ↔ q = owner) ∧
          (pl.top = true → pl.newestBuild = true) ∧
          (output (emit pl) "globals" ≠ "" ↔ q = owner) ∧
          (q = owner → ∀ v, output (emit pl) (pushKey v) = versionTag q.upstream v)
  /-- Nothing but the product's own release tags enters a plan. -/
  stable : ∀ others, SameReleaseTags p tags others → ∀ t ∈ tags, ∀ q, parse t = some q →
    q.product = p → planAt pk others t = planAt pk tags t

section

variable {pk : Packaging} {tags : List String} {p : Product}

private theorem planAt_eq (hascii : ∀ t ∈ tags, IsAscii t) {t : String} (ht : t ∈ tags)
    {q : Release} (hq : parse t = some q) :
    planAt pk tags t = .ok ⟨q, q.upstream, isHighestBuild tags q,
      decide (∀ r ∈ releasesFor tags q.product, r.rank ≤ q.rank)⟩ := by
  apply plan_eq hq (by simp [hq])
  · intro r hr
    obtain ⟨⟨s, hs, hsr⟩, -⟩ := mem_releasesFor.mp hr
    exact isVersion_of_parse (hascii s hs) hsr
  · exact isVersion_of_parse (hascii t ht) hq

/-! ### The greatest of a list -/

section

variable {α β : Type} [LinearOrder β] {f : α → β} {pool : List α} {owner x : α}

private theorem exists_strictMax (hne : pool ≠ [])
    (hinj : ∀ x ∈ pool, ∀ y ∈ pool, f x = f y → x = y) :
    ∃ owner ∈ pool, ∀ x ∈ pool, x ≠ owner → f x < f owner := by
  cases ha : pool.argmax f with
  | none =>
      rw [List.argmax_eq_none] at ha
      exact absurd ha hne
  | some owner =>
      have hmem := List.argmax_mem ha
      refine ⟨owner, hmem, fun x hx hne => ?_⟩
      have hle := List.le_of_mem_argmax hx ha
      exact lt_of_le_of_ne hle fun heq => hne (hinj x hx owner hmem heq)

/-- Nothing exceeds an element exactly when it is the strict maximum. -/
private theorem forall_le_iff (hmem : owner ∈ pool) (hmax : ∀ x ∈ pool, x ≠ owner → f x < f owner)
    (hx : x ∈ pool) : (∀ y ∈ pool, f y ≤ f x) ↔ x = owner := by
  constructor
  · intro hall
    by_contra hne
    exact absurd (hmax x hx hne) (not_lt.mpr (hall owner hmem))
  · intro heq y hy
    subst heq
    by_cases hyx : y = x
    · rw [hyx]
    · exact (hmax y hy hyx).le

end

private theorem exists_newest {u : String} (hne : buildsOf tags p u ≠ []) :
    ∃ owner ∈ buildsOf tags p u,
      ∀ q ∈ buildsOf tags p u, q ≠ owner → q.revision < owner.revision := by
  apply exists_strictMax hne
  intro q hq r hr hrevision
  obtain ⟨-, hqp, hqu⟩ := mem_buildsOf.mp hq
  obtain ⟨-, hrp, hru⟩ := mem_buildsOf.mp hr
  cases q
  cases r
  simp_all

private theorem exists_top (hascii : ∀ t ∈ tags, IsAscii t)
    (hzero : ∀ t ∈ tags, NoLeadingZeros t) (hne : releasesFor tags p ≠ []) :
    ∃ owner ∈ releasesFor tags p,
      ∀ q ∈ releasesFor tags p, q ≠ owner → q.rank < owner.rank := by
  apply exists_strictMax hne
  intro q hq r hr hrank
  obtain ⟨⟨t, ht, htq⟩, hqp⟩ := mem_releasesFor.mp hq
  obtain ⟨⟨s, hs, hsr⟩, hrp⟩ := mem_releasesFor.mp hr
  exact release_eq_of_rank htq hsr (hascii t ht) (hascii s hs) (hzero t ht) (hzero s hs)
    (hqp.trans hrp.symm) hrank

/-- The product's greatest release is the newest build of its upstream version. -/
private theorem newest_of_top (hascii : ∀ t ∈ tags, IsAscii t) {q : Release}
    (hall : ∀ r ∈ releasesFor tags q.product, r.rank ≤ q.rank) : isHighestBuild tags q = true := by
  rw [isHighestBuild_iff]
  intro r hr
  obtain ⟨⟨s, hs, hsr⟩, hrp, hru⟩ := mem_buildsOf.mp hr
  exact (rank_le_same (isVersion_of_parse (hascii s hs) hsr) hru).mp
    (hall r (mem_releasesFor.mpr ⟨⟨s, hs, hsr⟩, hrp⟩))

/-- Over a fixed tag list exactly one release owns each published name. -/
theorem plan_oneOwner (pk : Packaging) (tags : List String) (p : Product)
    (hascii : ∀ t ∈ tags, IsAscii t)
    (hzero : ∀ t ∈ tags, NoLeadingZeros t)
    (hne : ∃ t ∈ tags, ∃ r, parse t = some r ∧ r.product = p) : OneOwner pk tags p where
  newest u hu := by
    obtain ⟨owner, hmem, hmax⟩ := exists_newest hu
    refine ⟨owner, hmem, hmax, fun t ht q hq hp hqu => ⟨_, planAt_eq hascii ht hq, rfl, ?_⟩⟩
    subst hp hqu
    rw [isHighestBuild_iff]
    exact forall_le_iff hmem hmax (mem_buildsOf.mpr ⟨⟨t, ht, hq⟩, rfl, rfl⟩)
  top := by
    obtain ⟨t0, ht0, r0, hr0, hp0⟩ := hne
    obtain ⟨owner, hmem, hmax⟩ := exists_top hascii hzero
      (List.ne_nil_of_mem (mem_releasesFor.mpr ⟨⟨t0, ht0, hr0⟩, hp0⟩))
    refine ⟨owner, hmem, hmax, fun t ht q hq hp => ⟨_, planAt_eq hascii ht hq, rfl, ?_⟩⟩
    subst hp
    have htop : decide (∀ r ∈ releasesFor tags q.product, r.rank ≤ q.rank) = true ↔ q = owner := by
      rw [decide_eq_true_iff]
      exact forall_le_iff hmem hmax (mem_releasesFor.mpr ⟨⟨t, ht, hq⟩, rfl⟩)
    have hnew : decide (∀ r ∈ releasesFor tags q.product, r.rank ≤ q.rank) = true →
        isHighestBuild tags q = true := fun hall => newest_of_top hascii (of_decide_eq_true hall)
    refine ⟨htop, hnew, ?_, fun hqo v => ?_⟩
    · rw [output_globals, ← htop]
      constructor
      · intro hne
        by_contra hfalse
        simp [hfalse] at hne
      · intro hall
        simp [hnew hall, hall]
    · simp [hnew (htop.mpr hqo)]
  stable others h t ht q hq hp := by
    subst hp
    have hmem := releasesFor_congr h
    have hvalid : ∀ r ∈ releasesFor others q.product, IsVersion r.upstream := by
      intro r hr
      obtain ⟨⟨s, hs, hsr⟩, -⟩ := mem_releasesFor.mp ((hmem r).mpr hr)
      exact isVersion_of_parse (hascii s hs) hsr
    have hnew : isHighestBuild others q = isHighestBuild tags q := by
      rw [Bool.eq_iff_iff, isHighestBuild_iff, isHighestBuild_iff]
      simp only [buildsOf, List.mem_filter, hmem]
    have htop : (∀ r ∈ releasesFor others q.product, r.rank ≤ q.rank) ↔
        ∀ r ∈ releasesFor tags q.product, r.rank ≤ q.rank := by
      simp only [hmem]
    rw [planAt_eq hascii ht hq, planAt, plan_eq hq (by simp [hq]) hvalid
      (isVersion_of_parse (hascii t ht) hq), hnew, decide_eq_decide.mpr htop]

theorem plan_oneOwner_example : OneOwner numericPackaging
    ["network/10.4.57-9", "unifi-os/99.1.1-1", "network/10.4.57-10", "v10.4.57-1"] .network :=
  plan_oneOwner numericPackaging _ .network (by decide) (by decide)
    ⟨"network/10.4.57-9", by decide, _, rfl, rfl⟩

end

end UnifiContainers
