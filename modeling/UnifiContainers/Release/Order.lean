import UnifiContainers.Release.Tag
import Mathlib.Data.List.MinMax
import Mathlib.Data.Prod.Lex

/-!
# Which release is newest, and which comes next

Build numbers are compared as integers within one upstream version; whole releases are compared
by `packaging.version.Version`. That library is a parameter here, with the one thing the code
relies on: `X.Y.Z-N` in ASCII digits is a valid version and orders by the integers X, Y, Z, N in
that order.
-/

namespace UnifiContainers

open Regex PyText

/-- Versions compared as integers: major, minor, patch, revision. -/
abbrev Rank := ℕ ×ₗ ℕ ×ₗ ℕ ×ₗ ℕ

def mkRank (major minor patch revision : ℕ) : Rank :=
  toLex (major, toLex (minor, toLex (patch, revision)))

theorem mkRank_inj {a b c d a' b' c' d' : ℕ} (h : mkRank a b c d = mkRank a' b' c' d') :
    a = a' ∧ b = b' ∧ c = c' ∧ d = d' := by
  simp only [mkRank, toLex_inj, Prod.mk.injEq] at h
  exact h

theorem mkRank_le_same {a b c d d' : ℕ} : mkRank a b c d ≤ mkRank a b c d' ↔ d ≤ d' := by
  simp [mkRank, Prod.Lex.toLex_le_toLex]

/-- The text `X.Y.Z-N` in ASCII digits. -/
structure VersionText where
  major : {s : List Char // IsNumeral s}
  minor : {s : List Char // IsNumeral s}
  patch : {s : List Char // IsNumeral s}
  revision : {s : List Char // IsNumeral s}

namespace VersionText

def upstream (v : VersionText) : List Char :=
  v.major.1 ++ '.' :: (v.minor.1 ++ '.' :: v.patch.1)

def text (v : VersionText) : String := String.ofList (v.upstream ++ '-' :: v.revision.1)

def rank (v : VersionText) : Rank :=
  mkRank (int v.major.1) (int v.minor.1) (int v.patch.1) (int v.revision.1)

end VersionText

/-- `packaging.version.Version`: `none` is a text it refuses with `InvalidVersion`. -/
structure Packaging where
  Key : Type
  [order : LinearOrder Key]
  version : String → Option Key
  valid : ∀ v : VersionText, ∃ k, version v.text = some k
  le_iff : ∀ {v w : VersionText} {k l : Key},
    version v.text = some k → version w.text = some l → (k ≤ l ↔ v.rank ≤ w.rank)

attribute [instance] Packaging.order

namespace Release

def rank (r : Release) : Rank :=
  match (r.upstream.toList.splitOn '.').map int with
  | [major, minor, patch] => mkRank major minor patch r.revision
  | _ => mkRank 0 0 0 r.revision

end Release

inductive ReleaseError where
  | notARelease (gitTag : String)
  | pinDisagrees (gitTag : String) (release : Release) (pinned : Option String)
  | invalidVersion (text : String)
  deriving DecidableEq

/-- Every release of `product` in `tags`; anything that is not a release tag does not match. -/
def releasesFor (tags : List String) (product : Product) : List Release :=
  (tags.filterMap parse).filter fun r => r.product = product

def buildsOf (tags : List String) (product : Product) (upstream : String) : List Release :=
  (releasesFor tags product).filter fun r => r.upstream = upstream

section

variable (pk : Packaging)

def versionOf (r : Release) : Except ReleaseError pk.Key :=
  match pk.version r.version with
  | some k => .ok k
  | none => .error (.invalidVersion r.version)

/-- `max(pool, key=lambda r: Version(r.version))`, the first of the greatest. -/
def maxByVersion (pool : List Release) : Except ReleaseError (Option Release) := do
  let keyed ← pool.mapM fun r => do return (← versionOf pk r, r)
  return (keyed.argmax Prod.fst).map Prod.snd

def highest (tags : List String) (product : Product) : Except ReleaseError (Option Release) :=
  maxByVersion pk (releasesFor tags product)

/-- True when `release` tops its product's releases, so it carries the global names. -/
def isHighestStable (tags : List String) (release : Release) : Except ReleaseError Bool := do
  match ← highest pk (tags ++ [release.gitTag]) release.product with
  | none => return false
  | some top => return decide ((← versionOf pk top) = (← versionOf pk release))

end

def nextRelease (tags : List String) (product : Product) (upstream : String) : Release :=
  let same := buildsOf tags product upstream
  let revision := (same.map Release.revision).max?.getD 0 + 1
  ⟨product, upstream, revision⟩

/-- True when no later build of this upstream version exists. -/
def isHighestBuild (tags : List String) (release : Release) : Bool :=
  (buildsOf tags release.product release.upstream).all fun r => r.revision ≤ release.revision

/-! ### Membership -/

@[simp]
theorem mem_releasesFor {tags : List String} {p : Product} {r : Release} :
    r ∈ releasesFor tags p ↔ (∃ t ∈ tags, parse t = some r) ∧ r.product = p := by
  simp [releasesFor]

@[simp]
theorem mem_buildsOf {tags : List String} {p : Product} {u : String} {r : Release} :
    r ∈ buildsOf tags p u ↔ (∃ t ∈ tags, parse t = some r) ∧ r.product = p ∧ r.upstream = u := by
  simp [buildsOf, and_assoc]

theorem isHighestBuild_iff {tags : List String} {r : Release} :
    isHighestBuild tags r = true ↔
      ∀ q ∈ buildsOf tags r.product r.upstream, q.revision ≤ r.revision := by
  simp [isHighestBuild]

/-! ### The next build -/

/-- The next build is one past the highest revision of its upstream version, 1 if none. -/
structure IsNextBuild (tags : List String) (r : Release) : Prop where
  above : ∀ q ∈ buildsOf tags r.product r.upstream, q.revision < r.revision
  least : (buildsOf tags r.product r.upstream = [] ∧ r.revision = 1) ∨
    ∃ q ∈ buildsOf tags r.product r.upstream, r.revision = q.revision + 1

theorem nextRelease_isNextBuild (tags : List String) (p : Product) (u : String) :
    IsNextBuild tags (nextRelease tags p u) := by
  cases hm : ((buildsOf tags p u).map Release.revision).max? with
  | none =>
      have hb : buildsOf tags p u = [] := by simpa using hm
      have hr : (nextRelease tags p u).revision = 1 := by simp [nextRelease, hm]
      exact ⟨by simp [nextRelease, hb], Or.inl ⟨hb, hr⟩⟩
  | some m =>
      have hr : (nextRelease tags p u).revision = m + 1 := by simp [nextRelease, hm]
      obtain ⟨hmem, hmax⟩ := List.max?_eq_some_iff.mp hm
      obtain ⟨q, hq, hqm⟩ := List.mem_map.mp hmem
      refine ⟨fun r hr' => ?_, Or.inr ⟨q, hq, by omega⟩⟩
      have := hmax r.revision (List.mem_map_of_mem hr')
      omega

/-! ### The order of whole releases -/

theorem rank_of_upstream {r : Release} {x y z : List Char} (hx : '.' ∉ x) (hy : '.' ∉ y)
    (hz : '.' ∉ z) (h : r.upstream.toList = x ++ '.' :: (y ++ '.' :: z)) :
    r.rank = mkRank (int x) (int y) (int z) r.revision := by
  have hs : r.upstream.toList.splitOn '.' = [x, y, z] := by
    rw [h, List.splitOn_append_cons_self_of_not_mem hx, List.splitOn_append_cons_self_of_not_mem hy,
      List.splitOn_eq_singleton hz]
  simp [Release.rank, hs]

theorem dot_not_mem {s : List Char} (h : IsNumeral s) : '.' ∉ s := fun hm => by
  have := h.2 '.' hm
  simp at this

theorem exists_versionText {r : Release} (h : IsVersion r.upstream) :
    ∃ v : VersionText, v.text = r.version ∧ v.rank = r.rank := by
  obtain ⟨x, y, z, hx, hy, hz, hs⟩ := h
  refine ⟨⟨⟨x, hx⟩, ⟨y, hy⟩, ⟨z, hz⟩, ⟨str r.revision, str_isNumeral _⟩⟩, ?_, ?_⟩
  · apply String.toList_inj.mp
    simp [VersionText.text, VersionText.upstream, Release.version, hs]
  · rw [rank_of_upstream (dot_not_mem hx) (dot_not_mem hy) (dot_not_mem hz) hs]
    simp [VersionText.rank]

theorem rank_le_same {r q : Release} (h : IsVersion r.upstream) (hu : r.upstream = q.upstream) :
    r.rank ≤ q.rank ↔ r.revision ≤ q.revision := by
  obtain ⟨x, y, z, hx, hy, hz, hs⟩ := h
  rw [rank_of_upstream (dot_not_mem hx) (dot_not_mem hy) (dot_not_mem hz) hs,
    rank_of_upstream (r := q) (dot_not_mem hx) (dot_not_mem hy) (dot_not_mem hz) (hu ▸ hs),
    mkRank_le_same]

theorem rank_of_tagText {w : TagText} (hw : w.Numeric) :
    w.release.rank = mkRank (int w.major) (int w.minor) (int w.patch) (int w.revision) :=
  rank_of_upstream (dot_not_mem hw.major) (dot_not_mem hw.minor) (dot_not_mem hw.patch)
    String.toList_ofList

theorem numeral_ascii {s : List Char} (h : IsNumeral s) : ∀ c ∈ s, c.toNat < 128 := by
  intro c hc
  have := (isDigit_iff c).mp (h.2 c hc)
  omega

theorem numericVersion_text (v : VersionText) :
    (if IsAscii v.text then (parse ("network/" ++ v.text)).map Release.rank else none) =
      some v.rank := by
  let w : TagText := ⟨.network, v.major.1, v.minor.1, v.patch.1, v.revision.1, []⟩
  have hw : w.Valid := ⟨.of_numeral v.major.2, .of_numeral v.minor.2, .of_numeral v.patch.2,
    .of_numeral v.revision.2, Or.inl rfl⟩
  have ha : IsAscii v.text := by
    intro c hc
    have hm : c ∈ v.major.1 ∨ c ∈ v.minor.1 ∨ c ∈ v.patch.1 ∨ c ∈ v.revision.1 ∨
        c = '.' ∨ c = '-' := by
      simp only [VersionText.text, VersionText.upstream, String.toList_ofList, List.mem_append,
        List.mem_cons] at hc
      tauto
    rcases hm with h | h | h | h | rfl | rfl
    · exact numeral_ascii v.major.2 c h
    · exact numeral_ascii v.minor.2 c h
    · exact numeral_ascii v.patch.2 c h
    · exact numeral_ascii v.revision.2 c h
    · decide
    · decide
  have hp : parse ("network/" ++ v.text) = some w.release := by
    refine parse_iff.mpr ⟨w, hw, ?_, rfl⟩
    simp [w, TagText.text, TagText.upstream, VersionText.text, VersionText.upstream, Product.name]
  rw [if_pos ha, hp, Option.map_some,
    rank_of_tagText ⟨v.major.2, v.minor.2, v.patch.2, v.revision.2⟩]
  rfl

section

variable {pk : Packaging}

theorem exists_versionOf (pk : Packaging) {r : Release} (h : IsVersion r.upstream) :
    ∃ k, versionOf pk r = .ok k := by
  obtain ⟨v, hv, -⟩ := exists_versionText h
  obtain ⟨k, hk⟩ := pk.valid v
  exact ⟨k, by simp [versionOf, ← hv, hk]⟩

private theorem version_of_versionOf {r : Release} {k : pk.Key} (h : versionOf pk r = .ok k) :
    pk.version r.version = some k := by
  rw [versionOf] at h
  split at h
  · rename_i l hl
    cases h
    exact hl
  · cases h

theorem versionOf_le {r q : Release} {k l : pk.Key} (hr : IsVersion r.upstream)
    (hq : IsVersion q.upstream) (hk : versionOf pk r = .ok k) (hl : versionOf pk q = .ok l) :
    k ≤ l ↔ r.rank ≤ q.rank := by
  obtain ⟨v, hv, hvr⟩ := exists_versionText hr
  obtain ⟨w, hw, hwr⟩ := exists_versionText hq
  rw [← hvr, ← hwr]
  exact pk.le_iff (by rw [hv, version_of_versionOf hk]) (by rw [hw, version_of_versionOf hl])

private theorem mapM_versionOf (pk : Packaging) {pool : List Release}
    (h : ∀ r ∈ pool, IsVersion r.upstream) :
    ∃ keyed : List (pk.Key × Release),
      (pool.mapM fun r => do return (← versionOf pk r, r)) = Except.ok (ε := ReleaseError) keyed ∧
        keyed.map Prod.snd = pool ∧ ∀ e ∈ keyed, versionOf pk e.2 = .ok e.1 := by
  induction pool with
  | nil => exact ⟨[], rfl, rfl, by simp⟩
  | cons r pool ih =>
      obtain ⟨k, hk⟩ := exists_versionOf pk (h r (by simp))
      obtain ⟨keyed, hm, hs, he⟩ := ih fun q hq => h q (by simp [hq])
      refine ⟨(k, r) :: keyed, ?_, by simp [hs], ?_⟩
      · rw [List.mapM_cons, hm, hk]
        rfl
      · intro e hmem
        rcases List.mem_cons.mp hmem with rfl | hmem
        · exact hk
        · exact he e hmem

theorem maxByVersion_spec (pk : Packaging) {pool : List Release}
    (h : ∀ r ∈ pool, IsVersion r.upstream) (hne : pool ≠ []) :
    ∃ top, maxByVersion pk pool = .ok (some top) ∧ top ∈ pool ∧ ∀ q ∈ pool, q.rank ≤ top.rank := by
  obtain ⟨keyed, hm, hs, he⟩ := mapM_versionOf pk h
  cases ha : keyed.argmax Prod.fst with
  | none =>
      rw [List.argmax_eq_none] at ha
      exact absurd (by rw [← hs, ha]; rfl) hne
  | some e =>
      have hmem := List.argmax_mem ha
      have htop : e.2 ∈ pool := by rw [← hs]; exact List.mem_map_of_mem hmem
      refine ⟨e.2, ?_, htop, fun q hq => ?_⟩
      · rw [maxByVersion, hm]
        simp [ha, Except.bind, bind, pure, Except.pure]
      · obtain ⟨f, hf, rfl⟩ := List.mem_map.mp (hs ▸ hq)
        exact (versionOf_le (h _ (hs ▸ List.mem_map_of_mem hf)) (h _ htop) (he f hf) (he e hmem)).mp
          (List.le_of_mem_argmax hf ha)

/-- `isHighestStable` answers whether no release of the product exceeds this one. -/
theorem isHighestStable_eq {tags : List String} {r : Release}
    (h : ∀ q ∈ releasesFor tags r.product, IsVersion q.upstream) (hr : IsVersion r.upstream) :
    isHighestStable pk tags r =
      .ok (decide (∀ q ∈ releasesFor tags r.product, q.rank ≤ r.rank)) := by
  have hpool : ∀ q, q ∈ releasesFor (tags ++ [r.gitTag]) r.product ↔
      q ∈ releasesFor tags r.product ∨ q = r := by
    intro q
    have hp := parse_gitTag hr.isUpstream
    simp only [mem_releasesFor, List.mem_append, List.mem_singleton]
    constructor
    · rintro ⟨⟨t, ht | rfl, hq⟩, hqp⟩
      · exact Or.inl ⟨⟨t, ht, hq⟩, hqp⟩
      · exact Or.inr (Option.some.inj (hq.symm.trans hp))
    · rintro (⟨⟨t, ht, hq⟩, hqp⟩ | rfl)
      · exact ⟨⟨t, Or.inl ht, hq⟩, hqp⟩
      · exact ⟨⟨_, Or.inr rfl, hp⟩, rfl⟩
  have hvalid : ∀ q ∈ releasesFor (tags ++ [r.gitTag]) r.product, IsVersion q.upstream := by
    intro q hq
    rcases (hpool q).mp hq with hq | rfl
    · exact h q hq
    · exact hr
  have hself : r ∈ releasesFor (tags ++ [r.gitTag]) r.product := (hpool r).mpr (Or.inr rfl)
  obtain ⟨top, htop, hmem, hmax⟩ := maxByVersion_spec pk hvalid (List.ne_nil_of_mem hself)
  obtain ⟨k, hk⟩ := exists_versionOf pk (hvalid top hmem)
  obtain ⟨l, hl⟩ := exists_versionOf pk hr
  have heq : k = l ↔ ∀ q ∈ releasesFor tags r.product, q.rank ≤ r.rank := by
    have hlk : l ≤ k := (versionOf_le hr (hvalid top hmem) hl hk).mpr (hmax r hself)
    constructor
    · intro hkl q hq
      have hle := (versionOf_le (hvalid top hmem) hr hk hl).mp hkl.le
      exact (hmax q ((hpool q).mpr (Or.inl hq))).trans hle
    · intro hall
      have htr : top.rank ≤ r.rank := by
        rcases (hpool top).mp hmem with ht | rfl
        · exact hall top ht
        · exact le_rfl
      exact le_antisymm ((versionOf_le (hvalid top hmem) hr hk hl).mpr htr) hlk
  rw [isHighestStable, highest, htop]
  simp only [bind, Except.bind, hk, hl, pure, Except.pure]
  congr 1
  exact decide_eq_decide.mpr heq

end

/-- A library that reads `X.Y.Z-N` as its integers and refuses every other text. -/
def numericPackaging : Packaging where
  Key := Rank
  version s := if IsAscii s then (parse ("network/" ++ s)).map Release.rank else none
  valid v := ⟨v.rank, numericVersion_text v⟩
  le_iff {v w k l} hk hl := by
    rw [numericVersion_text] at hk hl
    cases hk
    cases hl
    rfl

/-! ### The names a release publishes -/

inductive Variant where
  | base
  | sim
  | seeded
  deriving DecidableEq, Repr

/-- The version-level names this release's variants are pushed to, one per variant. -/
def versionTags (release : Release) : List (Variant × String) :=
  [(.base, release.upstream), (.sim, release.upstream ++ "-sim"),
    (.seeded, release.upstream ++ "-seeded")]

/-- The unqualified floating names, which follow the highest release. -/
def globalTags (_release : Release) (isTop : Bool) : List String :=
  if isTop then ["latest", "sim", "seeded"] else []

def slidingTags (release : Release) (isNewestBuild isTop : Bool) : List String :=
  if isNewestBuild then (versionTags release).map Prod.snd ++ globalTags release isTop else []

end UnifiContainers
