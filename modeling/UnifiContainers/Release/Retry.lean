import UnifiContainers.Release.Cut

/-!
# Cutting and pushing

`cut` fetches the remote's tags into the clone without pruning, decides for every product from the
clone's tags, then tags and pushes what is due, one release after the other. The push of a release
may fail after its tag was created in the clone, and the next run starts from what is left.
-/

namespace UnifiContainers

open Regex PyText StepRun

/-- The tags of a repository, each with the content of `unifi-os/pins.env` at the tagged commit. -/
abbrev Tags := List (String × Option String)

namespace Gitops

def tags (repo : Tags) : List String := repo.map Prod.fst

/-- `+refs/tags/*:refs/tags/*`, without pruning: the remote's tags win, local ones stay. -/
def fetchTags (clone remote : Tags) : Tags :=
  remote ++ clone.filter fun t => t.1 ∉ tags remote

/-- The pins file at a tag, `none` when the tag is unknown or its commit has no such file. -/
def fileAt (repo : Tags) (tag : String) : Option String := (repo.lookup tag).join

end Gitops

/-- What became of a push: taken, refused, or taken with the answer lost. -/
inductive PushOutcome where
  | accepted
  | refused
  | lost
  deriving DecidableEq, Repr

inductive CutError where
  | release (e : ReleaseError)
  | tagExists (name : String)
  | pushFailed (name : String)
  deriving DecidableEq

/-- What a run of `cut` reads from the working tree and from HEAD. -/
structure Checkout where
  pinnedVersion : Product → Option String
  pinsText : String
  headPins : Option String

structure Repos where
  clone : Tags
  remote : Tags

/-- The file whose content is the product's pins. -/
def pinFile : Product → Option String
  | .network => none
  | .unifiOs => some "unifi-os/pins.env"

namespace CutRelease

variable (pk : Packaging) (co : Checkout)

def choose (rebuild : Bool) (repo : Tags) (product : Product) :
    Except ReleaseError (Option Release × String) :=
  let pinned := co.pinnedVersion product
  if rebuild then .ok (decideRebuild product pinned (Gitops.tags repo))
  else
    match pinFile product with
    | none => CutRelease.decide pk product pinned (Gitops.tags repo) none
    | some _ => CutRelease.decide pk product pinned (Gitops.tags repo)
        (some fun tag => Gitops.fileAt repo tag ≠ some co.pinsText)

def due (rebuild : Bool) (repo : Tags) (products : List Product) :
    Except ReleaseError (List Release) := do
  let found ← products.mapM (choose pk co rebuild repo)
  return found.filterMap Prod.fst

/-- Tag and push what is due; `outcome` says what becomes of each tag's push. -/
def pushAll (outcome : String → PushOutcome) : Repos → List Release → Repos × Except CutError Unit
  | repos, [] => (repos, .ok ())
  | repos, rel :: rest =>
      if rel.gitTag ∈ Gitops.tags repos.clone then (repos, .error (.tagExists rel.gitTag))
      else
        let tagged := (rel.gitTag, co.headPins) :: repos.clone
        let taken := (rel.gitTag, co.headPins) :: repos.remote
        match outcome rel.gitTag with
        | .accepted => pushAll outcome ⟨tagged, taken⟩ rest
        | .refused => (⟨tagged, repos.remote⟩, .error (.pushFailed rel.gitTag))
        | .lost => (⟨tagged, taken⟩, .error (.pushFailed rel.gitTag))

def cut (products : List Product) (push rebuild : Bool) (outcome : String → PushOutcome)
    (repos : Repos) : Repos × Except CutError (List Release) :=
  let fetched : Repos := ⟨Gitops.fetchTags repos.clone repos.remote, repos.remote⟩
  match due pk co rebuild fetched.clone products with
  | .error e => (fetched, .error (.release e))
  | .ok found =>
      if push then
        let (after, pushed) := pushAll co outcome fetched found
        (after, pushed.map fun _ => found)
      else (fetched, .ok found)

/-- What successive runs of `cut(products, push=True, rebuild=False)` leave, one pattern of push
outcomes each. -/
def runs (products : List Product) (repos : Repos) (history : List (String → PushOutcome)) : Repos :=
  history.foldl (fun repos outcome => (cut pk co products true false outcome repos).1) repos

end CutRelease

/-! ### What a fetch leaves -/

section

variable {clone remote : Tags}

@[simp]
theorem mem_tags_fetchTags {t : String} :
    t ∈ Gitops.tags (Gitops.fetchTags clone remote) ↔
      t ∈ Gitops.tags remote ∨ t ∈ Gitops.tags clone := by
  simp only [Gitops.tags, Gitops.fetchTags, List.map_append, List.mem_append, List.mem_map,
    List.mem_filter]
  constructor
  · rintro (h | ⟨e, ⟨he, -⟩, rfl⟩)
    · exact Or.inl h
    · exact Or.inr ⟨e, he, rfl⟩
  · rintro (h | ⟨e, he, rfl⟩)
    · exact Or.inl h
    · by_cases hr : e.1 ∈ Gitops.tags remote
      · exact Or.inl (List.mem_map.mp hr)
      · exact Or.inr ⟨e, ⟨he, by simpa [Gitops.tags] using hr⟩, rfl⟩

private theorem lookup_filter {t : String} {keep : String × Option String → Bool}
    (hkeep : ∀ content, keep (t, content) = true) (repo : Tags) :
    (repo.filter keep).lookup t = repo.lookup t := by
  induction repo with
  | nil => rfl
  | cons e repo ih =>
      obtain ⟨name, content⟩ := e
      by_cases ht : t = name
      · subst ht
        simp [hkeep content]
      · have hne : (t == name) = false := by simpa using ht
        cases hk : keep (name, content)
        · simpa [List.filter_cons, hk, List.lookup_cons, hne] using ih
        · simpa [List.filter_cons, hk, List.lookup_cons, hne] using ih

theorem fileAt_fetchTags {t : String} (h : t ∉ Gitops.tags remote) :
    Gitops.fileAt (Gitops.fetchTags clone remote) t = Gitops.fileAt clone t := by
  have hremote : remote.lookup t = none := by
    rw [List.lookup_eq_none_iff]
    intro e he
    rw [bne_iff_ne]
    rintro rfl
    exact h (List.mem_map_of_mem he)
  rw [Gitops.fileAt, Gitops.fetchTags, List.lookup_append, hremote, Option.none_or,
    lookup_filter (fun _ => by simpa using h), Gitops.fileAt]

end

/-! ### What is due -/

def Released (repo : Tags) (p : Product) (u : String) : Prop :=
  buildsOf (Gitops.tags repo) p u ≠ []

/-- The product has a pins file, and it differs from the one at the newest build's tag. -/
def PinsMoved (co : Checkout) (repo : Tags) (p : Product) (u : String) : Prop :=
  pinFile p ≠ none ∧ ∃ newest ∈ buildsOf (Gitops.tags repo) p u,
    isHighestBuild (Gitops.tags repo) newest = true ∧
      Gitops.fileAt repo newest.gitTag ≠ some co.pinsText

def IsDue (co : Checkout) (repo : Tags) (p : Product) (u : String) : Prop :=
  Released repo p u → PinsMoved co repo p u

instance (repo : Tags) (p : Product) (u : String) : Decidable (Released repo p u) :=
  inferInstanceAs (Decidable (_ ≠ _))

theorem newest_unique {tags : List String} {p : Product} {u : String} {q r : Release}
    (hq : q ∈ buildsOf tags p u) (hr : r ∈ buildsOf tags p u) (hqt : isHighestBuild tags q = true)
    (hrt : isHighestBuild tags r = true) : q = r := by
  obtain ⟨-, hqp, hqu⟩ := mem_buildsOf.mp hq
  obtain ⟨-, hrp, hru⟩ := mem_buildsOf.mp hr
  rw [isHighestBuild_iff, hqp, hqu] at hqt
  rw [isHighestBuild_iff, hrp, hru] at hrt
  have hrev : q.revision = r.revision := le_antisymm (hrt q hq) (hqt r hr)
  cases q
  cases r
  simp_all

namespace CutRelease

section

variable {pk : Packaging} {co : Checkout} {repo : Tags}

private theorem pinsMoved_iff {p : Product} {u : String} {top : Release}
    (hmem : top ∈ buildsOf (Gitops.tags repo) p u)
    (hmax : ∀ q ∈ buildsOf (Gitops.tags repo) p u, q.revision ≤ top.revision) :
    PinsMoved co repo p u ↔
      pinFile p ≠ none ∧ Gitops.fileAt repo top.gitTag ≠ some co.pinsText := by
  have htop : isHighestBuild (Gitops.tags repo) top = true := by
    obtain ⟨-, hp, hu⟩ := mem_buildsOf.mp hmem
    rw [isHighestBuild_iff, hp, hu]
    exact hmax
  constructor
  · rintro ⟨hf, newest, hn, hnt, hne⟩
    exact ⟨hf, newest_unique hn hmem hnt htop ▸ hne⟩
  · rintro ⟨hf, hne⟩
    exact ⟨hf, top, hmem, htop, hne⟩

private theorem choose_released (pk : Packaging) {p : Product} {u : String}
    (hpin : co.pinnedVersion p = some u) (h : IsVersion u) (hrel : Released repo p u) :
    ∃ found reason, choose pk co false repo p = .ok (found, reason) ∧
      ∀ r, found = some r ↔ PinsMoved co repo p u ∧ r = nextRelease (Gitops.tags repo) p u := by
  cases hf : pinFile p with
  | none =>
      obtain ⟨top, hmem, hmax, reason, hd⟩ := decide_of_released pk h hrel none
      refine ⟨none, reason, by simpa [choose, hpin, hf] using hd, ?_⟩
      simp [pinsMoved_iff hmem hmax, hf]
  | some f =>
      obtain ⟨top, hmem, hmax, reason, hd⟩ := decide_of_released pk h hrel
        (some fun tag => decide (Gitops.fileAt repo tag ≠ some co.pinsText))
      refine ⟨_, reason, by simpa [choose, hpin, hf] using hd, fun r => ?_⟩
      simp [pinsMoved_iff hmem hmax, hf, eq_comm]

theorem choose_spec (pk : Packaging) (repo : Tags) {p : Product}
    (hversion : ∀ u, co.pinnedVersion p = some u → IsVersion u) :
    ∃ found reason, choose pk co false repo p = .ok (found, reason) ∧
      ∀ r, found = some r ↔ ∃ u, co.pinnedVersion p = some u ∧ IsDue co repo p u ∧
        r = nextRelease (Gitops.tags repo) p u := by
  cases hpin : co.pinnedVersion p with
  | none =>
      refine ⟨none, p.name ++ " has no pinned version to release", ?_, by simp⟩
      cases p <;> simp [choose, pinFile, hpin, CutRelease.decide] <;> rfl
  | some u =>
      have h := hversion u hpin
      by_cases hrel : Released repo p u
      · obtain ⟨found, reason, hc, hfound⟩ := choose_released pk hpin h hrel
        refine ⟨found, reason, hc, fun r => ?_⟩
        rw [hfound]
        constructor
        · rintro ⟨hm, hr⟩
          exact ⟨u, rfl, fun _ => hm, hr⟩
        · rintro ⟨v, hv, hdue, hr⟩
          cases hv
          exact ⟨hdue hrel, hr⟩
      · have hnone : buildsOf (Gitops.tags repo) p u = [] := not_not.mp hrel
        obtain ⟨reason, hd⟩ : ∃ reason, choose pk co false repo p =
            .ok (some (nextRelease (Gitops.tags repo) p u), reason) := by
          cases p <;> simpa [choose, pinFile, hpin] using decide_of_unreleased pk h hnone _
        refine ⟨_, reason, hd, fun r => ?_⟩
        constructor
        · intro hr
          exact ⟨u, rfl, fun hr' => absurd hr' hrel, (Option.some.inj hr).symm⟩
        · rintro ⟨v, hv, -, rfl⟩
          cases hv
          rfl

theorem due_spec (pk : Packaging) (repo : Tags) {products : List Product}
    (hversion : ∀ p ∈ products, ∀ u, co.pinnedVersion p = some u → IsVersion u) :
    ∃ found, due pk co false repo products = .ok found ∧
      (found.map Release.product).Sublist products ∧
      ∀ r, r ∈ found ↔ ∃ p ∈ products, ∃ u, co.pinnedVersion p = some u ∧ IsDue co repo p u ∧
        r = nextRelease (Gitops.tags repo) p u := by
  induction products with
  | nil => exact ⟨[], rfl, by simp, by simp⟩
  | cons p products ih =>
      obtain ⟨found, hfound, hsub, hmem⟩ := ih fun q hq => hversion q (by simp [hq])
      obtain ⟨one, reason, hone, hspec⟩ :=
        choose_spec pk repo (hversion p (by simp))
      have hrest : ∃ rest, products.mapM (choose pk co false repo) = .ok rest ∧
          rest.filterMap Prod.fst = found := by
        cases hm : products.mapM (choose pk co false repo) with
        | error e =>
            simp [due, hm, bind, Except.bind] at hfound
        | ok rest =>
            refine ⟨rest, rfl, ?_⟩
            simpa [due, hm, bind, Except.bind, pure, Except.pure] using hfound
      obtain ⟨rest, hrest, hrestf⟩ := hrest
      refine ⟨one.toList ++ found, ?_, ?_, fun r => ?_⟩
      · rw [due, List.mapM_cons, hone, hrest]
        cases one <;> simp [bind, Except.bind, pure, Except.pure, hrestf]
      · cases one with
        | none => exact hsub.cons p
        | some r =>
            obtain ⟨u, -, -, hr⟩ := (hspec r).mp rfl
            have hp : r.product = p := by rw [hr]; rfl
            simpa [hp] using hsub
      · rw [List.mem_append, hmem, Option.mem_toList]
        simp only [List.mem_cons, exists_eq_or_imp]
        exact or_congr_left (hspec r)

theorem pushAll_accepted (co : Checkout) (repos : Repos) {found : List Release}
    (hfresh : ∀ r ∈ found, r.gitTag ∉ Gitops.tags repos.clone)
    (hdistinct : (found.map Release.gitTag).Nodup) :
    (pushAll co (fun _ => .accepted) repos found).2 = .ok () ∧
      ∀ t, t ∈ Gitops.tags (pushAll co (fun _ => .accepted) repos found).1.remote ↔
        t ∈ Gitops.tags repos.remote ∨ t ∈ found.map Release.gitTag := by
  induction found generalizing repos with
  | nil => exact ⟨rfl, by simp [pushAll]⟩
  | cons rel rest ih =>
      rw [List.map_cons, List.nodup_cons] at hdistinct
      rw [pushAll, if_neg (hfresh rel (by simp))]
      obtain ⟨hok, hmem⟩ := ih
        ⟨(rel.gitTag, co.headPins) :: repos.clone, (rel.gitTag, co.headPins) :: repos.remote⟩
        (fun r hr => by
          simp only [Gitops.tags, List.map_cons, List.mem_cons, not_or]
          exact ⟨fun h => hdistinct.1 (h ▸ List.mem_map_of_mem hr), hfresh r (by simp [hr])⟩)
        hdistinct.2
      refine ⟨hok, fun t => ?_⟩
      rw [hmem t]
      simp only [Gitops.tags, List.map_cons, List.mem_cons]
      tauto

end

end CutRelease

section

variable {pk : Packaging} {co : Checkout} {products : List Product} {repos : Repos}

private theorem fresh_of_mem {p : Product} {u : String} {repo : Tags} (h : IsVersion u) :
    (nextRelease (Gitops.tags repo) p u).gitTag ∉ Gitops.tags repo := by
  intro hmem
  have hnext := nextRelease_isNextBuild (Gitops.tags repo) p u
  exact lt_irrefl _ (hnext.above _
    (mem_buildsOf.mpr ⟨⟨_, hmem, parse_gitTag h.isUpstream⟩, rfl, rfl⟩))

/-- A run whose pushes are all taken returns, and adds to the remote exactly what is due. -/
theorem cut_accepted (pk : Packaging) (repos : Repos) (hnodup : products.Nodup)
    (hversion : ∀ p ∈ products, ∀ u, co.pinnedVersion p = some u → IsVersion u) :
    ∃ after found, CutRelease.cut pk co products true false (fun _ => .accepted) repos =
        (after, .ok found) ∧
      ∀ t, t ∈ Gitops.tags after.remote ↔ t ∈ Gitops.tags repos.remote ∨
        ∃ p ∈ products, ∃ u, co.pinnedVersion p = some u ∧
          IsDue co (Gitops.fetchTags repos.clone repos.remote) p u ∧
          t = (nextRelease (Gitops.tags (Gitops.fetchTags repos.clone repos.remote)) p u).gitTag := by
  obtain ⟨found, hfound, hsub, hmem⟩ := CutRelease.due_spec pk
    (Gitops.fetchTags repos.clone repos.remote) hversion
  have hvalid : ∀ r ∈ found, IsUpstream r.upstream := by
    intro r hr
    obtain ⟨p, hp, u, hu, -, hrn⟩ := (hmem r).mp hr
    rw [hrn]
    exact (hversion p hp u hu).isUpstream
  have hdistinct : (found.map Release.gitTag).Nodup := by
    refine List.Nodup.map_on (fun r hr q hq hrq => ?_) (.of_map _ (hsub.nodup hnodup))
    exact gitTag_inj (hvalid r hr) (hvalid q hq) hrq
  have hfresh : ∀ r ∈ found,
      r.gitTag ∉ Gitops.tags (Gitops.fetchTags repos.clone repos.remote) := by
    intro r hr
    obtain ⟨p, hp, u, hu, -, rfl⟩ := (hmem r).mp hr
    exact fresh_of_mem (hversion p hp u hu)
  obtain ⟨hok, hpushed⟩ := CutRelease.pushAll_accepted co
    ⟨Gitops.fetchTags repos.clone repos.remote, repos.remote⟩ hfresh hdistinct
  refine ⟨_, found, ?_, fun t => (hpushed t).trans (or_congr_right ?_)⟩
  · simp only [CutRelease.cut, hfound, if_true, hok]
    rfl
  · simp only [List.mem_map, hmem]
    constructor
    · rintro ⟨r, ⟨p, hp, u, hu, hdue, rfl⟩, rfl⟩
      exact ⟨p, hp, u, hu, hdue, rfl⟩
    · rintro ⟨p, hp, u, hu, hdue, rfl⟩
      exact ⟨_, ⟨p, hp, u, hu, hdue, rfl⟩, rfl⟩

/-- The clone has a release tag of the version that the remote lacks, and nothing makes the next
build due. -/
def Stranded (co : Checkout) (repos : Repos) (p : Product) (u : String) : Prop :=
  Released repos.clone p u ∧ ¬ Released repos.remote p u ∧ ¬ PinsMoved co repos.clone p u

private theorem buildsOf_fetchTags (clone : Tags) {remote : Tags} {p : Product} {u : String}
    (hremote : ¬ Released remote p u) (q : Release) :
    q ∈ buildsOf (Gitops.tags (Gitops.fetchTags clone remote)) p u ↔
      q ∈ buildsOf (Gitops.tags clone) p u := by
  have hnone : buildsOf (Gitops.tags remote) p u = [] := not_not.mp hremote
  have hq : ∀ t ∈ Gitops.tags remote, ¬ (parse t = some q ∧ q.product = p ∧ q.upstream = u) :=
    fun t ht ⟨htq, hp, hu⟩ => by
      have := mem_buildsOf.mpr ⟨⟨t, ht, htq⟩, hp, hu⟩
      rw [hnone] at this
      simp at this
  simp only [mem_buildsOf, mem_tags_fetchTags]
  constructor
  · rintro ⟨⟨t, ht | ht, htq⟩, hp, hu⟩
    · exact absurd ⟨htq, hp, hu⟩ (hq t ht)
    · exact ⟨⟨t, ht, htq⟩, hp, hu⟩
  · rintro ⟨⟨t, ht, htq⟩, hp, hu⟩
    exact ⟨⟨t, Or.inr ht, htq⟩, hp, hu⟩

private theorem isDue_fetchTags {p : Product} {u : String} (h : IsVersion u)
    (hremote : ¬ Released repos.remote p u) :
    IsDue co (Gitops.fetchTags repos.clone repos.remote) p u ↔ ¬ Stranded co repos p u := by
  have hmem := buildsOf_fetchTags repos.clone hremote
  have hrel : Released (Gitops.fetchTags repos.clone repos.remote) p u ↔
      Released repos.clone p u := by
    simp only [Released, ne_eq, List.eq_nil_iff_forall_not_mem, hmem]
  have hmoved : PinsMoved co (Gitops.fetchTags repos.clone repos.remote) p u ↔
      PinsMoved co repos.clone p u := by
    refine and_congr_right fun _ => ⟨?_, ?_⟩
    all_goals
      rintro ⟨newest, hn, hnt, hne⟩
      obtain ⟨-, hp, hu⟩ := mem_buildsOf.mp hn
      have hfile : Gitops.fileAt (Gitops.fetchTags repos.clone repos.remote) newest.gitTag =
          Gitops.fileAt repos.clone newest.gitTag := by
        apply fileAt_fetchTags
        intro ht
        refine hremote (List.ne_nil_of_mem (mem_buildsOf.mpr ⟨⟨_, ht, ?_⟩, hp, hu⟩))
        exact parse_gitTag (hu ▸ h.isUpstream)
      have htop : isHighestBuild (Gitops.tags (Gitops.fetchTags repos.clone repos.remote)) newest =
          isHighestBuild (Gitops.tags repos.clone) newest := by
        rw [Bool.eq_iff_iff, isHighestBuild_iff, isHighestBuild_iff, hp, hu]
        simp only [hmem]
    · exact ⟨newest, (hmem _).mp hn, htop ▸ hnt, hfile ▸ hne⟩
    · exact ⟨newest, (hmem _).mpr hn, htop ▸ hnt, hfile ▸ hne⟩
  rw [IsDue, Stranded, hrel, hmoved]
  tauto

private def exampleCheckout : Checkout where
  pinnedVersion
    | .network => some "10.4.57"
    | .unifiOs => some "5.1.21"
  pinsText := "UOS_VERSION=5.1.21\n"
  headPins := some "UOS_VERSION=5.1.21\n"

private theorem exampleCheckout_version :
    ∀ p ∈ [Product.network, .unifiOs], ∀ u, exampleCheckout.pinnedVersion p = some u →
      IsVersion u := by
  rintro p - u hu
  cases p with
  | network =>
      cases hu
      exact ⟨['1', '0'], ['4'], ['5', '7'], by decide, by decide, by decide, by decide⟩
  | unifiOs =>
      cases hu
      exact ⟨['5'], ['1'], ['2', '1'], by decide, by decide, by decide, by decide⟩

end

end UnifiContainers
