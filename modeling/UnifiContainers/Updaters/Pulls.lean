import UnifiContainers.Lib.Traced
import UnifiContainers.Updaters.Lanes
import Mathlib.Algebra.Order.Field.Rat

/-!
# The pull request of a lane

After its push a lane opens a pull request, or looks for the one an earlier run left behind, and
schedules it to be merged. Who may open pull requests decides what the look-up can find: the forge
lists those of forks beside the lane's own.
-/

namespace UnifiContainers.Updaters.Lanes

/-! ### The forge -/

/-- The branch a pull request comes from; a fork that was deleted has no repository. -/
structure Head where
  ref : Option String
  repo : Option String
  deriving DecidableEq, Repr

structure Pull where
  number : ℕ
  head : Option Head
  base : String
  /-- In hours. -/
  createdAt : Option ℚ
  deriving DecidableEq, Repr

/-- The open pull requests of a repository, which their numbers tell apart. -/
structure OpenPulls where
  list : List Pull
  numbered : (list.map Pull.number).Nodup

inductive Creation where
  | accepted (number : Option ℕ)
  | refused
  deriving DecidableEq, Repr

inductive Merging where
  | accepted
  | refused (status : Option ℕ)
  deriving DecidableEq, Repr

/-- How the forge answers the requests of one call. A listing is refused or has the first entries
only, as many as fit on a page. -/
structure Answers where
  created : Creation
  listed : Bool
  relisted : Bool
  page : ℕ
  merged : Merging
  now : ℚ
  deriving DecidableEq, Repr

inductive Request where
  | createPull (base head title body : String)
  | listPulls
  | mergeWhenGreen (number : ℕ)
  deriving DecidableEq, Repr

/-! ### The client -/

section

variable (pulls : OpenPulls) (answers : Answers)

def raise {α : Type} : Traced Request α := ⟨[], none⟩

/-- Open a PR, returning its number; `none` when the forge refused. -/
def createPull (base head title body : String) : Traced Request (Option ℕ) := do
  Traced.emit (.createPull base head title body)
  match answers.created with
  | .accepted number => return number
  | .refused => return none

/-- The pull request comes from a branch of this name, of any repository. -/
def Pull.comesFrom (head : String) (pull : Pull) : Bool :=
  match pull.head with
  | some branch => branch.ref = some head
  | none => false

/-- The open PR from `head`. -/
def openPullFrom (listed : Bool) (head : String) : Traced Request (Option Pull) := do
  Traced.emit .listPulls
  if listed then return (pulls.list.take answers.page).find? (Pull.comesFrom head)
  else return none

def findPull (head : String) : Traced Request (Option ℕ) := do
  return (← openPullFrom pulls answers answers.listed head).map Pull.number

def pullOpenedAt (head : String) : Traced Request (Option ℚ) := do
  return (← openPullFrom pulls answers answers.relisted head).bind Pull.createdAt

def alreadyScheduled : ℕ := 409

/-- Queue an auto-merge once checks pass. -/
def mergeWhenGreen (number : ℕ) : Traced Request Unit := do
  Traced.emit (.mergeWhenGreen number)
  match answers.merged with
  | .accepted => return ()
  | .refused status => if status = some alreadyScheduled then return () else raise

/-! ### The end of a lane's call -/

/-- Open the bump PR, or find the one an earlier run left behind. -/
def openPull (bump : BumpPlan) : Traced Request ℕ := do
  let created ← createPull answers bump.base bump.branch
    (bump.lanePrefix ++ ": bump to " ++ String.ofList bump.version)
    ("Automated update (" ++ bump.lane ++ " lane).")
  match created with
  | some number => return number
  | none =>
      match ← findPull pulls answers bump.branch with
      | some number => return number
      | none => raise

def staleAfterHours : ℚ := 24

/-- Fail the lane when this bump has been waiting too long to land. -/
def checkNotStalled (bump : BumpPlan) : Traced Request Unit := do
  match ← pullOpenedAt pulls answers bump.branch with
  | none => return ()
  | some openedAt => if answers.now - openedAt < staleAfterHours then return () else raise

def landBump (bump : BumpPlan) : Traced Request Unit := do
  let number ← openPull pulls answers bump
  mergeWhenGreen answers number
  checkNotStalled pulls answers bump

end

/-- The pull requests that a call schedules to be merged. -/
def scheduled (requests : List Request) : List ℕ :=
  requests.filterMap fun
    | .mergeWhenGreen number => some number
    | _ => none

/-- The lane's own pull request: the bump's branch of this repository, into the bump's base. -/
def Pull.Own (repo : String) (bump : BumpPlan) (pull : Pull) : Prop :=
  pull.head = some ⟨some bump.branch, some repo⟩ ∧ pull.base = bump.base

def Pull.IsFork (repo : String) (pull : Pull) : Prop :=
  ∀ branch ∈ pull.head, branch.repo ≠ some repo

/-- The second list is the first with pull requests from forks among it. -/
inductive AddsForks (repo : String) : List Pull → List Pull → Prop where
  | nil : AddsForks repo [] []
  | keep (pull : Pull) {pulls more : List Pull} :
      AddsForks repo pulls more → AddsForks repo (pull :: pulls) (pull :: more)
  | fork (pull : Pull) {pulls more : List Pull} :
      pull.IsFork repo → AddsForks repo pulls more → AddsForks repo pulls (pull :: more)

section

variable {pulls more : OpenPulls} {answers : Answers} {bump : BumpPlan} {repo : String}

/-- The number that the create call returned. -/
def Creation.number : Creation → Option ℕ
  | .accepted number => number
  | .refused => none

/-- The pull requests on the page that a listing shows. -/
def Answers.shown (answers : Answers) (pulls : OpenPulls) : List Pull :=
  if answers.listed then pulls.list.take answers.page else []

@[simp]
theorem scheduled_append (requests more : List Request) :
    scheduled (requests ++ more) = scheduled requests ++ scheduled more := List.filterMap_append

theorem openPullFrom_eq (listed : Bool) (head : String) :
    openPullFrom pulls answers listed head = ⟨[.listPulls], some ((if listed then
      pulls.list.take answers.page else []).find? (Pull.comesFrom head))⟩ := by
  cases listed <;> rfl

theorem scheduled_checkNotStalled : scheduled (checkNotStalled pulls answers bump).trace = [] := by
  have hlisted : ∃ openedAt, pullOpenedAt pulls answers bump.branch =
      ⟨[.listPulls], some openedAt⟩ := by
    rw [pullOpenedAt, openPullFrom_eq]
    exact ⟨_, rfl⟩
  obtain ⟨openedAt, hlisted⟩ := hlisted
  rw [checkNotStalled, hlisted]
  cases openedAt with
  | none => rfl
  | some openedAt =>
    rw [Traced.bind_some]
    simp only
    split <;> rfl

theorem scheduled_mergeWhenGreen (number : ℕ) (rest : Traced Request Unit)
    (hrest : scheduled rest.trace = []) :
    scheduled (mergeWhenGreen answers number >>= fun _ => rest).trace = [number] := by
  have hmerge : mergeWhenGreen answers number = ⟨[.mergeWhenGreen number], some ()⟩ ∨
      mergeWhenGreen answers number = ⟨[.mergeWhenGreen number], none⟩ := by
    rw [mergeWhenGreen]
    split
    · exact .inl rfl
    · split
      · exact .inl rfl
      · exact .inr rfl
  rcases hmerge with hmerge | hmerge
  · rw [hmerge, Traced.bind_some, scheduled_append, hrest]
    rfl
  · rw [hmerge]
    rfl

/-- The number that is scheduled: of the pull request just created, else of the first one shown
that comes from a branch of the bump's name. -/
def chosen (pulls : OpenPulls) (answers : Answers) (bump : BumpPlan) : Option ℕ :=
  answers.created.number.or
    (((answers.shown pulls).find? (Pull.comesFrom bump.branch)).map Pull.number)

theorem openPull_chosen :
    (openPull pulls answers bump).result = chosen pulls answers bump ∧
      scheduled (openPull pulls answers bump).trace = [] := by
  have hfound : findPull pulls answers bump.branch =
      ⟨[.listPulls], some (((answers.shown pulls).find?
        (Pull.comesFrom bump.branch)).map Pull.number)⟩ := by
    rw [findPull, openPullFrom_eq]
    rfl
  have hopen : openPull pulls answers bump = ⟨[.createPull bump.base bump.branch
        (bump.lanePrefix ++ ": bump to " ++ String.ofList bump.version)
        ("Automated update (" ++ bump.lane ++ " lane).")], some answers.created.number⟩ >>=
      fun created => match created with
        | some number => (pure number : Traced Request ℕ)
        | none => findPull pulls answers bump.branch >>= fun found => match found with
          | some number => pure number
          | none => raise := by
    rw [openPull, createPull]
    cases answers.created <;> rfl
  rw [hopen, Traced.bind_some, chosen]
  cases answers.created.number with
  | some number => exact ⟨rfl, rfl⟩
  | none =>
    simp only [hfound, Traced.bind_some]
    cases (answers.shown pulls).find? (Pull.comesFrom bump.branch) with
    | some pull => exact ⟨rfl, rfl⟩
    | none => exact ⟨rfl, rfl⟩

theorem scheduled_landBump :
    scheduled (landBump pulls answers bump).trace = (chosen pulls answers bump).toList := by
  obtain ⟨hresult, htrace⟩ : (openPull pulls answers bump).result = chosen pulls answers bump ∧
      scheduled (openPull pulls answers bump).trace = [] := openPull_chosen
  rw [landBump]
  revert hresult htrace
  generalize openPull pulls answers bump = opened
  obtain ⟨requests, result⟩ := opened
  intro hresult htrace
  simp only at hresult htrace
  rw [← hresult]
  cases result with
  | none => exact htrace
  | some number =>
    rw [Traced.bind_some, scheduled_append, htrace,
      scheduled_mergeWhenGreen number _ scheduled_checkNotStalled]
    rfl

/-! ### Only the lane's own pull request -/

/-- What is scheduled over the second list, which has more pull requests from forks, is the pull
request just created or the lane's own, and the same as over the first. -/
structure OwnScheduled (repo : String) (answers : Answers) (bump : BumpPlan)
    (pulls more : OpenPulls) : Prop where
  own : ∀ number ∈ scheduled (landBump more answers bump).trace,
    answers.created.number = some number ∨
      ∃ pull ∈ more.list, pull.number = number ∧ pull.Own repo bump
  unmoved :
    scheduled (landBump more answers bump).trace = scheduled (landBump pulls answers bump).trace

/-- The first pull request shown from a branch of the bump's name, if there is any, is the lane's
own, and the further ones push none off the page. -/
structure FirstOwn (repo : String) (answers : Answers) (bump : BumpPlan)
    (pulls more : OpenPulls) : Prop where
  own : ∀ before pull after, answers.shown more = before ++ pull :: after →
    (∀ earlier ∈ before, earlier.comesFrom bump.branch = false) →
      pull.comesFrom bump.branch = true → pull.Own repo bump
  shown : (∃ pull ∈ answers.shown pulls, pull.comesFrom bump.branch = true) →
    ∃ pull ∈ answers.shown more, pull.comesFrom bump.branch = true

theorem Pull.Own.not_isFork {pull : Pull} (h : pull.Own repo bump) : ¬ pull.IsFork repo := by
  intro hfork
  exact hfork _ h.1 rfl

/-- A first pull request of the longer list that is no fork's is the first one of the shorter. -/
theorem find?_of_addsForks {list others : List Pull} (h : AddsForks repo list others)
    {f : Pull → Bool} {n : ℕ} {pull : Pull} (hfind : (others.take n).find? f = some pull)
    (hpull : ¬ pull.IsFork repo) : (list.take n).find? f = some pull := by
  induction h generalizing n with
  | nil => exact hfind
  | keep first h ih =>
    cases n with
    | zero => exact hfind
    | succ n =>
      rw [List.take_succ_cons, List.find?_cons] at hfind ⊢
      cases hf : f first with
      | true =>
        rw [hf] at hfind
        exact hfind
      | false =>
        rw [hf] at hfind
        exact ih hfind
  | fork first hfork h ih =>
    cases n with
    | zero => cases hfind
    | succ n =>
      rw [List.take_succ_cons, List.find?_cons] at hfind
      cases hf : f first with
      | true =>
        rw [hf] at hfind
        cases hfind
        exact absurd hfork hpull
      | false =>
        rw [hf] at hfind
        exact (List.take_prefix_take_left (Nat.le_succ n)).find?_eq_some (ih hfind)

theorem shown_of_addsForks (h : AddsForks repo pulls.list more.list) {f : Pull → Bool}
    {pull : Pull} (hfind : (answers.shown more).find? f = some pull)
    (hpull : ¬ pull.IsFork repo) : (answers.shown pulls).find? f = some pull := by
  rw [Answers.shown] at hfind ⊢
  split at hfind
  · rename_i hlisted
    rw [if_pos hlisted]
    exact find?_of_addsForks h hfind hpull
  · cases hfind

theorem mem_of_shown {pull : Pull} (h : pull ∈ answers.shown pulls) : pull ∈ pulls.list := by
  rw [Answers.shown] at h
  split at h
  · exact List.mem_of_mem_take h
  · cases h

/-- The condition in terms of what the look-up answers. -/
theorem firstOwn_iff : FirstOwn repo answers bump pulls more ↔
    (∀ pull ∈ (answers.shown more).find? (Pull.comesFrom bump.branch), pull.Own repo bump) ∧
      ((answers.shown more).find? (Pull.comesFrom bump.branch) = none →
        (answers.shown pulls).find? (Pull.comesFrom bump.branch) = none) := by
  have hnone (list : List Pull) : list.find? (Pull.comesFrom bump.branch) = none ↔
      ¬ ∃ pull ∈ list, pull.comesFrom bump.branch = true := by
    rw [List.find?_eq_none]
    simp
  rw [hnone, hnone, not_imp_not]
  constructor
  · intro h
    refine ⟨fun pull hpull => ?_, h.shown⟩
    obtain ⟨hfrom, before, after, hshown, hbefore⟩ := List.find?_eq_some_iff_append.mp hpull
    exact h.own before pull after hshown (by simpa using hbefore) hfrom
  · intro h
    refine ⟨fun before pull after hshown hbefore hfrom => h.1 pull ?_, h.2⟩
    exact List.find?_eq_some_iff_append.mpr ⟨hfrom, before, after, hshown, by simpa using hbefore⟩

theorem number_inj {pull other : Pull} (hpull : pull ∈ pulls.list) (hother : other ∈ pulls.list)
    (h : pull.number = other.number) : pull = other :=
  List.inj_on_of_nodup_map pulls.numbered hpull hother h

theorem scheduled_created {number : ℕ} (h : answers.created.number = some number) :
    scheduled (landBump pulls answers bump).trace = [number] := by
  rw [scheduled_landBump, chosen, h]
  rfl

theorem scheduled_found (h : answers.created.number = none) :
    scheduled (landBump pulls answers bump).trace =
      (((answers.shown pulls).find? (Pull.comesFrom bump.branch)).map Pull.number).toList := by
  rw [scheduled_landBump, chosen, h]
  rfl

theorem OwnScheduled.firstOwn (h : OwnScheduled repo answers bump pulls more)
    (hnumber : answers.created.number = none) : FirstOwn repo answers bump pulls more := by
  obtain ⟨hown, hunmoved⟩ := h
  rw [scheduled_found hnumber] at hown
  rw [scheduled_found hnumber, scheduled_found hnumber] at hunmoved
  rw [firstOwn_iff]
  refine ⟨fun pull hpull => ?_, fun hnone => ?_⟩
  · have hmem : pull ∈ more.list := mem_of_shown (List.mem_of_find?_eq_some hpull)
    rcases hown pull.number (by rw [hpull]; exact List.mem_singleton_self _) with hbad | hfound
    · cases hnumber.symm.trans hbad
    · obtain ⟨other, hother, heq, hown⟩ := hfound
      rw [number_inj hmem hother heq.symm]
      exact hown
  · rw [hnone] at hunmoved
    cases hfind : (answers.shown pulls).find? (Pull.comesFrom bump.branch) with
    | none => rfl
    | some pull =>
      rw [hfind] at hunmoved
      cases hunmoved

theorem FirstOwn.ownScheduled (h : FirstOwn repo answers bump pulls more)
    (hforks : AddsForks repo pulls.list more.list) (hnumber : answers.created.number = none) :
    OwnScheduled repo answers bump pulls more := by
  obtain ⟨hown, hnone⟩ := firstOwn_iff.mp h
  cases hfind : (answers.shown more).find? (Pull.comesFrom bump.branch) with
  | none =>
    have hnone := hnone hfind
    refine ⟨fun number hmem => ?_, ?_⟩
    · rw [scheduled_found hnumber, hfind] at hmem
      cases hmem
    · rw [scheduled_found hnumber, scheduled_found hnumber, hfind, hnone]
  | some pull =>
    have hown := hown pull hfind
    refine ⟨fun number hmem => .inr ?_, ?_⟩
    · rw [scheduled_found hnumber, hfind] at hmem
      exact ⟨pull, mem_of_shown (List.mem_of_find?_eq_some hfind),
        (List.mem_singleton.mp hmem).symm, hown⟩
    · rw [scheduled_found hnumber, scheduled_found hnumber, hfind,
        shown_of_addsForks hforks hfind hown.not_isFork]

/-- However the forge answers, the lane schedules only its own pull request, and those of forks do
not change which, exactly if the create call returns a number or the first pull request that the
look-up is shown from a branch of the bump's name is the lane's own. -/
theorem ownScheduled_iff (repo : String) (answers : Answers) (bump : BumpPlan)
    (pulls more : OpenPulls) (h : AddsForks repo pulls.list more.list) :
    OwnScheduled repo answers bump pulls more ↔
      (∃ number, answers.created = .accepted (some number)) ∨
        FirstOwn repo answers bump pulls more := by
  have hcreated : (∃ number, answers.created = .accepted (some number)) ↔
      ∃ number, answers.created.number = some number := by
    cases answers.created with
    | accepted number => simp [Creation.number]
    | refused => simp [Creation.number]
  rw [hcreated]
  cases hnumber : answers.created.number with
  | some number =>
    refine iff_of_true ⟨fun other hother => .inl ?_, ?_⟩ (.inl ⟨number, rfl⟩)
    · rw [scheduled_created hnumber, List.mem_singleton] at hother
      rw [hother]
      exact hnumber
    · rw [scheduled_created hnumber, scheduled_created hnumber]
  | none =>
    constructor
    · intro hown
      exact .inr (hown.firstOwn hnumber)
    · intro hfirst
      rcases hfirst with hbad | hfirst
      · obtain ⟨number, hbad⟩ := hbad
        cases hbad
      · exact hfirst.ownScheduled h hnumber

end

/-! A bump whose pull request an earlier run left open, and a fork's beside it. -/

def leftBump : BumpPlan := ⟨"stable", "10.5.67".toList, "network",
  ["network/Dockerfile", "README.md"], "main", "bump/network-10.5.67"⟩

def ownPull : Pull := ⟨7, some ⟨some "bump/network-10.5.67", some "owner/images"⟩, "main", some 0⟩

def forkPull : Pull :=
  ⟨9, some ⟨some "bump/network-10.5.67", some "mallory/images"⟩, "main", some 1⟩

def refusedCreation : Answers := ⟨.refused, true, true, 30, .accepted, 2⟩

theorem isFork_forkPull : forkPull.IsFork "owner/images" := by
  intro branch hbranch
  cases hbranch
  decide

theorem ownScheduled_example : OwnScheduled "owner/images" refusedCreation leftBump
    ⟨[ownPull], by decide⟩ ⟨[ownPull, forkPull], by decide⟩ := by
  refine (ownScheduled_iff "owner/images" refusedCreation leftBump _ _
    (.keep ownPull (.fork forkPull isFork_forkPull .nil))).mpr (.inr ?_)
  refine firstOwn_iff.mpr ⟨fun pull hpull => ?_, nofun⟩
  cases hpull
  exact ⟨rfl, rfl⟩

/-- A pull request that a fork opened later, from a branch of the same name, is scheduled. -/
theorem forkPull_scheduled : ¬ ∀ repo answers bump (pulls more : OpenPulls),
    AddsForks repo pulls.list more.list → OwnScheduled repo answers bump pulls more := by
  intro hown
  have hscheduled := (hown "owner/images" refusedCreation leftBump ⟨[ownPull], by decide⟩
    ⟨[forkPull, ownPull], by decide⟩ (.fork forkPull isFork_forkPull (.keep ownPull .nil))).unmoved
  rw [scheduled_landBump, scheduled_landBump] at hscheduled
  exact absurd hscheduled (by decide)

end UnifiContainers.Updaters.Lanes
