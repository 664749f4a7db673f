import UnifiContainers.Lib.Git
import UnifiContainers.Lib.Run
import UnifiContainers.Updaters.Refusals

/-!
# The updater lanes

A lane resets the shared workspace to its base branch, runs its updater on the files, and pushes a
branch with one commit of them. Any stage of a call may raise and leave any workspace behind.
-/

namespace UnifiContainers.Updaters.Lanes

open Git Pins

/-- The bytes of files: a text that was decoded is encoded to the same bytes. -/
structure Codec (Blob : Type) where
  decode : Blob → Option Text
  encode : Text → Blob
  encode_decode : ∀ blob text, decode blob = some text → encode text = blob

structure Lane where
  bump : Bump (Option Text)
  lanePrefix : String
  pins : String
  readme : String
  base : String

def Lane.files (lane : Lane) : List String := [lane.pins, lane.readme]

/-- The stages at which a call may raise. -/
inductive Stage where
  | setup
  | fetch
  | reset
  | setHead
  | bump
  | client
  | branch
  | checkout
  | add
  | commit
  | push
  | pull
  deriving DecidableEq, Repr

/-- One call: its lane, where the remote's base branch is, what the updaters are answered, and the
workspace that a stage leaves if it raises. -/
structure Call (Blob : Type) where
  lane : String
  tip : Commit Blob
  network : Network.Answers
  uos : Uos.Answers
  fault : Stage → Option (Workspace Blob)

/-- The shared workspace, and the commits that were pushed with the calls that pushed them. -/
structure Repo (Blob : Type) where
  workspace : Workspace Blob
  pushed : List (Call Blob × Commit Blob)

section

variable {Blob : Type} (pk : Packaging) (env : DotEnv) (codec : Codec Blob)

def lanes (call : Call Blob) : List (String × Lane) := [
  ("stable", ⟨Network.bump pk call.network true, "network", "network/Dockerfile", "README.md",
    "main"⟩),
  ("uos", ⟨Uos.bump pk env call.uos true, "unifi-os", "unifi-os/pins.env", "README.md", "main"⟩)]

/-- The bump to make. -/
structure BumpPlan where
  lane : String
  version : Text
  lanePrefix : String
  files : List String
  base : String
  branch : String
  deriving DecidableEq, Repr

def planBump (name : String) (lane : Lane) (version : Option Text) : Option BumpPlan :=
  version.map fun version => ⟨name, version, lane.lanePrefix, lane.files, lane.base,
    "bump/" ++ lane.lanePrefix ++ "-" ++ String.ofList version⟩

/-! ### The files of a lane -/

def Lane.read (lane : Lane) (tree : Snapshot Blob) : Files :=
  ⟨(tree lane.pins).bind codec.decode, (tree lane.readme).bind codec.decode⟩

/-- The tree with the texts that an updater left. -/
def Lane.write (lane : Lane) (left : Files) (tree : Snapshot Blob) : Snapshot Blob := fun path =>
  if path = lane.pins then (left.pin.map codec.encode).or (tree path)
  else if path = lane.readme then (left.readme.map codec.encode).or (tree path)
  else tree path

/-- An updater that leaves the texts as it read them leaves the tree as it is. -/
theorem write_read (lane : Lane) (tree : Snapshot Blob) :
    lane.write codec (lane.read codec tree) tree = tree := by
  have hsame (path : String) :
      (((tree path).bind codec.decode).map codec.encode).or (tree path) = tree path := by
    cases hblob : tree path with
    | none => rfl
    | some blob =>
      rw [Option.bind_some]
      cases htext : codec.decode blob with
      | none => rfl
      | some text =>
        rw [Option.map_some, codec.encode_decode blob text htext]
        rfl
  funext path
  unfold Lane.write Lane.read
  split
  · rename_i hpins
    subst hpins
    exact hsame lane.pins
  · split
    · rename_i hreadme
      subst hreadme
      exact hsame lane.readme
    · rfl

/-! ### A call -/

abbrev Job (Blob : Type) := EStateM Unit (Repo Blob)

def attempt (call : Call Blob) (stage : Stage) (op : Workspace Blob → Option (Workspace Blob)) :
    Job Blob Unit := fun repo =>
  match call.fault stage with
  | some left => .error () { repo with workspace := left }
  | none =>
      match op repo.workspace with
      | none => .error () repo
      | some w => .ok () { repo with workspace := w }

/-- `revparse_single("refs/remotes/lane/<branch>")` -/
def fetched (branch : String) : Job Blob (Commit Blob) := fun repo =>
  match repo.workspace.tracking branch with
  | none => .error () repo
  | some commit => .ok commit repo

def resetToRemoteBranch (call : Call Blob) (branch : String) : Job Blob Unit := do
  attempt call .fetch fun w => some (w.fetch branch call.tip)
  let commit ← fetched branch
  attempt call .reset fun w => some (w.resetHard commit)
  attempt call .setHead fun w => some (w.setHead commit)

/-- The updater runs on the files of the workspace, and what it wrote stays if it raises. -/
def runBump (call : Call Blob) (lane : Lane) : Job Blob (Option Text) := fun repo =>
  match call.fault .bump with
  | some left => .error () { repo with workspace := left }
  | none =>
      let written (left : Files) : Repo Blob :=
        { repo with
          workspace :=
            { repo.workspace with files := lane.write codec left repo.workspace.files } }
      match lane.bump (lane.read codec repo.workspace.files) with
      | .ok version left => .ok version (written left)
      | .error _ left => .error () (written left)

def checkoutNewBranch [DecidableEq Blob] (call : Call Blob) (name : String) : Job Blob Unit := do
  attempt call .branch fun w => w.createBranch name
  attempt call .checkout fun w => w.checkout name

def commit (call : Call Blob) (paths : List String) (message : String) : Job Blob Unit := do
  attempt call .add fun w => w.addAll paths
  attempt call .commit fun w => w.commitIndex message

/-- A push that raises may still have landed. -/
def push (call : Call Blob) (name : String) : Job Blob Unit := fun repo =>
  match repo.workspace.branches name with
  | none => .error () repo
  | some pushed =>
      let landed := { repo with pushed := repo.pushed ++ [(call, pushed)] }
      match call.fault .push with
      | some left => .error () { landed with workspace := left }
      | none => .ok () landed

def runLane [DecidableEq Blob] (call : Call Blob) : Job Blob Unit := do
  attempt call .setup some
  match (lanes pk env call).lookup call.lane with
  | none => throw ()
  | some lane =>
      resetToRemoteBranch call lane.base
      match planBump call.lane lane (← runBump codec call lane) with
      | none => return ()
      | some bump =>
          attempt call .client some
          checkoutNewBranch call bump.branch
          commit call bump.files (bump.lanePrefix ++ ": bump to " ++ String.ofList bump.version)
          push call bump.branch
          attempt call .pull some

/-- The state that a call leaves, whether it raises or not. -/
def callStep [DecidableEq Blob] (repo : Repo Blob) (call : Call Blob) : Option (Repo Blob) :=
  match runLane pk env codec call repo with
  | .ok _ after => some after
  | .error _ after => some after

/-- The commit is on top of the base that the call fetched and differs from it only in the lane's
files, which are as the lane's updater leaves the base's versions of them. -/
def OwnBump (call : Call Blob) (pushed : Commit Blob) : Prop :=
  ∃ lane version left, (lanes pk env call).lookup call.lane = some lane ∧
    pushed.parents = [call.tip] ∧
    lane.bump (lane.read codec call.tip.tree) = .ok (some version) left ∧
    (∀ path ∉ lane.files, pushed.tree path = call.tip.tree path) ∧
    ∀ path ∈ lane.files, pushed.tree path = lane.write codec left call.tip.tree path

/-- No file of the lane that the base lacks is an untracked one in the workspace. -/
def Covered (repo : Repo Blob) (call : Call Blob) : Prop :=
  ∀ lane, (lanes pk env call).lookup call.lane = some lane → ∀ path ∈ lane.files,
    (call.tip.tree path).isSome = true ∨ repo.workspace.isTracked path = true ∨
      repo.workspace.files path = none

end

/-! ### What a stage leaves -/

section

variable {Blob α β : Type}

/-- `Q` holds of the answer and the state of a computation that returns, `E` of the state of one
that raises. -/
def Ends (E : Repo Blob → Prop) (Q : α → Repo Blob → Prop) :
    EStateM.Result Unit (Repo Blob) α → Prop
  | .ok a after => Q a after
  | .error _ after => E after

variable {E : Repo Blob → Prop} {Q : α → Repo Blob → Prop} {R : β → Repo Blob → Prop}
  {x : Job Blob α} {f : α → Job Blob β} {repo : Repo Blob}

theorem Ends.bind (h : Ends E Q (x repo)) (hf : ∀ a after, Q a after → Ends E R (f a after)) :
    Ends E R ((x >>= f) repo) := by
  show Ends E R (EStateM.bind x f repo)
  unfold EStateM.bind
  cases hx : x repo with
  | ok a after =>
    rw [hx] at h
    exact hf a after h
  | error e after =>
    rw [hx] at h
    exact h

theorem ends_attempt {Q : Unit → Repo Blob → Prop} {call : Call Blob} {stage : Stage}
    {op : Workspace Blob → Option (Workspace Blob)}
    (hfail : ∀ left, E { repo with workspace := left })
    (hok : ∀ w, op repo.workspace = some w → Q () { repo with workspace := w }) :
    Ends E Q (attempt call stage op repo) := by
  unfold attempt
  split
  · exact hfail _
  · split
    · exact hfail repo.workspace
    · rename_i w hw
      exact hok w hw

end

/-! ### What a call pushes -/

section

variable {Blob : Type} {pk : Packaging} {env : DotEnv} {codec : Codec Blob} {call : Call Blob}
  {lane : Lane} {before : List (Call Blob × Commit Blob)} {repo : Repo Blob} {w : Workspace Blob}
  {branch : String} {paths : List String}

/-- Nothing was pushed, or the lane's own bump. -/
def Grown (pk : Packaging) (env : DotEnv) (codec : Codec Blob) (call : Call Blob)
    (before : List (Call Blob × Commit Blob)) (repo : Repo Blob) : Prop :=
  repo.pushed = before ∨
    ∃ pushed, OwnBump pk env codec call pushed ∧ repo.pushed = before ++ [(call, pushed)]

/-- Nothing was pushed yet, and `P` holds of the workspace. -/
def Still (before : List (Call Blob × Commit Blob)) (P : Workspace Blob → Prop)
    (repo : Repo Blob) : Prop :=
  repo.pushed = before ∧ P repo.workspace

theorem ends_still {P : Workspace Blob → Prop} {stage : Stage}
    {op : Workspace Blob → Option (Workspace Blob)} (h : Still before P repo)
    (P' : Workspace Blob → Prop) (hop : ∀ w v, P w → op w = some v → P' v) :
    Ends (Grown pk env codec call before) (fun _ => Still before P')
      (attempt call stage op repo) := by
  apply ends_attempt
  · intro left
    exact .inl h.1
  · intro v hv
    exact ⟨h.1, hop repo.workspace v h.2 hv⟩

/-- The workspace is at the base, and the paths are as the base has them. -/
structure AtBase (base : Commit Blob) (paths : List String) (w : Workspace Blob) : Prop where
  atCommit : At base w
  files : ∀ path ∈ paths, w.files path = base.tree path

theorem resetToRemoteBranch_ends
    (h : Still before (fun w => ∀ path ∈ paths, (call.tip.tree path).isSome = true ∨
      w.isTracked path = true ∨ w.files path = none) repo) :
    Ends (Grown pk env codec call before) (fun _ => Still before (AtBase call.tip paths))
      (resetToRemoteBranch call branch repo) := by
  unfold resetToRemoteBranch
  apply Ends.bind
  · apply ends_still h fun w => w.tracking branch = some call.tip ∧ ∀ path ∈ paths,
      (call.tip.tree path).isSome = true ∨ w.isTracked path = true ∨ w.files path = none
    intro w v hcovered hfetch
    cases hfetch
    exact ⟨Function.update_self branch _ w.tracking, hcovered⟩
  intro _ afterFetch hfetched
  apply Ends.bind (Q := fun base repo => base = call.tip ∧ repo = afterFetch)
  · unfold fetched
    rw [hfetched.2.1]
    exact ⟨rfl, rfl⟩
  intro base _ hbase
  rw [hbase.1, hbase.2]
  apply Ends.bind
  · apply ends_still hfetched fun w => (∃ v : Workspace Blob, w = v.resetHard call.tip) ∧
      ∀ path ∈ paths, w.files path = call.tip.tree path
    intro w v hcovered hreset
    cases hreset
    exact ⟨⟨w, rfl⟩, fun path hpath => resetHard_files (hcovered.2 path hpath)⟩
  intro _ afterReset hreset
  apply ends_still hreset
  intro w v hw hset
  cases hset
  obtain ⟨⟨old, hold⟩, hfiles⟩ := hw
  subst hold
  exact ⟨at_reset, hfiles⟩

theorem read_congr {tree tree' : Snapshot Blob} (h : ∀ path ∈ lane.files, tree path = tree' path) :
    lane.read codec tree = lane.read codec tree' := by
  have hpins : tree lane.pins = tree' lane.pins := h lane.pins (by simp [Lane.files])
  have hreadme : tree lane.readme = tree' lane.readme := h lane.readme (by simp [Lane.files])
  rw [Lane.read, Lane.read, hpins, hreadme]

theorem write_congr {tree tree' : Snapshot Blob} {path : String} (left : Files)
    (h : tree path = tree' path) :
    lane.write codec left tree path = lane.write codec left tree' path := by
  rw [Lane.write, Lane.write, h]

/-- What the updater leaves of the base's files when it answers a version. -/
def Bumped (codec : Codec Blob) (lane : Lane) (base : Commit Blob) (version : Text)
    (files : Snapshot Blob) : Prop :=
  ∃ left, lane.bump (lane.read codec base.tree) = .ok (some version) left ∧
    ∀ path ∈ lane.files, files path = lane.write codec left base.tree path

theorem runBump_ends (h : Still before (AtBase call.tip lane.files) repo) :
    Ends (Grown pk env codec call before)
      (fun version => Still before fun w => At call.tip w ∧
        ∀ name, version = some name → Bumped codec lane call.tip name w.files)
      (runBump codec call lane repo) := by
  unfold runBump
  split
  · exact .inl h.1
  · dsimp only
    rw [read_congr h.2.files]
    split
    · rename_i version left hbump
      refine ⟨h.1, h.2.atCommit.withFiles _, ?_⟩
      intro name hname
      subst hname
      exact ⟨left, hbump, fun path hpath => write_congr left (h.2.files path hpath)⟩
    · exact .inl h.1

theorem checkoutNewBranch_ends [DecidableEq Blob] {P : Snapshot Blob → Prop}
    (h : Still before (fun w => At call.tip w ∧ P w.files) repo) :
    Ends (Grown pk env codec call before)
      (fun _ => Still before fun w => At call.tip w ∧ P w.files ∧ w.head = .branch branch)
      (checkoutNewBranch call branch repo) := by
  unfold checkoutNewBranch
  apply Ends.bind
  · apply ends_still h fun w => (At call.tip w ∧ P w.files) ∧ w.branches branch = some call.tip
    intro w v hw hcreate
    have hcreated := createBranch_at hw.1 hcreate
    rw [hcreated.2.1]
    exact ⟨⟨hcreated.1, hw.2⟩, hcreated.2.2⟩
  intro _ created hcreated
  apply ends_still hcreated
  intro w v hw hcheckout
  have hchecked := checkout_at hw.1.1 hw.2 hcheckout
  rw [hchecked.2.1]
  exact ⟨hchecked.1, hw.1.2, hchecked.2.2⟩

theorem commit_ends {P : Snapshot Blob → Prop} {message : String}
    (h : Still before (fun w => At call.tip w ∧ P w.files ∧ w.head = .branch branch) repo) :
    Ends (Grown pk env codec call before)
      (fun _ => Still before fun w => ∃ files, P files ∧
        w.branches branch = some (.mk [call.tip] (overlay files paths call.tip.tree) message))
      (commit call paths message repo) := by
  unfold commit
  apply Ends.bind
  · apply ends_still h fun w => ∃ v : Workspace Blob, At call.tip v ∧ P v.files ∧
      v.head = .branch branch ∧ v.addAll paths = some w
    intro w v hw hadd
    exact ⟨w, hw.1, hw.2.1, hw.2.2, hadd⟩
  intro _ added hadded
  apply ends_still hadded
  intro w v hw hcommit
  obtain ⟨old, hat, hfiles, hhead, hadd⟩ := hw
  exact ⟨old.files, hfiles, commit_at hat hhead hadd hcommit⟩

theorem push_ends {pushed : Commit Blob} (hown : OwnBump pk env codec call pushed)
    (h : Still before (fun w => w.branches branch = some pushed) repo) :
    Ends (Grown pk env codec call before) (fun _ => Grown pk env codec call before)
      (push call branch repo) := by
  have hgrown : repo.pushed ++ [(call, pushed)] = before ++ [(call, pushed)] := by
    rw [h.1]
  unfold push
  rw [h.2]
  dsimp only
  split
  · exact .inr ⟨pushed, hown, hgrown⟩
  · exact .inr ⟨pushed, hown, hgrown⟩

/-- A commit of the lane's files over the base is the lane's own bump. -/
theorem ownBump_overlay {version : Text} {files : Snapshot Blob} {message : String}
    (hlane : (lanes pk env call).lookup call.lane = some lane)
    (h : Bumped codec lane call.tip version files) :
    OwnBump pk env codec call
      (.mk [call.tip] (overlay files lane.files call.tip.tree) message) := by
  obtain ⟨left, hbump, hfiles⟩ := h
  refine ⟨lane, version, left, hlane, rfl, hbump, ?_, ?_⟩
  · intro path hpath
    exact if_neg hpath
  · intro path hpath
    exact (if_pos hpath).trans (hfiles path hpath)

/-- A call from any covered workspace, however it ends, pushes nothing or its own bump. -/
theorem runLane_ends [DecidableEq Blob] (hcovered : Covered pk env repo call) :
    Ends (Grown pk env codec call repo.pushed) (fun _ => Grown pk env codec call repo.pushed)
      (runLane pk env codec call repo) := by
  unfold runLane
  apply Ends.bind
  · apply ends_still ⟨rfl, rfl⟩ fun w => w = repo.workspace
    intro w v hw hsame
    cases hsame
    exact hw.symm
  intro _ begun hbegun
  cases hlane : (lanes pk env call).lookup call.lane with
  | none => exact .inl hbegun.1
  | some lane =>
    have hstart : Still repo.pushed (fun w => ∀ path ∈ lane.files,
        (call.tip.tree path).isSome = true ∨ w.isTracked path = true ∨ w.files path = none)
        begun := by
      refine ⟨hbegun.1, ?_⟩
      rw [hbegun.2]
      exact hcovered lane hlane
    apply Ends.bind (resetToRemoteBranch_ends hstart)
    intro _ reset hreset
    apply Ends.bind (runBump_ends hreset)
    intro version bumped hbumped
    cases version with
    | none => exact .inl hbumped.1
    | some version =>
      have hready : Still repo.pushed (fun w => At call.tip w ∧
          Bumped codec lane call.tip version w.files) bumped :=
        ⟨hbumped.1, hbumped.2.1, hbumped.2.2 version rfl⟩
      apply Ends.bind
      · apply ends_still hready
        intro w v hw hsame
        cases hsame
        exact hw
      intro _ connected hconnected
      apply Ends.bind (checkoutNewBranch_ends hconnected)
      intro _ branched hbranched
      apply Ends.bind (commit_ends hbranched)
      intro _ committed hcommitted
      obtain ⟨hpushed, files, hfiles, hbranch⟩ := hcommitted
      apply Ends.bind (push_ends (ownBump_overlay hlane hfiles) ⟨hpushed, hbranch⟩)
      intro _ pushed hgrown
      apply ends_attempt
      · intro left
        exact hgrown
      · intro v hsame
        exact hgrown

/-- Every commit that a run of lanes pushes, from any workspace and through any failures, is its own
lane's bump on the base that the call fetched. -/
theorem lanes_push_own_bumps [DecidableEq Blob] (pk : Packaging) (env : DotEnv)
    (codec : Codec Blob) (start : Workspace Blob) (calls : List (Call Blob)) (after : Repo Blob)
    (hcovered : StepRun.Guarded (callStep pk env codec) (Covered pk env) ⟨start, []⟩ calls)
    (hrun : StepRun.exec (callStep pk env codec) ⟨start, []⟩ calls = some after) :
    ∀ push ∈ after.pushed, OwnBump pk env codec push.1 push.2 := by
  apply StepRun.guarded_invariant (callStep pk env codec) _ _ hcovered hrun
  · intro repo call next hown hcover hstep push hpush
    have hends : Ends (Grown pk env codec call repo.pushed)
        (fun _ => Grown pk env codec call repo.pushed) (runLane pk env codec call repo) :=
      runLane_ends hcover
    have hgrown : Grown pk env codec call repo.pushed next := by
      unfold callStep at hstep
      cases hresult : runLane pk env codec call repo with
      | ok _ left =>
        rw [hresult] at hstep hends
        cases hstep
        exact hends
      | error _ left =>
        rw [hresult] at hstep hends
        cases hstep
        exact hends
    rcases hgrown with hsame | ⟨pushed, hbump, hmore⟩
    · rw [hsame] at hpush
      exact hown push hpush
    · rw [hmore] at hpush
      rcases List.mem_append.mp hpush with hold | hnew
      · exact hown push hold
      · cases List.mem_singleton.mp hnew
        exact hbump
  · intro push hpush
    cases hpush

end

/-! ### Bases that have the files, and one that does not -/

section

variable {Blob : Type} {pk : Packaging} {env : DotEnv} {codec : Codec Blob}

theorem exists_exec [DecidableEq Blob] (pk : Packaging) (env : DotEnv) (codec : Codec Blob)
    (repo : Repo Blob) (calls : List (Call Blob)) :
    ∃ after, StepRun.exec (callStep pk env codec) repo calls = some after := by
  induction calls generalizing repo with
  | nil => exact ⟨repo, rfl⟩
  | cons call calls ih =>
    rw [StepRun.exec_cons]
    have hstep : ∃ next, callStep pk env codec repo call = some next := by
      unfold callStep
      cases runLane pk env codec call repo with
      | ok _ next => exact ⟨next, rfl⟩
      | error _ next => exact ⟨next, rfl⟩
    obtain ⟨next, hnext⟩ := hstep
    rw [hnext, Option.bind_some]
    exact ih next

/-- Where every base has the files of its lane, every workspace is covered. -/
theorem guarded_of_bases [DecidableEq Blob] {calls : List (Call Blob)} (repo : Repo Blob)
    (h : ∀ call ∈ calls, ∀ lane, (lanes pk env call).lookup call.lane = some lane →
      ∀ path ∈ lane.files, (call.tip.tree path).isSome = true) :
    StepRun.Guarded (callStep pk env codec) (Covered pk env) repo calls := by
  induction calls generalizing repo with
  | nil => trivial
  | cons call calls ih =>
    refine ⟨fun lane hlane path hpath => .inl (h call List.mem_cons_self lane hlane path hpath), ?_⟩
    intro next _
    exact ih next fun other hother => h other (List.mem_cons_of_mem call hother)

/-- A base without the Dockerfile has no bump of the Network lane. -/
theorem not_ownBump_of_missing {call : Call Blob} {pushed : Commit Blob}
    (hlane : call.lane = "stable") (hmissing : call.tip.tree "network/Dockerfile" = none) :
    ¬ OwnBump pk env codec call pushed := by
  intro hown
  obtain ⟨lane, version, left, hlookup, -, hbump, -⟩ := hown
  rw [hlane] at hlookup
  cases hlookup
  dsimp only [Lane.read] at hbump
  rw [hmissing, Network.bump_eq] at hbump
  cases hbump

end

def plainCodec : Codec Text where
  decode := some
  encode := id
  encode_decode blob text h := by
    cases h
    rfl

def treeOf (files : List (String × Text)) : Snapshot Text := fun path => files.lookup path

def emptyWorkspace : Workspace Text where
  branches _ := none
  tracking _ := none
  head := .branch "main"
  index _ := none
  files _ := none

def networkRow : Text := Network.row "10.4.57".toList Network.fallbackLink

def uosRow : Text := Uos.row "5.1.42".toList Uos.releasesUrl

def laneCall (lane : String) (tip : List (String × Text))
    (fault : Stage → Option (Workspace Text)) : Call Text where
  lane := lane
  tip := .mk [] (treeOf tip) "base"
  network := networkAnswering 10 5 67 "8e"
  uos := Uos.answering "v5.1.43" "10.6.109-36013-1"
  fault := fault

/-- An untracked Dockerfile stays under a base that has none, and is bumped in its place. -/
theorem lanes_push_leftover : ¬ ∀ (pk : Packaging) (env : DotEnv) (codec : Codec Text)
    (start : Workspace Text) (calls : List (Call Text)) (after : Repo Text),
    StepRun.exec (callStep pk env codec) ⟨start, []⟩ calls = some after →
      ∀ push ∈ after.pushed, OwnBump pk env codec push.1 push.2 := by
  intro hown
  let start : Workspace Text :=
    { emptyWorkspace with files := treeOf [("network/Dockerfile", dockerfile "10.4.57" "f6")] }
  let call := laneCall "stable" [("README.md", networkRow)] fun _ => none
  obtain ⟨after, hrun⟩ :=
    exists_exec numericVersions.toPackaging lineEnv plainCodec ⟨start, []⟩ [call]
  have hpushed : (StepRun.exec (callStep numericVersions.toPackaging lineEnv plainCodec) ⟨start, []⟩
      [call]).map (fun repo => repo.pushed.map fun push =>
        (push.1.lane, push.1.tip.tree "network/Dockerfile")) = some [("stable", none)] := by
    decide +kernel
  rw [hrun, Option.map_some, Option.some.injEq] at hpushed
  have hmem : ("stable", none) ∈ after.pushed.map fun push =>
      (push.1.lane, push.1.tip.tree "network/Dockerfile") := by
    rw [hpushed]
    exact List.mem_singleton_self _
  obtain ⟨push, hpush, heq⟩ := List.mem_map.mp hmem
  obtain ⟨hlane, hmissing⟩ := Prod.mk.inj heq
  exact not_ownBump_of_missing hlane hmissing (hown _ _ _ _ _ _ hrun push hpush)

/-- A call that raises between two commits and leaves everything dirty, then one of the other
lane. -/
theorem lanes_push_own_bumps_example :
    let base := [("network/Dockerfile", dockerfile "10.4.57" "f6"),
      ("unifi-os/pins.env", Uos.pinning "5.1.42" "10.6.101-35991-1"),
      ("README.md", networkRow ++ '\n' :: uosRow)]
    let dirty : Workspace Text :=
      { emptyWorkspace with
        head := .branch "bump/network-10.5.67"
        index := treeOf [("README.md", []), ("notes.txt", [])]
        files := treeOf [("network/Dockerfile", []), ("README.md", []), ("notes.txt", [])] }
    let calls := [
      laneCall "stable" base fun stage => if stage = .commit then some dirty else none,
      laneCall "uos" base fun _ => none]
    ∃ after, StepRun.exec (callStep numericVersions.toPackaging lineEnv plainCodec) ⟨dirty, []⟩
        calls = some after ∧ after.pushed.map (fun push => push.1.lane) = ["uos"] ∧
      ∀ push ∈ after.pushed,
        OwnBump numericVersions.toPackaging lineEnv plainCodec push.1 push.2 := by
  intro base dirty calls
  obtain ⟨after, hrun⟩ :=
    exists_exec numericVersions.toPackaging lineEnv plainCodec ⟨dirty, []⟩ calls
  have hpushed : (StepRun.exec (callStep numericVersions.toPackaging lineEnv plainCodec) ⟨dirty, []⟩
      calls).map (fun repo => repo.pushed.map fun push => push.1.lane) = some ["uos"] := by
    decide +kernel
  rw [hrun, Option.map_some, Option.some.injEq] at hpushed
  refine ⟨after, hrun, hpushed, lanes_push_own_bumps numericVersions.toPackaging lineEnv plainCodec
    dirty calls after (guarded_of_bases _ ?_) hrun⟩
  intro call hcall lane hlane path hpath
  rcases List.mem_cons.mp hcall with heq | hcall
  · subst heq
    cases hlane
    revert path
    decide +kernel
  · cases List.mem_singleton.mp hcall
    cases hlane
    revert path
    decide +kernel

end UnifiContainers.Updaters.Lanes
