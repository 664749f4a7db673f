import Mathlib.Logic.Function.Basic

/-!
# Commits, branches and a workspace

A workspace has branches, what it last fetched of the branches of a remote, a HEAD that is on a
branch or detached at a commit, an index and the files on disk. A hard reset sets the files that
are tracked, in the index or in HEAD's tree, and leaves the others; a commit takes the whole index.
-/

namespace Git

abbrev Snapshot (Blob : Type) := String → Option Blob

inductive Commit (Blob : Type) where
  | mk (parents : List (Commit Blob)) (tree : String → Option Blob) (message : String)

inductive Head (Blob : Type) where
  | branch (name : String)
  | detached (commit : Commit Blob)

structure Workspace (Blob : Type) where
  branches : String → Option (Commit Blob)
  tracking : String → Option (Commit Blob)
  head : Head Blob
  index : Snapshot Blob
  files : Snapshot Blob

section

variable {Blob : Type}

def Commit.parents : Commit Blob → List (Commit Blob)
  | mk parents _ _ => parents

def Commit.tree : Commit Blob → Snapshot Blob
  | mk _ tree _ => tree

namespace Workspace

/-- The commit that HEAD is at; a branch may have none yet. -/
def target (w : Workspace Blob) : Option (Commit Blob) :=
  match w.head with
  | .branch name => w.branches name
  | .detached commit => some commit

def headTree (w : Workspace Blob) : Snapshot Blob := fun path =>
  w.target.bind fun commit => commit.tree path

def isTracked (w : Workspace Blob) (path : String) : Bool :=
  (w.index path).isSome || (w.headTree path).isSome

/-- The remote's branch was at `tip`. -/
def fetch (name : String) (tip : Commit Blob) (w : Workspace Blob) : Workspace Blob :=
  { w with tracking := Function.update w.tracking name (some tip) }

/-- HEAD's branch, or a detached HEAD, moves to the commit. -/
def moveHead (commit : Commit Blob) (w : Workspace Blob) : Workspace Blob :=
  match w.head with
  | .branch name => { w with branches := Function.update w.branches name (some commit) }
  | .detached _ => { w with head := .detached commit }

def resetHard (commit : Commit Blob) (w : Workspace Blob) : Workspace Blob :=
  { w.moveHead commit with
    index := commit.tree
    files := fun path =>
      match commit.tree path with
      | some blob => some blob
      | none => if w.isTracked path then none else w.files path }

/-- HEAD is detached at the commit; nothing else changes. -/
def setHead (commit : Commit Blob) (w : Workspace Blob) : Workspace Blob :=
  { w with head := .detached commit }

def isOn (w : Workspace Blob) (name : String) : Bool :=
  match w.head with
  | .branch current => current == name
  | .detached _ => false

/-- The branch is created at HEAD, in place of any other of its name but HEAD's own. -/
def createBranch (name : String) (w : Workspace Blob) : Option (Workspace Blob) :=
  w.target.bind fun commit =>
    if w.isOn name then none
    else some { w with branches := Function.update w.branches name (some commit) }

/-- HEAD moves to the branch. Where its tree is HEAD's, the index and the files stay as they are. -/
def checkout [DecidableEq Blob] (name : String) (w : Workspace Blob) : Option (Workspace Blob) :=
  (w.branches name).map fun commit =>
    { w with
      head := .branch name
      index := fun path =>
        if commit.tree path = w.headTree path then w.index path else commit.tree path
      files := fun path =>
        if commit.tree path = w.headTree path ∨ w.files path ≠ w.headTree path then w.files path
        else commit.tree path }

/-- The file as it is on disk is staged. -/
def add (path : String) (w : Workspace Blob) : Option (Workspace Blob) :=
  (w.files path).map fun blob =>
    { w with index := Function.update w.index path (some blob) }

def addAll : List String → Workspace Blob → Option (Workspace Blob)
  | [], w => some w
  | path :: paths, w => (w.add path).bind (addAll paths)

/-- A commit of the index on top of HEAD, which moves to it. -/
def commitIndex (message : String) (w : Workspace Blob) : Option (Workspace Blob) :=
  w.target.map fun parent => w.moveHead (.mk [parent] w.index message)

end Workspace

/-! ### At a commit -/

/-- HEAD is at the commit, and the index is its tree. -/
structure At (commit : Commit Blob) (w : Workspace Blob) : Prop where
  target : w.target = some commit
  index : w.index = commit.tree

section

variable {commit : Commit Blob} {w v : Workspace Blob} {path name message : String}
  {paths : List String}

theorem At.headTree (h : At commit w) : w.headTree = commit.tree := by
  funext path
  rw [Workspace.headTree, h.target]
  rfl

theorem at_reset : At commit ((w.resetHard commit).setHead commit) := ⟨rfl, rfl⟩

/-- After a hard reset a path holds what the commit has, unless an untracked file stays there. -/
theorem resetHard_files
    (h : (commit.tree path).isSome = true ∨ w.isTracked path = true ∨ w.files path = none) :
    (w.resetHard commit).files path = commit.tree path := by
  show (match commit.tree path with
    | some blob => some blob
    | none => if w.isTracked path then none else w.files path) = commit.tree path
  cases htree : commit.tree path with
  | some blob => rfl
  | none =>
    rw [htree] at h
    rcases h with hsome | htracked | habsent
    · cases hsome
    · exact if_pos htracked
    · dsimp only
      rw [habsent]
      exact ite_self none

theorem At.withFiles (h : At commit w) (files : Snapshot Blob) :
    At commit { w with files := files } :=
  ⟨h.target, h.index⟩

theorem createBranch_at (h : At commit w) (hcreate : w.createBranch name = some v) :
    At commit v ∧ v.files = w.files ∧ v.branches name = some commit := by
  rw [Workspace.createBranch, h.target, Option.bind_some] at hcreate
  split at hcreate
  · cases hcreate
  · rename_i hoff
    cases hcreate
    refine ⟨⟨?_, h.index⟩, rfl, Function.update_self name (some commit) w.branches⟩
    have htarget := h.target
    unfold Workspace.target Workspace.isOn at *
    cases hhead : w.head with
    | branch current =>
      rw [hhead] at htarget hoff
      have hne : current ≠ name := by simpa using hoff
      exact (Function.update_of_ne hne _ _).trans htarget
    | detached old =>
      rw [hhead] at htarget
      exact htarget

theorem checkout_at [DecidableEq Blob] (h : At commit w) (hbranch : w.branches name = some commit)
    (hcheckout : w.checkout name = some v) :
    At commit v ∧ v.files = w.files ∧ v.head = .branch name := by
  rw [Workspace.checkout, hbranch, Option.map_some] at hcheckout
  cases hcheckout
  rw [h.headTree]
  refine ⟨⟨hbranch, ?_⟩, ?_, rfl⟩
  · funext path
    exact (if_pos rfl).trans (congrFun h.index path)
  · funext path
    exact if_pos (.inl rfl)

/-- Staging takes the named files into the index and changes nothing else. -/
theorem addAll_spec (h : w.addAll paths = some v) :
    v.branches = w.branches ∧ v.head = w.head ∧ v.files = w.files ∧
      ∀ path, v.index path = if path ∈ paths then w.files path else w.index path := by
  induction paths generalizing w with
  | nil =>
    cases h
    exact ⟨rfl, rfl, rfl, fun path => by simp⟩
  | cons first paths ih =>
    rw [Workspace.addAll, Workspace.add] at h
    cases hblob : w.files first with
    | none =>
      rw [hblob] at h
      cases h
    | some blob =>
      rw [hblob] at h
      have hrest := ih h
      refine ⟨hrest.1, hrest.2.1, hrest.2.2.1, fun path => ?_⟩
      rw [hrest.2.2.2 path]
      by_cases hlater : path ∈ paths
      · rw [if_pos hlater, if_pos (List.mem_cons_of_mem first hlater)]
      · rw [if_neg hlater]
        by_cases hfirst : path = first
        · subst hfirst
          rw [if_pos List.mem_cons_self, hblob]
          exact Function.update_self path (some blob) w.index
        · rw [if_neg fun hmem => (List.mem_cons.mp hmem).elim hfirst hlater]
          exact Function.update_of_ne hfirst _ _

/-- The commit's tree with some paths as they are on disk. -/
def overlay (files : Snapshot Blob) (paths : List String) (tree : Snapshot Blob) :
    Snapshot Blob := fun path =>
  if path ∈ paths then files path else tree path

/-- A commit of staged files moves HEAD's branch on from the commit that the workspace is at. -/
theorem commit_at (h : At commit w) (hhead : w.head = .branch name) (hadd : w.addAll paths = some v)
    {u : Workspace Blob} (hcommit : v.commitIndex message = some u) :
    u.branches name = some (.mk [commit] (overlay w.files paths commit.tree) message) := by
  have hspec := addAll_spec hadd
  have htarget : v.target = some commit := by
    have hsame : v.target = w.target := by
      rw [Workspace.target, Workspace.target, hspec.1, hspec.2.1]
    rw [hsame, h.target]
  have hindex : v.index = overlay w.files paths commit.tree := by
    funext path
    rw [hspec.2.2.2 path, h.index]
    rfl
  rw [Workspace.commitIndex, htarget, Option.map_some, hindex, Workspace.moveHead, hspec.2.1,
    hhead] at hcommit
  cases hcommit
  exact Function.update_self name _ v.branches

end

end

end Git
