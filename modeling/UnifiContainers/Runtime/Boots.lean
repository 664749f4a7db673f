import UnifiContainers.Lib.PathWalk
import UnifiContainers.Runtime.Migration
import Mathlib.Data.List.Infix

/-!
# The boots of a volume

`apply_symlinks(plan_symlinks())` over the life of a volume. Containers come and go, each with an
image of its own, and between two boots the services leave what they like on the volume, links
included. Here every path is followed through the links that stand on it, and a call may fail for a
reason that lies outside the tree.
-/

namespace UnifiContainers.Boots

open FileTree
open Migration (Owner Tree Relink Boot symlinkMap)

def isdir (fs : Tree) (p : Path) : Bool := (fs.stat p).any FileTree.isDir

def islink (fs : Tree) (p : Path) : Bool :=
  match fs.lstat p with
  | some (.link ..) => true
  | _ => false

def lexists (fs : Tree) (p : Path) : Bool := (fs.lstat p).isSome

def planSymlinks (fs : Tree) : List Relink :=
  symlinkMap.map fun (original, target) => {
    original := original
    target := target
    migrate := isdir fs original && !islink fs original }

/-! ### File operations -/

def mkdir (made : Tree) (p : Path) (fs : Tree) : Option Tree :=
  match fs.place p with
  | none => none
  | some q => if (fs.find q).isSome then none else some (setAt (some made) q fs)

/-- `os.makedirs` with `exist_ok`, from the root down. -/
def makedirs (made : Tree) (p : Path) (fs : Tree) : Option Tree :=
  p.inits.tail.foldlM (fun fs q => if isdir fs q then some fs else mkdir made q fs) fs

def remove (p : Path) (fs : Tree) : Option Tree :=
  match fs.place p with
  | none => none
  | some q =>
      match fs.find q with
      | none => none
      | some node => if node.isDir then none else some (setAt none q fs)

def symlink (text : List String) (owner : Owner) (p : Path) (fs : Tree) : Option Tree :=
  match fs.place p with
  | none => none
  | some q => if (fs.find q).isSome then none else some (setAt (some (.link text owner)) q fs)

def chmod (perm : ℕ) (p : Path) (fs : Tree) : Option Tree :=
  (fs.realpath p).map fun q => modify (FileTree.chmod perm) q fs

/-- `shutil.rmtree` with `ignore_errors`, and what it could not delete. -/
def rmtree (left : Option Tree) (p : Path) (fs : Tree) : Tree :=
  match fs.place p with
  | none => fs
  | some q => if (fs.find q).any FileTree.isDir then setAt left q fs else fs

def chownLike (source target : Path) (fs : Tree) : Tree :=
  match fs.lstat source, fs.place target with
  | some node, some q => modify (Migration.chownLike node) q fs
  | _, _ => fs

def copyEntry (copier : Owner) (source target : Path) (fs : Tree) (name : String) : Tree :=
  match fs.stat source, fs.realpath target with
  | some node, some q => modify (fun held => Migration.copyStep copier node held name) q fs
  | _, _ => fs

/-- What is left of an entry whose copy failed. -/
def leavePart (part : Option Tree) (p : Path) (fs : Tree) : Tree :=
  match fs.place p with
  | none => fs
  | some q => if (fs.find q).isSome then fs else setAt part q fs

/-- `_copy_no_clobber`. It may stop at an entry, with the entries before it copied and any part of
that one. -/
def copyNoClobber (copier : Owner) (stopped : Option (ℕ × Option Tree)) (source target : Path)
    (fs : Tree) : Tree :=
  let names := ((fs.stat source).map FileTree.listdir).getD []
  match stopped with
  | none => names.foldl (copyEntry copier source target) fs
  | some (copied, part) =>
      let fs := (names.take copied).foldl (copyEntry copier source target) fs
      match names[copied]? with
      | none => fs
      | some name => leavePart part (target ++ [name]) fs

/-! ### The migration -/

inductive Call where
  | makeTarget
  | makeParent
  | remove
  | symlink
  | chmod
  deriving DecidableEq, Repr

/-- What goes wrong in the turn of a plan for a reason outside the tree. -/
structure Faults where
  fails : Call → Bool
  stopped : Option (ℕ × Option Tree)
  left : Option Tree

def attempt (fails : Bool) (op : Tree → Option Tree) (fs : Tree) : Except Tree Tree :=
  if fails then .error fs
  else
    match op fs with
    | none => .error fs
    | some after => .ok after

def clearWay (fails : Bool) (p : Path) (fs : Tree) : Except Tree Tree :=
  if lexists fs p then attempt fails (remove p) fs else .ok fs

section

variable (b : Boot) (faults : Path → Faults)

/-- The turn of `apply_symlinks` for one plan; an exception leaves the tree it was raised in. -/
def applyPlan (fs : Tree) (plan : Relink) : Except Tree Tree := do
  let fault := faults plan.original
  let existed := isdir fs plan.target
  let fs ← attempt (fault.fails .makeTarget) (makedirs b.made plan.target) fs
  let fs := if plan.migrate && !existed then chownLike plan.original plan.target fs else fs
  let fs := if plan.migrate then
      rmtree fault.left plan.original
        (copyNoClobber b.owner fault.stopped plan.original plan.target fs)
    else fs
  let fs ← attempt (fault.fails .makeParent) (makedirs b.made plan.original.dropLast) fs
  let fs ← clearWay (fault.fails .remove) plan.original fs
  let fs ← attempt (fault.fails .symlink) (symlink ("" :: plan.target) b.owner plan.original) fs
  attempt (fault.fails .chmod) (chmod 0o755 plan.target) fs

def applySymlinks (plans : List Relink) (fs : Tree) : Except Tree Tree :=
  plans.foldlM (applyPlan b faults) fs

def boot (fs : Tree) : Except Tree Tree := applySymlinks b faults (planSymlinks fs) fs

end

def noFaults : Faults := ⟨fun _ => false, none, none⟩

def outcome : Except Tree Tree → Tree
  | .ok fs => fs
  | .error fs => fs

/-! ### Histories -/

/-- The directories that hold the originals are there. -/
def HoldsParents (fs : Tree) : Prop :=
  ∀ link ∈ symlinkMap, ∀ q, q <+: link.1 → q ≠ link.1 → fs.kindAt q = some .dir

/-- An image: anything may stand in the place of an original. -/
structure Image where
  tree : Tree
  parents : HoldsParents tree

structure Volume where
  perm : ℕ
  owner : Owner
  entries : List (String × Tree)

def Volume.tree (volume : Volume) : Tree := .dir volume.perm volume.owner volume.entries

def mounted (image : Tree) (volume : Option Tree) : Tree := image.setChild "unifi" volume

inductive Event where
  | container (image : Image)
  | services (volume : Volume)
  | boot (b : Boot) (faults : Path → Faults)

def step (fs : Tree) : Event → Tree
  | .container image => mounted image.tree (fs.child "unifi")
  | .services volume => mounted fs (some volume.tree)
  | .boot b faults => outcome (boot b faults fs)

/-- What a boot owes to the volume it finds. -/
structure BootKeeps (fs : Tree) : Prop where
  kept : ∀ b faults, Keeps (fun p => ["unifi"] <+: p) fs (outcome (boot b faults fs))
  linked : ∀ b faults after, boot b faults fs = .ok after →
    ∀ link ∈ symlinkMap, after.kindAt link.1 = some (.link ("" :: link.2))
  again : ∀ b faults after, boot b faults fs = .ok after → ∀ b' faults',
    (∀ link ∈ symlinkMap, (faults' link.1).fails .symlink = false) →
      ∀ p, (outcome (boot b' faults' after)).kindAt p = after.kindAt p

/-! ### What a call keeps -/

section

variable {counts : Path → Prop} {fs after : Tree} {p q : Path} {made : Tree}

theorem keeps_mkdir (h : mkdir made p fs = some after) : Keeps counts fs after := by
  unfold mkdir at h
  split at h
  · cases h
  · split at h
    · cases h
    · rename_i hplace habsent
      cases h
      apply keeps_setAt_of_absent
      simpa using habsent

theorem keeps_makedirs (h : makedirs made p fs = some after) : Keeps counts fs after := by
  unfold makedirs at h
  generalize p.inits.tail = parts at h
  induction parts generalizing fs with
  | nil =>
    cases h
    exact Keeps.refl counts _
  | cons part parts ih =>
    rw [List.foldlM_cons] at h
    obtain ⟨mid, hmid, hrest⟩ := Option.bind_eq_some_iff.mp h
    have hfirst : Keeps counts fs mid := by
      split at hmid
      · cases hmid
        exact Keeps.refl counts fs
      · exact keeps_mkdir hmid
    exact hfirst.trans (ih hrest)

theorem keeps_symlink {text : List String} {owner : Owner}
    (h : symlink text owner p fs = some after) : Keeps counts fs after := by
  unfold symlink at h
  split at h
  · cases h
  · split at h
    · cases h
    · rename_i hplace habsent
      cases h
      apply keeps_setAt_of_absent
      simpa using habsent

theorem kindAt_chmod {perm : ℕ} (h : chmod perm p fs = some after) (q : Path) :
    after.kindAt q = fs.kindAt q := by
  obtain ⟨real, hreal, hafter⟩ := Option.map_eq_some_iff.mp h
  subst hafter
  apply kindAt_modify
  intro node r
  cases r with
  | nil => cases node <;> rfl
  | cons name r => rw [kindAt_cons, kindAt_cons, child_chmod]

theorem keeps_chownLike (source target : Path) :
    Keeps counts fs (chownLike source target fs) := by
  unfold chownLike
  split
  · apply Keeps.of_eq
    intro q
    apply kindAt_modify
    intro node r
    cases r with
    | nil => cases node <;> rfl
    | cons name r => rw [kindAt_cons, kindAt_cons, Migration.chownLike, child_chown]
  · exact Keeps.refl counts fs

/-- A copied entry is one that the target does not have. -/
theorem keeps_copyStep (copier : Owner) (source target : Tree) (name : String) :
    Keeps counts target (Migration.copyStep copier source target name) := by
  intro q _ k hk
  unfold Migration.copyStep
  split
  · exact hk
  · rename_i habsent
    cases source.child name with
    | none => exact hk
    | some node =>
      dsimp only
      rw [kindAt_setChild_elsewhere]
      · exact hk
      · intro hpre
        obtain ⟨rest, hrest⟩ := hpre
        subst hrest
        rw [List.cons_append, kindAt_cons, Option.not_isSome_iff_eq_none.mp habsent] at hk
        cases hk

theorem keeps_copyEntry (copier : Owner) (source target : Path) (name : String) :
    Keeps counts fs (copyEntry copier source target fs name) := by
  unfold copyEntry
  split
  · apply keeps_modify
    intro held
    exact keeps_copyStep copier _ held name
  · exact Keeps.refl counts fs

theorem keeps_copyEntries (copier : Owner) (source target : Path) (names : List String) :
    Keeps counts fs (names.foldl (copyEntry copier source target) fs) := by
  induction names generalizing fs with
  | nil => exact Keeps.refl counts fs
  | cons name names ih =>
    rw [List.foldl_cons]
    exact (keeps_copyEntry copier source target name).trans ih

theorem keeps_leavePart (part : Option Tree) (p : Path) :
    Keeps counts fs (leavePart part p fs) := by
  unfold leavePart
  split
  · exact Keeps.refl counts fs
  · split
    · exact Keeps.refl counts fs
    · rename_i habsent
      apply keeps_setAt_of_absent
      simpa using habsent

theorem keeps_copyNoClobber (copier : Owner) (stopped : Option (ℕ × Option Tree))
    (source target : Path) :
    Keeps counts fs (copyNoClobber copier stopped source target fs) := by
  unfold copyNoClobber
  dsimp only
  split
  · exact keeps_copyEntries copier source target _
  · split
    · exact keeps_copyEntries copier source target _
    · exact (keeps_copyEntries copier source target _).trans (keeps_leavePart _ _)

theorem keeps_rmtree (left : Option Tree) (hplace : fs.place p = some p) :
    Keeps (fun q => ¬ p <+: q) fs (rmtree left p fs) := by
  unfold rmtree
  rw [hplace]
  dsimp only
  split
  · exact keeps_setAt fun q hq => hq
  · exact Keeps.refl _ fs

/-- What was removed was there, and is not any more. -/
theorem remove_eq (hplace : fs.place p = some p) (h : remove p fs = some after) :
    after = setAt none p fs ∧ (fs.find p).isSome := by
  unfold remove at h
  rw [hplace] at h
  dsimp only at h
  split at h
  · cases h
  · rename_i node hnode
    split at h
    · cases h
    · cases h
      exact ⟨rfl, by rw [hnode]; rfl⟩

end

/-! ### How a call can end -/

/-- `Q` holds of the tree that a call leaves, `E` of the one it fails in. -/
def Ends (E Q : Tree → Prop) : Except Tree Tree → Prop
  | .ok fs => Q fs
  | .error fs => E fs

section

variable {E Q R : Tree → Prop} {x : Except Tree Tree} {f : Tree → Except Tree Tree} {fs : Tree}

theorem Ends.bind (h : Ends E Q x) (hf : ∀ mid, Q mid → Ends E R (f mid)) : Ends E R (x >>= f) := by
  cases x with
  | ok mid => exact hf mid h
  | error mid => exact h

theorem Ends.mono {E' Q' : Tree → Prop} (h : Ends E Q x) (hE : ∀ after, E after → E' after)
    (hQ : ∀ after, Q after → Q' after) : Ends E' Q' x := by
  cases x with
  | ok after => exact hQ after h
  | error after => exact hE after h

theorem ends_attempt {fails : Bool} {op : Tree → Option Tree} (hfail : E fs)
    (hok : ∀ after, op fs = some after → Q after) : Ends E Q (attempt fails op fs) := by
  unfold attempt
  split
  · exact hfail
  · split
    · exact hfail
    · rename_i after hafter
      exact hok after hafter

theorem Ends.outcome (h : Ends E Q x) (hQ : ∀ after, Q after → E after) : E (outcome x) := by
  cases x with
  | ok after => exact hQ after h
  | error after => exact h

end

/-! ### The ways to the originals and the targets -/

def originals : List Path := symlinkMap.map Prod.fst

/-- The parents of the originals and the volume itself are directories. -/
structure Sound (fs : Tree) : Prop where
  parents : HoldsParents fs
  volume : fs.kindAt ["unifi"] = some .dir

/-- What a boot never writes to or deletes. -/
def Beside (original : Path) (p : Path) : Prop := ¬ original <+: p

def BesideAll (links : List (Path × Path)) (p : Path) : Prop := ∀ link ∈ links, Beside link.1 p

theorem symlinkMap_plain : ∀ link ∈ symlinkMap, ∀ name ∈ link.1 ++ link.2, Plain name := by
  decide

theorem symlinkMap_targets : ∀ link ∈ symlinkMap, link.2.dropLast = ["unifi"] := by
  decide

theorem symlinkMap_outside : ∀ link ∈ symlinkMap, Apart ["unifi"] link.1 := by
  decide

/-- No original lies in another one. -/
theorem symlinkMap_beside : ∀ link ∈ symlinkMap, ∀ other ∈ symlinkMap,
    link.1 <+: other.1 → link.1 = other.1 := by
  decide

section

variable {fs after : Tree} {link : Path × Path} {p q : Path}

theorem Sound.isDir (h : Sound fs) : fs.isDir = true := by
  have hroot := h.parents (["data"], ["unifi", "data"]) (by decide) [] List.nil_prefix (by decide)
  exact kind_eq_dir_iff.mp (Option.some.inj hroot)

theorem Sound.keepsAll (h : Sound fs) (hkeeps : Keeps (BesideAll symlinkMap) fs after) :
    Sound after := by
  constructor
  · intro link hlink q hq hne
    apply hkeeps q
    · intro other hother hpre
      have hsame := symlinkMap_beside other hother link hlink (hpre.trans hq)
      have hlength := hpre.length_le
      rw [hsame] at hlength
      exact hne (hq.eq_of_length_le hlength)
    · exact h.parents link hlink q hq hne
  · apply hkeeps
    · intro link hlink
      exact (symlinkMap_outside link hlink).2
    · exact h.volume

theorem Sound.keeps (h : Sound fs) (hlink : link ∈ symlinkMap)
    (hkeeps : Keeps (Beside link.1) fs after) : Sound after :=
  h.keepsAll (hkeeps.mono fun _ hp => hp link hlink)

theorem Sound.place_original (h : Sound fs) (hlink : link ∈ symlinkMap) :
    fs.place link.1 = some link.1 := by
  apply place_of_dirs h.isDir
  · intro name hname
    exact symlinkMap_plain link hlink name (List.mem_append_left _ hname)
  · intro q hq _ hne
    exact h.parents link hlink q hq hne

theorem original_ne_nil (hlink : link ∈ symlinkMap) : link.1 ≠ [] := by
  intro hnil
  apply (symlinkMap_outside link hlink).2
  rw [hnil]
  exact List.nil_prefix

theorem Sound.parentDir (h : Sound fs) (hlink : link ∈ symlinkMap) :
    ∃ d, fs.find link.1.dropLast = some d ∧ d.isDir = true := by
  have hproper : link.1.dropLast ≠ link.1 := by
    intro heq
    have hlength := congrArg List.length heq
    have hpos := List.length_pos_of_ne_nil (original_ne_nil hlink)
    rw [List.length_dropLast] at hlength
    omega
  have hparent := h.parents link hlink _ (List.dropLast_prefix link.1) hproper
  obtain ⟨d, hd, hkind⟩ := Option.map_eq_some_iff.mp hparent
  exact ⟨d, hd, kind_eq_dir_iff.mp hkind⟩

theorem Sound.kindAt_way (h : Sound fs) (hlink : link ∈ symlinkMap) (hq : q <+: link.2)
    (hne : q ≠ []) (hproper : q ≠ link.2) : fs.kindAt q = some .dir := by
  have htarget := symlinkMap_targets link hlink
  have hpre : q <+: link.2.dropLast := by
    have hlast : link.2 ≠ [] := by
      intro hnil
      rw [hnil] at htarget
      cases htarget
    rw [← List.dropLast_append_getLast hlast] at hq
    rcases List.prefix_concat_iff.mp hq with hwhole | hpre
    · rw [List.dropLast_append_getLast hlast] at hwhole
      exact absurd hwhole hproper
    · exact hpre
  rw [htarget] at hpre
  have hunifi : q = ["unifi"] := by
    rcases List.prefix_cons_iff.mp hpre with hnil | ⟨rest, hrest, hpre⟩
    · exact absurd hnil hne
    · rw [hrest, List.prefix_nil.mp hpre]
  rw [hunifi]
  exact h.volume

theorem Sound.place_target (h : Sound fs) (hlink : link ∈ symlinkMap) :
    fs.place link.2 = some link.2 := by
  apply place_of_dirs h.isDir
  · intro name hname
    exact symlinkMap_plain link hlink name (List.mem_append_right _ hname)
  · intro q hq hne hproper
    exact h.kindAt_way hlink hq hne hproper

end

/-! ### The turn of a plan -/

/-- A link to the target stands in place of the original, and the target exists. -/
structure Relinked (link : Path × Path) (fs : Tree) : Prop where
  original : fs.kindAt link.1 = some (.link ("" :: link.2))
  target : (fs.kindAt link.2).isSome = true

section

variable {fs after : Tree} {link : Path × Path} {p q : Path} {made : Tree} {b : Boot}
  {faults : Path → Faults}

theorem isdir_of_dirs (hplain : ∀ name ∈ p, Plain name)
    (hdirs : ∀ q, q <+: p → q ≠ [] → fs.kindAt q = some .dir) (hp : p ≠ []) :
    isdir fs p = true := by
  rw [isdir, stat, realpath_of_dirs hplain hdirs, Option.bind_some]
  exact kindAt_eq_dir_iff.mp (hdirs p (List.prefix_refl p) hp)

theorem makedirs_of_dirs (hplain : ∀ name ∈ p, Plain name)
    (hdirs : ∀ q, q <+: p → q ≠ [] → fs.kindAt q = some .dir) : makedirs made p fs = some fs := by
  have hparts : ∀ q ∈ p.inits.tail, isdir fs q = true := by
    intro q hq
    have hmem : q <+: p := (List.mem_inits q p).mp (List.mem_of_mem_tail hq)
    have hne : q ≠ [] := by
      cases p with
      | nil => cases hq
      | cons name p =>
        rw [List.inits_cons, List.tail_cons] at hq
        obtain ⟨r, _, hr⟩ := List.mem_map.mp hq
        rw [← hr]
        simp
    apply isdir_of_dirs
    · intro name hname
      exact hplain name (hmem.subset hname)
    · intro r hr
      exact hdirs r (hr.trans hmem)
    · exact hne
  unfold makedirs
  generalize p.inits.tail = parts at hparts
  induction parts with
  | nil => rfl
  | cons part parts ih =>
    rw [List.foldlM_cons, if_pos (hparts part List.mem_cons_self)]
    exact ih fun q hq => hparts q (List.mem_cons_of_mem part hq)

theorem Sound.makedirs_parent (h : Sound fs) (hlink : link ∈ symlinkMap) :
    makedirs made link.1.dropLast fs = some fs := by
  apply makedirs_of_dirs
  · intro name hname
    exact symlinkMap_plain link hlink name
      (List.mem_append_left _ (List.dropLast_subset link.1 hname))
  · intro q hq hne
    apply h.parents link hlink q (hq.trans (List.dropLast_prefix link.1))
    intro heq
    have hlength := hq.length_le
    have hpos := List.length_pos_of_ne_nil hne
    rw [heq, List.length_dropLast] at hlength
    rw [heq] at hpos
    omega

theorem Sound.makedirs_target (h : Sound fs) (hlink : link ∈ symlinkMap) :
    makedirs made link.2 fs = if isdir fs link.2 then some fs else mkdir made link.2 fs := by
  obtain ⟨name, hname⟩ : ∃ name, link.2 = ["unifi", name] := by
    have htarget := symlinkMap_targets link hlink
    have hne : link.2 ≠ [] := by
      intro hnil
      rw [hnil] at htarget
      cases htarget
    refine ⟨link.2.getLast hne, ?_⟩
    have hlast := List.dropLast_append_getLast hne
    rw [htarget] at hlast
    exact hlast.symm
  have hvolume : isdir fs ["unifi"] = true := by
    apply isdir_of_dirs (by decide) _ (by decide)
    intro q hq hne
    rcases List.prefix_cons_iff.mp hq with hnil | ⟨rest, hrest, hpre⟩
    · exact absurd hnil hne
    · rw [hrest, List.prefix_nil.mp hpre]
      exact h.volume
  rw [hname]
  simp [makedirs, hvolume]

/-- The target is there once `os.makedirs` is through. -/
theorem Sound.target_made (h : Sound fs) (hlink : link ∈ symlinkMap)
    (hmade : makedirs made link.2 fs = some after) : (after.kindAt link.2).isSome = true := by
  have hne : link.2 ≠ [] := by
    intro hnil
    have htarget := symlinkMap_targets link hlink
    rw [hnil] at htarget
    cases htarget
  have hplain : ∀ name ∈ link.2, Plain name := fun name hname =>
    symlinkMap_plain link hlink name (List.mem_append_right _ hname)
  rw [h.makedirs_target hlink] at hmade
  split at hmade
  · rename_i hdir
    cases hmade
    rw [kindAt, Option.isSome_map]
    by_contra habsent
    rw [isdir, stat, realpath_of_absent hplain hne (fun q hq hq' => h.kindAt_way hlink hq hq')
      (Option.not_isSome_iff_eq_none.mp habsent)] at hdir
    cases hdir
  · unfold mkdir at hmade
    rw [h.place_target hlink] at hmade
    dsimp only at hmade
    split at hmade
    · cases hmade
    · cases hmade
      have hparent : fs.kindAt link.2.dropLast = some .dir := by
        rw [symlinkMap_targets link hlink]
        exact h.volume
      obtain ⟨d, hd, hkind⟩ := Option.map_eq_some_iff.mp hparent
      rw [kindAt, find_setAt_self hne hd (kind_eq_dir_iff.mp hkind)]
      rfl

theorem volume_beside (hlink : link ∈ symlinkMap) (hq : ["unifi"] <+: q) : Beside link.1 q := by
  intro hpre
  have hapart := symlinkMap_outside link hlink
  rcases List.prefix_or_prefix_of_prefix hq hpre with hunder | hover
  · exact hapart.1 hunder
  · exact hapart.2 hover

end

/-! ### The turn of a plan -/

section

variable {fs mid after : Tree} {link : Path × Path} {b : Boot} {faults : Path → Faults}

/-- The tree in the turn of a plan, once the target is made. -/
structure InTurn (link : Path × Path) (fs mid : Tree) : Prop where
  keeps : Keeps (Beside link.1) fs mid
  target : (mid.kindAt link.2).isSome = true

theorem InTurn.next (h : InTurn link fs mid) (hlink : link ∈ symlinkMap)
    (hkeeps : Keeps (Beside link.1) mid after) : InTurn link fs after := by
  constructor
  · exact h.keeps.trans hkeeps
  · obtain ⟨k, hk⟩ := Option.isSome_iff_exists.mp h.target
    have hbeside : Beside link.1 link.2 := by
      apply volume_beside hlink
      rw [← symlinkMap_targets link hlink]
      exact List.dropLast_prefix link.2
    rw [hkeeps link.2 hbeside k hk]
    rfl

theorem clearWay_ends (hlink : link ∈ symlinkMap) (hsound : Sound mid) (h : InTurn link fs mid)
    (fails : Bool) :
    Ends (Keeps (Beside link.1) fs)
      (fun after => InTurn link fs after ∧ after.find link.1 = none)
      (clearWay fails link.1 mid) := by
  have hplace := hsound.place_original hlink
  unfold clearWay
  split
  · apply ends_attempt h.keeps
    intro after hafter
    obtain ⟨hset, hheld⟩ := remove_eq hplace hafter
    obtain ⟨node, hnode⟩ := Option.isSome_iff_exists.mp hheld
    subst hset
    constructor
    · exact h.next hlink (keeps_setAt fun q hq => hq)
    · exact find_setAt_of_find (original_ne_nil hlink) hnode
  · rename_i habsent
    constructor
    · exact h
    · rw [lexists, lstat, hplace, Option.bind_some] at habsent
      exact Option.not_isSome_iff_eq_none.mp habsent

theorem symlink_ends (hlink : link ∈ symlinkMap) (hsound : Sound mid) (h : InTurn link fs mid)
    (habsent : mid.find link.1 = none) (fails : Bool) (owner : Owner) :
    Ends (Keeps (Beside link.1) fs)
      (fun after => InTurn link fs after ∧ after.kindAt link.1 = some (.link ("" :: link.2)))
      (attempt fails (symlink ("" :: link.2) owner link.1) mid) := by
  apply ends_attempt h.keeps
  intro after hafter
  constructor
  · exact h.next hlink (keeps_symlink hafter)
  · obtain ⟨d, hd, hdir⟩ := hsound.parentDir hlink
    unfold symlink at hafter
    rw [hsound.place_original hlink] at hafter
    dsimp only at hafter
    rw [habsent] at hafter
    cases hafter
    rw [kindAt, find_setAt_self (original_ne_nil hlink) hd hdir]
    rfl

/-- One turn, however it ends, writes only in place of its original and where nothing has been. -/
theorem applyPlan_ends (h : Sound fs) (hlink : link ∈ symlinkMap) (migrate : Bool) :
    Ends (Keeps (Beside link.1) fs)
      (fun after => Keeps (Beside link.1) fs after ∧ Relinked link after)
      (applyPlan b faults fs ⟨link.1, link.2, migrate⟩) := by
  have hcontinue {mid : Tree} (hmid : InTurn link fs mid) : Sound mid := h.keeps hlink hmid.keeps
  unfold applyPlan
  dsimp only
  apply Ends.bind (Q := InTurn link fs)
  · apply ends_attempt (Keeps.refl _ fs)
    intro after hafter
    exact ⟨keeps_makedirs hafter, h.target_made hlink hafter⟩
  intro made hmade
  generalize hchowned : (if migrate && !isdir fs link.2 then chownLike link.1 link.2 made
    else made) = chowned
  have howned : InTurn link fs chowned := by
    subst hchowned
    split
    · exact hmade.next hlink (keeps_chownLike link.1 link.2)
    · exact hmade
  generalize hmoved : (if migrate then rmtree (faults link.1).left link.1
    (copyNoClobber b.owner (faults link.1).stopped link.1 link.2 chowned) else chowned) = moved
  have hgone : InTurn link fs moved := by
    subst hmoved
    split
    · have hcopied := howned.next hlink
        (keeps_copyNoClobber b.owner (faults link.1).stopped link.1 link.2)
      exact hcopied.next hlink
        (keeps_rmtree (faults link.1).left ((hcontinue hcopied).place_original hlink))
    · exact howned
  apply Ends.bind (Q := InTurn link fs)
  · apply ends_attempt hgone.keeps
    intro after hafter
    exact hgone.next hlink (keeps_makedirs hafter)
  intro ready hready
  apply Ends.bind (clearWay_ends hlink (hcontinue hready) hready _)
  intro cleared hcleared
  apply Ends.bind (symlink_ends hlink (hcontinue hcleared.1) hcleared.1 hcleared.2 _ b.owner)
  intro linked hlinked
  apply ends_attempt hlinked.1.keeps
  intro after hafter
  have hkinds := kindAt_chmod hafter
  constructor
  · exact hlinked.1.keeps.trans (Keeps.of_eq hkinds)
  · constructor
    · rw [hkinds]
      exact hlinked.2
    · rw [hkinds]
      exact hlinked.1.target

end

/-! ### A whole boot -/

section

variable {fs : Tree} {b : Boot} {faults : Path → Faults}

def relinkOf (fs : Tree) (link : Path × Path) : Relink :=
  ⟨link.1, link.2, isdir fs link.1 && !islink fs link.1⟩

theorem planSymlinks_eq (fs : Tree) : planSymlinks fs = symlinkMap.map (relinkOf fs) := rfl

theorem Relinked.keeps {link : Path × Path} {mid after : Tree} (h : Relinked link mid)
    {counts : Path → Prop} (hkeeps : Keeps counts mid after) (horiginal : counts link.1)
    (htarget : counts link.2) : Relinked link after := by
  obtain ⟨k, hk⟩ := Option.isSome_iff_exists.mp h.target
  constructor
  · exact hkeeps link.1 horiginal _ h.original
  · rw [hkeeps link.2 htarget k hk]
    rfl

theorem besideAll_volume {links : List (Path × Path)} (hlinks : ∀ link ∈ links, link ∈ symlinkMap)
    {p : Path} (hp : ["unifi"] <+: p) : BesideAll links p :=
  fun link hlink => volume_beside (hlinks link hlink) hp

/-- The turns of some plans, in any tree they find. -/
theorem applySymlinks_ends (migrate : Path × Path → Bool) (links : List (Path × Path))
    (hlinks : ∀ link ∈ links, link ∈ symlinkMap)
    (hapart : links.Pairwise fun link other => Beside other.1 link.1) (h : Sound fs) :
    Ends (Keeps (BesideAll links) fs)
      (fun after => Keeps (BesideAll links) fs after ∧ ∀ link ∈ links, Relinked link after)
      (applySymlinks b faults (links.map fun link => ⟨link.1, link.2, migrate link⟩) fs) := by
  induction links generalizing fs with
  | nil =>
    constructor
    · exact Keeps.refl _ fs
    · intro link hlink
      cases hlink
  | cons link links ih =>
    obtain ⟨hfirst, hlater⟩ := List.pairwise_cons.mp hapart
    have hlink := hlinks link List.mem_cons_self
    have hothers : ∀ other ∈ links, other ∈ symlinkMap := fun other hother =>
      hlinks other (List.mem_cons_of_mem link hother)
    have hhead (p : Path) (hp : BesideAll (link :: links) p) : Beside link.1 p :=
      hp link List.mem_cons_self
    have htail (p : Path) (hp : BesideAll (link :: links) p) : BesideAll links p :=
      fun other hother => hp other (List.mem_cons_of_mem link hother)
    rw [applySymlinks, List.map_cons, List.foldlM_cons]
    apply Ends.bind (Ends.mono (applyPlan_ends h hlink (migrate link))
      (fun after hafter => hafter.mono hhead) (fun after hafter => hafter))
    intro mid hmid
    have hfromFirst := hmid.1.mono hhead
    apply Ends.mono (ih hothers hlater (h.keeps hlink hmid.1))
    · intro after hafter
      exact hfromFirst.trans (hafter.mono htail)
    · intro after hafter
      constructor
      · exact hfromFirst.trans (hafter.1.mono htail)
      · intro other hother
        rcases List.mem_cons.mp hother with hsame | hother
        · subst hsame
          apply hmid.2.keeps hafter.1
          · exact fun later hlater => hfirst later hlater
          · apply besideAll_volume hothers
            rw [← symlinkMap_targets other hlink]
            exact List.dropLast_prefix other.2
        · exact hafter.2 other hother

theorem symlinkMap_pairwise : symlinkMap.Pairwise fun link other => Beside other.1 link.1 := by
  unfold Beside
  decide

/-- A boot keeps all that is beside the originals, and leaves the links when it completes. -/
theorem boot_ends (b : Boot) (faults : Path → Faults) (h : Sound fs) :
    Ends (Keeps (BesideAll symlinkMap) fs)
      (fun after => Keeps (BesideAll symlinkMap) fs after ∧
        ∀ link ∈ symlinkMap, Relinked link after) (boot b faults fs) :=
  applySymlinks_ends (fun link => isdir fs link.1 && !islink fs link.1) symlinkMap
    (fun _ hlink => hlink) symlinkMap_pairwise h

end

/-! ### A second run -/

def SameKinds (fs after : Tree) : Prop := ∀ p, after.kindAt p = fs.kindAt p

section

variable {fs mid after : Tree} {link : Path × Path} {b : Boot} {faults : Path → Faults}

theorem SameKinds.trans (h : SameKinds fs mid) (h' : SameKinds mid after) : SameKinds fs after :=
  fun p => (h' p).trans (h p)

theorem SameKinds.keeps (h : SameKinds fs after) (counts : Path → Prop) : Keeps counts fs after :=
  Keeps.of_eq h

/-- Taking a link away and making it again. -/
theorem relink_sameKinds (h : Sound fs) (hlink : link ∈ symlinkMap) (hlinked : Relinked link fs)
    (owner : Owner) :
    SameKinds fs (setAt (some (.link ("" :: link.2) owner)) link.1 (setAt none link.1 fs)) := by
  obtain ⟨node, hnode, hkind⟩ := Option.map_eq_some_iff.mp hlinked.original
  have hne := original_ne_nil hlink
  have hcleared : Sound (setAt none link.1 fs) := h.keeps hlink (keeps_setAt fun q hq => hq)
  obtain ⟨d, hd, hdir⟩ := hcleared.parentDir hlink
  have hagain := find_setAt_self (x := some (.link ("" :: link.2) owner)) hne hd hdir
  intro q
  by_cases hpre : link.1 <+: q
  · obtain ⟨r, hr⟩ := hpre
    subst hr
    rw [kindAt_append, kindAt_append, hagain, hnode, Option.bind_some, Option.bind_some]
    by_cases hr : r = []
    · subst hr
      exact congrArg some hkind.symm
    · have hnew : (FileTree.link ("" :: link.2) owner).kind = .link ("" :: link.2) := rfl
      rw [kindAt_of_kind_link hkind hr, kindAt_of_kind_link hnew hr]
  · rw [kindAt_setAt_elsewhere hpre, kindAt_setAt_elsewhere hpre]

theorem makeTarget_again (h : Sound fs) (hlink : link ∈ symlinkMap) (hlinked : Relinked link fs)
    {made : Tree} (hmade : makedirs made link.2 fs = some after) : after = fs := by
  rw [h.makedirs_target hlink] at hmade
  split at hmade
  · cases hmade
    rfl
  · have hthere := hlinked.target
    rw [kindAt, Option.isSome_map] at hthere
    rw [mkdir, h.place_target hlink] at hmade
    dsimp only at hmade
    rw [if_pos hthere] at hmade
    cases hmade

theorem clearWay_again (h : Sound fs) (hlink : link ∈ symlinkMap) (hlinked : Relinked link fs)
    (fails : Bool) :
    Ends (SameKinds fs) (fun cleared => cleared = setAt none link.1 fs)
      (clearWay fails link.1 fs) := by
  have hplace := h.place_original hlink
  have hthere : lexists fs link.1 = true := by
    obtain ⟨node, hnode, -⟩ := Option.map_eq_some_iff.mp hlinked.original
    rw [lexists, lstat, hplace, Option.bind_some, hnode]
    rfl
  unfold clearWay
  rw [if_pos hthere]
  apply ends_attempt
  · exact fun _ => rfl
  · intro after hafter
    exact (remove_eq hplace hafter).1

theorem applyPlan_again (h : Sound fs) (hlink : link ∈ symlinkMap) (hlinked : Relinked link fs)
    (hsymlink : (faults link.1).fails .symlink = false) :
    Ends (SameKinds fs) (SameKinds fs) (applyPlan b faults fs ⟨link.1, link.2, false⟩) := by
  have hsame : SameKinds fs fs := fun _ => rfl
  unfold applyPlan
  dsimp only
  apply Ends.bind (Q := fun mid => mid = fs)
  · apply ends_attempt hsame
    intro after hafter
    exact makeTarget_again h hlink hlinked hafter
  intro made hmade
  subst hmade
  simp only [Bool.false_and, Bool.false_eq_true, if_false]
  apply Ends.bind (Q := fun mid => mid = made)
  · apply ends_attempt hsame
    intro after hafter
    rw [h.makedirs_parent hlink] at hafter
    exact (Option.some.inj hafter).symm
  intro ready hready
  subst hready
  apply Ends.bind (clearWay_again h hlink hlinked _)
  intro cleared hcleared
  have habsent : cleared.find link.1 = none := by
    obtain ⟨node, hnode, -⟩ := Option.map_eq_some_iff.mp hlinked.original
    rw [hcleared]
    exact find_setAt_of_find (original_ne_nil hlink) hnode
  have hsound : Sound cleared := by
    rw [hcleared]
    exact h.keeps hlink (keeps_setAt fun q hq => hq)
  have hrelink : attempt ((faults link.1).fails .symlink)
      (symlink ("" :: link.2) b.owner link.1) cleared =
        .ok (setAt (some (.link ("" :: link.2) b.owner)) link.1 cleared) := by
    rw [hsymlink, attempt, symlink, hsound.place_original hlink]
    dsimp only
    rw [habsent]
    rfl
  have hagain := relink_sameKinds h hlink hlinked b.owner
  rw [← hcleared] at hagain
  rw [hrelink]
  show Ends _ _ (attempt _ _ (setAt (some (.link ("" :: link.2) b.owner)) link.1 cleared))
  apply ends_attempt hagain
  intro after hafter
  exact hagain.trans (kindAt_chmod hafter)

theorem applySymlinks_again (links : List (Path × Path))
    (hlinks : ∀ link ∈ links, link ∈ symlinkMap)
    (h : Sound fs) (hlinked : ∀ link ∈ links, Relinked link fs)
    (hsymlink : ∀ link ∈ links, (faults link.1).fails .symlink = false) :
    Ends (SameKinds fs) (SameKinds fs)
      (applySymlinks b faults (links.map fun link => ⟨link.1, link.2, false⟩) fs) := by
  induction links generalizing fs with
  | nil => exact fun _ => rfl
  | cons link links ih =>
    rw [applySymlinks, List.map_cons, List.foldlM_cons]
    apply Ends.bind (applyPlan_again h (hlinks link List.mem_cons_self)
      (hlinked link List.mem_cons_self) (hsymlink link List.mem_cons_self))
    intro mid hmid
    apply Ends.mono (ih (fun other hother => hlinks other (List.mem_cons_of_mem link hother))
      (h.keepsAll (hmid.keeps _))
      (fun other hother => (hlinked other (List.mem_cons_of_mem link hother)).keeps
        (hmid.keeps fun _ => True) trivial trivial)
      (fun other hother => hsymlink other (List.mem_cons_of_mem link hother)))
    · exact fun after hafter => hmid.trans hafter
    · exact fun after hafter => hmid.trans hafter

/-- Nothing is left to migrate once the links stand. -/
theorem planSymlinks_again (h : Sound fs) (hlinked : ∀ link ∈ symlinkMap, Relinked link fs) :
    planSymlinks fs = symlinkMap.map fun link => ⟨link.1, link.2, false⟩ := by
  rw [planSymlinks_eq]
  apply List.map_congr_left
  intro link hlink
  obtain ⟨node, hnode, hkind⟩ := Option.map_eq_some_iff.mp (hlinked link hlink).original
  have hislink : islink fs link.1 = true := by
    rw [islink, lstat, h.place_original hlink, Option.bind_some, hnode]
    cases node with
    | file content perm owner => cases hkind
    | link text owner => rfl
    | dir perm owner es => cases hkind
  rw [relinkOf, hislink, Bool.not_true, Bool.and_false]

theorem boot_again (h : Sound fs) (hlinked : ∀ link ∈ symlinkMap, Relinked link fs)
    (hsymlink : ∀ link ∈ symlinkMap, (faults link.1).fails .symlink = false) :
    SameKinds fs (outcome (boot b faults fs)) := by
  rw [boot, planSymlinks_again h hlinked]
  exact (applySymlinks_again symlinkMap (fun _ hlink => hlink) h hlinked hsymlink).outcome
    fun _ hafter => hafter

theorem Sound.bootKeeps (h : Sound fs) : BootKeeps fs := by
  constructor
  · intro b faults
    have hkeeps := (boot_ends b faults h).outcome fun _ hafter => hafter.1
    exact hkeeps.mono fun _ hp => besideAll_volume (fun _ hlink => hlink) hp
  · intro b faults after hafter link hlink
    have hends := boot_ends b faults h
    rw [hafter] at hends
    exact (hends.2 link hlink).original
  · intro b faults after hafter b' faults' hsymlink
    have hends := boot_ends b faults h
    rw [hafter] at hends
    exact boot_again (h.keepsAll hends.1) hends.2 hsymlink

end

/-! ### Histories -/

section

variable {fs image : Tree} {volume : Option Tree}

/-- Mounting a volume leaves an image's own directories where they are. -/
theorem Sound.of_mounted (himage : HoldsParents image)
    (hvolume : volume.map FileTree.kind = some .dir) : Sound (mounted image volume) := by
  have hroot : image.isDir = true := by
    have hkind := himage (["data"], ["unifi", "data"]) (by decide) [] List.nil_prefix (by decide)
    exact kind_eq_dir_iff.mp (Option.some.inj hkind)
  constructor
  · intro link hlink q hq hne
    rw [mounted, kindAt_setChild_elsewhere]
    · exact himage link hlink q hq hne
    · intro hpre
      exact (symlinkMap_outside link hlink).1 (hpre.trans hq)
  · rw [mounted, kindAt_cons, child_setChild_self hroot]
    cases volume with
    | none => cases hvolume
    | some tree => exact hvolume

theorem Sound.step (h : Sound fs) (event : Event) : Sound (step fs event) := by
  cases event with
  | container image =>
    apply Sound.of_mounted image.parents
    have hvolume := h.volume
    rw [kindAt_cons] at hvolume
    cases hchild : fs.child "unifi" with
    | none =>
      rw [hchild] at hvolume
      cases hvolume
    | some tree =>
      rw [hchild] at hvolume
      exact hvolume
  | services volume => exact Sound.of_mounted h.parents rfl
  | boot b faults => exact h.keepsAll ((boot_ends b faults h).outcome fun _ hafter => hafter.1)

theorem Sound.history (h : Sound fs) (history : List Event) :
    Sound (history.foldl Boots.step fs) := by
  induction history generalizing fs with
  | nil => exact h
  | cons event history ih =>
    rw [List.foldl_cons]
    exact ih (h.step event)

/-- After any history of a volume, a boot keeps what the volume holds, leaves the links to it when
it completes, and has nothing to do the second time. -/
theorem boots_keep (image : Image) (volume : Volume) (history : List Event) :
    BootKeeps (history.foldl step (mounted image.tree (some volume.tree))) :=
  ((Sound.of_mounted image.parents rfl).history history).bootKeeps

end

def stockTree : Tree := .dir 0o755 Migration.rootOwner [
  ("etc", .dir 0o755 Migration.rootOwner [("rabbitmq", .dir 0o755 Migration.rootOwner [])]),
  ("usr", .dir 0o755 Migration.rootOwner [("lib", .dir 0o755 Migration.rootOwner [])]),
  ("var", .dir 0o755 Migration.rootOwner [("lib", .dir 0o755 Migration.rootOwner []),
    ("log", .dir 0o755 Migration.rootOwner [("syslog", .file "" 0o640 Migration.rootOwner)])])]

theorem stockTree_parents : ∀ link ∈ symlinkMap, ∀ q ∈ link.1.inits, q ≠ link.1 →
    stockTree.kindAt q = some .dir := by
  decide

def stockImage : Image :=
  ⟨stockTree, fun link hlink q hq =>
    stockTree_parents link hlink q ((List.mem_inits q link.1).mpr hq)⟩

example : ∃ after, boot Migration.rootBoot (fun _ => noFaults)
    (mounted stockImage.tree (some (Volume.mk 0o755 Migration.rootOwner []).tree)) = .ok after :=
  ⟨_, rfl⟩

/-! ### A target that is a link -/

/-- An image whose `/etc` has no directory for rabbitmq, and whose `/persistent` holds a link of
that name. -/
def bareImage : Tree := .dir 0o755 Migration.rootOwner [
  ("etc", .dir 0o755 Migration.rootOwner []),
  ("usr", .dir 0o755 Migration.rootOwner [("lib", .dir 0o755 Migration.rootOwner [])]),
  ("var", .dir 0o755 Migration.rootOwner [("lib", .dir 0o755 Migration.rootOwner [])]),
  ("persistent", .dir 0o755 Migration.rootOwner [
    ("rabbitmq", .link ["", "unifi", "data"] Migration.rootOwner)])]

def linkedVolume : Volume := ⟨0o755, Migration.rootOwner, [
  ("data", .dir 0o755 Migration.rootOwner [("ssl", .file "key" 0o600 Migration.rootOwner)]),
  ("persistent", .link ["", "etc"] Migration.rootOwner)]⟩

/-- `/unifi/persistent` leads to `/etc`, where the copied link becomes the parent of an original:
the file that the link leads to is taken for the original, and removed. -/
theorem boot_alters_linked : ¬ BootKeeps (mounted bareImage (some linkedVolume.tree)) := by
  intro h
  have hkept := h.kept Migration.rootBoot (fun _ => noFaults) ["unifi", "data", "ssl"] (by decide)
    (.file "key") rfl
  have hnow : (outcome (boot Migration.rootBoot (fun _ => noFaults)
      (mounted bareImage (some linkedVolume.tree)))).kindAt ["unifi", "data", "ssl"] =
        some (.link ["", "unifi", "rabbitmq-ssl"]) := by
    rfl
  rw [hnow] at hkept
  cases hkept

end UnifiContainers.Boots
