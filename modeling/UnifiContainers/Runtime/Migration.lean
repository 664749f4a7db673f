import UnifiContainers.Lib.FileTree

/-!
# Moving service state onto the volume

`plan_symlinks` and `apply_symlinks` of the UniFi OS entrypoint. Each original directory is copied
to its target on the volume, deleted, and replaced by a link to the target. Nothing on the way to
an original or a target is itself a link, and no file operation fails in the copy.
-/

namespace UnifiContainers.Migration

open FileTree

structure Owner where
  uid : ℕ
  gid : ℕ
  deriving DecidableEq, Repr

abbrev Tree := FileTree Owner

def symlinkMap : List (Path × Path) := [
  (["data"], ["unifi", "data"]),
  (["var", "lib", "mongodb"], ["unifi", "db"]),
  (["var", "lib", "unifi"], ["unifi", "config"]),
  (["var", "log"], ["unifi", "logs"]),
  (["srv"], ["unifi", "srv"]),
  (["persistent"], ["unifi", "persistent"]),
  (["etc", "rabbitmq", "ssl"], ["unifi", "rabbitmq-ssl"]),
  (["usr", "lib", "unifi"], ["unifi", "app"])]

structure Relink where
  original : Path
  target : Path
  migrate : Bool
  deriving DecidableEq, Repr

def isdir (fs : Tree) (p : Path) : Bool := (fs.follow p).any FileTree.isDir

def islink (fs : Tree) (p : Path) : Bool :=
  match fs.find p with
  | some (.link ..) => true
  | _ => false

def lexists (fs : Tree) (p : Path) : Bool := (fs.find p).isSome

def planSymlinks (root : Path) (links : List (Path × Path)) (fs : Tree) : List Relink :=
  links.map fun (original, target) => {
    original := root ++ original
    target := root ++ target
    migrate := isdir fs (root ++ original) && !islink fs (root ++ original) }

mutual

/-- `shutil.copytree` with `symlinks`: the modes are the source's, the owner is whoever copies. -/
def copytree (copier : Owner) : Tree → Tree
  | .file content perm _ => .file content perm copier
  | .link text _ => .link text copier
  | .dir perm _ entries => .dir perm copier (copyEntries copier entries)

def copyEntries (copier : Owner) : List (String × Tree) → List (String × Tree)
  | [] => []
  | (name, node) :: rest => (name, copytree copier node) :: copyEntries copier rest

end

def chownLike (source target : Tree) : Tree := target.chown source.owner

mutual

/-- `_mirror_ownership`: the owners of `source` on what `target` has too. -/
def mirrorOwnership (source : Tree) : Tree → Tree
  | .dir perm _ entries => .dir perm source.owner (mirrorEntries source entries)
  | target => chownLike source target

def mirrorEntries (source : Tree) : List (String × Tree) → List (String × Tree)
  | [] => []
  | (name, node) :: rest =>
      (name, match source.child name with
        | some counterpart => mirrorOwnership counterpart node
        | none => node) :: mirrorEntries source rest

end

def copyStep (copier : Owner) (source target : Tree) (name : String) : Tree :=
  if (target.child name).isSome then target
  else
    match source.child name with
    | none => target
    | some src =>
        let dst := match src with
          | .link text _ => .link text copier
          | .dir .. => copytree copier src
          | .file content perm _ => .file content perm copier
        target.setChild name (some (mirrorOwnership src dst))

/-- `_copy_no_clobber`: the target directory afterwards. -/
def copyNoClobber (copier : Owner) (source target : Tree) : Tree :=
  source.listdir.foldl (copyStep copier source) target

/-- The process that boots: its owner and the permission bits of a directory it makes. -/
structure Boot where
  owner : Owner
  perm : ℕ

def Boot.made (b : Boot) : Tree := .dir b.perm b.owner []

def remove (p : Path) (fs : Tree) : Option Tree :=
  match fs.find p with
  | none => none
  | some node => if node.isDir then none else some (setAt none p fs)

def clearWay (p : Path) (fs : Tree) : Option Tree := if lexists fs p then remove p fs else some fs

def update (f : Tree → Tree) (p : Path) (fs : Tree) : Tree :=
  match fs.find p with
  | none => fs
  | some node => setAt (some (f node)) p fs

section

variable (b : Boot)

/-- The copy out of an original that still holds content, and its removal. -/
def migrateContent (plan : Relink) (existed : Bool) (fs : Tree) : Tree :=
  match fs.find plan.original with
  | none => fs
  | some source =>
      let fs := if existed then fs else update (chownLike source) plan.target fs
      let fs := update (copyNoClobber b.owner source) plan.target fs
      setAt none plan.original fs

/-- The turn of `apply_symlinks` for one plan; `none` is an exception. -/
def applyPlan (fs : Tree) (plan : Relink) : Option Tree := do
  let existed := isdir fs plan.target
  let fs ← makedirs b.made plan.target fs
  let fs := if plan.migrate then migrateContent b plan existed fs else fs
  let fs ← makedirs b.made plan.original.dropLast fs
  let fs ← clearWay plan.original fs
  let fs := setAt (some (.link ("" :: plan.target) b.owner)) plan.original fs
  return update (FileTree.chmod 0o755) plan.target fs

def applySymlinks (plans : List Relink) (fs : Tree) : Option Tree := plans.foldlM (applyPlan b) fs

end

/-! ### What the migration should leave -/

/-- What `cp -a --no-clobber source/. target/` leaves at a path: directories that both have are
merged, anything else that the target has stays. -/
def cpNoClobber : Tree → Tree → Path → Option (Entry Owner)
  | _, target, [] => some target.entry
  | source, target, name :: rest =>
      match target.child name, source.child name with
      | none, none => none
      | none, some s => s.get rest
      | some t, none => t.get rest
      | some t, some s => if t.isDir && s.isDir then cpNoClobber s t rest else t.get rest

/-- What is read at `p` under an original, which may be the link to its target. -/
def readUnder (fs : Tree) (original p : Path) : Option (Entry Owner) :=
  (fs.follow original).bind fun node => node.get p

def heldAt (b : Boot) (fs : Tree) (target : Path) : Tree := (fs.find target).getD b.made

/-- Whatever was readable under the original is readable there again, the target's entry where it
had that path, and the copy leaves what `cp -a --no-clobber` leaves. -/
structure LosesNothing (b : Boot) (before after : Tree) (original target : Path) : Prop where
  kept : ∀ p ≠ [], ∀ e, readUnder before original p = some e →
    readUnder after original p = some ((before.get (target ++ p)).getD e)
  likeCp : ∀ source, before.find original = some source → ∀ p ≠ [],
    (copyNoClobber b.owner source (heldAt b before target)).get p =
      cpNoClobber source (heldAt b before target) p

/-- A name at the top of both trees brings nothing new: the target has every path that the source
has below it. -/
def NothingNewBelow (source target : Tree) : Prop :=
  ∀ name, (target.child name).isSome → ∀ rest, (source.get (name :: rest)).isSome →
    (target.get (name :: rest)).isSome

/-! ### The copy -/

section

variable {copier : Owner} {source target : Tree} {name : String} {p : Path}

private theorem child_copytree :
    (copytree copier source).child name = (source.child name).map (copytree copier) := by
  cases source with
  | file content perm owner => rfl
  | link text owner => rfl
  | dir perm owner es =>
      change (copyEntries copier es).lookup name = (es.lookup name).map (copytree copier)
      induction es with
      | nil => rfl
      | cons e es ih =>
          obtain ⟨key, node⟩ := e
          rw [copyEntries, List.lookup_cons, List.lookup_cons]
          split
          · rfl
          · exact ih

private theorem child_mirrorOwnership : (mirrorOwnership source target).child name =
    (target.child name).map fun node =>
      match source.child name with
      | some counterpart => mirrorOwnership counterpart node
      | none => node := by
  cases target with
  | file content perm owner => rfl
  | link text owner => rfl
  | dir perm owner es =>
      change (mirrorEntries source es).lookup name = (es.lookup name).map _
      induction es with
      | nil => rfl
      | cons e es ih =>
          obtain ⟨key, node⟩ := e
          rw [mirrorEntries, List.lookup_cons, List.lookup_cons]
          by_cases hkey : name = key
          · subst hkey
            simp
          · rw [beq_false_of_ne hkey]
            exact ih

private theorem get_mirrorOwnership_copytree :
    (mirrorOwnership source (copytree copier source)).get p = source.get p := by
  induction p generalizing source with
  | nil => cases source <;> rfl
  | cons name rest ih =>
      rw [get_cons, get_cons, child_mirrorOwnership, child_copytree]
      cases hchild : source.child name with
      | none => rfl
      | some c => exact ih

private def landed (copier : Owner) (src : Tree) : Tree :=
  mirrorOwnership src (copytree copier src)

private theorem copyStep_eq : copyStep copier source target name =
    if (target.child name).isSome then target
    else ((source.child name).map (landed copier)).elim target
      fun node => target.setChild name (some node) := by
  unfold copyStep
  split
  · rfl
  · cases source.child name with
    | none => rfl
    | some src => cases src <;> rfl

private theorem isDir_copyStep : (copyStep copier source target name).isDir = target.isDir := by
  rw [copyStep_eq]
  split
  · rfl
  · cases (source.child name).map (landed copier) <;> simp

private theorem child_copyStep (hdir : target.isDir = true) {first : String} :
    (copyStep copier source target first).child name =
      (target.child name).or
        (if name = first then (source.child name).map (landed copier) else none) := by
  rw [copyStep_eq]
  by_cases hname : name = first
  · subst hname
    rw [if_pos rfl]
    cases hheld : target.child name with
    | some node => exact hheld
    | none =>
        cases (source.child name).map (landed copier) with
        | none => exact hheld
        | some node => exact child_setChild_self hdir
  · rw [if_neg hname, Option.or_none]
    split
    · rfl
    · cases (source.child first).map (landed copier) with
      | none => rfl
      | some node => exact child_setChild_of_ne hname

private theorem child_foldl_copyStep (names : List String) (hdir : target.isDir = true) :
    (names.foldl (copyStep copier source) target).child name =
      (target.child name).or
        (if name ∈ names then (source.child name).map (landed copier) else none) := by
  induction names generalizing target with
  | nil => simp
  | cons first names ih =>
      rw [List.foldl_cons, ih (isDir_copyStep.trans hdir), child_copyStep hdir]
      by_cases hname : name = first
      · rw [if_pos hname, if_pos (List.mem_cons.mpr (.inl hname)), Option.or_assoc]
        split <;> simp
      · simp [hname]

/-- The copy keeps each name the target has, whole, and takes every other name from the source. -/
theorem get_copyNoClobber (hdir : target.isDir = true) (rest : Path) :
    (copyNoClobber copier source target).get (name :: rest) =
      if (target.child name).isSome then target.get (name :: rest)
      else source.get (name :: rest) := by
  have hchild : (copyNoClobber copier source target).child name =
      (target.child name).or ((source.child name).map (landed copier)) := by
    rw [copyNoClobber, child_foldl_copyStep _ hdir]
    split
    · rfl
    · rename_i hmem
      rw [child_eq_none hmem]
      rfl
  rw [get_cons, get_cons, get_cons, hchild]
  cases target.child name with
  | some node => rfl
  | none =>
      cases source.child name with
      | none => rfl
      | some src => exact get_mirrorOwnership_copytree

private theorem cpNoClobber_of_covered
    (h : ∀ q, (source.get q).isSome → (target.get q).isSome) :
    cpNoClobber source target p = target.get p := by
  induction p generalizing source target with
  | nil => rfl
  | cons name rest ih =>
      have hname := h [name]
      rw [cpNoClobber, get_cons]
      simp only [get_cons] at hname
      cases hheld : target.child name with
      | none =>
          cases hsrc : source.child name with
          | none => rfl
          | some s =>
              rw [hheld, hsrc] at hname
              exact absurd (hname rfl) Bool.false_ne_true
      | some t =>
          cases hsrc : source.child name with
          | none => rfl
          | some s =>
              dsimp only
              split
              · apply ih
                intro q hq
                have := h (name :: q)
                rw [get_cons, get_cons, hheld, hsrc] at this
                exact this hq
              · rfl

private theorem copyNoClobber_likeCp (hdir : target.isDir = true)
    (h : NothingNewBelow source target) (hp : p ≠ []) :
    (copyNoClobber copier source target).get p = cpNoClobber source target p := by
  cases p with
  | nil => exact absurd rfl hp
  | cons name rest =>
      rw [get_copyNoClobber hdir, get_cons, get_cons, cpNoClobber]
      cases hheld : target.child name with
      | none =>
          cases source.child name <;> rfl
      | some t =>
          cases hsrc : source.child name with
          | none => rfl
          | some s =>
              have hcovered : ∀ q, (s.get q).isSome → (t.get q).isSome := fun q hq => by
                have := h name (by rw [hheld]; rfl) q
                rw [get_cons, get_cons, hheld, hsrc] at this
                exact this hq
              simp [cpNoClobber_of_covered hcovered]

private theorem get_copyNoClobber_chown (hdir : target.isDir = true) (owner : Owner) (hp : p ≠ []) :
    (copyNoClobber copier source (target.chown owner)).get p =
      (copyNoClobber copier source target).get p := by
  cases p with
  | nil => exact absurd rfl hp
  | cons name rest =>
      have hchown : (target.chown owner).isDir = true := by
        cases target <;> first | rfl | cases hdir
      rw [get_copyNoClobber hchown, get_copyNoClobber hdir, child_chown,
        get_congr (fun _ => child_chown owner) hp]

end

/-! ### One plan -/

section

variable {b : Boot} {fs after : Tree} {plan : Relink} {p q : Path}

private theorem find_update_apart {f : Tree → Tree} (h : Apart p q) :
    (update f p fs).find q = fs.find q := by
  unfold update
  split
  · rfl
  · exact find_setAt_apart h

private theorem find_update_self {f : Tree → Tree} (hp : p ≠ []) {node : Tree}
    (h : fs.find p = some node) : (update f p fs).find p = some (f node) := by
  rw [update, h]
  exact find_setAt_of_find hp h

private theorem find_migrateContent_apart {existed : Bool} (ho : Apart plan.original q)
    (ht : Apart plan.target q) : (migrateContent b plan existed fs).find q = fs.find q := by
  unfold migrateContent
  split
  · rfl
  · dsimp only
    rw [find_setAt_apart ho, find_update_apart ht]
    split
    · rfl
    · exact find_update_apart ht

private theorem applyPlan_steps (h : applyPlan b fs plan = some after) :
    ∃ withTarget withParent cleared,
      makedirs b.made plan.target fs = some withTarget ∧
      makedirs b.made plan.original.dropLast
        (if plan.migrate then migrateContent b plan (isdir fs plan.target) withTarget
          else withTarget) = some withParent ∧
      clearWay plan.original withParent = some cleared ∧
      after = update (FileTree.chmod 0o755) plan.target
        (setAt (some (.link ("" :: plan.target) b.owner)) plan.original cleared) := by
  unfold applyPlan at h
  dsimp only at h
  obtain ⟨withTarget, htarget, h⟩ := Option.bind_eq_some_iff.mp h
  obtain ⟨withParent, hparent, h⟩ := Option.bind_eq_some_iff.mp h
  obtain ⟨cleared, hcleared, h⟩ := Option.bind_eq_some_iff.mp h
  cases h
  exact ⟨withTarget, withParent, cleared, htarget, hparent, hcleared, rfl⟩

theorem find_applyPlan_apart (h : applyPlan b fs plan = some after) (ho : Apart plan.original q)
    (ht : Apart plan.target q) : after.find q = fs.find q := by
  obtain ⟨withTarget, withParent, cleared, htarget, hparent, hcleared, hafter⟩ := applyPlan_steps h
  have hclear : cleared.find q = withParent.find q := by
    unfold clearWay at hcleared
    split at hcleared
    · unfold remove at hcleared
      split at hcleared
      · cases hcleared
      · split at hcleared
        · cases hcleared
        · cases hcleared
          exact find_setAt_apart ho
    · cases hcleared
      rfl
  rw [hafter, find_update_apart ht, find_setAt_apart ho, hclear,
    find_makedirs_beside hparent rfl ho.symm.not_prefix_dropLast]
  split
  · rw [find_migrateContent_apart ho ht, find_makedirs_beside htarget rfl ht.2]
  · exact find_makedirs_beside htarget rfl ht.2

/-- A plan that migrates leaves a link to the target, which holds the copy. -/
theorem applyPlan_migrated (h : applyPlan b fs plan = some after) (hmigrate : plan.migrate = true)
    (hapart : Apart plan.original plan.target) {source : Tree}
    (hsource : fs.find plan.original = some source) :
    (heldAt b fs plan.target).isDir = true ∧
      ∃ node, after.find plan.original = some (.link ("" :: plan.target) b.owner) ∧
        after.find plan.target = some node ∧ ∀ p ≠ [],
          node.get p = (copyNoClobber b.owner source (heldAt b fs plan.target)).get p := by
  obtain ⟨withTarget, withParent, cleared, htarget, hparent, hcleared, hafter⟩ := applyPlan_steps h
  have horiginal : plan.original ≠ [] := fun hnil => hapart.1 (by simp [hnil])
  have hne : plan.target ≠ [] := fun hnil => hapart.2 (by simp [hnil])
  obtain ⟨hheld, hdir⟩ := find_makedirs htarget rfl
  have hkept : withTarget.find plan.original = some source :=
    (find_makedirs_beside htarget rfl hapart.1).trans hsource
  -- the copy reads the target as it is, up to the owner it has just been given
  obtain ⟨held, hcopied, hsame⟩ : ∃ held,
      (migrateContent b plan (isdir fs plan.target) withTarget).find plan.target =
        some (copyNoClobber b.owner source held) ∧
      ∀ p ≠ [], (copyNoClobber b.owner source held).get p =
        (copyNoClobber b.owner source (heldAt b fs plan.target)).get p := by
    rw [migrateContent, hkept]
    dsimp only
    rw [find_setAt_apart hapart]
    split
    · exact ⟨_, find_update_self hne hheld, fun _ _ => rfl⟩
    · exact ⟨_, find_update_self hne (find_update_self hne hheld),
        fun p hp => get_copyNoClobber_chown hdir _ hp⟩
  have hgone : (migrateContent b plan (isdir fs plan.target) withTarget).find plan.original =
      none := by
    rw [migrateContent, hkept]
    dsimp only
    apply find_setAt_of_find horiginal (n := source)
    rw [find_update_apart hapart.symm]
    split
    · exact hkept
    · rw [find_update_apart hapart.symm]
      exact hkept
  rw [if_pos hmigrate] at hparent
  obtain ⟨hparentFind, hparentDir⟩ := find_makedirs hparent rfl
  have hself : ¬ plan.original <+: plan.original.dropLast := fun hpre => by
    have hlength := hpre.length_le
    have hpos := List.length_pos_of_ne_nil horiginal
    rw [List.length_dropLast] at hlength
    omega
  have habsent : withParent.find plan.original = none :=
    (find_makedirs_beside hparent rfl hself).trans hgone
  have htargetCopy : withParent.find plan.target = some (copyNoClobber b.owner source held) :=
    (find_makedirs_beside hparent rfl hapart.symm.not_prefix_dropLast).trans hcopied
  rw [clearWay, lexists, habsent] at hcleared
  cases hcleared
  refine ⟨hdir, (copyNoClobber b.owner source held).chmod 0o755, ?_, ?_, fun p hp => ?_⟩
  · rw [hafter, find_update_apart hapart.symm]
    exact find_setAt_self horiginal hparentFind hparentDir
  · rw [hafter]
    apply find_update_self hne
    rw [find_setAt_apart hapart, htargetCopy]
  · rw [get_congr (fun _ => child_chmod _) hp, hsame p hp]

end

/-! ### All plans -/

def LinksApart (links : List (Path × Path)) : Prop :=
  (links.flatMap fun link => [link.1, link.2]).Pairwise Apart

theorem symlinkMap_apart : LinksApart symlinkMap := by
  unfold LinksApart
  decide

section

variable {b : Boot} {fs after : Tree} {plans : List Relink} {links : List (Path × Path)}
  {root original target p q : Path} {source : Tree}

private theorem applySymlinks_cons {plan : Relink}
    (h : applySymlinks b (plan :: plans) fs = some after) :
    ∃ mid, applyPlan b fs plan = some mid ∧ applySymlinks b plans mid = some after := by
  rw [applySymlinks, List.foldlM_cons] at h
  exact Option.bind_eq_some_iff.mp h

private theorem find_applySymlinks_apart (h : applySymlinks b plans fs = some after)
    (hq : ∀ plan ∈ plans, Apart plan.original q ∧ Apart plan.target q) :
    after.find q = fs.find q := by
  induction plans generalizing fs with
  | nil =>
      cases h
      rfl
  | cons plan plans ih =>
      obtain ⟨mid, hmid, hafter⟩ := applySymlinks_cons h
      obtain ⟨ho, ht⟩ := hq plan (by simp)
      rw [ih hafter fun other hother => hq other (by simp [hother]),
        find_applyPlan_apart hmid ho ht]

private theorem readUnder_link {node : Tree} {owner : Owner}
    (h : fs.find original = some (.link ("" :: target) owner)) (htarget : fs.find target = some node) :
    readUnder fs original p = node.get p := by
  rw [readUnder, follow, h]
  exact congrArg (fun found => Option.bind found fun n => n.get p) htarget

private theorem readUnder_dir (h : fs.find original = some source) (hdir : source.isDir = true) :
    readUnder fs original p = source.get p := by
  rw [readUnder, follow, h]
  cases source with
  | file content perm owner => cases hdir
  | link text owner => cases hdir
  | dir perm owner es => rfl

private theorem get_heldAt (hp : p ≠ []) : (heldAt b fs target).get p = fs.get (target ++ p) := by
  rw [get_append, heldAt]
  cases fs.find target with
  | some node => rfl
  | none =>
      cases p with
      | nil => exact absurd rfl hp
      | cons name rest => rfl

private theorem applySymlinks_migrated (plan : Relink) {earlier later : List Relink}
    (h : applySymlinks b (earlier ++ plan :: later) fs = some after)
    (hmigrate : plan.migrate = true) (hapart : Apart plan.original plan.target)
    (hothers : ∀ other ∈ earlier ++ later, ∀ q ∈ [plan.original, plan.target],
      Apart other.original q ∧ Apart other.target q)
    (hsource : fs.find plan.original = some source) :
    (heldAt b fs plan.target).isDir = true ∧ ∀ p ≠ [], readUnder after plan.original p =
      (copyNoClobber b.owner source (heldAt b fs plan.target)).get p := by
  rw [applySymlinks, List.foldlM_append] at h
  obtain ⟨before, hbefore, h⟩ := Option.bind_eq_some_iff.mp h
  obtain ⟨mid, hmid, hafter⟩ := applySymlinks_cons h
  have hfind {q : Path} (hq : q ∈ [plan.original, plan.target]) : before.find q = fs.find q :=
    find_applySymlinks_apart hbefore fun other hother =>
      hothers other (List.mem_append_left _ hother) q hq
  have hfindAfter {q : Path} (hq : q ∈ [plan.original, plan.target]) : after.find q = mid.find q :=
    find_applySymlinks_apart hafter fun other hother =>
      hothers other (List.mem_append_right _ hother) q hq
  have hheld : heldAt b before plan.target = heldAt b fs plan.target := by
    rw [heldAt, hfind (by simp), heldAt]
  obtain ⟨hdir, node, hlink, hnode, hget⟩ :=
    applyPlan_migrated hmid hmigrate hapart ((hfind (by simp)).trans hsource)
  rw [hheld] at hdir hget
  refine ⟨hdir, fun p hp => ?_⟩
  rw [readUnder_link ((hfindAfter (by simp)).trans hlink) ((hfindAfter (by simp)).trans hnode),
    hget p hp]

private theorem planSymlinks_migrates (hsource : fs.find original = some source)
    (hdir : source.isDir = true) : (isdir fs original && !islink fs original) = true := by
  rw [isdir, islink, follow, hsource]
  cases source with
  | file content perm owner => cases hdir
  | link text owner => cases hdir
  | dir perm owner es => rfl

private theorem LinksApart.split {earlier later : List (Path × Path)}
    (h : LinksApart (earlier ++ (original, target) :: later)) : Apart original target ∧
      ∀ link ∈ earlier ++ later, ∀ q ∈ [original, target], Apart link.1 q ∧ Apart link.2 q := by
  rw [LinksApart, List.flatMap_append, List.flatMap_cons, List.pairwise_append,
    List.pairwise_append] at h
  obtain ⟨-, ⟨hpair, -, hlater⟩, hearlier⟩ := h
  refine ⟨by simpa using hpair, fun link hlink q hq => ?_⟩
  rcases List.mem_append.mp hlink with hlink | hlink
  · have hside (a : Path) (ha : a ∈ [link.1, link.2]) : Apart a q :=
      hearlier a (List.mem_flatMap.mpr ⟨link, hlink, ha⟩) q (List.mem_append_left _ hq)
    exact ⟨hside _ (by simp), hside _ (by simp)⟩
  · have hside (a : Path) (ha : a ∈ [link.1, link.2]) : Apart a q :=
      (hlater q hq a (List.mem_flatMap.mpr ⟨link, hlink, ha⟩)).symm
    exact ⟨hside _ (by simp), hside _ (by simp)⟩

/-- What is read under a migrated original afterwards is the copy that was made for it. -/
theorem readUnder_applySymlinks (hlinks : LinksApart links) (hmem : (original, target) ∈ links)
    (h : applySymlinks b (planSymlinks root links fs) fs = some after)
    (hsource : fs.find (root ++ original) = some source) (hdir : source.isDir = true) :
    (heldAt b fs (root ++ target)).isDir = true ∧ ∀ p ≠ [], readUnder after (root ++ original) p =
      (copyNoClobber b.owner source (heldAt b fs (root ++ target))).get p := by
  obtain ⟨earlier, later, hsplit⟩ := List.append_of_mem hmem
  subst hsplit
  obtain ⟨hapart, hothers⟩ := hlinks.split
  rw [planSymlinks, List.map_append, List.map_cons] at h
  refine applySymlinks_migrated ⟨root ++ original, root ++ target, _⟩ h
    (planSymlinks_migrates hsource hdir) ((Apart.append_left root).mpr hapart) ?_ hsource
  intro other hother q hq
  rw [← List.map_append] at hother
  obtain ⟨link, hlink, heq⟩ := List.mem_map.mp hother
  subst heq
  obtain ⟨inner, hinner, hroot⟩ : ∃ inner ∈ [original, target], root ++ inner = q := by
    simpa [eq_comm] using hq
  subst hroot
  obtain ⟨ho, ht⟩ := hothers link hlink inner hinner
  exact ⟨(Apart.append_left root).mpr ho, (Apart.append_left root).mpr ht⟩

/-- The migration loses nothing exactly where no name at the top of both trees brings anything
new. -/
theorem applySymlinks_losesNothing_iff (b : Boot) (root : Path) (fs after source : Tree)
    (original target : Path) (hmem : (original, target) ∈ symlinkMap)
    (hsource : fs.find (root ++ original) = some source) (hdir : source.isDir = true)
    (h : applySymlinks b (planSymlinks root symlinkMap fs) fs = some after) :
    LosesNothing b fs after (root ++ original) (root ++ target) ↔
      NothingNewBelow source (heldAt b fs (root ++ target)) := by
  obtain ⟨hheld, hread⟩ := readUnder_applySymlinks symlinkMap_apart hmem h hsource hdir
  constructor
  · intro hkeeps name hname rest hrest
    obtain ⟨e, he⟩ := Option.isSome_iff_exists.mp hrest
    have hp : name :: rest ≠ [] := by simp
    have hagain := hkeeps.kept (name :: rest) hp e ((readUnder_dir hsource hdir).trans he)
    rw [hread _ hp, get_copyNoClobber hheld, if_pos hname] at hagain
    exact Option.isSome_iff_exists.mpr ⟨_, hagain⟩
  · intro hcovered
    constructor
    · intro p hp e he
      rw [readUnder_dir hsource hdir] at he
      rw [hread p hp, ← get_heldAt (b := b) hp]
      cases p with
      | nil => exact absurd rfl hp
      | cons name rest =>
          rw [get_copyNoClobber hheld]
          split
          · rename_i hname
            obtain ⟨kept, hkept⟩ := Option.isSome_iff_exists.mp
              (hcovered name hname rest (Option.isSome_iff_exists.mpr ⟨e, he⟩))
            rw [hkept, Option.getD_some]
          · rename_i hname
            rw [he, get_cons, Option.not_isSome_iff_eq_none.mp hname]
            rfl
    · intro s hs p hp
      cases hsource.symm.trans hs
      exact copyNoClobber_likeCp hheld hcovered hp

end

/-! ### A boot that was killed during the copy -/

def mongodb : Owner := ⟨101, 102⟩

def rootOwner : Owner := ⟨0, 0⟩

def rootBoot : Boot := ⟨rootOwner, 0o755⟩

def logFile (content : String) : Tree := .file content 0o600 mongodb

/-- An image with two files in /var/log/mongodb, and a volume with what is given for its logs. -/
def image (logs : List (String × Tree)) : Tree := .dir 0o755 rootOwner [
  ("var", .dir 0o755 rootOwner [("log", .dir 0o755 rootOwner [("mongodb", .dir 0o755 mongodb [
    ("mongodb.log", logFile "started"), ("mongodb.log.1", logFile "rotated")])])]),
  ("unifi", .dir 0o755 rootOwner logs)]

def halfCopied : Tree := image [("logs", .dir 0o755 rootOwner [("mongodb", .dir 0o755 rootOwner [
  ("mongodb.log", logFile "started")])])]

theorem applySymlinks_losesNothing_iff_example :
    ∃ after, applySymlinks rootBoot (planSymlinks [] symlinkMap (image [])) (image []) = some after ∧
      LosesNothing rootBoot (image []) after ["var", "log"] ["unifi", "logs"] :=
  ⟨_, rfl, (applySymlinks_losesNothing_iff rootBoot [] (image []) _ _ ["var", "log"]
    ["unifi", "logs"] (by decide) rfl rfl rfl).mpr fun _ hname =>
      absurd hname Bool.false_ne_true⟩

/-- The second boot skips the directory that was half copied, and deletes the rest with the
original. -/
theorem applySymlinks_loses :
    ∃ after, applySymlinks rootBoot (planSymlinks [] symlinkMap halfCopied) halfCopied =
        some after ∧
      readUnder halfCopied ["var", "log"] ["mongodb", "mongodb.log.1"] =
        some (.file "rotated" 0o600 mongodb) ∧
      readUnder after ["var", "log"] ["mongodb", "mongodb.log.1"] = none ∧
      ¬ LosesNothing rootBoot halfCopied after ["var", "log"] ["unifi", "logs"] := by
  refine ⟨_, rfl, rfl, rfl, fun h => ?_⟩
  have hread := h.kept ["mongodb", "mongodb.log.1"] (by decide) _ rfl
  cases hread

end UnifiContainers.Migration
