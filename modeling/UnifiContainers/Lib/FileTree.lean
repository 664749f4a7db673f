import Mathlib.Data.List.Basic

/-!
# File trees

A tree of files, symbolic links and directories, with their owners and permission bits. What stands
at a path is found without following links. `setAt` changes one name of one directory, and
`makedirs` adds the directories that a path still lacks.
-/

/-- A file tree; the text of a link is split at "/". -/
inductive FileTree (ω : Type) where
  | file (content : String) (perm : Nat) (owner : ω)
  | link (text : List String) (owner : ω)
  | dir (perm : Nat) (owner : ω) (entries : List (String × FileTree ω))

namespace FileTree

abbrev Path := List String

inductive Entry (ω : Type) where
  | file (content : String) (perm : Nat) (owner : ω)
  | link (text : List String) (owner : ω)
  | dir (perm : Nat) (owner : ω)
  deriving DecidableEq, Repr

variable {ω : Type}

def entry : FileTree ω → Entry ω
  | .file content perm owner => .file content perm owner
  | .link text owner => .link text owner
  | .dir perm owner _ => .dir perm owner

def isDir : FileTree ω → Bool
  | .dir .. => true
  | _ => false

def owner : FileTree ω → ω
  | .file _ _ owner | .link _ owner | .dir _ owner _ => owner

def chown (owner : ω) : FileTree ω → FileTree ω
  | .file content perm _ => .file content perm owner
  | .link text _ => .link text owner
  | .dir perm _ entries => .dir perm owner entries

def chmod (perm : Nat) : FileTree ω → FileTree ω
  | .file content _ owner => .file content perm owner
  | .link text owner => .link text owner
  | .dir _ owner entries => .dir perm owner entries

def entries : FileTree ω → List (String × FileTree ω)
  | .dir _ _ entries => entries
  | _ => []

def listdir (t : FileTree ω) : List String := t.entries.map Prod.fst

def child (t : FileTree ω) (name : String) : Option (FileTree ω) := t.entries.lookup name

def find : FileTree ω → Path → Option (FileTree ω)
  | t, [] => some t
  | t, name :: rest => (t.child name).bind fun c => c.find rest

def get (t : FileTree ω) (p : Path) : Option (Entry ω) := (t.find p).map entry

/-- What is reached at a path that may itself be an absolute link. -/
def follow (t : FileTree ω) (p : Path) : Option (FileTree ω) :=
  match t.find p with
  | some (.link ("" :: dest) _) => t.find dest
  | found => found

/-- Gives a name of a directory another node, or none. -/
def setChild (name : String) (x : Option (FileTree ω)) : FileTree ω → FileTree ω
  | .dir perm owner entries =>
      .dir perm owner (x.toList.map (fun n => (name, n)) ++ entries.filter fun e => e.1 ≠ name)
  | t => t

def setAt (x : Option (FileTree ω)) : Path → FileTree ω → FileTree ω
  | [], t => t
  | [name], t => t.setChild name x
  | name :: rest, t =>
      match t.child name with
      | none => t
      | some c => t.setChild name (some (setAt x rest c))

/-- The directories of a path, each made if it is absent; `none` if a part of it is no directory. -/
def makedirs (made : FileTree ω) : Path → FileTree ω → Option (FileTree ω)
  | [], t => if t.isDir then some t else none
  | name :: rest, t =>
      if t.isDir then
        (makedirs made rest ((t.child name).getD made)).map fun c => t.setChild name (some c)
      else none

/-- Neither path leads through the other. -/
def Apart (p q : Path) : Prop := ¬ p <+: q ∧ ¬ q <+: p

instance (p q : Path) : Decidable (Apart p q) := inferInstanceAs (Decidable (_ ∧ _))

/-! ### One directory -/

section

variable {t u : FileTree ω} {x : Option (FileTree ω)} {name other : String} {p q : Path}

private theorem lookup_filter_ne (es : List (String × FileTree ω)) (h : other ≠ name) :
    (es.filter fun e => e.1 ≠ name).lookup other = es.lookup other := by
  induction es with
  | nil => rfl
  | cons e es ih =>
      obtain ⟨key, node⟩ := e
      by_cases hkey : key = name
      · subst hkey
        rw [List.filter_cons_of_neg (by simp), ih, List.lookup_cons, beq_false_of_ne h]
      · rw [List.filter_cons_of_pos (by simpa using hkey), List.lookup_cons, List.lookup_cons, ih]

private theorem lookup_filter_self (es : List (String × FileTree ω)) :
    (es.filter fun e => e.1 ≠ name).lookup name = none := by
  rw [List.lookup_eq_none_iff]
  intro e he
  have hne : e.1 ≠ name := of_decide_eq_true (List.mem_filter.mp he).2
  exact bne_iff_ne.mpr hne.symm

theorem isDir_of_child {c : FileTree ω} (h : t.child name = some c) : t.isDir = true := by
  cases t with
  | file content perm owner => cases h
  | link text owner => cases h
  | dir perm owner es => rfl

theorem child_setChild_self (h : t.isDir = true) : (t.setChild name x).child name = x := by
  cases t with
  | file content perm owner => cases h
  | link text owner => cases h
  | dir perm owner es =>
      cases x with
      | none => exact lookup_filter_self es
      | some n => simp [setChild, child, entries]

theorem child_setChild_of_ne (h : other ≠ name) :
    (t.setChild name x).child other = t.child other := by
  cases t with
  | file content perm owner => rfl
  | link text owner => rfl
  | dir perm owner es =>
      have hes := lookup_filter_ne es h
      cases x with
      | none => exact hes
      | some n =>
          simp only [setChild, child, entries, Option.toList_some, List.map_cons, List.map_nil,
            List.cons_append, List.nil_append, List.lookup_cons, beq_false_of_ne h]
          exact hes

@[simp]
theorem isDir_setChild : (t.setChild name x).isDir = t.isDir := by
  cases t <;> rfl

@[simp]
theorem child_chown (owner : ω) : (t.chown owner).child name = t.child name := by
  cases t <;> rfl

@[simp]
theorem child_chmod (perm : Nat) : (t.chmod perm).child name = t.child name := by
  cases t <;> rfl

theorem child_eq_none (h : name ∉ t.listdir) : t.child name = none := by
  rw [child, List.lookup_eq_none_iff]
  intro e he
  have hne : e.1 ≠ name := fun heq => h (heq ▸ List.mem_map_of_mem he)
  exact bne_iff_ne.mpr hne.symm

/-! ### Paths -/

@[simp]
theorem find_cons : t.find (name :: p) = (t.child name).bind fun c => c.find p := rfl

theorem get_cons : t.get (name :: p) = (t.child name).bind fun c => c.get p := by
  rw [get, find_cons, Option.map_bind]
  rfl

theorem find_append : t.find (p ++ q) = (t.find p).bind fun n => n.find q := by
  induction p generalizing t with
  | nil => rfl
  | cons name p ih =>
      rw [List.cons_append, find_cons, find_cons, Option.bind_assoc]
      congr 1
      funext c
      exact ih

theorem get_append : t.get (p ++ q) = (t.find p).bind fun n => n.get q := by
  rw [get, find_append, Option.map_bind]
  rfl

theorem get_congr (h : ∀ name, t.child name = u.child name) (hp : p ≠ []) : t.get p = u.get p := by
  cases p with
  | nil => exact absurd rfl hp
  | cons name rest => rw [get_cons, get_cons, h]

theorem Apart.symm (h : Apart p q) : Apart q p := ⟨h.2, h.1⟩

theorem Apart.append_left (r : Path) : Apart (r ++ p) (r ++ q) ↔ Apart p q := by
  simp [Apart, List.prefix_append_right_inj]

theorem Apart.not_prefix_dropLast (h : Apart p q) : ¬ p <+: q.dropLast :=
  fun hpre => h.1 (hpre.trans (List.dropLast_prefix q))

private theorem Apart.tail (h : Apart (name :: p) (name :: q)) : Apart p q := by
  simpa [Apart, List.cons_prefix_cons] using h

/-- What stands apart from a path is not changed by a change there. -/
theorem find_setAt_apart (h : Apart p q) : (setAt x p t).find q = t.find q := by
  induction p generalizing t q with
  | nil => exact absurd List.nil_prefix h.1
  | cons a p ih =>
      cases q with
      | nil => exact absurd List.nil_prefix h.2
      | cons b q =>
          cases p with
          | nil =>
              have hne : b ≠ a := fun heq => h.1 (by simp [heq])
              rw [setAt, find_cons, child_setChild_of_ne hne, find_cons]
          | cons c rest =>
              rw [setAt.eq_def]
              dsimp only
              cases hchild : t.child a with
              | none => rfl
              | some n =>
                  by_cases hab : b = a
                  · subst hab
                    rw [find_cons, child_setChild_self (isDir_of_child hchild), find_cons, hchild]
                    exact ih h.tail
                  · rw [find_cons, child_setChild_of_ne hab, find_cons]

theorem find_setAt_self {d : FileTree ω} (hp : p ≠ []) (hd : t.find p.dropLast = some d)
    (hdir : d.isDir = true) : (setAt x p t).find p = x := by
  induction p generalizing t with
  | nil => exact absurd rfl hp
  | cons a p ih =>
      cases p with
      | nil =>
          cases hd
          rw [setAt, find_cons, child_setChild_self hdir]
          cases x <;> rfl
      | cons c rest =>
          rw [List.dropLast_cons_cons, find_cons] at hd
          obtain ⟨n, hchild, hrest⟩ := Option.bind_eq_some_iff.mp hd
          rw [setAt.eq_def]
          dsimp only
          rw [hchild]
          dsimp only
          rw [find_cons, child_setChild_self (isDir_of_child hchild)]
          exact ih (by simp) hrest

theorem exists_parent (hp : p ≠ []) {n : FileTree ω} (h : t.find p = some n) :
    ∃ d, t.find p.dropLast = some d ∧ d.isDir = true := by
  rw [← List.dropLast_append_getLast hp, find_append] at h
  obtain ⟨d, hd, hn⟩ := Option.bind_eq_some_iff.mp h
  obtain ⟨c, hchild, _⟩ := Option.bind_eq_some_iff.mp hn
  exact ⟨d, hd, isDir_of_child hchild⟩

theorem find_setAt_of_find (hp : p ≠ []) {n : FileTree ω} (h : t.find p = some n) :
    (setAt x p t).find p = x := by
  obtain ⟨d, hd, hdir⟩ := exists_parent hp h
  exact find_setAt_self hp hd hdir

/-! ### Directories made on the way -/

variable {made : FileTree ω}

theorem find_makedirs (h : makedirs made p t = some u) (hmade : made.entries = []) :
    u.find p = some ((t.find p).getD made) ∧ ((t.find p).getD made).isDir = true := by
  induction p generalizing t u with
  | nil =>
      rw [makedirs] at h
      split at h
      · rename_i hdir
        cases h
        exact ⟨rfl, hdir⟩
      · cases h
  | cons a p ih =>
      rw [makedirs] at h
      split at h
      · rename_i hdir
        obtain ⟨c, hc, hu⟩ := Option.map_eq_some_iff.mp h
        subst hu
        rw [find_cons, child_setChild_self hdir, find_cons]
        cases hchild : t.child a with
        | some n =>
            rw [hchild] at hc
            exact ih hc
        | none =>
            rw [hchild] at hc
            have hnew := ih hc
            cases p with
            | nil => exact hnew
            | cons b rest =>
                have habsent : made.find (b :: rest) = none := by
                  rw [find_cons, child, hmade]
                  rfl
                rwa [Option.getD_none, habsent] at hnew
      · cases h

/-- Only what is on the way to the path changes. -/
theorem find_makedirs_beside (h : makedirs made p t = some u) (hmade : made.entries = [])
    (hq : ¬ q <+: p) : u.find q = t.find q := by
  induction p generalizing t u q with
  | nil =>
      rw [makedirs] at h
      split at h
      · cases h
        rfl
      · cases h
  | cons a p ih =>
      rw [makedirs] at h
      split at h
      · rename_i hdir
        obtain ⟨c, hc, hu⟩ := Option.map_eq_some_iff.mp h
        subst hu
        cases q with
        | nil => exact absurd List.nil_prefix hq
        | cons b q =>
            by_cases hab : b = a
            · subst hab
              have hrest : ¬ q <+: p := fun hpre => hq (by simpa [List.cons_prefix_cons] using hpre)
              rw [find_cons, child_setChild_self hdir, find_cons, Option.bind_some, ih hc hrest]
              cases hchild : t.child b with
              | some n => rfl
              | none =>
                  cases q with
                  | nil => exact absurd List.nil_prefix hrest
                  | cons d rest =>
                      rw [Option.getD_none, find_cons, child, hmade]
                      rfl
            · rw [find_cons, child_setChild_of_ne hab, find_cons]
      · cases h

end

end FileTree
