import UnifiContainers.Lib.FileTree

/-!
# Walking a file tree

How a path is followed through symbolic links, and what stays of a tree when only directories gain
entries. The kind of a node is what it is beside its owner and its permission bits.
-/

namespace FileTree

variable {ω : Type}

inductive Kind where
  | file (content : String)
  | link (text : List String)
  | dir
  deriving DecidableEq, Repr

def kind : FileTree ω → Kind
  | .file content _ _ => .file content
  | .link text _ => .link text
  | .dir .. => .dir

def kindAt (t : FileTree ω) (p : Path) : Option Kind := (t.find p).map kind

/-- Changes the node at a path, if there is one. -/
def modify (f : FileTree ω → FileTree ω) : Path → FileTree ω → FileTree ω
  | [], t => f t
  | name :: rest, t =>
      match t.child name with
      | none => t
      | some c => t.setChild name (some (modify f rest c))

/-! ### Following links -/

section

variable (t : FileTree ω)

/-- The walk from a directory along the names that remain, up to the first link. -/
def walkTo (atLink : Path → List String → Option Path) : Path → List String → Option Path
  | here, [] => some here
  | here, name :: rest =>
      if name = "" ∨ name = "." then walkTo atLink here rest
      else if name = ".." then walkTo atLink here.dropLast rest
      else
        match t.find (here ++ [name]) with
        | none => none
        | some (.link text _) =>
            atLink (if text.head? = some "" then [] else here) (text ++ rest)
        | some (.file ..) => if rest = [] then some (here ++ [name]) else none
        | some (.dir ..) => walkTo atLink (here ++ [name]) rest

/-- A walk that follows no more links than it is given. -/
def walk : ℕ → Path → List String → Option Path
  | 0 => t.walkTo fun _ _ => none
  | links + 1 => t.walkTo (walk links)

def maxLinks : ℕ := 40

def realpath (p : Path) : Option Path := t.walk maxLinks [] p

/-- Where the entry of a path stands: links are followed on the way to it, and not at its end. -/
def place (p : Path) : Option Path :=
  match p.getLast? with
  | none => some []
  | some name => ((t.realpath p.dropLast).filter fun d => (t.find d).any isDir).map (· ++ [name])

def lstat (p : Path) : Option (FileTree ω) := (t.place p).bind t.find

def stat (p : Path) : Option (FileTree ω) := (t.realpath p).bind t.find

end

/-! ### Kinds -/

section

variable {t u v : FileTree ω} {f : FileTree ω → FileTree ω} {x : Option (FileTree ω)}
  {name : String} {p q : Path}

theorem kind_eq_dir_iff : t.kind = .dir ↔ t.isDir = true := by
  cases t <;> simp [kind, isDir]

theorem kindAt_eq_dir_iff : t.kindAt p = some .dir ↔ (t.find p).any isDir = true := by
  rw [kindAt]
  cases t.find p with
  | none => simp
  | some node => simp [kind_eq_dir_iff]

theorem kindAt_cons : t.kindAt (name :: p) = (t.child name).bind fun c => c.kindAt p := by
  rw [kindAt, find_cons, Option.map_bind]
  rfl

theorem kindAt_append : t.kindAt (p ++ q) = (t.find p).bind fun n => n.kindAt q := by
  rw [kindAt, find_append, Option.map_bind]
  rfl

theorem kindAt_of_kind_link {text : List String} (h : t.kind = .link text) (hp : p ≠ []) :
    t.kindAt p = none := by
  cases p with
  | nil => exact absurd rfl hp
  | cons name rest =>
    cases t with
    | file content perm owner => rfl
    | link text owner => rfl
    | dir perm owner es => cases h

theorem kind_setChild : (t.setChild name x).kind = t.kind := by
  cases t <;> rfl

theorem kindAt_setChild_elsewhere (h : ¬ [name] <+: q) :
    (t.setChild name x).kindAt q = t.kindAt q := by
  cases q with
  | nil => exact congrArg some kind_setChild
  | cons other q =>
    have hne : other ≠ name := fun heq => h (by simp [heq])
    rw [kindAt_cons, kindAt_cons, child_setChild_of_ne hne]

theorem kind_modify (hp : p ≠ []) : (modify f p t).kind = t.kind := by
  cases p with
  | nil => exact absurd rfl hp
  | cons a p =>
    rw [modify]
    cases t.child a with
    | none => rfl
    | some c => exact kind_setChild

/-- Whatever does not lie under the path is of the kind it was. -/
theorem kindAt_modify_elsewhere (h : ¬ p <+: q) : (modify f p t).kindAt q = t.kindAt q := by
  induction p generalizing t q with
  | nil => exact absurd List.nil_prefix h
  | cons a p ih =>
    cases q with
    | nil => exact congrArg some (kind_modify (by simp))
    | cons b q =>
      rw [modify]
      cases hchild : t.child a with
      | none => rfl
      | some c =>
        by_cases hab : b = a
        · subst hab
          have hrest : ¬ p <+: q := fun hpre => h (by simpa [List.cons_prefix_cons] using hpre)
          rw [kindAt_cons, child_setChild_self (isDir_of_child hchild), kindAt_cons, hchild]
          exact ih hrest
        · rw [kindAt_cons, child_setChild_of_ne hab, kindAt_cons]

theorem kindAt_modify_append :
    (modify f p t).kindAt (p ++ q) = (t.find p).bind fun n => (f n).kindAt q := by
  induction p generalizing t with
  | nil => rfl
  | cons a p ih =>
    rw [modify, List.cons_append, find_cons]
    cases hchild : t.child a with
    | none =>
      rw [kindAt_cons, hchild]
      rfl
    | some c =>
      rw [kindAt_cons, child_setChild_self (isDir_of_child hchild)]
      exact ih

theorem kindAt_setAt_elsewhere (h : ¬ p <+: q) : (setAt x p t).kindAt q = t.kindAt q := by
  induction p generalizing t q with
  | nil => exact absurd List.nil_prefix h
  | cons a p ih =>
    cases p with
    | nil => exact kindAt_setChild_elsewhere h
    | cons c rest =>
      rw [setAt.eq_def]
      dsimp only
      cases hchild : t.child a with
      | none => rfl
      | some n =>
        cases q with
        | nil => exact congrArg some kind_setChild
        | cons b q =>
          by_cases hab : b = a
          · subst hab
            have hrest : ¬ c :: rest <+: q := fun hpre => h (by
              rw [List.cons_prefix_cons]
              exact ⟨rfl, hpre⟩)
            rw [kindAt_cons, child_setChild_self (isDir_of_child hchild), kindAt_cons, hchild]
            exact ih hrest
          · rw [kindAt_cons, child_setChild_of_ne hab, kindAt_cons]

end

/-! ### What stays -/

/-- What has been at a place that counts is still there, of the same kind. -/
def Keeps (counts : Path → Prop) (t u : FileTree ω) : Prop :=
  ∀ p, counts p → ∀ k, t.kindAt p = some k → u.kindAt p = some k

section

variable {counts fewer : Path → Prop} {t u v : FileTree ω} {f : FileTree ω → FileTree ω}
  {x : Option (FileTree ω)} {p q : Path}

theorem Keeps.refl (counts : Path → Prop) (t : FileTree ω) : Keeps counts t t :=
  fun _ _ _ h => h

theorem Keeps.trans (h : Keeps counts t u) (h' : Keeps counts u v) : Keeps counts t v :=
  fun p hp k hk => h' p hp k (h p hp k hk)

theorem Keeps.mono (h : Keeps counts t u) (hfewer : ∀ p, fewer p → counts p) : Keeps fewer t u :=
  fun p hp => h p (hfewer p hp)

theorem Keeps.of_eq (h : ∀ q, u.kindAt q = t.kindAt q) : Keeps counts t u :=
  fun q _ _ hq => (h q).trans hq

/-- An entry that was absent can be made. -/
theorem keeps_setAt_of_absent (h : t.find p = none) : Keeps counts t (setAt x p t) := by
  intro q _ k hk
  have hpre : ¬ p <+: q := by
    intro hpre
    obtain ⟨r, hr⟩ := hpre
    subst hr
    rw [kindAt_append, h] at hk
    cases hk
  rw [kindAt_setAt_elsewhere hpre]
  exact hk

/-- Only what lies under the path is at risk. -/
theorem keeps_setAt (h : ∀ q, counts q → ¬ p <+: q) : Keeps counts t (setAt x p t) := by
  intro q hq k hk
  rw [kindAt_setAt_elsewhere (h q hq)]
  exact hk

/-- A change that keeps everything of a node keeps everything of the tree. -/
theorem keeps_modify (h : ∀ n, Keeps (fun _ => True) n (f n)) : Keeps counts t (modify f p t) := by
  intro q _ k hk
  by_cases hpre : p <+: q
  · obtain ⟨r, hr⟩ := hpre
    subst hr
    rw [kindAt_append] at hk
    rw [kindAt_modify_append]
    obtain ⟨n, hn, hk⟩ := Option.bind_eq_some_iff.mp hk
    rw [hn]
    exact h n r trivial k hk
  · rw [kindAt_modify_elsewhere hpre]
    exact hk

theorem kindAt_modify (h : ∀ n r, (f n).kindAt r = n.kindAt r) :
    (modify f p t).kindAt q = t.kindAt q := by
  by_cases hpre : p <+: q
  · obtain ⟨r, hr⟩ := hpre
    subst hr
    rw [kindAt_modify_append, kindAt_append]
    cases t.find p with
    | none => rfl
    | some n => exact h n r
  · exact kindAt_modify_elsewhere hpre

end

/-! ### Walking along real directories -/

/-- A name that stands for an entry of the directory it is looked up in. -/
def Plain (name : String) : Prop := name ≠ "" ∧ name ≠ "." ∧ name ≠ ".."

instance (name : String) : Decidable (Plain name) := inferInstanceAs (Decidable (_ ∧ _))

section

variable {t : FileTree ω} {here p : Path}

/-- A name that stands for a directory is one step. -/
theorem walkTo_cons_dir (atLink : Path → List String → Option Path) {name : String}
    {rest : List String} (hplain : Plain name) (hdir : t.kindAt (here ++ [name]) = some .dir) :
    t.walkTo atLink here (name :: rest) = t.walkTo atLink (here ++ [name]) rest := by
  obtain ⟨hempty, hdot, hup⟩ := hplain
  rw [walkTo, if_neg (by simp [hempty, hdot]), if_neg hup]
  rw [kindAt] at hdir
  obtain ⟨node, hnode, hkind⟩ := Option.map_eq_some_iff.mp hdir
  rw [hnode]
  cases node with
  | file content perm owner => cases hkind
  | link text owner => cases hkind
  | dir perm owner es => rfl

theorem walkTo_of_dirs (atLink : Path → List String → Option Path) (names : List String)
    (hplain : ∀ name ∈ names, Plain name)
    (hdirs : ∀ q, q <+: names → q ≠ [] → t.kindAt (here ++ q) = some .dir) :
    t.walkTo atLink here names = some (here ++ names) := by
  induction names generalizing here with
  | nil => simp [walkTo]
  | cons name names ih =>
    have hdir := hdirs [name] (by simp) (by simp)
    rw [walkTo_cons_dir atLink (hplain name List.mem_cons_self) hdir,
      ih (fun other hother => hplain other (List.mem_cons_of_mem name hother))]
    · simp
    · intro q hq hne
      have hmore := hdirs (name :: q) (by simpa [List.cons_prefix_cons] using hq) (by simp)
      rwa [List.append_assoc]

theorem walkTo_of_absent (atLink : Path → List String → Option Path) (names : List String)
    (hplain : ∀ name ∈ names, Plain name) (hne : names ≠ [])
    (hdirs : ∀ q, q <+: names → q ≠ [] → q ≠ names → t.kindAt (here ++ q) = some .dir)
    (habsent : t.find (here ++ names) = none) : t.walkTo atLink here names = none := by
  induction names generalizing here with
  | nil => exact absurd rfl hne
  | cons name names ih =>
    by_cases hnames : names = []
    · subst hnames
      obtain ⟨hempty, hdot, hup⟩ := hplain name List.mem_cons_self
      rw [walkTo, if_neg (by simp [hempty, hdot]), if_neg hup, habsent]
    · have hdir := hdirs [name] (by simp) (by simp) (by simpa using Ne.symm hnames)
      rw [walkTo_cons_dir atLink (hplain name List.mem_cons_self) hdir]
      apply ih _ hnames
      · intro q hq hq' hproper
        have hmore := hdirs (name :: q) (by simpa [List.cons_prefix_cons] using hq) (by simp)
          (by simpa using hproper)
        rwa [List.append_assoc]
      · rwa [List.append_assoc]
      · intro other hother
        exact hplain other (List.mem_cons_of_mem name hother)

/-- A path all of whose parts are directories leads to itself. -/
theorem realpath_of_dirs (hplain : ∀ name ∈ p, Plain name)
    (hdirs : ∀ q, q <+: p → q ≠ [] → t.kindAt q = some .dir) : t.realpath p = some p :=
  walkTo_of_dirs _ p hplain hdirs

theorem realpath_of_absent (hplain : ∀ name ∈ p, Plain name) (hne : p ≠ [])
    (hdirs : ∀ q, q <+: p → q ≠ [] → q ≠ p → t.kindAt q = some .dir) (habsent : t.find p = none) :
    t.realpath p = none :=
  walkTo_of_absent _ p hplain hne hdirs habsent

/-- What stands in a real directory stands where its path says. -/
theorem place_of_dirs (hdir : t.isDir = true) (hplain : ∀ name ∈ p, Plain name)
    (hdirs : ∀ q, q <+: p → q ≠ [] → q ≠ p → t.kindAt q = some .dir) : t.place p = some p := by
  by_cases hp : p = []
  · subst hp
    rfl
  · have hlast : p.getLast? = some (p.getLast hp) := List.getLast?_eq_getLast_of_ne_nil hp
    have hproper : ∀ q, q <+: p.dropLast → q ≠ p := by
      intro q hq heq
      have hlength := hq.length_le
      have hpos := List.length_pos_of_ne_nil hp
      rw [heq, List.length_dropLast] at hlength
      omega
    have hreal : t.realpath p.dropLast = some p.dropLast := by
      apply realpath_of_dirs
      · intro name hname
        exact hplain name (List.dropLast_subset p hname)
      · intro q hq hne
        exact hdirs q (hq.trans (List.dropLast_prefix p)) hne (hproper q hq)
    have hparent : (t.find p.dropLast).any isDir = true := by
      by_cases hnil : p.dropLast = []
      · rw [hnil]
        exact hdir
      · apply kindAt_eq_dir_iff.mp
        exact hdirs _ (List.dropLast_prefix p) hnil (hproper _ (List.prefix_refl _))
    rw [place, hlast]
    dsimp only
    rw [hreal, Option.filter_some, if_pos hparent, Option.map_some, List.dropLast_append_getLast hp]

end

end FileTree
