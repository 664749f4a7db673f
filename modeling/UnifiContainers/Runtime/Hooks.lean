import Mathlib.Data.List.Sort
import Mathlib.Data.Int.Notation

/-!
# Init hooks

A directory of hooks makes an image variant what it is. The network entrypoint runs them itself;
the UniFi OS entrypoint hands the directory to `run-parts`, once with its own rule for names and,
should that fail, once more with every name.
-/

namespace UnifiContainers.Hooks

/-- What the hook directory holds under a name. -/
structure Entry where
  name : String
  isFile : Bool
  executable : Bool
  deriving DecidableEq

structure HookDir where
  entries : List Entry
  nodup : (entries.map Entry.name).Nodup

/-- One execution of a hook and the status it exits with. -/
structure Execution where
  hook : String
  status : ℤ
  deriving DecidableEq

inductive HookError where
  | initHooks (directory : String) (rc : ℤ)
  | initHook (name : String) (status : ℤ)
  deriving DecidableEq

/-- The text of the `RuntimeError`. -/
def HookError.message : HookError → String
  | .initHooks directory rc => "init hooks in " ++ directory ++ " failed (rc=" ++ toString rc ++ ")"
  | .initHook name status => "init hook " ++ name ++ " failed (rc=" ++ toString status ++ ")"

def Entry.runnable (e : Entry) : Bool := e.isFile && e.executable

def hookNameChar (c : Char) : Bool := c.isAlphanum || c == '_' || c == '-'

def isHookName (name : String) : Bool := name.toList.all hookNameChar

/-- The entries in name order. -/
def HookDir.sorted (d : HookDir) : List Entry :=
  d.entries.insertionSort fun a b => a.name ≤ b.name

/-- The executables under an accepted name, in name order. -/
def HookDir.accepted (accepts : String → Bool) (d : HookDir) : List String :=
  (d.sorted.filter fun e => accepts e.name && e.runnable).map Entry.name

/-- The hooks of a directory that may be absent. -/
def hooks (directory : Option HookDir) : List String :=
  (directory.map (HookDir.accepted isHookName)).getD []

/-! ### The two entrypoints -/

/-- What `run-parts` makes of its hooks' statuses: it fails if one of them did. -/
structure RunParts where
  status : List ℤ → ℤ
  status_eq_zero_iff : ∀ statuses, status statuses = 0 ↔ ∀ s ∈ statuses, s = 0

/-- Debian's own. -/
def debianRunParts : RunParts where
  status statuses := if ∀ s ∈ statuses, s = 0 then 0 else 1
  status_eq_zero_iff statuses := by
    split
    · rename_i hzero
      exact ⟨fun _ => hzero, fun _ => rfl⟩
    · rename_i hfailed
      exact ⟨fun hone => absurd hone (by decide), fun hzero => absurd hzero hfailed⟩

section

variable (parts : RunParts) (exits : List String → String → ℤ) (path : String)

/-- Every hook in turn, a failed one or not; `exits` gives a hook's status by what ran before. -/
def execAll : List String → List String → List Execution
  | _, [] => []
  | before, name :: names => ⟨name, exits before name⟩ :: execAll (before ++ [name]) names

def runParts (accepts : String → Bool) (before : List String) (d : HookDir) :
    List Execution × ℤ :=
  let ran := execAll exits before (d.accepted accepts)
  (ran, parts.status (ran.map Execution.status))

def runInitHooks : Option HookDir → List Execution × Except HookError Unit
  | none => ([], .ok ())
  | some d =>
      let first := runParts parts exits isHookName [] d
      if first.2 = 0 then (first.1, .ok ())
      else
        let second := runParts parts exits (fun _ => true) (first.1.map Execution.hook) d
        if second.2 ≠ 0 then (first.1 ++ second.1, .error (.initHooks path second.2))
        else (first.1 ++ second.1, .ok ())

def runEntries : List String → List Entry → List Execution × Except HookError (List String)
  | _, [] => ([], .ok [])
  | before, e :: entries =>
      if isHookName e.name = false then runEntries before entries
      else if e.runnable = false then runEntries before entries
      else
        let status := exits before e.name
        if status ≠ 0 then ([⟨e.name, status⟩], .error (.initHook e.name status))
        else
          let (executed, ran) := runEntries (before ++ [e.name]) entries
          (⟨e.name, status⟩ :: executed, ran.map (e.name :: ·))

def runHooks : Option HookDir → List Execution × Except HookError (List String)
  | none => ([], .ok [])
  | some d => runEntries exits [] d.sorted

/-! ### One pass -/

/-- Each of the names, run in turn, exits 0. -/
def AllPass (before names : List String) : Prop :=
  ∀ ahead name after, names = ahead ++ name :: after → exits (before ++ ahead) name = 0

variable {parts exits} {before names : List String} {name : String}

theorem allPass_nil : AllPass exits before [] := by
  intro ahead name after h
  cases ahead <;> cases h

theorem allPass_cons :
    AllPass exits before (name :: names) ↔
      exits before name = 0 ∧ AllPass exits (before ++ [name]) names := by
  constructor
  · intro h
    constructor
    · have hfirst := h [] name names rfl
      rwa [List.append_nil] at hfirst
    · intro ahead other after hnames
      have hother := h (name :: ahead) other after (by rw [hnames, List.cons_append])
      rwa [List.append_cons] at hother
  · intro h ahead other after hnames
    cases ahead with
    | nil =>
      cases hnames
      rw [List.append_nil]
      exact h.1
    | cons first ahead =>
      cases hnames
      rw [List.append_cons]
      exact h.2 ahead other after rfl

theorem execAll_hook (before names : List String) :
    (execAll exits before names).map Execution.hook = names := by
  induction names generalizing before with
  | nil => rfl
  | cons name names ih => rw [execAll, List.map_cons, ih]

theorem execAll_status :
    (∀ s ∈ (execAll exits before names).map Execution.status, s = 0) ↔
      AllPass exits before names := by
  induction names generalizing before with
  | nil => exact ⟨fun _ => allPass_nil, fun _ _ hmem => absurd hmem List.not_mem_nil⟩
  | cons name names ih => rw [execAll, List.map_cons, List.forall_mem_cons, ih, allPass_cons]

theorem runParts_status {accepts : String → Bool} {d : HookDir} :
    (runParts parts exits accepts before d).2 = 0 ↔ AllPass exits before (d.accepted accepts) := by
  rw [runParts, parts.status_eq_zero_iff, execAll_status]

/-- The loop runs the hooks that `run-parts` accepts, up to the first that fails. -/
theorem runEntries_spec (exits : List String → String → ℤ) (before : List String)
    (entries : List Entry) :
    (runEntries exits before entries).1 <+:
        execAll exits before ((entries.filter fun e => isHookName e.name && e.runnable).map
          Entry.name) ∧
      ((∃ ran, (runEntries exits before entries).2 = .ok ran) ↔
        AllPass exits before ((entries.filter fun e => isHookName e.name && e.runnable).map
          Entry.name)) := by
  induction entries generalizing before with
  | nil => exact ⟨List.prefix_refl _, fun _ => allPass_nil, fun _ => ⟨[], rfl⟩⟩
  | cons e entries ih =>
    cases hname : isHookName e.name with
    | false =>
      rw [runEntries, if_pos hname, List.filter_cons_of_neg (by simp [hname])]
      exact ih before
    | true =>
      cases hrunnable : e.runnable with
      | false =>
        rw [runEntries, if_neg (by simp [hname]), if_pos hrunnable,
          List.filter_cons_of_neg (by simp [hrunnable])]
        exact ih before
      | true =>
        obtain ⟨hexecuted, hran⟩ := ih (before ++ [e.name])
        rw [List.filter_cons_of_pos (by simp [hname, hrunnable]), List.map_cons, execAll,
          allPass_cons, ← hran, runEntries, if_neg (by simp [hname]), if_neg (by simp [hrunnable])]
        by_cases hstatus : exits before e.name = 0
        · simp only [hstatus, ne_eq, not_true_eq_false, if_false, true_and]
          refine ⟨List.prefix_cons_inj _ |>.mpr hexecuted, ?_⟩
          cases (runEntries exits (before ++ [e.name]) entries).2 with
          | ok ran => exact ⟨fun _ => ⟨ran, rfl⟩, fun _ => ⟨e.name :: ran, rfl⟩⟩
          | error failure =>
            constructor
            · intro h
              obtain ⟨ran, h⟩ := h
              cases h
            · intro h
              obtain ⟨ran, h⟩ := h
              cases h
        · simp only [hstatus, ne_eq, not_false_eq_true, if_true, false_and, iff_false]
          refine ⟨List.prefix_cons_inj _ |>.mpr List.nil_prefix, ?_⟩
          intro h
          obtain ⟨ran, h⟩ := h
          cases h

end

/-! ### Once a boot -/

theorem accepted_nodup (accepts : String → Bool) (d : HookDir) : (d.accepted accepts).Nodup := by
  have hsorted : (d.sorted.map Entry.name).Nodup :=
    ((List.perm_insertionSort _ d.entries).map Entry.name).nodup_iff.mpr d.nodup
  exact hsorted.sublist (List.filter_sublist.map Entry.name)

theorem accepted_subset (d : HookDir) : d.accepted isHookName ⊆ d.accepted fun _ => true := by
  intro name hmem
  obtain ⟨e, he, rfl⟩ := List.mem_map.mp hmem
  obtain ⟨hsorted, hruns⟩ := List.mem_filter.mp he
  rw [Bool.and_eq_true] at hruns
  exact List.mem_map_of_mem (List.mem_filter.mpr ⟨hsorted, by simp [hruns.2]⟩)

/-- The hooks of one boot: none runs twice, the boot goes on only if each ran and exited 0, and
the network entrypoint would have run the same ones up to the first failure. -/
structure OncePerBoot (parts : RunParts) (exits : List String → String → ℤ) (path : String)
    (directory : Option HookDir) : Prop where
  once : ∀ name ∈ hooks directory,
    ((runInitHooks parts exits path directory).1.map Execution.hook).count name ≤ 1
  all : (runInitHooks parts exits path directory).2 = .ok () →
    ∀ name ∈ hooks directory, ⟨name, 0⟩ ∈ (runInitHooks parts exits path directory).1
  sameRuns : (runHooks exits directory).1 <+: (runInitHooks parts exits path directory).1
  sameOutcome : (∃ ran, (runHooks exits directory).2 = .ok ran) ↔
    (runInitHooks parts exits path directory).2 = .ok ()

section

variable {parts : RunParts} {exits : List String → String → ℤ} {path : String} {d : HookDir}

/-- A first pass without a failure is the only one. -/
theorem runInitHooks_of_allPass (parts : RunParts) (path : String)
    (h : AllPass exits [] (d.accepted isHookName)) :
    runInitHooks parts exits path (some d) =
      (execAll exits [] (d.accepted isHookName), .ok ()) := by
  have hstatus : (runParts parts exits isHookName [] d).2 = 0 := runParts_status.mpr h
  simp only [runInitHooks, if_pos hstatus]
  rfl

/-- After a failure in the first pass every hook runs again. -/
theorem runInitHooks_of_not_allPass (parts : RunParts) (path : String)
    (h : ¬ AllPass exits [] (d.accepted isHookName)) :
    (runInitHooks parts exits path (some d)).1.map Execution.hook =
      d.accepted isHookName ++ d.accepted fun _ => true := by
  have hstatus : (runParts parts exits isHookName [] d).2 ≠ 0 :=
    fun hzero => h (runParts_status.mp hzero)
  have hexecuted : (runInitHooks parts exits path (some d)).1 =
      (runParts parts exits isHookName [] d).1 ++ (runParts parts exits (fun _ => true)
        ((runParts parts exits isHookName [] d).1.map Execution.hook) d).1 := by
    simp only [runInitHooks, if_neg hstatus]
    split <;> rfl
  rw [hexecuted, List.map_append, runParts, execAll_hook, runParts, execAll_hook]

theorem execAll_of_allPass {before names : List String} (h : AllPass exits before names)
    {name : String} (hmem : name ∈ names) : ⟨name, 0⟩ ∈ execAll exits before names := by
  have hhooks : (execAll exits before names).map Execution.hook = names := execAll_hook before names
  rw [← hhooks] at hmem
  obtain ⟨run, hrun, rfl⟩ := List.mem_map.mp hmem
  have hstatus : run.status = 0 := execAll_status.mpr h _ (List.mem_map_of_mem hrun)
  rw [← hstatus]
  exact hrun

end

/-- One call of `run_init_hooks` runs each hook once, and goes on only if none failed, exactly when
every hook, run in name order, exits 0 the first time. -/
theorem runInitHooks_once_iff (parts : RunParts) (exits : List String → String → ℤ)
    (path : String) (directory : Option HookDir) :
    OncePerBoot parts exits path directory ↔
      ∀ ahead name after, hooks directory = ahead ++ name :: after → exits ahead name = 0 := by
  cases directory with
  | none =>
    constructor
    · intro _ ahead name after h
      cases ahead <;> cases h
    · intro _
      exact ⟨fun _ hmem => absurd hmem List.not_mem_nil,
        fun _ _ hmem => absurd hmem List.not_mem_nil, List.prefix_refl _,
        fun _ => rfl, fun _ => ⟨[], rfl⟩⟩
  | some d =>
    have hcondition : AllPass exits [] (d.accepted isHookName) ↔
        ∀ ahead name after, hooks (some d) = ahead ++ name :: after → exits ahead name = 0 :=
      Iff.rfl
    rw [← hcondition]
    constructor
    · intro honce
      by_contra hfails
      have hran := runInitHooks_of_not_allPass parts path hfails
      obtain ⟨name, hname⟩ : ∃ name, name ∈ d.accepted isHookName := by
        cases hnames : d.accepted isHookName with
        | nil =>
          rw [hnames] at hfails
          exact absurd allPass_nil hfails
        | cons name names => exact ⟨name, List.mem_cons_self⟩
      have hcount := honce.once name hname
      rw [hran, List.count_append] at hcount
      have hfirst := List.count_pos_iff.mpr hname
      have hsecond := List.count_pos_iff.mpr (accepted_subset d hname)
      omega
    · intro hpass
      have hinit := runInitHooks_of_allPass parts path hpass
      obtain ⟨hexecuted, hran⟩ := runEntries_spec exits [] d.sorted
      constructor
      · intro name _
        rw [hinit, execAll_hook]
        exact List.nodup_iff_count_le_one.mp (accepted_nodup isHookName d) name
      · intro _ name hmem
        rw [hinit]
        exact execAll_of_allPass hpass hmem
      · rw [hinit]
        exact hexecuted
      · rw [hinit]
        exact ⟨fun _ => rfl, fun _ => hran.mpr hpass⟩

def seedDir : HookDir := ⟨[⟨"seed", true, true⟩], by decide⟩

/-- Its first execution fails, the second does not. -/
def failsFirst (before : List String) (_ : String) : ℤ := if before = [] then 1 else 0

/-- A hook that fails once runs twice, and the boot goes on. -/
theorem runInitHooks_twice :
    runInitHooks debianRunParts failsFirst "/usr/local/uos/init.d" (some seedDir) =
        ([⟨"seed", 1⟩, ⟨"seed", 0⟩], .ok ()) ∧
      ¬ OncePerBoot debianRunParts failsFirst "/usr/local/uos/init.d" (some seedDir) := by
  constructor
  · decide
  · intro h
    exact absurd (h.once "seed" (by decide)) (by decide)

end UnifiContainers.Hooks
