import UnifiContainers.Runtime.SeedEnv

/-!
# The readiness settings through the unit's environment file

The network entrypoint reads the readiness settings from the container's environment, the UOS unit
from a file that holds those of a key list. Both decide the same as long as the setting that is
missing from the list has no say.
-/

namespace UnifiContainers.ReadyzEnv

open EnvFile PyText SeedEnv

/-! ### The decision -/

def probeVar : List Char := "READYZ_PROBE".toList

def portVar : List Char := "READYZ_PORT".toList

def disableVar : List Char := "READYZ_DISABLE".toList

def defaultPort : ℤ := 9099

inductive Probe where
  | uos
  | sim
  | seeded
  | network
  | networkSim
  | networkSeeded
  deriving DecidableEq, Repr

def probes : List (List Char × Probe) :=
  [("uos".toList, .uos), ("sim".toList, .sim), ("seeded".toList, .seeded),
    ("network".toList, .network), ("network-sim".toList, .networkSim),
    ("network-seeded".toList, .networkSeeded)]

inductive ReadyzError where
  | unknownProbe (name : List Char)
  | notANumber (port : Option (List Char))
  deriving DecidableEq, Repr

/-- The text of the `ValueError`; `quoted` is Python's `repr`. -/
def ReadyzError.message (quoted : Option (List Char) → List Char) : ReadyzError → List Char
  | .unknownProbe name => "unknown READYZ_PROBE: ".toList ++ quoted (some name)
  | .notANumber port => "READYZ_PORT is not a number: ".toList ++ quoted port

/-- `env.get(key)` where the empty text counts as absent. -/
def meaningful (env : Env) (key : List Char) : Option (List Char) := (env key).filter (· ≠ [])

/-- `int(env.get(PORT_VAR) or DEFAULT_PORT)` -/
def portOf (env : Env) : Option ℤ :=
  match meaningful env portVar with
  | none => some defaultPort
  | some text => parseInt? text

/-- The probe and the port, or `none` when the image serves no endpoint. -/
def configured (env : Env) : Except ReadyzError (Option (Probe × ℤ)) :=
  if isEnabled (env disableVar) then .ok none
  else
    match meaningful env probeVar with
    | none => .ok none
    | some name =>
        match probes.lookup name with
        | none => .error (.unknownProbe name)
        | some probe =>
            match portOf env with
            | none => .error (.notANumber (env portVar))
            | some port => .ok (some (probe, port))

/-! ### The file -/

def readyzKeys : List (List Char) := [probeVar, portVar]

def assignmentLine (assigned : Assignment) : List Char :=
  assigned.1 ++ ['='] ++ quote assigned.2 ++ ['\n']

/-- The settings of the key list that are set. -/
def forwarded (env : Env) : List Assignment :=
  readyzKeys.filterMap fun key => (meaningful env key).map fun value => (key, value)

def readyzEnv (env : Env) : List Char := (forwarded env).flatMap assignmentLine

/-- The environment that the service manager gives the unit. -/
def unitEnv (env : Env) : Env := environment (read (readyzEnv env))

theorem run_assignmentLine {assigned : Assignment} (hname : IsName assigned.1)
    (hvalue : '\'' ∉ assigned.2) :
    run .preKey (assignmentLine assigned) = (.preKey, [assigned]) := by
  have hquote : quote assigned.2 = ['\''] ++ (assigned.2 ++ ['\'']) := by
    rw [quote, reopened_plain hvalue]
    rfl
  have hopen : run (.preValue assigned.1 []) ['\''] = (.quoted assigned.1 [], []) := by
    simp [run, step]
  have hclose : run (.quoted assigned.1 assigned.2) ['\'', '\n'] = (.preKey, [assigned]) := by
    simp [run, step]
  rw [assignmentLine, hquote, List.append_assoc, run_append, run_name hname, List.append_assoc,
    run_append, hopen, List.append_assoc, run_append, run_quoted hvalue, List.nil_append]
  simp only [List.nil_append, List.singleton_append, hclose]

theorem read_assignmentLines {assigned : List Assignment}
    (h : ∀ one ∈ assigned, IsName one.1 ∧ '\'' ∉ one.2) :
    read (assigned.flatMap assignmentLine) = assigned := by
  have hrun : run .preKey (assigned.flatMap assignmentLine) = (.preKey, assigned) := by
    induction assigned with
    | nil => rfl
    | cons one assigned ih =>
      obtain ⟨hname, hvalue⟩ := h one List.mem_cons_self
      rw [List.flatMap_cons, run_append, run_assignmentLine hname hvalue,
        ih fun other hother => h other (List.mem_cons_of_mem one hother)]
      rfl
  rw [EnvFile.read, hrun]
  exact List.append_nil assigned

/-! ### Both readers -/

section

variable {env : Env}

/-- Values that the file gives back verbatim. -/
def Plain (env : Env) : Prop := ∀ key value, env key = some value → '\'' ∉ value

theorem isName_readyzKeys : ∀ key ∈ readyzKeys, IsName key := by
  intro key hkey
  rw [readyzKeys, List.mem_cons, List.mem_singleton] at hkey
  rcases hkey with rfl | rfl
  · exact ⟨by decide, by decide, by decide⟩
  · exact ⟨by decide, by decide, by decide⟩

theorem unitEnv_eq (h : Plain env) : unitEnv env = environment (forwarded env) := by
  rw [unitEnv, readyzEnv, read_assignmentLines]
  intro one hone
  obtain ⟨key, hkey, hmap⟩ := List.mem_filterMap.mp hone
  obtain ⟨value, hvalue, rfl⟩ := Option.map_eq_some_iff.mp hmap
  obtain ⟨hget, -⟩ := Option.filter_eq_some_iff.mp hvalue
  exact ⟨isName_readyzKeys key hkey, h key value hget⟩

theorem environment_forwarded (env : Env) :
    environment (forwarded env) probeVar = meaningful env probeVar ∧
      environment (forwarded env) portVar = meaningful env portVar ∧
      environment (forwarded env) disableVar = none := by
  have hkeys : (portVar == probeVar) = false ∧ (probeVar == portVar) = false ∧
      (disableVar == probeVar) = false ∧ (disableVar == portVar) = false := by decide
  rw [environment, environment, environment, forwarded, readyzKeys]
  cases hprobe : meaningful env probeVar <;> cases hport : meaningful env portVar <;>
    simp [List.lookup_cons, hprobe, hport, hkeys]

theorem meaningful_unitEnv (h : Plain env) :
    meaningful (unitEnv env) probeVar = meaningful env probeVar ∧
      meaningful (unitEnv env) portVar = meaningful env portVar := by
  have htwice (key : List Char) (hget : unitEnv env key = meaningful env key) :
      meaningful (unitEnv env) key = meaningful env key := by
    rw [meaningful, hget, meaningful, Option.filter_filter]
    simp
  rw [unitEnv_eq h] at htwice ⊢
  obtain ⟨hprobe, hport, -⟩ := environment_forwarded env
  exact ⟨htwice probeVar hprobe, htwice portVar hport⟩

/-- What the probe and the port setting decide of an endpoint that is not disabled; `none` where
they are refused. -/
def decision (probe port : Option (List Char)) : Option (Option (Probe × ℤ)) :=
  match probe with
  | none => some none
  | some name => do
      let probe ← probes.lookup name
      let port ← match port with
        | none => some defaultPort
        | some text => parseInt? text
      return some (probe, port)

theorem configured_of_enabled (h : isEnabled (env disableVar) = false) :
    (configured env).toOption = decision (meaningful env probeVar) (meaningful env portVar) := by
  rw [configured, h, portOf]
  unfold decision
  cases meaningful env probeVar with
  | none => rfl
  | some name =>
    cases hprobe : probes.lookup name with
    | none => simp [hprobe, Except.toOption]
    | some probe =>
      cases meaningful env portVar with
      | none => simp [hprobe, Except.toOption]
      | some text => cases hport : parseInt? text <;> simp [hprobe, hport, Except.toOption]

/-- The unit cannot see that the endpoint is disabled. -/
theorem configured_unitEnv (h : Plain env) : (configured (unitEnv env)).toOption =
    decision (meaningful env probeVar) (meaningful env portVar) := by
  have hdisable : isEnabled (unitEnv env disableVar) = false := by
    rw [unitEnv_eq h, (environment_forwarded env).2.2]
    rfl
  obtain ⟨hprobe, hport⟩ := meaningful_unitEnv h
  rw [configured_of_enabled hdisable, hprobe, hport]

theorem decision_eq_nothing {probe port : Option (List Char)} :
    decision probe port = some none ↔ probe = none := by
  cases probe with
  | none => exact ⟨fun _ => rfl, fun _ => rfl⟩
  | some name =>
    refine iff_of_false ?_ nofun
    rw [decision]
    cases probes.lookup name with
    | none => nofun
    | some probe =>
      split
      · nofun
      · rename_i text
        cases parseInt? text with
        | none => nofun
        | some port => nofun

/-- Over values that the file gives back verbatim, the unit and the network entrypoint decide the
same (nothing, a probe on a port, or a refusal) exactly if the endpoint is not disabled or has no
probe. -/
theorem configured_unitEnv_iff (env : Env) (h : Plain env) :
    (configured (unitEnv env)).toOption = (configured env).toOption ↔
      isEnabled (env disableVar) = false ∨ env probeVar = none ∨ env probeVar = some [] := by
  have hprobe : meaningful env probeVar = none ↔ env probeVar = none ∨ env probeVar = some [] := by
    rw [meaningful]
    cases env probeVar with
    | none => simp
    | some value => simp
  rw [← hprobe, configured_unitEnv h]
  cases hdisable : isEnabled (env disableVar) with
  | false => exact iff_of_true (configured_of_enabled hdisable).symm (.inl rfl)
  | true =>
    have hnothing : (configured env).toOption = some none := by
      rw [configured, hdisable]
      rfl
    rw [hnothing, decision_eq_nothing]
    simp

/-- An environment with all three settings. -/
def settings (probe port disable : List Char) : Env := fun key =>
  if key = probeVar then some probe
  else if key = portVar then some port
  else if key = disableVar then some disable
  else none

theorem plain_settings {probe port disable : List Char} (hprobe : '\'' ∉ probe)
    (hport : '\'' ∉ port) (hdisable : '\'' ∉ disable) : Plain (settings probe port disable) := by
  intro key value hget
  rw [settings] at hget
  split at hget
  · cases hget
    exact hprobe
  · split at hget
    · cases hget
      exact hport
    · split at hget
      · cases hget
        exact hdisable
      · cases hget

/-- The port moved, and a flag that is no switch. -/
theorem configured_unitEnv_moved :
    (configured (unitEnv (settings "sim".toList "8099".toList "off".toList))).toOption =
      (configured (settings "sim".toList "8099".toList "off".toList)).toOption :=
  (configured_unitEnv_iff _ (plain_settings (by decide) (by decide) (by decide))).mpr
    (.inl (by decide))

/-- `READYZ_DISABLE=true` switches off the endpoint of the network images only. -/
theorem configured_disabled : ¬ ∀ env, Plain env →
    (configured (unitEnv env)).toOption = (configured env).toOption := by
  intro hsame
  have hserved := hsame (settings "uos".toList [] "true".toList)
    (plain_settings (by decide) (by decide) (by decide))
  revert hserved
  decide

end

end UnifiContainers.ReadyzEnv
