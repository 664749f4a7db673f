import UnifiContainers.Runtime.SeedEnv
import Mathlib.Algebra.Ring.Int.Defs

/-!
# The demo fleet

The init hook writes the fleet's size into `system.properties`, which outlives the container; the
probe computes the size it waits for from the environment of the container it runs in.
-/

namespace UnifiContainers.Fleet

open PyText SeedEnv

/-! ### The properties file -/

/-- What the callers rely on of the properties library: a text loads into a mapping or is refused,
setting a key changes that key, and a text dumped from a mapping loads into the same mapping. -/
structure PropertiesFile (Text Props : Type) where
  loads : Text → Option Props
  dumps : Props → Text
  get : Props → List Char → Option (List Char)
  set : Props → List Char → List Char → Props
  empty : Text
  get_set : ∀ props key value other,
    get (set props key value) other = if other = key then some value else get props other
  loads_dumps : ∀ props, ∃ props', loads (dumps props) = some props' ∧ get props' = get props
  loads_empty : ∃ props, loads empty = some props ∧ ∀ key, get props key = none

section

variable {Text Props : Type} (lib : PropertiesFile Text Props)

/-- `sysprops.merge`; `none` is a text the library refuses. -/
def merge (existing : Text) (updates : List (List Char × List Char)) (onlyIfAbsent : Bool) :
    Option Text :=
  (lib.loads existing).map fun props =>
    lib.dumps (updates.foldl (fun props update =>
      if onlyIfAbsent && (lib.get props update.1).isSome then props
      else lib.set props update.1 update.2) props)

/-- `sysprops.parse`, one key. -/
def parse (text : Text) (key : List Char) : Option (List Char) :=
  (lib.loads text).bind fun props => lib.get props key

/-! ### The hook and the probe -/

inductive Device where
  | uap
  | ugw
  | usw
  deriving DecidableEq, Repr

def Device.property : Device → List Char
  | .uap => "demo.num_uap".toList
  | .ugw => "demo.num_ugw".toList
  | .usw => "demo.num_usw".toList

def Device.variable : Device → List Char
  | .uap => "DEMO_NUM_UAP".toList
  | .ugw => "DEMO_NUM_UGW".toList
  | .usw => "DEMO_NUM_USW".toList

def Device.default : Device → List Char
  | .uap => "3".toList
  | .ugw => "1".toList
  | .usw => "5".toList

def devices : List Device := [.uap, .ugw, .usw]

def demoSetting (env : Env) (device : Device) : List Char :=
  getOr env device.variable device.default

def demoSettings (env : Env) : List (List Char × List Char) :=
  ("is_simulation".toList, "true".toList) ::
    devices.map fun device => (device.property, demoSetting env device)

/-- `demo.apply` on the text of the file, `none` when it cannot be opened. -/
def apply (existing : Option Text) (env : Env) : Option Text :=
  merge lib (existing.getD lib.empty) (demoSettings env) true

def expectedFleet (env : Env) : ℤ :=
  let total := (devices.map fun device => (parseInt? (demoSetting env device)).getD 0).sum
  match env "SIM_EXPECT_DEVICES".toList with
  | none | some [] => total
  | some override => (parseInt? override).getD total

/-- The devices whose number the file holds already. -/
def heldDevices (text : Text) : List Device :=
  devices.filter fun device => (parse lib text device.property).isSome

/-- The number a text stands for, 0 when it stands for none. -/
def number (value : Option (List Char)) : ℤ := (value.bind parseInt?).getD 0

/-- The devices that the file has the controller simulate. -/
def fleetOf (text : Text) : ℤ :=
  (devices.map fun device => number (parse lib text device.property)).sum

variable {lib : PropertiesFile Text Props} {existing after : Text}

theorem get_foldl_absent (props : Props) (updates : List (List Char × List Char))
    (key : List Char) :
    lib.get (updates.foldl (fun props update =>
      if true && (lib.get props update.1).isSome then props
      else lib.set props update.1 update.2) props) key =
      (lib.get props key).or (updates.lookup key) := by
  induction updates generalizing props with
  | nil => simp
  | cons update updates ih =>
    obtain ⟨name, value⟩ := update
    rw [List.foldl_cons, ih, List.lookup_cons]
    by_cases hkey : key = name
    · subst hkey
      cases hget : lib.get props key with
      | none => simp [lib.get_set]
      | some held => simp [hget]
    · have hne : (key == name) = false := by simp [hkey]
      rw [hne]
      cases hget : lib.get props name with
      | none => simp [lib.get_set, hkey]
      | some held => simp

/-- A key that the file holds keeps its value, and the others are added. -/
theorem parse_merge (updates : List (List Char × List Char))
    (h : merge lib existing updates true = some after) (key : List Char) :
    parse lib after key = (parse lib existing key).or (updates.lookup key) := by
  obtain ⟨props, hloads, hafter⟩ := Option.map_eq_some_iff.mp h
  obtain ⟨props', hreload, hget⟩ := lib.loads_dumps (updates.foldl (fun props update =>
      if true && (lib.get props update.1).isSome then props
      else lib.set props update.1 update.2) props)
  rw [parse, parse, ← hafter, hreload, hloads]
  show lib.get props' key = (lib.get props key).or (updates.lookup key)
  rw [hget, get_foldl_absent]

theorem lookup_demoSettings (env : Env) (device : Device) :
    (demoSettings env).lookup device.property = some (demoSetting env device) := by
  cases device <;> rfl

theorem number_after {env : Env} {file : Option Text} (h : apply lib file env = some after)
    (device : Device) :
    number (parse lib after device.property) =
      if (parse lib (file.getD lib.empty) device.property).isSome
      then number (parse lib (file.getD lib.empty) device.property)
      else number (some (demoSetting env device)) := by
  rw [parse_merge _ h, lookup_demoSettings]
  cases parse lib (file.getD lib.empty) device.property <;> rfl

theorem sum_if_eq_iff {ι : Type} (items : List ι) (held : ι → Bool) (a b : ι → ℤ) :
    (items.map fun i => if held i then a i else b i).sum - (items.map b).sum =
      ((items.filter held).map a).sum - ((items.filter held).map b).sum := by
  induction items with
  | nil => rfl
  | cons i items ih =>
    simp only [List.map_cons, List.sum_cons, List.filter_cons]
    split
    · simp only [List.map_cons, List.sum_cons]
      omega
    · omega

/-- The probe waits for the devices that the file has the controller simulate exactly if the numbers
the file held before add up to what the environment asks for in their place. -/
theorem expectedFleet_eq_iff (lib : PropertiesFile Text Props) (env : Env) (file : Option Text)
    (hsim : env "SIM_EXPECT_DEVICES".toList = none) (h : apply lib file env = some after) :
    expectedFleet env = fleetOf lib after ↔
      ((heldDevices lib (file.getD lib.empty)).map fun device =>
        number (parse lib (file.getD lib.empty) device.property)).sum =
      ((heldDevices lib (file.getD lib.empty)).map fun device =>
        number (some (demoSetting env device))).sum := by
  have hsum := sum_if_eq_iff devices
    (fun device => (parse lib (file.getD lib.empty) device.property).isSome)
    (fun device => number (parse lib (file.getD lib.empty) device.property))
    (fun device => number (some (demoSetting env device)))
  have hexpected : expectedFleet env =
      (devices.map fun device => number (some (demoSetting env device))).sum := by
    rw [expectedFleet, hsim]
    rfl
  rw [fleetOf, hexpected, heldDevices]
  simp only [number_after h]
  omega

/-- On a volume without the file the two agree. -/
theorem expectedFleet_fresh (env : Env) (hsim : env "SIM_EXPECT_DEVICES".toList = none)
    (h : apply lib none env = some after) : expectedFleet env = fleetOf lib after := by
  rw [expectedFleet_eq_iff lib env none hsim h]
  obtain ⟨props, hloads, hempty⟩ := lib.loads_empty
  have hheld : heldDevices lib lib.empty = [] := by
    rw [heldDevices, List.filter_eq_nil_iff]
    intro device _
    simp [parse, hloads, hempty]
  rw [Option.getD_none, hheld]
  rfl

/-- A file as the list of its entries, each key once. -/
def entryFile : PropertiesFile (List (List Char × List Char)) (List (List Char × List Char)) where
  loads := some
  dumps := id
  get props key := props.lookup key
  set props key value := (key, value) :: props
  empty := []
  get_set props key value other := by
    rw [List.lookup_cons]
    by_cases h : other = key
    · simp [h]
    · have hne : (other == key) = false := by simp [h]
      simp [h, hne]
  loads_dumps props := ⟨props, rfl, rfl⟩
  loads_empty := ⟨[], rfl, fun _ => rfl⟩

theorem expectedFleet_eq_iff_restarted :
    expectedFleet (fun _ => none) = fleetOf entryFile
      [("demo.num_usw".toList, "5".toList), ("demo.num_ugw".toList, "1".toList),
        ("is_simulation".toList, "true".toList), ("demo.num_uap".toList, "3".toList)] ↔
      ((heldDevices entryFile [("demo.num_uap".toList, "3".toList)]).map fun device =>
        number (parse entryFile [("demo.num_uap".toList, "3".toList)] device.property)).sum =
      ((heldDevices entryFile [("demo.num_uap".toList, "3".toList)]).map fun device =>
        number (some (demoSetting (fun _ => none) device))).sum :=
  expectedFleet_eq_iff entryFile (fun _ => none) (some [("demo.num_uap".toList, "3".toList)]) rfl rfl

/-- The volume was first booted with 99 access points. -/
theorem expectedFleet_stale :
    ∃ after, apply entryFile (some [("demo.num_uap".toList, "99".toList)]) (fun _ => none) =
      some after ∧ expectedFleet (fun _ => none) = 9 ∧ fleetOf entryFile after = 105 := by
  refine ⟨_, rfl, ?_, ?_⟩
  · decide
  · decide

end

end UnifiContainers.Fleet
