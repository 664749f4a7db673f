import UnifiContainers.Lib.Fallible
import UnifiContainers.Runtime.ConsoleId
import UnifiContainers.Runtime.SeedEnv
import UnifiContainers.Runtime.VendorCheck
import Mathlib.Logic.Function.Basic

/-!
# The stamps of the console

Each boot stamps the files under `/usr/lib` that the vendor's tooling reads; the build checks once,
in the image, that the tooling finds all of them. The stamps of a later boot come from the environment
of that boot.
-/

namespace UnifiContainers.Stamps

open PyText Regex SeedEnv VendorCheck Fallible

abbrev Text := List Char

/-- The text at a path; `none` where nothing can be opened. -/
abbrev Files := Text → Option Text

/-! ### The stamps -/

/-- `PLATFORMS` -/
def platforms : List (Text × Text) :=
  [("amd64".toList, "linux-x64".toList), ("x86_64".toList, "linux-x64".toList),
    ("arm64".toList, "arm64".toList), ("aarch64".toList, "arm64".toList)]

inductive Failure where
  | unsupported (arch : Text)
  /-- The random source cannot be read. -/
  | noSource
  deriving DecidableEq, Repr

/-- What the entrypoint prints of a `ValueError`. -/
def Failure.message : Failure → Text
  | .unsupported arch => "unsupported architecture: ".toList ++ arch
  | .noSource => []

def firmwarePlatform (arch : Text) : Except Failure Text :=
  (platforms.lookup arch).elim (.error (.unsupported arch)) .ok

/-- What a program prints and exits with. -/
structure Run where
  returncode : ℤ
  stdout : Text
  stderr : Text
  deriving DecidableEq, Repr

/-- What a container runs on. -/
structure Machine where
  /-- `dpkg --print-architecture`, where it can be run. -/
  dpkg : Option Run
  uname : Text
  randomSource : Option Text

def detectArch (machine : Machine) : Text :=
  match machine.dpkg with
  | none => machine.uname
  | some out =>
      if out.returncode = 0 ∧ strip out.stdout ≠ [] then strip out.stdout else machine.uname

def versionStamp (appModel appVersion : Text) : Text :=
  appModel ++ ".0000000.".toList ++ appVersion ++ ".0000000.000000.0000".toList

def platformPath : Text := "/usr/lib/platform".toList

def versionPath : Text := "/usr/lib/version".toList

def appModelPath : Text := "/usr/lib/app_model".toList

def productNamePath : Text := "/usr/lib/product_name".toList

/-- `env.get(name, "")` -/
def given (env : Env) (name : Text) : Text := (env name).getD []

def appModel (env : Env) : Text := given env "APP_MODEL".toList

def productName (env : Env) : Text := given env "PRODUCT_NAME".toList

def writeStamp (path value : Text) (files : Files) : Files :=
  Function.update files path (some (value ++ ['\n']))

def writeStamps (machine : Machine) (env : Env) (files : Files) : Except Failure Files := do
  let platform ← firmwarePlatform (detectArch machine)
  let files := writeStamp platformPath platform files
  let files := writeStamp versionPath
    (versionStamp (appModel env) (given env "APP_VERSION".toList)) files
  let files := writeStamp appModelPath (appModel env) files
  return writeStamp productNamePath (productName env) files

/-! ### The check -/

/-- Nothing but white space. -/
def Blank (text : Text) : Prop := ∀ c ∈ text, isSpace c = true

instance (text : Text) : Decidable (Blank text) := inferInstanceAs (Decidable (∀ c ∈ text, _))

/-- A file that is absent, or whose text strips to nothing. -/
def isMissing (files : Files) (path : Text) : Bool :=
  (files path).all fun raw => strip (universalNewlines raw) = []

def missingStamps (files : Files) (paths : List Text) : List Text :=
  paths.filter (isMissing files)

/-- `^board\.shortname=(.*)$` -/
def shortnameRe : Pattern Unit :=
  .ofLine (.seq (.lit "board.shortname=".toList) (.group () (.many true (.one (· ≠ '\n')))))

def reportedShortname (output : Text) : Option Text :=
  (Pattern.searchGroup shortnameRe () output).map strip

def ubntTools : Text := "/sbin/ubnt-tools".toList

def uuidPath : Text := "/data/uos_uuid".toList

inductive Complaint where
  | noModel
  | unreadable
  | unstamped (path : Text)
  | exited (run : Run)
  | shortname (reported : Option Text) (model : Text)
  deriving DecidableEq, Repr

/-- The printed line; `shown` is Python's `repr`, `reason` the text of the `OSError`. -/
def Complaint.message (shown : Option Text → Text) (str : ℤ → Text) (reason : Text) :
    Complaint → Text
  | .noModel => "vendorcheck: APP_MODEL is not set in the image environment".toList
  | .unreadable => "vendorcheck: cannot read ".toList ++ ubntTools ++ ": ".toList ++ reason
  | .unstamped path => "vendorcheck: ubnt-tools reads ".toList ++ path ++
      ", which nothing stamps".toList
  | .exited run => "vendorcheck: ubnt-tools id exited ".toList ++ str run.returncode ++
      ": ".toList ++ (strip (if run.stderr = [] then run.stdout else run.stderr)).take 200
  | .shortname reported model => "vendorcheck: ubnt-tools id reports board.shortname=".toList ++
      shown reported ++ ", expected ".toList ++ shown (some model)

/-- The console's identity, as `ensure_uuid` writes it where there is none. -/
def ensureUuid (machine : Machine) (env : Env) (files : Files) : Except Failure Files :=
  if (files uuidPath).isSome then .ok files
  else
    (ConsoleId.Boot.value ⟨env "UOS_UUID".toList, machine.randomSource, none⟩).elim
      (.error .noSource) fun value => .ok (writeStamp uuidPath value files)

/-- `vendorcheck.main`: what it prints; its exit status is zero where it prints nothing. The tool is
run on the stamped files. -/
def main (machine : Machine) (ubntToolsId : Files → Run) (env : Env) (files : Files) :
    Except Failure (List Complaint) := do
  if appModel env = [] then return [.noModel]
  let files ← writeStamps machine env files
  let files ← ensureUuid machine env files
  match files ubntTools with
  | none => return [.unreadable]
  | some raw =>
      let unstamped := (missingStamps files (stampReads (universalNewlines raw))).map .unstamped
      let run := ubntToolsId files
      let exited := if run.returncode ≠ 0 then [.exited run] else []
      let reported := reportedShortname run.stdout
      let misreported :=
        if reported ≠ some (appModel env) then [.shortname reported (appModel env)] else []
      return unstamped ++ exited ++ misreported

variable {machine : Machine} {env : Env} {files after : Files} {path text : Text}

/-! ### What a boot stamps -/

theorem strip_universalNewlines_eq_nil : strip (universalNewlines text) = [] ↔ Blank text := by
  rw [strip_eq_nil]
  constructor
  · intro h c hc
    by_contra hspace
    have hfalse := Bool.eq_false_iff.mpr hspace
    rw [h c (mem_universalNewlines hfalse hc)] at hfalse
    cases hfalse
  · intro h c hc
    by_cases hnewline : c = '\n'
    · subst hnewline
      decide
    · exact h c (mem_of_universalNewlines hc hnewline)

/-- The stamps of a boot. -/
def stamp (machine : Machine) (env : Env) (path : Text) : Option Text :=
  if path = productNamePath then some (productName env)
  else if path = appModelPath then some (appModel env)
  else if path = versionPath then
    some (versionStamp (appModel env) (given env "APP_VERSION".toList))
  else if path = platformPath then platforms.lookup (detectArch machine) else none

theorem writeStamps_ok (h : writeStamps machine env files = .ok after) (path : Text) :
    after path = ((stamp machine env path).map (· ++ ['\n'])).or (files path) := by
  rw [writeStamps] at h
  cases hplatform : platforms.lookup (detectArch machine) with
  | none =>
    rw [firmwarePlatform, hplatform] at h
    cases h
  | some platform =>
    rw [firmwarePlatform, hplatform] at h
    cases h
    rw [stamp, hplatform]
    simp only [writeStamp, Function.update_apply]
    split_ifs <;> rfl

def stampPaths : List Text := [platformPath, versionPath, appModelPath, productNamePath]

/-- A boot that gets so far stamps these paths and no others. -/
theorem isSome_stamp_iff (h : writeStamps machine env files = .ok after) :
    (stamp machine env path).isSome = true ↔ path ∈ stampPaths := by
  have hplatform : (platforms.lookup (detectArch machine)).isSome = true := by
    rw [writeStamps, firmwarePlatform] at h
    cases hlookup : platforms.lookup (detectArch machine) with
    | none =>
      rw [hlookup] at h
      cases h
    | some platform => rfl
  simp only [stampPaths, List.mem_cons, List.not_mem_nil, or_false]
  rw [stamp]
  split_ifs <;> simp_all

/-- A stamp that the environment of the boot leaves blank. -/
def FromBlank (env : Env) (path : Text) : Prop :=
  path = appModelPath ∧ Blank (appModel env) ∨ path = productNamePath ∧ Blank (productName env)

instance (env : Env) (path : Text) : Decidable (FromBlank env path) :=
  inferInstanceAs (Decidable (_ ∨ _))

theorem not_blank_versionStamp (appModel appVersion : Text) :
    ¬ Blank (versionStamp appModel appVersion) := by
  intro h
  have hdot : '.' ∈ versionStamp appModel appVersion := by simp [versionStamp]
  cases h '.' hdot

theorem not_blank_platform {arch platform : Text} (h : platforms.lookup arch = some platform) :
    ¬ Blank platform := by
  have hall : ∀ item ∈ platforms, ¬ Blank item.2 := by decide
  obtain ⟨before, after, hitems, -⟩ := List.lookup_eq_some_iff.mp h
  exact hall (arch, platform) (by simp [hitems])

theorem blank_stamp {value : Text} (h : stamp machine env path = some value) :
    Blank value ↔ FromBlank env path := by
  have hdistinct : productNamePath ≠ appModelPath ∧ versionPath ≠ appModelPath ∧
      versionPath ≠ productNamePath ∧ platformPath ≠ appModelPath ∧
      platformPath ≠ productNamePath := by decide
  rw [FromBlank]
  rw [stamp] at h
  split at h
  · rename_i hpath
    cases h
    subst hpath
    simp [hdistinct.1]
  · rename_i hname
    split at h
    · rename_i hpath
      cases h
      subst hpath
      simp [hname]
    · rename_i hmodel
      split at h
      · cases h
        simp [hname, hmodel, not_blank_versionStamp]
      · split at h
        · simp [hname, hmodel, not_blank_platform h]
        · cases h

/-- A stamped path is missing where its value is blank, any other path where it was before. -/
theorem isMissing_writeStamps (h : writeStamps machine env files = .ok after) (path : Text) :
    isMissing after path =
      if (stamp machine env path).isSome then decide (FromBlank env path) else isMissing files path := by
  rw [isMissing, writeStamps_ok h]
  cases hstamp : stamp machine env path with
  | none => rfl
  | some value =>
    have hblank : Blank (value ++ ['\n']) ↔ Blank value := by
      simp [Blank, or_imp, forall_and, show isSpace '\n' = true by decide]
    rw [Option.map_some, Option.some_or, Option.all_some, Option.isSome_some, if_pos rfl]
    exact decide_eq_decide.mpr
      (strip_universalNewlines_eq_nil.trans (hblank.trans (blank_stamp hstamp)))

/-! ### What the check promises -/

/-- What the vendor's script reads. -/
def reads (files : Files) : List Text :=
  (files ubntTools).elim [] fun raw => stampReads (universalNewlines raw)

theorem ne_uuidPath_of_mem {raw : Text} (h : path ∈ stampReads raw) : path ≠ uuidPath := by
  obtain ⟨body, -, ⟨name, -, -, hpath⟩, -⟩ := mem_stampReads.mp h
  have hsecond : path[1]? = some 'u' := by
    rw [hpath]
    rfl
  intro heq
  rw [heq] at hsecond
  exact absurd hsecond (by decide)

theorem ensureUuid_other {files : Files} (h : ensureUuid machine env files = .ok after)
    (hne : path ≠ uuidPath) : after path = files path := by
  rw [ensureUuid] at h
  split at h
  · cases h
    rfl
  · cases hvalue : ConsoleId.Boot.value ⟨env "UOS_UUID".toList, machine.randomSource, none⟩ with
    | none =>
      rw [hvalue] at h
      cases h
    | some value =>
      rw [hvalue] at h
      cases h
      exact Function.update_of_ne hne _ _

/-- An image that passes the check has everything the script reads, once it is stamped. -/
theorem not_missing_of_main {tool : Files → Run}
    (h : main machine tool env files = .ok []) (hpath : path ∈ reads files) :
    ∃ stamped, writeStamps machine env files = .ok stamped ∧ isMissing stamped path = false := by
  rw [main] at h
  split at h
  · cases h
  obtain ⟨stamped, hstamped, h⟩ := bind_ok h
  obtain ⟨ready, hready, h⟩ := bind_ok h
  have htools : ready ubntTools = files ubntTools := by
    have hstamp : stamp machine env ubntTools = none := by
      have hdistinct : ubntTools ≠ productNamePath ∧ ubntTools ≠ appModelPath ∧
        ubntTools ≠ versionPath ∧ ubntTools ≠ platformPath := by decide
      rw [stamp, if_neg hdistinct.1, if_neg hdistinct.2.1, if_neg hdistinct.2.2.1,
        if_neg hdistinct.2.2.2]
    rw [ensureUuid_other hready (by decide), writeStamps_ok hstamped, hstamp]
    rfl
  rw [htools] at h
  rw [reads] at hpath
  split at h
  · cases h
  · rename_i raw hraw
    rw [hraw, Option.elim_some] at hpath
    have hlist := Except.ok.inj h
    have hnone := (List.append_eq_nil_iff.mp (List.append_eq_nil_iff.mp hlist).1).1
    rw [List.map_eq_nil_iff, missingStamps, List.filter_eq_nil_iff] at hnone
    refine ⟨stamped, hstamped, ?_⟩
    have hmissing := Bool.eq_false_iff.mpr (hnone path hpath)
    rwa [isMissing, ensureUuid_other hready (ne_uuidPath_of_mem hpath), ← isMissing] at hmissing

/-- In an image that passes the check every boot stamps what the vendor's script reads, up to the
model and the product name, which are missing exactly where the boot's environment has them blank. -/
theorem missingStamps_boot (machine : Machine) (tool : Files → Run) (env : Env) (files : Files)
    (hcheck : main machine tool env files = .ok []) (machine' : Machine) (env' : Env)
    (files' after : Files) (hboot : writeStamps machine' env' files' = .ok after)
    (hsame : ∀ path ∈ reads files, path ∉ stampPaths → files' path = files path) :
    missingStamps after (reads files) =
      (reads files).filter fun path => decide (FromBlank env' path) := by
  rw [missingStamps]
  apply List.filter_congr
  intro path hpath
  rw [isMissing_writeStamps hboot]
  obtain ⟨stamped, hstamped, hfound⟩ := not_missing_of_main hcheck hpath
  split
  · rfl
  · rename_i hstamp
    rw [isSome_stamp_iff hboot] at hstamp
    rw [isMissing_writeStamps hstamped, if_neg (mt (isSome_stamp_iff hstamped).mp hstamp)] at hfound
    have hother : ¬ FromBlank env' path := by
      rintro (⟨rfl, -⟩ | ⟨rfl, -⟩) <;> exact hstamp (by decide)
    rw [isMissing, hsame path hpath hstamp, ← isMissing, hfound, decide_eq_false hother]

/-! An image whose script reads the product name, booted with a blank one. -/

def amd64 : Machine := ⟨some ⟨0, "amd64\n".toList, []⟩, "x86_64".toList, some "1b4e28ba\n".toList⟩

def tools : Text := "PRODUCT_NAME=$(cat /usr/lib/product_name)\n".toList

def toolsImage : Files := fun path => if path = ubntTools then some tools else none

def consoleEnv (productName : Text) : Env := fun name =>
  [("APP_MODEL".toList, "UOSSERVER".toList), ("PRODUCT_NAME".toList, productName)].lookup name

def idRun : Run := ⟨0, "board.sysid=0xae01\nboard.shortname=UOSSERVER\n".toList, []⟩

theorem stampReads_tools : stampReads (universalNewlines tools) = [productNamePath] := by
  have hfound : Pattern.findall stampReadRe () (universalNewlines tools) = [productNamePath] := by
    decide +kernel
  rw [stampReads, hfound, List.dedup_eq_self.mpr (List.nodup_singleton _),
    List.mergeSort_singleton]

theorem missingStamps_boot_blank :
    ∃ after, writeStamps amd64 (consoleEnv " ".toList) toolsImage = .ok after ∧
      missingStamps after (reads toolsImage) = [productNamePath] := by
  have hreads : reads toolsImage = [productNamePath] := stampReads_tools
  have hcheck : main amd64 (fun _ => idRun) (consoleEnv "uosserver".toList) toolsImage = .ok [] := by
    rw [main, if_neg (by decide)]
    show Except.ok (List.map Complaint.unstamped
      (missingStamps _ (stampReads (universalNewlines tools))) ++ _ ++ _) = _
    rw [stampReads_tools]
    decide +kernel
  refine ⟨_, rfl, ?_⟩
  rw [missingStamps_boot amd64 (fun _ => idRun) (consoleEnv "uosserver".toList) toolsImage hcheck
    amd64 (consoleEnv " ".toList) toolsImage _ rfl fun _ _ _ => rfl, hreads]
  decide +kernel

end UnifiContainers.Stamps
