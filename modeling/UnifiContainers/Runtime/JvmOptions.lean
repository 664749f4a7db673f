import UnifiContainers.Lib.OrderedDict
import UnifiContainers.Lib.Shlex
import UnifiContainers.Runtime.SeedEnv

/-!
# The options of the JVM

The vendor's helper leaves the options in `system_env` as one quoted assignment. The entrypoint
takes the quotes off when it reads the file and splits what is left a second time for the command
line, so that the words of the file and the words of the JVM are not always the same.
-/

namespace UnifiContainers.JvmOptions

open PyText Shlex OrderedDict SeedEnv

/-! ### The command line -/

def jvmOptsName : List Char := "UNIFI_JVM_OPTS".toList

/-- `DEFAULT_JVM_OPTS` -/
def defaultJvmOpts : List Char := "-Xmx1024M -XX:+UseParallelGC".toList

/-- `ADD_OPENS` -/
def addOpens : List (List Char) :=
  ["java.base/java.lang".toList, "java.base/java.time".toList,
    "java.base/sun.security.util".toList, "java.base/java.io".toList,
    "java.rmi/sun.rmi.transport".toList]

structure Paths where
  basedir : List Char
  datadir : List Char
  logdir : List Char
  rundir : List Char
  java : List Char

/-- The paths of the image. -/
def imagePaths : Paths where
  basedir := "/usr/lib/unifi".toList
  datadir := "/unifi/data".toList
  logdir := "/unifi/log".toList
  rundir := "/unifi/run".toList
  java := "/usr/bin/java".toList

/-- What stands before the options. -/
def leading (paths : Paths) : List Word :=
  [paths.java, "-Dfile.encoding=UTF-8".toList, "-Djava.awt.headless=true".toList,
    "-Dapple.awt.UIElement=true".toList, "-Dunifi.core.enabled=false".toList]

/-- What stands behind the options. -/
def trailing (paths : Paths) : List Word :=
  ["-XX:+ExitOnOutOfMemoryError".toList, "-XX:+CrashOnOutOfMemoryError".toList,
    "-XX:ErrorFile=".toList ++ paths.basedir ++ "/logs/hs_err_pid%p.log".toList,
    "-Dunifi.datadir=".toList ++ paths.datadir, "-Dunifi.logdir=".toList ++ paths.logdir,
    "-Dunifi.rundir=".toList ++ paths.rundir] ++
  (addOpens.flatMap fun package => ["--add-opens".toList, package ++ "=ALL-UNNAMED".toList]) ++
  ["-jar".toList, paths.basedir ++ "/lib/ace.jar".toList, "start".toList]

/-- `java_argv` -/
def javaArgv (paths : Paths) (jvmOpts : List Char) : Except Shlex.Error (List Word) := do
  let words ← split (if jvmOpts = [] then defaultJvmOpts else jvmOpts)
  return leading paths ++ words ++ trailing paths

/-! ### The file -/

/-- What a line of `system_env` assigns, the value as its words. -/
def assigned (line : List Char) : Option (List Char × List Word) :=
  let line := strip line
  if line = [] ∨ line.head? = some '#' ∨ '=' ∉ line then none
  else (split ((line.dropWhile (· ≠ '=')).drop 1)).toOption.map fun words =>
    (strip (line.takeWhile (· ≠ '=')), words)

/-- The lines of `system_env`, which may not be there. -/
def fileLines (file : Option (List Char)) : List (List Char) :=
  (file.map fun raw => splitlines (universalNewlines raw)).getD []

/-- `_read_shell_assignments` -/
def readShellAssignments (file : Option (List Char)) : List (List Char × List Char) :=
  (fileLines file).foldl (fun values line =>
    (assigned line).elim values fun item => set values item.1 (join item.2)) []

/-- `jvm_opts` -/
def jvmOpts (env : Env) (file : Option (List Char)) : List Char :=
  getOr (fun name => (readShellAssignments file).lookup name) jvmOptsName
    (getOr env jvmOptsName defaultJvmOpts)

/-- The line that the vendor's helper writes. -/
def vendorLine (words : List Word) : List Char :=
  jvmOptsName ++ '=' :: '"' :: (join words ++ ['"'])

/-- What can stand between the quotes of that line. -/
structure IsQuotable (w : Word) : Prop where
  unescaped : ∀ c ∈ w, c ≠ '"' ∧ c ≠ '\\'
  oneLine : ∀ c ∈ w, isLineBoundary c = false

variable {paths : Paths} {env : Env} {file : Option (List Char)} {words : List Word}
  {line raw before after : List Char}

/-! ### The last assignment of a name -/

theorem readShellAssignments_eq (file : Option (List Char)) : readShellAssignments file =
    ofItems (((fileLines file).filterMap assigned).map fun item => (item.1, join item.2)) := by
  rw [readShellAssignments, ofItems, update]
  generalize ([] : List (List Char × List Char)) = values
  induction fileLines file generalizing values with
  | nil => rfl
  | cons line lines ih =>
    rw [List.foldl_cons, ih]
    cases h : assigned line with
    | none => rw [List.filterMap_cons_none h, Option.elim_none]
    | some item => rw [List.filterMap_cons_some h, List.map_cons, List.foldl_cons, Option.elim_some]

theorem lookup_readShellAssignments (file : Option (List Char)) (name : List Char) :
    (readShellAssignments file).lookup name =
      (((fileLines file).filterMap assigned).reverse.lookup name).map join := by
  rw [readShellAssignments_eq, lookup_ofItems, ← List.map_reverse]
  induction ((fileLines file).filterMap assigned).reverse with
  | nil => rfl
  | cons item items ih =>
    rw [List.map_cons, List.lookup_cons, List.lookup_cons, ih]
    split <;> simp_all

/-- The words of the file that count. -/
def fileWords (file : Option (List Char)) : Option (List Word) :=
  ((fileLines file).filterMap assigned).reverse.lookup jvmOptsName

theorem jvmOpts_of_fileWords (env : Env) (h : fileWords file = some words) (hne : join words ≠ []) :
    jvmOpts env file = join words := by
  have hlookup : (readShellAssignments file).lookup jvmOptsName = some (join words) := by
    rw [lookup_readShellAssignments, ← fileWords, h, Option.map_some]
  rw [jvmOpts, getOr, hlookup]
  split
  · rename_i heq
    cases heq
  · rename_i heq
    exact absurd (Option.some.inj heq) hne
  · rename_i heq
    exact (Option.some.inj heq).symm

theorem javaArgv_ok_iff {opts : List Char} (hne : opts ≠ []) :
    javaArgv paths opts = .ok (leading paths ++ words ++ trailing paths) ↔
      split opts = .ok words := by
  rw [javaArgv, if_neg hne]
  cases split opts with
  | error e => exact ⟨fun h => (by cases h), fun h => (by cases h)⟩
  | ok cut =>
    constructor
    · intro h
      have hargv := List.append_cancel_right (Except.ok.inj h)
      rw [List.append_cancel_left hargv]
    · intro h
      rw [Except.ok.inj h]
      rfl

/-- The JVM gets the words of the file as they are exactly where none of them needs a quote. -/
theorem javaArgv_fileWords_iff (paths : Paths) (env : Env) {file : Option (List Char)}
    {words : List Word} (h : fileWords file = some words) (hne : join words ≠ []) :
    javaArgv paths (jvmOpts env file) = .ok (leading paths ++ words ++ trailing paths) ↔
      ∀ w ∈ words, IsPlain w := by
  rw [jvmOpts_of_fileWords env h hne, javaArgv_ok_iff hne, split_join_iff]

/-- A property whose value has a blank in it. -/
def spacedWords : List Word := ["-Da=b c".toList, "-Xmx1M".toList]

def spacedFile : List Char := "# tuned\nUNIFI_JVM_OPTS=-Da='b c' -Xmx1M\nOTHER='\n".toList

theorem javaArgv_spaced : javaArgv imagePaths (jvmOpts (fun _ => none) (some spacedFile)) ≠
    .ok (leading imagePaths ++ spacedWords ++ trailing imagePaths) := by
  have hfile : fileWords (some spacedFile) = some spacedWords := by decide +kernel
  intro h
  have hplain := (javaArgv_fileWords_iff imagePaths (fun _ => none) hfile (by decide)).mp h
    "-Da=b c".toList List.mem_cons_self
  exact absurd (hplain.chars ' ' (by decide)).1 (by decide)

/-! ### The line of the vendor's helper -/

theorem not_mem_vendorLine (hwords : ∀ w ∈ words, IsQuotable w) {c : Char}
    (hc : isLineBoundary c = true) : c ∉ vendorLine words := by
  have hname : ∀ d ∈ jvmOptsName, isLineBoundary d = false := by decide
  intro hmem
  rcases List.mem_append.mp hmem with hmem | hmem
  · rw [hname c hmem] at hc
    cases hc
  · rcases List.mem_cons.mp hmem with rfl | hmem
    · cases hc
    rcases List.mem_cons.mp hmem with rfl | hmem
    · cases hc
    rcases List.mem_append.mp hmem with hmem | hmem
    · rcases mem_join hmem with rfl | ⟨w, hw, hmem⟩
      · cases hc
      · rw [(hwords w hw).oneLine c hmem] at hc
        cases hc
    · cases List.mem_singleton.mp hmem
      cases hc

theorem assigned_vendorLine (hwords : ∀ w ∈ words, IsQuotable w) :
    assigned (vendorLine words) = some (jvmOptsName, [join words]) := by
  have hstrip : strip (vendorLine words) = vendorLine words := by
    refine strip_of_ends (fun c hc => ?_) fun c hc => ?_
    · cases hc
      decide
    · have hlast : (vendorLine words).getLast? = some '"' := by
        simp [vendorLine, List.getLast?_append, List.getLast?_cons]
      cases hlast.symm.trans hc
      decide
  have hname : ∀ c ∈ jvmOptsName, (decide (c ≠ '=')) = true := by decide
  have hkey : (vendorLine words).takeWhile (· ≠ '=') = jvmOptsName := by
    rw [vendorLine, List.takeWhile_append_of_pos hname]
    simp
  have hvalue : (vendorLine words).dropWhile (· ≠ '=') = '=' :: '"' :: (join words ++ ['"']) := by
    rw [vendorLine, List.dropWhile_append_of_pos hname]
    simp
  have hassigns : ¬ (vendorLine words = [] ∨ (vendorLine words).head? = some '#' ∨
      '=' ∉ vendorLine words) := by
    rintro (hnil | hcomment | habsent)
    · cases hnil
    · cases hcomment
    · exact habsent (List.mem_append_right _ List.mem_cons_self)
  have hquoted : ∀ c ∈ join words, c ≠ '"' ∧ c ≠ '\\' := by
    intro c hc
    rcases mem_join hc with rfl | ⟨w, hw, hc⟩
    · decide
    · exact (hwords w hw).unescaped c hc
  have hbare : strip jvmOptsName = jvmOptsName := by
    have hhead : jvmOptsName.head? = some 'U' := rfl
    have hlast : jvmOptsName.getLast? = some 'S' := rfl
    refine strip_of_ends (fun c hc => ?_) fun c hc => ?_
    · cases hhead.symm.trans hc
      decide
    · cases hlast.symm.trans hc
      decide
  rw [assigned, hstrip, if_neg hassigns, hkey, hvalue, List.drop_one, List.tail_cons,
    split_double hquoted, hbare]
  rfl

theorem fileLines_vendorLine (hwords : ∀ w ∈ words, IsQuotable w)
    (hbefore : before = [] ∨ before.getLast? = some '\n') (after : List Char) :
    fileLines (some (before ++ vendorLine words ++ '\n' :: after)) =
      fileLines (some before) ++ vendorLine words :: fileLines (some after) := by
  have hline : ∀ c ∈ vendorLine words, isLineBoundary c = false := fun c hc =>
    Bool.eq_false_iff.mpr fun hcut => not_mem_vendorLine hwords hcut hc
  have hreturn : '\r' ∉ vendorLine words := not_mem_vendorLine hwords (by decide)
  have htail : universalNewlines (vendorLine words ++ '\n' :: after) =
      vendorLine words ++ '\n' :: universalNewlines after := by
    rw [universalNewlines_append _ hreturn, universalNewlines]
    · intro rest heq
      exact absurd heq (by decide)
    · intro heq
      exact absurd heq (by decide)
  have hcut : splitlines (vendorLine words ++ '\n' :: universalNewlines after) =
      vendorLine words :: splitlines (universalNewlines after) := by
    rw [splitlines, splitlinesFrom_newline hreturn, splitlinesFrom_line hline]
    rfl
  have hwhole : universalNewlines (before ++ (vendorLine words ++ '\n' :: after)) =
      universalNewlines before ++ universalNewlines (vendorLine words ++ '\n' :: after) :=
    universalNewlines_append_cons before _ (c := 'U') (by decide)
  simp only [fileLines, Option.map_some, Option.getD_some]
  rw [List.append_assoc, hwhole, htail]
  rcases hbefore with rfl | hbefore
  · exact hcut
  · obtain ⟨s, hs⟩ := List.getLast?_eq_some_iff.mp (getLast?_universalNewlines hbefore)
    have hclean : '\r' ∉ s := fun hmem => return_not_mem_universalNewlines before (by
      rw [hs]
      exact List.mem_append_left _ hmem)
    rw [hs, List.append_assoc, List.singleton_append, splitlines, splitlinesFrom_newline hclean,
      hcut]
    rfl

/-- Whatever stands before the vendor's line in the file, and whatever stands behind it but another
assignment of the name, the JVM gets the words between its quotes exactly where no word needs a quote
itself. -/
theorem javaArgv_vendorLine_iff (paths : Paths) (env : Env) {before after : List Char}
    (words : List Word) (hwords : ∀ w ∈ words, IsQuotable w) (hne : join words ≠ [])
    (hbefore : before = [] ∨ before.getLast? = some '\n')
    (hafter : fileWords (some after) = none) :
    javaArgv paths (jvmOpts env (some (before ++ vendorLine words ++ '\n' :: after))) =
        .ok (leading paths ++ words ++ trailing paths) ↔
      ∀ w ∈ words, IsPlain w := by
  have hfile : fileWords (some (before ++ vendorLine words ++ '\n' :: after)) =
      some [join words] := by
    rw [fileWords, fileLines_vendorLine hwords hbefore, List.filterMap_append,
      List.filterMap_cons_some (assigned_vendorLine hwords), List.reverse_append,
      List.reverse_cons, List.append_assoc, List.lookup_append, ← fileWords, hafter, Option.none_or,
      List.singleton_append, List.lookup_cons, beq_self_eq_true]
  have hjoin : join [join words] = join words := List.intercalate_singleton
  have hopts := jvmOpts_of_fileWords env hfile (by rwa [hjoin])
  rw [hopts, hjoin, javaArgv_ok_iff hne, split_join_iff]

def vendorWords : List Word := ["-Xmx512M".toList, "-XX:+UseParallelGC".toList]

theorem javaArgv_vendorLine_example :
    javaArgv imagePaths (jvmOpts (fun _ => some "-Xmx64M".toList)
        (some ("OTHER='\n".toList ++ vendorLine vendorWords ++ '\n' :: "OTHER=1\n".toList))) =
      .ok (leading imagePaths ++ vendorWords ++ trailing imagePaths) := by
  refine (javaArgv_vendorLine_iff imagePaths _ vendorWords ?_ (by decide)
    (.inr (by decide)) ?_).mpr ?_
  · intro w hw
    rcases List.mem_pair.mp hw with rfl | rfl <;> exact ⟨by decide, by decide⟩
  · decide +kernel
  · intro w hw
    rcases List.mem_pair.mp hw with rfl | rfl <;> exact ⟨by decide, by decide⟩

end UnifiContainers.JvmOptions
