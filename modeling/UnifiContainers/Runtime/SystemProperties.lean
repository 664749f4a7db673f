import UnifiContainers.Runtime.Fleet

/-!
# The writers of `system.properties`

The network entrypoint and the demo hook both add the keys they need to a file that the application
rewrites itself. One merges before it opens the file for writing, the other after, when the old
bytes are gone.
-/

namespace UnifiContainers.SystemProperties

open SeedEnv Fleet

/-! ### The file -/

/-- How a text file holds a text, and what bytes it cannot read as one. -/
structure TextFile (Bytes Text : Type) where
  decode : Bytes → Option Text
  encode : Text → Bytes
  decode_encode : ∀ text, decode (encode text) = some text

inductive WriteError where
  | undecodable
  | invalidEscape
  deriving DecidableEq, Repr

/-- A writer of the one file, which is `none` where there is none yet. -/
abbrev Writer (Bytes : Type) := EStateM WriteError (Option Bytes)

section

variable {Bytes Text Props : Type} (lib : PropertiesFile Text Props) (text : TextFile Bytes Text)

def readExisting : Writer Bytes Text := fun file =>
  match file with
  | none => .ok lib.empty file
  | some bytes =>
      match text.decode bytes with
      | none => .error .undecodable file
      | some existing => .ok existing file

/-- `open(path, "w")` -/
def openForWriting : Writer Bytes Unit := fun _ => .ok () (some (text.encode lib.empty))

def write (written : Text) : Writer Bytes Unit := fun _ => .ok () (some (text.encode written))

/-- `sysprops.merge` with `only_if_absent`, which may raise. -/
def mergeAbsent (existing : Text) (updates : List (List Char × List Char)) : Writer Bytes Text :=
  match merge lib existing updates true with
  | none => throw .invalidEscape
  | some merged => return merged

def syspropsDefaults : List (List Char × List Char) :=
  [("unifi.http.port".toList, "8080".toList), ("unifi.https.port".toList, "8443".toList)]

/-- `network.write_system_properties` -/
def writeSystemProperties [DecidableEq Text]
    (settings : Option (List (List Char × List Char))) : Writer Bytes Text := do
  let existing ← readExisting lib text
  let merged ← mergeAbsent lib existing (settings.getD syspropsDefaults)
  if merged = existing then return merged
  openForWriting lib text
  write text merged
  return merged

/-- `demo.apply` -/
def demoApply (env : Env) : Writer Bytes Unit := do
  let existing ← readExisting lib text
  openForWriting lib text
  write text (← mergeAbsent lib existing (demoSettings env))

/-- The value that the file gives a key. -/
def held (file : Option Bytes) (key : List Char) : Option (List Char) :=
  (file.bind text.decode).bind fun existing => Fleet.parse lib existing key

/-- A writer that raises leaves the file as it was, and one that succeeds every key it held. -/
structure LeavesAlone {α : Type} (writer : Writer Bytes α) (file : Option Bytes) : Prop where
  refused : ∀ e after, writer file = .error e after → after = file
  kept : ∀ a after, writer file = .ok a after →
    ∀ key value, held lib text file key = some value → held lib text after key = some value

/-- The library loads the text of the file, if the file holds one. -/
def Loadable (file : Option Bytes) : Prop :=
  ∀ existing, file.bind text.decode = some existing → (lib.loads existing).isSome = true

end

/-! ### Where each writer may raise -/

section

variable {Bytes Text Props : Type} {lib : PropertiesFile Text Props} {text : TextFile Bytes Text}
  {file : Option Bytes} {existing merged : Text}

theorem held_encode (written : Text) (key : List Char) :
    held lib text (some (text.encode written)) key = Fleet.parse lib written key := by
  rw [held, Option.bind_some, text.decode_encode, Option.bind_some]

/-- Bytes that are no text stop both writers before anything else happens. -/
theorem readExisting_cases (lib : PropertiesFile Text Props) (text : TextFile Bytes Text)
    (file : Option Bytes) :
    (file.bind text.decode = none ∧ readExisting lib text file = .error .undecodable file) ∨
      ∃ existing, readExisting lib text file = .ok existing file ∧
        (file = none ∧ existing = lib.empty ∨ file.bind text.decode = some existing) := by
  cases file with
  | none => exact .inr ⟨lib.empty, rfl, .inl ⟨rfl, rfl⟩⟩
  | some bytes =>
    rw [Option.bind_some]
    cases hdecode : text.decode bytes with
    | none => exact .inl ⟨rfl, by simp only [readExisting, hdecode]⟩
    | some existing => exact .inr ⟨existing, by simp only [readExisting, hdecode], .inr rfl⟩

theorem writeSystemProperties_of_read [DecidableEq Text]
    (settings : Option (List (List Char × List Char)))
    (hread : readExisting lib text file = .ok existing file) :
    writeSystemProperties lib text settings file =
      match merge lib existing (settings.getD syspropsDefaults) true with
      | none => .error .invalidEscape file
      | some merged =>
          .ok merged (if merged = existing then file else some (text.encode merged)) := by
  show EStateM.bind (readExisting lib text) _ file = _
  rw [EStateM.bind, hread]
  simp only
  show EStateM.bind (mergeAbsent lib existing _) _ file = _
  rw [EStateM.bind, mergeAbsent]
  cases merge lib existing (settings.getD syspropsDefaults) true with
  | none => rfl
  | some merged =>
    by_cases heq : merged = existing
    · simp [heq, pure, EStateM.pure]
    · simp [heq, pure, EStateM.pure]
      rfl

theorem demoApply_of_read (env : Env) (hread : readExisting lib text file = .ok existing file) :
    demoApply lib text env file =
      match merge lib existing (demoSettings env) true with
      | none => .error .invalidEscape (some (text.encode lib.empty))
      | some merged => .ok () (some (text.encode merged)) := by
  show EStateM.bind (readExisting lib text) _ file = _
  rw [EStateM.bind, hread]
  show EStateM.bind (mergeAbsent lib existing _) _ (some (text.encode lib.empty)) = _
  rw [EStateM.bind, mergeAbsent]
  cases merge lib existing (demoSettings env) true <;> rfl

theorem writeSystemProperties_of_undecodable [DecidableEq Text]
    {settings : Option (List (List Char × List Char))}
    (hread : readExisting lib text file = .error .undecodable file) :
    writeSystemProperties lib text settings file = .error .undecodable file := by
  show EStateM.bind (readExisting lib text) _ file = _
  rw [EStateM.bind, hread]

theorem demoApply_of_undecodable {env : Env}
    (hread : readExisting lib text file = .error .undecodable file) :
    demoApply lib text env file = .error .undecodable file := by
  show EStateM.bind (readExisting lib text) _ file = _
  rw [EStateM.bind, hread]

/-- Whatever was read, the text merged into it holds the keys that the file held. -/
theorem held_merged {updates : List (List Char × List Char)}
    (hread : file = none ∧ existing = lib.empty ∨ file.bind text.decode = some existing)
    (hmerge : merge lib existing updates true = some merged) {key value : List Char}
    (hheld : held lib text file key = some value) :
    held lib text (some (text.encode merged)) key = some value := by
  rw [held_encode, parse_merge updates hmerge]
  rcases hread with hnone | hdecoded
  · rw [hnone.1] at hheld
    cases hheld
  · rw [held, hdecoded, Option.bind_some] at hheld
    rw [hheld, Option.some_or]

/-! ### The two writers -/

theorem leavesAlone_of_error {α : Type} {writer : Writer Bytes α} {e : WriteError}
    (h : writer file = .error e file) : LeavesAlone lib text writer file := by
  constructor
  · intro other after hother
    cases h.symm.trans hother
    rfl
  · intro a after hok
    cases h.symm.trans hok

/-- The network entrypoint's writer merges before it touches the file. -/
theorem writeSystemProperties_leavesAlone [DecidableEq Text] (lib : PropertiesFile Text Props)
    (text : TextFile Bytes Text) (settings : Option (List (List Char × List Char)))
    (file : Option Bytes) :
    LeavesAlone lib text (writeSystemProperties lib text settings) file := by
  rcases readExisting_cases lib text file with ⟨-, hread⟩ | ⟨existing, hread, hexisting⟩
  · exact leavesAlone_of_error (writeSystemProperties_of_undecodable hread)
  · have hrun := writeSystemProperties_of_read settings hread
    cases hmerge : merge lib existing (settings.getD syspropsDefaults) true with
    | none =>
      rw [hmerge] at hrun
      exact leavesAlone_of_error hrun
    | some merged =>
      rw [hmerge] at hrun
      constructor
      · intro e after herror
        cases hrun.symm.trans herror
      · intro written after hok key value hheld
        cases hrun.symm.trans hok
        split
        · exact hheld
        · exact held_merged hexisting hmerge hheld

theorem merge_eq_none {updates : List (List Char × List Char)} :
    merge lib existing updates true = none ↔ lib.loads existing = none := Option.map_eq_none_iff

/-- The demo hook's has emptied the file when the merge raises. -/
theorem demoApply_leavesAlone_iff (lib : PropertiesFile Text Props) (text : TextFile Bytes Text)
    (env : Env) (file : Option Bytes) :
    LeavesAlone lib text (demoApply lib text env) file ↔ Loadable lib text file := by
  obtain ⟨empty, hempty, -⟩ := lib.loads_empty
  rcases readExisting_cases lib text file with ⟨hnone, hread⟩ | ⟨existing, hread, hexisting⟩
  · refine iff_of_true (leavesAlone_of_error (demoApply_of_undecodable hread)) ?_
    intro existing hdecode
    cases hnone.symm.trans hdecode
  · have hrun := demoApply_of_read env hread
    cases hmerge : merge lib existing (demoSettings env) true with
    | none =>
      have hloads : lib.loads existing = none := merge_eq_none.mp hmerge
      rw [hmerge] at hrun
      constructor
      · intro hleaves
        have hfile := hleaves.refused .invalidEscape _ hrun
        -- Only a file that was empty all along can be as it was.
        have hsame : existing = lib.empty := by
          rcases hexisting with hnone | hdecode
          · exact hnone.2
          · rw [← hfile, Option.bind_some, text.decode_encode] at hdecode
            exact (Option.some.inj hdecode).symm
        rw [hsame, hempty] at hloads
        cases hloads
      · intro hloadable
        rcases hexisting with hnone | hdecode
        · rw [hnone.2, hempty] at hloads
          cases hloads
        · have hsome := hloadable existing hdecode
          rw [hloads] at hsome
          cases hsome
    | some merged =>
      rw [hmerge] at hrun
      refine iff_of_true ⟨?_, ?_⟩ ?_
      · intro e after herror
        cases hrun.symm.trans herror
      · intro a after hok key value hheld
        cases hrun.symm.trans hok
        exact held_merged hexisting hmerge hheld
      · intro other hdecode
        rcases hexisting with hnone | hexisting
        · rw [hnone.1] at hdecode
          cases hdecode
        · cases hexisting.symm.trans hdecode
          rw [Option.isSome_iff_ne_none]
          intro hloads
          cases (merge_eq_none.mpr hloads).symm.trans hmerge

/-- Both writers leave the file alone, whatever it holds and whatever is set, exactly if the library
loads the text of the file or there is none. -/
theorem writers_leaveAlone_iff [DecidableEq Text] (lib : PropertiesFile Text Props)
    (text : TextFile Bytes Text) (settings : Option (List (List Char × List Char))) (env : Env)
    (file : Option Bytes) :
    LeavesAlone lib text (writeSystemProperties lib text settings) file ∧
        LeavesAlone lib text (demoApply lib text env) file ↔
      Loadable lib text file := by
  rw [demoApply_leavesAlone_iff]
  exact and_iff_right (writeSystemProperties_leavesAlone lib text settings file)

/-- A file is its entries, each key once, or a text with a malformed escape. -/
inductive EscapedText where
  | entries (list : List (List Char × List Char))
  | malformed (line : List Char)
  deriving DecidableEq, Repr

def escapedFile : PropertiesFile EscapedText (List (List Char × List Char)) where
  loads
    | .entries list => some list
    | .malformed _ => none
  dumps := .entries
  get := entryFile.get
  set := entryFile.set
  empty := .entries []
  get_set := entryFile.get_set
  loads_dumps props := ⟨props, rfl, rfl⟩
  loads_empty := ⟨[], rfl, fun _ => rfl⟩

def plainTexts : TextFile EscapedText EscapedText where
  decode := some
  encode := id
  decode_encode _ := rfl

/-- A path with a backslash and a `u` in it, as the demo hook reads it. -/
theorem demoApply_empties : ¬ ∀ settings env file,
    LeavesAlone escapedFile plainTexts (writeSystemProperties escapedFile plainTexts settings) file ∧
      LeavesAlone escapedFile plainTexts (demoApply escapedFile plainTexts env) file := by
  intro hleaves
  have hboth := hleaves none (fun _ => none) (some (.malformed "debug.dir=C:\\unifi".toList))
  have hemptied := hboth.2.refused .invalidEscape (some (.entries [])) rfl
  cases hemptied

end

end UnifiContainers.SystemProperties
