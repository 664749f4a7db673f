import Mathlib.Data.Char
import Mathlib.Data.List.Lex
import UnifiContainers.Lib.Fallible
import UnifiContainers.Updaters.Pins

/-!
# What the updaters read and how they fail

The records of the firmware API, what can be raised on the way to a bump, and the computation a
bump is: it may fail, and the files it has written by then stay written.
-/

namespace UnifiContainers.Updaters

open Pins PyText

/-- A record of the firmware API; a field that is absent is `none`. -/
structure Firmware where
  channel : Option Text
  platform : Option Text
  version : Option Text
  versionMajor : Option ℕ
  versionMinor : Option ℕ
  versionPatch : Option ℕ
  href : Option Text
  sha256Checksum : Option Text
  deriving DecidableEq, Repr

/-- A parsed answer; `none` where it has no `_embedded` or no `firmware` in it. -/
abbrev Payload := Option (List Firmware)

/-- What the code itself raises, with what its message names. -/
inductive Refusal where
  | noGa (seen : List Text)
  | missingPins
  | noVersionInUrl (url : Text)
  | dockerfilePins
  | networkRow
  | noBuild (platform : Text) (seen : List Text)
  | noAppBuild (platform : Text) (seen : List Text)
  | appsDisagree (versions : List Text)
  | mismatch (amd64 arm64 : Text)
  | pin (key : Text)
  | uosRow
  deriving DecidableEq, Repr

inductive Failure where
  | request
  | undecodable
  | missingKey
  | noText
  | template
  | invalidVersion (text : Text)
  | refused (refusal : Refusal)
  deriving DecidableEq, Repr

def gaChannel : Text := "release".toList

/-- `', '.join(seen) or default` -/
def joinOr (default : Text) (seen : List Text) : Text :=
  match ", ".toList.intercalate seen with
  | [] => default
  | joined => joined

/-- The message of a `RuntimeError`; `listed` is Python's `str` of a list of strings. -/
def Refusal.message (listed : List Text → Text) : Refusal → Text
  | .noGa seen => "the firmware API listed no release build of the bundled application, ".toList ++
      "so the GA version is unknown (channels seen: ".toList ++
      joinOr "none".toList seen ++ [')']
  | .missingPins => "Dockerfile is missing ARG PKGURL / ARG PKGSHA256 pins".toList
  | .noVersionInUrl url => "cannot extract version from PKGURL: ".toList ++ url
  | .dockerfilePins => "failed to rewrite Dockerfile pins".toList
  | .networkRow => "failed to rewrite README current-versions row".toList
  | .noBuild platform seen => "the firmware API listed no release/".toList ++ platform ++
      " build of unifi-os-server, so its version is unknown (saw: ".toList ++
      joinOr "nothing".toList seen ++ [')']
  | .noAppBuild platform seen => "the firmware API listed no release/".toList ++ platform ++
      " build of the bundled application (saw: ".toList ++
      joinOr "nothing".toList seen ++ [')']
  | .appsDisagree versions => "uos-deb11 platform versions disagree: ".toList ++ listed versions
  | .mismatch amd64 arm64 => "platform version mismatch: amd64=".toList ++ amd64 ++
      " arm64=".toList ++ arm64
  | .pin key => "failed to rewrite ".toList ++ key ++ " in pins.env".toList
  | .uosRow => "failed to rewrite README unifi-os-server row".toList

/-- `sorted(set(texts))` -/
def sortedSet (texts : List Text) : List Text := texts.dedup.mergeSort fun a b => decide (a ≤ b)

def shown (value : Option Text) : Text := value.getD "None".toList

/-- A bump: it fails or answers, in the files it leaves. -/
abbrev Bump := EStateM Failure Files

instance decidableEqResult : DecidableEq (EStateM.Result Failure Files (Option Text))
  | .ok a s, .ok b t => decidable_of_iff (a = b ∧ s = t) (by simp)
  | .error d s, .error e t => decidable_of_iff (d = e ∧ s = t) (by simp)
  | .ok _ _, .error _ _ => isFalse nofun
  | .error _ _, .ok _ _ => isFalse nofun

def lift {α : Type} (x : Except Failure α) : Bump α := fun files =>
  match x with
  | .ok a => .ok a files
  | .error e => .error e files

section

variable {α β : Type}

theorem get_bind (f : Files → Bump β) (files : Files) :
    ((get : Bump Files) >>= f) files = f files files := rfl

theorem lift_ok_bind (a : α) (f : α → Bump β) (files : Files) :
    (lift (.ok a) >>= f) files = f a files := rfl

end

/-- `Path.read_text` -/
def readText (content : Option Text) : Except Failure Text :=
  match content with
  | none => .error .undecodable
  | some raw => .ok (universalNewlines raw)

def writePin (text : Text) : Bump Unit := modify fun files => { files with pin := some text }

def writeReadme (text : Text) : Bump Unit := modify fun files => { files with readme := some text }

def field {α : Type} (value : Option α) : Except Failure α :=
  match value with
  | none => .error .missingKey
  | some a => .ok a

def version (pk : Packaging) (text : Text) : Except Failure pk.Key :=
  match pk.version (String.ofList text) with
  | none => .error (.invalidVersion text)
  | some k => .ok k

def upstreamRank (v : VersionText) : Rank :=
  mkRank (int v.major.1) (int v.minor.1) (int v.patch.1) 0

/-- The library on texts `X.Y.Z`, which it accepts and orders by the three integers. -/
structure Versions extends Packaging where
  plain : ∀ v : VersionText, ∃ k, version (String.ofList v.upstream) = some k
  plain_le_iff : ∀ {v w : VersionText} {k l : Key}, version (String.ofList v.upstream) = some k →
    version (String.ofList w.upstream) = some l → (k ≤ l ↔ upstreamRank v ≤ upstreamRank w)

/-! ### Texts of the answers -/

def Firmware.texts (entry : Firmware) : List Text :=
  [entry.version, entry.href, entry.sha256Checksum].filterMap id

/-- Every character of the strings of the records has a property. -/
def AllChars (accepts : Char → Prop) (answer : Option Payload) : Prop :=
  ∀ firmware, answer = some (some firmware) → ∀ entry ∈ firmware, ∀ s ∈ entry.texts,
    ∀ c ∈ s, accepts c

/-- The strings of the records are single words. -/
def IsWellFormed (answer : Option Payload) : Prop :=
  ∀ firmware, answer = some (some firmware) → ∀ entry ∈ firmware, ∀ s ∈ entry.texts, IsWord s

section

variable {α : Type}

theorem field_ok {value : Option α} {a : α} (h : field value = .ok a) : value = some a := by
  cases value with
  | none => cases h
  | some a' =>
    cases h
    rfl

theorem answer_ok {answer : Option α} {a : α}
    (h : answer.elim (.error .request) .ok = (.ok a : Except Failure α)) : answer = some a := by
  cases answer with
  | none => cases h
  | some a' =>
    cases h
    rfl

theorem version_ok {pk : Packaging} {text : Text} {k : pk.Key} (h : version pk text = .ok k) :
    pk.version (String.ofList text) = some k := by
  rw [version] at h
  split at h
  · cases h
  · rename_i k' hk
    cases h
    exact hk

end

/-! ### A library that reads the numbers -/

def beforeLocal (text : String) : Text := text.toList.takeWhile (· ≠ '+')

/-- `X.Y.Z` or `X.Y.Z-N` by its integers; a local part after `+` is passed over. -/
def numericVersion (text : String) : Option Rank :=
  (numericPackaging.version (String.ofList (beforeLocal text))).or
    (numericPackaging.version (String.ofList (beforeLocal text ++ "-0".toList)))

section

variable (v : VersionText)

theorem mem_upstream {c : Char} (hc : c ∈ v.upstream) : c.isDigit = true ∨ c = '.' := by
  simp only [VersionText.upstream, List.mem_append, List.mem_cons] at hc
  rcases hc with hmajor | hdot | hminor | hdot | hpatch
  · exact .inl (v.major.2.2 c hmajor)
  · exact .inr hdot
  · exact .inl (v.minor.2.2 c hminor)
  · exact .inr hdot
  · exact .inl (v.patch.2.2 c hpatch)

theorem beforeLocal_of_not_mem {text : Text} (h : '+' ∉ text) :
    beforeLocal (String.ofList text) = text := by
  rw [beforeLocal, String.toList_ofList, List.takeWhile_eq_self_iff]
  intro c hc
  apply decide_eq_true
  intro heq
  exact h (heq ▸ hc)

theorem not_mem_upstream {c : Char} (hdigit : c.isDigit = false) (hdot : c ≠ '.') :
    c ∉ v.upstream := by
  intro hc
  rcases mem_upstream v hc with h | h
  · rw [hdigit] at h
    cases h
  · exact hdot h

theorem isWord_upstream : IsWord v.upstream := by
  intro c hc
  rcases mem_upstream v hc with hdigit | hdot
  · rw [isDigit_iff] at hdigit
    refine ⟨?_, fun hmem => ?_⟩
    · rw [isSpace, ← Bool.not_eq_true]
      simp only [Bool.or_eq_true, Bool.and_eq_true, decide_eq_true_eq, beq_iff_eq]
      omega
    · simp only [specialChars, List.mem_cons, List.not_mem_nil, or_false] at hmem
      rcases hmem with heq | heq | heq | heq <;> (subst heq; revert hdigit; decide)
  · subst hdot
    decide

theorem numericVersion_text' : numericVersion v.text = some v.rank := by
  have hplus : '+' ∉ v.upstream ++ '-' :: v.revision.1 := by
    intro hmem
    rcases List.mem_append.mp hmem with hmem | hmem
    · exact not_mem_upstream v (by decide) (by decide) hmem
    · rcases List.mem_cons.mp hmem with heq | hmem
      · cases heq
      · have hdigit := v.revision.2.2 '+' hmem
        cases hdigit
  rw [numericVersion, VersionText.text, beforeLocal_of_not_mem hplus]
  show (numericPackaging.version v.text).or _ = _
  rw [show numericPackaging.version v.text = some v.rank from numericVersion_text v]
  rfl

/-- Without a build number a text is no release of the numeric library. -/
theorem numericPackaging_upstream : numericPackaging.version (String.ofList v.upstream) = none := by
  show (if IsAscii (String.ofList v.upstream) then _ else none) = none
  split
  · rw [Option.map_eq_none_iff]
    cases hparse : parse ("network/" ++ String.ofList v.upstream) with
    | none => rfl
    | some r =>
      obtain ⟨w, -, htext, -⟩ := parse_iff.mp hparse
      have hdash : '-' ∈ w.text := by simp [TagText.text]
      rw [htext, String.toList_append] at hdash
      rcases List.mem_append.mp hdash with hmem | hmem
      · simp at hmem
      · have hfree : '-' ∉ v.upstream := not_mem_upstream v (by decide) (by decide)
        rw [String.toList_ofList] at hmem
        exact absurd hmem hfree
  · rfl

theorem numericVersion_upstream :
    numericVersion (String.ofList v.upstream) = some (upstreamRank v) := by
  have hplus : '+' ∉ v.upstream := not_mem_upstream v (by decide) (by decide)
  have hbefore := beforeLocal_of_not_mem hplus
  have hzero : IsNumeral "0".toList := by decide
  let released : VersionText := ⟨v.major, v.minor, v.patch, ⟨"0".toList, hzero⟩⟩
  rw [numericVersion, hbefore, numericPackaging_upstream, Option.none_or]
  exact numericVersion_text released

end

def numericVersions : Versions where
  Key := Rank
  version := numericVersion
  valid v := ⟨v.rank, numericVersion_text' v⟩
  le_iff {v w k l} hk hl := by
    rw [numericVersion_text'] at hk hl
    cases hk
    cases hl
    rfl
  plain v := ⟨upstreamRank v, numericVersion_upstream v⟩
  plain_le_iff {v w k l} hk hl := by
    rw [numericVersion_upstream] at hk hl
    cases hk
    cases hl
    rfl

end UnifiContainers.Updaters
