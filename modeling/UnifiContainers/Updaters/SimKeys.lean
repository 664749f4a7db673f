import UnifiContainers.Lib.Fallible
import UnifiContainers.Lib.Finditer
import Mathlib.Data.List.Lex
import Mathlib.Data.List.Dedup
import Mathlib.Data.Char

/-!
# The demo keys of a release

The drift check collects the keys of the simulation mode from the jars of a release: one pattern is
searched through the bytes of every entry. A byte is the character of the same number.
-/

namespace UnifiContainers.SimKeys

open Regex Fallible

abbrev Blob := List Char

abbrev Key := List Char

/-! ### One blob -/

/-- `[a-z0-9_]` -/
def keyChar (c : Char) : Bool := ('a' ≤ c && c ≤ 'z') || ('0' ≤ c && c ≤ '9') || c == '_'

def flag : Key := "is_simulation".toList

def namespaceDot : List Char := "demo.".toList

/-- `is_simulation|demo\.[a-z0-9_]+` -/
def keyRe : Pattern Empty :=
  .alt (.lit flag) (.seq (.lit namespaceDot) (.plus true (.one keyChar)))

/-- `scan` -/
def scan (blob : Blob) : List Key :=
  (Pattern.finditer keyRe blob).map fun found => Cursor.consumed found.1 found.2

/-! ### The archive -/

structure Entry where
  isDir : Bool
  /-- What reading it gives; `none` where that raises what the scan of a jar catches. -/
  data : Option Blob

/-- The entries of a jar; `none` for what is no zip file. -/
abbrev Jar := Option (List Entry)

/-- The entries that are scanned: an unreadable one ends the jar. -/
def entryData : List Entry → List Blob
  | [] => []
  | entry :: entries =>
      if entry.isDir then entryData entries
      else
        match entry.data with
        | none => []
        | some blob => blob :: entryData entries

/-- `keys_in_jar` without its warning. -/
def keysInJar (jar : Jar) : List Key := (jar.elim [] entryData).flatMap scan

structure Member where
  name : List Char
  isFile : Bool
  /-- `none` where nothing can be extracted. -/
  jar : Option Jar

def libDir : List Char := "usr/lib/unifi/lib".toList

/-- `name.removeprefix("./")` -/
def bareName (name : List Char) : List Char :=
  if "./".toList.isPrefixOf name then name.drop 2 else name

def isJar (member : Member) : Bool :=
  member.isFile && ".jar".toList.isSuffixOf (bareName member.name) &&
    (libDir ++ ['/']).isPrefixOf (bareName member.name)

inductive ExtractionError where
  | notADeb
  | noJars
  | noKeys
  deriving DecidableEq, Repr

/-- The message; `path` and `reason` are those of an unreadable deb. -/
def ExtractionError.message (path reason : List Char) : ExtractionError → List Char
  | .notADeb => path ++ " is not a readable .deb: ".toList ++ reason
  | .noJars => "no jars under ".toList ++ libDir ++ " in the deb's data archive".toList
  | .noKeys => "no simulation keys found — extraction drift?".toList

/-- The blobs of the jars under `LIB_DIR`. -/
def scanned (members : List Member) : List Blob :=
  (members.filter isJar).flatMap fun member => (member.jar.getD none).elim [] entryData

/-- `keys_in_data_tar` -/
def keysInDataTar (members : List Member) : Except ExtractionError (List Key) :=
  if members.filter isJar = [] then .error .noJars
  else .ok ((members.filter isJar).flatMap fun member => (member.jar.map keysInJar).getD [])

/-- `collect`, from the members of the deb's data archive. -/
def collect (deb : Option (List Member)) : Except ExtractionError (List Key) := do
  let members ← deb.elim (.error .notADeb) .ok
  let keys ← keysInDataTar members
  if keys = [] then throw .noKeys
  return keys.dedup.mergeSort fun a b => decide (a ≤ b)

/-! ### Keys in a blob -/

def IsKey (key : Key) : Prop :=
  key = flag ∨ ∃ name, name ≠ [] ∧ (∀ c ∈ name, keyChar c = true) ∧ key = namespaceDot ++ name

/-- Neither side of a key could belong to it, or to a key before it. -/
def Stands (before after : List Char) : Prop :=
  (∀ c ∈ before.getLast?, keyChar c = false ∧ c ≠ '.') ∧ ∀ c ∈ after.head?, keyChar c = false

variable {blob before after rest : List Char} {key : Key} {s u : Cursor Empty}

theorem matches_keyRe_iff : Pattern.Matches keyRe s u ↔
    ∃ key rest, s.after = key ++ rest ∧ IsKey key ∧ u = s.advance key rest := by
  rw [keyRe, Pattern.matches_alt, Pattern.matches_lit, Pattern.matches_lit_seq]
  simp only [Pattern.consumes_plus_one true keyChar _ u]
  constructor
  · rintro (⟨rest, hs, hu⟩ | ⟨rest, hs, word, rest', hrest, ⟨hne, hword⟩, hu⟩)
    · exact ⟨flag, rest, hs, .inl rfl, hu⟩
    · have hrest' : rest = word ++ rest' := hrest
      refine ⟨namespaceDot ++ word, rest', ?_, .inr ⟨word, hne, hword, rfl⟩, ?_⟩
      · rw [hs, hrest', List.append_assoc]
      · rw [hu]
        simp [Cursor.advance]
  · rintro ⟨key, rest, hs, rfl | ⟨name, hne, hname, rfl⟩, hu⟩
    · exact .inl ⟨rest, hs, hu⟩
    · refine .inr ⟨name ++ rest, by rw [hs, List.append_assoc], name, rest, rfl, ⟨hne, hname⟩, ?_⟩
      rw [hu]
      simp [Cursor.advance]

theorem IsKey.ne_nil (h : IsKey key) : key ≠ [] := by
  rcases h with rfl | ⟨name, hne, -, rfl⟩
  · decide
  · exact List.append_ne_nil_of_right_ne_nil _ hne

theorem IsKey.chars (h : IsKey key) : ∀ c ∈ key, keyChar c = true ∨ c = '.' := by
  have hflag : ∀ c ∈ flag, keyChar c = true ∨ c = '.' := by decide
  have hdot : ∀ c ∈ namespaceDot, keyChar c = true ∨ c = '.' := by decide
  rcases h with rfl | ⟨name, -, hname, rfl⟩
  · exact hflag
  · intro c hc
    rcases List.mem_append.mp hc with hc | hc
    · exact hdot c hc
    · exact .inl (hname c hc)

theorem advances_keyRe : Pattern.Advances keyRe := by
  intro s u h
  obtain ⟨key, rest, hs, hkey, rfl⟩ := matches_keyRe_iff.mp h
  have hpos := List.length_pos_of_ne_nil hkey.ne_nil
  rw [hs, List.length_append]
  show rest.length < _
  omega

theorem takeWhile_name {name : List Char} (hname : ∀ c ∈ name, keyChar c = true)
    (hrest : ∀ c ∈ rest.head?, keyChar c = false) :
    (name ++ rest).takeWhile keyChar = name ∧ (name ++ rest).dropWhile keyChar = rest := by
  rw [List.takeWhile_append_of_pos hname, List.dropWhile_append_of_pos hname]
  cases rest with
  | nil => simp
  | cons c rest => simp [hrest c rfl]

/-- The engine takes a key to its end. -/
theorem head?_run_keyRe (hs : s.after = key ++ rest) (hkey : IsKey key)
    (hrest : ∀ c ∈ rest.head?, keyChar c = false) :
    (Pattern.run keyRe s).head? = some (s.advance key rest) := by
  rw [keyRe, Pattern.run, List.head?_append]
  rcases hkey with rfl | ⟨name, hne, hname, rfl⟩
  · rw [Pattern.run_lit hs]
    rfl
  · have hflag : Pattern.run (.lit flag) s = [] := by
      apply Pattern.run_eq_nil
      intro u hmatch
      obtain ⟨more, hmore, -⟩ := Pattern.matches_lit.mp hmatch
      rw [hs, List.append_assoc] at hmore
      cases hmore
    obtain ⟨c, cs, rfl⟩ := List.exists_cons_of_ne_nil hne
    rw [List.append_assoc] at hs
    obtain ⟨htake, hdrop⟩ := takeWhile_name hname hrest
    have hnext : (s.advance namespaceDot (c :: cs ++ rest)).after = c :: (cs ++ rest) := rfl
    rw [hflag, Pattern.run_lit_seq hs,
      Pattern.head?_run_plus_one hnext (hname c List.mem_cons_self)]
    simp only [Cursor.advance] at htake hdrop ⊢
    rw [htake, hdrop]
    simp

theorem consumed_advance (hs : s.after = key ++ rest) : Cursor.consumed s (s.advance key rest) = key := by
  rw [Cursor.consumed, hs, Cursor.advance, List.length_append, Nat.add_sub_cancel, List.take_left]

theorem mem_scan : key ∈ scan blob ↔
    ∃ s u, (s, u) ∈ Pattern.finditer keyRe blob ∧ Cursor.consumed s u = key := by
  rw [scan, List.mem_map]
  constructor
  · rintro ⟨⟨s, u⟩, hmem, hkey⟩
    exact ⟨s, u, hmem, hkey⟩
  · rintro ⟨s, u, hmem, hkey⟩
    exact ⟨(s, u), hmem, hkey⟩

/-- What is found is a key of the blob. -/
theorem isKey_of_mem_scan (h : key ∈ scan blob) : IsKey key ∧ key <:+: blob := by
  obtain ⟨s, u, hmem, rfl⟩ := mem_scan.mp h
  obtain ⟨b, a, rfl, rfl, hmatch⟩ := Pattern.matches_of_mem_finditer hmem
  obtain ⟨key, rest, hs, hkey, rfl⟩ := matches_keyRe_iff.mp hmatch
  rw [consumed_advance hs]
  refine ⟨hkey, b, rest, ?_⟩
  have ha : a = key ++ rest := hs
  rw [ha, List.append_assoc]

/-- A key that stands by itself is found. -/
theorem mem_scan_of_stands (hkey : IsKey key) (h : Stands before after) :
    key ∈ scan (before ++ (key ++ after)) := by
  have hmatch : Pattern.Matches keyRe (Cursor.fresh before.reverse (key ++ after))
      (Cursor.advance (Cursor.fresh before.reverse (key ++ after)) key after) :=
    matches_keyRe_iff.mpr ⟨key, after, rfl, hkey, rfl⟩
  obtain ⟨s, u, hmem, hbegin, hend⟩ := Pattern.finditer_covers advances_keyRe hmatch
  obtain ⟨b, a, htext, rfl, hfound⟩ := Pattern.matches_of_mem_finditer hmem
  obtain ⟨other, rest, ha, hother, rfl⟩ := matches_keyRe_iff.mp hfound
  have ha' : a = other ++ rest := ha
  subst ha'
  simp only [Cursor.fresh, Cursor.advance, List.length_reverse, List.length_append] at hbegin hend
  have hprefix : b <+: before := by
    have hb : b <+: before ++ (key ++ after) := htext ▸ List.prefix_append _ _
    exact List.prefix_of_prefix_length_le hb (List.prefix_append _ _) hbegin
  obtain ⟨gap, rfl⟩ := hprefix
  -- a gap would end inside the match that was taken, in a character of a key
  have hgap : gap = [] := by
    by_contra hne
    rw [List.append_assoc] at htext
    have hinside : gap <+: other := by
      have hother' : gap <+: other ++ rest := by
        rw [← List.append_cancel_left htext]
        exact List.prefix_append _ _
      refine List.prefix_of_prefix_length_le hother' (List.prefix_append _ _) ?_
      rw [List.length_append] at hend
      omega
    have hlast := h.1 (gap.getLast hne) (by
      rw [Option.mem_def, List.getLast?_append_of_ne_nil _ hne, List.getLast?_eq_some_getLast hne])
    rcases hother.chars _ (hinside.subset (List.getLast_mem hne)) with hc | hc
    · rw [hc] at hlast
      cases hlast.1
    · exact hlast.2 hc
  subst hgap
  rw [List.append_nil] at htext
  have hsame : key ++ after = other ++ rest := List.append_cancel_left htext
  have hfirst := Pattern.head?_of_mem_finditer hmem
  rw [List.append_nil] at hmem ⊢
  have htaken := head?_run_keyRe (s := Cursor.fresh b.reverse (other ++ rest)) hsame.symm hkey h.2
  rw [hfirst] at htaken
  refine mem_scan.mpr ⟨_, _, hmem, ?_⟩
  rw [Option.some.inj htaken]
  exact consumed_advance hsame.symm

/-! ### Keys of a release -/

variable {members : List Member}

theorem mem_keys_iff : (∃ member ∈ members.filter isJar,
      key ∈ (member.jar.map keysInJar).getD []) ↔ ∃ blob ∈ scanned members, key ∈ scan blob := by
  constructor
  · rintro ⟨member, hmember, hkey⟩
    cases hjar : member.jar with
    | none =>
      rw [hjar] at hkey
      cases hkey
    | some jar =>
      rw [hjar, Option.map_some, Option.getD_some, keysInJar] at hkey
      obtain ⟨blob, hblob, hkey⟩ := List.mem_flatMap.mp hkey
      refine ⟨blob, List.mem_flatMap.mpr ⟨member, hmember, ?_⟩, hkey⟩
      rw [hjar]
      exact hblob
  · rintro ⟨blob, hblob, hkey⟩
    obtain ⟨member, hmember, hblob⟩ := List.mem_flatMap.mp hblob
    refine ⟨member, hmember, ?_⟩
    cases hjar : member.jar with
    | none =>
      rw [hjar] at hblob
      cases hblob
    | some jar =>
      rw [hjar, Option.getD_some] at hblob
      exact List.mem_flatMap.mpr ⟨blob, hblob, hkey⟩

/-- The keys of all jars, or a failure where there is none. -/
theorem mem_collect {keys : List Key} (h : collect (some members) = .ok keys) :
    key ∈ keys ↔ ∃ blob ∈ scanned members, key ∈ scan blob := by
  rw [collect, Option.elim_some, ok_bind, keysInDataTar] at h
  split at h
  · cases h
  · rw [ok_bind] at h
    dsimp only at h
    split at h
    · cases h
    · cases h
      rw [List.mem_mergeSort, List.mem_dedup, List.mem_flatMap]
      exact mem_keys_iff

theorem collect_ok (h : ∃ blob ∈ scanned members, key ∈ scan blob) :
    ∃ keys, collect (some members) = .ok keys := by
  obtain ⟨member, hmember, hkey⟩ := mem_keys_iff.mpr h
  have hmem : key ∈ (members.filter isJar).flatMap fun member => (member.jar.map keysInJar).getD [] :=
    List.mem_flatMap.mpr ⟨member, hmember, hkey⟩
  rw [collect, Option.elim_some, ok_bind, keysInDataTar, if_neg (List.ne_nil_of_mem hmember), ok_bind]
  dsimp only
  rw [if_neg (List.ne_nil_of_mem hmem)]
  exact ⟨_, rfl⟩

def uapJar : Member where
  name := "./usr/lib/unifi/lib/ace.jar".toList
  isFile := true
  jar := some (some [⟨true, none⟩, ⟨false, some "(demo.num_uap;".toList⟩, ⟨false, none⟩])

end UnifiContainers.SimKeys
