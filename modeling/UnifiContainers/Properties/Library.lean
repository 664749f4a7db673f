import UnifiContainers.Properties.Overhang
import UnifiContainers.Runtime.Fleet

/-!
# The vendored library as the callers take it

The hook and the entrypoint rely on a few laws of the properties library. Over the texts that do not
end in a lone backslash the vendored code keeps them, and what is merged through the laws is what
the code merges.
-/

namespace UnifiContainers.Properties

open OrderedDict Fallible

variable {elements : List Element} {text : List Char} {key value : List Char}

/-! ### Texts that stay whole -/

theorem dumps_fresh_cons (key : Key) (value : Value) (rest : List Element) :
    dumps (fresh key value :: rest) = joinKeyValue key value ++ '\n' :: dumps rest := by
  rw [dumps, List.flatMap_cons, fresh_dumped, List.append_assoc]
  rfl

/-- Keys that were set leave nothing to be continued. -/
theorem logical_fresh {pending : Option (List Char)} (hpending : dangles (pending.getD []) = false)
    (hne : elements ≠ []) (hfresh : ∀ f ∈ elements, f.isFresh = true) :
    (logical pending (contents (dumps elements))).2 = none := by
  induction elements generalizing pending with
  | nil => exact absurd rfl hne
  | cons f rest ih =>
    obtain ⟨key, value, rfl⟩ := isFresh_iff.mp (hfresh f List.mem_cons_self)
    rw [← fresh, dumps_fresh_cons, contents_line (joinKeyValue_not_eol key value), logical,
      feed_joinKeyValue hpending]
    by_cases hrest : rest = []
    · subst hrest
      rfl
    · exact ih rfl hrest fun g hg => hfresh g (List.mem_cons_of_mem _ hg)

/-- Sound elements are dumped without a lone backslash at the end. -/
theorem Sound.not_loneBackslash (h : Sound elements) : ¬LoneBackslash (dumps elements) := by
  obtain ⟨hcoherent, hsources, hends⟩ := h
  induction elements with
  | nil => exact fun hlone => by cases hlone.1
  | cons e rest ih =>
    have hrest := ih hcoherent.2.1 (fun f hf => hsources f (List.mem_cons_of_mem e hf))
      fun f hf => hends f (List.mem_cons_of_mem e hf)
    obtain ⟨hfaithful, -, rfl | hclosed | ⟨hdrained, hfresh⟩⟩ := hcoherent
    · rw [dumps, List.flatMap_singleton]
      cases hread : e.isFresh with
      | true =>
        obtain ⟨key, value, rfl⟩ := isFresh_iff.mp hread
        rintro ⟨-, line, -, hpending⟩
        cases (fresh_closed key value).2.symm.trans hpending
      | false =>
        have hsource := hsources e List.mem_cons_self hread
        rw [dumped_of_source hsource, ← overhangs_iff hsource hfaithful]
        exact hends e List.mem_cons_self
    · rw [dumps, List.flatMap_cons, ← dumps]
      by_cases hnil : dumps rest = []
      · rw [hnil, List.append_nil]
        rintro ⟨-, line, -, hpending⟩
        cases hclosed.2.symm.trans hpending
      · rwa [loneBackslash_append hclosed.1 hclosed.2 hnil]
    · rw [dumps, List.flatMap_cons, ← dumps]
      rintro ⟨-, line, hline, hpending⟩
      have hcontents : contents (e.dumped ++ dumps rest) =
          contents e.dumped ++ contents (dumps rest) := by
        rcases contents_append hdrained.1 (dumps rest) with h | ⟨w, hw, -⟩
        · exact h
        · exact absurd (by rw [hw]; rfl) (dumps_head hfresh)
      have hdrain : (logical none (contents e.dumped)).2 = some [] := hdrained.2
      rw [pendingOf, hcontents, logical_append, hdrain] at hpending
      by_cases hnil : rest = []
      · subst hnil
        exact hline (Option.some.inj hpending).symm
      · cases (logical_fresh rfl hnil hfresh).symm.trans hpending

/-! ### The laws -/

/-- A text that no key can be lost behind. -/
abbrev WholeText := { text : List Char // ¬LoneBackslash text }

/-- A file that was loaded and edited, with the elements that it holds. -/
structure LoadedFile where
  file : PropertiesFile
  sound : ∃ elements, Holding file elements ∧ Sound elements

/-- The character of a string as a `Char`; a lone surrogate has none. -/
def charOf (c : CodePoint) : Char := Char.ofNat c.val

theorem charOf_ord (c : Char) : charOf (ord c) = c := Char.ofNat_toNat c

theorem map_charOf_ord (s : List Char) : (s.map ord).map charOf = s := by
  rw [List.map_map]
  exact (List.map_congr_left fun c _ => charOf_ord c).trans (List.map_id s)

theorem ord_not_surrogate (c : Char) : ¬IsHigh (ord c) ∧ ¬IsLow (ord c) := by
  have h := c.valid
  simp only [UInt32.isValidChar, Nat.isValidChar] at h
  have hval : (ord c).val = c.val.toNat := rfl
  constructor
  · rintro ⟨hlow, hhigh⟩
    rw [hval] at hlow hhigh
    omega
  · rintro ⟨hlow, hhigh⟩
    rw [hval] at hlow hhigh
    omega

theorem noSplitPair_ord (s : List Char) : NoSplitPair (s.map ord) := by
  induction s with
  | nil => exact List.isChain_nil
  | cons c s ih =>
    rw [List.map_cons, noSplitPair_cons]
    exact ⟨fun d _ hpair => (ord_not_surrogate c).1 hpair.1, ih⟩

theorem map_ord_inj {s t : List Char} : s.map ord = t.map ord ↔ s = t := by
  refine ⟨fun h => ?_, fun h => h ▸ rfl⟩
  rw [← map_charOf_ord s, h, map_charOf_ord]

theorem sound_load (hwhole : ¬LoneBackslash text) {file : PropertiesFile}
    (h : PropertiesFile.loads text = .ok file) :
    ∃ elements, Holding file elements ∧ Sound elements := by
  obtain ⟨elements, hparse, hholding⟩ := holding_load h
  exact ⟨elements, hholding, sound_parse hparse hwhole⟩

namespace LoadedFile

def loads (text : WholeText) : Option LoadedFile :=
  match h : PropertiesFile.loads text.val with
  | .error _ => none
  | .ok file => some ⟨file, sound_load text.property h⟩

def dumps (props : LoadedFile) : WholeText where
  val := props.file.dumps
  property := by
    obtain ⟨elements, hholding, hsound⟩ := props.sound
    rw [hholding.dumps]
    exact hsound.not_loneBackslash

def get (props : LoadedFile) (key : List Char) : Option (List Char) :=
  (props.file.getItem (key.map ord)).map (List.map charOf)

def set (props : LoadedFile) (key value : List Char) : LoadedFile where
  file := props.file.setItem (key.map ord) (value.map ord)
  sound := by
    obtain ⟨elements, hholding, hsound⟩ := props.sound
    exact ⟨_, hholding.setItem _ _, hsound.setKey (noSplitPair_ord key) (noSplitPair_ord value)⟩

theorem loads_eq_some {whole : WholeText} {props : LoadedFile} :
    loads whole = some props ↔ PropertiesFile.loads whole.val = .ok props.file := by
  rw [loads]
  split
  · next e he =>
    rw [he]
    exact ⟨fun h => (by cases h), fun h => (by cases h)⟩
  · next file hfile =>
    constructor
    · intro h
      cases h
      exact hfile
    · intro h
      cases props
      cases hfile.symm.trans h
      rfl

theorem loads_isNone {whole : WholeText} {e : InvalidUEscapeError}
    (h : PropertiesFile.loads whole.val = .error e) : loads whole = none := by
  rw [loads]
  split
  · rfl
  · next file hfile =>
    rw [h] at hfile
    cases hfile

theorem get_set (props : LoadedFile) (key value other : List Char) :
    (props.set key value).get other = if other = key then some value else props.get other := by
  obtain ⟨elements, hholding, -⟩ := props.sound
  rw [get, set, (hholding.setItem _ _).getItem, itemsOf_setKey, lookup_set, get, hholding.getItem]
  by_cases hother : other = key
  · subst hother
    rw [beq_self_eq_true, if_pos rfl, if_pos rfl, Option.map_some, map_charOf_ord]
  · have hne : (other.map ord == key.map ord) = false :=
      beq_eq_false_iff_ne.mpr fun h => hother (map_ord_inj.mp h)
    rw [hne, if_neg Bool.false_ne_true, if_neg hother]

/-- What is dumped is loaded into a file that gives every key what the first one gave it. -/
theorem loads_dumps (props : LoadedFile) :
    ∃ again, loads props.dumps = some again ∧ again.get = props.get := by
  obtain ⟨elements, hholding, hsound⟩ := props.sound
  have hread := Properties.loads_dumps hsound.coherent
  obtain ⟨others, hparse, hitems⟩ := map_ok hread
  have hfile : PropertiesFile.loads props.dumps.val = .ok (.load others) := by
    show PropertiesFile.load <$> parse props.file.dumps = _
    rw [hholding.dumps, hparse]
    rfl
  have hload : Holding (.load others) others := represents_load others
  refine ⟨⟨.load others, sound_load props.dumps.property hfile⟩, loads_eq_some.mpr hfile, ?_⟩
  funext key
  rw [get, get, hholding.getItem, hload.getItem, hitems]

theorem loads_empty : ∃ props, loads ⟨[], fun h => by cases h.1⟩ = some props ∧
    ∀ key, props.get key = none := by
  have hfile : PropertiesFile.loads [] = .ok (.load []) := rfl
  exact ⟨⟨.load [], sound_load (fun h => by cases h.1) hfile⟩, loads_eq_some.mpr hfile,
    fun key => rfl⟩

end LoadedFile

/-- The vendored library, as the callers take it. -/
def vendored : Fleet.PropertiesFile WholeText LoadedFile where
  loads := LoadedFile.loads
  dumps := LoadedFile.dumps
  get := LoadedFile.get
  set := LoadedFile.set
  empty := ⟨[], fun h => by cases h.1⟩
  get_set := LoadedFile.get_set
  loads_dumps := LoadedFile.loads_dumps
  loads_empty := LoadedFile.loads_empty

/-- An update of the callers, as the library takes it. -/
def ordUpdate (update : List Char × List Char) : Key × Value :=
  (update.1.map ord, update.2.map ord)

/-- What the callers merge through the laws is what the vendored code merges. -/
theorem merge_vendored (existing : WholeText) (updates : List (List Char × List Char))
    (onlyIfAbsent : Bool) : (Fleet.merge vendored existing updates onlyIfAbsent).map Subtype.val =
      (merge existing.val (updates.map ordUpdate) onlyIfAbsent).toOption := by
  have hfold : ∀ props : LoadedFile, (updates.foldl (fun props update =>
      if onlyIfAbsent && (vendored.get props update.1).isSome then props
      else vendored.set props update.1 update.2) props).file =
        (updates.map ordUpdate).foldl (mergeOne onlyIfAbsent) props.file := by
    induction updates with
    | nil => exact fun props => rfl
    | cons update updates ih =>
      intro props
      have hget : (vendored.get props update.1).isSome =
          (props.file.getItem (update.1.map ord)).isSome := Option.isSome_map
      rw [List.foldl_cons, ih, List.map_cons, List.foldl_cons, mergeOne, hget, ordUpdate]
      split <;> rfl
  rw [Fleet.merge, merge, Option.map_map]
  cases hload : PropertiesFile.loads existing.val with
  | error e =>
    have hnone : vendored.loads existing = none := LoadedFile.loads_isNone hload
    rw [hnone]
    rfl
  | ok file =>
    have hsome : vendored.loads existing = some ⟨file, sound_load existing.property hload⟩ :=
      LoadedFile.loads_eq_some.mpr hload
    rw [hsome, Option.map_some]
    exact congrArg (fun file => some (PropertiesFile.dumps file)) (hfold _)

end UnifiContainers.Properties
