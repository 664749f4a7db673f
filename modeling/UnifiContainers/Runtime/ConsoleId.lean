import UnifiContainers.Lib.PyText
import UnifiContainers.Lib.Run
import UnifiContainers.Lib.Traced

/-!
# The console identity

The first boot of a volume writes the console's identity to a file, and every later boot reads it
back. A boot can be killed, or its write refused, after any of its file operations, and all that
the next boot looks at is whether the file is there.
-/

namespace UnifiContainers.ConsoleId

open PyText StepRun

inductive UuidFile where
  | absent
  /-- Bytes that are not UTF-8. -/
  | unreadable
  | text (t : List Char)
  deriving DecidableEq

inductive Op where
  | looked
  | readFile
  | readSource
  | madeDirs
  | opened
  | put (c : Char)
  deriving DecidableEq

def UuidFile.apply (file : UuidFile) : Op → UuidFile
  | .opened => .text []
  | .put c =>
      match file with
      | .text t => .text (t ++ [c])
      | other => other
  | _ => file

/-- Where a boot is cut short: after `done` operations, or, if `torn`, inside the next one. -/
structure Cut where
  done : ℕ
  torn : Bool
  deriving DecidableEq

/-- What one boot brings: `UOS_UUID`, and the text of the random source, or `none` if that cannot
be read. -/
structure Boot where
  uosUuid : Option (List Char)
  source : Option (List Char)
  cut : Option Cut
  deriving DecidableEq

/-- The kernel emits version 4, console ids are version 5. -/
def forceUuidVersion5 (uuid : List Char) : List Char :=
  if 14 < uuid.length then uuid.take 14 ++ '5' :: uuid.drop 15 else uuid

def Boot.given (b : Boot) : List Char := b.uosUuid.getD []

def newValue (b : Boot) : Traced Op (List Char) :=
  if b.given ≠ [] then pure b.given
  else
    match b.source with
    | none => ⟨[], none⟩
    | some text => do
        Traced.emit .readSource
        return forceUuidVersion5 (strip (universalNewlines text))

/-- A file opened for writing is empty until its first character arrives. -/
def writeFile (text : List Char) : Traced Op Unit := do
  Traced.emit .opened
  ⟨text.map .put, some ()⟩

def ensureUuid (b : Boot) (file : UuidFile) : Traced Op (List Char) := do
  Traced.emit .looked
  match file with
  | .text t =>
      Traced.emit .readFile
      return strip (universalNewlines t)
  | .unreadable => ⟨[.readFile], none⟩
  | .absent =>
      let value ← newValue b
      Traced.emit .madeDirs
      writeFile (value ++ ['\n'])
      return value

/-! ### Boots that are cut short -/

def Op.isWide : Op → Bool
  | .put c => 1 < c.utf8Size
  | _ => false

/-- The file as the boot leaves it. -/
def Boot.leaves (b : Boot) (file : UuidFile) : UuidFile :=
  let trace := (ensureUuid b file).trace
  match b.cut with
  | none => trace.foldl UuidFile.apply file
  | some cut =>
      if cut.torn && (trace.drop cut.done).head?.any Op.isWide then .unreadable
      else (trace.take cut.done).foldl UuidFile.apply file

/-- The identity the boot returns, if it completes. -/
def Boot.returns (b : Boot) (file : UuidFile) : Option (List Char) :=
  match b.cut with
  | none => (ensureUuid b file).result
  | some _ => none

/-- A volume, with the identities its completed boots returned. -/
structure Volume where
  file : UuidFile
  returned : List (List Char)
  deriving DecidableEq

def bootStep (v : Volume) (b : Boot) : Option Volume :=
  some ⟨b.leaves v.file, v.returned ++ (b.returns v.file).toList⟩

/-- Every completed boot returned the same identity, it is not empty, and the file holds it. -/
structure Fixed (v : Volume) : Prop where
  nonempty : ∀ id ∈ v.returned, id ≠ []
  same : ∀ id ∈ v.returned, ∀ other ∈ v.returned, id = other
  held : ∀ id ∈ v.returned, ∃ t, v.file = .text t ∧ strip (universalNewlines t) = id

/-! ### Boots that write a value -/

/-- The value of a boot that finds no file. -/
def Boot.value (b : Boot) : Option (List Char) :=
  if b.given ≠ [] then some b.given
  else b.source.map fun text => forceUuidVersion5 (strip (universalNewlines text))

/-- Its operations up to the open file. -/
def Boot.preparation (b : Boot) : List Op :=
  .looked :: ((if b.given ≠ [] then [] else [.readSource]) ++ [.madeDirs, .opened])

/-- The boot is cut inside a character of more than one byte. -/
def Boot.Tears (b : Boot) (cut : Cut) (value : List Char) : Prop :=
  cut.torn = true ∧
    ((value ++ ['\n']).drop (cut.done - b.preparation.length)).head?.any (1 < ·.utf8Size) = true

instance (b : Boot) (cut : Cut) (value : List Char) : Decidable (b.Tears cut value) :=
  inferInstanceAs (Decidable (_ ∧ _))

/-- A boot that finds no file, unless it is cut short before it opens one, leaves something to
read: its value is not blank and reads back as itself, or the part of it that was written is not
blank. -/
structure WritesThrough (v : Volume) (b : Boot) : Prop where
  source : v.file = .absent → b.given = [] → ∀ text ∈ b.source, ∃ c ∈ text, isSpace c = false
  readsBack : v.file = .absent → b.cut = none → strip (universalNewlines b.given) = b.given
  begun : v.file = .absent → ∀ cut ∈ b.cut, ∀ value ∈ b.value,
    cut.done < b.preparation.length ∨ b.Tears cut value ∨
      ∃ c ∈ value.take (cut.done - b.preparation.length), isSpace c = false

section

variable {b : Boot} {file : UuidFile} {value t : List Char} {v w : Volume}

theorem ensureUuid_absent (h : b.value = some value) :
    ensureUuid b .absent =
      ⟨b.preparation ++ (value ++ ['\n']).map Op.put, some value⟩ := by
  rw [Boot.value] at h
  by_cases hgiven : b.given = []
  · rw [if_neg (not_not.mpr hgiven)] at h
    obtain ⟨text, hsource, rfl⟩ := Option.map_eq_some_iff.mp h
    simp [ensureUuid, newValue, writeFile, Boot.preparation, hgiven, hsource, Traced.emit]
  · rw [if_pos hgiven] at h
    cases h
    simp [ensureUuid, newValue, writeFile, Boot.preparation, hgiven, Traced.emit]

theorem ensureUuid_noValue (h : b.value = none) :
    ensureUuid b .absent = ⟨[.looked], none⟩ := by
  rw [Boot.value] at h
  by_cases hgiven : b.given = []
  · rw [if_neg (not_not.mpr hgiven)] at h
    have hsource := Option.map_eq_none_iff.mp h
    simp [ensureUuid, newValue, hgiven, hsource, Traced.emit]
  · rw [if_pos hgiven] at h
    cases h

/-! ### What the operations leave -/

theorem apply_quiet {ops : List Op} (hopened : .opened ∉ ops) (hput : ∀ c, .put c ∉ ops)
    (file : UuidFile) : ops.foldl UuidFile.apply file = file := by
  induction ops generalizing file with
  | nil => rfl
  | cons op ops ih =>
    have hrest := ih (fun hmem => hopened (List.mem_cons_of_mem op hmem))
      (fun c hmem => hput c (List.mem_cons_of_mem op hmem))
    rw [List.foldl_cons, hrest]
    cases op with
    | opened => exact absurd List.mem_cons_self hopened
    | put c => exact absurd List.mem_cons_self (hput c)
    | looked | readFile | readSource | madeDirs => rfl

theorem apply_puts (chars : List Char) (t : List Char) :
    (chars.map Op.put).foldl UuidFile.apply (.text t) = .text (t ++ chars) := by
  induction chars generalizing t with
  | nil => rw [List.map_nil, List.foldl_nil, List.append_nil]
  | cons c chars ih =>
    rw [List.map_cons, List.foldl_cons, UuidFile.apply, ih, List.append_assoc,
      List.singleton_append]

theorem apply_preparation (b : Boot) (file : UuidFile) :
    b.preparation.foldl UuidFile.apply file = .text [] := by
  rw [Boot.preparation]
  split <;> rfl

theorem preparation_dropLast (b : Boot) :
    ∃ ops, b.preparation = ops ++ [.opened] ∧ .opened ∉ ops ∧ ∀ c, .put c ∉ ops := by
  by_cases hgiven : b.given = []
  · exact ⟨[.looked, .readSource, .madeDirs], by simp [Boot.preparation, hgiven], by simp, by simp⟩
  · exact ⟨[.looked, .madeDirs], by simp [Boot.preparation, hgiven], by simp, by simp⟩

theorem head_not_wide {ops : List Op} (h : ∀ c, .put c ∉ ops) :
    ops.head?.any Op.isWide = false := by
  cases ops with
  | nil => rfl
  | cons op ops =>
    cases op with
    | put c => exact absurd List.mem_cons_self (h c)
    | looked | readFile | readSource | madeDirs | opened => rfl

/-- A boot whose operations do not touch the file leaves it alone, wherever it is cut. -/
theorem leaves_of_quiet (hopened : .opened ∉ (ensureUuid b file).trace)
    (hput : ∀ c, .put c ∉ (ensureUuid b file).trace) : b.leaves file = file := by
  rw [Boot.leaves]
  cases b.cut with
  | none => exact apply_quiet hopened hput file
  | some cut =>
    have hwide : ((ensureUuid b file).trace.drop cut.done).head?.any Op.isWide = false :=
      head_not_wide fun c hmem => hput c (List.mem_of_mem_drop hmem)
    simp only [hwide, Bool.and_false, Bool.false_eq_true, if_false]
    exact apply_quiet (fun hmem => hopened (List.mem_of_mem_take hmem))
      (fun c hmem => hput c (List.mem_of_mem_take hmem)) file

theorem leaves_of_present (h : file ≠ .absent) : b.leaves file = file := by
  have htrace : (ensureUuid b file).trace = [.looked, .readFile] := by
    cases file with
    | absent => exact absurd rfl h
    | unreadable => rfl
    | text t => rfl
  apply leaves_of_quiet <;> rw [htrace] <;> simp

theorem leaves_noValue (h : b.value = none) : b.leaves .absent = .absent := by
  apply leaves_of_quiet <;> rw [ensureUuid_noValue h] <;> simp

theorem leaves_complete (hcut : b.cut = none) (h : b.value = some value) :
    b.leaves .absent = .text (value ++ ['\n']) := by
  rw [Boot.leaves, hcut]
  simp only [ensureUuid_absent h, List.foldl_append, apply_preparation, apply_puts, List.nil_append]

/-- A boot that is cut short leaves no file, a torn one, or the part of its line that it wrote. -/
theorem leaves_cut {cut : Cut} (hcut : b.cut = some cut) (h : b.value = some value) :
    b.leaves .absent =
      if cut.done < b.preparation.length then .absent
      else if b.Tears cut value then .unreadable
      else .text ((value ++ ['\n']).take (cut.done - b.preparation.length)) := by
  rw [Boot.leaves, hcut]
  simp only [ensureUuid_absent h]
  by_cases hopen : cut.done < b.preparation.length
  · obtain ⟨ops, hops, hopened, hput⟩ := preparation_dropLast b
    have hlength : cut.done ≤ ops.length := by
      rw [hops, List.length_append, List.length_singleton] at hopen
      omega
    have hwide : ((b.preparation ++ (value ++ ['\n']).map Op.put).drop cut.done).head?.any
        Op.isWide = false := by
      rw [hops, List.append_assoc, List.drop_append_of_le_length hlength]
      cases hdrop : ops.drop cut.done with
      | nil => rfl
      | cons op rest =>
        have hmem : op ∈ ops := List.mem_of_mem_drop (hdrop ▸ List.mem_cons_self)
        have hnarrow : [op].head?.any Op.isWide = false :=
          head_not_wide fun c hc => hput c (List.mem_singleton.mp hc ▸ hmem)
        exact hnarrow
    rw [if_pos hopen, hwide, Bool.and_false, if_neg Bool.false_ne_true,
      List.take_append_of_le_length hopen.le, hops, List.take_append_of_le_length hlength]
    exact apply_quiet (fun hmem => hopened (List.mem_of_mem_take hmem))
      (fun c hmem => hput c (List.mem_of_mem_take hmem)) _
  · rw [not_lt] at hopen
    have hwide : ((b.preparation ++ (value ++ ['\n']).map Op.put).drop cut.done).head?.any
        Op.isWide = ((value ++ ['\n']).drop (cut.done - b.preparation.length)).head?.any
          (1 < ·.utf8Size) := by
      rw [List.drop_append, List.drop_eq_nil_of_le hopen, List.nil_append, ← List.map_drop,
        List.head?_map, Option.any_map]
      rfl
    rw [if_neg (not_lt.mpr hopen), hwide]
    by_cases htears : b.Tears cut value
    · rw [if_pos htears, if_pos (by rw [htears.1, htears.2, Bool.and_true])]
    · rw [if_neg htears, if_neg fun hboth => htears (Bool.and_eq_true_iff.mp hboth),
        List.take_append, List.take_of_length_le hopen, List.foldl_append, apply_preparation,
        ← List.map_take, apply_puts, List.nil_append]

/-! ### Values that read back -/

theorem legible_of_mem {c : Char} (hc : isSpace c = false) (h : c ∈ t) :
    strip (universalNewlines t) ≠ [] := by
  intro hnil
  have hspace := strip_eq_nil.mp hnil c (mem_universalNewlines hc h)
  rw [hc] at hspace
  cases hspace

theorem return_not_mem_strip (t : List Char) : '\r' ∉ strip (universalNewlines t) :=
  fun hmem => return_not_mem_universalNewlines t (mem_of_strip hmem)

theorem line_readsBack (h : strip (universalNewlines value) = value) :
    strip (universalNewlines (value ++ ['\n'])) = value := by
  have hreturn : '\r' ∉ value := h ▸ return_not_mem_strip value
  rw [universalNewlines_append _ hreturn, show universalNewlines ['\n'] = ['\n'] from rfl,
    strip_append_newline]
  rwa [universalNewlines_of_not_mem hreturn] at h

theorem mem_forceUuidVersion5 {c : Char} (h : c ∈ forceUuidVersion5 t) : c ∈ t ∨ c = '5' := by
  rw [forceUuidVersion5] at h
  split at h
  · rcases List.mem_append.mp h with h | h
    · exact .inl (List.mem_of_mem_take h)
    · rcases List.mem_cons.mp h with h | h
      · exact .inr h
      · exact .inl (List.mem_of_mem_drop h)
  · exact .inl h

/-- A value from the random source has no space around it, and its lines end in newlines. -/
theorem source_readsBack (text : List Char) :
    strip (universalNewlines (forceUuidVersion5 (strip (universalNewlines text)))) =
      forceUuidVersion5 (strip (universalNewlines text)) := by
  have hreturn : '\r' ∉ forceUuidVersion5 (strip (universalNewlines text)) := by
    intro hmem
    rcases mem_forceUuidVersion5 hmem with hmem | hfive
    · exact return_not_mem_strip text hmem
    · cases hfive
  rw [universalNewlines_of_not_mem hreturn, forceUuidVersion5]
  split
  · rename_i hlong
    apply strip_of_ends
    · intro c hc
      rw [List.head?_append_of_ne_nil _ (List.ne_nil_of_length_pos (by simp; omega)),
        List.head?_take] at hc
      exact strip_ends (.inl (by simpa using hc))
    · intro c hc
      rw [List.getLast?_append_cons] at hc
      cases hdrop : (strip (universalNewlines text)).drop 15 with
      | nil =>
        rw [hdrop] at hc
        cases hc
        decide
      | cons d rest =>
        rw [hdrop, List.getLast?_cons_cons, ← hdrop] at hc
        apply strip_ends (s := universalNewlines text)
        right
        rw [← List.take_append_drop 15 (strip (universalNewlines text)),
          List.getLast?_append_of_ne_nil _ (hdrop ▸ List.cons_ne_nil d rest)]
        exact hc
  · exact strip_of_ends (fun c hc => strip_ends (.inl hc)) (fun c hc => strip_ends (.inr hc))

/-! ### One boot after another -/

/-- The file holds what was returned, and is never blank. -/
structure Held (v : Volume) : Prop where
  returned : ∀ id ∈ v.returned, ∃ t, v.file = .text t ∧ strip (universalNewlines t) = id
  legible : ∀ t, v.file = .text t → strip (universalNewlines t) ≠ []

theorem Held.fixed (h : Held v) : Fixed v where
  nonempty id hid := by
    obtain ⟨t, hfile, rfl⟩ := h.returned id hid
    exact h.legible t hfile
  same id hid other hother := by
    obtain ⟨t, hfile, rfl⟩ := h.returned id hid
    obtain ⟨t', hfile', rfl⟩ := h.returned other hother
    rw [hfile] at hfile'
    cases hfile'
    rfl
  held := h.returned

theorem returns_of_present {id : List Char} (h : file ≠ .absent) (hid : b.returns file = some id) :
    ∃ t, file = .text t ∧ strip (universalNewlines t) = id := by
  rw [Boot.returns] at hid
  split at hid
  · cases file with
    | absent => exact absurd rfl h
    | unreadable => cases hid
    | text t =>
      cases hid
      exact ⟨t, rfl, rfl⟩
  · cases hid

/-- A value that a completed boot writes reads back as itself. -/
theorem WritesThrough.value_readsBack (h : WritesThrough v b) (hfile : v.file = .absent)
    (hcut : b.cut = none) (hvalue : b.value = some value) :
    strip (universalNewlines value) = value ∧ value ≠ [] := by
  rw [Boot.value] at hvalue
  by_cases hgiven : b.given = []
  · rw [if_neg (not_not.mpr hgiven)] at hvalue
    obtain ⟨text, hsource, rfl⟩ := Option.map_eq_some_iff.mp hvalue
    obtain ⟨c, hmem, hspace⟩ := h.source hfile hgiven text hsource
    have hne : strip (universalNewlines text) ≠ [] := legible_of_mem hspace hmem
    refine ⟨source_readsBack text, ?_⟩
    rw [forceUuidVersion5]
    split
    · simp
    · exact hne
  · rw [if_pos hgiven] at hvalue
    cases hvalue
    exact ⟨h.readsBack hfile hcut, hgiven⟩

theorem held_of_written (h : WritesThrough v b) (hfile : v.file = .absent) :
    Held ⟨b.leaves .absent, (b.returns .absent).toList⟩ := by
  cases hvalue : b.value with
  | none =>
    have hreturns : b.returns .absent = none := by
      rw [Boot.returns, ensureUuid_noValue hvalue]
      cases b.cut <;> rfl
    rw [leaves_noValue hvalue, hreturns]
    exact ⟨fun _ hid => absurd hid List.not_mem_nil, fun _ htext => by cases htext⟩
  | some value =>
    cases hcut : b.cut with
    | none =>
      obtain ⟨hreads, hne⟩ := h.value_readsBack hfile hcut hvalue
      have hreturns : b.returns .absent = some value := by
        rw [Boot.returns, hcut, ensureUuid_absent hvalue]
      rw [leaves_complete hcut hvalue, hreturns]
      constructor
      · intro id hid
        cases List.mem_singleton.mp hid
        exact ⟨_, rfl, line_readsBack hreads⟩
      · intro t htext
        cases htext
        rw [line_readsBack hreads]
        exact hne
    | some cut =>
      have hreturns : b.returns .absent = none := by rw [Boot.returns, hcut]
      rw [leaves_cut hcut hvalue, hreturns]
      refine ⟨fun _ hid => absurd hid List.not_mem_nil, ?_⟩
      intro t htext
      split at htext
      · cases htext
      · rename_i hopen
        split at htext
        · cases htext
        · rename_i htears
          cases htext
          have hbegun := h.begun hfile cut hcut value hvalue
          obtain ⟨c, hmem, hspace⟩ := (hbegun.resolve_left hopen).resolve_left htears
          refine legible_of_mem hspace ?_
          rw [List.take_append]
          exact List.mem_append_left _ hmem

theorem held_step (h : Held v) (hwrites : WritesThrough v b) (hstep : bootStep v b = some w) :
    Held w := by
  cases hstep
  by_cases hfile : v.file = .absent
  · have hnone : v.returned = [] := by
      rw [List.eq_nil_iff_forall_not_mem]
      intro id hid
      obtain ⟨t, htext, -⟩ := h.returned id hid
      rw [hfile] at htext
      cases htext
    rw [hnone, hfile, List.nil_append]
    exact held_of_written hwrites hfile
  · rw [leaves_of_present hfile]
    refine ⟨?_, h.legible⟩
    intro id hid
    rcases List.mem_append.mp hid with hid | hid
    · exact h.returned id hid
    · exact returns_of_present hfile (Option.mem_toList.mp hid)

/-- As long as every boot that opens a new file leaves something in it that reads back, all
completed boots of a volume return one identity, the one its file holds. -/
theorem identity_fixed (boots : List Boot) (v : Volume)
    (hwrites : Guarded bootStep WritesThrough ⟨.absent, []⟩ boots)
    (hrun : exec bootStep ⟨.absent, []⟩ boots = some v) : Fixed v := by
  have hstart : Held ⟨.absent, []⟩ :=
    ⟨fun _ hid => absurd hid List.not_mem_nil, fun _ htext => by cases htext⟩
  exact (guarded_invariant bootStep
    (fun _ _ _ hinv hguard hstep => held_step hinv hguard hstep) hstart hwrites hrun).fixed

end

private def kernelUuid : List Char := "f81d4fae-7dec-41d0-a765-00a0c91e6bf6\n".toList

/-- Killed before it opens the file, killed inside its line, and two boots to the end. -/
private def sturdyBoots : List Boot :=
  [⟨none, some kernelUuid, some ⟨2, false⟩⟩, ⟨none, some kernelUuid, some ⟨9, false⟩⟩,
    ⟨none, some kernelUuid, none⟩, ⟨some "supplied".toList, none, none⟩]

instance (v : Volume) (b : Boot) : Decidable (WritesThrough v b) :=
  decidable_of_iff
    ((v.file = .absent → b.given = [] → ∀ text ∈ b.source, ∃ c ∈ text, isSpace c = false) ∧
      (v.file = .absent → b.cut = none → strip (universalNewlines b.given) = b.given) ∧
      (v.file = .absent → ∀ cut ∈ b.cut, ∀ value ∈ b.value,
        cut.done < b.preparation.length ∨ b.Tears cut value ∨
          ∃ c ∈ value.take (cut.done - b.preparation.length), isSpace c = false))
    ⟨fun h => ⟨h.1, h.2.1, h.2.2⟩, fun h => ⟨h.source, h.readsBack, h.begun⟩⟩

theorem identity_fixed_example :
    Fixed ((exec bootStep ⟨.absent, []⟩ sturdyBoots).get (by decide)) :=
  identity_fixed sturdyBoots _ (by decide) (Option.some_get _).symm

/-- The first boot is killed with the file open and empty, and the next returns no identity. -/
theorem killed_boot_leaves_blank :
    exec bootStep ⟨.absent, []⟩ [⟨some "supplied".toList, none, some ⟨3, false⟩⟩,
      ⟨some "supplied".toList, none, none⟩] = some ⟨.text [], [[]]⟩ := by
  decide

end UnifiContainers.ConsoleId
