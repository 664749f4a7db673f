import UnifiContainers.Lib.Search
import UnifiContainers.Release.Order

/-!
# What version each product pins

A Dockerfile build arg for Network, an env file for UOS. The env-file library is a parameter: where
no line of a text runs on into the next one, it reads the text line by line, and the last line of a
key counts.
-/

namespace UnifiContainers.Pins

open Regex Pattern PyText

abbrev Text := List Char

def nonSpace (c : Char) : Bool := !isSpace c

/-- `\S+` -/
def word {γ : Type} [DecidableEq γ] : Pattern γ := .plus true (.one nonSpace)

/-- `^ARG <name>=(\S+)$` -/
def argRe (name : Text) : Pattern Unit :=
  .ofLine (.seq (.lit ("ARG ".toList ++ (name ++ ['=']))) (.group () word))

def pkgurlRe : Pattern Unit := argRe "PKGURL".toList

/-- `/unifi/(\d+\.\d+\.\d+)/` -/
def versionInUrlRe : Pattern Unit :=
  .seq (.lit "/unifi/".toList) (.seq (.group () dotted) (.lit ['/']))

def pkgurlVersion (dockerfile : Text) : Option Text :=
  (searchGroup pkgurlRe () dockerfile).bind (searchGroup versionInUrlRe ())

/-! ### The env file -/

def specialChars : List Char := ['\'', '"', '$', '\\']

/-- Text that the library takes as it stands and that no template changes. -/
def IsWord (s : Text) : Prop := ∀ c ∈ s, isSpace c = false ∧ c ∉ specialChars

instance (s : Text) : Decidable (IsWord s) := inferInstanceAs (Decidable (∀ c ∈ s, _ ∧ _))

theorem IsWord.append {s t : Text} (hs : IsWord s) (ht : IsWord t) : IsWord (s ++ t) := by
  intro c hc
  rcases List.mem_append.mp hc with hc | hc
  · exact hs c hc
  · exact ht c hc

def IsKey (s : Text) : Prop := s ≠ [] ∧ ∀ c ∈ s, c.isAlphanum ∨ c = '_'

instance (s : Text) : Decidable (IsKey s) := inferInstanceAs (Decidable (_ ∧ _))

abbrev Binding := Text × Option Text

/-- The value of the last line that assigns a key; the inner `none` is a key without a value. -/
def lastBinding (bindings : List Binding) (key : Text) : Option (Option Text) :=
  bindings.reverse.lookup key

/-- `dict(dotenv_values(stream))`, with the line reader it rests on. -/
structure DotEnv where
  values : Text → Text → Option (Option Text)
  binding : Text → Option Binding
  /-- The line is read by itself: its quotes close on it, and it refers to no other key. -/
  alone : Text → Prop
  values_eq : ∀ text, (∀ line ∈ lines text, alone line) → ∀ key,
    values text key = lastBinding ((lines text).filterMap binding) key
  alone_return : ∀ line, alone line → '\r' ∉ line
  alone_word : ∀ key, IsKey key → ∀ value, IsWord value → alone (key ++ '=' :: value)
  binding_key : ∀ key, IsKey key → ∀ rest b, binding (key ++ '=' :: rest) = some b → b.1 = key
  binding_word : ∀ key, IsKey key → ∀ value, IsWord value →
    binding (key ++ '=' :: value) = some (key, some value)

/-- No line of the text runs on into the next one. -/
def ByLine (env : DotEnv) (text : Text) : Prop := ∀ line ∈ lines text, env.alone line

def uosKey : Text := "UOS_VERSION".toList

/-- The files of a product's updater, `none` for bytes that do not decode. -/
structure Files where
  pin : Option Text
  readme : Option Text
  deriving DecidableEq, Repr

/-- `pins.pinned_version` on the text of the product's pin file. -/
def pinnedVersion (env : DotEnv) (product : Product) (text : Text) : Option Text :=
  match product with
  | .network => pkgurlVersion text
  | .unifiOs => ((env.values text uosKey).join).filter (· ≠ [])

/-! ### Argument lines -/

def argLine (name value : Text) : Text := "ARG ".toList ++ (name ++ '=' :: value)

def isArg (name line : Text) : Bool :=
  let head := "ARG ".toList ++ (name ++ ['='])
  head.isPrefixOf line && (line.drop head.length ≠ []) && (line.drop head.length).all nonSpace

def argValue (name line : Text) : Unit → Option Text :=
  fun _ => some (line.drop ("ARG ".toList ++ (name ++ ['='])).length)

section

variable {name line value : Text}

theorem isArg_iff : isArg name line = true ↔
    ∃ value, line = argLine name value ∧ value ≠ [] ∧ ∀ c ∈ value, nonSpace c = true := by
  rw [isArg, Bool.and_eq_true, Bool.and_eq_true, List.isPrefixOf_iff_prefix, List.all_eq_true,
    decide_eq_true_iff]
  constructor
  · intro h
    obtain ⟨⟨⟨rest, hrest⟩, hne⟩, hword⟩ := h
    subst hrest
    rw [List.drop_left] at hne hword
    exact ⟨rest, by simp [argLine], hne, hword⟩
  · intro h
    obtain ⟨rest, hline, hne, hword⟩ := h
    have hsplit : line = ("ARG ".toList ++ (name ++ ['='])) ++ rest := by
      rw [hline]
      simp [argLine]
    rw [hsplit, List.drop_left]
    exact ⟨⟨List.prefix_append _ _, hne⟩, hword⟩

theorem argValue_argLine : argValue name (argLine name value) () = some value := by
  have hsplit : argLine name value = ("ARG ".toList ++ (name ++ ['='])) ++ value := by
    simp [argLine]
  rw [argValue, hsplit, List.drop_left]

theorem nonSpace_newline : nonSpace '\n' = false := by decide

theorem linePattern_argRe (hname : '\n' ∉ name) :
    LinePattern (argRe name) (isArg name) (argValue name) := by
  have hsplit (value : Text) :
      argLine name value = ("ARG ".toList ++ (name ++ ['='])) ++ value := by
    simp [argLine]
  have hword : Consumes (γ := Unit) word (classWords₁ nonSpace) := consumes_plus_one true nonSpace
  apply linePattern_lit (classWords₁ nonSpace) fun value =>
    Function.update (fun _ => none) () (some value)
  · intro before after u
    exact hword.matches_group
  · intro line
    rw [isArg_iff]
    constructor
    · intro h
      obtain ⟨value, hline, hvalue⟩ := h
      exact ⟨value, hvalue, hline.trans (hsplit value)⟩
    · intro h
      obtain ⟨value, hvalue, hline⟩ := h
      exact ⟨value, hline.trans (hsplit value).symm, hvalue⟩
  · intro value
    funext _
    rw [← hsplit, argValue_argLine]
    rfl
  · intro hmem
    simp [hname] at hmem
  · intro value hvalue hmem
    have hspace := hvalue.2 '\n' hmem
    rw [nonSpace_newline] at hspace
    cases hspace

end

/-! ### Assignment lines -/

/-- `^<key>=.*$` -/
def keyRe (key : Text) : Pattern Empty :=
  .ofLine (.seq (.lit (key ++ ['='])) (.many true (.one (· ≠ '\n'))))

def assignment (key value : Text) : Text := key ++ '=' :: value

def isAssignment (key line : Text) : Bool := (key ++ ['=']).isPrefixOf line && line.all (· ≠ '\n')

def noGroups (_line : Text) : Empty → Option Text := Empty.elim

section

variable {key other line value : Text}

theorem isAssignment_iff : isAssignment key line = true ↔
    ∃ value, line = assignment key value ∧ '\n' ∉ line := by
  have hfree : line.all (· ≠ '\n') = true ↔ '\n' ∉ line := by
    rw [List.all_eq_true]
    constructor
    · intro h hmem
      exact absurd rfl (of_decide_eq_true (h '\n' hmem))
    · intro h c hc
      apply decide_eq_true
      intro heq
      exact h (heq ▸ hc)
  rw [isAssignment, Bool.and_eq_true, List.isPrefixOf_iff_prefix, hfree]
  constructor
  · intro h
    obtain ⟨⟨value, hvalue⟩, hline⟩ := h
    exact ⟨value, by rw [← hvalue]; simp [assignment], hline⟩
  · intro h
    obtain ⟨value, hvalue, hline⟩ := h
    refine ⟨⟨value, ?_⟩, hline⟩
    rw [hvalue]
    simp [assignment]

theorem linePattern_keyRe (key : Text) (hkey : '\n' ∉ key) :
    LinePattern (keyRe key) (isAssignment key) noGroups := by
  have hhead : '\n' ∉ key ++ ['='] := by simp [hkey]
  have hfree (value : Text) : value ∈ classWords (· ≠ '\n') ↔ '\n' ∉ value := by
    constructor
    · intro h hmem
      exact absurd rfl (of_decide_eq_true (h '\n' hmem))
    · intro h c hc
      apply decide_eq_true
      intro heq
      exact h (heq ▸ hc)
  apply linePattern_lit (classWords (· ≠ '\n')) noGroups
  · intro before after u
    rw [consumes_many_one true (γ := Empty) (· ≠ '\n')]
    have hgroups : noGroups = fun _ _ => none := by
      funext _ g
      cases g
    rw [hgroups]
    rfl
  · intro line
    rw [isAssignment_iff]
    constructor
    · intro h
      obtain ⟨value, hline, hnewline⟩ := h
      refine ⟨value, (hfree value).mpr fun hmem => hnewline ?_, by simp [hline, assignment]⟩
      simp [hline, assignment, hmem]
    · intro h
      obtain ⟨value, hvalue, hline⟩ := h
      refine ⟨value, by simp [hline, assignment], ?_⟩
      rw [hline, List.mem_append]
      exact fun hmem => hmem.elim hhead ((hfree value).mp hvalue)
  · intro value
    funext g
    cases g
  · exact hhead
  · intro value hvalue
    exact (hfree value).mp hvalue

theorem IsKey.not_mem (h : IsKey key) {c : Char} (hc : (c.isAlphanum || c == '_') = false) :
    c ∉ key := by
  intro hmem
  rcases h.2 c hmem with halnum | hunder
  · rw [halnum] at hc
    cases hc
  · subst hunder
    cases hc

theorem IsWord.not_mem (h : IsWord value) {c : Char}
    (hc : (isSpace c || specialChars.contains c) = true) : c ∉ value := by
  intro hmem
  obtain ⟨hspace, hspecial⟩ := h c hmem
  rw [hspace, Bool.false_or, List.contains_iff_mem] at hc
  exact hspecial hc

theorem IsKey.beforeEquals (h : IsKey key) : ∀ c ∈ key, (decide (c ≠ '=')) = true := by
  intro c hc
  apply decide_eq_true
  intro heq
  exact h.not_mem (c := '=') (by decide) (heq ▸ hc)

theorem not_mem_assignment (hkey : IsKey key) (hvalue : IsWord value) {c : Char} (heq : c ≠ '=')
    (hplain : (c.isAlphanum || c == '_') = false)
    (hspecial : (isSpace c || specialChars.contains c) = true) : c ∉ assignment key value := by
  intro hmem
  rcases List.mem_append.mp hmem with hmem | hmem
  · exact hkey.not_mem hplain hmem
  · rcases List.mem_cons.mp hmem with hsame | hmem
    · exact heq hsame
    · exact hvalue.not_mem hspecial hmem

/-- An assignment line is one of its own key alone. -/
theorem isAssignment_other (hkey : IsKey key) (hother : IsKey other) (hne : key ≠ other)
    (h : isAssignment key line = true) : isAssignment other line = false := by
  rw [Bool.eq_false_iff]
  intro hboth
  obtain ⟨value, hline, -⟩ := isAssignment_iff.mp h
  obtain ⟨value', hline', -⟩ := isAssignment_iff.mp hboth
  rw [hline, assignment, assignment] at hline'
  have hequals : decide ('=' ≠ '=') = false := rfl
  obtain ⟨hsame, -⟩ := classWords_cons_inj hkey.beforeEquals hother.beforeEquals hequals hequals
    hline'
  exact hne hsame

end

/-! ### What a rewritten file gives its reader -/

section

variable (env : DotEnv)

/-- What some lines give a key. -/
def valueIn (parts : List Text) (key : Text) : Option (Option Text) :=
  lastBinding (parts.filterMap env.binding) key

def assigned (key line : Text) : Option (Option Text) :=
  (env.binding line).bind fun b => if b.1 = key then some b.2 else none

/-- The lines after the first one that a rewrite of the key finds. -/
def afterFirst (key : Text) (parts : List Text) : List Text :=
  (parts.dropWhile fun line => !isAssignment key line).tail

/-- A later line assigns the key again, so that the rewritten one is not the one that counts. -/
def Reassigned (key text : Text) : Prop :=
  (valueIn env (afterFirst key (lines text)) key).isSome = true

instance (key text : Text) : Decidable (Reassigned env key text) :=
  inferInstanceAs (Decidable (_ = true))

end

def setLine (key value : Text) (parts : List Text) : List Text :=
  replaceFirst (isAssignment key) (assignment key value) parts

section

variable {env : DotEnv} {key other value line : Text} {parts : List Text}

theorem lastBinding_cons (b : Binding) (bindings : List Binding) (key : Text) :
    lastBinding (b :: bindings) key =
      (lastBinding bindings key).or (if b.1 = key then some b.2 else none) := by
  rw [lastBinding, List.reverse_cons, List.lookup_append, lastBinding]
  congr 1
  rw [List.lookup_cons]
  by_cases h : b.1 = key
  · simp [h]
  · rw [if_neg h, beq_false_of_ne (Ne.symm h)]
    rfl

theorem valueIn_cons (line : Text) (parts : List Text) (key : Text) :
    valueIn env (line :: parts) key = (valueIn env parts key).or (assigned env key line) := by
  rw [valueIn, valueIn, assigned, List.filterMap_cons]
  cases env.binding line with
  | none => simp
  | some b => exact lastBinding_cons b _ key

theorem assigned_other (hkey : IsKey key) (hne : key ≠ other) (h : isAssignment key line = true) :
    assigned env other line = none := by
  obtain ⟨value, hline, -⟩ := isAssignment_iff.mp h
  rw [assigned]
  cases hb : env.binding line with
  | none => rfl
  | some b =>
    rw [hline] at hb
    have hown := env.binding_key key hkey value b hb
    rw [Option.bind_some, if_neg (by rw [hown]; exact hne)]

theorem isAssignment_assignment (hkey : IsKey key) (hvalue : IsWord value) :
    isAssignment key (assignment key value) = true := by
  apply isAssignment_iff.mpr
  exact ⟨value, rfl, not_mem_assignment hkey hvalue (by decide) (by decide) (by decide)⟩

theorem assigned_assignment (hkey : IsKey key) (hvalue : IsWord value) :
    assigned env key (assignment key value) = some (some value) := by
  rw [assigned, assignment, env.binding_word key hkey value hvalue, Option.bind_some, if_pos rfl]

/-- Another key keeps its value. -/
theorem valueIn_setLine_other (hkey : IsKey key) (hvalue : IsWord value) (hne : key ≠ other) :
    valueIn env (setLine key value parts) other = valueIn env parts other := by
  induction parts with
  | nil => rfl
  | cons line parts ih =>
    rw [setLine, replaceFirst]
    split
    · rename_i hline
      rw [valueIn_cons, valueIn_cons, assigned_other hkey hne hline,
        assigned_other hkey hne (isAssignment_assignment hkey hvalue)]
    · rw [valueIn_cons, valueIn_cons]
      exact congrArg (Option.or · _) ih

/-- The key gets the new value, unless a later line assigns it again. -/
theorem valueIn_setLine_self (hkey : IsKey key) (hvalue : IsWord value)
    (hany : parts.any (isAssignment key) = true) :
    valueIn env (setLine key value parts) key =
      if (valueIn env (afterFirst key parts) key).isSome then valueIn env parts key
      else some (some value) := by
  induction parts with
  | nil => cases hany
  | cons line parts ih =>
    rw [setLine, replaceFirst]
    by_cases hline : isAssignment key line = true
    · rw [if_pos hline, valueIn_cons, assigned_assignment hkey hvalue, valueIn_cons, afterFirst,
        List.dropWhile_cons_of_neg (by simp [hline]), List.tail_cons]
      cases valueIn env parts key <;> simp
    · have hrest : parts.any (isAssignment key) = true := by
        simpa [hline] using hany
      have hskip : afterFirst key (line :: parts) = afterFirst key parts := by
        rw [afterFirst, List.dropWhile_cons_of_pos (by simp [hline])]
        rfl
      rw [if_neg hline, valueIn_cons, hskip, valueIn_cons]
      show (valueIn env (setLine key value parts) key).or _ = _
      rw [ih hrest]
      split <;> rfl

theorem valueIn_afterFirst_other (hkey : IsKey key) (hother : IsKey other) (hvalue : IsWord value)
    (hne : key ≠ other) : valueIn env (afterFirst other (setLine key value parts)) other =
      valueIn env (afterFirst other parts) other := by
  induction parts with
  | nil => rfl
  | cons line parts ih =>
    rw [setLine, replaceFirst]
    split
    · rename_i hline
      have hold := isAssignment_other hkey hother hne hline
      have hnew := isAssignment_other hkey hother hne (isAssignment_assignment hkey hvalue)
      rw [afterFirst, afterFirst, List.dropWhile_cons_of_pos (by simp [hnew]),
        List.dropWhile_cons_of_pos (by simp [hold])]
    · by_cases hline : isAssignment other line = true
      · rw [afterFirst, afterFirst, List.dropWhile_cons_of_neg (by simp [hline]),
          List.dropWhile_cons_of_neg (by simp [hline])]
        exact valueIn_setLine_other hkey hvalue hne
      · rw [afterFirst, afterFirst, List.dropWhile_cons_of_pos (by simp [hline]),
          List.dropWhile_cons_of_pos (by simp [hline])]
        exact ih

end

/-! ### A reader of plain lines -/

/-- A comment or an empty line assigns nothing; a value is what stands after the first `=`. -/
def lineBinding (line : Text) : Option Binding :=
  if line = [] ∨ line.head? = some '#' then none
  else
    match line.dropWhile (· ≠ '=') with
    | [] => some (line, none)
    | _ :: value => some (line.takeWhile (· ≠ '='), some value)

theorem lineBinding_assignment {key : Text} (hkey : IsKey key) (value : Text) :
    lineBinding (assignment key value) = some (key, some value) := by
  have hstart : ¬ (assignment key value = [] ∨ (assignment key value).head? = some '#') := by
    obtain ⟨c, rest, hkeyEq⟩ := List.exists_cons_of_ne_nil hkey.1
    subst hkeyEq
    rintro (hnil | hcomment)
    · cases hnil
    · cases hcomment
      exact hkey.not_mem (c := '#') (by decide) List.mem_cons_self
  rw [lineBinding, if_neg hstart, assignment, List.dropWhile_append_of_pos hkey.beforeEquals,
    List.takeWhile_append_of_pos hkey.beforeEquals]
  simp

/-- A comment, or a line without quotes and substitutions. -/
def IsLone (line : Text) : Prop :=
  '\r' ∉ line ∧ (line.head? = some '#' ∨ ∀ c ∈ line, c ≠ '\'' ∧ c ≠ '"' ∧ c ≠ '$')

instance (line : Text) : Decidable (IsLone line) := inferInstanceAs (Decidable (_ ∧ (_ ∨ _)))

theorem isLone_assignment {key value : Text} (hkey : IsKey key) (hvalue : IsWord value) :
    IsLone (assignment key value) := by
  have hfree : ∀ c ∈ ['\r', '\'', '"', '$'], c ∉ assignment key value := by
    intro c hc
    have hmarks : c ≠ '=' ∧ (c.isAlphanum || c == '_') = false ∧
        (isSpace c || specialChars.contains c) = true := by
      revert c
      decide
    exact not_mem_assignment hkey hvalue hmarks.1 hmarks.2.1 hmarks.2.2
  refine ⟨hfree '\r' (by simp), .inr fun c hc => ⟨?_, ?_, ?_⟩⟩ <;>
    (intro heq; exact hfree c (by simp [heq]) hc)

def lineEnv : DotEnv where
  values text key := lastBinding ((lines text).filterMap lineBinding) key
  binding := lineBinding
  alone := IsLone
  values_eq _ _ _ := rfl
  alone_return _ h := h.1
  alone_word _ hkey _ hvalue := isLone_assignment hkey hvalue
  binding_key key hkey rest b hb := by
    have hline := lineBinding_assignment hkey rest
    rw [assignment, hb] at hline
    cases hline
    rfl
  binding_word key hkey value _ := lineBinding_assignment hkey value

instance (text : Text) : Decidable (ByLine lineEnv text) :=
  inferInstanceAs (Decidable (∀ line ∈ lines text, IsLone line))

end UnifiContainers.Pins
