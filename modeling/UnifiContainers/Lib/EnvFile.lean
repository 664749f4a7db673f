import Mathlib.Data.List.DropRight

/-!
# Environment files as the service manager reads them

A line assigns the text after its `=`. A single quote opens a run that is taken literally only where
the value has not started yet: once an unquoted character has been taken, quotes are ordinary
characters, so a shell's way of leaving and reopening the quotes does not carry over.
-/

namespace EnvFile

abbrev Assignment := List Char × List Char

inductive State where
  | preKey
  | comment
  | key (name : List Char)
  | preValue (name value : List Char)
  | quoted (name value : List Char)
  | unquoted (name value : List Char)
  | escape (name value : List Char)
  deriving DecidableEq, Repr

def isBlank (c : Char) : Bool := c = ' ' || c = '\t'

open State in
def step : State → Char → State × List Assignment
  | preKey, c =>
      if c = '\n' || isBlank c then (preKey, [])
      else if c = '#' || c = ';' then (comment, [])
      else (key [c], [])
  | comment, c => (if c = '\n' then preKey else comment, [])
  | key name, c =>
      if c = '\n' then (preKey, [])
      else if c = '=' then (preValue (name.rdropWhile isBlank) [], [])
      else (key (name ++ [c]), [])
  | preValue name value, c =>
      if c = '\n' then (preKey, [(name, value)])
      else if c = '\'' then (quoted name value, [])
      else if c = '\\' then (escape name value, [])
      else if isBlank c then (preValue name value, [])
      else (unquoted name (value ++ [c]), [])
  | quoted name value, c =>
      if c = '\'' then (preValue name value, []) else (quoted name (value ++ [c]), [])
  | unquoted name value, c =>
      if c = '\n' then (preKey, [(name, value)])
      else if c = '\\' then (escape name value, [])
      else (unquoted name (value ++ [c]), [])
  | escape name value, c => (unquoted name (value ++ [c]), [])

def run (s : State) : List Char → State × List Assignment
  | [] => (s, [])
  | c :: text => ((run (step s c).1 text).1, (step s c).2 ++ (run (step s c).1 text).2)

/-- The text ends inside a value. -/
def finish : State → List Assignment
  | .preKey | .comment | .key _ => []
  | .preValue name value | .quoted name value | .unquoted name value | .escape name value =>
      [(name, value)]

def read (text : List Char) : List Assignment :=
  (run .preKey text).2 ++ finish (run .preKey text).1

/-- A later assignment of a name replaces an earlier one. -/
def environment (assigned : List Assignment) (name : List Char) : Option (List Char) :=
  assigned.reverse.lookup name

variable {s : State} {c : Char} {text more name value : List Char}

@[simp]
theorem run_nil (s : State) : run s [] = (s, []) := rfl

theorem run_cons (s : State) (c : Char) (text : List Char) :
    run s (c :: text) =
      ((run (step s c).1 text).1, (step s c).2 ++ (run (step s c).1 text).2) := rfl

theorem run_append (s : State) (text more : List Char) :
    run s (text ++ more) =
      ((run (run s text).1 more).1, (run s text).2 ++ (run (run s text).1 more).2) := by
  induction text generalizing s with
  | nil => simp
  | cons c text ih => simp [run_cons, ih, List.append_assoc]

theorem run_quoted (h : '\'' ∉ text) :
    run (.quoted name value) text = (.quoted name (value ++ text), []) := by
  induction text generalizing value with
  | nil => simp
  | cons c text ih =>
    have hc : c ≠ '\'' := fun heq => h (by simp [heq])
    have ht : '\'' ∉ text := fun hm => h (List.mem_cons_of_mem c hm)
    simp [run_cons, step, hc, ih ht]

/-- A text that can stand before `=` and is read back as it is. -/
structure IsName (name : List Char) : Prop where
  nonempty : name ≠ []
  start : name.head? ≠ some '#' ∧ name.head? ≠ some ';'
  plain : ∀ c ∈ name, c ≠ '\n' ∧ c ≠ '=' ∧ c ≠ '\'' ∧ isBlank c = false

private theorem run_key (h : ∀ c ∈ text, c ≠ '\n' ∧ c ≠ '=') :
    run (.key name) text = (.key (name ++ text), []) := by
  induction text generalizing name with
  | nil => simp
  | cons c text ih =>
    have hc := h c (by simp)
    have ht : ∀ d ∈ text, d ≠ '\n' ∧ d ≠ '=' := fun d hd => h d (List.mem_cons_of_mem c hd)
    simp [run_cons, step, hc.1, hc.2, ih ht]

theorem rdropWhile_isBlank (h : ∀ c ∈ name, isBlank c = false) :
    name.rdropWhile isBlank = name := by
  rw [List.rdropWhile_eq_self_iff]
  intro hne
  simp [h _ (List.getLast_mem hne)]

theorem run_name (h : IsName name) :
    run .preKey (name ++ ['=']) = (.preValue name [], []) := by
  cases name with
  | nil => exact absurd rfl h.nonempty
  | cons c rest =>
    have hc := h.plain c (by simp)
    have hs := h.start
    simp only [List.head?_cons, ne_eq, Option.some.injEq] at hs
    have hrest : ∀ d ∈ rest, d ≠ '\n' ∧ d ≠ '=' := fun d hd =>
      ⟨(h.plain d (List.mem_cons_of_mem c hd)).1, (h.plain d (List.mem_cons_of_mem c hd)).2.1⟩
    have hb : (c :: rest).rdropWhile isBlank = c :: rest :=
      rdropWhile_isBlank fun d hd => (h.plain d hd).2.2.2
    have hstep : step .preKey c = (.key [c], []) := by simp [step, hc.1, hc.2.2.2, hs.1, hs.2]
    rw [List.cons_append, run_cons, hstep, run_append, run_key hrest]
    simp [run_cons, step, hb]

end EnvFile
