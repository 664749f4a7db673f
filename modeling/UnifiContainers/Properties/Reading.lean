import UnifiContainers.Lib.OrderedDict
import UnifiContainers.Properties.Escape
import Mathlib.Data.List.DropRight

/-!
# Reading a properties file

The parser takes the file line by line and keeps the text of every element, so that an element that
nobody changes is written back as it was.
-/

namespace UnifiContainers.Properties

/-! ### Lines -/

def isEol (c : Char) : Bool := c == '\r' || c == '\n'

/-- `[ \t\f]` -/
def isBlank (c : Char) : Bool := c == ' ' || c == '\t' || c == '\x0c'

/-- The lines of a text that begins with one more character. -/
def consLine (c : Char) : List (List Char) → List (List Char)
  | [] => [[c]]
  | line :: lines => (c :: line) :: lines

/-- `ascii_splitlines`: each line with its `\n`, `\r\n` or `\r`. -/
def asciiSplitlines : List Char → List (List Char)
  | [] => []
  | c :: rest =>
      if c = '\n' then [c] :: asciiSplitlines rest
      else if c = '\r' then
        match rest with
        | [] => [[c]]
        | d :: more =>
            if d = '\n' then [c, d] :: asciiSplitlines more else [c] :: asciiSplitlines (d :: more)
      else consLine c (asciiSplitlines rest)

/-- The lines that `readline` answers, which end at a line feed only. -/
def readlines : List Char → List (List Char)
  | [] => []
  | c :: rest =>
      if c = '\n' then [c] :: readlines rest else consLine c (readlines rest)

/-- `lineiter` -/
def lineiter (text : List Char) : List (List Char) := (readlines text).flatMap asciiSplitlines

/-! ### Patterns -/

/-- `COMMENT_RGX` -/
def isComment (line : List Char) : Bool :=
  (line.dropWhile isBlank).head?.any fun c => c == '#' || c == '!'

/-- `BLANK_RGX` -/
def isBlankLine (line : List Char) : Bool :=
  [[], ['\r'], ['\n'], ['\r', '\n']].contains (line.dropWhile isBlank)

/-- `.lstrip(" \t\f").rstrip("\r\n")` -/
def stripLine (line : List Char) : List Char := (line.dropWhile isBlank).rdropWhile isEol

/-- The text before a final `\r?\n?`. -/
def dropEol (s : List Char) : List Char :=
  let s := if s.getLast? = some '\n' then s.dropLast else s
  if s.getLast? = some '\r' then s.dropLast else s

/-- `CONTINUED_RGX.search`: an odd number of backslashes before the line ending. -/
def isContinued (s : List Char) : Bool :=
  ((dropEol s).reverse.takeWhile (· == '\\')).length % 2 == 1

/-- `CONTINUED_RGX.sub(r"\1", s)` -/
def subContinued (s : List Char) : List Char := if isContinued s then (dropEol s).dropLast else s

/-- `([ \t\f]*[=:]|[ \t\f])[ \t\f]*` where the text begins: what follows it. -/
def separator? (s : List Char) : Option (List Char) :=
  match s.dropWhile isBlank with
  | [] => if s.head?.any isBlank then some [] else none
  | c :: rest =>
      if c = '=' ∨ c = ':' then some (rest.dropWhile isBlank)
      else if s.head?.any isBlank then some (c :: rest) else none

/-- `SEPARATOR_RGX` where the text begins, after its lookbehind: the pairs of backslashes before the
separator and what follows it. -/
def separatorAt : List Char → Option (List Char × List Char)
  | c :: d :: rest =>
      if c = '\\' ∧ d = '\\' then (separatorAt rest).map fun found => (c :: d :: found.1, found.2)
      else (separator? (c :: d :: rest)).map fun value => ([], value)
  | s => (separator? s).map fun value => ([], value)

/-- `SEPARATOR_RGX.search`: the text up to group 1 and what follows the match. -/
def searchSeparator (prev : Option Char) : List Char → Option (List Char × List Char)
  | [] => none
  | c :: rest =>
      match if prev = some '\\' then none else separatorAt (c :: rest) with
      | some found => some found
      | none => (searchSeparator (some c) rest).map fun found => (c :: found.1, found.2)

/-! ### Elements -/

abbrev Key := List CodePoint

abbrev Value := List CodePoint

inductive Element where
  | comment (source : List Char)
  | whitespace (source : List Char)
  | keyValue (key : Key) (value : Value) (source : List Char)
  deriving DecidableEq, Repr

def Element.source : Element → List Char
  | .comment source => source
  | .whitespace source => source
  | .keyValue _ _ source => source

/-- The entry of a `KeyValue`. -/
def Element.entry? : Element → Option (Key × Value)
  | .keyValue key value _ => some (key, value)
  | _ => none

/-- The element that a line, joined with those that continue it, stands for. -/
def elementOf (line source : List Char) : Except InvalidUEscapeError Element :=
  if line = [] then .ok (.whitespace source)
  else
    match searchSeparator none line with
    | some (key, value) => do
        let key ← unescape key
        let value ← unescape value
        return .keyValue key value source
    | none => do
        let key ← unescape line
        return .keyValue key [] source

/-- `parse`. What is pending is a line whose last backslash continues it, without that backslash,
and its source so far. -/
def parseFrom : Option (List Char × List Char) → List (List Char) →
    Except InvalidUEscapeError (List Element)
  | none, [] => .ok []
  | some (line, source), [] => do
      -- `next(liter, "")`: nothing is left to continue the line with
      let element ← elementOf line source
      return [element]
  | pending, next :: rest =>
      if pending.isNone && isComment next then (.comment next :: ·) <$> parseFrom none rest
      else if pending.isNone && isBlankLine next then (.whitespace next :: ·) <$> parseFrom none rest
      else
        let line := (pending.getD ([], [])).1 ++ stripLine next
        let source := (pending.getD ([], [])).2 ++ next
        if isContinued line then parseFrom (some (line.dropLast, source)) rest
        else do
          let element ← elementOf line source
          let elements ← parseFrom none rest
          return element :: elements

def parse (text : List Char) : Except InvalidUEscapeError (List Element) :=
  parseFrom none (lineiter text)

/-- The pairs that `load` hands on. -/
def entries (elements : List Element) : List (Key × Value) := elements.filterMap Element.entry?

/-- The dict of the pairs, in which the last entry of a key wins. -/
def itemsOf (elements : List Element) : List (Key × Value) := OrderedDict.ofItems (entries elements)

def loads (text : List Char) : Except InvalidUEscapeError (List (Key × Value)) :=
  itemsOf <$> parse text

/-! ### Lines and their sources -/

variable {c d : Char} {text : List Char}

theorem asciiSplitlines_lf (rest : List Char) :
    asciiSplitlines ('\n' :: rest) = ['\n'] :: asciiSplitlines rest := by
  rw [asciiSplitlines.eq_def]
  exact if_pos rfl

theorem asciiSplitlines_crlf (rest : List Char) :
    asciiSplitlines ('\r' :: '\n' :: rest) = ['\r', '\n'] :: asciiSplitlines rest :=
  rfl

theorem asciiSplitlines_cr {rest : List Char} (h : rest.head? ≠ some '\n') :
    asciiSplitlines ('\r' :: rest) = ['\r'] :: asciiSplitlines rest := by
  cases rest with
  | nil => rfl
  | cons d more =>
    have hd : d ≠ '\n' := fun heq => h (congrArg some heq)
    exact if_neg hd

theorem asciiSplitlines_cons (h : isEol c = false) (rest : List Char) :
    asciiSplitlines (c :: rest) = consLine c (asciiSplitlines rest) := by
  rw [isEol, Bool.or_eq_false_iff, beq_eq_false_iff_ne, beq_eq_false_iff_ne] at h
  rw [asciiSplitlines.eq_def]
  exact (if_neg h.2).trans (if_neg h.1)

theorem isEol_iff : isEol c = true ↔ c = '\r' ∨ c = '\n' := by
  simp [isEol]

/-- The cases in which a text begins: at its end, with one of the three line endings, or with a
character of a line. -/
theorem lines_cases {motive : List Char → Prop} (nil : motive [])
    (lf : ∀ rest, motive rest → motive ('\n' :: rest))
    (crlf : ∀ rest, motive rest → motive ('\r' :: '\n' :: rest))
    (cr : ∀ rest, rest.head? ≠ some '\n' → motive rest → motive ('\r' :: rest))
    (char : ∀ c rest, isEol c = false → motive rest → motive (c :: rest)) (text : List Char) :
    motive text := by
  induction text using asciiSplitlines.induct with
  | case1 => exact nil
  | case2 rest ih => exact lf rest ih
  | case3 => exact cr [] (by simp) nil
  | case4 more _ ih => exact crlf more ih
  | case5 d more hd _ ih => exact cr (d :: more) (fun heq => hd (Option.some.inj heq)) ih
  | case6 c rest hlf hcr ih => exact char c rest (by simp [isEol, hlf, hcr]) ih

theorem flatten_consLine (c : Char) (lines : List (List Char)) :
    (consLine c lines).flatten = c :: lines.flatten := by
  cases lines <;> rfl

theorem flatten_asciiSplitlines (text : List Char) : (asciiSplitlines text).flatten = text := by
  induction text using lines_cases with
  | nil => rfl
  | lf rest ih => rw [asciiSplitlines_lf, List.flatten_cons, ih, List.singleton_append]
  | crlf rest ih => rw [asciiSplitlines_crlf, List.flatten_cons, ih]; rfl
  | cr rest h ih => rw [asciiSplitlines_cr h, List.flatten_cons, ih, List.singleton_append]
  | char c rest h ih => rw [asciiSplitlines_cons h, flatten_consLine, ih]

theorem readlines_cons (hc : c ≠ '\n') (rest : List Char) :
    readlines (c :: rest) = consLine c (readlines rest) := by
  rw [readlines]
  exact if_neg hc

/-- What `readline` answers first. -/
theorem readlines_head (d : Char) (rest : List Char) :
    ∃ line lines, readlines (d :: rest) = (d :: line) :: lines := by
  rw [readlines]
  split
  · exact ⟨[], readlines rest, by simp_all⟩
  · cases readlines rest with
    | nil => exact ⟨[], [], rfl⟩
    | cons line lines => exact ⟨line, lines, rfl⟩

/-- A character of a line is put before its first piece. -/
theorem flatMap_asciiSplitlines_cons (h : isEol c = false) (lines : List (List Char))
    (hne : ∀ line ∈ lines, line ≠ []) :
    (consLine c lines).flatMap asciiSplitlines = consLine c (lines.flatMap asciiSplitlines) := by
  cases lines with
  | nil => rw [consLine, List.flatMap_singleton, asciiSplitlines_cons h]; rfl
  | cons line lines =>
    have hsplit : asciiSplitlines line ≠ [] := by
      intro heq
      have hflat := flatten_asciiSplitlines line
      rw [heq] at hflat
      exact hne line List.mem_cons_self hflat.symm
    rw [consLine, List.flatMap_cons, asciiSplitlines_cons h, List.flatMap_cons]
    cases hlines : asciiSplitlines line with
    | nil => exact absurd hlines hsplit
    | cons first others => rfl

theorem ne_nil_of_mem_readlines {line : List Char} (h : line ∈ readlines text) : line ≠ [] := by
  induction text generalizing line with
  | nil => cases h
  | cons c rest ih =>
    rw [readlines] at h
    split at h
    · rcases List.mem_cons.mp h with rfl | h
      · exact List.cons_ne_nil _ _
      · exact ih h
    · cases hrest : readlines rest with
      | nil =>
        rw [hrest] at h
        obtain rfl := List.mem_singleton.mp h
        exact List.cons_ne_nil _ _
      | cons first others =>
        rw [hrest] at h
        rcases List.mem_cons.mp h with rfl | h
        · exact List.cons_ne_nil _ _
        · exact ih (hrest ▸ List.mem_cons_of_mem _ h)

/-- Reading line by line splits nothing that splitting at once does not. -/
theorem lineiter_eq (text : List Char) : lineiter text = asciiSplitlines text := by
  rw [lineiter]
  induction text using lines_cases with
  | nil => rfl
  | lf rest ih =>
    rw [readlines, if_pos rfl, List.flatMap_cons, ih, asciiSplitlines_lf, asciiSplitlines_lf]
    rfl
  | crlf rest ih =>
    rw [readlines_cons (by decide), readlines, if_pos rfl, consLine, List.flatMap_cons, ih,
      asciiSplitlines_crlf]
    rfl
  | cr rest h ih =>
    rw [readlines_cons (by decide), asciiSplitlines_cr h, ← ih]
    cases rest with
    | nil => rfl
    | cons d more =>
      obtain ⟨line, lines, hlines⟩ := readlines_head d more
      have hcr : asciiSplitlines ('\r' :: d :: line) = ['\r'] :: asciiSplitlines (d :: line) :=
        asciiSplitlines_cr h
      rw [hlines, consLine, List.flatMap_cons, List.flatMap_cons, hcr]
      rfl
  | char c rest h ih =>
    have hc : c ≠ '\n' := fun heq => by
      rw [heq] at h
      exact absurd h (by decide)
    rw [readlines_cons hc, flatMap_asciiSplitlines_cons h _ fun line => ne_nil_of_mem_readlines, ih,
      asciiSplitlines_cons h]

open Fallible

theorem map_ok {α β ε : Type} {f : α → β} {x : Except ε α} {b : β} (h : f <$> x = .ok b) :
    ∃ a, x = .ok a ∧ f a = b := by
  cases x with
  | error e => cases h
  | ok a => exact ⟨a, rfl, Except.ok.inj h⟩

theorem elementOf_source {line source : List Char} {element : Element}
    (h : elementOf line source = .ok element) : element.source = source := by
  rw [elementOf] at h
  split at h
  · cases h
    rfl
  · split at h
    · obtain ⟨key, -, h⟩ := bind_ok h
      obtain ⟨value, -, h⟩ := bind_ok h
      cases h
      rfl
    · obtain ⟨key, -, h⟩ := bind_ok h
      cases h
      rfl

/-- What one more line does to the parser. -/
theorem parseFrom_cons (pending : Option (List Char × List Char)) (next : List Char)
    (rest : List (List Char)) :
    parseFrom pending (next :: rest) =
      if pending.isNone && isComment next then (.comment next :: ·) <$> parseFrom none rest
      else if pending.isNone && isBlankLine next then (.whitespace next :: ·) <$> parseFrom none rest
      else
        let line := (pending.getD ([], [])).1 ++ stripLine next
        let source := (pending.getD ([], [])).2 ++ next
        if isContinued line then parseFrom (some (line.dropLast, source)) rest
        else do
          let element ← elementOf line source
          let elements ← parseFrom none rest
          return element :: elements := by
  cases pending <;> rfl

theorem parseFrom_sources {pending : Option (List Char × List Char)} {lines : List (List Char)}
    {elements : List Element} (h : parseFrom pending lines = .ok elements) :
    (elements.map Element.source).flatten = (pending.getD ([], [])).2 ++ lines.flatten := by
  induction lines generalizing pending elements with
  | nil =>
    cases pending with
    | none =>
      cases h
      rfl
    | some read =>
      obtain ⟨element, helement, h⟩ := bind_ok h
      cases h
      rw [List.map_singleton, elementOf_source helement, List.flatten_nil, List.append_nil]
      exact List.append_nil _
  | cons next rest ih =>
    rw [parseFrom_cons] at h
    split at h
    · next hcomment =>
      rw [Bool.and_eq_true, Option.isNone_iff_eq_none] at hcomment
      obtain ⟨others, hothers, rfl⟩ := map_ok h
      rw [hcomment.1, List.map_cons, List.flatten_cons, ih hothers]
      rfl
    · split at h
      · next hblank =>
        rw [Bool.and_eq_true, Option.isNone_iff_eq_none] at hblank
        obtain ⟨others, hothers, rfl⟩ := map_ok h
        rw [hblank.1, List.map_cons, List.flatten_cons, ih hothers]
        rfl
      · dsimp only at h
        split at h
        · rw [ih h, List.flatten_cons, Option.getD_some, List.append_assoc]
        · obtain ⟨element, helement, h⟩ := bind_ok h
          obtain ⟨others, hothers, h⟩ := bind_ok h
          cases h
          rw [List.map_cons, List.flatten_cons, ih hothers, elementOf_source helement,
            List.flatten_cons, Option.getD_none, List.nil_append, List.append_assoc]

/-- The sources of the elements are the text. -/
theorem parse_sources {elements : List Element} (h : parse text = .ok elements) :
    (elements.map Element.source).flatten = text := by
  rw [parse, lineiter_eq] at h
  rw [parseFrom_sources h, flatten_asciiSplitlines]
  rfl

end UnifiContainers.Properties
