import UnifiContainers.Properties.Reading

/-!
# What a properties file says

A text is its logical lines: the lines without their endings, those that a backslash continues
joined with the next, the comments left out. A line is read from the left, an escape at a time. The
parser, which looks backwards for backslashes and keeps the sources, reads the same entries.
-/

namespace UnifiContainers.Properties

/-! ### The text as its lines -/

/-- A line without its ending. -/
def content (line : List Char) : List Char := line.takeWhile fun c => !isEol c

def ending (line : List Char) : List Char := line.dropWhile fun c => !isEol c

def contents (text : List Char) : List (List Char) := (asciiSplitlines text).map content

/-- The last backslash is left without a character to escape. -/
def dangles : List Char → Bool
  | [] => false
  | c :: rest =>
      if c = '\\' then
        match rest with
        | [] => true
        | _ :: more => dangles more
      else dangles rest

/-- The text before the first separator that is not escaped, and the text after it. -/
def scan : List Char → Option (List Char × List Char)
  | [] => none
  | c :: rest =>
      if c = '\\' then
        match rest with
        | [] => none
        | d :: more => (scan more).map fun found => (c :: d :: found.1, found.2)
      else
        match separator? (c :: rest) with
        | some value => some ([], value)
        | none => (scan rest).map fun found => (c :: found.1, found.2)

/-- The lines that one more line completes, and the line that it leaves to be continued. -/
def feed (pending : Option (List Char)) (next : List Char) :
    List (List Char) × Option (List Char) :=
  if pending.isNone && isComment next then ([], none)
  else
    let line := pending.getD [] ++ next.dropWhile isBlank
    if dangles line then ([], some line.dropLast) else ([line], none)

def logical : Option (List Char) → List (List Char) → List (List Char) × Option (List Char)
  | pending, [] => ([], pending)
  | pending, next :: rest =>
      ((feed pending next).1 ++ (logical (feed pending next).2 rest).1,
        (logical (feed pending next).2 rest).2)

/-- The logical lines of a text that ends here. -/
def logicalLines (pending : Option (List Char)) (lines : List (List Char)) : List (List Char) :=
  (logical pending lines).1 ++ (logical pending lines).2.toList

/-- The entry of a logical line, none if the line is empty. -/
def entryOf (line : List Char) : Except InvalidUEscapeError (List (Key × Value)) :=
  if line = [] then .ok []
  else do
    let parts := (scan line).getD (line, [])
    let key ← unescape parts.1
    let value ← unescape parts.2
    return [(key, value)]

def entriesOf : List (List Char) → Except InvalidUEscapeError (List (Key × Value))
  | [] => .ok []
  | line :: lines => do
      let first ← entryOf line
      let others ← entriesOf lines
      return first ++ others

def meaning (text : List Char) : Except InvalidUEscapeError (List (Key × Value)) :=
  entriesOf (logicalLines none (contents text))

/-! ### Lines -/

variable {c d : Char} {line rest text u v : List Char}

theorem content_append_ending (line : List Char) : content line ++ ending line = line :=
  List.takeWhile_append_dropWhile

theorem not_isEol_of_mem_content (h : c ∈ content line) : isEol c = false := by
  have := List.mem_takeWhile_imp h
  simpa using this

theorem content_of_not_eol (h : ∀ c ∈ line, isEol c = false) : content line = line := by
  rw [content, List.takeWhile_eq_self_iff]
  exact fun c hc => by simp [h c hc]

@[simp]
theorem contents_nil : contents [] = [] := rfl

theorem contents_lf (rest : List Char) : contents ('\n' :: rest) = [] :: contents rest := by
  rw [contents, asciiSplitlines_lf]
  rfl

theorem contents_crlf (rest : List Char) :
    contents ('\r' :: '\n' :: rest) = [] :: contents rest := by
  rw [contents, asciiSplitlines_crlf]
  rfl

theorem contents_cr (h : rest.head? ≠ some '\n') :
    contents ('\r' :: rest) = [] :: contents rest := by
  rw [contents, asciiSplitlines_cr h]
  rfl

theorem contents_cons (h : isEol c = false) (rest : List Char) :
    contents (c :: rest) = consLine c (contents rest) := by
  rw [contents, contents, asciiSplitlines_cons h]
  cases asciiSplitlines rest with
  | nil => simp [consLine, content, h]
  | cons line lines => simp [consLine, content, h]

/-- A line ends with at most one line ending. -/
def IsLine (line : List Char) : Prop := ending line ∈ [[], ['\r'], ['\n'], ['\r', '\n']]

instance (line : List Char) : Decidable (IsLine line) := inferInstanceAs (Decidable (_ ∈ _))

theorem isLine_cons (h : isEol c = false) (hline : IsLine line) : IsLine (c :: line) := by
  rw [IsLine, ending, List.dropWhile_cons_of_pos (by simp [h])]
  exact hline

theorem isLine_of_mem (h : line ∈ asciiSplitlines text) :
    IsLine line := by
  induction text using lines_cases generalizing line with
  | nil => cases h
  | lf rest ih =>
    rw [asciiSplitlines_lf] at h
    rcases List.mem_cons.mp h with rfl | h
    · decide
    · exact ih h
  | crlf rest ih =>
    rw [asciiSplitlines_crlf] at h
    rcases List.mem_cons.mp h with rfl | h
    · decide
    · exact ih h
  | cr rest hne ih =>
    rw [asciiSplitlines_cr hne] at h
    rcases List.mem_cons.mp h with rfl | h
    · decide
    · exact ih h
  | char c rest hc ih =>
    rw [asciiSplitlines_cons hc] at h
    cases hlines : asciiSplitlines rest with
    | nil =>
      rw [hlines] at h
      obtain rfl := List.mem_singleton.mp h
      exact isLine_cons hc (by decide)
    | cons first others =>
      rw [hlines] at h
      rcases List.mem_cons.mp h with rfl | h
      · exact isLine_cons hc (ih (hlines ▸ List.mem_cons_self))
      · exact ih (hlines ▸ List.mem_cons_of_mem _ h)

theorem blank_not_eol (h : isBlank c = true) : isEol c = false := by
  simp only [isBlank, Bool.or_eq_true, beq_iff_eq] at h
  rcases h with (rfl | rfl) | rfl <;> decide

theorem isEol_of_mem_ending (h : IsLine line) (hc : c ∈ ending line) : isEol c = true := by
  have hall : ∀ e ∈ [[], ['\r'], ['\n'], ['\r', '\n']], ∀ c ∈ e, isEol c = true := by simp [isEol]
  exact hall (ending line) h c hc

theorem rdropWhile_append_of_forall {α : Type} {p : α → Bool} {xs ys : List α}
    (h : ∀ y ∈ ys, p y = true) : (xs ++ ys).rdropWhile p = xs.rdropWhile p := by
  rw [List.rdropWhile, List.reverse_append,
    List.dropWhile_append_of_pos fun y hy => h y (List.mem_reverse.mp hy)]
  rfl

/-- Leading blanks are in the line, not in its ending. -/
theorem dropWhile_blank (h : IsLine line) :
    line.dropWhile isBlank = (content line).dropWhile isBlank ++ ending line := by
  have hending : (ending line).dropWhile isBlank = ending line := by
    cases hend : ending line with
    | nil => rfl
    | cons c rest =>
      have heol := isEol_of_mem_ending h (hend ▸ List.mem_cons_self)
      refine List.dropWhile_cons_of_neg fun hblank => ?_
      rw [blank_not_eol hblank] at heol
      cases heol
  conv_lhs => rw [← content_append_ending line]
  rw [List.dropWhile_append, hending]
  split
  · next hempty => rw [List.isEmpty_iff.mp hempty, List.nil_append]
  · rfl

theorem isComment_content (h : IsLine line) : isComment line = isComment (content line) := by
  rw [isComment, isComment, dropWhile_blank h]
  cases hcontent : (content line).dropWhile isBlank with
  | cons c rest => rfl
  | nil =>
    rw [List.nil_append]
    cases hend : ending line with
    | nil => rfl
    | cons c rest =>
      have heol := isEol_of_mem_ending h (hend ▸ List.mem_cons_self)
      rcases isEol_iff.mp heol with rfl | rfl <;> rfl

theorem not_isEol_of_mem_stripped (h : c ∈ (content line).dropWhile isBlank) : isEol c = false :=
  not_isEol_of_mem_content ((List.dropWhile_sublist _).subset h)

theorem stripLine_content (h : IsLine line) :
    stripLine line = (content line).dropWhile isBlank := by
  rw [stripLine, dropWhile_blank h, rdropWhile_append_of_forall fun c => isEol_of_mem_ending h,
    List.rdropWhile_eq_self_iff]
  intro hne
  rw [not_isEol_of_mem_stripped (List.getLast_mem hne)]
  exact Bool.false_ne_true

theorem isBlankLine_content (h : IsLine line) :
    isBlankLine line = ((content line).dropWhile isBlank).isEmpty := by
  rw [isBlankLine, dropWhile_blank h]
  cases hcontent : (content line).dropWhile isBlank with
  | nil =>
    rw [List.nil_append]
    exact List.contains_iff_mem.mpr h
  | cons c rest =>
    have hc : isEol c = false := not_isEol_of_mem_stripped (hcontent ▸ List.mem_cons_self)
    have hr : c ≠ '\r' := fun heq => by rw [heq] at hc; cases hc
    have hn : c ≠ '\n' := fun heq => by rw [heq] at hc; cases hc
    simp [hr, hn]

/-! ### Looking backwards and forwards -/

@[simp]
theorem dangles_nil : dangles [] = false := rfl

theorem dangles_plain (hc : c ≠ '\\') (rest : List Char) : dangles (c :: rest) = dangles rest := by
  rw [dangles.eq_def]
  exact if_neg hc

theorem dangles_pair (d : Char) (rest : List Char) :
    dangles ('\\' :: d :: rest) = dangles rest := by
  rw [dangles.eq_def]
  rfl

theorem scan_plain (hc : c ≠ '\\') (rest : List Char) :
    scan (c :: rest) = match separator? (c :: rest) with
      | some value => some ([], value)
      | none => (scan rest).map fun found => (c :: found.1, found.2) := by
  rw [scan.eq_def]
  exact if_neg hc

theorem scan_pair (d : Char) (rest : List Char) : scan ('\\' :: d :: rest) =
    (scan rest).map fun found => ('\\' :: d :: found.1, found.2) := by
  rw [scan.eq_def]
  rfl

/-- A text ends, goes on with a character that stands for itself, or with an escaped one. -/
theorem escape_cases {motive : List Char → Prop} (nil : motive [])
    (single : motive ['\\'])
    (plain : ∀ c rest, c ≠ '\\' → motive rest → motive (c :: rest))
    (pair : ∀ d rest, motive rest → motive ('\\' :: d :: rest)) (text : List Char) :
    motive text := by
  induction text using dangles.induct with
  | case1 => exact nil
  | case2 => exact single
  | case3 d rest ih => exact pair d rest ih
  | case4 c rest hc ih => exact plain c rest hc ih

/-- The backslashes at the end of a text. -/
def trailing (s : List Char) : ℕ := (s.reverse.takeWhile (· == '\\')).length

theorem trailing_cons (c : Char) (s : List Char) : trailing (c :: s) =
    if trailing s = s.length then (if c = '\\' then s.length + 1 else s.length) else trailing s := by
  rw [trailing, List.reverse_cons, List.takeWhile_append, trailing, List.length_reverse]
  split
  · by_cases hc : c = '\\' <;> simp [hc]
  · rfl

theorem trailing_le (s : List Char) : trailing s ≤ s.length := by
  have := (List.takeWhile_sublist (· == '\\') (l := s.reverse)).length_le
  rwa [List.length_reverse] at this

/-- The escapes before the last backslashes take up none of them, those among them two each. -/
theorem dangles_eq (s : List Char) : dangles s = (trailing s % 2 == 1) := by
  induction s using escape_cases with
  | nil => rfl
  | single => rfl
  | plain c rest hc ih =>
    rw [dangles_plain hc, ih, trailing_cons]
    split
    · next hall => rw [hall]
    · rfl
  | pair d rest ih =>
    have hle := trailing_le rest
    rw [dangles_pair, ih, trailing_cons, trailing_cons]
    by_cases hall : trailing rest = rest.length
    · by_cases hd : d = '\\'
      · simp only [hall, hd, if_true, List.length_cons, Nat.add_assoc, Nat.add_mod_right,
          Nat.reduceAdd]
      · simp [hall, hd]
    · simp only [hall, if_false, List.length_cons]
      rw [if_neg (by omega)]

theorem dropEol_of_not_eol (h : ∀ c ∈ line, isEol c = false) : dropEol line = line := by
  have hlast : ∀ c, isEol c = true → line.getLast? ≠ some c := by
    intro c hc heq
    rw [h c (List.mem_of_getLast? heq)] at hc
    cases hc
  rw [dropEol, if_neg (hlast '\n' rfl)]
  exact if_neg (hlast '\r' rfl)

theorem isContinued_eq_dangles (h : ∀ c ∈ line, isEol c = false) :
    isContinued line = dangles line := by
  rw [isContinued, dropEol_of_not_eol h, dangles_eq, trailing]

theorem separatorAt_plain (hc : c ≠ '\\') (rest : List Char) :
    separatorAt (c :: rest) = (separator? (c :: rest)).map fun value => ([], value) := by
  cases rest with
  | nil => rfl
  | cons d rest =>
    rw [separatorAt]
    exact if_neg fun h => hc h.1

theorem separatorAt_pairs (rest : List Char) : separatorAt ('\\' :: '\\' :: rest) =
    (separatorAt rest).map fun found => ('\\' :: '\\' :: found.1, found.2) := by
  rw [separatorAt]
  exact if_pos ⟨rfl, rfl⟩

theorem separatorAt_escape {d : Char} (hd : d ≠ '\\') (rest : List Char) :
    separatorAt ('\\' :: d :: rest) = none := by
  rw [separatorAt]
  exact if_neg fun h => hd h.2

theorem searchSeparator_skip (c : Char) (rest : List Char) :
    searchSeparator (some '\\') (c :: rest) =
      (searchSeparator (some c) rest).map fun found => (c :: found.1, found.2) := by
  rw [searchSeparator]
  rfl

theorem searchSeparator_try {prev : Option Char} (hprev : prev ≠ some '\\') (c : Char)
    (rest : List Char) : searchSeparator prev (c :: rest) = (separatorAt (c :: rest)).or
      ((searchSeparator (some c) rest).map fun found => (c :: found.1, found.2)) := by
  rw [searchSeparator, if_neg hprev]
  cases separatorAt (c :: rest) <;> rfl

theorem scan_of_separatorAt {found : List Char × List Char} (h : separatorAt text = some found) :
    scan text = some found := by
  induction text using escape_cases generalizing found with
  | nil => cases h
  | single => cases h
  | plain c rest hc ih =>
    rw [separatorAt_plain hc] at h
    obtain ⟨value, hvalue, rfl⟩ := Option.map_eq_some_iff.mp h
    rw [scan_plain hc, hvalue]
  | pair d rest ih =>
    by_cases hd : d = '\\'
    · subst hd
      rw [separatorAt_pairs] at h
      obtain ⟨found, hfound, rfl⟩ := Option.map_eq_some_iff.mp h
      rw [scan_pair, ih hfound]
      rfl
    · rw [separatorAt_escape hd] at h
      cases h

/-- Where the last pattern tried ended in pairs of backslashes, the lookbehind keeps the search from
the places that a scan from the left passes over. -/
theorem searchSeparator_eq (text : List Char) :
    (∀ prev, prev ≠ some '\\' → searchSeparator prev text = scan text) ∧
      (separatorAt text = none → searchSeparator (some '\\') text = scan text) := by
  induction text using escape_cases with
  | nil => exact ⟨fun _ _ => rfl, fun _ => rfl⟩
  | single =>
    refine ⟨fun prev hprev => ?_, fun _ => rfl⟩
    rw [searchSeparator_try hprev]
    rfl
  | plain c rest hc ih =>
    have hc' : some c ≠ some '\\' := fun h => hc (Option.some.inj h)
    constructor
    · intro prev hprev
      rw [searchSeparator_try hprev, separatorAt_plain hc, scan_plain hc, ih.1 (some c) hc']
      cases separator? (c :: rest) <;> rfl
    · intro hnone
      rw [separatorAt_plain hc, Option.map_eq_none_iff] at hnone
      rw [searchSeparator_skip, scan_plain hc, ih.1 (some c) hc', hnone]
  | pair d rest ih =>
    -- both places behind the first backslash are skipped or fail
    have hskip : separatorAt ('\\' :: d :: rest) = none →
        searchSeparator (some '\\') (d :: rest) =
          (scan rest).map fun found => (d :: found.1, found.2) := by
      intro hnone
      rw [searchSeparator_skip]
      by_cases hd : d = '\\'
      · subst hd
        rw [separatorAt_pairs, Option.map_eq_none_iff] at hnone
        rw [ih.2 hnone]
      · rw [ih.1 (some d) fun h => hd (Option.some.inj h)]
    constructor
    · intro prev hprev
      rw [searchSeparator_try hprev]
      cases hat : separatorAt ('\\' :: d :: rest) with
      | some found => rw [scan_of_separatorAt hat, Option.some_or]
      | none =>
        rw [Option.none_or, hskip hat, scan_pair, Option.map_map]
        rfl
    · intro hnone
      rw [searchSeparator_skip, hskip hnone, scan_pair, Option.map_map]
      rfl

/-! ### The parser reads the meaning -/

open Fallible

theorem entries_elementOf (line source : List Char) :
    (fun element => entries [element]) <$> elementOf line source = entryOf line := by
  rw [elementOf, entryOf, (searchSeparator_eq line).1 none (by simp)]
  split
  · rfl
  · cases scan line with
    | some parts =>
      obtain ⟨rawKey, rawValue⟩ := parts
      dsimp only [Option.getD_some]
      cases unescape rawKey with
      | error e => rfl
      | ok key => cases unescape rawValue <;> rfl
    | none =>
      dsimp only [Option.getD_none]
      cases unescape line <;> rfl

theorem logicalLines_cons (pending : Option (List Char)) (next : List Char)
    (lines : List (List Char)) : logicalLines pending (next :: lines) =
      (feed pending next).1 ++ logicalLines (feed pending next).2 lines := by
  rw [logicalLines, logicalLines, logical, List.append_assoc]

theorem entriesOf_cons (line : List Char) (lines : List (List Char)) :
    entriesOf (line :: lines) = do
      let first ← entryOf line
      let others ← entriesOf lines
      return first ++ others := rfl

theorem entriesOf_empty (lines : List (List Char)) : entriesOf ([] :: lines) = entriesOf lines := by
  rw [entriesOf_cons, entryOf, if_pos rfl, ok_bind]
  cases entriesOf lines <;> rfl

theorem not_isEol_of_mem_joined (hnext : IsLine line) {pending : Option (List Char × List Char)}
    (hpending : ∀ read ∈ pending, ∀ c ∈ read.1, isEol c = false)
    (hc : c ∈ (pending.getD ([], [])).1 ++ stripLine line) : isEol c = false := by
  rw [stripLine_content hnext] at hc
  rcases List.mem_append.mp hc with hc | hc
  · cases pending with
    | none => cases hc
    | some read => exact hpending read rfl c hc
  · exact not_isEol_of_mem_stripped hc

/-- The line that the parser makes of one more line ends no line, so that looking backwards for
backslashes finds what the scan leaves. -/
theorem feed_content (hnext : IsLine line) {pending : Option (List Char × List Char)}
    (hpending : ∀ read ∈ pending, ∀ c ∈ read.1, isEol c = false) :
    feed (pending.map Prod.fst) (content line) =
      if pending.isNone && isComment line then ([], none)
      else if pending.isNone && isBlankLine line then ([[]], none)
      else if isContinued ((pending.getD ([], [])).1 ++ stripLine line) then
        ([], some ((pending.getD ([], [])).1 ++ stripLine line).dropLast)
      else ([(pending.getD ([], [])).1 ++ stripLine line], none) := by
  have hpart : (pending.map Prod.fst).getD [] = (pending.getD ([], [])).1 := by
    cases pending <;> rfl
  have hline := isContinued_eq_dangles fun c => not_isEol_of_mem_joined (c := c) hnext hpending
  rw [feed, Option.isNone_map, ← isComment_content hnext, hpart, hline, stripLine_content hnext]
  by_cases hcomment : (pending.isNone && isComment line) = true
  · rw [if_pos hcomment, if_pos hcomment]
  · rw [if_neg hcomment, if_neg hcomment]
    split
    · next hblank =>
      rw [Bool.and_eq_true, Option.isNone_iff_eq_none, isBlankLine_content hnext,
        List.isEmpty_iff] at hblank
      rw [hblank.1, hblank.2]
      rfl
    · rfl

theorem entries_cons_map {element : Element} (h : element.entry? = none)
    (rest : Except InvalidUEscapeError (List Element)) :
    entries <$> ((element :: ·) <$> rest) = entries <$> rest := by
  rw [Functor.map_map]
  congr 1
  funext elements
  rw [entries, List.filterMap_cons_none h, entries]

theorem parseFrom_meaning (lines : List (List Char)) (hlines : ∀ line ∈ lines, IsLine line)
    (pending : Option (List Char × List Char))
    (hpending : ∀ read ∈ pending, ∀ c ∈ read.1, isEol c = false) :
    entries <$> parseFrom pending lines =
      entriesOf (logicalLines (pending.map Prod.fst) (lines.map content)) := by
  induction lines generalizing pending with
  | nil =>
    cases pending with
    | none => rfl
    | some read =>
      show entries <$> (do
        let element ← elementOf read.1 read.2
        return [element]) = entriesOf [read.1]
      rw [entriesOf_cons, ← entries_elementOf read.1 read.2]
      cases elementOf read.1 read.2 with
      | error e => rfl
      | ok element => exact congrArg Except.ok (List.append_nil _).symm
  | cons next rest ih =>
    have hnext := hlines next List.mem_cons_self
    have hrest : ∀ line ∈ rest, IsLine line := fun line hmem =>
      hlines line (List.mem_cons_of_mem _ hmem)
    have hnone := ih hrest none (by simp)
    rw [Option.map_none] at hnone
    rw [parseFrom_cons, List.map_cons, logicalLines_cons, feed_content hnext hpending]
    split
    · rw [entries_cons_map rfl, hnone, List.nil_append]
    · split
      · rw [entries_cons_map rfl, hnone, List.cons_append, List.nil_append, entriesOf_empty]
      · dsimp only
        split
        · rw [List.nil_append, ih hrest _ fun read hread c hc => ?_]
          · rfl
          · cases hread
            exact not_isEol_of_mem_joined hnext hpending ((List.dropLast_sublist _).subset hc)
        · rw [List.cons_append, List.nil_append, entriesOf_cons, ← hnone,
            ← entries_elementOf _ ((pending.getD ([], [])).2 ++ next)]
          cases elementOf _ ((pending.getD ([], [])).2 ++ next) with
          | error e => rfl
          | ok element =>
            cases parseFrom none rest with
            | error e => rfl
            | ok others =>
              refine congrArg Except.ok ?_
              simp only [entries]
              exact List.filterMap_append (l := [element])

/-- The parser raises exactly where the meaning of the text does, and its elements hold the entries
that the text means. -/
theorem parse_meaning (text : List Char) : entries <$> parse text = meaning text := by
  rw [parse, lineiter_eq]
  exact parseFrom_meaning _ (fun line => isLine_of_mem) none (by simp)

/-! ### Texts in a row -/

/-- A text that no line of the next text can go on with. -/
def Terminated (text : List Char) : Prop := ∀ c ∈ text.getLast?, isEol c = true

/-- What a text leaves to be continued. -/
def pendingOf (text : List Char) : Option (List Char) := (logical none (contents text)).2

theorem contents_ne_nil (h : text ≠ []) : contents text ≠ [] := by
  intro hnil
  have hflat := flatten_asciiSplitlines text
  rw [contents, List.map_eq_nil_iff] at hnil
  rw [hnil] at hflat
  exact h hflat.symm

theorem consLine_append {lines others : List (List Char)} (h : lines ≠ []) (c : Char) :
    consLine c (lines ++ others) = consLine c lines ++ others := by
  cases lines with
  | nil => exact absurd rfl h
  | cons line lines => rfl

theorem terminated_tail (h : Terminated (c :: rest)) : Terminated rest := by
  intro d hd
  refine h d ?_
  rw [Option.mem_def] at hd ⊢
  rw [List.getLast?_cons, hd]
  rfl

/-- A carriage return and a line feed become one line ending where the texts meet. -/
theorem contents_append (hu : Terminated u) (v : List Char) :
    contents (u ++ v) = contents u ++ contents v ∨
      ∃ w, v = '\n' :: w ∧ contents (u ++ v) = contents u ++ contents w := by
  induction u using lines_cases with
  | nil => exact .inl rfl
  | lf rest ih =>
    rw [List.cons_append, contents_lf, contents_lf]
    rcases ih (terminated_tail hu) with ih | ⟨w, hw, ih⟩
    · exact .inl (by rw [ih]; rfl)
    · exact .inr ⟨w, hw, by rw [ih]; rfl⟩
  | crlf rest ih =>
    rw [List.cons_append, List.cons_append, contents_crlf, contents_crlf]
    rcases ih (terminated_tail (terminated_tail hu)) with ih | ⟨w, hw, ih⟩
    · exact .inl (by rw [ih]; rfl)
    · exact .inr ⟨w, hw, by rw [ih]; rfl⟩
  | cr rest hrest ih =>
    rw [contents_cr hrest]
    cases rest with
    | nil =>
      cases v with
      | nil => exact .inl rfl
      | cons d w =>
        by_cases hd : d = '\n'
        · subst hd
          exact .inr ⟨w, rfl, contents_crlf w⟩
        · exact .inl (contents_cr fun heq => hd (Option.some.inj heq))
    | cons d rest =>
      have hnext : (d :: rest ++ v).head? ≠ some '\n' := hrest
      rw [List.cons_append, contents_cr hnext]
      rcases ih (terminated_tail hu) with ih | ⟨w, hw, ih⟩
      · exact .inl (by rw [ih]; rfl)
      · exact .inr ⟨w, hw, by rw [ih]; rfl⟩
  | char c rest hc ih =>
    have hrest : rest ≠ [] := by
      rintro rfl
      rw [hu c rfl] at hc
      cases hc
    have hne := contents_ne_nil hrest
    rw [List.cons_append, contents_cons hc, contents_cons hc]
    rcases ih (terminated_tail hu) with ih | ⟨w, hw, ih⟩
    · exact .inl (by rw [ih, consLine_append hne])
    · exact .inr ⟨w, hw, by rw [ih, consLine_append hne]⟩

theorem logical_append (pending : Option (List Char)) (xs ys : List (List Char)) :
    logical pending (xs ++ ys) =
      ((logical pending xs).1 ++ (logical (logical pending xs).2 ys).1,
        (logical (logical pending xs).2 ys).2) := by
  induction xs generalizing pending with
  | nil => rfl
  | cons next xs ih => rw [List.cons_append, logical, ih, logical, List.append_assoc]

theorem logicalLines_append (pending : Option (List Char)) (xs ys : List (List Char)) :
    logicalLines pending (xs ++ ys) =
      (logical pending xs).1 ++ logicalLines (logical pending xs).2 ys := by
  rw [logicalLines, logicalLines, logical_append, List.append_assoc]

theorem entriesOf_append (xs ys : List (List Char)) :
    entriesOf (xs ++ ys) = do
      let first ← entriesOf xs
      let others ← entriesOf ys
      return first ++ others := by
  induction xs with
  | nil =>
    rw [List.nil_append, entriesOf, ok_bind]
    cases entriesOf ys <;> rfl
  | cons line xs ih =>
    rw [List.cons_append, entriesOf_cons, entriesOf_cons, ih]
    simp only [bind_assoc, pure_bind, List.append_assoc]

theorem feed_nil : feed none [] = ([[]], none) := rfl

/-- What the lines of a text mean after a line that is to be continued. -/
def meaningFrom (pending : Option (List Char)) (text : List Char) :
    Except InvalidUEscapeError (List (Key × Value)) :=
  entriesOf (logicalLines pending (contents text))

/-- The entries of the lines that a text completes. -/
def completed (text : List Char) : Except InvalidUEscapeError (List (Key × Value)) :=
  entriesOf (logical none (contents text)).1

theorem meaning_append_of_head (hu : Terminated u) (hv : v.head? ≠ some '\n') :
    meaning (u ++ v) = do
      let first ← completed u
      let others ← meaningFrom (pendingOf u) v
      return first ++ others := by
  have hcontents : contents (u ++ v) = contents u ++ contents v := by
    rcases contents_append hu v with h | ⟨w, rfl, -⟩
    · exact h
    · exact absurd rfl hv
  rw [meaning, hcontents, logicalLines_append, entriesOf_append]
  rfl

theorem completed_eq_meaning (h : pendingOf u = none) : completed u = meaning u := by
  rw [pendingOf] at h
  rw [completed, meaning, logicalLines, h, Option.toList_none, List.append_nil]

/-- A text that leaves nothing to be continued means the same before any other. -/
theorem meaning_append (hu : Terminated u) (hpending : pendingOf u = none) (v : List Char) :
    meaning (u ++ v) = do
      let first ← meaning u
      let others ← meaning v
      return first ++ others := by
  have hjoin : entriesOf (logicalLines none (contents (u ++ v))) =
      entriesOf ((logical none (contents u)).1 ++ logicalLines none (contents v)) := by
    rw [pendingOf] at hpending
    rcases contents_append hu v with h | ⟨w, rfl, h⟩
    · rw [h, logicalLines_append, hpending]
    · rw [h, logicalLines_append, hpending, contents_lf, logicalLines_cons, feed_nil,
        entriesOf_append, entriesOf_append, List.cons_append, List.nil_append, entriesOf_empty]
  rw [meaning, hjoin, entriesOf_append, ← completed_eq_meaning hpending]
  rfl

end UnifiContainers.Properties
