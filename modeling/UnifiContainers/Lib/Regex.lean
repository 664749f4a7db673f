import Mathlib.Computability.Language

/-!
# Backtracking regular expressions with named groups

The matcher follows the ordered search of a backtracking engine: it returns every way a pattern
can match from a position, first choice first, so the engine's own answer is the head of the
list. `Matches` is the same relation without the order, and `Consumes` ties a pattern without
groups and anchors to the language of the words it reads. Patterns whose match is unique can then
be reasoned about through `Matches` alone.
-/

namespace Regex

/-- Patterns over characters, with groups named by `γ`. -/
inductive Pattern (γ : Type*) where
  | empty
  | one (accepts : Char → Bool)
  | seq (first rest : Pattern γ)
  | alt (left right : Pattern γ)
  | many (greedy : Bool) (body : Pattern γ)
  | group (name : γ) (body : Pattern γ)
  | bol (multiline : Bool)
  | eol (multiline : Bool)

/-- A position in a text: what was consumed (last character first), what is left, and the
groups captured so far. -/
structure Cursor (γ : Type*) where
  before : List Char
  after : List Char
  groups : γ → Option (List Char)

variable {γ : Type*} [DecidableEq γ]

namespace Cursor

def start (text : List Char) : Cursor γ := ⟨[], text, fun _ => none⟩

/-- The cursor after consuming `word`, of which `rest` is left. -/
def advance (s : Cursor γ) (word rest : List Char) : Cursor γ :=
  ⟨word.reverse ++ s.before, rest, s.groups⟩

def consumed (s t : Cursor γ) : List Char := s.after.take (s.after.length - t.after.length)

def capture (s t : Cursor γ) (name : γ) : Cursor γ :=
  { t with groups := Function.update t.groups name (some (consumed s t)) }

def store (s : Cursor γ) (name : γ) (word rest : List Char) : Cursor γ :=
  ⟨word.reverse ++ s.before, rest, Function.update s.groups name (some word)⟩

theorem capture_advance {s : Cursor γ} (name : γ) {word rest : List Char}
    (h : s.after = word ++ rest) : s.capture (s.advance word rest) name = s.store name word rest := by
  have hc : consumed s (s.advance word rest) = word := by
    rw [consumed, h, advance, List.length_append, Nat.add_sub_cancel, List.take_left]
  rw [capture, hc]
  rfl

end Cursor

namespace Pattern

def plus (greedy : Bool) (body : Pattern γ) : Pattern γ := seq body (many greedy body)

def lit : List Char → Pattern γ
  | [] => empty
  | c :: cs => seq (one (· == c)) (lit cs)

/-- `^`: at the start, or after a newline in multiline mode. -/
def atBol (multiline : Bool) (s : Cursor γ) : Bool :=
  s.before.isEmpty || (multiline && s.before.head? == some '\n')

/-- `$`: at the end or before a final newline; before any newline in multiline mode. -/
def atEol (multiline : Bool) (s : Cursor γ) : Bool :=
  s.after.isEmpty || s.after == ['\n'] || (multiline && s.after.head? == some '\n')

/-- Repeat `f` while it consumes something, longest first when greedy. -/
def repeated (f : Cursor γ → List (Cursor γ)) (greedy : Bool) : Nat → Cursor γ → List (Cursor γ)
  | 0, s => [s]
  | n + 1, s =>
      let more := ((f s).filter fun t => t.after.length < s.after.length).flatMap
        (repeated f greedy n)
      if greedy then more ++ [s] else s :: more

/-- Every match of the pattern from a cursor, in the order a backtracking engine tries them. -/
def run : Pattern γ → Cursor γ → List (Cursor γ)
  | empty, s => [s]
  | one accepts, s =>
      match s.after with
      | c :: cs => if accepts c then [s.advance [c] cs] else []
      | [] => []
  | seq first rest, s => (run first s).flatMap (run rest)
  | alt left right, s => run left s ++ run right s
  | many greedy body, s => repeated (run body) greedy s.after.length s
  | group name body, s => (run body s).map fun t => s.capture t name
  | bol multiline, s => if atBol multiline s then [s] else []
  | eol multiline, s => if atEol multiline s then [s] else []

/-- `re.match`: the first match at the start of the text. -/
def matchStart (p : Pattern γ) (text : List Char) : Option (Cursor γ) :=
  (run p (Cursor.start text)).head?

/-- The pairs of cursors a pattern relates, without the engine's order. -/
inductive Matches : Pattern γ → Cursor γ → Cursor γ → Prop where
  | empty (s) : Matches empty s s
  | one {accepts s c cs} (hc : accepts c = true) (hs : s.after = c :: cs) :
      Matches (one accepts) s (s.advance [c] cs)
  | seq {first rest s t u} (h : Matches first s t) (h' : Matches rest t u) :
      Matches (seq first rest) s u
  | altLeft {left right s t} (h : Matches left s t) : Matches (alt left right) s t
  | altRight {left right s t} (h : Matches right s t) : Matches (alt left right) s t
  | manyNil (greedy body s) : Matches (many greedy body) s s
  | manyCons {greedy body s t u} (h : Matches body s t) (hl : t.after.length < s.after.length)
      (h' : Matches (many greedy body) t u) : Matches (many greedy body) s u
  | group {name body s t} (h : Matches body s t) : Matches (group name body) s (s.capture t name)
  | bol {multiline s} (h : atBol multiline s = true) : Matches (bol multiline) s s
  | eol {multiline s} (h : atEol multiline s = true) : Matches (eol multiline) s s

private theorem mem_repeated {body : Pattern γ} {f : Cursor γ → List (Cursor γ)} (greedy : Bool)
    (hf : ∀ s t, t ∈ f s ↔ Matches body s t) (n : Nat) (s u : Cursor γ)
    (hn : s.after.length ≤ n) :
    u ∈ repeated f greedy n s ↔ Matches (many greedy body) s u := by
  induction n generalizing s with
  | zero =>
      have hs : s.after.length = 0 := by omega
      constructor
      · intro h
        have hu : u = s := by simpa [repeated] using h
        exact hu ▸ .manyNil greedy body s
      · intro h
        cases h with
        | manyNil => simp [repeated]
        | manyCons _ hl _ => omega
  | succ n ih =>
      have hsplit : u ∈ repeated f greedy (n + 1) s ↔
          u = s ∨ ∃ t, (t ∈ f s ∧ t.after.length < s.after.length) ∧
            u ∈ repeated f greedy n t := by
        cases greedy <;> simp [repeated, or_comm]
      rw [hsplit]
      constructor
      · rintro (rfl | ⟨t, ⟨ht, hl⟩, hu⟩)
        · exact .manyNil greedy body u
        · exact .manyCons ((hf s t).mp ht) hl ((ih t (by omega)).mp hu)
      · intro h
        cases h with
        | manyNil => exact Or.inl rfl
        | @manyCons _ _ _ t _ ht hl hu =>
            exact Or.inr ⟨t, ⟨(hf s t).mpr ht, hl⟩, (ih t (by omega)).mpr hu⟩

/-- The matcher finds exactly the matches of the pattern. -/
theorem mem_run (p : Pattern γ) (s u : Cursor γ) : u ∈ run p s ↔ Matches p s u := by
  induction p generalizing s u with
  | empty =>
      constructor
      · intro h
        have hu : u = s := by simpa [run] using h
        exact hu ▸ .empty s
      · intro h
        cases h
        simp [run]
  | one accepts =>
      constructor
      · intro h
        rw [run] at h
        split at h
        · rename_i c cs hs
          by_cases hc : accepts c = true
          · have hu : u = s.advance [c] cs := by simpa [hc] using h
            exact hu ▸ .one hc hs
          · simp [hc] at h
        · simp at h
      · intro h
        cases h with
        | one hc hs => simp [run, hs, hc]
  | seq first rest ihf ihr =>
      simp only [run, List.mem_flatMap]
      constructor
      · rintro ⟨t, ht, hu⟩
        exact .seq ((ihf s t).mp ht) ((ihr t u).mp hu)
      · intro h
        cases h with
        | seq ht hu => exact ⟨_, (ihf s _).mpr ht, (ihr _ u).mpr hu⟩
  | alt left right ihl ihr =>
      simp only [run, List.mem_append]
      constructor
      · rintro (h | h)
        · exact .altLeft ((ihl s u).mp h)
        · exact .altRight ((ihr s u).mp h)
      · intro h
        cases h with
        | altLeft h => exact Or.inl ((ihl s u).mpr h)
        | altRight h => exact Or.inr ((ihr s u).mpr h)
  | many greedy body ih => exact mem_repeated greedy ih _ s u (Nat.le_refl _)
  | group name body ih =>
      simp only [run, List.mem_map]
      constructor
      · rintro ⟨t, ht, rfl⟩
        exact .group ((ih s t).mp ht)
      · intro h
        cases h with
        | group ht => exact ⟨_, (ih s _).mpr ht, rfl⟩
  | bol multiline =>
      constructor
      · intro h
        by_cases hb : atBol multiline s = true
        · have hu : u = s := by simpa [run, hb] using h
          subst hu
          exact .bol hb
        · simp [run, hb] at h
      · intro h
        cases h with
        | bol hb => simp [run, hb]
  | eol multiline =>
      constructor
      · intro h
        by_cases he : atEol multiline s = true
        · have hu : u = s := by simpa [run, he] using h
          subst hu
          exact .eol he
        · simp [run, he] at h
      · intro h
        cases h with
        | eol he => simp [run, he]

theorem matches_of_matchStart {p : Pattern γ} {text : List Char} {t : Cursor γ}
    (h : matchStart p text = some t) : Matches p (Cursor.start text) t :=
  (mem_run p _ _).mp (List.mem_of_head? h)

/-- When every match ends at one cursor, the engine answers it. -/
theorem matchStart_eq_some {p : Pattern γ} {text : List Char} {t : Cursor γ}
    (h : Matches p (Cursor.start text) t)
    (hu : ∀ u, Matches p (Cursor.start text) u → u = t) : matchStart p text = some t := by
  have hm := (mem_run p _ _).mpr h
  rw [matchStart]
  cases hr : run p (Cursor.start text) with
  | nil => simp [hr] at hm
  | cons u us =>
      have hut := hu u ((mem_run p _ _).mp (by simp [hr]))
      simp [hut]

theorem isNone_matchStart {p : Pattern γ} {text : List Char} :
    (matchStart p text).isNone = true ↔ ∀ u, ¬ Matches p (Cursor.start text) u := by
  rw [Option.isNone_iff_eq_none, matchStart, List.head?_eq_none_iff, List.eq_nil_iff_forall_not_mem]
  simp only [mem_run]

/-! ### Inversion of the composite patterns -/

@[simp]
theorem matches_seq {first rest : Pattern γ} {s u : Cursor γ} :
    Matches (seq first rest) s u ↔ ∃ t, Matches first s t ∧ Matches rest t u := by
  constructor
  · intro h
    cases h with
    | seq h h' => exact ⟨_, h, h'⟩
  · rintro ⟨t, h, h'⟩
    exact .seq h h'

@[simp]
theorem matches_alt {left right : Pattern γ} {s u : Cursor γ} :
    Matches (alt left right) s u ↔ Matches left s u ∨ Matches right s u := by
  constructor
  · intro h
    cases h with
    | altLeft h => exact Or.inl h
    | altRight h => exact Or.inr h
  · rintro (h | h)
    · exact .altLeft h
    · exact .altRight h

theorem matches_group {name : γ} {body : Pattern γ} {s u : Cursor γ} :
    Matches (group name body) s u ↔ ∃ t, Matches body s t ∧ u = s.capture t name := by
  constructor
  · intro h
    cases h with
    | group h => exact ⟨_, h, rfl⟩
  · rintro ⟨t, h, rfl⟩
    exact .group h

@[simp]
theorem matches_bol {multiline : Bool} {s u : Cursor γ} :
    Matches (bol multiline) s u ↔ atBol multiline s = true ∧ u = s := by
  constructor
  · intro h
    cases h with
    | bol h => exact ⟨h, rfl⟩
  · rintro ⟨h, rfl⟩
    exact .bol h

@[simp]
theorem matches_eol {multiline : Bool} {s u : Cursor γ} :
    Matches (eol multiline) s u ↔ atEol multiline s = true ∧ u = s := by
  constructor
  · intro h
    cases h with
    | eol h => exact ⟨h, rfl⟩
  · rintro ⟨h, rfl⟩
    exact .eol h

theorem atEol_single {γ : Type*} {s : Cursor γ} :
    atEol false s = true ↔ s.after = [] ∨ s.after = ['\n'] := by
  simp [atEol, List.isEmpty_iff]

theorem matches_one {accepts : Char → Bool} {s u : Cursor γ} :
    Matches (one accepts) s u ↔
      ∃ c cs, s.after = c :: cs ∧ accepts c = true ∧ u = s.advance [c] cs := by
  constructor
  · intro h
    cases h with
    | one hc hs => exact ⟨_, _, hs, hc, rfl⟩
  · rintro ⟨c, cs, hs, hc, rfl⟩
    exact .one hc hs

/-! ### The language of a pattern without groups and anchors -/

/-- The pattern consumes exactly the words of the language, wherever it starts. -/
def Consumes (p : Pattern γ) (l : Language Char) : Prop :=
  ∀ s u, Matches p s u ↔ ∃ word rest, s.after = word ++ rest ∧ word ∈ l ∧ u = s.advance word rest

theorem Consumes.seq {p q : Pattern γ} {l m : Language Char} (hp : Consumes p l)
    (hq : Consumes q m) : Consumes (seq p q) (l * m) := by
  intro s u
  rw [matches_seq]
  constructor
  · rintro ⟨t, ht, hu⟩
    obtain ⟨a, r, hs, ha, rfl⟩ := (hp s t).mp ht
    obtain ⟨b, rest, hr, hb, rfl⟩ := (hq _ u).mp hu
    have hr' : r = b ++ rest := hr
    refine ⟨a ++ b, rest, by rw [hs, hr', List.append_assoc], ⟨a, ha, b, hb, rfl⟩, ?_⟩
    simp [Cursor.advance]
  · rintro ⟨word, rest, hs, ⟨a, ha, b, hb, rfl⟩, rfl⟩
    refine ⟨s.advance a (b ++ rest), (hp s _).mpr ⟨a, b ++ rest, by simpa using hs, ha, rfl⟩, ?_⟩
    exact (hq _ _).mpr ⟨b, rest, rfl, hb, by simp [Cursor.advance]⟩

theorem Consumes.alt {p q : Pattern γ} {l m : Language Char} (hp : Consumes p l)
    (hq : Consumes q m) : Consumes (alt p q) (l + m) := by
  intro s u
  rw [matches_alt, hp s u, hq s u]
  constructor
  · rintro (⟨word, rest, hs, hw, hu⟩ | ⟨word, rest, hs, hw, hu⟩)
    · exact ⟨word, rest, hs, Or.inl hw, hu⟩
    · exact ⟨word, rest, hs, Or.inr hw, hu⟩
  · rintro ⟨word, rest, hs, hw | hw, hu⟩
    · exact Or.inl ⟨word, rest, hs, hw, hu⟩
    · exact Or.inr ⟨word, rest, hs, hw, hu⟩

theorem consumes_empty : Consumes (γ := γ) empty 1 := by
  intro s u
  constructor
  · intro h
    cases h
    exact ⟨[], s.after, rfl, rfl, rfl⟩
  · intro h
    obtain ⟨word, rest, hs, hword, hu⟩ := h
    obtain rfl : word = [] := hword
    have hrest : s.after = rest := hs
    subst hrest hu
    exact .empty s

theorem mem_singleton_word {word text : List Char} :
    word ∈ ({text} : Language Char) ↔ word = text := Iff.rfl

theorem consumes_lit (text : List Char) : Consumes (γ := γ) (lit text) {text} := by
  intro s u
  simp only [mem_singleton_word]
  induction text generalizing s with
  | nil =>
      constructor
      · intro h
        cases h
        exact ⟨[], _, rfl, rfl, rfl⟩
      · rintro ⟨word, rest, hs, rfl, rfl⟩
        subst hs
        exact .empty s
  | cons c cs ih =>
      rw [lit, matches_seq]
      constructor
      · rintro ⟨t, ht, hu⟩
        obtain ⟨d, ds, hs, hd, rfl⟩ := matches_one.mp ht
        obtain ⟨word, rest, hds, rfl, rfl⟩ := (ih _).mp hu
        have hdc : d = c := by simpa using hd
        have hds' : ds = word ++ rest := hds
        exact ⟨c :: word, rest, by rw [hs, hds', hdc]; rfl, rfl, by simp [Cursor.advance, hdc]⟩
      · rintro ⟨word, rest, hs, rfl, rfl⟩
        refine ⟨s.advance [c] (cs ++ rest), matches_one.mpr ⟨c, cs ++ rest, hs, by simp, rfl⟩, ?_⟩
        exact (ih _).mpr ⟨cs, rest, rfl, rfl, by simp [Cursor.advance]⟩

theorem matches_lit {text : List Char} {s u : Cursor γ} :
    Matches (lit text) s u ↔ ∃ rest, s.after = text ++ rest ∧ u = s.advance text rest := by
  rw [consumes_lit text s u]
  constructor
  · intro h
    obtain ⟨word, rest, hafter, hword, hu⟩ := h
    rw [mem_singleton_word] at hword
    subst hword
    exact ⟨rest, hafter, hu⟩
  · intro h
    obtain ⟨rest, hafter, hu⟩ := h
    exact ⟨text, rest, hafter, mem_singleton_word.mpr rfl, hu⟩

theorem matches_lit_seq {text : List Char} {p : Pattern γ} {s u : Cursor γ} :
    Matches (seq (lit text) p) s u ↔
      ∃ rest, s.after = text ++ rest ∧ Matches p (s.advance text rest) u := by
  rw [matches_seq]
  constructor
  · intro h
    obtain ⟨t, hlit, hu⟩ := h
    obtain ⟨rest, hafter, ht⟩ := matches_lit.mp hlit
    subst ht
    exact ⟨rest, hafter, hu⟩
  · intro h
    obtain ⟨rest, hafter, hu⟩ := h
    exact ⟨_, matches_lit.mpr ⟨rest, hafter, rfl⟩, hu⟩

def classWords (accepts : Char → Bool) : Language Char := {word | ∀ c ∈ word, accepts c = true}

def classWords₁ (accepts : Char → Bool) : Language Char :=
  {word | word ≠ [] ∧ ∀ c ∈ word, accepts c = true}

@[simp]
theorem mem_classWords {accepts : Char → Bool} {word : List Char} :
    word ∈ classWords accepts ↔ ∀ c ∈ word, accepts c = true := Iff.rfl

theorem consumes_many_one (greedy : Bool) (accepts : Char → Bool) :
    Consumes (γ := γ) (many greedy (one accepts)) (classWords accepts) := by
  intro s u
  constructor
  · generalize hp : many greedy (one accepts) = p
    intro h
    induction h with
    | manyNil g b s => exact ⟨[], s.after, rfl, by simp, rfl⟩
    | @manyCons g b s t u h _ _ _ ih =>
        cases hp
        obtain ⟨c, cs, hs, hc, rfl⟩ := matches_one.mp h
        obtain ⟨word, rest, ht, hw, rfl⟩ := ih rfl
        have ht' : cs = word ++ rest := ht
        refine ⟨c :: word, rest, by rw [hs, ht']; rfl, ?_, by simp [Cursor.advance]⟩
        intro d hd
        rcases List.mem_cons.mp hd with rfl | hd
        · exact hc
        · exact hw d hd
    | _ => cases hp
  · rintro ⟨word, rest, hs, hw, rfl⟩
    induction word generalizing s with
    | nil =>
        subst hs
        exact .manyNil greedy _ s
    | cons c word ih =>
        have hc := hw c (by simp)
        have hrest := ih (s := s.advance [c] (word ++ rest)) rfl fun d hd => hw d (by simp [hd])
        refine .manyCons (.one hc hs) (by simp [Cursor.advance, hs]) ?_
        simpa [Cursor.advance] using hrest

theorem consumes_plus_one (greedy : Bool) (accepts : Char → Bool) :
    Consumes (γ := γ) (plus greedy (one accepts)) (classWords₁ accepts) := by
  intro s u
  rw [plus, matches_seq]
  constructor
  · rintro ⟨t, ht, hu⟩
    obtain ⟨c, cs, hs, hc, rfl⟩ := matches_one.mp ht
    obtain ⟨word, rest, hcs, hw, rfl⟩ := (consumes_many_one greedy accepts _ u).mp hu
    have hcs' : cs = word ++ rest := hcs
    refine ⟨c :: word, rest, by rw [hs, hcs']; rfl, ⟨by simp, ?_⟩, by simp [Cursor.advance]⟩
    intro d hd
    rcases List.mem_cons.mp hd with rfl | hd
    · exact hc
    · exact hw d hd
  · rintro ⟨word, rest, hs, ⟨hne, hw⟩, rfl⟩
    obtain ⟨c, cs, rfl⟩ := List.exists_cons_of_ne_nil hne
    refine ⟨s.advance [c] (cs ++ rest), .one (hw c (by simp)) hs, ?_⟩
    exact (consumes_many_one greedy accepts _ _).mpr ⟨cs, rest, rfl, fun d hd => hw d (by simp [hd]),
      by simp [Cursor.advance]⟩

/-- A group around a consuming pattern stores the consumed word. -/
theorem Consumes.matches_group {p : Pattern γ} {l : Language Char} (hp : Consumes p l) {name : γ}
    {s u : Cursor γ} :
    Matches (group name p) s u ↔
      ∃ word rest, s.after = word ++ rest ∧ word ∈ l ∧ u = s.store name word rest := by
  rw [Pattern.matches_group]
  constructor
  · rintro ⟨t, ht, rfl⟩
    obtain ⟨word, rest, hs, hw, rfl⟩ := (hp s t).mp ht
    exact ⟨word, rest, hs, hw, Cursor.capture_advance name hs⟩
  · rintro ⟨word, rest, hs, hw, rfl⟩
    exact ⟨s.advance word rest, (hp s _).mpr ⟨word, rest, hs, hw, rfl⟩,
      (Cursor.capture_advance name hs).symm⟩

private theorem takeWhile_class {accepts : Char → Bool} {word rest : List Char}
    (hw : ∀ c ∈ word, accepts c = true) (hr : ∀ c ∈ rest.head?, accepts c = false) :
    (word ++ rest).takeWhile accepts = word := by
  induction word with
  | nil =>
      cases rest with
      | nil => rfl
      | cons c cs => simp [hr c rfl]
  | cons c cs ih =>
      rw [List.cons_append, List.takeWhile_cons, if_pos (hw c (by simp)),
        ih fun d hd => hw d (by simp [hd])]

/-- A word over a class that a character outside the class ends is determined by the text. -/
theorem classWords_append_inj {accepts : Char → Bool} {a b r q : List Char}
    (ha : ∀ c ∈ a, accepts c = true) (hb : ∀ c ∈ b, accepts c = true)
    (hr : ∀ c ∈ r.head?, accepts c = false) (hq : ∀ c ∈ q.head?, accepts c = false)
    (h : a ++ r = b ++ q) : a = b ∧ r = q := by
  have hab : a = b := by rw [← takeWhile_class ha hr, h, takeWhile_class hb hq]
  subst hab
  exact ⟨rfl, List.append_cancel_left h⟩

theorem classWords_cons_inj {accepts : Char → Bool} {c d : Char} {a b r q : List Char}
    (ha : ∀ e ∈ a, accepts e = true) (hb : ∀ e ∈ b, accepts e = true) (hc : accepts c = false)
    (hd : accepts d = false) (h : a ++ c :: r = b ++ d :: q) : a = b ∧ r = q := by
  have hend {x : Char} (hx : accepts x = false) (rest : List Char) :
      ∀ e ∈ (x :: rest).head?, accepts e = false := by
    intro e he
    cases he
    exact hx
  obtain ⟨hsame, htail⟩ := classWords_append_inj ha hb (hend hc r) (hend hd q) h
  exact ⟨hsame, (List.cons.inj htail).2⟩

/-- A text splits in one way where a character is met first. -/
theorem first_append_inj {c : Char} {a b r q : List Char} (ha : c ∉ a) (hb : c ∉ b)
    (h : a ++ c :: r = b ++ c :: q) : a = b ∧ r = q := by
  have hclass {s : List Char} (hs : c ∉ s) : ∀ d ∈ s, (d != c) = true := by
    intro d hd
    rw [bne_iff_ne]
    rintro rfl
    exact hs hd
  have hend : (c != c) = false := bne_self_eq_false c
  exact classWords_cons_inj (hclass ha) (hclass hb) hend hend h

end Pattern
end Regex
