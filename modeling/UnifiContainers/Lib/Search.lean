import UnifiContainers.Lib.Regex
import UnifiContainers.Lib.PyText
import Mathlib.Data.List.DropRight

/-!
# Searching and substituting

`re.search` and `re.subn` with a count of 1 over the matcher of `Regex`, and the replacement
templates of `re`. A pattern that is anchored to one line in multiline mode sees a text as its
lines: the search answers the first line it accepts, and the substitution replaces that line.
-/

namespace Regex

open PyText

variable {γ : Type*} [DecidableEq γ]

/-- A position where no group has been captured. -/
def Cursor.fresh (before after : List Char) : Cursor γ := ⟨before, after, fun _ => none⟩

namespace Pattern

/-- The first position from here on that has a match, and the match. -/
def searchFrom (p : Pattern γ) (before : List Char) : List Char → Option (Cursor γ × Cursor γ)
  | [] => ((run p (Cursor.fresh before [])).head?).map fun u => (Cursor.fresh before [], u)
  | c :: rest =>
      match (run p (Cursor.fresh before (c :: rest))).head? with
      | some u => some (Cursor.fresh before (c :: rest), u)
      | none => searchFrom p (c :: before) rest

def search (p : Pattern γ) (text : List Char) : Option (Cursor γ × Cursor γ) := searchFrom p [] text

/-- `re.search(text).group(name)` -/
def searchGroup (p : Pattern γ) (name : γ) (text : List Char) : Option (List Char) :=
  (search p text).bind fun found => found.2.groups name

end Pattern

/-! ### Replacement templates -/

inductive Piece where
  | char (c : Char)
  | group (n : ℕ)
  deriving DecidableEq, Repr

def isOctal (c : Char) : Bool := '0' ≤ c && c ≤ '7'

def octal (digits : List Char) : ℕ := digits.foldl (fun n c => 8 * n + (c.toNat - 48)) 0

def controls : List (Char × Char) := [
  ('a', '\x07'), ('b', '\x08'), ('f', '\x0c'), ('n', '\n'), ('r', '\r'), ('t', '\t'), ('v', '\x0b'),
  ('\\', '\\')]

def groupPiece (groups n : ℕ) : Option (List Piece) := if n ≤ groups then some [.group n] else none

/-- What follows a backslash: the pieces it stands for and what is left, or `none` for an error. -/
def escape (groups : ℕ) : List Char → Option (List Piece × List Char)
  | [] => none
  | 'g' :: '<' :: rest =>
      let name := rest.takeWhile (· ≠ '>')
      match rest.dropWhile (· ≠ '>') with
      | [] => none
      | _ :: rest =>
          if name ≠ [] ∧ name.all Char.isDigit then (groupPiece groups (int name)).map (·, rest)
          else none
  | '0' :: rest =>
      let more := (rest.take 2).takeWhile isOctal
      some ([.char (Char.ofNat (octal more))], rest.drop more.length)
  | c :: rest =>
      if c.isDigit then
        match rest with
        | d :: rest' =>
            if d.isDigit then
              match rest' with
              | e :: rest'' =>
                  if isOctal c && isOctal d && isOctal e then
                    if octal [c, d, e] ≤ 0o377 then
                      some ([.char (Char.ofNat (octal [c, d, e]))], rest'')
                    else none
                  else (groupPiece groups (int [c, d])).map (·, rest')
              | [] => (groupPiece groups (int [c, d])).map (·, rest')
            else (groupPiece groups (int [c])).map (·, rest)
        | [] => (groupPiece groups (int [c])).map (·, rest)
      else
        match controls.lookup c with
        | some control => some ([.char control], rest)
        | none => if c.isAlpha then none else some ([.char '\\', .char c], rest)

def compileFrom (groups : ℕ) : ℕ → List Char → Option (List Piece)
  | _, [] => some []
  | 0, _ :: _ => none
  | n + 1, c :: rest =>
      if c = '\\' then
        (escape groups rest).bind fun (pieces, rest) =>
          (compileFrom groups n rest).map (pieces ++ ·)
      else (compileFrom groups n rest).map (.char c :: ·)

/-- The template of a pattern with that many groups, or `none` for `re.error`. -/
def compile (groups : ℕ) (template : List Char) : Option (List Piece) :=
  compileFrom groups template.length template

/-- The text of a template; group 0 is the whole match, and a group without a match is empty. -/
def expand (groups : List (List Char)) (pieces : List Piece) : List Char :=
  pieces.flatMap fun
    | .char c => [c]
    | .group n => groups.getD n []

namespace Pattern

/-- `re.subn` with a count of 1, for a pattern whose groups are `names` in order. -/
def subn (p : Pattern γ) (names : List γ) (template text : List Char) : Option (List Char × ℕ) :=
  (compile names.length template).map fun pieces =>
    match search p text with
    | none => (text, 0)
    | some (s, u) =>
        let groups := s.consumed u :: names.map fun name => (u.groups name).getD []
        (s.before.reverse ++ expand groups pieces ++ u.after, 1)

/-! ### Patterns of one line -/

/-- The end of a line: nothing is left, or a newline follows. -/
def LineEnd (tail : List Char) : Prop := tail = [] ∨ ∃ rest, tail = '\n' :: rest

/-- The pattern matches exactly the lines that `accepts` takes, whole, with `captured` as groups. -/
structure LinePattern (p : Pattern γ) (accepts : List Char → Bool)
    (captured : List Char → γ → Option (List Char)) : Prop where
  inside : ∀ before after, atBol true (Cursor.fresh (γ := γ) before after) = false →
    run p (Cursor.fresh before after) = []
  hit : ∀ before line tail, atBol true (Cursor.fresh (γ := γ) before (line ++ tail)) = true →
    '\n' ∉ line → LineEnd tail → accepts line = true →
      (run p (Cursor.fresh before (line ++ tail))).head? =
        some ⟨line.reverse ++ before, tail, captured line⟩
  miss : ∀ before line tail, '\n' ∉ line → LineEnd tail → accepts line = false →
    run p (Cursor.fresh before (line ++ tail)) = []

section

variable {p : Pattern γ} {accepts : List Char → Bool}
  {captured : List Char → γ → Option (List Char)}

theorem head?_run_eq_some {s t : Cursor γ} (h : Matches p s t) (hu : ∀ u, Matches p s u → u = t) :
    (run p s).head? = some t := by
  have hm := (mem_run p s t).mpr h
  cases hr : run p s with
  | nil =>
    rw [hr] at hm
    cases hm
  | cons u us =>
    have hut := hu u ((mem_run p s u).mp (by simp [hr]))
    rw [hut]
    rfl

theorem run_eq_nil {s : Cursor γ} (h : ∀ u, ¬ Matches p s u) : run p s = [] := by
  cases hr : run p s with
  | nil => rfl
  | cons u us => exact absurd ((mem_run p s u).mp (by simp [hr])) (h u)

theorem searchFrom_of_nil {before after : List Char} (h : run p (Cursor.fresh before after) = []) :
    searchFrom p before after = after.tail?.bind fun rest =>
      searchFrom p (after.head?.toList ++ before) rest := by
  cases after with
  | nil =>
    rw [searchFrom, h]
    rfl
  | cons c rest =>
    rw [searchFrom, h]
    rfl

theorem searchFrom_of_head? {before after : List Char} {u : Cursor γ}
    (h : (run p (Cursor.fresh before after)).head? = some u) :
    searchFrom p before after = some (Cursor.fresh before after, u) := by
  cases after with
  | nil =>
    rw [searchFrom, h]
    rfl
  | cons c rest => rw [searchFrom, h]

/-- The search passes over positions without a match. -/
theorem searchFrom_skip (p : Pattern γ) (skipped before tail : List Char)
    (h : ∀ passed left, skipped = passed ++ left → left ≠ [] →
      run p (Cursor.fresh (passed.reverse ++ before) (left ++ tail)) = []) :
    searchFrom p before (skipped ++ tail) = searchFrom p (skipped.reverse ++ before) tail := by
  induction skipped generalizing before with
  | nil => rfl
  | cons c skipped ih =>
    have hfirst : run p (Cursor.fresh before (c :: (skipped ++ tail))) = [] :=
      h [] (c :: skipped) rfl (List.cons_ne_nil c skipped)
    rw [List.cons_append, searchFrom_of_nil hfirst]
    show searchFrom p (c :: before) (skipped ++ tail) = _
    rw [ih (c :: before)]
    · simp
    · intro passed left hsplit hleft
      have hlater := h (c :: passed) left (by rw [hsplit]; rfl) hleft
      rwa [List.reverse_cons, List.append_assoc] at hlater

/-- What is found is the first position with a match. -/
theorem exists_of_searchFrom {before text : List Char} {s u : Cursor γ}
    (h : searchFrom p before text = some (s, u)) :
    ∃ skipped tail, text = skipped ++ tail ∧ s = Cursor.fresh (skipped.reverse ++ before) tail ∧
      (run p s).head? = some u ∧ ∀ passed left, skipped = passed ++ left → left ≠ [] →
        run p (Cursor.fresh (passed.reverse ++ before) (left ++ tail)) = [] := by
  induction text generalizing before with
  | nil =>
    rw [searchFrom] at h
    obtain ⟨v, hv, heq⟩ := Option.map_eq_some_iff.mp h
    cases heq
    refine ⟨[], [], rfl, rfl, hv, fun passed left hsplit hleft => ?_⟩
    exact absurd (List.append_eq_nil_iff.mp hsplit.symm).2 hleft
  | cons c text ih =>
    cases hrun : (run p (Cursor.fresh before (c :: text))).head? with
    | some v =>
      rw [searchFrom_of_head? hrun] at h
      cases h
      refine ⟨[], c :: text, rfl, rfl, hrun, fun passed left hsplit hleft => ?_⟩
      exact absurd (List.append_eq_nil_iff.mp hsplit.symm).2 hleft
    | none =>
      rw [List.head?_eq_none_iff] at hrun
      rw [searchFrom_of_nil hrun] at h
      obtain ⟨skipped, tail, htext, hs, hfound, hearlier⟩ := ih h
      subst htext
      refine ⟨c :: skipped, tail, rfl, ?_, hfound, fun passed left hsplit hleft => ?_⟩
      · rw [hs, List.reverse_cons, List.append_assoc]
        rfl
      · cases passed with
        | nil =>
          cases hsplit
          exact hrun
        | cons d passed =>
          cases hsplit
          have hlater := hearlier passed left rfl hleft
          rwa [List.reverse_cons, List.append_assoc]

/-- Of two ways to split a text, the later one goes on from the earlier one. -/
theorem exists_of_append_eq {α : Type*} {a b x y : List α} (h : a ++ x = b ++ y)
    (hlt : b.length < a.length) : ∃ q, q ≠ [] ∧ a = b ++ q ∧ y = q ++ x := by
  rcases List.append_eq_append_iff.mp h with ⟨more, hb, -⟩ | ⟨q, ha, hy⟩
  · rw [hb, List.length_append] at hlt
    omega
  · refine ⟨q, fun hnil => ?_, ha, hy⟩
    rw [ha, hnil, List.append_nil] at hlt
    exact absurd hlt (lt_irrefl _)

/-- The match at the first position that has one is found, if it is the only one there. -/
theorem search_of_first {before after : List Char} {u : Cursor γ}
    (h : Matches p (Cursor.fresh before.reverse after) u)
    (honly : ∀ v, Matches p (Cursor.fresh before.reverse after) v → v = u)
    (hfirst : ∀ b a v, before ++ after = b ++ a → Matches p (Cursor.fresh b.reverse a) v →
      before.length ≤ b.length) :
    search p (before ++ after) = some (Cursor.fresh before.reverse after, u) := by
  have hskip : searchFrom p [] (before ++ after) = searchFrom p (before.reverse ++ []) after := by
    apply searchFrom_skip
    intro passed left hsplit hleft
    apply run_eq_nil
    intro v hv
    rw [List.append_nil] at hv
    have hle := hfirst passed (left ++ after) v (by rw [hsplit, List.append_assoc]) hv
    have hpos := List.length_pos_of_ne_nil hleft
    rw [hsplit, List.length_append] at hle
    omega
  rw [search, hskip, List.append_nil]
  exact searchFrom_of_head? (head?_run_eq_some h honly)

theorem first_of_search {text : List Char} {s u : Cursor γ} (h : search p text = some (s, u)) :
    ∃ before after, text = before ++ after ∧ s = Cursor.fresh before.reverse after ∧
      Matches p s u ∧ ∀ b a v, text = b ++ a → Matches p (Cursor.fresh b.reverse a) v →
        before.length ≤ b.length := by
  obtain ⟨before, after, htext, hs, hfound, hearlier⟩ := exists_of_searchFrom h
  rw [List.append_nil] at hs
  refine ⟨before, after, htext, hs, (mem_run p s u).mp (List.mem_of_head? hfound), ?_⟩
  intro b a v hsplit hv
  rw [← not_lt]
  intro hlt
  obtain ⟨left, hleft, hb, ha⟩ := exists_of_append_eq (htext.symm.trans hsplit) hlt
  have hnil := hearlier b left hb hleft
  rw [List.append_nil, ← ha] at hnil
  have hmem := (mem_run p _ v).mpr hv
  rw [hnil] at hmem
  cases hmem

/-- The search leaves a line that it is already inside of. -/
theorem searchFrom_inside (hp : LinePattern p accepts captured) (line before tail : List Char)
    (hline : '\n' ∉ line) (htail : LineEnd tail)
    (hbefore : atBol true (Cursor.fresh (γ := γ) before []) = false) :
    searchFrom p before (line ++ tail) = tail.tail?.bind fun rest =>
      searchFrom p ('\n' :: (line.reverse ++ before)) rest := by
  induction line generalizing before with
  | nil =>
    rw [List.nil_append, searchFrom_of_nil (hp.inside before tail hbefore)]
    rcases htail with hnil | ⟨rest, hrest⟩
    · subst hnil
      rfl
    · subst hrest
      rfl
  | cons c line ih =>
    have hc : c ≠ '\n' := fun hc => hline (by simp [hc])
    rw [List.cons_append, searchFrom_of_nil (hp.inside before (c :: (line ++ tail)) hbefore)]
    show searchFrom p (c :: before) (line ++ tail) = _
    rw [ih (c :: before) (fun hmem => hline (List.mem_cons_of_mem c hmem))]
    · simp
    · simp [atBol, Cursor.fresh, hc]

/-- The search passes over a line that is not accepted. -/
theorem searchFrom_miss (hp : LinePattern p accepts captured) (line before tail : List Char)
    (hline : '\n' ∉ line) (htail : LineEnd tail) (hmiss : accepts line = false) :
    searchFrom p before (line ++ tail) = tail.tail?.bind fun rest =>
      searchFrom p ('\n' :: (line.reverse ++ before)) rest := by
  have hrun := hp.miss before line tail hline htail hmiss
  cases line with
  | nil =>
    rw [List.nil_append] at hrun ⊢
    rw [searchFrom_of_nil hrun]
    rcases htail with hnil | ⟨rest, hrest⟩
    · subst hnil
      rfl
    · subst hrest
      rfl
  | cons c line =>
    have hc : c ≠ '\n' := fun hc => hline (by simp [hc])
    rw [searchFrom_of_nil hrun]
    show searchFrom p (c :: before) (line ++ tail) = _
    rw [searchFrom_inside hp line (c :: before) tail
      (fun hmem => hline (List.mem_cons_of_mem c hmem)) htail]
    · simp
    · simp [atBol, Cursor.fresh, hc]

/-- Lines, each ended by a newline. -/
def ended (lines : List (List Char)) : List Char := lines.flatMap (· ++ ['\n'])

theorem searchFrom_ended (hp : LinePattern p accepts captured) (lines : List (List Char))
    (hlines : ∀ line ∈ lines, '\n' ∉ line ∧ accepts line = false) (before rest : List Char) :
    searchFrom p before (ended lines ++ rest) =
      searchFrom p ((ended lines).reverse ++ before) rest := by
  induction lines generalizing before with
  | nil => rfl
  | cons line lines ih =>
    obtain ⟨hline, hmiss⟩ := hlines line List.mem_cons_self
    have hstep := searchFrom_miss hp line before ('\n' :: (ended lines ++ rest)) hline
      (.inr ⟨_, rfl⟩) hmiss
    have htext : ended (line :: lines) ++ rest = line ++ '\n' :: (ended lines ++ rest) := by
      simp [ended]
    rw [htext, hstep]
    show searchFrom p ('\n' :: (line.reverse ++ before)) (ended lines ++ rest) = _
    rw [ih fun other hother => hlines other (List.mem_cons_of_mem line hother)]
    congr 1
    simp [ended]

/-- The first accepted line is found. -/
theorem search_hit (hp : LinePattern p accepts captured) (earlier : List (List Char))
    (hearlier : ∀ line ∈ earlier, '\n' ∉ line ∧ accepts line = false) (line tail : List Char)
    (hline : '\n' ∉ line) (htail : LineEnd tail) (haccepts : accepts line = true) :
    search p (ended earlier ++ (line ++ tail)) =
      some (Cursor.fresh (ended earlier).reverse (line ++ tail),
        ⟨line.reverse ++ (ended earlier).reverse, tail, captured line⟩) := by
  rw [search, searchFrom_ended hp earlier hearlier, List.append_nil]
  apply searchFrom_of_head?
  apply hp.hit _ _ _ _ hline htail haccepts
  cases hcase : earlier.getLast? with
  | none =>
    rw [List.getLast?_eq_none_iff] at hcase
    subst hcase
    rfl
  | some last =>
    have hne : earlier ≠ [] := by
      intro hnil
      rw [hnil] at hcase
      cases hcase
    have hends : (ended earlier).reverse.head? = some '\n' := by
      rw [← List.dropLast_append_getLast hne]
      simp [ended]
    simp [atBol, Cursor.fresh, hends]

theorem search_miss (hp : LinePattern p accepts captured) (earlier : List (List Char))
    (hearlier : ∀ line ∈ earlier, '\n' ∉ line ∧ accepts line = false) (line : List Char)
    (hline : '\n' ∉ line) (hmiss : accepts line = false) :
    search p (ended earlier ++ line) = none := by
  have hlast := searchFrom_miss hp line (ended earlier).reverse [] hline (.inl rfl) hmiss
  rw [List.append_nil] at hlast
  rw [search, searchFrom_ended hp earlier hearlier, List.append_nil, hlast]
  rfl

end

end Pattern

/-! ### The lines of a text -/

def lines (text : List Char) : List (List Char) := text.splitOn '\n'

def unlines (parts : List (List Char)) : List Char := ['\n'].intercalate parts

/-- The first part that is accepted gives way to another one. -/
def replaceFirst (accepts : List Char → Bool) (new : List Char) :
    List (List Char) → List (List Char)
  | [] => []
  | part :: rest => if accepts part then new :: rest else part :: replaceFirst accepts new rest

section

variable {accepts other : List Char → Bool} {new : List Char} {parts : List (List Char)}

@[simp]
theorem unlines_lines (text : List Char) : unlines (lines text) = text :=
  List.intercalate_splitOn '\n'

theorem lines_unlines (hne : parts ≠ []) (h : ∀ part ∈ parts, '\n' ∉ part) :
    lines (unlines parts) = parts :=
  List.splitOn_intercalate '\n' h hne

theorem lines_ne_nil (text : List Char) : lines text ≠ [] := List.splitOn_ne_nil '\n' text

theorem not_mem_lines {text line : List Char} (h : line ∈ lines text) : '\n' ∉ line := by
  induction text generalizing line with
  | nil =>
    rw [lines, List.splitOn_nil, List.mem_singleton] at h
    subst h
    simp
  | cons c text ih =>
    rw [lines, List.splitOn_cons_eq_if_modifyHead] at h
    split at h
    · rcases List.mem_cons.mp h with hnil | hrest
      · subst hnil
        simp
      · exact ih hrest
    · rename_i hc
      have hne : ¬ c = '\n' := by simpa using hc
      cases hsplit : text.splitOn '\n' with
      | nil => exact absurd hsplit (List.splitOn_ne_nil '\n' text)
      | cons first rest =>
        have hmem : ∀ part ∈ first :: rest, '\n' ∉ part := by
          intro part hpart
          apply ih
          rw [lines, hsplit]
          exact hpart
        rw [hsplit, List.modifyHead_cons] at h
        rcases List.mem_cons.mp h with hfirst | hrest
        · subst hfirst
          intro hin
          rcases List.mem_cons.mp hin with hhead | htail
          · exact hne hhead.symm
          · exact hmem first List.mem_cons_self htail
        · exact hmem line (List.mem_cons_of_mem first hrest)

theorem replaceFirst_ne_nil (h : parts ≠ []) : replaceFirst accepts new parts ≠ [] := by
  cases parts with
  | nil => exact absurd rfl h
  | cons part rest =>
    rw [replaceFirst]
    split <;> simp

theorem mem_replaceFirst {part : List Char} (h : part ∈ replaceFirst accepts new parts) :
    part = new ∨ part ∈ parts := by
  induction parts with
  | nil => cases h
  | cons first rest ih =>
    rw [replaceFirst] at h
    split at h
    · rcases List.mem_cons.mp h with hnew | hrest
      · exact .inl hnew
      · exact .inr (List.mem_cons_of_mem first hrest)
    · rcases List.mem_cons.mp h with hfirst | hrest
      · exact .inr (hfirst ▸ List.mem_cons_self)
      · rcases ih hrest with hnew | hmem
        · exact .inl hnew
        · exact .inr (List.mem_cons_of_mem first hmem)

theorem lines_replaceFirst {text : List Char} (hnew : '\n' ∉ new) :
    lines (unlines (replaceFirst accepts new (lines text))) =
      replaceFirst accepts new (lines text) := by
  apply lines_unlines (replaceFirst_ne_nil (lines_ne_nil text))
  intro part hpart
  rcases mem_replaceFirst hpart with heq | hmem
  · rw [heq]
    exact hnew
  · exact not_mem_lines hmem

theorem find?_replaceFirst_self (hany : parts.any accepts = true) (hnew : accepts new = true) :
    (replaceFirst accepts new parts).find? accepts = some new := by
  induction parts with
  | nil => cases hany
  | cons part rest ih =>
    rw [replaceFirst]
    split
    · rw [List.find?_cons_of_pos hnew]
    · rename_i hpart
      rw [List.find?_cons_of_neg hpart]
      apply ih
      simpa [hpart] using hany

/-- Lines of one kind are not found in place of lines of another kind. -/
theorem find?_replaceFirst_other (hdisjoint : ∀ part, accepts part = true → other part = false)
    (hnew : other new = false) :
    (replaceFirst accepts new parts).find? other = parts.find? other := by
  induction parts with
  | nil => rfl
  | cons part rest ih =>
    rw [replaceFirst]
    split
    · rename_i hpart
      rw [List.find?_cons_of_neg (by simp [hnew]),
        List.find?_cons_of_neg (by simp [hdisjoint part hpart])]
    · rw [List.find?_cons, List.find?_cons, ih]

/-- The line that gives way is the first of its kind. -/
theorem replaceFirst_eq_set (accepts : List Char → Bool) (new : List Char)
    (parts : List (List Char)) :
    replaceFirst accepts new parts = parts.set (parts.findIdx accepts) new := by
  induction parts with
  | nil => rfl
  | cons part parts ih =>
    rw [replaceFirst, List.findIdx_cons]
    by_cases h : accepts part = true
    · rw [if_pos h, h]
      rfl
    · rw [if_neg h, Bool.eq_false_iff.mpr h, ih]
      rfl

theorem findIdx_replaceFirst_other (hdisjoint : ∀ part, accepts part = true → other part = false)
    (hnew : other new = false) :
    (replaceFirst accepts new parts).findIdx other = parts.findIdx other := by
  induction parts with
  | nil => rfl
  | cons part parts ih =>
    rw [replaceFirst]
    split
    · rename_i haccepts
      rw [List.findIdx_cons, List.findIdx_cons, hnew, hdisjoint part haccepts]
    · rw [List.findIdx_cons, List.findIdx_cons, ih]

/-- What counts the old line and the new one alike does not see the rewrite. -/
theorem countP_replaceFirst (h : ∀ part, accepts part = true → other part = other new) :
    (replaceFirst accepts new parts).countP other = parts.countP other := by
  induction parts with
  | nil => rfl
  | cons part parts ih =>
    rw [replaceFirst]
    split
    · rename_i haccepts
      rw [List.countP_cons, List.countP_cons, h part haccepts]
    · rw [List.countP_cons, List.countP_cons, ih]

theorem length_replaceFirst : (replaceFirst accepts new parts).length = parts.length := by
  rw [replaceFirst_eq_set, List.length_set]

/-- A line that is not accepted stays where it is. -/
theorem getElem?_replaceFirst {line : List Char} {k : ℕ} (hline : parts[k]? = some line)
    (h : accepts line = false) : (replaceFirst accepts new parts)[k]? = some line := by
  induction parts generalizing k with
  | nil => cases hline
  | cons part parts ih =>
    rw [replaceFirst]
    cases k with
    | zero =>
      cases hline
      rw [h]
      rfl
    | succ k =>
      split
      · exact hline
      · exact ih hline

theorem replaceFirst_append (earlier later : List (List Char)) (line : List Char)
    (hearlier : ∀ part ∈ earlier, accepts part = false) (hline : accepts line = true) :
    replaceFirst accepts new (earlier ++ line :: later) = earlier ++ new :: later := by
  induction earlier with
  | nil => rw [List.nil_append, replaceFirst, if_pos hline, List.nil_append]
  | cons part earlier ih =>
    rw [List.cons_append, replaceFirst, if_neg (by simp [hearlier part List.mem_cons_self]),
      ih fun other hother => hearlier other (List.mem_cons_of_mem part hother), List.cons_append]

end

def tailOf (later : List (List Char)) : List Char := later.flatMap ('\n' :: ·)

theorem lineEnd_tailOf (later : List (List Char)) : Pattern.LineEnd (tailOf later) := by
  cases later with
  | nil => exact .inl rfl
  | cons line later => exact .inr ⟨_, rfl⟩

theorem unlines_cons (line : List Char) (later : List (List Char)) :
    unlines (line :: later) = line ++ tailOf later := by
  induction later generalizing line with
  | nil => simp [unlines, tailOf]
  | cons next later ih =>
    rw [unlines, List.intercalate_cons_cons]
    show line ++ ['\n'] ++ unlines (next :: later) = _
    rw [ih]
    simp [tailOf]

theorem unlines_append_cons (earlier later : List (List Char)) (line : List Char) :
    unlines (earlier ++ line :: later) = Pattern.ended earlier ++ (line ++ tailOf later) := by
  induction earlier with
  | nil => exact unlines_cons line later
  | cons first earlier ih =>
    have hne : earlier ++ line :: later ≠ [] := by simp
    rw [List.cons_append, unlines, List.intercalate_cons_of_ne_nil hne]
    show first ++ ['\n'] ++ unlines (earlier ++ line :: later) = _
    rw [ih]
    simp [Pattern.ended]

theorem mem_of_mem_lines {text part : List Char} {c : Char} (hpart : part ∈ lines text)
    (hc : c ∈ part) : c ∈ text := by
  obtain ⟨earlier, later, hlines⟩ := List.append_of_mem hpart
  rw [← unlines_lines text, hlines, unlines_append_cons]
  simp [hc]

theorem mem_unlines {parts : List (List Char)} {c : Char} (h : c ∈ unlines parts) :
    c = '\n' ∨ ∃ part ∈ parts, c ∈ part := by
  cases parts with
  | nil => cases h
  | cons first rest =>
    rw [unlines_cons, List.mem_append, tailOf, List.mem_flatMap] at h
    rcases h with hfirst | ⟨part, hpart, hc⟩
    · exact .inr ⟨first, List.mem_cons_self, hfirst⟩
    · rcases List.mem_cons.mp hc with hnewline | hc
      · exact .inl hnewline
      · exact .inr ⟨part, List.mem_cons_of_mem first hpart, hc⟩

/-- A rewritten text holds only what the text and the new line held. -/
theorem not_mem_replaceFirst_text {accepts : List Char → Bool} {new text : List Char} {c : Char}
    (hc : c ≠ '\n') (hnew : c ∉ new) (htext : c ∉ text) :
    c ∉ unlines (replaceFirst accepts new (lines text)) := by
  intro h
  rcases mem_unlines h with hnewline | ⟨part, hpart, hmem⟩
  · exact hc hnewline
  · rcases mem_replaceFirst hpart with heq | hold
    · exact hnew (heq ▸ hmem)
    · exact htext (mem_of_mem_lines hold hmem)

/-! ### Searching and substituting lines -/

namespace Pattern

section

variable {p : Pattern γ} {accepts : List Char → Bool}
  {captured : List Char → γ → Option (List Char)}

theorem search_eq_of_find? (hp : LinePattern p accepts captured) {text line : List Char}
    (h : (lines text).find? accepts = some line) :
    ∃ earlier later, lines text = earlier ++ line :: later ∧
      (∀ part ∈ earlier, accepts part = false) ∧ accepts line = true ∧
      search p text = some (Cursor.fresh (ended earlier).reverse (line ++ tailOf later),
        ⟨line.reverse ++ (ended earlier).reverse, tailOf later, captured line⟩) := by
  obtain ⟨haccepts, earlier, later, hlines, hearlier⟩ := List.find?_eq_some_iff_append.mp h
  have hmiss : ∀ part ∈ earlier, accepts part = false := by
    intro part hpart
    simpa using hearlier part hpart
  have hfree (part : List Char) (hpart : part ∈ earlier ++ line :: later) : '\n' ∉ part := by
    rw [← hlines] at hpart
    exact not_mem_lines hpart
  have hfound := search_hit hp earlier
    (fun part hpart => ⟨hfree part (List.mem_append_left _ hpart), hmiss part hpart⟩) line
    (tailOf later) (hfree line (by simp)) (lineEnd_tailOf later) haccepts
  rw [← unlines_append_cons, ← hlines, unlines_lines] at hfound
  exact ⟨earlier, later, hlines, hmiss, haccepts, hfound⟩

theorem search_eq_none (hp : LinePattern p accepts captured) {text : List Char}
    (h : (lines text).find? accepts = none) : search p text = none := by
  have hmiss : ∀ line ∈ lines text, '\n' ∉ line ∧ accepts line = false := by
    intro line hline
    refine ⟨not_mem_lines hline, ?_⟩
    simpa using List.find?_eq_none.mp h line hline
  obtain ⟨hfree, hlast⟩ := hmiss _ (List.getLast_mem (lines_ne_nil text))
  have hnone := search_miss hp (lines text).dropLast
    (fun line hline => hmiss line (List.dropLast_subset _ hline)) _ hfree hlast
  have htext : ended (lines text).dropLast ++ (lines text).getLast (lines_ne_nil text) = text := by
    have hsplit := unlines_append_cons (lines text).dropLast []
      ((lines text).getLast (lines_ne_nil text))
    rw [List.dropLast_append_getLast, unlines_lines] at hsplit
    simpa [tailOf] using hsplit.symm
  rw [htext] at hnone
  exact hnone

/-- The search answers what the first accepted line captures. -/
theorem searchGroup_eq (hp : LinePattern p accepts captured) (name : γ) (text : List Char) :
    searchGroup p name text = ((lines text).find? accepts).bind fun line => captured line name := by
  rw [searchGroup]
  cases h : (lines text).find? accepts with
  | none =>
    rw [search_eq_none hp h]
    rfl
  | some line =>
    obtain ⟨earlier, later, -, -, -, hsearch⟩ := search_eq_of_find? hp h
    rw [hsearch]
    rfl

/-- The substitution puts the expanded template in place of the first accepted line. -/
theorem subn_eq (hp : LinePattern p accepts captured) (names : List γ) {template : List Char}
    {pieces : List Piece} (hpieces : compile names.length template = some pieces)
    (text : List Char) :
    subn p names template text = some
      (match (lines text).find? accepts with
        | none => (text, 0)
        | some line =>
            let groups := line :: names.map fun name => (captured line name).getD []
            (unlines (replaceFirst accepts (expand groups pieces) (lines text)), 1)) := by
  rw [subn, hpieces, Option.map_some]
  congr 1
  cases h : (lines text).find? accepts with
  | none => rw [search_eq_none hp h]
  | some line =>
    obtain ⟨earlier, later, hlines, hmiss, haccepts, hsearch⟩ := search_eq_of_find? hp h
    have hconsumed : Cursor.consumed (Cursor.fresh (γ := γ) (ended earlier).reverse
        (line ++ tailOf later)) ⟨line.reverse ++ (ended earlier).reverse, tailOf later,
          captured line⟩ = line := by
      simp [Cursor.consumed, Cursor.fresh]
    rw [hsearch, hlines]
    dsimp only
    rw [hconsumed, replaceFirst_append earlier later line hmiss haccepts, unlines_append_cons]
    simp [Cursor.fresh]

end

end Pattern

/-! ### Patterns of the form `^body$` -/

namespace Pattern

def ofLine (body : Pattern γ) : Pattern γ := .seq (.bol true) (.seq body (.eol true))

section

variable {body : Pattern γ} {accepts : List Char → Bool}
  {captured : List Char → γ → Option (List Char)}

theorem atEol_multiline {γ : Type*} {s : Cursor γ} :
    atEol true s = true ↔ LineEnd s.after := by
  unfold atEol LineEnd
  cases s.after with
  | nil => simp
  | cons c rest =>
    by_cases hc : c = '\n' <;> simp [hc]

/-- The start of a line: nothing came before, or a newline did. -/
def LineStart (before : List Char) : Prop := before = [] ∨ ∃ earlier, before = earlier ++ ['\n']

theorem atBol_multiline {γ : Type*} {before after : List Char} :
    atBol true (Cursor.fresh (γ := γ) before.reverse after) = true ↔ LineStart before := by
  unfold atBol LineStart Cursor.fresh
  rw [Bool.or_eq_true, Bool.true_and, beq_iff_eq, List.head?_reverse, List.isEmpty_reverse,
    List.isEmpty_iff, List.getLast?_eq_some_iff]

/-- A body that reads the words of a language reads them at whole lines. -/
theorem matches_ofLine {l : Language Char} (hbody : Consumes body l) {before after : List Char}
    {u : Cursor γ} : Matches (ofLine body) (Cursor.fresh before.reverse after) u ↔
      LineStart before ∧ ∃ word rest, after = word ++ rest ∧ word ∈ l ∧ LineEnd rest ∧
        u = Cursor.fresh (before ++ word).reverse rest := by
  have hend (word rest : List Char) :
      (Cursor.fresh (γ := γ) before.reverse after).advance word rest =
        Cursor.fresh (before ++ word).reverse rest := by
    rw [List.reverse_append]
    rfl
  rw [ofLine, matches_seq]
  constructor
  · intro h
    obtain ⟨s, hbol, h⟩ := h
    obtain ⟨hstart, hs⟩ := matches_bol.mp hbol
    subst hs
    obtain ⟨t, hread, heol⟩ := matches_seq.mp h
    obtain ⟨word, rest, hafter, hword, ht⟩ := (hbody _ _).mp hread
    obtain ⟨hstop, hu⟩ := matches_eol.mp heol
    subst ht hu
    exact ⟨atBol_multiline.mp hstart, word, rest, hafter, hword, atEol_multiline.mp hstop,
      hend word rest⟩
  · intro h
    obtain ⟨hstart, word, rest, hafter, hword, hstop, hu⟩ := h
    rw [← hend] at hu
    refine ⟨_, matches_bol.mpr ⟨atBol_multiline.mpr hstart, rfl⟩, ?_⟩
    rw [matches_seq]
    refine ⟨_, (hbody _ _).mpr ⟨word, rest, hafter, hword, rfl⟩, ?_⟩
    exact matches_eol.mpr ⟨atEol_multiline.mpr hstop, hu⟩

theorem line_append_inj {line line' tail tail' : List Char} (hline : '\n' ∉ line)
    (hline' : '\n' ∉ line') (htail : LineEnd tail) (htail' : LineEnd tail')
    (h : line ++ tail = line' ++ tail') : line = line' ∧ tail = tail' := by
  have hends {tail : List Char} (htail : LineEnd tail) :
      ∀ c ∈ tail.head?, (decide (c ≠ '\n')) = false := by
    intro c hc
    rcases htail with hnil | ⟨rest, hrest⟩
    · subst hnil
      cases hc
    · subst hrest
      cases hc
      rfl
  have hfree {line : List Char} (hline : '\n' ∉ line) : ∀ c ∈ line, (decide (c ≠ '\n')) = true := by
    intro c hc
    apply decide_eq_true
    intro heq
    exact hline (heq ▸ hc)
  exact classWords_append_inj (hfree hline) (hfree hline') (hends htail) (hends htail') h

/-- A body that reads words without newlines, and captures by the word alone, reads whole lines. -/
theorem linePattern_ofLine
    (hbody : ∀ before after u, Matches body (Cursor.fresh before after) u ↔
      ∃ word rest, after = word ++ rest ∧ accepts word = true ∧
        u = ⟨word.reverse ++ before, rest, captured word⟩)
    (hwords : ∀ word, accepts word = true → '\n' ∉ word) :
    LinePattern (ofLine body) accepts captured := by
  have hmatches (before line tail : List Char) (hline : '\n' ∉ line) (htail : LineEnd tail)
      (u : Cursor γ) (h : Matches (ofLine body) (Cursor.fresh before (line ++ tail)) u) :
      accepts line = true ∧ u = ⟨line.reverse ++ before, tail, captured line⟩ := by
    rw [ofLine, matches_seq] at h
    obtain ⟨s, hbol, h⟩ := h
    obtain ⟨-, hs⟩ := matches_bol.mp hbol
    subst hs
    obtain ⟨t, hread, heol⟩ := matches_seq.mp h
    obtain ⟨hend, hu⟩ := matches_eol.mp heol
    obtain ⟨word, rest, hafter, hword, ht⟩ := (hbody _ _ _).mp hread
    subst ht
    obtain ⟨hsame, hrest⟩ := line_append_inj hline (hwords word hword) htail
      (atEol_multiline.mp hend) hafter
    subst hsame hrest
    exact ⟨hword, hu⟩
  constructor
  · intro before after hbefore
    apply run_eq_nil
    intro u h
    rw [ofLine, matches_seq] at h
    obtain ⟨s, hbol, -⟩ := h
    rw [matches_bol, hbefore] at hbol
    exact absurd hbol.1 Bool.false_ne_true
  · intro before line tail hbefore hline htail haccepts
    apply head?_run_eq_some
    · rw [ofLine, matches_seq]
      refine ⟨_, matches_bol.mpr ⟨hbefore, rfl⟩, ?_⟩
      rw [matches_seq]
      refine ⟨_, (hbody _ _ _).mpr ⟨line, tail, rfl, haccepts, rfl⟩, ?_⟩
      exact matches_eol.mpr ⟨atEol_multiline.mpr htail, rfl⟩
    · intro u h
      exact (hmatches before line tail hline htail u h).2
  · intro before line tail hline htail hmiss
    apply run_eq_nil
    intro u h
    have haccepts := (hmatches before line tail hline htail u h).1
    rw [hmiss] at haccepts
    cases haccepts

/-- A fixed text and then a word, which alone decides the groups. -/
theorem linePattern_lit {head : List Char} {p : Pattern γ} (words : Language Char)
    (stored : List Char → γ → Option (List Char))
    (hp : ∀ before after u, Matches p (Cursor.fresh before after) u ↔
      ∃ word rest, after = word ++ rest ∧ word ∈ words ∧
        u = ⟨word.reverse ++ before, rest, stored word⟩)
    (haccepts : ∀ line, accepts line = true ↔ ∃ word ∈ words, line = head ++ word)
    (hcaptured : ∀ word, captured (head ++ word) = stored word)
    (hhead : '\n' ∉ head) (hwords : ∀ word ∈ words, '\n' ∉ word) :
    LinePattern (ofLine (.seq (.lit head) p)) accepts captured := by
  apply linePattern_ofLine
  · intro before after u
    rw [matches_lit_seq]
    show (∃ rest, after = head ++ rest ∧
      Matches p (Cursor.fresh (head.reverse ++ before) rest) u) ↔ _
    constructor
    · intro h
      obtain ⟨rest, hafter, hread⟩ := h
      obtain ⟨word, rest', hrest, hword, hu⟩ := (hp _ _ _).mp hread
      subst hrest hafter
      refine ⟨head ++ word, rest', (List.append_assoc head word rest').symm,
        (haccepts _).mpr ⟨word, hword, rfl⟩, ?_⟩
      rw [hu, hcaptured, List.reverse_append, List.append_assoc]
    · intro h
      obtain ⟨line, rest, hafter, hline, hu⟩ := h
      obtain ⟨word, hword, hsplit⟩ := (haccepts line).mp hline
      subst hsplit hafter
      refine ⟨word ++ rest, List.append_assoc head word rest,
        (hp _ _ _).mpr ⟨word, rest, rfl, hword, ?_⟩⟩
      rw [hu, hcaptured, List.reverse_append, List.append_assoc]
  · intro line hline hmem
    obtain ⟨word, hword, hsplit⟩ := (haccepts line).mp hline
    rw [hsplit] at hmem
    exact (List.mem_append.mp hmem).elim hhead (hwords word hword)

end

end Pattern

/-! ### Patterns that begin with a fixed text -/

namespace Pattern

theorem run_lit_eq_nil {head : List Char} {rest : Pattern γ} {s : Cursor γ}
    (h : head.isPrefixOf s.after = false) : run (.seq (.lit head) rest) s = [] := by
  apply run_eq_nil
  intro u hmatches
  obtain ⟨tail, hafter, -⟩ := matches_lit_seq.mp hmatches
  rw [hafter, List.isPrefixOf_iff_prefix.mpr (List.prefix_append _ _)] at h
  cases h

/-- The search passes over the positions where the fixed text does not stand. -/
theorem searchFrom_lit_skip (head : List Char) (rest : Pattern γ) (skipped before tail : List Char)
    (h : ∀ k < skipped.length, head.isPrefixOf ((skipped ++ tail).drop k) = false) :
    searchFrom (.seq (.lit head) rest) before (skipped ++ tail) =
      searchFrom (.seq (.lit head) rest) (skipped.reverse ++ before) tail := by
  apply searchFrom_skip
  intro passed left hsplit hleft
  apply run_lit_eq_nil
  have hk : passed.length < skipped.length := by
    rw [hsplit, List.length_append]
    exact Nat.lt_add_of_pos_right (List.length_pos_of_ne_nil hleft)
  have hnot := h passed.length hk
  rw [hsplit, List.append_assoc, List.drop_left] at hnot
  exact hnot

end Pattern

/-! ### Templates without escapes -/

theorem compileFrom_plain (groups : ℕ) (template : List Char) (h : '\\' ∉ template) (n : ℕ)
    (hn : template.length ≤ n) : compileFrom groups n template = some (template.map .char) := by
  induction template generalizing n with
  | nil => cases n <;> rfl
  | cons c template ih =>
    cases n with
    | zero => simp at hn
    | succ n =>
      have hc : c ≠ '\\' := fun hc => h (by simp [hc])
      rw [compileFrom, if_neg hc, ih (fun hmem => h (List.mem_cons_of_mem c hmem)) n
        (by simpa using hn)]
      rfl

theorem compile_plain (groups : ℕ) {template : List Char} (h : '\\' ∉ template) :
    compile groups template = some (template.map .char) :=
  compileFrom_plain groups template h template.length (Nat.le_refl _)

theorem expand_plain (groups : List (List Char)) (template : List Char) :
    expand groups (template.map .char) = template := by
  induction template with
  | nil => rfl
  | cons c template ih =>
    rw [expand] at ih ⊢
    rw [List.map_cons, List.flatMap_cons, ih]
    rfl

namespace Pattern

variable {p : Pattern γ} {accepts : List Char → Bool}
  {captured : List Char → γ → Option (List Char)}

/-- A template without escapes replaces the first accepted line by itself. -/
theorem subn_plain (hp : LinePattern p accepts captured) (names : List γ) {template : List Char}
    (htemplate : '\\' ∉ template) (text : List Char) :
    subn p names template text = some
      (if (lines text).any accepts then
        (unlines (replaceFirst accepts template (lines text)), 1) else (text, 0)) := by
  rw [subn_eq hp names (compile_plain names.length htemplate)]
  congr 1
  cases h : (lines text).find? accepts with
  | none =>
    rw [if_neg]
    rw [List.find?_eq_none] at h
    simpa using h
  | some line =>
    rw [if_pos]
    · dsimp only
      rw [expand_plain]
    · rw [List.any_eq_true]
      exact ⟨line, List.mem_of_find?_eq_some h, List.find?_some h⟩

end Pattern

end Regex
