import UnifiContainers.Lib.Template
import UnifiContainers.Updaters.NetworkPins

/-!
# The release-notes link in the README row

The link goes through a replacement template into the row, and the row that comes out is what the
next bump has to find. Nothing between the feed and the README checks the link.
-/

namespace UnifiContainers.Updaters.Network

open Regex Pattern PyText Pins Fallible

/-! ### Rows of a text -/

def rowHead : Text := "| `ghcr.io/jamesbraid/unifi-network` | ".toList

def rowMiddle : Text := " | [Release notes](".toList

def rowEnd : Text := ") |".toList

def IsToken (token : Text) : Prop := token ≠ [] ∧ ∀ c ∈ token, nonSpace c = true

instance (token : Text) : Decidable (IsToken token) := inferInstanceAs (Decidable (_ ∧ _))

/-- A line that the pattern takes; its link may run over several lines. -/
def rows : Language Char :=
  {line | ∃ token link, line = row token link ∧ IsToken token ∧ ')' ∉ link}

/-- The pattern matches this row at this place. -/
structure RowAt (text before token link after : Text) : Prop where
  split : text = before ++ (row token link ++ after)
  starts : LineStart before
  token : IsToken token
  closed : ')' ∉ link
  ends : LineEnd after

/-- The row that the search finds. -/
structure FirstRow (text before token link after : Text) : Prop
    extends RowAt text before token link after where
  first : ∀ b t l a, RowAt text b t l a → before.length ≤ b.length

section

variable {text before token link after b t l a rest rest' : Text}

theorem row_append (token link rest : Text) : row token link ++ rest =
    rowHead ++ (token ++ (rowMiddle ++ (link ++ (rowEnd ++ rest)))) := by
  show (rowHead ++ (token ++ (rowMiddle ++ (link ++ rowEnd)))) ++ rest = _
  simp only [List.append_assoc]

theorem token_append_inj (ht : ∀ c ∈ token, nonSpace c = true) (ht' : ∀ c ∈ t, nonSpace c = true)
    (h : token ++ (rowMiddle ++ rest) = t ++ (rowMiddle ++ rest')) : token = t ∧ rest = rest' := by
  have hspace (rest : Text) : ∀ c ∈ (rowMiddle ++ rest).head?, nonSpace c = false := by
    intro c hc
    cases hc
    decide
  obtain ⟨hsame, htail⟩ := classWords_append_inj ht ht' (hspace rest) (hspace rest') h
  exact ⟨hsame, List.append_cancel_left htail⟩

theorem open_of_not_mem (h : ')' ∉ link) : ∀ c ∈ link, decide (c ≠ ')') = true := by
  intro c hc
  apply decide_eq_true
  intro heq
  exact h (heq ▸ hc)

theorem link_append_inj (hl : ')' ∉ link) (hl' : ')' ∉ l)
    (h : link ++ (rowEnd ++ rest) = l ++ (rowEnd ++ rest')) : link = l ∧ rest = rest' := by
  have hend (rest : Text) : ∀ c ∈ (rowEnd ++ rest).head?, decide (c ≠ ')') = false := by
    intro c hc
    cases hc
    decide
  obtain ⟨hsame, htail⟩ := classWords_append_inj (open_of_not_mem hl) (open_of_not_mem hl')
    (hend rest) (hend rest') h
  exact ⟨hsame, List.append_cancel_left htail⟩

theorem row_append_inj (ht : IsToken token) (ht' : IsToken t) (hl : ')' ∉ link) (hl' : ')' ∉ l)
    (h : row token link ++ rest = row t l ++ rest') : token = t ∧ link = l ∧ rest = rest' := by
  rw [row_append, row_append] at h
  obtain ⟨htoken, h⟩ := token_append_inj ht.2 ht'.2 (List.append_cancel_left h)
  exact ⟨htoken, link_append_inj hl hl' h⟩

/-! ### What the pattern finds -/

theorem mem_rows : rows = ({rowHead} : Language Char) * (classWords₁ nonSpace *
    (({rowMiddle} : Language Char) * (classWords (· ≠ ')') * {rowEnd}))) := by
  apply Set.ext
  intro line
  constructor
  · intro h
    obtain ⟨token, link, hline, htoken, hlink⟩ := h
    exact ⟨rowHead, rfl, _, ⟨token, htoken, _, ⟨rowMiddle, rfl, _,
      ⟨link, open_of_not_mem hlink, rowEnd, rfl, rfl⟩, rfl⟩, rfl⟩, hline.symm⟩
  · intro h
    obtain ⟨_, hhead, _, ⟨token, htoken, _, ⟨_, hmiddle, _, ⟨link, hlink, _, hend, rfl⟩, rfl⟩,
      rfl⟩, hline⟩ := h
    cases hhead
    cases hmiddle
    cases hend
    exact ⟨token, link, hline.symm, htoken, fun hmem => of_decide_eq_true (hlink ')' hmem) rfl⟩

theorem matches_readmeRowRe {u : Cursor Empty} :
    Matches readmeRowRe (Cursor.fresh before.reverse rest) u ↔ LineStart before ∧
      ∃ line after, rest = line ++ after ∧ line ∈ rows ∧ LineEnd after ∧
        u = Cursor.fresh (before ++ line).reverse after := by
  have hbody : Consumes (γ := Empty) (.seq (.lit rowHead) (.seq word (.seq (.lit rowMiddle)
      (.seq (.many true (.one (· ≠ ')'))) (.lit rowEnd))))) rows := by
    rw [mem_rows]
    exact (consumes_lit rowHead).seq ((consumes_plus_one true nonSpace).seq
      ((consumes_lit rowMiddle).seq ((consumes_many_one true _).seq (consumes_lit rowEnd))))
  exact matches_ofLine hbody

theorem matches_iff_rowAt {u : Cursor Empty} :
    Matches readmeRowRe (Cursor.fresh before.reverse rest) u ↔
      ∃ token link after, RowAt (before ++ rest) before token link after ∧
        u = Cursor.fresh (before ++ row token link).reverse after := by
  rw [matches_readmeRowRe]
  constructor
  · intro h
    obtain ⟨hstart, line, after, hrest, ⟨token, link, hline, htoken, hlink⟩, hend, hu⟩ := h
    subst hrest hline
    exact ⟨token, link, after, ⟨rfl, hstart, htoken, hlink, hend⟩, hu⟩
  · intro h
    obtain ⟨token, link, after, hrow, hu⟩ := h
    exact ⟨hrow.starts, row token link, after, List.append_cancel_left hrow.split,
      ⟨token, link, rfl, hrow.token, hrow.closed⟩, hrow.ends, hu⟩

theorem RowAt.matches (h : RowAt text before token link after) :
    Matches readmeRowRe (Cursor.fresh before.reverse (row token link ++ after))
      (Cursor.fresh (before ++ row token link).reverse after) :=
  matches_iff_rowAt.mpr ⟨token, link, after, ⟨rfl, h.starts, h.token, h.closed, h.ends⟩, rfl⟩

theorem RowAt.unique (h : RowAt text before token link after) (h' : RowAt text before t l a) :
    token = t ∧ link = l ∧ after = a :=
  row_append_inj h.token h'.token h.closed h'.closed
    (List.append_cancel_left (h.split.symm.trans h'.split))

theorem search_firstRow (h : FirstRow text before token link after) :
    search readmeRowRe text = some (Cursor.fresh before.reverse (row token link ++ after),
      Cursor.fresh (before ++ row token link).reverse after) := by
  rw [h.split]
  apply search_of_first h.matches
  · intro u hu
    obtain ⟨t, l, a, hrow, hu⟩ := matches_iff_rowAt.mp hu
    rw [← h.split] at hrow
    obtain ⟨htoken, hlink, hafter⟩ := h.unique hrow
    rw [hu, htoken, hlink, hafter]
  · intro b rest u hsplit hu
    obtain ⟨t, l, a, hrow, -⟩ := matches_iff_rowAt.mp hu
    rw [← hsplit, ← h.split] at hrow
    exact h.first b t l a hrow

theorem exists_firstRow (h : (search readmeRowRe text).isSome = true) :
    ∃ before token link after, FirstRow text before token link after := by
  obtain ⟨⟨s, u⟩, hfound⟩ := Option.isSome_iff_exists.mp h
  obtain ⟨before, rest, htext, hs, hmatch, hfirst⟩ := first_of_search hfound
  subst hs htext
  obtain ⟨token, link, after, hrow, -⟩ := matches_iff_rowAt.mp hmatch
  refine ⟨before, token, link, after, hrow, fun b t l a hother => ?_⟩
  exact hfirst b (row t l ++ a) _ hother.split hother.matches

/-! ### Rows that begin above -/

/-- A row begins above `before`, and its link goes on to the end of it. -/
structure OpenAt (before b token link : Text) : Prop where
  split : before = b ++ (rowHead ++ (token ++ (rowMiddle ++ link)))
  starts : LineStart b
  token : IsToken token
  closed : ')' ∉ link

def OpenRow (before : Text) : Prop := ∃ b token link, OpenAt before b token link

theorem newline_mem_of_lineStart (h : LineStart (b ++ rest)) (hne : rest ≠ []) : '\n' ∈ rest := by
  rcases h with hnil | ⟨earlier, hearlier⟩
  · exact absurd (List.append_eq_nil_iff.mp hnil).2 hne
  · obtain ⟨front, c, hrest⟩ := (List.eq_nil_or_concat rest).resolve_left hne
    rw [List.concat_eq_append] at hrest
    rw [hrest, ← List.append_assoc] at hearlier
    obtain ⟨-, hc⟩ := List.append_inj' hearlier rfl
    rw [hrest, hc]
    exact List.mem_append_right _ List.mem_cons_self

theorem newline_not_mem (ht : IsToken token) : '\n' ∉ rowHead ++ (token ++ rowMiddle) := by
  rw [List.mem_append, List.mem_append, not_or, not_or]
  refine ⟨by decide, fun hmem => ?_, by decide⟩
  have hspace := ht.2 '\n' hmem
  rw [nonSpace_newline] at hspace
  cases hspace

/-- What reaches a newline of a row has passed its token. -/
theorem opened_of_newline (ht : IsToken t) (hnewline : '\n' ∈ a)
    (h : row t l ++ rest = a ++ rest') :
    ∃ z, a = rowHead ++ (t ++ (rowMiddle ++ z)) ∧ l ++ (rowEnd ++ rest) = z ++ rest' := by
  have hsplit : (rowHead ++ (t ++ rowMiddle)) ++ (l ++ (rowEnd ++ rest)) = a ++ rest' := by
    rw [← h, row_append]
    simp only [List.append_assoc]
  rcases List.append_eq_append_iff.mp hsplit with ⟨z, ha, hl⟩ | ⟨more, hhead, -⟩
  · refine ⟨z, ?_, hl⟩
    rw [ha]
    simp only [List.append_assoc]
  · have hmem : '\n' ∈ rowHead ++ (t ++ rowMiddle) := by
      rw [hhead]
      exact List.mem_append_left more hnewline
    exact absurd hmem (newline_not_mem ht)

theorem not_lineEnd_row (token link rest : Text) : ¬ LineEnd (row token link ++ rest) := by
  intro h
  rcases h with hnil | ⟨after, hafter⟩
  · cases hnil
  · cases (List.cons.inj hafter).1

/-- Between two rows there is a newline, whatever the second one is. -/
theorem lineEnd_row {version shown tail : Text} (h : LineEnd (a ++ (row version shown ++ tail)))
    (rest : Text) : LineEnd (a ++ rest) := by
  cases a with
  | nil => exact absurd h (not_lineEnd_row version shown tail)
  | cons c a =>
    rcases h with hnil | ⟨left, hleft⟩
    · cases hnil
    · cases (List.cons.inj hleft).1
      exact .inr ⟨_, rfl⟩

/-- A row that starts above a line and reaches over its start is open there. -/
theorem openAt_of_reaching {q r : Text} (hstart : LineStart (b ++ q)) (hq : q ≠ [])
    (hb : LineStart b) (ht : IsToken t) (hl : ')' ∉ l) (h : row t l = q ++ r) :
    ∃ z, OpenAt (b ++ q) b t z := by
  have hrow : row t l ++ [] = q ++ r := by rw [List.append_nil, h]
  obtain ⟨z, hz, hlink⟩ := opened_of_newline ht (newline_mem_of_lineStart hstart hq) hrow
  refine ⟨z, by rw [hz], hb, ht, fun hmem => ?_⟩
  rcases List.append_eq_append_iff.mp hlink with ⟨excess, hexcess, hend⟩ | ⟨more, hmore, -⟩
  · -- the line would begin inside of the row's end, which has no newline
    cases excess with
    | nil =>
      rw [hexcess, List.append_nil] at hmem
      exact hl hmem
    | cons c excess =>
      have hinside : b ++ q = (b ++ (rowHead ++ (t ++ (rowMiddle ++ l)))) ++ (c :: excess) := by
        rw [hz, hexcess]
        simp only [List.append_assoc]
      rw [hinside] at hstart
      have hnewline : '\n' ∈ rowEnd ++ [] := by
        rw [hend]
        exact List.mem_append_left r
          (newline_mem_of_lineStart hstart (List.cons_ne_nil c excess))
      exact absurd hnewline (by decide)
  · exact hl (by rw [hmore]; exact List.mem_append_left more hmem)

/-- If the text of the first row is replaced, a row that begins above it reaches into it. -/
theorem FirstRow.openAt (h : FirstRow text before token link after) {version shown tail : Text}
    (hrow : RowAt (before ++ (row version shown ++ tail)) b t l a)
    (hlt : b.length < before.length) : ∃ z, OpenAt before b t z := by
  obtain ⟨q, hne, hbefore, hq⟩ := exists_of_append_eq hrow.split hlt
  rcases List.append_eq_append_iff.mp hq with ⟨q', hsplit, ha⟩ | ⟨r, hsplit, -⟩
  · -- the row ends above, so it was there before
    have hends := hrow.ends
    rw [ha] at hends
    have hearlier : RowAt text b t l (q' ++ (row token link ++ after)) := by
      refine ⟨?_, hrow.starts, hrow.token, hrow.closed, lineEnd_row hends _⟩
      rw [h.split, hbefore, hsplit]
      simp only [List.append_assoc]
    exact absurd (h.first b t l _ hearlier) (not_le.mpr hlt)
  · have hstart := h.starts
    rw [hbefore] at hstart ⊢
    exact openAt_of_reaching hstart hne hrow.starts hrow.token hrow.closed hsplit

/-- An open row takes in the text below it up to the first closing parenthesis. -/
theorem OpenAt.rowAt (h : OpenAt before b t l) {version shown tail : Text}
    (hversion : ')' ∉ version) (hshown : ')' ∉ shown) (htail : LineEnd tail) :
    ∃ inside, RowAt (before ++ (row version shown ++ tail)) b t inside tail := by
  refine ⟨l ++ (rowHead ++ (version ++ (rowMiddle ++ shown))), ?_, h.starts, h.token, ?_, htail⟩
  · rw [h.split, row_append, row_append]
    simp only [List.append_assoc]
  · simp only [List.mem_append, not_or]
    exact ⟨h.closed, by decide, hversion, by decide, hshown⟩

theorem OpenAt.length_lt (h : OpenAt before b t l) : b.length < before.length := by
  rw [h.split, List.length_append]
  exact Nat.lt_add_of_pos_right (Nat.zero_lt_succ _)

theorem not_openRow_nil : ¬ OpenRow [] := by
  intro h
  obtain ⟨b, t, l, hopen⟩ := h
  exact absurd hopen.length_lt (Nat.not_lt_zero _)

/-- Above the first row no row is open, unless a token of this one closes it. -/
theorem FirstRow.not_openAt (h : FirstRow text before token link after) (ht : ')' ∉ token) :
    ¬ OpenAt before b t l := by
  intro hopen
  obtain ⟨inside, hrow⟩ := hopen.rowAt ht h.closed h.ends
  rw [← h.split] at hrow
  exact absurd (h.first b t inside after hrow) (not_le.mpr hopen.length_lt)


/-! ### What the template writes -/

/-- The text that the template has for a link, in place of a match. -/
def Shows (link found shown : Text) : Prop :=
  ∃ pieces, compile 0 (link ++ rowEnd) = some (pieces ++ rowEnd.map .char) ∧
    shown = expand [found] pieces

theorem compile_link {pieces : List Piece} (h : compile 0 (link ++ rowEnd) = some pieces) :
    ∃ shown, pieces = shown ++ rowEnd.map .char :=
  compile_mark (c := ')') ⟨by decide, by decide⟩ (by decide) h

theorem compile_row {version : Text} (hversion : '\\' ∉ version) (link : Text) :
    compile 0 (row version link) = (compile 0 (link ++ rowEnd)).map
      ((rowHead ++ (version ++ rowMiddle)).map Piece.char ++ ·) := by
  have hplain : '\\' ∉ rowHead ++ (version ++ rowMiddle) := by
    rw [List.mem_append, List.mem_append, not_or, not_or]
    exact ⟨by decide, hversion, by decide⟩
  have hsplit : row version link = (rowHead ++ (version ++ rowMiddle)) ++ (link ++ rowEnd) := by
    show rowHead ++ (version ++ (rowMiddle ++ (link ++ rowEnd))) = _
    simp only [List.append_assoc]
  rw [hsplit, compile_append hplain]

theorem rewriteReadme_eq (h : FirstRow text before token link after) (version newLink : Text) :
    rewriteReadme text version newLink = match compile 0 (row version newLink) with
      | none => .error .template
      | some pieces => .ok (before ++ expand [row token link] pieces ++ after) := by
  have hconsumed : (Cursor.fresh (γ := Empty) before.reverse (row token link ++ after)).consumed
      (Cursor.fresh (before ++ row token link).reverse after) = row token link := by
    show (row token link ++ after).take ((row token link ++ after).length - after.length) = _
    rw [List.length_append, Nat.add_sub_cancel, List.take_left]
  rw [rewriteReadme, sub, subn, search_firstRow h]
  dsimp only
  rw [hconsumed, List.length_nil]
  cases compile 0 (row version newLink) with
  | none => rfl
  | some pieces =>
    show Except.ok (before.reverse.reverse ++ expand [row token link] pieces ++ after) = _
    rw [List.reverse_reverse]

/-- What is written for a README whose row is known. -/
theorem newReadme_ok_iff_shows {raw version new : Text} (hversion : '\\' ∉ version)
    (h : FirstRow (universalNewlines raw) before token link after) (newLink : Text) :
    newReadme (some raw) version newLink = .ok new ↔
      ∃ shown, Shows newLink (row token link) shown ∧
        new = before ++ (row version shown ++ after) := by
  have hread : newReadme (some raw) version newLink =
      rewriteReadme (universalNewlines raw) version newLink := rfl
  rw [hread, rewriteReadme_eq h, compile_row hversion]
  have hwritten (shown : List Piece) : before ++ expand [row token link]
      ((rowHead ++ (version ++ rowMiddle)).map Piece.char ++ (shown ++ rowEnd.map .char)) ++ after =
        before ++ (row version (expand [row token link] shown) ++ after) := by
    rw [expand_append, expand_append, expand_plain, expand_plain, row_append]
    simp only [List.append_assoc]
  constructor
  · intro hnew
    cases hcompile : compile 0 (newLink ++ rowEnd) with
    | none =>
      rw [hcompile] at hnew
      cases hnew
    | some pieces =>
      obtain ⟨shown, hpieces⟩ := compile_link hcompile
      subst hpieces
      rw [hcompile] at hnew
      cases hnew
      exact ⟨expand [row token link] shown, ⟨shown, hcompile, rfl⟩, hwritten shown⟩
  · intro hnew
    obtain ⟨_, ⟨shown, hcompile, hshown⟩, hnew⟩ := hnew
    rw [hcompile, hnew, hshown, ← hwritten]
    rfl

/-- A template with a reference repeats what is matched; the others are the same for every match. -/
theorem Shows.plain_or_found {found found' shown shown' : Text} (h : Shows link found shown)
    (h' : Shows link found' shown') :
    shown = shown' ∧ compile 0 (link ++ rowEnd) = some ((shown ++ rowEnd).map .char) ∨
      ∃ plain x x', shown = plain ++ (found ++ x) ∧ shown' = plain ++ (found' ++ x') := by
  obtain ⟨pieces, hcompile, hshown⟩ := h
  obtain ⟨pieces', hcompile', hshown'⟩ := h'
  have hpieces := List.append_cancel_right (Option.some.inj (hcompile.symm.trans hcompile'))
  subst hpieces hshown hshown'
  have hgroups (k : ℕ) (hk : .group k ∈ pieces) : k = 0 :=
    Nat.le_zero.mp (compile_group hcompile (List.mem_append_left _ hk))
  rcases plain_or_group hgroups with ⟨plain, hplain⟩ | ⟨plain, later, hlater⟩
  · left
    subst hplain
    rw [expand_plain, expand_plain, List.map_append]
    exact ⟨rfl, hcompile⟩
  · right
    subst hlater
    refine ⟨plain, expand [found] later, expand [found'] later, ?_, ?_⟩
    · rw [expand_append, expand_plain]
      rfl
    · rw [expand_append, expand_plain]
      rfl

theorem shows_of_plain {shown : Text}
    (h : compile 0 (link ++ rowEnd) = some ((shown ++ rowEnd).map .char)) (found : Text) :
    Shows link found shown := by
  rw [List.map_append] at h
  exact ⟨shown.map .char, h, (expand_plain [found] shown).symm⟩

theorem Shows.plain {found shown : Text} (h : Shows link found shown) (hfound : ')' ∈ found)
    (hshown : ')' ∉ shown) :
    compile 0 (link ++ rowEnd) = some ((shown ++ rowEnd).map .char) := by
  obtain ⟨pieces, hcompile, heq⟩ := h
  have hgroups (k : ℕ) (hk : .group k ∈ pieces) : k = 0 :=
    Nat.le_zero.mp (compile_group hcompile (List.mem_append_left _ hk))
  rw [heq] at hshown
  rw [hcompile, heq, List.map_append, ← plain_of_not_mem hgroups hfound hshown]

/-! ### What is read back -/

/-- A version as the updater writes it. -/
structure Bare (version : Text) : Prop where
  token : IsToken version
  closed : ')' ∉ version
  escape : '\\' ∉ version
  returns : '\r' ∉ version

theorem bare_upstream (w : VersionText) : Bare w.upstream := by
  have hdotted (c : Char) (hc : isDottedChar c = false) : c ∉ w.upstream := by
    intro hmem
    rw [(isDotted_upstream w).chars c hmem] at hc
    cases hc
  refine ⟨⟨?_, nonSpace_word (isWord_upstream w)⟩, hdotted _ (by decide), hdotted _ (by decide),
    hdotted _ (by decide)⟩
  intro hnil
  exact absurd (List.append_eq_nil_iff.mp hnil).2 (List.cons_ne_nil _ _)

theorem universalNewlines_row {version : Text} (hbefore : '\r' ∉ before) (hversion : '\r' ∉ version)
    (hafter : '\r' ∉ after) (shown : Text) :
    universalNewlines (before ++ (row version shown ++ after)) =
      before ++ (row version (universalNewlines shown) ++ after) := by
  have hhead : '\r' ∉ before ++ (rowHead ++ (version ++ rowMiddle)) := by
    simp only [List.mem_append, not_or]
    exact ⟨hbefore, by decide, hversion, by decide⟩
  have hend : '\r' ∉ rowEnd ++ after := by
    rw [List.mem_append, not_or]
    exact ⟨by decide, hafter⟩
  have hshown : universalNewlines (shown ++ (rowEnd ++ after)) =
      universalNewlines shown ++ (rowEnd ++ after) := by
    have hlast := universalNewlines_append_cons shown (" |".toList ++ after) (c := ')') (by decide)
    exact hlast.trans (congrArg _ (universalNewlines_of_not_mem hend))
  have hsplit (shown : Text) : before ++ (row version shown ++ after) =
      (before ++ (rowHead ++ (version ++ rowMiddle))) ++ (shown ++ (rowEnd ++ after)) := by
    rw [row_append]
    simp only [List.append_assoc]
  rw [hsplit, hsplit, universalNewlines_append _ hhead, hshown]

end

/-! ### The row of the next bump -/

/-- A text up to its first closing parenthesis. -/
def upTo (text : Text) : Text := text.takeWhile (· ≠ ')')

theorem upTo_append_of_not_mem {text : Text} (h : ')' ∉ text) (rest : Text) :
    upTo (text ++ rest) = text ++ upTo rest :=
  List.takeWhile_append_of_pos (open_of_not_mem h)

theorem upTo_append_of_mem {text : Text} (h : ')' ∈ text) (rest : Text) :
    upTo (text ++ rest) = upTo text := by
  rw [upTo, upTo, List.takeWhile_append, if_neg]
  intro hlength
  have hwhole := (List.takeWhile_prefix (fun c => decide (c ≠ ')'))).eq_of_length hlength
  rw [← hwhole] at h
  have hopen := List.mem_takeWhile_imp h
  exact of_decide_eq_true hopen rfl

theorem upTo_end (text rest rest' : Text) :
    upTo (text ++ (rowEnd ++ rest)) = upTo (text ++ (rowEnd ++ rest')) := by
  have hmem : ')' ∈ text ++ rowEnd := List.mem_append_right _ List.mem_cons_self
  rw [← List.append_assoc, ← List.append_assoc, upTo_append_of_mem hmem, upTo_append_of_mem hmem]

section

variable {text before token old after b t l a v v' kept shown shown' newLink : Text}

/-- The search does not stop below the row that was written. -/
theorem not_below (hv : Bare v) (hv' : Bare v') (hne : v' ≠ v) (hstart : LineStart b)
    (hread : before ++ (row v kept ++ after) = b ++ (row t l ++ a))
    (hsame : b ++ (row v' shown ++ a) = before ++ (row v' shown' ++ after)) :
    ¬ before.length < b.length := by
  intro hlt
  obtain ⟨q, hqne, hb, hq⟩ := exists_of_append_eq hsame hlt
  rw [hb] at hread hstart
  have hq' : row v kept ++ after = q ++ (row t l ++ a) := by
    rw [List.append_assoc] at hread
    exact List.append_cancel_left hread
  have hnewline := newline_mem_of_lineStart hstart hqne
  obtain ⟨z, hz, -⟩ := opened_of_newline hv.token hnewline hq'
  obtain ⟨z', hz', -⟩ := opened_of_newline hv'.token hnewline hq
  have hheads := List.append_cancel_left (hz.symm.trans hz')
  exact hne (token_append_inj hv.token.2 hv'.token.2 hheads).1.symm

theorem upTo_closed (hl : ')' ∉ l) (rest : Text) : upTo (l ++ (rowEnd ++ rest)) = l := by
  rw [upTo_append_of_not_mem hl]
  exact List.append_nil l

theorem upTo_row (hv : ')' ∉ v) (link rest : Text) : upTo (row v link ++ rest) =
    rowHead ++ (v ++ (rowMiddle ++ upTo (link ++ (rowEnd ++ rest)))) := by
  rw [row_append, upTo_append_of_not_mem (by decide), upTo_append_of_not_mem hv,
    upTo_append_of_not_mem (by decide)]

theorem upTo_row_of_mem (ht : ')' ∈ token) (link rest : Text) :
    upTo (row token link ++ rest) = rowHead ++ upTo token := by
  rw [row_append, upTo_append_of_not_mem (by decide), upTo_append_of_mem ht]

/-- What the template writes for the row that is found does not go on, past the rest of an open
link, as what it writes for the old one. -/
theorem not_shifted {z : Text} (hv : Bare v) (hv' : Bare v') (hz : ')' ∉ z) (hl : ')' ∉ l)
    (htoken : IsToken token) (hmem : ')' ∈ token) (hnew : Shows newLink (row v' l) shown)
    (hold : Shows newLink (row token old) shown')
    (hread : l ++ (rowEnd ++ a) = z ++ (row v kept ++ after)) :
    shown ++ (rowEnd ++ a) ≠ z ++ (row v' shown' ++ after) := by
  intro hshown
  let opening := z ++ (rowHead ++ (v' ++ rowMiddle))
  have hopening : opening ≠ [] := by
    intro hnil
    exact absurd (List.append_eq_nil_iff.mp hnil).2 (List.cons_ne_nil _ _)
  -- Both sides end their first link at the first closing parenthesis.
  have hupTo : upTo (shown ++ (rowEnd ++ a)) = opening ++ upTo (shown' ++ (rowEnd ++ after)) := by
    rw [hshown, upTo_append_of_not_mem hz, upTo_row hv'.closed]
    simp only [opening, List.append_assoc]
  rcases hnew.plain_or_found hold with ⟨heq, -⟩ | ⟨plain, x, x', hx, hx'⟩
  · rw [heq, upTo_end shown' a after] at hupTo
    exact hopening (List.self_eq_append_left.mp hupTo)
  · rw [hx, hx', List.append_assoc plain, List.append_assoc plain] at hupTo
    by_cases hplain : ')' ∈ plain
    · rw [upTo_append_of_mem hplain, upTo_append_of_mem hplain] at hupTo
      exact hopening (List.self_eq_append_left.mp hupTo)
    · rw [upTo_append_of_not_mem hplain, upTo_append_of_not_mem hplain,
        List.append_assoc (row v' l), List.append_assoc (row token old), upTo_row hv'.closed,
        upTo_row_of_mem hmem, upTo_closed hl] at hupTo
      have hl' : l = z ++ (rowHead ++ (v ++ (rowMiddle ++ upTo (kept ++ (rowEnd ++ after))))) := by
        rw [← upTo_row hv.closed, ← upTo_append_of_not_mem hz, ← hread, upTo_closed hl]
      have hsplit : (plain ++ (rowHead ++ (v' ++ (rowMiddle ++ z)))) ++
          (rowHead ++ (v ++ (rowMiddle ++ upTo (kept ++ (rowEnd ++ after))))) =
            (opening ++ plain) ++ (rowHead ++ upTo token) := by
        rw [List.append_assoc opening, ← hupTo, hl']
        simp only [List.append_assoc]
      have hlength : (plain ++ (rowHead ++ (v' ++ (rowMiddle ++ z)))).length =
          (opening ++ plain).length := by
        simp only [opening, List.length_append]
        omega
      -- The old row's token would reach over the space behind it.
      have hrest := List.append_cancel_left (List.append_inj_right hsplit hlength)
      have hspace : ' ' ∈ upTo token := by
        rw [← hrest]
        exact List.mem_append_right _ List.mem_cons_self
      have hnonSpace := htoken.2 ' ' ((List.takeWhile_prefix _).subset hspace)
      exact absurd hnonSpace (by decide)

/-- Nor above it, where the row of the later version would begin. -/
theorem not_above (hfirst : FirstRow text before token old after) (hv : Bare v) (hv' : Bare v')
    (hrow : RowAt (before ++ (row v kept ++ after)) b t l a)
    (hnew : Shows newLink (row t l) shown) (hold : Shows newLink (row token old) shown')
    (hsame : b ++ (row v' shown ++ a) = before ++ (row v' shown' ++ after)) :
    ¬ b.length < before.length := by
  intro hlt
  obtain ⟨z, hopen⟩ := hfirst.openAt hrow hlt
  have htoken : ')' ∈ token := by
    by_contra hclosed
    exact hfirst.not_openAt hclosed hopen
  have hbelow : row v' shown ++ a =
      rowHead ++ (t ++ (rowMiddle ++ (z ++ (row v' shown' ++ after)))) := by
    rw [hopen.split] at hsame
    simp only [List.append_assoc] at hsame
    exact List.append_cancel_left hsame
  have hread : row t l ++ a =
      rowHead ++ (t ++ (rowMiddle ++ (z ++ (row v kept ++ after)))) := by
    have hsplit := hrow.split
    rw [hopen.split] at hsplit
    simp only [List.append_assoc] at hsplit
    exact (List.append_cancel_left hsplit).symm
  rw [row_append] at hbelow hread
  obtain ⟨hversion, hshown⟩ := token_append_inj hv'.token.2 hrow.token.2
    (List.append_cancel_left hbelow)
  obtain ⟨-, hlink⟩ := token_append_inj hrow.token.2 hrow.token.2 (List.append_cancel_left hread)
  subst hversion
  exact not_shifted hv hv' hopen.closed hrow.closed hfirst.token htoken hnew hold hlink hshown

theorem Shows.unique (h : Shows newLink before shown) (h' : Shows newLink before shown') :
    shown = shown' := by
  obtain ⟨pieces, hcompile, hshown⟩ := h
  obtain ⟨pieces', hcompile', hshown'⟩ := h'
  rw [hshown, hshown', List.append_cancel_right (Option.some.inj (hcompile.symm.trans hcompile'))]

/-- In place of the row that was written, the search finds the whole of it. -/
theorem closed_of_same (hold : Shows newLink (row token old) shown')
    (htoken : IsToken token) (hclosed : ')' ∉ old) (hv : Bare v) (hl : ')' ∉ l) (ht : IsToken t)
    (hnew : Shows newLink (row t l) shown)
    (hread : row v kept ++ after = row t l ++ a)
    (hsame : row v' shown ++ a = row v' shown' ++ after) :
    ')' ∉ kept ∧ (compile 0 (newLink ++ rowEnd) = some ((shown ++ rowEnd).map .char) ∨
      row token old = row v kept) := by
  rw [row_append, row_append] at hread hsame
  obtain ⟨hversion, hlink⟩ := token_append_inj hv.token.2 ht.2 (List.append_cancel_left hread)
  have hwritten := List.append_cancel_left (List.append_cancel_left (List.append_cancel_left hsame))
  subst hversion
  have hwhole (heq : shown = shown') : kept = l := by
    rw [heq] at hwritten
    have hafter := List.append_cancel_left (List.append_cancel_left hwritten)
    rw [hafter] at hlink
    exact List.append_cancel_right hlink
  rcases hnew.plain_or_found hold with ⟨heq, hplain⟩ | ⟨plain, x, x', hx, hx'⟩
  · rw [hwhole heq]
    exact ⟨hl, .inl hplain⟩
  · rw [hx, hx', List.append_assoc, List.append_assoc plain, List.append_assoc (row v l),
      List.append_assoc (row token old)] at hwritten
    obtain ⟨htoken', hlink', -⟩ := row_append_inj ht htoken hl hclosed
      (List.append_cancel_left hwritten)
    rw [← htoken', ← hlink'] at hold ⊢
    rw [hwhole (hnew.unique hold)]
    exact ⟨hl, .inr rfl⟩

end

/-! ### When the links do no harm -/

/-- The template of the row is the row with this text for the link, whatever it matches. -/
def Writes (version link shown : Text) : Prop :=
  compile 0 (row version link) = some ((row version shown).map .char)

/-- The README has a row that a bump to `v` and then one to `v'` with these links keep. -/
structure KeepsRow (text v v' link link' before token old after shown : Text) : Prop where
  found : FirstRow text before token old after
  alone : ¬ OpenRow before
  writes : Writes v link shown
  closed : ')' ∉ shown
  later : (∃ shown', Writes v' link' shown') ∨
    (compile 0 (row v' link')).isSome = true ∧ row token old = row v (universalNewlines shown)

section

variable {text before token old after v v' shown raw readme new link link' : Text}

theorem writes_iff (hv : Bare v) :
    Writes v link shown ↔ compile 0 (link ++ rowEnd) = some ((shown ++ rowEnd).map .char) := by
  have hsplit : (row v shown).map Piece.char =
      (rowHead ++ (v ++ rowMiddle)).map Piece.char ++ (shown ++ rowEnd).map Piece.char := by
    rw [← List.map_append]
    congr 1
    show rowHead ++ (v ++ (rowMiddle ++ (shown ++ rowEnd))) = _
    simp only [List.append_assoc]
  rw [Writes, compile_row hv.escape, hsplit, Option.map_eq_some_iff]
  constructor
  · intro h
    obtain ⟨pieces, hpieces, hsame⟩ := h
    rw [hpieces, List.append_cancel_left hsame]
  · intro h
    exact ⟨_, h, rfl⟩

theorem exists_row_of_ok (h : newReadme (some raw) v link = .ok new) :
    ∃ before token old after, FirstRow (universalNewlines raw) before token old after := by
  obtain ⟨⟨_, heq, hfound⟩, -⟩ := (newReadme_ok_iff (some raw) v link).mp ⟨new, h⟩
  cases heq
  exact exists_firstRow hfound

/-- The row stands where it stood, in what is read of the README that was written. -/
theorem reread_row (h : FirstRow (universalNewlines raw) before token old after) (hv : Bare v)
    (shown : Text) : universalNewlines (before ++ (row v shown ++ after)) =
      before ++ (row v (universalNewlines shown) ++ after) := by
  have hreturn := return_not_mem_universalNewlines raw
  rw [h.split, List.mem_append, List.mem_append, not_or, not_or] at hreturn
  exact universalNewlines_row hreturn.1 hv.returns hreturn.2.2 shown

theorem row_closed (token link : Text) : ')' ∈ row token link := by
  show ')' ∈ rowHead ++ (token ++ (rowMiddle ++ (link ++ rowEnd)))
  simp only [List.mem_append]
  exact .inr (.inr (.inr (.inr List.mem_cons_self)))

/-- If the later bump comes to the same README, the links have kept the row. -/
theorem keepsRow_of_same (hv : Bare v) (hv' : Bare v') (hne : v' ≠ v)
    (hfirst : newReadme (some raw) v link = .ok readme)
    (hlater : newReadme (some readme) v' link' = .ok new)
    (hold : newReadme (some raw) v' link' = .ok new) :
    ∃ before token old after shown,
      KeepsRow (universalNewlines raw) v v' link link' before token old after shown := by
  obtain ⟨before, token, old, after, hrow⟩ := exists_row_of_ok hfirst
  obtain ⟨b, t, l, a, hrow'⟩ := exists_row_of_ok hlater
  obtain ⟨shown, hshows, hreadme⟩ := (newReadme_ok_iff_shows hv.escape hrow link).mp hfirst
  obtain ⟨shown', hshows', hnew⟩ := (newReadme_ok_iff_shows hv'.escape hrow' link').mp hlater
  obtain ⟨shown'', hshows'', hnew'⟩ := (newReadme_ok_iff_shows hv'.escape hrow link').mp hold
  have hsame := hnew.symm.trans hnew'
  rw [hreadme, reread_row hrow hv] at hrow'
  have hbefore : b = before := by
    have hbelow := not_below hv hv' hne hrow'.starts hrow'.split hsame
    have habove := not_above hrow hv hv' hrow'.toRowAt hshows' hshows'' hsame
    exact (List.append_inj hsame (Nat.le_antisymm (not_lt.mp hbelow) (not_lt.mp habove))).1
  subst hbefore
  obtain ⟨hkept, hlink⟩ := closed_of_same hshows'' hrow.token hrow.closed hv hrow'.closed
    hrow'.token hshows' (List.append_cancel_left hrow'.split) (List.append_cancel_left hsame)
  have hclosed : ')' ∉ shown := fun hmem => hkept (mem_universalNewlines (by decide) hmem)
  refine ⟨b, token, old, after, shown, hrow, ?_, ?_, hclosed, ?_⟩
  · intro hopenRow
    obtain ⟨b', t', z, hopen⟩ := hopenRow
    obtain ⟨inside, hinside⟩ := hopen.rowAt hv.closed hkept hrow.ends
    exact absurd (hrow'.first _ _ _ _ hinside) (not_le.mpr hopen.length_lt)
  · exact (writes_iff hv).mpr (hshows.plain (row_closed token old) hclosed)
  · rcases hlink with hplain | hsameRow
    · exact .inl ⟨shown', (writes_iff hv').mpr hplain⟩
    · obtain ⟨-, hcompile⟩ := (newReadme_ok_iff (some raw) v' link').mp ⟨new, hold⟩
      exact .inr ⟨hcompile, hsameRow⟩

/-- The pattern matches a row of the version in what is read of a file. -/
def CarriesRow (content : Option Text) (version : Text) : Prop :=
  ∃ raw before link after, content = some raw ∧
    universalNewlines raw = before ++ (row version link ++ after) ∧
    Matches readmeRowRe (Cursor.fresh before.reverse (row version link ++ after))
      (Cursor.fresh (before ++ row version link).reverse after)

theorem KeepsRow.firstRow (h : KeepsRow text v v' link link' before token old after shown)
    (hv : Bare v) : FirstRow (before ++ (row v (universalNewlines shown) ++ after)) before v
      (universalNewlines shown) after := by
  have hkept : ')' ∉ universalNewlines shown := fun hmem =>
    h.closed (mem_of_universalNewlines hmem (by decide))
  refine ⟨⟨rfl, h.found.starts, hv.token, hkept, h.found.ends⟩, fun b t l a hrow => ?_⟩
  rw [← not_lt]
  intro hlt
  obtain ⟨z, hopen⟩ := h.found.openAt hrow hlt
  exact h.alone ⟨b, t, z, hopen⟩

theorem KeepsRow.shows (h : KeepsRow (universalNewlines raw) v v' link link' before token old after
    shown) (hv' : Bare v') : ∃ shown', Shows link' (row token old) shown' ∧
      Shows link' (row v (universalNewlines shown)) shown' := by
  rcases h.later with ⟨shown', hwrites⟩ | ⟨hcompile, hsame⟩
  · have hplain := (writes_iff hv').mp hwrites
    exact ⟨shown', shows_of_plain hplain _, shows_of_plain hplain _⟩
  · have hrow : HasRow readmeRowRe (some raw) := by
      refine ⟨raw, rfl, ?_⟩
      rw [search_firstRow h.found]
      rfl
    obtain ⟨new, hnew⟩ := (newReadme_ok_iff (some raw) v' link').mpr ⟨hrow, hcompile⟩
    obtain ⟨shown', hshows, -⟩ := (newReadme_ok_iff_shows hv'.escape h.found link').mp hnew
    refine ⟨shown', hshows, ?_⟩
    rw [← hsame]
    exact hshows

theorem same_of_keepsRow (hv : Bare v) (hv' : Bare v')
    (h : KeepsRow (universalNewlines raw) v v' link link' before token old after shown) :
    ∃ readme new, newReadme (some raw) v link = .ok readme ∧ CarriesRow (some readme) v ∧
      newReadme (some readme) v' link' = .ok new ∧ newReadme (some raw) v' link' = .ok new := by
  have hfirst := h.firstRow hv
  have hreread := reread_row h.found hv shown
  obtain ⟨shown', hshows, hshows'⟩ := h.shows hv'
  refine ⟨before ++ (row v shown ++ after), before ++ (row v' shown' ++ after), ?_,
    ⟨_, before, _, after, rfl, hreread, hfirst.matches⟩, ?_, ?_⟩
  · exact (newReadme_ok_iff_shows hv.escape h.found link).mpr
      ⟨shown, shows_of_plain ((writes_iff hv).mp h.writes) _, rfl⟩
  · rw [← hreread] at hfirst
    exact (newReadme_ok_iff_shows hv'.escape hfirst link').mpr ⟨shown', hshows', rfl⟩
  · exact (newReadme_ok_iff_shows hv'.escape h.found link').mpr ⟨shown', hshows, rfl⟩

/-! ### The bumps -/

/-- A bump that succeeds with the fallback link does so with any feed and README, if the README can
be rewritten. -/
theorem bump_of_fallback {pk : Packaging} {net : Answers} {files written : Files}
    (h : bump pk { net with feed := none } true files = .ok (some v) written) :
    Bare v ∧ ∃ new, written.pin = some new ∧ ∀ feed readme after,
      bump pk { net with feed := feed } true { files with readme := readme } = .ok (some v) after ↔
        ∃ text, newReadme readme v (releaseNotesLink feed v) = .ok text ∧
          after = ⟨some new, some text⟩ := by
  rw [bump_eq] at h
  split at h
  · cases h
  · rename_i dockerfile hread
    split at h
    · cases h
    · cases h
    · rename_i newest url sha hdue
      split at h
      · cases h
      · rename_i new hrewrite
        split at h
        · cases h
        · cases h
          obtain ⟨ga, -, hversion⟩ := (due_of_ok hdue).answered
          obtain ⟨w, hw⟩ := parseGaVersion_ok hversion
          refine ⟨hw ▸ bare_upstream w, new, rfl, fun feed readme after => ?_⟩
          have hdue' : due pk { net with feed := feed } dockerfile =
              .ok (some (v, url, sha)) := hdue
          rw [bump_eq, hread]
          dsimp only
          rw [hdue']
          dsimp only
          rw [hrewrite]
          dsimp only
          cases newReadme readme v (releaseNotesLink feed v) with
          | error e => simp
          | ok text => simp [eq_comm]

end

/-- The link of a bump does no harm: the bump succeeds, its version stands in a row that the pattern
still matches, and a later bump comes to the same files as on the README there was. -/
def Harmless (pk : Packaging) (net later : Answers) (files : Files) (v v' : Text) : Prop :=
  ∃ after final, bump pk net true files = .ok (some v) after ∧ CarriesRow after.readme v ∧
    bump pk later true after = .ok (some v') final ∧
    bump pk later true { after with readme := files.readme } = .ok (some v') final

/-- Where both bumps succeed with the fallback link, the links of the feeds do no harm exactly if
the row found is kept. -/
theorem bump_harmless_iff (pk : Packaging) (net later : Answers) (files written written' : Files)
    (v v' raw : Text) (hne : v' ≠ v) (hreadme : files.readme = some raw)
    (hfirst : bump pk { net with feed := none } true files = .ok (some v) written)
    (hlater : bump pk { later with feed := none } true { written with readme := files.readme } =
      .ok (some v') written') :
    Harmless pk net later files v v' ↔ ∃ before token old after shown,
      KeepsRow (universalNewlines raw) v v' (releaseNotesLink net.feed v)
        (releaseNotesLink later.feed v') before token old after shown := by
  obtain ⟨hv, new, hpin, hbump⟩ := bump_of_fallback hfirst
  obtain ⟨hv', new', -, hbump'⟩ := bump_of_fallback hlater
  have hnet (after : Files) : bump pk net true files = .ok (some v) after ↔ _ :=
    hbump net.feed files.readme after
  have hagain (readme : Option Text) (after : Files) :
      bump pk later true ⟨some new, readme⟩ = .ok (some v') after ↔ _ :=
    hpin ▸ hbump' later.feed readme after
  rw [hreadme] at hnet
  constructor
  · intro h
    obtain ⟨after, final, hafter, -, hfinal, hsame⟩ := h
    obtain ⟨readme, hwritten, hafter⟩ := (hnet after).mp hafter
    subst hafter
    obtain ⟨last, hlast, hfinal⟩ := (hagain (some readme) final).mp hfinal
    rw [hreadme] at hsame
    obtain ⟨last', hlast', hfinal'⟩ := (hagain (some raw) final).mp hsame
    cases hfinal.symm.trans hfinal'
    exact keepsRow_of_same hv hv' hne hwritten hlast hlast'
  · intro h
    obtain ⟨before, token, old, after, shown, hkeeps⟩ := h
    obtain ⟨readme, last, hwritten, hcarries, hlast, hold⟩ := same_of_keepsRow hv hv' hkeeps
    refine ⟨⟨some new, some readme⟩, ⟨some new', some last⟩, ?_, hcarries, ?_, ?_⟩
    · exact (hnet _).mpr ⟨readme, hwritten, rfl⟩
    · exact (hagain _ _).mpr ⟨last, hlast, rfl⟩
    · rw [hreadme]
      exact (hagain _ _).mpr ⟨last, hold, rfl⟩

/-- The feed has one entry. -/
def linking (net : Answers) (title link : String) : Answers :=
  { net with feed := some [(some title.toList, some link.toList)] }

def ga10567 : Answers := networkAnswering 10 5 67 "8e"

def ga1061 : Answers := networkAnswering 10 6 1 "9f"

theorem bumped_ga10567 : bump numericVersions.toPackaging ga10567 true (rowed "10.4.57" "f6") =
    .ok (some "10.5.67".toList) (rowed "10.5.67" "8e") := by decide +kernel

theorem bumped_ga1061 : bump numericVersions.toPackaging ga1061 true
    { rowed "10.5.67" "8e" with readme := (rowed "10.4.57" "f6").readme } =
      .ok (some "10.6.1".toList) (rowed "10.6.1" "9f") := by decide +kernel

theorem unlinked_ga10567 (title link : String) :
    { linking ga10567 title link with feed := none } = ga10567 := rfl

theorem unlinked_ga1061 (title link : String) :
    { linking ga1061 title link with feed := none } = ga1061 := rfl

theorem bump_harmless_linked :
    Harmless numericVersions.toPackaging
      (linking ga10567 "UniFi Network Application 10.5.67" "https://community.ui.com/r10567")
      (linking ga1061 "UniFi Network Application 10.6.1" "https://community.ui.com/r1061")
      (rowed "10.4.57" "f6") "10.5.67".toList "10.6.1".toList := by
  apply (bump_harmless_iff numericVersions.toPackaging _ _ (rowed "10.4.57" "f6")
    (rowed "10.5.67" "8e") (rowed "10.6.1" "9f") "10.5.67".toList "10.6.1".toList
    (row "10.4.57".toList fallbackLink) (by decide) rfl
    (by rw [unlinked_ga10567, bumped_ga10567]) (by rw [unlinked_ga1061, bumped_ga1061])).mpr
  refine ⟨[], "10.4.57".toList, fallbackLink, [], "https://community.ui.com/r10567".toList,
    ?_, not_openRow_nil, ?_, by decide +kernel,
    .inl ⟨"https://community.ui.com/r1061".toList, ?_⟩⟩
  · refine ⟨⟨by decide +kernel, .inl rfl, by decide +kernel, by decide +kernel, .inl rfl⟩, ?_⟩
    intro b t l a hrow
    exact Nat.zero_le b.length
  · rw [Writes]
    decide +kernel
  · rw [Writes]
    decide +kernel

/-- A parenthesis in the link stops the next bump, and a backslash the bump itself. -/
theorem bump_link_stops :
    bump numericVersions.toPackaging ga10567 true (rowed "10.4.57" "f6") =
        .ok (some "10.5.67".toList) (rowed "10.5.67" "8e") ∧
      bump numericVersions.toPackaging ga1061 true
          { rowed "10.5.67" "8e" with readme := (rowed "10.4.57" "f6").readme } =
        .ok (some "10.6.1".toList) (rowed "10.6.1" "9f") ∧
      (¬ Harmless numericVersions.toPackaging
        (linking ga10567 "UniFi Network Application 10.5.67" "https://community.ui.com/r/(10.5.67)")
        ga1061 (rowed "10.4.57" "f6") "10.5.67".toList "10.6.1".toList) ∧
      ¬ Harmless numericVersions.toPackaging
        (linking ga10567 "UniFi Network Application 10.5.67" "https://community.ui.com/r\\d")
        ga1061 (rowed "10.4.57" "f6") "10.5.67".toList "10.6.1".toList := by
  refine ⟨bumped_ga10567, bumped_ga1061, ?_, ?_⟩
  · have hfirst : bump numericVersions.toPackaging
        (linking ga10567 "UniFi Network Application 10.5.67" "https://community.ui.com/r/(10.5.67)")
          true (rowed "10.4.57" "f6") = .ok (some "10.5.67".toList)
            ⟨some (dockerfile "10.5.67" "8e"),
              some (row "10.5.67".toList "https://community.ui.com/r/(10.5.67)".toList)⟩ := by
      decide +kernel
    have hlater : bump numericVersions.toPackaging ga1061 true
        ⟨some (dockerfile "10.5.67" "8e"),
          some (row "10.5.67".toList "https://community.ui.com/r/(10.5.67)".toList)⟩ =
        .error (.refused .networkRow) ⟨some (dockerfile "10.6.1" "9f"),
          some (row "10.5.67".toList "https://community.ui.com/r/(10.5.67)".toList)⟩ := by
      decide +kernel
    intro h
    obtain ⟨after, final, hafter, -, hfinal, -⟩ := h
    cases hfirst.symm.trans hafter
    cases hlater.symm.trans hfinal
  · have hfirst : bump numericVersions.toPackaging
        (linking ga10567 "UniFi Network Application 10.5.67" "https://community.ui.com/r\\d")
          true (rowed "10.4.57" "f6") = .error .template
            ⟨some (dockerfile "10.5.67" "8e"), (rowed "10.4.57" "f6").readme⟩ := by
      decide +kernel
    intro h
    obtain ⟨after, final, hafter, -⟩ := h
    cases hfirst.symm.trans hafter

end UnifiContainers.Updaters.Network
