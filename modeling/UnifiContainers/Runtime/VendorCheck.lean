import Mathlib.Data.Char
import Mathlib.Data.List.Dedup
import Mathlib.Data.List.Lex
import UnifiContainers.Lib.Finditer

/-!
# What the vendor's script reads

The build asks which files under `/usr/lib` the vendor's script reads, by one pattern over its
text: a command substitution, up to the first closing parenthesis, whose last word is such a path.
-/

namespace UnifiContainers.VendorCheck

open Regex PyText

def stampChar (c : Char) : Bool := c.isAlphanum || c == '_' || c == '.' || c == '/' || c == '-'

/-- `\$\([^)]*?\s(/usr/lib/[…]+)\s*\)`, the class in brackets being that of `stampChar`. -/
def stampReadRe : Pattern Unit :=
  .seq (.lit ['$', '('])
    (.seq (.many false (.one (· != ')')))
      (.seq (.one isSpace)
        (.seq (.group () (.seq (.lit "/usr/lib/".toList) (.plus true (.one stampChar))))
          (.seq (.many true (.one isSpace)) (.lit [')'])))))

def stampReads (scriptText : List Char) : List (List Char) :=
  (Pattern.findall stampReadRe () scriptText).dedup.mergeSort fun a b => decide (a ≤ b)

/-! ### Substitutions and their words -/

/-- An absolute `/usr/lib` path. -/
def IsStampPath (path : List Char) : Prop :=
  ∃ name, name ≠ [] ∧ (∀ c ∈ name, stampChar c = true) ∧ path = "/usr/lib/".toList ++ name

/-- The text holds the command substitution `$(body)`, read up to its first closing parenthesis. -/
def Substitution (text body : List Char) : Prop :=
  ')' ∉ body ∧ ∃ before after, text = before ++ ('$' :: '(' :: (body ++ ')' :: after))

/-- A word stands between white space, or at either end. -/
def IsWord (word body : List Char) : Prop :=
  word ≠ [] ∧ (∀ c ∈ word, isSpace c = false) ∧ ∃ x y, body = x ++ (word ++ y) ∧
    (∀ c ∈ x.getLast?, isSpace c = true) ∧ ∀ c ∈ y.head?, isSpace c = true

/-- The last word, with white space before it. -/
def EndsIn (word body : List Char) : Prop :=
  ∃ x c spaces, body = x ++ c :: (word ++ spaces) ∧ isSpace c = true ∧
    ∀ d ∈ spaces, isSpace d = true

section

variable {path other body more text : List Char} {s u : Cursor Unit}

theorem isAlpha_iff (c : Char) : c.isAlpha = true ↔
    (65 ≤ c.toNat ∧ c.toNat ≤ 90) ∨ (97 ≤ c.toNat ∧ c.toNat ≤ 122) := by
  change (decide ('A'.val ≤ c.val ∧ c.val ≤ 'Z'.val) ||
    (decide ('a'.val ≤ c.val) && decide (c.val ≤ 'z'.val))) = true ↔ _
  simp only [Bool.or_eq_true, Bool.and_eq_true, decide_eq_true_eq, UInt32.le_iff_toNat_le]
  rfl

theorem stampChar_ascii {c : Char} (h : stampChar c = true) : 45 ≤ c.toNat ∧ c.toNat ≤ 122 := by
  simp only [stampChar, Char.isAlphanum, Bool.or_eq_true, beq_iff_eq, isAlpha_iff, isDigit_iff] at h
  rcases h with ((((h | h) | rfl) | rfl) | rfl) | rfl
  · omega
  · omega
  all_goals decide

theorem stampChar_not_space {c : Char} (h : stampChar c = true) : isSpace c = false := by
  have hc := stampChar_ascii h
  simp only [isSpace, Bool.or_eq_false_iff, Bool.and_eq_false_iff, decide_eq_false_iff_not,
    beq_eq_false_iff_ne]
  omega

theorem stampChar_ne_paren {c : Char} (h : stampChar c = true) : c ≠ ')' := by
  rintro rfl
  exact absurd h (by decide)

theorem IsStampPath.not_space (h : IsStampPath path) : ∀ c ∈ path, isSpace c = false := by
  obtain ⟨name, -, hname, rfl⟩ := h
  intro c hc
  rcases List.mem_append.mp hc with hc | hc
  · exact (by decide : ∀ d ∈ "/usr/lib/".toList, isSpace d = false) c hc
  · exact stampChar_not_space (hname c hc)

theorem IsStampPath.ne_nil (h : IsStampPath path) : path ≠ [] := by
  obtain ⟨name, -, -, rfl⟩ := h
  exact List.cons_ne_nil _ _

theorem IsStampPath.not_paren (h : IsStampPath path) : ')' ∉ path := by
  obtain ⟨name, -, hname, rfl⟩ := h
  rw [List.mem_append, not_or]
  exact ⟨by decide, fun hmem => stampChar_ne_paren (hname _ hmem) rfl⟩

theorem EndsIn.isWord (h : EndsIn path body) (hpath : IsStampPath path) : IsWord path body := by
  obtain ⟨x, c, spaces, rfl, hc, hspaces⟩ := h
  refine ⟨hpath.ne_nil, hpath.not_space, x ++ [c], spaces, by simp, ?_, ?_⟩
  · intro d hd
    rw [List.getLast?_concat] at hd
    cases hd
    exact hc
  · exact fun d hd => hspaces d (List.mem_of_mem_head? hd)

theorem EndsIn.prepend (more : List Char) (h : EndsIn path body) : EndsIn path (more ++ body) := by
  obtain ⟨x, c, spaces, rfl, hc, hspaces⟩ := h
  exact ⟨more ++ x, c, spaces, by rw [List.append_assoc], hc, hspaces⟩

/-- There is one last word. -/
theorem EndsIn.unique (h : EndsIn path body) (h' : EndsIn other body) (hpath : IsStampPath path)
    (hother : IsStampPath other) : path = other := by
  obtain ⟨x, c, spaces, rfl, hc, hspaces⟩ := h
  obtain ⟨x', c', spaces', heq, hc', hspaces'⟩ := h'
  have hreverse := congrArg List.reverse heq
  simp only [List.reverse_append, List.reverse_cons, List.append_assoc, List.singleton_append]
    at hreverse
  have hhead {word rest : List Char} (hword : IsStampPath word) :
      ∀ d ∈ (word.reverse ++ rest).head?, isSpace d = false := by
    intro d hd
    rw [List.head?_append_of_ne_nil _ (List.reverse_ne_nil_iff.mpr hword.ne_nil)] at hd
    exact hword.not_space d (List.mem_reverse.mp (List.mem_of_mem_head? hd))
  obtain ⟨-, hwords⟩ := Pattern.classWords_append_inj
    (fun d hd => hspaces d (List.mem_reverse.mp hd))
    (fun d hd => hspaces' d (List.mem_reverse.mp hd)) (hhead hpath) (hhead hother) hreverse
  have hclass {word : List Char} (hword : IsStampPath word) :
      ∀ d ∈ word.reverse, (!isSpace d) = true := by
    intro d hd
    rw [hword.not_space d (List.mem_reverse.mp hd)]
    rfl
  obtain ⟨hpaths, -⟩ := Pattern.classWords_cons_inj (hclass hpath) (hclass hother)
    (by rw [hc, Bool.not_true]) (by rw [hc', Bool.not_true]) hwords
  exact List.reverse_injective hpaths

/-! ### What the pattern matches -/

theorem consumes_path :
    Pattern.Consumes (γ := Unit) (.seq (.lit "/usr/lib/".toList) (.plus true (.one stampChar)))
      ({"/usr/lib/".toList} * Pattern.classWords₁ stampChar) :=
  (Pattern.consumes_lit _).seq (Pattern.consumes_plus_one true stampChar)

theorem mem_path :
    path ∈ ({"/usr/lib/".toList} * Pattern.classWords₁ stampChar : Language Char) ↔
      IsStampPath path := by
  constructor
  · intro h
    obtain ⟨_, rfl, name, hname, rfl⟩ := h
    exact ⟨name, hname.1, hname.2, rfl⟩
  · intro h
    obtain ⟨name, hne, hname, rfl⟩ := h
    exact ⟨_, rfl, name, ⟨hne, hname⟩, rfl⟩

/-- A match is a substitution with a path as its last word. -/
theorem substitution_of_matches (h : Pattern.Matches stampReadRe s u) :
    ∃ body path, s.after = '$' :: '(' :: (body ++ ')' :: u.after) ∧ ')' ∉ body ∧
      EndsIn path body ∧ IsStampPath path ∧ u.groups () = some path := by
  simp only [stampReadRe, Pattern.matches_seq, Pattern.matches_one,
    Pattern.consumes_many_one _ _ _ _, consumes_path.matches_group, Pattern.matches_lit,
    mem_path, Pattern.mem_classWords] at h
  obtain ⟨_, ⟨r0, h0, rfl⟩, _, ⟨x, r1, h1, hx, rfl⟩, _, ⟨c, r2, h2, hc, rfl⟩, _,
    ⟨path, r3, h3, hpath, rfl⟩, _, ⟨spaces, r4, h4, hspaces, rfl⟩, r5, h5, rfl⟩ := h
  simp only [Cursor.advance, Cursor.store] at h1 h2 h3 h4 h5
  subst h1 h2 h3 h4 h5
  refine ⟨x ++ c :: (path ++ spaces), path, by simp [h0, Cursor.advance], ?_,
    ⟨x, c, spaces, rfl, hc, hspaces⟩, hpath, by simp [Cursor.advance, Cursor.store]⟩
  have hparen {d : Char} (hd : isSpace d = true) : d ≠ ')' := by
    rintro rfl
    exact absurd hd (by decide)
  simp only [List.mem_append, List.mem_cons, not_or]
  refine ⟨fun hmem => ?_, fun heq => hparen hc heq.symm, hpath.not_paren,
    fun hmem => hparen (hspaces _ hmem) rfl⟩
  exact absurd (hx _ hmem) (by decide)

theorem matches_of_substitution {rest : List Char}
    (h : s.after = '$' :: '(' :: (body ++ ')' :: rest)) (hparen : ')' ∉ body)
    (hends : EndsIn path body) (hpath : IsStampPath path) :
    ∃ u, Pattern.Matches stampReadRe s u := by
  obtain ⟨x, c, spaces, rfl, hc, hspaces⟩ := hends
  simp only [List.mem_append, not_or] at hparen
  simp only [stampReadRe, Pattern.matches_seq, Pattern.matches_one,
    Pattern.consumes_many_one _ _ _ _, consumes_path.matches_group, Pattern.matches_lit,
    mem_path, Pattern.mem_classWords]
  have hx : ∀ d ∈ x, (d != ')') = true := by
    intro d hd
    rw [bne_iff_ne]
    rintro rfl
    exact hparen.1 hd
  refine ⟨_, _, ⟨_, by simpa using h, rfl⟩, _, ⟨x, _, rfl, hx, rfl⟩, _, ⟨c, _, rfl, hc, rfl⟩, _,
    ⟨path, _, rfl, hpath, rfl⟩, _, ⟨spaces, _, rfl, hspaces, rfl⟩, rest, rfl, rfl⟩

theorem advances_stampReadRe : Pattern.Advances stampReadRe := by
  intro s u h
  obtain ⟨body, path, hafter, -⟩ := substitution_of_matches h
  rw [hafter]
  simp only [List.length_cons, List.length_append]
  omega

/-! ### What is found -/

theorem mem_stampReads_iff_found :
    path ∈ stampReads text ↔
      ∃ s u, (s, u) ∈ Pattern.finditer stampReadRe text ∧ (u.groups ()).getD [] = path := by
  rw [stampReads, List.mem_mergeSort, List.mem_dedup, Pattern.findall, List.mem_map]
  constructor
  · intro h
    obtain ⟨⟨s, u⟩, hmem, hpath⟩ := h
    exact ⟨s, u, hmem, hpath⟩
  · intro h
    obtain ⟨s, u, hmem, hpath⟩ := h
    exact ⟨(s, u), hmem, hpath⟩

/-- Two substitutions that begin before the same closing parenthesis end at it. -/
theorem close_eq {b₁ a₁ b₂ a₂ body₁ body₂ : List Char}
    (h : b₁ ++ ('$' :: '(' :: (body₁ ++ ')' :: a₁)) = b₂ ++ ('$' :: '(' :: (body₂ ++ ')' :: a₂)))
    (hbody₁ : ')' ∉ body₁) (hbody₂ : ')' ∉ body₂) (hle : b₁.length ≤ b₂.length)
    (hlt : b₂.length < b₁.length + body₁.length + 3) :
    ∃ gap, '$' :: '(' :: body₁ = gap ++ ('$' :: '(' :: body₂) := by
  have hprefix : b₁ <+: b₂ := by
    have hbefore : b₁ <+: b₂ ++ ('$' :: '(' :: (body₂ ++ ')' :: a₂)) := h ▸ List.prefix_append _ _
    exact List.prefix_of_prefix_length_le hbefore (List.prefix_append _ _) hle
  obtain ⟨gap, rfl⟩ := hprefix
  rw [List.append_assoc] at h
  have hrest := List.append_cancel_left h
  refine ⟨gap, ?_⟩
  have hgap : gap <+: '$' :: '(' :: body₁ := by
    have hahead : gap <+: '$' :: '(' :: (body₁ ++ ')' :: a₁) := hrest ▸ List.prefix_append _ _
    refine List.prefix_of_prefix_length_le hahead ⟨')' :: a₁, rfl⟩ ?_
    simp only [List.length_append, List.length_cons] at hlt ⊢
    omega
  have hopen {body : List Char} (hbody : ')' ∉ body) : ')' ∉ '$' :: '(' :: body := by
    simpa using hbody
  have hright : ')' ∉ gap ++ ('$' :: '(' :: body₂) := by
    rw [List.mem_append, not_or]
    exact ⟨fun hc => hopen hbody₁ (hgap.subset hc), hopen hbody₂⟩
  have hclose : ('$' :: '(' :: body₁) ++ ')' :: a₁ =
      (gap ++ ('$' :: '(' :: body₂)) ++ ')' :: a₂ := by simpa using hrest
  exact (Pattern.first_append_inj (hopen hbody₁) hright hclose).1

/-- The paths found are those that end a substitution, after white space. -/
theorem mem_stampReads :
    path ∈ stampReads text ↔
      ∃ body, Substitution text body ∧ IsStampPath path ∧ EndsIn path body := by
  rw [mem_stampReads_iff_found]
  constructor
  · intro h
    obtain ⟨s, u, hmem, rfl⟩ := h
    obtain ⟨b, a, rfl, rfl, hmatch⟩ := Pattern.matches_of_mem_finditer hmem
    obtain ⟨body, path, hafter, hparen, hends, hpath, hgroup⟩ := substitution_of_matches hmatch
    rw [hgroup]
    exact ⟨body, ⟨hparen, b, u.after, congrArg (b ++ ·) hafter⟩, hpath, hends⟩
  · intro h
    obtain ⟨body, ⟨hparen, before, after, rfl⟩, hpath, hends⟩ := h
    obtain ⟨v, hv⟩ := matches_of_substitution
      (s := Cursor.fresh before.reverse ('$' :: '(' :: (body ++ ')' :: after))) rfl hparen hends
      hpath
    obtain ⟨s, u, hmem, hbegin, hend⟩ := Pattern.finditer_covers advances_stampReadRe hv
    refine ⟨s, u, hmem, ?_⟩
    obtain ⟨b, a, htext, rfl, hmatch⟩ := Pattern.matches_of_mem_finditer hmem
    obtain ⟨other, found, hafter, hother, hfound, hfoundPath, hgroup⟩ :=
      substitution_of_matches hmatch
    have hafter' : a = '$' :: '(' :: (other ++ ')' :: u.after) := hafter
    have hlength := congrArg List.length hmatch.text
    rw [hafter] at hlength
    simp only [Cursor.fresh, List.length_append, List.length_reverse, List.length_cons]
      at hlength hbegin
    rw [hafter'] at htext
    obtain ⟨gap, hgap⟩ := close_eq htext.symm hother hparen hbegin (by omega)
    have hopened : EndsIn path ('$' :: '(' :: other) := by
      rw [hgap]
      exact (hends.prepend ['$', '(']).prepend gap
    have hsame := (hfound.prepend ['$', '(']).unique hopened hfoundPath hpath
    rw [hgroup, hsame]
    rfl

end

/-- Of the paths a substitution without parentheses names, the check finds those that are the last
word of some substitution and follow white space; and it finds nothing else. -/
theorem stampReads_complete_iff (script : List Char) :
    ((∀ body, Substitution script body → '(' ∉ body → ∀ path, IsStampPath path →
          IsWord path body → path ∈ stampReads script) ∧
        ∀ path ∈ stampReads script, ∃ body, Substitution script body ∧ IsWord path body) ↔
      ∀ body, Substitution script body → '(' ∉ body → ∀ path, IsStampPath path →
        IsWord path body → ∃ other, Substitution script other ∧ EndsIn path other := by
  constructor
  · intro h body hbody hparen path hpath hword
    obtain ⟨other, hother, -, hends⟩ := mem_stampReads.mp (h.1 body hbody hparen path hpath hword)
    exact ⟨other, hother, hends⟩
  · intro h
    constructor
    · intro body hbody hparen path hpath hword
      obtain ⟨other, hother, hends⟩ := h body hbody hparen path hpath hword
      exact mem_stampReads.mpr ⟨other, hother, hpath, hends⟩
    · intro path hmem
      obtain ⟨body, hbody, hpath, hends⟩ := mem_stampReads.mp hmem
      exact ⟨body, hbody, hends.isWord hpath⟩

def redirected : List Char := "$(cat /usr/lib/version 2>/dev/null)".toList

/-- A redirection after the path hides it. -/
theorem redirected_missed :
    Substitution redirected "cat /usr/lib/version 2>/dev/null".toList ∧
      '(' ∉ "cat /usr/lib/version 2>/dev/null".toList ∧
      IsStampPath "/usr/lib/version".toList ∧
      IsWord "/usr/lib/version".toList "cat /usr/lib/version 2>/dev/null".toList ∧
      "/usr/lib/version".toList ∉ stampReads redirected := by
  have hnone : Pattern.findall stampReadRe () redirected = [] := by decide
  refine ⟨⟨by decide, [], [], rfl⟩, by decide, ⟨"version".toList, by decide, by decide, rfl⟩,
    ⟨by decide, by decide, "cat ".toList, " 2>/dev/null".toList, rfl, ?_, ?_⟩, ?_⟩
  · intro c hc
    cases hc
    decide
  · intro c hc
    cases hc
    decide
  · simp [stampReads, hnone]

end UnifiContainers.VendorCheck
