import UnifiContainers.Lib.Regex
import UnifiContainers.Lib.PyText

/-!
# Release tags

A git tag names a release completely: `network/10.4.57-1`. `parse` reads a tag through `tagRe`
and `Release.gitTag` prints one; `parse_iff` describes the texts `parse` accepts without the
matcher.
-/

namespace UnifiContainers

open Regex PyText

inductive Product where
  | network
  | unifiOs
  deriving DecidableEq, Repr

def Product.name : Product → String
  | .network => "network"
  | .unifiOs => "unifi-os"

def Product.ofName (s : List Char) : Option Product :=
  if s = "network".toList then some .network
  else if s = "unifi-os".toList then some .unifiOs
  else none

def images : Product → String
  | .network => "ghcr.io/jamesbraid/unifi-network"
  | .unifiOs => "ghcr.io/jamesbraid/unifi-os-server"

structure Release where
  product : Product
  upstream : String
  revision : Nat
  deriving DecidableEq, Repr

namespace Release

def image (r : Release) : String := images r.product

def version (r : Release) : String := r.upstream ++ "-" ++ String.ofList (str r.revision)

def gitTag (r : Release) : String := r.product.name ++ "/" ++ r.version

end Release

inductive TagGroup where
  | product
  | upstream
  | revision
  deriving DecidableEq

/-- `\d+` -/
def digits {γ : Type} [DecidableEq γ] : Pattern γ := .plus true (.one isDecimal)

/-- `\d+\.\d+\.\d+` -/
def dotted {γ : Type} [DecidableEq γ] : Pattern γ :=
  .seq digits (.seq (.lit ['.']) (.seq digits (.seq (.lit ['.']) digits)))

/-- `^(?P<product>network|unifi-os)/(?P<upstream>\d+\.\d+\.\d+)-(?P<revision>\d+)$` -/
def tagRe : Pattern TagGroup :=
  .seq (.bol false)
    (.seq (.group .product (.alt (.lit "network".toList) (.lit "unifi-os".toList)))
      (.seq (.lit ['/'])
        (.seq (.group .upstream dotted)
          (.seq (.lit ['-']) (.seq (.group .revision digits) (.eol false))))))

/-- A release from a git tag, or `none` if the tag is not a release. -/
def parse (gitTag : String) : Option Release := do
  let found ← tagRe.matchStart gitTag.toList
  let product ← (found.groups .product).bind Product.ofName
  let upstream ← found.groups .upstream
  let revision ← found.groups .revision
  return ⟨product, String.ofList upstream, int revision⟩

example : parse "network/10.4.57-1" = some ⟨.network, "10.4.57", 1⟩ := by decide
example : parse "network/10.5.67-rc-1" = none := by decide

/-! ### The texts the pattern accepts -/

def IsDigits (s : List Char) : Prop := s ≠ [] ∧ ∀ c ∈ s, isDecimal c = true

theorem IsDigits.of_numeral {s : List Char} (h : IsNumeral s) : IsDigits s :=
  ⟨h.1, fun c hc => isDecimal_digit (h.2 c hc)⟩

/-- The three components of an upstream version and a build number, as written in a tag, with
what `$` leaves unread. -/
structure TagText where
  product : Product
  major : List Char
  minor : List Char
  patch : List Char
  revision : List Char
  tail : List Char

namespace TagText

def upstream (w : TagText) : List Char := w.major ++ '.' :: (w.minor ++ '.' :: w.patch)

def text (w : TagText) : List Char :=
  w.product.name.toList ++ '/' :: (w.upstream ++ '-' :: (w.revision ++ w.tail))

/-- Digits in every place, and nothing but a final newline after them. -/
structure Valid (w : TagText) : Prop where
  major : IsDigits w.major
  minor : IsDigits w.minor
  patch : IsDigits w.patch
  revision : IsDigits w.revision
  tail : w.tail = [] ∨ w.tail = ['\n']

def release (w : TagText) : Release := ⟨w.product, String.ofList w.upstream, int w.revision⟩

def cursor (w : TagText) : Cursor TagGroup where
  before := (w.product.name.toList ++ '/' :: (w.upstream ++ '-' :: w.revision)).reverse
  after := w.tail
  groups
    | .product => some w.product.name.toList
    | .upstream => some w.upstream
    | .revision => some w.revision

end TagText

theorem consumes_digits {γ : Type} [DecidableEq γ] :
    Pattern.Consumes (γ := γ) digits (Pattern.classWords₁ isDecimal) :=
  Pattern.consumes_plus_one true isDecimal

theorem consumes_dotted {γ : Type} [DecidableEq γ] :
    Pattern.Consumes (γ := γ) dotted
      (Pattern.classWords₁ isDecimal * ({['.']} * (Pattern.classWords₁ isDecimal *
        ({['.']} * Pattern.classWords₁ isDecimal)))) :=
  consumes_digits.seq ((Pattern.consumes_lit _).seq (consumes_digits.seq
    ((Pattern.consumes_lit _).seq consumes_digits)))

private theorem consumes_name :
    Pattern.Consumes (γ := TagGroup) (.alt (.lit "network".toList) (.lit "unifi-os".toList))
      ({"network".toList} + {"unifi-os".toList}) :=
  (Pattern.consumes_lit _).alt (Pattern.consumes_lit _)

private theorem mem_names {word : List Char} :
    word ∈ ({"network".toList} + {"unifi-os".toList} : Language Char) ↔
      ∃ p : Product, word = p.name.toList := by
  constructor
  · rintro (h | h)
    · exact ⟨.network, h⟩
    · exact ⟨.unifiOs, h⟩
  · rintro ⟨p, h⟩
    cases p with
    | network => exact Or.inl h
    | unifiOs => exact Or.inr h

theorem mem_dotted {word : List Char} :
    word ∈ (Pattern.classWords₁ isDecimal * ({['.']} * (Pattern.classWords₁ isDecimal *
        ({['.']} * Pattern.classWords₁ isDecimal))) : Language Char) ↔
      ∃ x y z, IsDigits x ∧ IsDigits y ∧ IsDigits z ∧ word = x ++ '.' :: (y ++ '.' :: z) := by
  constructor
  · rintro ⟨x, hx, _, ⟨_, rfl, _, ⟨y, hy, _, ⟨_, rfl, z, hz, rfl⟩, rfl⟩, rfl⟩, rfl⟩
    exact ⟨x, y, z, hx, hy, hz, rfl⟩
  · rintro ⟨x, y, z, hx, hy, hz, rfl⟩
    exact ⟨x, hx, _, ⟨_, rfl, _, ⟨y, hy, _, ⟨_, rfl, z, hz, rfl⟩, rfl⟩, rfl⟩, rfl⟩

theorem matches_tagRe {t : List Char} {u : Cursor TagGroup} :
    Pattern.Matches tagRe (Cursor.start t) u ↔
      ∃ w : TagText, w.Valid ∧ w.text = t ∧ w.cursor = u := by
  simp only [tagRe, Pattern.matches_seq, Pattern.matches_bol, consumes_name.matches_group,
    consumes_dotted.matches_group, consumes_digits.matches_group, Pattern.consumes_lit _ _ _,
    Pattern.matches_eol, Pattern.atEol_single, mem_names, mem_dotted, Pattern.mem_singleton_word]
  constructor
  · rintro ⟨_, ⟨_, rfl⟩, _, ⟨_, r1, h1, ⟨p, rfl⟩, rfl⟩, _, ⟨_, r2, h2, rfl, rfl⟩, _,
      ⟨_, r3, h3, ⟨x, y, z, hx, hy, hz, rfl⟩, rfl⟩, _, ⟨_, r4, h4, rfl, rfl⟩, _,
      ⟨n, r5, h5, hn, rfl⟩, h6, rfl⟩
    simp only [Cursor.advance, Cursor.store, Cursor.start] at h1 h2 h3 h4 h5 h6
    subst h1 h2 h3 h4 h5
    refine ⟨⟨p, x, y, z, n, r5⟩, ⟨hx, hy, hz, hn, h6⟩, by simp [TagText.text, TagText.upstream], ?_⟩
    simp only [TagText.cursor, Cursor.store, Cursor.advance, Cursor.start, TagText.upstream]
    congr 1
    · simp
    · funext g
      cases g <;> rfl
  · rintro ⟨⟨p, x, y, z, n, e⟩, ⟨hx, hy, hz, hn, he⟩, rfl, rfl⟩
    refine ⟨_, ⟨rfl, rfl⟩, _, ⟨_, _, rfl, ⟨p, rfl⟩, rfl⟩, _, ⟨_, _, rfl, rfl, rfl⟩, _,
      ⟨_, _, rfl, ⟨x, y, z, hx, hy, hz, rfl⟩, rfl⟩, _, ⟨_, _, rfl, rfl, rfl⟩, _,
      ⟨n, e, rfl, hn, rfl⟩, he, ?_⟩
    simp only [TagText.cursor, Cursor.store, Cursor.advance, Cursor.start, TagText.upstream]
    congr 1
    · simp
    · funext g
      cases g <;> rfl

private theorem name_append_inj {p q : Product} {s t : List Char}
    (h : p.name.toList ++ '/' :: s = q.name.toList ++ '/' :: t) : p = q ∧ s = t := by
  cases p <;> cases q <;> simp_all [Product.name]

private theorem head?_cons_not_decimal {c : Char} (s : List Char) (hc : isDecimal c = false) :
    ∀ d ∈ (c :: s).head?, isDecimal d = false := by
  intro d hd
  cases hd
  exact hc

/-- Where the digits end, a dotted version and what follows it can be told apart. -/
theorem dotted_append_inj {x y z x' y' z' rest rest' : List Char} (hx : IsDigits x)
    (hy : IsDigits y) (hz : IsDigits z) (hx' : IsDigits x') (hy' : IsDigits y') (hz' : IsDigits z')
    (hrest : ∀ c ∈ rest.head?, isDecimal c = false)
    (hrest' : ∀ c ∈ rest'.head?, isDecimal c = false)
    (h : x ++ '.' :: (y ++ '.' :: (z ++ rest)) = x' ++ '.' :: (y' ++ '.' :: (z' ++ rest'))) :
    x = x' ∧ y = y' ∧ z = z' ∧ rest = rest' := by
  have hdot : isDecimal '.' = false := by decide
  obtain ⟨hmajor, h1⟩ := Pattern.classWords_cons_inj hx.2 hx'.2 hdot hdot h
  obtain ⟨hminor, h2⟩ := Pattern.classWords_cons_inj hy.2 hy'.2 hdot hdot h1
  obtain ⟨hpatch, h3⟩ := Pattern.classWords_append_inj hz.2 hz'.2 hrest hrest' h2
  exact ⟨hmajor, hminor, hpatch, h3⟩

theorem TagText.text_inj {w v : TagText} (hw : w.Valid) (hv : v.Valid) (h : w.text = v.text) :
    w = v := by
  obtain ⟨p, x, y, z, n, e⟩ := w
  obtain ⟨p', x', y', z', n', e'⟩ := v
  simp only [TagText.text, TagText.upstream, List.append_assoc, List.cons_append] at h
  have hend : ∀ {s : List Char}, s = [] ∨ s = ['\n'] → ∀ d ∈ s.head?, isDecimal d = false := by
    rintro s (rfl | rfl) d hd
    · cases hd
    · cases hd
      decide
  have hdash (s : List Char) := head?_cons_not_decimal s (c := '-') (by decide)
  obtain ⟨hp, h1⟩ := name_append_inj h
  obtain ⟨hx, hy, hz, h4⟩ := dotted_append_inj hw.major hw.minor hw.patch hv.major hv.minor
    hv.patch (hdash _) (hdash _) h1
  obtain ⟨hn, he⟩ := Pattern.classWords_append_inj hw.revision.2 hv.revision.2
    (hend hw.tail) (hend hv.tail) (List.cons.inj h4).2
  subst hp
  simp_all

theorem matchStart_tagRe {w : TagText} (hw : w.Valid) : tagRe.matchStart w.text = some w.cursor := by
  apply Pattern.matchStart_eq_some (matches_tagRe.mpr ⟨w, hw, rfl, rfl⟩)
  intro u hu
  obtain ⟨v, hv, ht, rfl⟩ := matches_tagRe.mp hu
  rw [TagText.text_inj hv hw ht]

private theorem ofName_name (p : Product) : Product.ofName p.name.toList = some p := by
  cases p <;> decide

/-- `parse` accepts exactly the valid tag texts. -/
theorem parse_iff {t : String} {r : Release} :
    parse t = some r ↔ ∃ w : TagText, w.Valid ∧ w.text = t.toList ∧ w.release = r := by
  constructor
  · intro h
    simp only [parse, Option.bind_eq_bind, Option.bind_eq_some_iff] at h
    obtain ⟨u, hu, h⟩ := h
    obtain ⟨w, hw, ht, rfl⟩ := matches_tagRe.mp (Pattern.matches_of_matchStart hu)
    refine ⟨w, hw, ht, ?_⟩
    simpa [TagText.cursor, ofName_name, TagText.release] using h
  · rintro ⟨w, hw, ht, rfl⟩
    rw [parse, ← ht, matchStart_tagRe hw]
    simp [TagText.cursor, ofName_name, TagText.release]

/-! ### Releases and their tags -/

/-- `\d+\.\d+\.\d+` as a property of a text. -/
def IsUpstream (s : String) : Prop :=
  ∃ x y z, IsDigits x ∧ IsDigits y ∧ IsDigits z ∧ s.toList = x ++ '.' :: (y ++ '.' :: z)

def IsVersion (s : String) : Prop :=
  ∃ x y z, IsNumeral x ∧ IsNumeral y ∧ IsNumeral z ∧ s.toList = x ++ '.' :: (y ++ '.' :: z)

def IsAscii (s : String) : Prop := ∀ c ∈ s.toList, c.toNat < 128

instance (s : String) : Decidable (IsAscii s) :=
  inferInstanceAs (Decidable (∀ c ∈ s.toList, c.toNat < 128))

theorem IsVersion.isUpstream {s : String} (h : IsVersion s) : IsUpstream s := by
  obtain ⟨x, y, z, hx, hy, hz, hs⟩ := h
  exact ⟨x, y, z, .of_numeral hx, .of_numeral hy, .of_numeral hz, hs⟩

theorem isUpstream_of_parse {t : String} {r : Release} (h : parse t = some r) :
    IsUpstream r.upstream := by
  obtain ⟨w, hw, -, rfl⟩ := parse_iff.mp h
  exact ⟨w.major, w.minor, w.patch, hw.major, hw.minor, hw.patch, String.toList_ofList⟩

structure TagText.Numeric (w : TagText) : Prop where
  major : IsNumeral w.major
  minor : IsNumeral w.minor
  patch : IsNumeral w.patch
  revision : IsNumeral w.revision

private theorem isNumeral_of_ascii {s : List Char} (hs : IsDigits s)
    (ha : ∀ c ∈ s, c.toNat < 128) : IsNumeral s :=
  ⟨hs.1, fun c hc => by rw [← isDecimal_ascii (ha c hc)]; exact hs.2 c hc⟩

theorem TagText.numeric_of_ascii {w : TagText} (hw : w.Valid) (ha : ∀ c ∈ w.text, c.toNat < 128) :
    w.Numeric where
  major := isNumeral_of_ascii hw.major fun c hc => ha c (by simp [text, upstream, hc])
  minor := isNumeral_of_ascii hw.minor fun c hc => ha c (by simp [text, upstream, hc])
  patch := isNumeral_of_ascii hw.patch fun c hc => ha c (by simp [text, upstream, hc])
  revision := isNumeral_of_ascii hw.revision fun c hc => ha c (by simp [text, hc])

theorem isVersion_of_parse {t : String} {r : Release} (ha : IsAscii t) (h : parse t = some r) :
    IsVersion r.upstream := by
  obtain ⟨w, hw, ht, rfl⟩ := parse_iff.mp h
  have hn := TagText.numeric_of_ascii hw fun c hc => ha c (ht ▸ hc)
  exact ⟨w.major, w.minor, w.patch, hn.major, hn.minor, hn.patch, String.toList_ofList⟩

theorem gitTag_toList (r : Release) :
    r.gitTag.toList =
      r.product.name.toList ++ '/' :: (r.upstream.toList ++ '-' :: str r.revision) := by
  simp [Release.gitTag, Release.version]

/-- The tag of a release with an `X.Y.Z` upstream reads back as that release. -/
theorem parse_gitTag {r : Release} (h : IsUpstream r.upstream) : parse r.gitTag = some r := by
  obtain ⟨x, y, z, hx, hy, hz, hs⟩ := h
  refine parse_iff.mpr ⟨⟨r.product, x, y, z, str r.revision, []⟩,
    ⟨hx, hy, hz, .of_numeral (str_isNumeral _), Or.inl rfl⟩, ?_, ?_⟩
  · rw [gitTag_toList, hs]
    simp [TagText.text, TagText.upstream]
  · simp only [TagText.release, TagText.upstream, ← hs, String.ofList_toList, int_str]

theorem gitTag_inj {r q : Release} (hr : IsUpstream r.upstream) (hq : IsUpstream q.upstream)
    (h : r.gitTag = q.gitTag) : r = q :=
  Option.some.inj (by rw [← parse_gitTag hr, h, parse_gitTag hq])

/-! ### The tags that print back -/

/-- The build number, after the last dash, is written the way it is printed. -/
def PrintedBuild (t : String) : Prop :=
  ∃ before build, t.toList = before ++ '-' :: build ∧ IsNumeral build ∧ NoLeadingZero build

/-- A text splits in one way at its last dash. -/
theorem lastDash_inj {before before' build build' : List Char} (hbuild : '-' ∉ build)
    (hbuild' : '-' ∉ build') (h : before ++ '-' :: build = before' ++ '-' :: build') :
    before = before' ∧ build = build' := by
  have hreverse := congrArg List.reverse h
  simp only [List.reverse_append, List.reverse_cons, List.append_assoc, List.singleton_append]
    at hreverse
  obtain ⟨hlast, hfront⟩ := Pattern.first_append_inj (mt List.mem_reverse.mp hbuild)
    (mt List.mem_reverse.mp hbuild') hreverse
  exact ⟨List.reverse_injective hfront, List.reverse_injective hlast⟩

private theorem dash_not_mem_digits {s : List Char} (hs : ∀ c ∈ s, isDecimal c = true) : '-' ∉ s :=
  fun hdash => absurd (hs _ hdash) (by decide)

/-- The build number prints as it was written exactly when it is a numeral without leading zero
at the end of the tag. -/
theorem str_int_eq_iff {revision tail : List Char} (h : tail = [] ∨ tail = ['\n']) :
    str (int revision) = revision ++ tail ↔
      IsNumeral (revision ++ tail) ∧ NoLeadingZero (revision ++ tail) := by
  constructor
  · intro heq
    rw [← heq]
    exact ⟨str_isNumeral _, str_noLeadingZero _⟩
  · intro hprinted
    rcases h with rfl | rfl
    · rw [List.append_nil] at hprinted ⊢
      exact str_int hprinted.1 hprinted.2
    · exact absurd (hprinted.1.2 '\n' (by simp)) (by decide)

theorem TagText.gitTag_eq_iff {w : TagText} (hw : w.Valid) {t : String} (ht : w.text = t.toList) :
    w.release.gitTag = t ↔ PrintedBuild t := by
  have hrest : '-' ∉ w.revision ++ w.tail := by
    rw [List.mem_append, not_or]
    refine ⟨dash_not_mem_digits hw.revision.2, ?_⟩
    rcases hw.tail with htail | htail <;> rw [htail] <;> decide
  have hsplit : t.toList =
      (w.product.name.toList ++ '/' :: w.upstream) ++ '-' :: (w.revision ++ w.tail) := by
    rw [← ht, TagText.text]
    simp
  have hprinted : PrintedBuild t ↔
      IsNumeral (w.revision ++ w.tail) ∧ NoLeadingZero (w.revision ++ w.tail) := by
    constructor
    · rintro ⟨before, build, hdash, hnumeral, hzero⟩
      have hbuild := dash_not_mem_digits (IsDigits.of_numeral hnumeral).2
      obtain ⟨-, rfl⟩ := lastDash_inj hbuild hrest (hdash.symm.trans hsplit)
      exact ⟨hnumeral, hzero⟩
    · intro hbuild
      exact ⟨_, _, hsplit, hbuild.1, hbuild.2⟩
  rw [hprinted, ← str_int_eq_iff hw.tail, ← String.toList_inj, gitTag_toList, hsplit]
  simp [TagText.release]

/-- A release's tag reads back as the release; a tag is printed back from the release it was read
as exactly when its build number is written the way build numbers are printed. -/
theorem tags_correspond_iff (t : String) (r : Release) :
    (parse t = some r → (r.gitTag = t ↔ PrintedBuild t)) ∧
      (IsUpstream r.upstream → parse r.gitTag = some r) := by
  constructor
  · intro h
    obtain ⟨w, hw, ht, rfl⟩ := parse_iff.mp h
    exact TagText.gitTag_eq_iff hw ht
  · intro h
    exact parse_gitTag h

theorem tags_correspond_example :
    ("network/10.4.57-1" = "network/10.4.57-1" ↔ PrintedBuild "network/10.4.57-1") ∧
      parse "unifi-os/5.1.21-3" = some ⟨.unifiOs, "5.1.21", 3⟩ :=
  ⟨(tags_correspond_iff "network/10.4.57-1" ⟨.network, "10.4.57", 1⟩).1 (by decide),
    (tags_correspond_iff "unifi-os/5.1.21-3" ⟨.unifiOs, "5.1.21", 3⟩).2
      ⟨['5'], ['1'], ['2', '1'], ⟨by decide, by decide⟩, ⟨by decide, by decide⟩,
        ⟨by decide, by decide⟩, rfl⟩⟩

def oneRelease : Release := ⟨.network, "10.4.57", 1⟩

/-- A leading zero, an Arabic digit and a final newline: three more tags of one release. -/
theorem tags_of_one_release :
    (parse "network/10.4.57-01" = some oneRelease ∧ oneRelease.gitTag ≠ "network/10.4.57-01") ∧
      (parse "network/10.4.57-\u0661" = some oneRelease ∧
        oneRelease.gitTag ≠ "network/10.4.57-\u0661") ∧
      parse "network/10.4.57-1\n" = some oneRelease ∧
        oneRelease.gitTag ≠ "network/10.4.57-1\n" := by
  decide

end UnifiContainers
