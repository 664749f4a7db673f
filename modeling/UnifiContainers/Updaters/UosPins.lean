import UnifiContainers.Updaters.Uos

/-!
# What a UniFi OS bump pins

In a well-formed env file each pin is assigned on one line, and every other line is blank or a
comment. A bump keeps the file so and reads back what it wrote, and a second one has nothing to do.
-/

namespace UnifiContainers.Updaters.Uos

open Regex Pattern PyText Pins Fallible

/-! ### The file -/

def IsPlainChar (c : Char) : Prop := isSpace c = false ∧ c ∉ '#' :: specialChars

instance (c : Char) : Decidable (IsPlainChar c) := inferInstanceAs (Decidable (_ ∧ _))

/-- A blank line or a comment. -/
def IsFiller (line : Text) : Prop := (∀ c ∈ line, isSpace c = true) ∨ line.head? = some '#'

instance (line : Text) : Decidable (IsFiller line) := inferInstanceAs (Decidable (_ ∨ _))

def IsPin (key line : Text) : Prop :=
  ∃ value, line = assignment key value ∧ ∀ c ∈ value, IsPlainChar c

theorem isPin_iff {key line : Text} : (line = assignment key (line.drop (key.length + 1)) ∧
    ∀ c ∈ line.drop (key.length + 1), IsPlainChar c) ↔ IsPin key line := by
  constructor
  · intro h
    exact ⟨_, h.1, h.2⟩
  · intro h
    obtain ⟨value, hline, hvalue⟩ := h
    have hdrop : line.drop (key.length + 1) = value := by
      rw [hline, assignment, List.drop_append]
      simp
    rw [hdrop]
    exact ⟨hline, hvalue⟩

instance (key line : Text) : Decidable (IsPin key line) := decidable_of_iff _ isPin_iff

def releaseKeys : List Text := [uosKey, urlAmd64Key, shaAmd64Key, urlArm64Key, shaArm64Key]

def uosKeys : List Text := appKey :: releaseKeys

structure WellFormed (text : Text) : Prop where
  once : ∀ key ∈ uosKeys, (lines text).countP (isAssignment key) = 1
  line : ∀ line ∈ lines text, IsFiller line ∨ ∃ key ∈ uosKeys, IsPin key line

/-- The library also on comments and blank lines, which stand alone and bind nothing. -/
structure EnvReader extends DotEnv where
  alone_filler : ∀ line, IsFiller line → '\r' ∉ line → alone line
  binding_filler : ∀ line, IsFiller line → binding line = none

section

variable {key value line text : Text}

theorem isWord_of_plain {s : Text} (h : ∀ c ∈ s, IsPlainChar c) : IsWord s := by
  intro c hc
  obtain ⟨hspace, hspecial⟩ := h c hc
  exact ⟨hspace, fun hmem => hspecial (List.mem_cons_of_mem '#' hmem)⟩

theorem isKey_uosKeys : ∀ key ∈ uosKeys, IsKey key := by
  decide

theorem isAssignment_of_pin (hkey : IsKey key) (h : IsPin key line) :
    isAssignment key line = true := by
  obtain ⟨value, hline, hvalue⟩ := h
  subst hline
  exact isAssignment_assignment hkey (isWord_of_plain hvalue)

/-- A line of a well-formed file gives a key that it does not assign no value. -/
theorem assigned_eq_none (env : EnvReader)
    (hline : IsFiller line ∨ ∃ other ∈ uosKeys, IsPin other line)
    (h : isAssignment key line = false) : assigned env.toDotEnv key line = none := by
  rcases hline with hfiller | ⟨other, hother, hpin⟩
  · rw [assigned, env.binding_filler line hfiller]
    rfl
  · have hassigned := isAssignment_of_pin (isKey_uosKeys other hother) hpin
    refine assigned_other (isKey_uosKeys other hother) ?_ hassigned
    intro heq
    rw [heq, h] at hassigned
    cases hassigned

theorem valueIn_eq_none {env : DotEnv} {parts : List Text}
    (h : ∀ line ∈ parts, assigned env key line = none) : valueIn env parts key = none := by
  induction parts with
  | nil => rfl
  | cons line parts ih =>
    rw [valueIn_cons, ih fun other hother => h other (List.mem_cons_of_mem line hother),
      h line List.mem_cons_self]
    rfl

theorem WellFormed.byLine (htext : WellFormed text) (env : EnvReader) (hreturn : '\r' ∉ text) :
    ByLine env.toDotEnv text := by
  intro line hline
  rcases htext.line line hline with hfiller | ⟨key, hkey, value, heq, hvalue⟩
  · exact env.alone_filler line hfiller fun hmem => hreturn (mem_of_mem_lines hline hmem)
  · subst heq
    exact env.alone_word key (isKey_uosKeys key hkey) value (isWord_of_plain hvalue)

theorem not_assigned_afterFirst {parts : List Text} (h : parts.countP (isAssignment key) = 1) :
    ∀ line ∈ afterFirst key parts, isAssignment key line = false := by
  induction parts with
  | nil => cases h
  | cons part parts ih =>
    rw [List.countP_cons] at h
    by_cases hpart : isAssignment key part = true
    · have hrest : parts.countP (isAssignment key) = 0 := by
        rw [if_pos hpart] at h
        omega
      rw [afterFirst, List.dropWhile_cons_of_neg (by simp [hpart]), List.tail_cons]
      intro line hline
      exact Bool.eq_false_iff.mpr (List.countP_eq_zero.mp hrest line hline)
    · rw [if_neg hpart] at h
      rw [afterFirst, List.dropWhile_cons_of_pos (by simp [hpart])]
      exact ih h

theorem WellFormed.not_reassigned (htext : WellFormed text) (env : EnvReader)
    (hkey : key ∈ uosKeys) : ¬ Reassigned env.toDotEnv key text := by
  have hlater := not_assigned_afterFirst (htext.once key hkey)
  have hsub : ∀ line ∈ afterFirst key (lines text), line ∈ lines text := fun line hline =>
    (List.dropWhile_sublist _).subset (List.mem_of_mem_tail hline)
  have hnone : valueIn env.toDotEnv (afterFirst key (lines text)) key = none :=
    valueIn_eq_none fun line hline =>
      assigned_eq_none env (htext.line line (hsub line hline)) (hlater line hline)
  rw [Reassigned, hnone]
  exact Bool.false_ne_true

/-! ### Rewriting pins -/

/-- Lines that assign no pin stay where they are. -/
structure OtherLines (text new : Text) : Prop where
  length : (lines new).length = (lines text).length
  line : ∀ (k : ℕ) (line : Text), (lines text)[k]? = some line →
    (∀ key ∈ uosKeys, isAssignment key line = false) → (lines new)[k]? = some line

/-- Some pins of a well-formed file are rewritten, and nothing else. -/
structure Pinned (env : DotEnv) (pins : List (Text × Text)) (text new : Text) : Prop where
  wellFormed : WellFormed new
  byLine : ByLine env new
  keys : ∀ pin ∈ pins, pin.1 ∈ uosKeys
  own : ∀ pin ∈ pins, env.values new pin.1 = some (some pin.2)
  rest : ∀ key ∈ uosKeys, key ∉ pins.map Prod.fst → env.values new key = env.values text key
  others : OtherLines text new

theorem Pinned.nil (env : EnvReader) (htext : WellFormed text) (hreturn : '\r' ∉ text) :
    Pinned env.toDotEnv [] text text where
  wellFormed := htext
  byLine := htext.byLine env hreturn
  keys _ hmem := absurd hmem List.not_mem_nil
  own _ hmem := absurd hmem List.not_mem_nil
  rest _ _ _ := rfl
  others := ⟨rfl, fun _ _ hline _ => hline⟩

theorem subPin_ok {new : Text} (hkey : IsKey key) (hvalue : IsWord value)
    (h : subPin text key value = .ok new) : lines new = setLine key value (lines text) := by
  rw [subPin_eq hkey hvalue] at h
  split at h
  · cases h
    exact lines_replaceFirst (not_mem_assignment hkey hvalue (by decide) (by decide) (by decide))
  · cases h

theorem wellFormed_setLine {new : Text} (htext : WellFormed text) (hkey : key ∈ uosKeys)
    (hvalue : ∀ c ∈ value, IsPlainChar c) (hlines : lines new = setLine key value (lines text)) :
    WellFormed new := by
  have hIsKey := isKey_uosKeys key hkey
  have hnew := isAssignment_assignment hIsKey (isWord_of_plain hvalue)
  constructor
  · intro other hother
    rw [hlines, setLine, countP_replaceFirst, htext.once other hother]
    intro line hline
    by_cases heq : key = other
    · subst heq
      rw [hline, hnew]
    · have hIsOther := isKey_uosKeys other hother
      rw [isAssignment_other hIsKey hIsOther heq hline, isAssignment_other hIsKey hIsOther heq hnew]
  · intro line hline
    rw [hlines] at hline
    rcases mem_replaceFirst hline with heq | hmem
    · exact .inr ⟨key, hkey, value, heq, hvalue⟩
    · exact htext.line line hmem

theorem Pinned.add {env : EnvReader} {pins : List (Text × Text)} {mid new : Text}
    (h : Pinned env.toDotEnv pins text mid) (hkey : key ∈ uosKeys) (hfree : key ∉ pins.map Prod.fst)
    (hvalue : ∀ c ∈ value, IsPlainChar c) (hnew : subPin mid key value = .ok new) :
    Pinned env.toDotEnv ((key, value) :: pins) text new := by
  have hIsKey := isKey_uosKeys key hkey
  have hword := isWord_of_plain hvalue
  have hlines := subPin_ok hIsKey hword hnew
  have r := subPin_rewritten env.toDotEnv hIsKey hword h.byLine hnew
  constructor
  · exact wellFormed_setLine h.wellFormed hkey hvalue hlines
  · exact r.byLine
  · intro pin hpin
    rcases List.mem_cons.mp hpin with heq | hpin
    · subst heq
      exact hkey
    · exact h.keys pin hpin
  · intro pin hpin
    rcases List.mem_cons.mp hpin with heq | hpin
    · subst heq
      rw [r.own, if_neg (h.wellFormed.not_reassigned env hkey)]
    · have hne : key ≠ pin.1 := fun heq => hfree (heq ▸ List.mem_map_of_mem hpin)
      rw [(r.others pin.1 (isKey_uosKeys pin.1 (h.keys pin hpin)) hne).values, h.own pin hpin]
  · intro other hother hmem
    rw [List.map_cons, List.mem_cons, not_or] at hmem
    obtain ⟨hne, hmem⟩ := hmem
    rw [(r.others other (isKey_uosKeys other hother) (Ne.symm hne)).values,
      h.rest other hother hmem]
  · constructor
    · rw [hlines, setLine, length_replaceFirst, h.others.length]
    · intro k line hline hother
      rw [hlines]
      exact getElem?_replaceFirst (h.others.line k line hline hother) (hother key hkey)

/-- What a release pins, the version first. -/
def releasePins (amd64 arm64 : Release) : List (Text × Text) :=
  [(uosKey, amd64.version), (urlAmd64Key, amd64.url), (shaAmd64Key, amd64.sha256),
    (urlArm64Key, arm64.url), (shaArm64Key, arm64.sha256)]

theorem rewritePins_pinned {env : EnvReader} {d : Decision} {new : Text}
    (hd : d.Chars IsPlainChar) (htext : WellFormed text) (hreturn : '\r' ∉ text)
    (h : rewritePins text d.amd64.version d.amd64 d.arm64 = .ok new) :
    Pinned env.toDotEnv (releasePins d.amd64 d.arm64).reverse text new := by
  rw [rewritePins] at h
  obtain ⟨text₁, h₁, h⟩ := bind_ok h
  obtain ⟨text₂, h₂, h⟩ := bind_ok h
  obtain ⟨text₃, h₃, h⟩ := bind_ok h
  obtain ⟨text₄, h₄, h₅⟩ := bind_ok h
  have hfree : ∀ n ∈ List.range 5, releaseKeys.getD n [] ∉ (releaseKeys.take n).reverse := by decide
  have p₁ := (Pinned.nil env htext hreturn).add (by decide) (hfree 0 (by decide)) hd.version h₁
  have p₂ := p₁.add (by decide) (hfree 1 (by decide)) hd.urlAmd64 h₂
  have p₃ := p₂.add (by decide) (hfree 2 (by decide)) hd.shaAmd64 h₃
  have p₄ := p₃.add (by decide) (hfree 3 (by decide)) hd.urlArm64 h₄
  exact p₄.add (by decide) (hfree 4 (by decide)) hd.shaArm64 h₅

theorem newPins_pinned (env : EnvReader) {d : Decision} {new : Text}
    (hd : d.Chars IsPlainChar) (htext : WellFormed text) (hreturn : '\r' ∉ text)
    (h : newPins text d = .ok new) :
    Pinned env.toDotEnv ((appKey, d.app) ::
      if d.uosMoved then (releasePins d.amd64 d.arm64).reverse else []) text new := by
  rw [newPins] at h
  by_cases huos : d.uosMoved = true
  · rw [if_pos huos] at h
    obtain ⟨mid, hmid, h⟩ := bind_ok h
    have hfree : appKey ∉ releaseKeys.reverse := by decide
    rw [if_pos huos]
    exact (rewritePins_pinned hd htext hreturn hmid).add (by decide) hfree hd.app h
  · rw [if_neg huos] at h
    obtain ⟨mid, hmid, h⟩ := bind_ok h
    cases hmid
    rw [if_neg huos]
    exact (Pinned.nil env htext hreturn).add (by decide) List.not_mem_nil hd.app h

end

/-! ### The bump -/

section

variable (pk : Packaging) (env : DotEnv)

def ReleaseMoves (text : Text) (amd64 : Release) : Prop :=
  ∃ current, env.values text uosKey = some (some current) ∧ Advances pk current amd64.version

def AppMoves (text app : Text) : Prop :=
  appVersionMoved pk ((env.values text appKey).getD (some [])) app = .ok true

/-- What a bump makes of the pins, by what is due to move. -/
structure Bumped (text new : Text) (amd64 arm64 : Release) (app : Text) : Prop where
  wellFormed : WellFormed new
  others : OtherLines text new
  app : ReleaseMoves pk env text amd64 ∨ AppMoves pk env text app →
    env.values new appKey = some (some app)
  release : ReleaseMoves pk env text amd64 →
    ∀ pin ∈ releasePins amd64 arm64, env.values new pin.1 = some (some pin.2)
  kept : ¬ ReleaseMoves pk env text amd64 →
    ∀ key ∈ releaseKeys, env.values new key = env.values text key
  forward : ∃ before now old new', env.values text uosKey = some (some before) ∧
    env.values new uosKey = some (some now) ∧ pk.version (String.ofList before) = some old ∧
      pk.version (String.ofList now) = some new' ∧ old ≤ new'

end

section

variable {pk : Packaging} {env : EnvReader} {net : Answers} {text new : Text} {d : Decision}

theorem Decided.releaseMoves_iff {env : DotEnv} (h : Decided pk env net text d) :
    ReleaseMoves pk env text d.amd64 ↔ d.uosMoved = true := by
  obtain ⟨current, -, -, hcurrent, -⟩ := h.uosMoved
  rw [← h.advances_iff hcurrent]
  constructor
  · intro hmoves
    obtain ⟨pinned, hpinned, hadvances⟩ := hmoves
    cases hcurrent.symm.trans hpinned
    exact hadvances
  · intro hadvances
    exact ⟨current, hcurrent, hadvances⟩

theorem Decided.appMoves_iff {env : DotEnv} (h : Decided pk env net text d) :
    AppMoves pk env text d.app ↔ d.appMoved = true := by
  rw [AppMoves, h.appMoved, Except.ok.injEq]

/-- The pins that are not rewritten are read as before. -/
theorem bumped_of_pinned (hd : Decided pk env.toDotEnv net text d)
    (h : Pinned env.toDotEnv ((appKey, d.app) ::
      if d.uosMoved then (releasePins d.amd64 d.arm64).reverse else []) text new) :
    Bumped pk env.toDotEnv text new d.amd64 d.arm64 d.app := by
  obtain ⟨current, newest, old, hcurrent, hnewest, hold, hmoved⟩ := hd.uosMoved
  have hrelease (huos : d.uosMoved = true) :
      ∀ pin ∈ releasePins d.amd64 d.arm64, env.values new pin.1 = some (some pin.2) := by
    intro pin hpin
    apply h.own pin
    rw [if_pos huos]
    exact List.mem_cons_of_mem _ (List.mem_reverse.mpr hpin)
  have hkept (huos : ¬ d.uosMoved = true) :
      ∀ key ∈ releaseKeys, env.values new key = env.values text key := by
    intro key hkey
    apply h.rest key (List.mem_cons_of_mem appKey hkey)
    have hfree : ∀ key ∈ releaseKeys, key ∉ [appKey] := by decide
    rw [if_neg huos]
    exact hfree key hkey
  constructor
  · exact h.wellFormed
  · exact h.others
  · intro _
    exact h.own (appKey, d.app) List.mem_cons_self
  · intro hmoves
    exact hrelease (hd.releaseMoves_iff.mp hmoves)
  · intro hstays
    exact hkept fun huos => hstays (hd.releaseMoves_iff.mpr huos)
  · by_cases huos : d.uosMoved = true
    · have hlt : old < newest := of_decide_eq_true (hmoved ▸ huos)
      exact ⟨current, d.amd64.version, old, newest, hcurrent,
        hrelease huos (uosKey, d.amd64.version) List.mem_cons_self, hold, hnewest, hlt.le⟩
    · exact ⟨current, current, old, old, hcurrent,
        (hkept huos uosKey List.mem_cons_self).trans hcurrent, hold, hold, le_rfl⟩

/-- Where neither is due to move, the text stays as it is. -/
theorem bumped_of_idle (hd : Decided pk env.toDotEnv net text d) (htext : WellFormed text)
    (huos : d.uosMoved = false) (happ : d.appMoved = false) :
    Bumped pk env.toDotEnv text text d.amd64 d.arm64 d.app := by
  have hstays : ¬ ReleaseMoves pk env.toDotEnv text d.amd64 := by
    rw [hd.releaseMoves_iff, huos]
    exact Bool.false_ne_true
  have hsame : ¬ AppMoves pk env.toDotEnv text d.app := by
    rw [hd.appMoves_iff, happ]
    exact Bool.false_ne_true
  obtain ⟨current, newest, old, hcurrent, -, hold, -⟩ := hd.uosMoved
  exact {
    wellFormed := htext
    others := ⟨rfl, fun _ _ hline _ => hline⟩
    app := fun hmoves => absurd hmoves (not_or.mpr ⟨hstays, hsame⟩)
    release := fun hmoves => absurd hmoves hstays
    kept := fun _ _ _ => rfl
    forward := ⟨current, current, old, old, hcurrent, hcurrent, hold, hold, le_rfl⟩ }

theorem version_eq {s : Text} {k : pk.Key} (h : pk.version (String.ofList s) = some k) :
    version pk s = .ok k := by
  rw [version, h]

/-- The same answers find the written pins up to date. -/
theorem decision_again {env : DotEnv} (hd : Decided pk env net text d)
    (h : Bumped pk env text new d.amd64 d.arm64 d.app)
    (happ : env.values new appKey = some (some d.app)) :
    decision pk env net new = .ok ⟨d.amd64, d.arm64, d.app, false, false⟩ := by
  obtain ⟨first, hfirst, hamd64⟩ := hd.amd64
  obtain ⟨second, hsecond, harm64⟩ := hd.arm64
  obtain ⟨third, hthird, hlatest⟩ := hd.app
  obtain ⟨current, newest, old, hcurrent, hnewest, hold, -⟩ := hd.uosMoved
  have hpinned : ∃ now k, env.values new uosKey = some (some now) ∧
      pk.version (String.ofList now) = some k ∧ ¬ k < newest := by
    by_cases hmoves : ReleaseMoves pk env text d.amd64
    · exact ⟨d.amd64.version, newest,
        h.release hmoves (uosKey, d.amd64.version) List.mem_cons_self, hnewest, lt_irrefl newest⟩
    · refine ⟨current, old, (h.kept hmoves uosKey List.mem_cons_self).trans hcurrent, hold, ?_⟩
      exact fun hlt => hmoves ⟨current, hcurrent, old, newest, hold, hnewest, hlt⟩
  obtain ⟨now, k, hnow, hk, hnlt⟩ := hpinned
  have hmatch : checkVersionsMatch d.amd64 d.arm64 = .ok () := by
    rw [checkVersionsMatch, if_neg (not_not.mpr hd.agree.symm)]
  have hmoved : appVersionMoved pk (some d.app) d.app = .ok false := by
    rw [appVersionMoved.eq_def, if_pos rfl]
  rw [decision, hnow, happ, hfirst, hsecond, hthird]
  simp only [field, Option.elim_some, Option.getD_some, ok_bind, hamd64, harm64, hmatch, hlatest,
    version_eq hnewest, version_eq hk, hmoved, hnlt, decide_false]
  rfl

end

/-- A bump of a well-formed file that succeeds leaves a well-formed file, in which the pins that
were due to move are read back as the API's, and the others as they were. No other line changes, the
version does not go back, and the same answers then change nothing. -/
theorem bump_keepsPins (pk : Packaging) (env : EnvReader) (net : Answers) (files after : Files)
    (answer : Option Text) (raw : Text) (hpin : files.pin = some raw)
    (htext : WellFormed (universalNewlines raw)) (hnet : net.Chars IsPlainChar)
    (h : bump pk env.toDotEnv net true files = .ok answer after) :
    ∃ new amd64 arm64 app, readText after.pin = .ok new ∧
      IsRecord net.amd64 amd64Platform amd64 ∧ IsRecord net.arm64 arm64Platform arm64 ∧
      amd64.version = arm64.version ∧ net.appVersion = .ok app ∧
      (answer = none ↔ ¬ (ReleaseMoves pk env.toDotEnv (universalNewlines raw) amd64 ∨
        AppMoves pk env.toDotEnv (universalNewlines raw) app)) ∧
      Bumped pk env.toDotEnv (universalNewlines raw) new amd64 arm64 app ∧
      bump pk env.toDotEnv net true after = .ok none after := by
  obtain ⟨d, hd, hresult⟩ := bump_ok hpin h
  have hdecided := decision_ok hd
  obtain ⟨hamd64, harm64⟩ := hdecided.records
  have hmoves := or_congr hdecided.releaseMoves_iff hdecided.appMoves_iff
  rcases outcome_ok hresult with
    ⟨huos, happ, hfiles, hanswer⟩ | ⟨hmove, new, hnew, hafter, v, hanswer⟩
  · subst hfiles hanswer
    refine ⟨universalNewlines raw, d.amd64, d.arm64, d.app, ?_, hamd64, harm64,
      hdecided.agree.symm, hdecided.appVersion, ?_, bumped_of_idle hdecided htext huos happ, h⟩
    · rw [hpin]
      rfl
    · rw [hmoves, huos, happ]
      simp
  · have hpinned := newPins_pinned env (hdecided.chars hnet) htext
      (return_not_mem_universalNewlines raw) hnew
    have hbumped := bumped_of_pinned hdecided hpinned
    have hread : readText after.pin = .ok new := by
      rw [hafter, readText, universalNewlines_of_byLine hpinned.byLine]
    subst hanswer
    refine ⟨new, d.amd64, d.arm64, d.app, hread, hamd64, harm64, hdecided.agree.symm,
      hdecided.appVersion, ?_, hbumped, ?_⟩
    · rw [hmoves]
      exact ⟨fun hnone => absurd hnone (Option.some_ne_none v), fun hnot => absurd hmove hnot⟩
    · rw [bump_eq, hread]
      dsimp only
      rw [decision_again hdecided hbumped (hbumped.app (hmoves.mpr hmove))]
      rfl

/-! ### A reader of comments and plain lines -/

theorem not_filler_assignment {key : Text} (hkey : IsKey key) (value : Text) :
    ¬ IsFiller (assignment key value) := by
  intro h
  rcases h with hblank | hcomment
  · have hequals := hblank '=' (by simp [assignment])
    cases hequals
  · obtain ⟨c, rest, hcons⟩ := List.exists_cons_of_ne_nil hkey.1
    subst hcons
    cases hcomment
    exact hkey.not_mem (c := '#') (by decide) List.mem_cons_self

theorem isLone_filler {line : Text} (h : IsFiller line) (hreturn : '\r' ∉ line) :
    IsLone line := by
  refine ⟨hreturn, ?_⟩
  rcases h with hblank | hcomment
  · right
    have hspace : ∀ c ∈ ['\'', '"', '$'], isSpace c = false := by decide
    have hfree (c : Char) (hc : c ∈ ['\'', '"', '$']) : c ∉ line := by
      intro hmem
      have hsame := hspace c hc
      rw [hblank c hmem] at hsame
      cases hsame
    intro c hc
    refine ⟨?_, ?_, ?_⟩ <;>
      (intro heq; exact hfree c (by simp [heq]) hc)
  · exact .inl hcomment

def fillerBinding (line : Text) : Option Binding := if IsFiller line then none else lineBinding line

theorem fillerBinding_assignment {key : Text} (hkey : IsKey key) (value : Text) :
    fillerBinding (assignment key value) = some (key, some value) := by
  rw [fillerBinding, if_neg (not_filler_assignment hkey value), lineBinding_assignment hkey]

def fillerEnv : EnvReader where
  values text key := lastBinding ((lines text).filterMap fillerBinding) key
  binding := fillerBinding
  alone := IsLone
  values_eq _ _ _ := rfl
  alone_return := lineEnv.alone_return
  alone_word := lineEnv.alone_word
  binding_key key hkey rest b hb := by
    have hline := fillerBinding_assignment hkey rest
    rw [assignment, hb] at hline
    cases hline
    rfl
  binding_word key hkey value _ := fillerBinding_assignment hkey value
  alone_filler _ hfiller hreturn := isLone_filler hfiller hreturn
  binding_filler _ hfiller := if_pos hfiller

def commented (pins : Text) : Text := "# Pinned UniFi OS Server release.\n\n".toList ++ pins

def commentedRepo (release app : String) : Files :=
  ⟨some (commented (pinning release app)), some (row release.toList releasesUrl)⟩

/-- The comment stays, the second bump finds nothing to do. -/
theorem bump_keepsPins_example :
    ∃ new, readText (commentedRepo "5.1.43" "10.6.109-36013-1").pin = .ok new ∧ WellFormed new ∧
      bump numericVersions.toPackaging fillerEnv.toDotEnv
        (answering "v5.1.43" "10.6.109-36013-1") true
        (commentedRepo "5.1.43" "10.6.109-36013-1") =
          .ok none (commentedRepo "5.1.43" "10.6.109-36013-1") := by
  have hbump : bump numericVersions.toPackaging fillerEnv.toDotEnv
      (answering "v5.1.43" "10.6.109-36013-1") true (commentedRepo "5.1.42" "10.6.101-35991-1") =
        .ok (some "5.1.43".toList) (commentedRepo "5.1.43" "10.6.109-36013-1") := by
    decide +kernel
  obtain ⟨new, amd64, arm64, app, hread, -, -, -, -, -, hbumped, hagain⟩ :=
    bump_keepsPins numericVersions.toPackaging fillerEnv (answering "v5.1.43" "10.6.109-36013-1")
      (commentedRepo "5.1.42" "10.6.101-35991-1") _ _
      (commented (pinning "5.1.42" "10.6.101-35991-1")) rfl
      ⟨by decide +kernel, by decide +kernel⟩
      (by constructor <;> (intro firmware h; cases h; decide +kernel)) hbump
  exact ⟨new, hread, hbumped.wellFormed, hagain⟩

end UnifiContainers.Updaters.Uos
