import UnifiContainers.Lib.EnvFile
import UnifiContainers.Lib.PyText
import Mathlib.Data.Finset.Max

/-!
# The seed settings through the unit's environment file

`docker run -e` reaches the seed unit through a file that the entrypoint writes and the service
manager reads. The values are quoted the way a shell quotes them, which the reader undoes for every
value but one that holds a single quote.
-/

namespace UnifiContainers.SeedEnv

open EnvFile PyText

/-! ### The settings -/

inductive SeedKey where
  | adminUser
  | adminPass
  | country
  | timezone
  | consoleName
  | seedApiKey
  | apiKeyName
  | apiKeyFile
  deriving DecidableEq, Repr

open SeedKey

def SeedKey.name : SeedKey → List Char
  | adminUser => "UOS_ADMIN_USER".toList
  | adminPass => "UOS_ADMIN_PASS".toList
  | country => "UOS_COUNTRY".toList
  | timezone => "UOS_TIMEZONE".toList
  | consoleName => "UOS_CONSOLE_NAME".toList
  | seedApiKey => "UOS_SEED_API_KEY".toList
  | apiKeyName => "UOS_API_KEY_NAME".toList
  | apiKeyFile => "UOS_API_KEY_FILE".toList

def keyFile : List Char := "/unifi/api-key".toList

/-- `SEED_DEFAULTS`. -/
def SeedKey.default : SeedKey → List Char
  | adminUser => "admin".toList
  | adminPass => "admin".toList
  | country => "840".toList
  | timezone => "UTC".toList
  | consoleName => "unifi-os-sim".toList
  | seedApiKey => "0".toList
  | apiKeyName => "unifi-containers-seeded".toList
  | apiKeyFile => keyFile

def seedKeys : List SeedKey :=
  [adminUser, adminPass, country, timezone, consoleName, seedApiKey, apiKeyName, apiKeyFile]

abbrev Env := List Char → Option (List Char)

def isEnabled (value : Option (List Char)) : Bool :=
  value = some "true".toList || value = some "1".toList

/-- `env.get(name) or default`. -/
def getOr (env : Env) (name default : List Char) : List Char :=
  match env name with
  | none | some [] => default
  | some value => value

def setting (key : SeedKey) (env : Env) : List Char := getOr env key.name key.default

inductive Country where
  | number (n : ℤ)
  | text (value : List Char)
  deriving DecidableEq, Repr

/-- `_country`. -/
def countryOf (value : List Char) : Country :=
  match parseInt? value with
  | some n => .number n
  | none => .text value

structure Config where
  username : List Char
  password : List Char
  country : Country
  timezone : List Char
  consoleName : List Char
  seedApiKey : Bool
  keyFile : List Char
  keyName : List Char
  deriving DecidableEq, Repr

def configFromEnv (env : Env) : Config where
  username := setting adminUser env
  password := setting adminPass env
  country := countryOf (setting country env)
  timezone := setting timezone env
  consoleName := setting consoleName env
  seedApiKey := isEnabled (env seedApiKey.name)
  keyFile := setting apiKeyFile env
  keyName := setting apiKeyName env

/-! ### The file -/

/-- `str.replace("'", "'\\''")`, one character at a time. -/
def reopened (c : Char) : List Char := if c = '\'' then ['\'', '\\', '\'', '\''] else [c]

/-- `_quote`. -/
def quote (value : List Char) : List Char := ['\''] ++ value.flatMap reopened ++ ['\'']

def line (key : SeedKey) (value : List Char) : List Char :=
  key.name ++ ['='] ++ quote value ++ ['\n']

def seedOwnerEnv (env : Env) : List Char := seedKeys.flatMap fun key => line key (setting key env)

/-- The environment the service manager gives the seed unit. -/
def unitEnv (env : Env) : Env := environment (read (seedOwnerEnv env))

/-! ### How far a value gets out of hand -/

def quotes (value : List Char) : ℕ := value.count '\''

/-- The newlines after the first single quote. -/
def lateLines (value : List Char) : ℕ := (value.dropWhile (· ≠ '\'')).count '\n'

section

variable {u v w value name : List Char} {c : Char} {s : State}

theorem quotes_append : quotes (v ++ w) = quotes v + quotes w := List.count_append

theorem quotes_eq_zero : quotes v = 0 ↔ '\'' ∉ v := List.count_eq_zero

theorem quotes_of_ne (hc : c ≠ '\'') : quotes [c] = 0 := by
  simp [quotes, hc]

theorem lateLines_eq_zero (h : '\'' ∉ v) : lateLines v = 0 := by
  have hnil : v.dropWhile (· ≠ '\'') = [] := by
    rw [List.dropWhile_eq_nil_iff]
    intro c hc
    have : c ≠ '\'' := fun heq => h (heq ▸ hc)
    simpa using this
  rw [lateLines, hnil]
  rfl

theorem lateLines_append_of_mem (h : '\'' ∈ v) :
    lateLines (v ++ w) = lateLines v + w.count '\n' := by
  have hne : (v.dropWhile (· ≠ '\'')).isEmpty = false := by
    rw [Bool.eq_false_iff]
    intro hempty
    have hnil := List.dropWhile_eq_nil_iff.mp (List.isEmpty_iff.mp hempty) _ h
    simp at hnil
  rw [lateLines, List.dropWhile_append, hne]
  simp [lateLines]

theorem lateLines_append_of_not_mem (h : '\'' ∉ v) : lateLines (v ++ w) = lateLines w := by
  rw [lateLines, List.dropWhile_append_of_pos]
  · rfl
  · intro c hc
    have : c ≠ '\'' := fun heq => h (heq ▸ hc)
    simpa using this

theorem lateLines_le_append : lateLines v ≤ lateLines (v ++ w) := by
  by_cases h : '\'' ∈ v
  · rw [lateLines_append_of_mem h]
    omega
  · rw [lateLines_eq_zero h]
    omega

theorem lateLines_newline (h : '\'' ∈ v) : lateLines (v ++ ['\n']) = lateLines v + 1 :=
  lateLines_append_of_mem h

/-! ### One value -/

/-- Whatever assignment is being read began before the first quote of the value, or a newline
later than that one. -/
def Settled (u : List Char) : Prop := '\'' ∉ u ∨ 0 < lateLines u

def Tracked (u value : List Char) : Prop :=
  ('\'' ∉ value ∧ Settled u) ∨ ('\'' ∈ value ∧ '\'' ∈ u ∧
    (lateLines value < lateLines u ∨ lateLines value ≤ lateLines u ∧ quotes u ≤ quotes value))

/-- Where the reader may stand once it has read `u`, with its quotes reopened, of a value. -/
def Within (u : List Char) : State → Prop
  | .preKey => Settled u
  | .comment => True
  | .key name => '\'' ∈ name ∨ Settled u
  | .preValue name value => '\'' ∉ value ∧ ('\'' ∈ name ∨ Settled u)
  | .quoted name value => '\'' ∉ value ∧ ('\'' ∈ name ∨ quotes u ≤ 1 ∨ 0 < lateLines u)
  | .unquoted name value | .escape name value => '\'' ∈ name ∨ Tracked u value

/-- `value` was read out of a text in which more newlines follow the first quote, or as many and
fewer quotes. -/
def ReadOutOf (value v : List Char) : Prop :=
  lateLines value < lateLines v ∨ lateLines value ≤ lateLines v ∧ quotes v < quotes value

theorem Settled.concat (h : Settled u) (hc : c ≠ '\'') : Settled (u ++ [c]) := by
  rcases h with h | h
  · exact Or.inl (by simp [h, Ne.symm hc])
  · exact Or.inr (Nat.lt_of_lt_of_le h lateLines_le_append)

theorem settled_newline (u : List Char) : Settled (u ++ ['\n']) := by
  by_cases h : '\'' ∈ u
  · exact Or.inr (by rw [lateLines_newline h]; omega)
  · exact Or.inl (by simp [h])

theorem Tracked.left_concat (h : Tracked u value) (hc : c ≠ '\'') : Tracked (u ++ [c]) value := by
  rcases h with ⟨hv, h⟩ | ⟨hv, hu, h⟩
  · exact Or.inl ⟨hv, h.concat hc⟩
  · refine Or.inr ⟨hv, List.mem_append_left _ hu, ?_⟩
    have hlate : lateLines u ≤ lateLines (u ++ [c]) := lateLines_le_append
    rw [quotes_append, quotes_of_ne hc]
    omega

theorem Tracked.concat (h : Tracked u value) (hc : c ≠ '\'') :
    Tracked (u ++ [c]) (value ++ [c]) := by
  rcases h with ⟨hv, h⟩ | ⟨hv, hu, h⟩
  · exact Or.inl ⟨by simp [hv, Ne.symm hc], h.concat hc⟩
  · refine Or.inr ⟨List.mem_append_left _ hv, List.mem_append_left _ hu, ?_⟩
    rw [quotes_append, quotes_append, lateLines_append_of_mem hu, lateLines_append_of_mem hv]
    omega

/-- A quote of the value is read as three. -/
theorem Tracked.quote (h : Tracked u value) :
    Tracked (u ++ ['\'']) (value ++ ['\'', '\'', '\'']) := by
  have hq : quotes ['\'', '\'', '\''] = 3 := rfl
  have hq1 : quotes ['\''] = 1 := rfl
  refine Or.inr ⟨by simp, by simp, ?_⟩
  have hlate : lateLines u ≤ lateLines (u ++ ['\'']) := lateLines_le_append
  rw [quotes_append, quotes_append, hq, hq1]
  rcases h with ⟨hv, h⟩ | ⟨hv, hu, h⟩
  · rw [lateLines_append_of_not_mem hv, show lateLines ['\'', '\'', '\''] = 0 from rfl]
    rcases h with h | h
    · have := quotes_eq_zero.mpr h
      omega
    · omega
  · rw [lateLines_append_of_mem hv, show ['\'', '\'', '\''].count '\n' = 0 from rfl]
    omega

/-- The closing quote is read as part of the value. -/
theorem Tracked.closed (h : Tracked v value) : ReadOutOf (value ++ ['\'']) v := by
  have hq1 : quotes ['\''] = 1 := rfl
  rw [ReadOutOf, quotes_append, hq1]
  rcases h with ⟨hv, h⟩ | ⟨hv, hu, h⟩
  · rw [lateLines_append_of_not_mem hv, show lateLines ['\''] = 0 from rfl]
    rcases h with h | h
    · have := quotes_eq_zero.mpr h
      omega
    · omega
  · rw [lateLines_append_of_mem hv, show ['\''].count '\n' = 0 from rfl]
    omega

theorem Within.plain (h : Within u s) (hc : c ≠ '\'') :
    Within (u ++ [c]) (step s c).1 ∧
      ∀ p ∈ (step s c).2, '\'' ∉ p.1 → '\'' ∈ p.2 → lateLines p.2 < lateLines (u ++ [c]) := by
  cases s with
  | preKey =>
    have hs : Settled (u ++ [c]) := Settled.concat h hc
    simp only [step]
    split
    · exact ⟨hs, by simp⟩
    · split
      · exact ⟨trivial, by simp⟩
      · exact ⟨Or.inr hs, by simp⟩
  | comment =>
    simp only [step]
    split
    · rename_i hn
      subst hn
      exact ⟨settled_newline u, by simp⟩
    · exact ⟨trivial, by simp⟩
  | key name =>
    simp only [step]
    split
    · rename_i hn
      subst hn
      exact ⟨settled_newline u, by simp⟩
    · split
      · refine ⟨⟨by simp, ?_⟩, by simp⟩
        rcases h with h | h
        · exact Or.inl (mem_rdropWhile (by decide) h)
        · exact Or.inr (h.concat hc)
      · refine ⟨?_, by simp⟩
        rcases h with h | h
        · exact Or.inl (List.mem_append_left _ h)
        · exact Or.inr (h.concat hc)
  | preValue name value =>
    obtain ⟨hv, h⟩ := h
    have hs : '\'' ∈ name ∨ Settled (u ++ [c]) := h.imp_right fun h => h.concat hc
    simp only [step, hc, if_false]
    split
    · rename_i hn
      subst hn
      exact ⟨settled_newline u, by simp [hv]⟩
    · split
      · exact ⟨hs.imp_right fun hs => Or.inl ⟨hv, hs⟩, by simp⟩
      · split
        · exact ⟨⟨hv, hs⟩, by simp⟩
        · exact ⟨hs.imp_right fun hs => Or.inl ⟨by simp [hv, Ne.symm hc], hs⟩, by simp⟩
  | quoted name value =>
    obtain ⟨hv, h⟩ := h
    simp only [step, hc, if_false]
    refine ⟨⟨by simp [hv, Ne.symm hc], ?_⟩, by simp⟩
    have hlate : lateLines u ≤ lateLines (u ++ [c]) := lateLines_le_append
    rw [quotes_append, quotes_of_ne hc]
    exact h.imp_right fun h => by omega
  | unquoted name value =>
    simp only [step]
    split
    · rename_i hn
      subst hn
      refine ⟨settled_newline u, ?_⟩
      intro p hp hname hvalue
      rw [List.mem_singleton.mp hp] at hname hvalue ⊢
      rcases h with h | ⟨hv, -⟩ | ⟨-, hu, h⟩
      · exact absurd h hname
      · exact absurd hvalue hv
      · show lateLines value < lateLines (u ++ ['\n'])
        rw [lateLines_newline hu]
        omega
    · split
      · exact ⟨h.imp_right fun h => h.left_concat hc, by simp⟩
      · exact ⟨h.imp_right fun h => h.concat hc, by simp⟩
  | escape name value =>
    exact ⟨h.imp_right fun h => h.concat hc, by simp [step]⟩

theorem Within.read_quote (h : Within u s) :
    Within (u ++ ['\'']) (run s (reopened '\'')).1 ∧ (run s (reopened '\'')).2 = [] := by
  cases s with
  | preKey => simp [reopened, run, step, Within, isBlank]
  | comment => simp [reopened, run, step, Within]
  | key name => simp [reopened, run, step, Within]
  | preValue name value =>
    obtain ⟨hv, h⟩ := h
    have hlate : lateLines u ≤ lateLines (u ++ ['\'']) := lateLines_le_append
    have hcount : '\'' ∈ name ∨ quotes (u ++ ['\'']) ≤ 1 ∨ 0 < lateLines (u ++ ['\'']) := by
      rcases h with h | h | h
      · exact Or.inl h
      · refine Or.inr (Or.inl ?_)
        rw [quotes_append, quotes_eq_zero.mpr h]
        decide
      · exact Or.inr (Or.inr (by omega))
    simp [reopened, run, step, Within, hv, hcount]
  | quoted name value =>
    obtain ⟨hv, h⟩ := h
    have htracked : '\'' ∈ name ∨ Tracked (u ++ ['\'']) (value ++ ['\'', '\'']) := by
      refine h.imp_right fun h => Or.inr ⟨by simp, by simp, ?_⟩
      have hlate : lateLines u ≤ lateLines (u ++ ['\'']) := lateLines_le_append
      rw [quotes_append, quotes_append, lateLines_append_of_not_mem hv,
        show lateLines ['\'', '\''] = 0 from rfl, show quotes ['\'', '\''] = 2 from rfl,
        show quotes ['\''] = 1 from rfl]
      omega
    simp [reopened, run, step, Within, htracked]
  | unquoted name value =>
    have htracked := h.imp_right Tracked.quote
    simp [reopened, run, step, Within, htracked]
  | escape name value =>
    have htracked := h.imp_right Tracked.quote
    simp [reopened, run, step, Within, htracked]

theorem Within.read (h : Within u s) (w : List Char) :
    Within (u ++ w) (run s (w.flatMap reopened)).1 ∧
      ∀ p ∈ (run s (w.flatMap reopened)).2,
        '\'' ∉ p.1 → '\'' ∈ p.2 → lateLines p.2 < lateLines (u ++ w) := by
  induction w generalizing u s with
  | nil => simpa using h
  | cons c w ih =>
    have hassoc : u ++ c :: w = (u ++ [c]) ++ w := by simp
    rw [List.flatMap_cons, run_append, hassoc]
    by_cases hc : c = '\''
    · subst hc
      have hfirst := h.read_quote
      have hrest := ih hfirst.1
      rw [hfirst.2, List.nil_append]
      exact hrest
    · have hone : run s (reopened c) = step s c := by
        simp [reopened, hc, run_cons]
      have hfirst := h.plain hc
      have hrest := ih hfirst.1
      rw [hone]
      refine ⟨hrest.1, ?_⟩
      intro p hp hname hvalue
      rcases List.mem_append.mp hp with hp | hp
      · exact Nat.lt_of_lt_of_le (hfirst.2 p hp hname hvalue) lateLines_le_append
      · exact hrest.2 p hp hname hvalue

/-! ### One line -/

/-- Where the reader may stand between two lines: the quotes of the line before may be open. -/
def Between : State → Prop
  | .preKey => True
  | .quoted _ value => '\'' ∉ value
  | _ => False

theorem Within.close (h : Within v s) :
    Between (run s ['\'', '\n']).1 ∧
      ∀ p ∈ (run s ['\'', '\n']).2, '\'' ∉ p.1 → '\'' ∈ p.2 → ReadOutOf p.2 v := by
  cases s with
  | preKey => simp [run, step, Between, isBlank]
  | comment => simp [run, step, Between]
  | key name => simp [run, step, Between]
  | preValue name value => simp [run, step, Between, h.1]
  | quoted name value => simp [run, step, Between, h.1]
  | unquoted name value =>
    have hclosed : '\'' ∉ name → ReadOutOf (value ++ ['\'']) v := fun hname =>
      (h.resolve_left hname).closed
    simpa [run, step, Between] using hclosed
  | escape name value =>
    have hclosed : '\'' ∉ name → ReadOutOf (value ++ ['\'']) v := fun hname =>
      (h.resolve_left hname).closed
    simpa [run, step, Between] using hclosed

theorem isName_name (key : SeedKey) : IsName key.name := by
  cases key <;> exact ⟨by decide, by decide, by decide⟩

theorem name_plain (key : SeedKey) : '\'' ∉ key.name := by
  cases key <;> decide

theorem Between.opened (h : Between s) (key : SeedKey) :
    Within [] (run s (key.name ++ ['=', '\''])).1 ∧ (run s (key.name ++ ['=', '\''])).2 = [] := by
  have hsplit : key.name ++ ['=', '\''] = (key.name ++ ['=']) ++ ['\''] := by simp
  rw [hsplit, run_append]
  cases s with
  | preKey =>
    rw [run_name (isName_name key)]
    simp [run, step, Within, quotes]
  | quoted name value =>
    have hplain : '\'' ∉ key.name ++ ['='] := by simp [name_plain]
    have hvalue : '\'' ∉ value := h
    rw [run_quoted hplain]
    simp [run, step, Within, Settled, hvalue, name_plain]
  | comment | key | preValue | unquoted | escape => exact absurd h id

theorem line_eq (key : SeedKey) (v : List Char) :
    line key v = (key.name ++ ['=', '\'']) ++ (v.flatMap reopened ++ ['\'', '\n']) := by
  simp [line, quote]

theorem Between.read_line (h : Between s) (key : SeedKey) (v : List Char) :
    Between (run s (line key v)).1 ∧
      ∀ p ∈ (run s (line key v)).2, '\'' ∉ p.1 → '\'' ∈ p.2 → ReadOutOf p.2 v := by
  rw [line_eq, run_append, (h.opened key).2, List.nil_append, run_append]
  have hbody := (h.opened key).1.read v
  have hclose := hbody.1.close
  rw [List.nil_append] at hbody hclose
  refine ⟨hclose.1, ?_⟩
  intro p hp hname hvalue
  rcases List.mem_append.mp hp with hp | hp
  · exact Or.inl (hbody.2 p hp hname hvalue)
  · exact hclose.2 p hp hname hvalue

theorem reopened_plain (h : '\'' ∉ v) : v.flatMap reopened = v := by
  induction v with
  | nil => rfl
  | cons c v ih =>
    have hc : c ≠ '\'' := fun heq => h (by simp [heq])
    have hv : '\'' ∉ v := fun hm => h (List.mem_cons_of_mem c hm)
    rw [List.flatMap_cons, ih hv]
    simp [reopened, hc]

/-- Once a value has left its quotes, a text without newlines stays in it up to the closing one. -/
theorem run_unquoted_close (h : '\n' ∉ w)
    (hs : s = .unquoted name value ∨ s = .escape name value) :
    ∃ more, value ⊆ more ∧ run s (w ++ ['\'', '\n']) = (.preKey, [(name, more)]) := by
  induction w generalizing s value with
  | nil =>
    refine ⟨value ++ ['\''], List.subset_append_left _ _, ?_⟩
    rcases hs with hs | hs <;> simp [hs, run, step]
  | cons c w ih =>
    have hc : c ≠ '\n' := fun heq => h (by simp [heq])
    have hw : '\n' ∉ w := fun hm => h (List.mem_cons_of_mem c hm)
    rw [List.cons_append, run_cons]
    rcases hs with hs | hs
    · subst hs
      by_cases hb : c = '\\'
      · obtain ⟨more, hsub, hrun⟩ := ih hw (Or.inr rfl : State.escape name value = _ ∨ _)
        refine ⟨more, hsub, ?_⟩
        simp [step, hb, hrun]
      · obtain ⟨more, hsub, hrun⟩ := ih hw (Or.inl rfl : State.unquoted name (value ++ [c]) = _ ∨ _)
        refine ⟨more, fun d hd => hsub (List.mem_append_left _ hd), ?_⟩
        simp [step, hb, hc, hrun]
    · subst hs
      obtain ⟨more, hsub, hrun⟩ := ih hw (Or.inl rfl : State.unquoted name (value ++ [c]) = _ ∨ _)
      refine ⟨more, fun d hd => hsub (List.mem_append_left _ hd), ?_⟩
      simp [step, hrun]

/-- The value the unit gets from a line that the reader starts to read between two lines, when no
newline follows a quote in it. -/
theorem run_line (key : SeedKey) (h : lateLines v = 0) :
    ∃ value, run .preKey (line key v) = (.preKey, [(key.name, value)]) ∧
      ('\'' ∉ v → value = v) ∧ ('\'' ∈ v → '\'' ∈ value) := by
  have hopen : run .preKey (key.name ++ ['=', '\'']) = (.quoted key.name [], []) := by
    have hsplit : key.name ++ ['=', '\''] = (key.name ++ ['=']) ++ ['\''] := by simp
    rw [hsplit, run_append, run_name (isName_name key)]
    simp [run, step]
  rw [line_eq, run_append, hopen]
  by_cases hq : '\'' ∈ v
  · obtain ⟨p, q, hv, hp⟩ := List.eq_append_cons_of_mem hq
    subst hv
    have hlines : '\n' ∉ q := by
      have hlate : lateLines (p ++ '\'' :: q) = q.count '\n' := by
        rw [lateLines_append_of_not_mem hp]
        simp [lateLines]
      rw [hlate] at h
      exact List.count_eq_zero.mp h
    have htail : '\n' ∉ q.flatMap reopened := by
      intro hmem
      obtain ⟨c, hc, hin⟩ := List.mem_flatMap.mp hmem
      by_cases hcq : c = '\''
      · subst hcq
        exact absurd hin (by decide)
      · rw [reopened, if_neg hcq, List.mem_singleton] at hin
        exact hlines (hin ▸ hc)
    obtain ⟨value, hvalue, hrun⟩ := run_unquoted_close htail
      (Or.inl rfl : State.unquoted key.name (p ++ ['\'', '\'']) = _ ∨ _)
    refine ⟨value, ?_, fun hnot => absurd hq hnot, fun _ => hvalue (by simp)⟩
    have hquote : run (.quoted key.name p) (reopened '\'') =
        (.unquoted key.name (p ++ ['\'', '\'']), []) := by
      simp [reopened, run, step]
    rw [List.flatMap_append, List.append_assoc, run_append, reopened_plain hp, run_quoted hp,
      List.flatMap_cons, List.append_assoc, List.nil_append, run_append, hquote, hrun]
    rfl
  · refine ⟨v, ?_, fun _ => rfl, fun hmem => absurd hmem hq⟩
    rw [reopened_plain hq, run_append, run_quoted hq]
    simp [run, step]

/-! ### The whole file -/

theorem Between.read_lines (h : Between s) (values : SeedKey → List Char) (keys : List SeedKey) :
    Between (run s (keys.flatMap fun key => line key (values key))).1 ∧
      ∀ p ∈ (run s (keys.flatMap fun key => line key (values key))).2,
        '\'' ∉ p.1 → '\'' ∈ p.2 → ∃ key ∈ keys, ReadOutOf p.2 (values key) := by
  induction keys generalizing s with
  | nil => simpa using h
  | cons key keys ih =>
    have hline := h.read_line key (values key)
    have hrest := ih hline.1
    rw [List.flatMap_cons, run_append]
    refine ⟨hrest.1, ?_⟩
    intro p hp hname hvalue
    rcases List.mem_append.mp hp with hp | hp
    · exact ⟨key, List.mem_cons_self, hline.2 p hp hname hvalue⟩
    · obtain ⟨other, hmem, hout⟩ := hrest.2 p hp hname hvalue
      exact ⟨other, List.mem_cons_of_mem key hmem, hout⟩

/-- A quoted value that the unit gets under an unquoted name was read out of some setting. -/
theorem readOutOf_of_mem_read {env : Env} (h : (name, value) ∈ read (seedOwnerEnv env))
    (hname : '\'' ∉ name) (hvalue : '\'' ∈ value) :
    ∃ key ∈ seedKeys, ReadOutOf value (setting key env) := by
  have hstart : Between .preKey := trivial
  have hlines := hstart.read_lines (fun key => setting key env) seedKeys
  rcases List.mem_append.mp h with h | h
  · exact hlines.2 _ h hname hvalue
  · -- a run of quotes left open at the end of the file has taken nothing but plain text
    have hend := hlines.1
    cases hs : (run .preKey (seedOwnerEnv env)).1 with
    | preKey => simp [hs, finish] at h
    | quoted n v =>
      rw [seedOwnerEnv] at hs
      rw [hs] at hend
      rw [seedOwnerEnv, hs] at h
      simp only [finish, List.mem_singleton, Prod.mk.injEq] at h
      exact absurd (h.2 ▸ hvalue) hend
    | comment | key | preValue | unquoted | escape =>
      rw [seedOwnerEnv] at hs
      rw [hs] at hend
      exact absurd hend id

theorem run_lines (values : SeedKey → List Char) (h : ∀ key, lateLines (values key) = 0) :
    ∃ received : SeedKey → List Char,
      (∀ keys : List SeedKey, run .preKey (keys.flatMap fun key => line key (values key)) =
        (.preKey, keys.map fun key => (key.name, received key))) ∧
      ∀ key, ('\'' ∉ values key → received key = values key) ∧
        ('\'' ∈ values key → '\'' ∈ received key ∧ received key ≠ values key) := by
  choose received hrun hplain hquoted using fun key => run_line key (h key)
  refine ⟨received, ?_, ?_⟩
  · intro keys
    induction keys with
    | nil => rfl
    | cons key keys ih =>
      rw [List.flatMap_cons, run_append, hrun key, ih]
      rfl
  · intro key
    refine ⟨hplain key, fun hq => ⟨hquoted key hq, ?_⟩⟩
    intro heq
    have hstart : Between .preKey := trivial
    have hout := (hstart.read_line key (values key)).2 (key.name, received key) (by simp [hrun key])
      (name_plain key) (hquoted key hq)
    have hself : ReadOutOf (values key) (values key) := heq ▸ hout
    rw [ReadOutOf] at hself
    omega

theorem environment_map (received : SeedKey → List Char) (key : SeedKey) :
    environment (seedKeys.map fun key => (key.name, received key)) key.name =
      some (received key) := by
  cases key <;> rfl

theorem mem_of_environment {assigned : List Assignment} (h : environment assigned name = some value) :
    (name, value) ∈ assigned := by
  obtain ⟨before, after, heq, -⟩ := List.lookup_eq_some_iff.mp h
  rw [← List.mem_reverse, heq]
  simp

end

/-! ### The configuration -/

section

variable {env env' : Env} {key : SeedKey}

theorem default_plain (key : SeedKey) : '\'' ∉ key.default := by
  cases key <;> decide

theorem setting_ne_nil (key : SeedKey) (env : Env) : setting key env ≠ [] := by
  rw [setting, getOr]
  split
  · cases key <;> decide
  · cases key <;> decide
  · assumption

theorem setting_of_some {value : List Char} (h : env key.name = some value) (hne : value ≠ []) :
    setting key env = value := by
  rw [setting, getOr, h]
  cases value with
  | nil => exact absurd rfl hne
  | cons c rest => rfl

theorem env_of_quoted (h : '\'' ∈ setting key env) : env key.name = some (setting key env) := by
  rw [setting, getOr] at h ⊢
  split
  · exact absurd h (by simp_all [default_plain])
  · exact absurd h (by simp_all [default_plain])
  · assumption

theorem isEnabled_of_quoted {value : List Char} (h : '\'' ∈ value) :
    isEnabled (some value) = false := by
  have htrue : some value ≠ some "true".toList := fun heq =>
    absurd (Option.some.inj heq ▸ h) (by decide)
  have hone : some value ≠ some "1".toList := fun heq =>
    absurd (Option.some.inj heq ▸ h) (by decide)
  rw [isEnabled, decide_eq_false htrue, decide_eq_false hone]
  rfl

theorem isEnabled_setting (env : Env) :
    isEnabled (some (setting seedApiKey env)) = isEnabled (env seedApiKey.name) := by
  rw [setting, getOr]
  split
  · rename_i h
    rw [h]
    decide
  · rename_i h
    rw [h]
    decide
  · rename_i h
    rw [h]

theorem countryOf_quoted {value : List Char} (h : '\'' ∈ value) : countryOf value = .text value := by
  rw [countryOf]
  split
  · rename_i n hn
    have hchars := parseInt?_chars hn h
    exact absurd hchars (by decide)
  · rfl

theorem countryOf_eq_text {value v : List Char} (h : countryOf value = .text v) : value = v := by
  rw [countryOf] at h
  split at h
  · cases h
  · exact Country.text.inj h

theorem mem_seedKeys (key : SeedKey) : key ∈ seedKeys.toFinset := by
  cases key <;> decide

theorem setting_eq_of_config (h : configFromEnv env' = configFromEnv env) (hkey : key ≠ seedApiKey)
    (hq : '\'' ∈ setting key env) : setting key env' = setting key env := by
  cases key with
  | adminUser => exact congrArg Config.username h
  | adminPass => exact congrArg Config.password h
  | country =>
    have hcountry := congrArg Config.country h
    change countryOf (setting country env') = countryOf (setting country env) at hcountry
    rw [countryOf_quoted hq] at hcountry
    exact countryOf_eq_text hcountry
  | timezone => exact congrArg Config.timezone h
  | consoleName => exact congrArg Config.consoleName h
  | seedApiKey => exact absurd rfl hkey
  | apiKeyName => exact congrArg Config.keyName h
  | apiKeyFile => exact congrArg Config.keyFile h

theorem config_of_settings (h : ∀ key, key ≠ seedApiKey → setting key env' = setting key env)
    (hflag : isEnabled (env' seedApiKey.name) = isEnabled (env seedApiKey.name)) :
    configFromEnv env' = configFromEnv env := by
  simp only [configFromEnv, hflag, h adminUser (by decide), h adminPass (by decide),
    h country (by decide), h timezone (by decide), h consoleName (by decide),
    h apiKeyName (by decide), h apiKeyFile (by decide)]

/-- A quoted setting that the unit is given back was read out of a setting. -/
theorem readOutOf_of_agrees (h : configFromEnv (unitEnv env) = configFromEnv env)
    (hkey : key ≠ seedApiKey) (hq : '\'' ∈ setting key env) :
    unitEnv env key.name = some (setting key env) ∧
      ∃ other ∈ seedKeys, ReadOutOf (setting key env) (setting other env) := by
  have heq := setting_eq_of_config h hkey hq
  have hget := env_of_quoted (heq.symm ▸ hq : '\'' ∈ setting key (unitEnv env))
  rw [heq] at hget
  exact ⟨hget, readOutOf_of_mem_read (mem_of_environment hget) (name_plain key) hq⟩

/-- Take the settings with the most newlines after their first quote, and of those one with the
fewest quotes: nothing in the file can be read as that value. -/
theorem lateLines_of_agrees (hflag : lateLines (setting seedApiKey env) = 0)
    (h : configFromEnv (unitEnv env) = configFromEnv env) (key : SeedKey) :
    lateLines (setting key env) = 0 := by
  obtain ⟨top, -, htop⟩ := Finset.exists_max_image seedKeys.toFinset
    (fun key => lateLines (setting key env)) ⟨key, mem_seedKeys key⟩
  obtain ⟨least, hleast, hmin⟩ := Finset.exists_min_image
    (seedKeys.toFinset.filter fun key => lateLines (setting key env) = lateLines (setting top env))
    (fun key => quotes (setting key env)) ⟨top, Finset.mem_filter.mpr ⟨mem_seedKeys top, rfl⟩⟩
  have hlate := (Finset.mem_filter.mp hleast).2
  by_contra hkey
  have hle := htop key (mem_seedKeys key)
  have hpos : lateLines (setting least env) ≠ 0 := by omega
  have hq : '\'' ∈ setting least env := by
    by_contra hplain
    exact hpos (lateLines_eq_zero hplain)
  have hne : least ≠ seedApiKey := fun heq => hpos (heq ▸ hflag)
  obtain ⟨-, other, -, hout⟩ := readOutOf_of_agrees h hne hq
  have hother := htop other (mem_seedKeys other)
  rcases hout with hout | ⟨hout, hfewer⟩
  · omega
  · have hmem : other ∈ seedKeys.toFinset.filter fun key =>
        lateLines (setting key env) = lateLines (setting top env) := by
      rw [Finset.mem_filter]
      exact ⟨mem_seedKeys other, by omega⟩
    have := hmin other hmem
    omega

theorem unitEnv_name (env : Env) (h : ∀ key, lateLines (setting key env) = 0) :
    ∃ received : SeedKey → List Char, ∀ key, unitEnv env key.name = some (received key) ∧
      ('\'' ∉ setting key env → received key = setting key env) ∧
      ('\'' ∈ setting key env → '\'' ∈ received key ∧ received key ≠ setting key env) := by
  obtain ⟨received, hrun, hreceived⟩ := run_lines (fun key => setting key env) h
  refine ⟨received, fun key => ⟨?_, hreceived key⟩⟩
  rw [unitEnv, EnvFile.read, seedOwnerEnv, hrun]
  simpa [finish] using environment_map received key

/-- When no newline follows a quote in the key flag, the seed step sees the settings the container
was given exactly if no other setting holds a single quote. -/
theorem configFromEnv_unitEnv_iff (env : Env) (hflag : lateLines (setting seedApiKey env) = 0) :
    configFromEnv (unitEnv env) = configFromEnv env ↔
      ∀ key, key ≠ seedApiKey → '\'' ∉ setting key env := by
  constructor
  · intro h key hkey hq
    obtain ⟨received, hreceived⟩ := unitEnv_name env (lateLines_of_agrees hflag h)
    have hget := (readOutOf_of_agrees h hkey hq).1
    rw [(hreceived key).1] at hget
    exact ((hreceived key).2.2 hq).2 (Option.some.inj hget)
  · intro hplain
    have hlate : ∀ key, lateLines (setting key env) = 0 := by
      intro key
      by_cases hkey : key = seedApiKey
      · rw [hkey, hflag]
      · exact lateLines_eq_zero (hplain key hkey)
    obtain ⟨received, hreceived⟩ := unitEnv_name env hlate
    apply config_of_settings
    · intro key hkey
      have heq := (hreceived key).2.1 (hplain key hkey)
      rw [setting_of_some (hreceived key).1 (heq ▸ setting_ne_nil key env), heq]
    · rw [(hreceived seedApiKey).1, ← isEnabled_setting env]
      by_cases hq : '\'' ∈ setting seedApiKey env
      · rw [isEnabled_of_quoted hq, isEnabled_of_quoted ((hreceived seedApiKey).2.2 hq).1]
      · rw [(hreceived seedApiKey).2.1 hq]

/-- The password `it's` reaches the seed step as `it''s'`. -/
def apostropheEnv : Env := fun name =>
  if name = adminPass.name then some "it's".toList else none

theorem apostrophe_config :
    ¬ ∀ env, configFromEnv (unitEnv env) = configFromEnv env := by
  intro h
  have := congrArg Config.password (h apostropheEnv)
  revert this
  decide

theorem configFromEnv_unitEnv_spaced :
    configFromEnv (unitEnv fun name =>
      if name = consoleName.name then some "a \"b\" \\ $c\n#d".toList else none) =
    configFromEnv fun name =>
      if name = consoleName.name then some "a \"b\" \\ $c\n#d".toList else none :=
  (configFromEnv_unitEnv_iff _ (by decide)).mpr (by intro key; cases key <;> decide)

end

end UnifiContainers.SeedEnv
