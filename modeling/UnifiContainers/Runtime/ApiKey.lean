import UnifiContainers.Lib.PyText
import UnifiContainers.Lib.Traced

/-!
# Publishing the API key

One call of `ensureApiKey` proves the key in the key file, or has a new one minted, proves that
and replaces the file. A call returns, or raises, after a trace of requests and file operations;
what the disk holds after any part of the trace is what a reader, or the next boot after a kill at
that point, finds there.
-/

namespace UnifiContainers.UosOwner

open PyText

/-! ### Calls -/

inductive Event where
  /-- The key probe answered with a status; 0 is no answer. -/
  | probed (key : String) (status : ℕ)
  | ownerInfo (id : Option String)
  | minted (owner : String) (key : Option String)
  | opened (done : Bool)
  /-- The first `count` characters of `text` reached the temporary file. -/
  | wrote (text : List Char) (count : ℕ)
  | chmod (done : Bool)
  | replaced (done : Bool)
  | removed (done : Bool)
  | logged (line : String)
  deriving DecidableEq, Repr

abbrev Call := Traced Event

def log (line : String) : Call Unit := Traced.emit (.logged line)

@[simp]
theorem log_bind {α : Type} (line : String) (f : Unit → Call α) :
    (log line >>= f) = ⟨.logged line :: (f ()).trace, (f ()).result⟩ := rfl

/-! ### The key probe -/

inductive KeyVerdict where
  | ok
  | rejected
  | noVerdict
  deriving DecidableEq, Repr

def keyCheckAttempts : ℕ := 36

def ownerWaitAttempts : ℕ := 60

/-- A header value the HTTP client refuses with an exception: a line break that does not continue
the header, or a character outside Latin-1. -/
def illegalHeader : List Char → Bool
  | [] => false
  | c :: rest =>
      (c = '\n' && !(rest.head?.any fun d => d = ' ' || d = '\t')) ||
        (c = '\r' && !(rest.head?.any fun d => d = ' ' || d = '\t' || d = '\n')) ||
        255 < c.toNat || illegalHeader rest

def showStatus (status : ℕ) : String := String.ofList (str status)

/-- The attempts of `key_check` that are left, `last` being the status before them. -/
def probeLoop (key : String) (attempts : ℕ) : Option ℕ → List ℕ → Call KeyVerdict
  | last, [] => do
      log ("no verdict on the API key after " ++ showStatus attempts ++ " attempts (last HTTP " ++
        (last.map showStatus).getD "None" ++ ") — the key probe never answered")
      return .noVerdict
  | _, code :: rest =>
      if code = 200 then ⟨[.probed key code], some .ok⟩
      else if code = 401 ∨ code = 403 then
        ⟨[.probed key code, .logged ("API key rejected by the console (HTTP " ++ showStatus code ++
          ")")], some .rejected⟩
      else
        let more := probeLoop key attempts (some code) rest
        ⟨.probed key code :: more.trace, more.result⟩

/-- `key_check`, `answers` being what the console answers to its attempts. -/
def keyCheck (key : String) (answers : ℕ → ℕ) : Call KeyVerdict :=
  if illegalHeader key.toList then ⟨[], none⟩
  else probeLoop key keyCheckAttempts none ((List.range keyCheckAttempts).map answers)

/-! ### The key file -/

inductive KeyFile where
  | absent
  | unreadable
  | text (content : List Char)
  deriving DecidableEq, Repr

/-- `_read_key`: the stripped text, empty when the file cannot be opened. -/
def readKey : KeyFile → String
  | .text content => String.ofList (strip (universalNewlines content))
  | .absent | .unreadable => ""

/-- The key file and the temporary file beside it. -/
structure Disk where
  keyFile : KeyFile
  tmp : Option (List Char)
  deriving DecidableEq, Repr

def Disk.apply (d : Disk) : Event → Disk
  | .opened true => { d with tmp := some [] }
  | .wrote text count => { d with tmp := some (text.take count) }
  | .replaced true =>
      match d.tmp with
      | some content => ⟨.text content, none⟩
      | none => d
  | .removed true => { d with tmp := none }
  | _ => d

structure Faults where
  opened : Bool
  /-- `some count`: writing or closing fails with `count` characters out. -/
  written : Option ℕ
  chmod : Bool
  replaced : Bool
  removed : Bool
  deriving DecidableEq, Repr

def noFaults : Faults := ⟨false, none, false, false, false⟩

/-- Write the key to a temporary file and rename it over the key file; on a failure remove the
temporary file. -/
def publishKey (faults : Faults) (key : String) : Call Bool :=
  let text := key.toList ++ ['\n']
  let failed (sofar : List Event) : Call Bool := ⟨sofar ++ [.removed (!faults.removed)], some false⟩
  if faults.opened then failed [.opened false]
  else
    match faults.written with
    | some count => failed [.opened true, .wrote text count]
    | none =>
        let sofar := [.opened true, .wrote text text.length]
        if faults.chmod then failed (sofar ++ [.chmod false])
        else if faults.replaced then failed (sofar ++ [.chmod true, .replaced false])
        else ⟨sofar ++ [.chmod true, .replaced true], some true⟩

/-! ### One call -/

structure Config where
  keyFile : String
  keyName : String
  ulpBaseUrl : String

/-- What the console answers during one call: to the probes of the key in the file, to the owner
queries, to the mint, and to the probes of the minted key. -/
structure Console where
  existing : ℕ → ℕ
  owner : ℕ → Option String
  mint : Option String
  minted : ℕ → ℕ

def waitForOwnerId (cfg : Config) : List (Option String) → Call (Option String)
  | [] => do
      log ("FAILED: ULP never reported an owner id at " ++ cfg.ulpBaseUrl ++ "/api/v2/info")
      return none
  | id :: rest =>
      match id.filter (· ≠ "") with
      | some owner => ⟨[.ownerInfo id], some (some owner)⟩
      | none =>
          let more := waitForOwnerId cfg rest
          ⟨.ownerInfo id :: more.trace, more.result⟩

def mintKey (owner : String) (answer : Option String) : Call (Option String) :=
  ⟨[.minted owner (answer.filter (· ≠ ""))], some (answer.filter (· ≠ ""))⟩

variable (cfg : Config) (console : Console) (faults : Faults)

/-- `ensure_api_key` from the owner query on. -/
def mintAndPublish : Call Bool := do
  match ← waitForOwnerId cfg ((List.range ownerWaitAttempts).map console.owner) with
  | none => return false
  | some owner =>
      match ← mintKey owner console.mint with
      | none =>
          log ("FAILED to mint API key: POST " ++ cfg.ulpBaseUrl ++
            "/api/v2/user/<owner>/keys")
          return false
      | some key =>
          match ← keyCheck key console.minted with
          | .ok =>
              if ← publishKey faults key then
                log ("minted API key '" ++ cfg.keyName ++ "': " ++ key ++ " -> " ++ cfg.keyFile)
                return true
              else
                log ("FAILED to write " ++ cfg.keyFile)
                return false
          | _ =>
              log "FAILED: minted key does not authenticate the key probe"
              return false

/-- Publish a working key at the key file. -/
def ensureApiKey (file : KeyFile) : Call Bool :=
  let existing := readKey file
  if existing = "" then mintAndPublish cfg console faults
  else do
    match ← keyCheck existing console.existing with
    | .ok =>
        log ("reusing API key from " ++ cfg.keyFile ++ ": " ++ existing)
        return true
    | .noVerdict => return false
    | .rejected =>
        log "minting a replacement"
        mintAndPublish cfg console faults

/-! ### What a call can do -/

def Event.IsWait : Event → Prop
  | .ownerInfo _ | .logged _ => True
  | _ => False

def Event.IsProbe (key : String) : Event → Prop
  | .probed k _ => k = key
  | .logged _ => True
  | _ => False

def Event.IsFileOp : Event → Prop
  | .opened _ | .wrote _ _ | .chmod _ | .replaced _ | .removed _ => True
  | _ => False

def Decisive (status : ℕ) : Prop := status = 200 ∨ status = 401 ∨ status = 403

instance (status : ℕ) : Decidable (Decisive status) := inferInstanceAs (Decidable (_ ∨ _))

def firstDecisive (answers : ℕ → ℕ) : Option ℕ :=
  ((List.range keyCheckAttempts).map answers).find? fun status => Decisive status

/-- How `mintAndPublish` can end. -/
inductive Minting (console : Console) (faults : Faults) : Call Bool → Prop where
  | noOwner {t} (ht : ∀ e ∈ t, e.IsWait) : Minting console faults ⟨t, some false⟩
  | noKey {t owner line} (ht : ∀ e ∈ t, e.IsWait) :
      Minting console faults ⟨t ++ [.minted owner none, .logged line], some false⟩
  | raised {t owner key} (ht : ∀ e ∈ t, e.IsWait) (hkey : console.mint = some key) (hne : key ≠ "")
      (hcheck : (keyCheck key console.minted).result = none) :
      Minting console faults
        ⟨t ++ .minted owner (some key) :: (keyCheck key console.minted).trace, none⟩
  | unproven {t owner key verdict line} (ht : ∀ e ∈ t, e.IsWait) (hkey : console.mint = some key)
      (hne : key ≠ "") (hcheck : (keyCheck key console.minted).result = some verdict)
      (hverdict : verdict ≠ .ok) :
      Minting console faults ⟨t ++ .minted owner (some key) ::
        ((keyCheck key console.minted).trace ++ [.logged line]), some false⟩
  | proven {t owner key ops done line} (ht : ∀ e ∈ t, e.IsWait) (hkey : console.mint = some key)
      (hne : key ≠ "") (hcheck : (keyCheck key console.minted).result = some .ok)
      (hpublish : publishKey faults key = ⟨ops, some done⟩) :
      Minting console faults ⟨t ++ .minted owner (some key) ::
        ((keyCheck key console.minted).trace ++ (ops ++ [.logged line])), some done⟩

inductive Ensuring (console : Console) (faults : Faults) (file : KeyFile) : Call Bool → Prop where
  | fresh {call} (hnone : readKey file = "") (hmint : Minting console faults call) :
      Ensuring console faults file call
  | raised (hkey : readKey file ≠ "")
      (hcheck : (keyCheck (readKey file) console.existing).result = none) :
      Ensuring console faults file ⟨(keyCheck (readKey file) console.existing).trace, none⟩
  | reused {line} (hkey : readKey file ≠ "")
      (hcheck : (keyCheck (readKey file) console.existing).result = some .ok) :
      Ensuring console faults file
        ⟨(keyCheck (readKey file) console.existing).trace ++ [.logged line], some true⟩
  | kept (hkey : readKey file ≠ "")
      (hcheck : (keyCheck (readKey file) console.existing).result = some .noVerdict) :
      Ensuring console faults file ⟨(keyCheck (readKey file) console.existing).trace, some false⟩
  | replaced {line call} (hkey : readKey file ≠ "")
      (hcheck : (keyCheck (readKey file) console.existing).result = some .rejected)
      (hmint : Minting console faults call) :
      Ensuring console faults file
        ⟨(keyCheck (readKey file) console.existing).trace ++ .logged line :: call.trace, call.result⟩

section

variable {cfg : Config} {console : Console} {faults : Faults} {file : KeyFile} {key : String}
  {answers : ℕ → ℕ}

private theorem waitForOwnerId_ends (cfg : Config) (ids : List (Option String)) :
    ∃ t owner, waitForOwnerId cfg ids = ⟨t, some owner⟩ ∧ ∀ e ∈ t, e.IsWait := by
  induction ids with
  | nil => exact ⟨_, none, rfl, by simp [log, Traced.emit, Event.IsWait]⟩
  | cons id rest ih =>
      obtain ⟨t, owner, hrest, ht⟩ := ih
      simp only [waitForOwnerId]
      split
      · rename_i found hfound
        exact ⟨_, some found, rfl, by simp [Event.IsWait]⟩
      · rw [hrest]
        refine ⟨_, owner, rfl, fun e he => ?_⟩
        rcases List.mem_cons.mp he with rfl | he
        · trivial
        · exact ht e he

theorem publishKey_returns (faults : Faults) (key : String) :
    ∃ ops done, publishKey faults key = ⟨ops, some done⟩ := by
  simp only [publishKey]
  repeat' split
  all_goals exact ⟨_, _, rfl⟩

theorem mintAndPublish_minting : Minting console faults (mintAndPublish cfg console faults) := by
  obtain ⟨t, owner, hwait, ht⟩ :=
    waitForOwnerId_ends cfg ((List.range ownerWaitAttempts).map console.owner)
  rw [mintAndPublish, hwait, Traced.bind_some]
  cases owner with
  | none =>
      simp only [Traced.pure_def, List.append_nil]
      exact .noOwner ht
  | some owner =>
      cases hmint : console.mint.filter (· ≠ "") with
      | none =>
          simp only [mintKey, hmint, Traced.bind_some, log_bind, Traced.pure_def]
          exact .noKey ht
      | some key =>
          obtain ⟨hkey, hne⟩ := Option.filter_eq_some_iff.mp hmint
          have hne : key ≠ "" := by simpa using hne
          simp only [mintKey, hmint, Traced.bind_some]
          cases hcheck : keyCheck key console.minted with
          | mk trace result =>
          have htrace : (keyCheck key console.minted).trace = trace := by rw [hcheck]
          have hresult : (keyCheck key console.minted).result = result := by rw [hcheck]
          cases result with
          | none =>
              rw [Traced.bind_none, ← htrace]
              exact .raised ht hkey hne hresult
          | some verdict =>
              obtain ⟨ops, done, hpublish⟩ := publishKey_returns faults key
              cases verdict with
              | ok =>
                  rw [Traced.bind_some, hpublish, Traced.bind_some, ← htrace]
                  cases done
                  · exact .proven ht hkey hne hresult hpublish
                  · exact .proven ht hkey hne hresult hpublish
              | rejected =>
                  rw [Traced.bind_some, ← htrace]
                  exact .unproven ht hkey hne hresult (by simp)
              | noVerdict =>
                  rw [Traced.bind_some, ← htrace]
                  exact .unproven ht hkey hne hresult (by simp)

theorem ensureApiKey_ensuring :
    Ensuring console faults file (ensureApiKey cfg console faults file) := by
  rw [ensureApiKey]
  split
  · rename_i hnone
    exact .fresh hnone mintAndPublish_minting
  · rename_i hkey
    cases hcheck : keyCheck (readKey file) console.existing with
    | mk trace result =>
    have htrace : (keyCheck (readKey file) console.existing).trace = trace := by rw [hcheck]
    have hresult : (keyCheck (readKey file) console.existing).result = result := by rw [hcheck]
    cases result with
    | none =>
        rw [Traced.bind_none, ← htrace]
        exact .raised hkey hresult
    | some verdict =>
        rw [Traced.bind_some, ← htrace]
        cases verdict with
        | ok => exact .reused hkey hresult
        | noVerdict =>
            simp only [Traced.pure_def, List.append_nil]
            exact .kept hkey hresult
        | rejected => exact .replaced hkey hresult mintAndPublish_minting

/-! ### Key checks and publishing -/

private theorem probeLoop_trace (n : ℕ) (last : Option ℕ) (codes : List ℕ) :
    ∀ e ∈ (probeLoop key n last codes).trace, e.IsProbe key := by
  induction codes generalizing last with
  | nil => simp [probeLoop, Event.IsProbe]
  | cons code rest ih =>
      intro e he
      rw [probeLoop] at he
      split at he
      · rw [List.mem_singleton.mp he]
        exact rfl
      · split at he
        · rcases List.mem_cons.mp he with rfl | he
          · exact rfl
          · rw [List.mem_singleton.mp he]
            trivial
        · rcases List.mem_cons.mp he with rfl | he
          · exact rfl
          · exact ih (some code) e he

private theorem probeLoop_result (n : ℕ) (last : Option ℕ) (codes : List ℕ) :
    (probeLoop key n last codes).result =
      some (match codes.find? fun status => Decisive status with
        | some code => if code = 200 then .ok else .rejected
        | none => .noVerdict) := by
  induction codes generalizing last with
  | nil => rfl
  | cons code rest ih =>
      rw [probeLoop]
      by_cases hok : code = 200
      · simp [hok, Decisive]
      · by_cases hrej : code = 401 ∨ code = 403
        · simp [hok, hrej, Decisive]
        · simp only [if_neg hok, if_neg hrej, ih]
          rw [List.find?_cons_of_neg (by simp [Decisive, hok, hrej])]

private theorem probeLoop_probed (n : ℕ) (last : Option ℕ) (codes : List ℕ) :
    .probed key 200 ∈ (probeLoop key n last codes).trace ↔
      (codes.find? fun status => Decisive status) = some 200 := by
  induction codes generalizing last with
  | nil => simp [probeLoop]
  | cons code rest ih =>
      rw [probeLoop]
      by_cases hok : code = 200
      · simp [hok, Decisive]
      · by_cases hrej : code = 401 ∨ code = 403
        · have hdec : Decisive code := Or.inr hrej
          simp [hok, hrej, hdec, Ne.symm hok]
        · rw [if_neg hok, if_neg hrej, List.find?_cons_of_neg (by simp [Decisive, hok, hrej]),
            ← ih (some code)]
          simp [Ne.symm hok]

theorem keyCheck_trace (key : String) (answers : ℕ → ℕ) :
    ∀ e ∈ (keyCheck key answers).trace, e.IsProbe key := by
  rw [keyCheck]
  split
  · simp
  · exact probeLoop_trace _ _ _

theorem keyCheck_raises_iff :
    (keyCheck key answers).result = none ↔ illegalHeader key.toList = true := by
  rw [keyCheck]
  split
  · rename_i hlegal
    simp [hlegal]
  · rename_i hlegal
    rw [probeLoop_result]
    simpa using hlegal

theorem keyCheck_result {verdict : KeyVerdict} (h : (keyCheck key answers).result = some verdict) :
    verdict = match firstDecisive answers with
      | some code => if code = 200 then .ok else .rejected
      | none => .noVerdict := by
  rw [keyCheck] at h
  split at h
  · cases h
  · rw [probeLoop_result] at h
    exact (Option.some.inj h).symm

theorem firstDecisive_decisive {code : ℕ} (h : firstDecisive answers = some code) :
    Decisive code := by
  simpa using List.find?_some h

theorem keyCheck_ok_iff :
    (keyCheck key answers).result = some .ok ↔ .probed key 200 ∈ (keyCheck key answers).trace := by
  by_cases hlegal : illegalHeader key.toList = true
  · simp [keyCheck, hlegal]
  · simp only [keyCheck, hlegal, Bool.false_eq_true, if_false]
    rw [probeLoop_result, probeLoop_probed, Option.some.injEq]
    split
    · rename_i code hcode
      rw [hcode]
      split <;> simp_all
    · rename_i hnone
      simp [hnone]

private theorem probeLoop_rejected (n : ℕ) (last : Option ℕ) (codes : List ℕ)
    (h : (probeLoop key n last codes).result = some .rejected) :
    ∃ status, (status = 401 ∨ status = 403) ∧
      .probed key status ∈ (probeLoop key n last codes).trace := by
  induction codes generalizing last with
  | nil => cases h
  | cons code rest ih =>
      rw [probeLoop] at h ⊢
      by_cases hok : code = 200
      · simp [hok] at h
      · by_cases hrej : code = 401 ∨ code = 403
        · exact ⟨code, hrej, by simp [hok, hrej]⟩
        · rw [if_neg hok, if_neg hrej] at h ⊢
          obtain ⟨status, hstatus, hmem⟩ := ih (some code) h
          exact ⟨status, hstatus, List.mem_cons_of_mem _ hmem⟩

theorem keyCheck_rejected (h : (keyCheck key answers).result = some .rejected) :
    ∃ status, (status = 401 ∨ status = 403) ∧
      .probed key status ∈ (keyCheck key answers).trace := by
  rw [keyCheck] at h ⊢
  split at h
  · cases h
  · rename_i hlegal
    rw [if_neg hlegal]
    exact probeLoop_rejected _ _ _ h

def publication (key : String) : List Event :=
  let text := key.toList ++ ['\n']
  [.opened true, .wrote text text.length, .chmod true, .replaced true]

theorem publishKey_done {ops : List Event} (h : publishKey faults key = ⟨ops, some true⟩) :
    ops = publication key := by
  simp only [publishKey] at h
  repeat' split at h
  all_goals first
    | exact (Traced.mk.inj h).1.symm
    | simp at h

theorem publishKey_failed {ops : List Event} (h : publishKey faults key = ⟨ops, some false⟩) :
    ∀ e ∈ ops, e.IsFileOp ∧ e ≠ .replaced true := by
  simp only [publishKey] at h
  repeat' split at h
  all_goals
    obtain ⟨rfl, hdone⟩ := Traced.mk.inj h
    cases hdone <;> simp [Event.IsFileOp]

/-! ### What the disk holds -/

/-- The key file after some of a call's operations. -/
def keyFileAfter (d : Disk) (events : List Event) : KeyFile :=
  (events.foldl Disk.apply d).keyFile

theorem apply_keyFile {d : Disk} {e : Event} (h : e ≠ .replaced true) :
    (d.apply e).keyFile = d.keyFile := by
  unfold Disk.apply
  split
  any_goals rfl
  exact absurd rfl h

theorem keyFileAfter_of_quiet {events : List Event} (d : Disk)
    (h : ∀ e ∈ events, e ≠ .replaced true) : keyFileAfter d events = d.keyFile := by
  induction events generalizing d with
  | nil => rfl
  | cons e events ih =>
      rw [keyFileAfter, List.foldl_cons, ← keyFileAfter, ih _ fun e he => h e (by simp [he])]
      exact apply_keyFile (h e (by simp))

theorem keyFileAfter_published (before : List Event) (d : Disk) (line : String) :
    keyFileAfter d (before ++ (publication key ++ [.logged line])) =
      .text (key.toList ++ ['\n']) := by
  have hall : (key.toList ++ ['\n']).take (key.toList.length + 1) = key.toList ++ ['\n'] :=
    List.take_of_length_le (by simp)
  simp [keyFileAfter, publication, Disk.apply, hall]

/-- A publication leaves the old file up to its rename and the whole key after it. -/
theorem keyFileAfter_publication {before sofar : List Event} (d : Disk) (line : String)
    (hquiet : ∀ e ∈ before, e ≠ .replaced true)
    (hsofar : sofar <+: before ++ (publication key ++ [.logged line])) :
    keyFileAfter d sofar = d.keyFile ∨
      (before <+: sofar ∧ keyFileAfter d sofar = .text (key.toList ++ ['\n'])) := by
  rcases List.prefix_or_prefix_of_prefix hsofar (List.prefix_append before _) with hin | hout
  · exact Or.inl (keyFileAfter_of_quiet d fun e he => hquiet e (hin.subset he))
  · obtain ⟨more, rfl⟩ := hout
    have hold : (before.foldl Disk.apply d).keyFile = d.keyFile := keyFileAfter_of_quiet d hquiet
    have hmore := (List.prefix_append_right_inj before).mp hsofar
    simp only [publication, List.cons_append, List.nil_append, List.prefix_cons_iff,
      List.prefix_nil] at hmore
    rcases hmore with rfl | ⟨_, rfl, rfl | ⟨_, rfl, rfl | ⟨_, rfl, rfl | ⟨_, rfl, hlast⟩⟩⟩⟩
    · exact Or.inl (by simpa [keyFileAfter] using hold)
    · exact Or.inl (by simpa [keyFileAfter, Disk.apply] using hold)
    · exact Or.inl (by simpa [keyFileAfter, Disk.apply] using hold)
    · exact Or.inl (by simpa [keyFileAfter, Disk.apply] using hold)
    · have hall : (key.toList ++ ['\n']).take (key.toList.length + 1) = key.toList ++ ['\n'] :=
        List.take_of_length_le (by simp)
      refine Or.inr ⟨List.prefix_append _ _, ?_⟩
      rcases hlast with rfl | ⟨_, rfl, rfl⟩
      · simp [keyFileAfter, Disk.apply, hall]
      · simp [keyFileAfter, Disk.apply, hall]

/-! ### The discipline of one call -/

def Event.isMint : Event → Bool
  | .minted _ _ => true
  | _ => false

theorem IsWait.quiet {e : Event} (h : e.IsWait) :
    e ≠ .replaced true ∧ e.isMint = false ∧ ∀ k status, e ≠ .probed k status := by
  cases e <;> simp_all [Event.IsWait, Event.isMint]

theorem IsProbe.quiet {e : Event} (h : e.IsProbe key) :
    e ≠ .replaced true ∧ e.isMint = false ∧ ∀ k status, e = .probed k status → k = key := by
  cases e <;> simp_all [Event.IsProbe, Event.isMint]

private theorem IsFileOp.quiet {e : Event} (h : e.IsFileOp) :
    e.isMint = false ∧ ∀ k status, e ≠ .probed k status := by
  cases e <;> simp_all [Event.IsFileOp, Event.isMint]

structure Minted (console : Console) (call : Call Bool) : Prop where
  once : call.trace.countP Event.isMint ≤ 1
  published : call.result = some true → ∃ before owner key line,
    call.trace = before ++ (publication key ++ [.logged line]) ∧
      (∀ e ∈ before, e ≠ .replaced true) ∧ .minted owner (some key) ∈ before ∧
      .probed key 200 ∈ before ∧ console.mint = some key
  quiet : call.result ≠ some true → ∀ e ∈ call.trace, e ≠ .replaced true
  probed : ∀ k status, .probed k status ∈ call.trace →
    k ≠ "" ∧ ∃ owner, .minted owner (some k) ∈ call.trace

private theorem countP_mint {events : List Event} (h : ∀ e ∈ events, e.isMint = false) :
    events.countP Event.isMint = 0 :=
  List.countP_eq_zero.mpr fun e he => by simp [h e he]

theorem noRename_logged (line : String) : ∀ e ∈ [Event.logged line], e ≠ .replaced true := by
  simp

private theorem notMint_logged (line : String) : ∀ e ∈ [Event.logged line],
    e.isMint = false ∧ ∀ k status, e ≠ .probed k status := by
  simp [Event.isMint]

private theorem one_mint (key : String) (owner : String) (answer : Option String)
    {t check ops : List Event} (ht : ∀ e ∈ t, e.IsWait) (hcheck : ∀ e ∈ check, e.IsProbe key)
    (hops : ∀ e ∈ ops, e.isMint = false ∧ ∀ k status, e ≠ .probed k status) :
    (t ++ .minted owner answer :: (check ++ ops)).countP Event.isMint ≤ 1 ∧
      ∀ k status, .probed k status ∈ t ++ .minted owner answer :: (check ++ ops) →
        k = key ∧ .probed k status ∈ check := by
  constructor
  · rw [List.countP_append, List.countP_cons, List.countP_append,
      countP_mint fun e he => (IsWait.quiet (ht e he)).2.1,
      countP_mint fun e he => (IsProbe.quiet (hcheck e he)).2.1,
      countP_mint fun e he => (hops e he).1]
    simp [Event.isMint]
  · intro k status h
    simp only [List.mem_append, List.mem_cons] at h
    rcases h with h | h | h | h
    · exact absurd rfl ((IsWait.quiet (ht _ h)).2.2 k status)
    · cases h
    · exact ⟨(IsProbe.quiet (hcheck _ h)).2.2 k status rfl, h⟩
    · exact absurd rfl ((hops _ h).2 k status)

private theorem mint_noRename (owner : String) (answer : Option String) {key : String}
    {t check ops : List Event} (ht : ∀ e ∈ t, e.IsWait) (hcheck : ∀ e ∈ check, e.IsProbe key)
    (hops : ∀ e ∈ ops, e ≠ .replaced true) :
    ∀ e ∈ t ++ .minted owner answer :: (check ++ ops), e ≠ .replaced true := by
  intro e he
  simp only [List.mem_append, List.mem_cons] at he
  rcases he with he | rfl | he | he
  · exact (IsWait.quiet (ht e he)).1
  · simp
  · exact (IsProbe.quiet (hcheck e he)).1
  · exact hops e he

theorem Minting.minted {call : Call Bool} (h : Minting console faults call) :
    Minted console call := by
  cases h with
  | @noOwner t ht =>
      refine ⟨?_, by simp, fun _ e he => (IsWait.quiet (ht e he)).1, fun k status hk => ?_⟩
      · rw [countP_mint fun e he => (IsWait.quiet (ht e he)).2.1]
        exact Nat.zero_le 1
      · exact absurd rfl ((IsWait.quiet (ht _ hk)).2.2 k status)
  | @noKey t owner line ht =>
      have hnil : ∀ e ∈ [], Event.IsProbe "" e := List.forall_mem_nil _
      obtain ⟨honce, hprobed⟩ := one_mint "" owner none ht hnil (notMint_logged line)
      refine ⟨honce, by simp, fun _ => mint_noRename _ _ ht hnil (noRename_logged line), ?_⟩
      intro k status hk
      exact absurd (hprobed k status hk).2 (by simp)
  | @raised t owner key ht hkey hne hcheck =>
      have hprobes := keyCheck_trace key console.minted
      obtain ⟨honce, hprobed⟩ := one_mint key owner (some key) ht hprobes (List.forall_mem_nil _)
      have hquiet := mint_noRename owner (some key) ht hprobes
        (List.forall_mem_nil _)
      rw [List.append_nil] at honce hprobed hquiet
      refine ⟨honce, by simp, fun _ => hquiet, fun k status hk => ?_⟩
      rw [(hprobed k status hk).1]
      exact ⟨hne, owner, by simp⟩
  | @unproven t owner key verdict line ht hkey hne hcheck hverdict =>
      have hprobes := keyCheck_trace key console.minted
      obtain ⟨honce, hprobed⟩ := one_mint key owner (some key) ht hprobes (notMint_logged line)
      refine ⟨honce, by simp, fun _ => mint_noRename _ _ ht hprobes (noRename_logged line), ?_⟩
      intro k status hk
      rw [(hprobed k status hk).1]
      exact ⟨hne, owner, by simp⟩
  | @proven t owner key ops done line ht hkey hne hcheck hpublish =>
      have hfile : ∀ e ∈ ops, e.IsFileOp := by
        intro e he
        cases done with
        | false => exact (publishKey_failed hpublish e he).1
        | true =>
            rw [publishKey_done hpublish] at he
            simp only [publication, List.mem_cons, List.not_mem_nil, or_false] at he
            rcases he with rfl | rfl | rfl | rfl <;> trivial
      have hops := List.forall_mem_append.mpr
        ⟨fun e he => IsFileOp.quiet (hfile e he), notMint_logged line⟩
      have hprobes := keyCheck_trace key console.minted
      obtain ⟨honce, hprobed⟩ := one_mint key owner (some key) ht hprobes hops
      have hproven : .probed key 200 ∈ (keyCheck key console.minted).trace :=
        keyCheck_ok_iff.mp hcheck
      refine ⟨honce, fun hdone => ?_, fun hdone => ?_, fun k status hk => ?_⟩
      · cases hdone
        rw [publishKey_done hpublish]
        have hbefore := mint_noRename owner (some key) ht hprobes
          (List.forall_mem_nil _)
        rw [List.append_nil] at hbefore
        exact ⟨t ++ .minted owner (some key) :: (keyCheck key console.minted).trace, owner, key,
          line, by simp, hbefore, by simp, by simp [hproven], hkey⟩
      · cases done with
        | false =>
            exact mint_noRename _ _ ht hprobes (List.forall_mem_append.mpr
              ⟨fun e he => (publishKey_failed hpublish e he).2, noRename_logged line⟩)
        | true => exact absurd rfl hdone
      · rw [(hprobed k status hk).1]
        exact ⟨hne, owner, by simp⟩

/-- The rules a call keeps, on a disk `d`. -/
structure Discipline (console : Console) (d : Disk) (call : Call Bool) : Prop where
  mintOnce : call.trace.countP Event.isMint ≤ 1
  mintDue : (∃ e ∈ call.trace, e.isMint = true) → readKey d.keyFile = "" ∨
    firstDecisive console.existing = some 401 ∨ firstDecisive console.existing = some 403
  atomic : ∀ sofar, sofar <+: call.trace → keyFileAfter d sofar = d.keyFile ∨
    ∃ owner key, .minted owner (some key) ∈ sofar ∧ .probed key 200 ∈ sofar ∧
      keyFileAfter d sofar = .text (key.toList ++ ['\n'])
  /-- The call returns true exactly when the key then in the file was proven by it, unless the mint
  handed back the key the file held already and publishing it failed. -/
  honest : call.result = some true ↔
    .probed (readKey (keyFileAfter d call.trace)) 200 ∈ call.trace ∧
      ¬ ((∃ owner, .minted owner (some (readKey d.keyFile)) ∈ call.trace) ∧
        ∀ e ∈ call.trace, e ≠ .replaced true)
  unchanged : call.result = some false → keyFileAfter d call.trace = d.keyFile

theorem readKey_published (hstrip : strip key.toList = key.toList) (hcr : '\r' ∉ key.toList) :
    readKey (.text (key.toList ++ ['\n'])) = key := by
  rw [readKey, universalNewlines_of_not_mem (by simp [hcr]), strip_append_newline, hstrip,
    String.ofList_toList]

private theorem Minted.discipline {call : Call Bool} {d : Disk} (h : Minted console call)
    (check : List Event) (hcheck : ∀ e ∈ check, e.IsProbe (readKey d.keyFile))
    (hunproven : .probed (readKey d.keyFile) 200 ∉ check)
    (hdue : readKey d.keyFile = "" ∨
      firstDecisive console.existing = some 401 ∨ firstDecisive console.existing = some 403)
    (hmint : ∀ key, console.mint = some key → strip key.toList = key.toList ∧ '\r' ∉ key.toList) :
    Discipline console d ⟨check ++ call.trace, call.result⟩ := by
  have hprobes : ∀ e ∈ check, e ≠ .replaced true := fun e he => (IsProbe.quiet (hcheck e he)).1
  have hquiet : call.result ≠ some true → ∀ e ∈ check ++ call.trace, e ≠ .replaced true := by
    intro hres
    exact List.forall_mem_append.mpr ⟨hprobes, h.quiet hres⟩
  refine ⟨?_, fun _ => hdue, fun sofar hsofar => ?_, ⟨fun hres => ?_, fun ⟨hprobed, hnot⟩ => ?_⟩,
    fun hres => keyFileAfter_of_quiet d (hquiet (by simp [show call.result = some false from hres]))⟩
  · rw [List.countP_append, countP_mint fun e he => (IsProbe.quiet (hcheck e he)).2.1, Nat.zero_add]
    exact h.once
  · by_cases hres : call.result = some true
    · obtain ⟨before, owner, key, line, htrace, hbefore, hminted, hproven, -⟩ := h.published hres
      rw [htrace, ← List.append_assoc] at hsofar
      have hold := List.forall_mem_append.mpr ⟨hprobes, hbefore⟩
      rcases keyFileAfter_publication d line hold hsofar with hsame | ⟨hpast, hnew⟩
      · exact Or.inl hsame
      · exact Or.inr ⟨owner, key, hpast.subset (List.mem_append_right _ hminted),
          hpast.subset (List.mem_append_right _ hproven), hnew⟩
    · exact Or.inl (keyFileAfter_of_quiet d fun e he => hquiet hres e (hsofar.subset he))
  · obtain ⟨before, owner, key, line, htrace, hbefore, hminted, hproven, hkey⟩ := h.published hres
    obtain ⟨hstrip, hcr⟩ := hmint key hkey
    have hrename : .replaced true ∈ call.trace := by simp [htrace, publication]
    refine ⟨?_, fun hsame => hsame.2 _ (List.mem_append_right _ hrename) rfl⟩
    have hafter : keyFileAfter d (check ++ call.trace) = .text (key.toList ++ ['\n']) := by
      rw [htrace, ← List.append_assoc, keyFileAfter_published]
    rw [hafter, readKey_published hstrip hcr]
    simp [htrace, hproven]
  · by_contra hres
    have hsame : keyFileAfter d (check ++ call.trace) = d.keyFile :=
      keyFileAfter_of_quiet d (hquiet hres)
    rw [hsame] at hprobed
    rcases List.mem_append.mp hprobed with hin | hin
    · exact hunproven hin
    · obtain ⟨-, owner, hminted⟩ := h.probed _ _ hin
      exact hnot ⟨⟨owner, List.mem_append_right _ hminted⟩, hquiet hres⟩

private theorem checkOnly_discipline {d : Disk} {call : Call Bool}
    (htrace : ∀ e ∈ call.trace, e.IsProbe (readKey d.keyFile))
    (hresult : call.result = some true ↔ .probed (readKey d.keyFile) 200 ∈ call.trace) :
    Discipline console d call := by
  have hsame : ∀ sofar, sofar <+: call.trace → keyFileAfter d sofar = d.keyFile := fun sofar h =>
    keyFileAfter_of_quiet d fun e he => (IsProbe.quiet (htrace e (h.subset he))).1
  have hnone : ∀ e ∈ call.trace, e.isMint = false := fun e he => (IsProbe.quiet (htrace e he)).2.1
  refine ⟨by rw [countP_mint hnone]; exact Nat.zero_le 1, fun ⟨e, he, hmint⟩ => ?_,
    fun sofar h => Or.inl (hsame sofar h), ?_, fun _ => hsame _ List.prefix_rfl⟩
  · simp [hnone e he] at hmint
  · rw [hsame _ List.prefix_rfl, hresult]
    refine (and_iff_left fun ⟨⟨owner, hminted⟩, _⟩ => ?_).symm
    exact absurd (hnone _ hminted) (by simp [Event.isMint])

private theorem keyCheck_unproven {answers : ℕ → ℕ} (h : (keyCheck key answers).result ≠ some .ok) :
    .probed key 200 ∉ (keyCheck key answers).trace :=
  fun hmem => h (keyCheck_ok_iff.mpr hmem)

private theorem firstDecisive_of_rejected {answers : ℕ → ℕ}
    (h : (keyCheck key answers).result = some .rejected) :
    firstDecisive answers = some 401 ∨ firstDecisive answers = some 403 := by
  have hverdict := keyCheck_result h
  split at hverdict
  · rename_i code hcode
    split at hverdict
    · cases hverdict
    · rename_i hne
      rcases firstDecisive_decisive hcode with rfl | rfl | rfl
      · exact absurd rfl hne
      · exact Or.inl hcode
      · exact Or.inr hcode
  · cases hverdict

/-- The publication discipline of one call, for minted keys without surrounding whitespace and
without carriage returns. -/
theorem ensureApiKey_discipline (cfg : Config) (console : Console) (faults : Faults) (d : Disk)
    (hmint : ∀ key, console.mint = some key → strip key.toList = key.toList ∧ '\r' ∉ key.toList) :
    Discipline console d (ensureApiKey cfg console faults d.keyFile) := by
  have hcheck : ∀ e ∈ (keyCheck (readKey d.keyFile) console.existing).trace,
      e.IsProbe (readKey d.keyFile) := keyCheck_trace _ _
  have hlogged : ∀ line, ∀ e ∈ (keyCheck (readKey d.keyFile) console.existing).trace ++
      [Event.logged line], e.IsProbe (readKey d.keyFile) := fun line =>
    List.forall_mem_append.mpr ⟨hcheck, fun e he => List.mem_singleton.mp he ▸ trivial⟩
  generalize hcall : ensureApiKey cfg console faults d.keyFile = call
  have hends : Ensuring console faults d.keyFile call := hcall ▸ ensureApiKey_ensuring
  cases hends with
  | fresh hnone hminting =>
      exact hminting.minted.discipline [] (by simp) (by simp) (Or.inl hnone) hmint
  | raised hkey hresult =>
      apply checkOnly_discipline hcheck
      rw [← keyCheck_ok_iff, hresult]
      simp
  | @reused line hkey hresult =>
      apply checkOnly_discipline (hlogged line)
      simp [keyCheck_ok_iff.mp hresult]
  | kept hkey hresult =>
      apply checkOnly_discipline hcheck
      rw [← keyCheck_ok_iff, hresult]
      simp
  | @replaced line call hkey hresult hminting =>
      have hunproven : .probed (readKey d.keyFile) 200 ∉
          (keyCheck (readKey d.keyFile) console.existing).trace :=
        keyCheck_unproven (by simp [hresult])
      have h := hminting.minted.discipline
        ((keyCheck (readKey d.keyFile) console.existing).trace ++ [.logged line]) (hlogged line)
        (by simpa using hunproven) (Or.inr (firstDecisive_of_rejected hresult)) hmint
      simpa using h

private def exampleConfig : Config :=
  ⟨"/unifi/api-key", "unifi-containers", "http://127.0.0.1:9080"⟩

private def minting (key : String) : Console where
  existing _ := 401
  owner _ := some "owner"
  mint := some key
  minted _ := 200

private def renameFails : Faults := ⟨false, none, false, true, false⟩

theorem ensureApiKey_discipline_example :
    Discipline (minting "fresh") ⟨.text "stale\n".toList, none⟩
      (ensureApiKey exampleConfig (minting "fresh") noFaults (.text "stale\n".toList)) :=
  ensureApiKey_discipline exampleConfig (minting "fresh") noFaults ⟨.text "stale\n".toList, none⟩ (by
    rintro key hkey
    cases hkey
    decide)

/-- Returning true and a proven key in the file can come apart: the mint hands back the key that is
in the file already and the rename fails, or the key changes when the file is read in text mode. -/
theorem ensureApiKey_not_honest :
    (let d : Disk := ⟨.text "k\n".toList, none⟩
      let call := ensureApiKey exampleConfig (minting "k") renameFails d.keyFile
      call.result = some false ∧
        .probed (readKey (keyFileAfter d call.trace)) 200 ∈ call.trace) ∧
    (let d : Disk := ⟨.absent, none⟩
      let call := ensureApiKey exampleConfig (minting "a\r b") noFaults d.keyFile
      call.result = some true ∧
        .probed (readKey (keyFileAfter d call.trace)) 200 ∉ call.trace) := by
  decide

end

end UnifiContainers.UosOwner
