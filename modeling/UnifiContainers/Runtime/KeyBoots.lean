import UnifiContainers.Runtime.ApiKey
import UnifiContainers.Lib.Run

/-!
# Keys minted over many boots

Each boot of a volume runs `ensureApiKey` once. A key is paid for by a rejection of the one before
it, except for the first one, as long as every boot that finds no key gets a verdict on the key it
mints. A minted key without a verdict is neither published nor remembered, and the next boot mints
another.
-/

namespace UnifiContainers.UosOwner

open PyText StepRun

/-- A volume, with everything its boots have done so far. -/
structure Volume where
  disk : Disk
  trace : List Event
  deriving DecidableEq, Repr

def bootStep (cfg : Config) (v : Volume) (console : Console) : Option Volume :=
  let call := ensureApiKey cfg console noFaults v.disk.keyFile
  some ⟨call.trace.foldl Disk.apply v.disk, v.trace ++ call.trace⟩

def Event.isNewKey : Event → Bool
  | .minted _ (some _) => true
  | _ => false

def Event.isRejection : Event → Bool
  | .probed _ status => status = 401 || status = 403
  | _ => false

/-- A key minted in a boot that found none gets a decisive answer within its attempts, and no key
is blank. -/
structure GetsVerdict (v : Volume) (console : Console) : Prop where
  legible : ∀ key, console.mint = some key → key ≠ "" → strip key.toList ≠ []
  decided : readKey v.disk.keyFile = "" → ∀ key, console.mint = some key → key ≠ "" →
    illegalHeader key.toList = false ∧ (firstDecisive console.minted).isSome

instance (v : Volume) (console : Console) : Decidable (GetsVerdict v console) :=
  decidable_of_iff
    ((∀ key ∈ console.mint, key ≠ "" → strip key.toList ≠ []) ∧
      (readKey v.disk.keyFile = "" → ∀ key ∈ console.mint, key ≠ "" →
        illegalHeader key.toList = false ∧ (firstDecisive console.minted).isSome))
    ⟨fun h => ⟨h.1, h.2⟩, fun h => ⟨h.legible, h.decided⟩⟩

section

variable {cfg : Config} {console : Console} {key : String} {v w : Volume} {call : Call Bool}

theorem readKey_legible (h : strip key.toList ≠ []) :
    readKey (.text (key.toList ++ ['\n'])) ≠ "" := by
  intro hnone
  have hstrip : strip (universalNewlines (key.toList ++ ['\n'])) = [] := by
    have := congrArg String.toList hnone
    simpa [readKey] using this
  refine h (strip_eq_nil.mpr fun c hc => ?_)
  by_contra hspace
  have hspace : isSpace c = false := by simpa using hspace
  have := strip_eq_nil.mp hstrip c (mem_universalNewlines hspace (List.mem_append_left _ hc))
  rw [hspace] at this
  cases this

def newKeys (trace : List Event) : ℕ := trace.countP Event.isNewKey

def rejections (trace : List Event) : ℕ := trace.countP Event.isRejection

private theorem newKeys_le (trace : List Event) : newKeys trace ≤ trace.countP Event.isMint := by
  apply List.countP_mono_left
  intro e _ h
  unfold Event.isNewKey at h
  split at h
  · rfl
  · cases h

private theorem rejections_pos (key : String) {trace : List Event} {status : ℕ}
    (hstatus : status = 401 ∨ status = 403) (h : .probed key status ∈ trace) :
    1 ≤ rejections trace :=
  List.countP_pos_iff.mpr ⟨_, h, by rcases hstatus with rfl | rfl <;> rfl⟩

private theorem newKeys_eq_zero {trace : List Event} (h : ∀ e ∈ trace, e.isMint = false) :
    newKeys trace = 0 := by
  have hzero : trace.countP Event.isMint = 0 :=
    List.countP_eq_zero.mpr fun e he => by simp [h e he]
  exact Nat.le_zero.mp (hzero ▸ newKeys_le trace)

private theorem file_after_mint {faults : Faults} (h : Minting console faults call) (d : Disk)
    (hlegible : ∀ key, console.mint = some key → key ≠ "" → strip key.toList ≠ [])
    (check : List Event) (hcheck : ∀ e ∈ check, e ≠ .replaced true) :
    keyFileAfter d (check ++ call.trace) = d.keyFile ∨
      readKey (keyFileAfter d (check ++ call.trace)) ≠ "" := by
  by_cases hresult : call.result = some true
  · obtain ⟨before, owner, key, line, htrace, -, -, hproven, hkey⟩ := h.minted.published hresult
    have hne : key ≠ "" := (h.minted.probed key 200 (by simp [htrace, hproven])).1
    rw [htrace, ← List.append_assoc, keyFileAfter_published]
    exact Or.inr (readKey_legible (hlegible key hkey hne))
  · apply Or.inl
    exact keyFileAfter_of_quiet d (List.forall_mem_append.mpr ⟨hcheck, h.minted.quiet hresult⟩)

private theorem paid_mint (h : Minting console noFaults call) (d : Disk)
    (hlegible : ∀ key, console.mint = some key → key ≠ "" → strip key.toList ≠ [])
    (hdecided : ∀ key, console.mint = some key → key ≠ "" →
      illegalHeader key.toList = false ∧ (firstDecisive console.minted).isSome) :
    newKeys call.trace ≤ rejections call.trace ∨ readKey (keyFileAfter d call.trace) ≠ "" := by
  have honce : newKeys call.trace ≤ 1 := (newKeys_le _).trans h.minted.once
  cases h with
  | noOwner ht =>
      rw [newKeys_eq_zero fun e he => (IsWait.quiet (ht e he)).2.1]
      exact Or.inl (Nat.zero_le _)
  | @noKey t owner line ht =>
      have hnone : newKeys t = 0 := newKeys_eq_zero fun e he => (IsWait.quiet (ht e he)).2.1
      apply Or.inl
      rw [newKeys, List.countP_append, ← newKeys, hnone]
      simp [Event.isNewKey]
  | raised ht hkey hne hcheck =>
      rw [keyCheck_raises_iff, (hdecided _ hkey hne).1] at hcheck
      cases hcheck
  | @unproven t owner key verdict line ht hkey hne hcheck hverdict =>
      have hrejected : verdict = .rejected := by
        obtain ⟨code, hcode⟩ := Option.isSome_iff_exists.mp (hdecided key hkey hne).2
        have hresult := keyCheck_result hcheck
        simp only [hcode] at hresult
        split at hresult
        · exact absurd hresult hverdict
        · exact hresult
      subst hrejected
      obtain ⟨status, hstatus, hmem⟩ := keyCheck_rejected hcheck
      exact Or.inl (honce.trans (rejections_pos key hstatus (by simp [hmem])))
  | @proven t owner key ops done line ht hkey hne hcheck hpublish =>
      have hdone : done = true := by
        simp only [publishKey, noFaults] at hpublish
        simpa using (Traced.mk.inj hpublish).2.symm
      subst hdone
      rw [publishKey_done hpublish]
      apply Or.inr
      have htrace : t ++ .minted owner (some key) ::
          ((keyCheck key console.minted).trace ++ (publication key ++ [.logged line])) =
          (t ++ .minted owner (some key) :: (keyCheck key console.minted).trace) ++
            (publication key ++ [.logged line]) := by simp
      rw [htrace, keyFileAfter_published]
      exact readKey_legible (hlegible key hkey hne)

/-- At most one key of a volume is not paid for by a rejection, and none while its file holds no
key. -/
structure Paid (v : Volume) : Prop where
  total : newKeys v.trace ≤ rejections v.trace + 1
  noKey : readKey v.disk.keyFile = "" → newKeys v.trace ≤ rejections v.trace

private theorem newKeys_append (s t : List Event) : newKeys (s ++ t) = newKeys s + newKeys t :=
  List.countP_append

private theorem rejections_append (s t : List Event) :
    rejections (s ++ t) = rejections s + rejections t :=
  List.countP_append

private theorem paid_of_idle (h : Paid v) {trace : List Event} {disk : Disk}
    (hnone : newKeys trace = 0) (hfile : disk.keyFile = v.disk.keyFile) :
    Paid ⟨disk, v.trace ++ trace⟩ := by
  have htotal := h.total
  constructor
  · rw [newKeys_append, rejections_append, hnone]
    omega
  · intro hkey
    have hle := h.noKey (hfile ▸ hkey)
    rw [newKeys_append, rejections_append, hnone]
    omega

theorem paid_step (h : Paid v) (hverdict : GetsVerdict v console)
    (hstep : bootStep cfg v console = some w) : Paid w := by
  have hends : Ensuring console noFaults v.disk.keyFile
      (ensureApiKey cfg console noFaults v.disk.keyFile) := ensureApiKey_ensuring
  rw [bootStep] at hstep
  generalize ensureApiKey cfg console noFaults v.disk.keyFile = call at hends hstep
  cases hstep
  have hquiet : ∀ e ∈ (keyCheck (readKey v.disk.keyFile) console.existing).trace,
      e ≠ .replaced true := fun e he => (IsProbe.quiet (keyCheck_trace _ _ e he)).1
  have hquietLog : ∀ line, ∀ e ∈ (keyCheck (readKey v.disk.keyFile) console.existing).trace ++
      [Event.logged line], e ≠ .replaced true := fun line =>
    List.forall_mem_append.mpr ⟨hquiet, noRename_logged line⟩
  have hnoKeys : newKeys (keyCheck (readKey v.disk.keyFile) console.existing).trace = 0 :=
    newKeys_eq_zero fun e he => (IsProbe.quiet (keyCheck_trace _ _ e he)).2.1
  have htotal := h.total
  cases hends with
  | fresh hnone hminting =>
      have hle := h.noKey hnone
      have honce : newKeys call.trace ≤ 1 := (newKeys_le _).trans hminting.minted.once
      have hpaid := paid_mint hminting v.disk hverdict.legible (hverdict.decided hnone)
      constructor
      · rw [newKeys_append, rejections_append]
        omega
      · intro hkey
        have hcall := hpaid.resolve_right fun hne => hne hkey
        rw [newKeys_append, rejections_append]
        omega
  | raised hkey hcheck =>
      exact paid_of_idle h hnoKeys (keyFileAfter_of_quiet v.disk hquiet)
  | @reused line hkey hcheck =>
      apply paid_of_idle h _ (keyFileAfter_of_quiet v.disk (hquietLog line))
      rw [newKeys_append, hnoKeys]
      rfl
  | kept hkey hcheck =>
      exact paid_of_idle h hnoKeys (keyFileAfter_of_quiet v.disk hquiet)
  | @replaced line call hkey hcheck hminting =>
      have honce : newKeys call.trace ≤ 1 := (newKeys_le _).trans hminting.minted.once
      obtain ⟨status, hstatus, hmem⟩ := keyCheck_rejected hcheck
      have hpos := rejections_pos _ hstatus hmem
      have hnew : newKeys ((keyCheck (readKey v.disk.keyFile) console.existing).trace ++
          .logged line :: call.trace) ≤ 1 := by
        rw [newKeys_append, hnoKeys]
        simpa [newKeys, Event.isNewKey] using honce
      have hrej : 1 ≤ rejections ((keyCheck (readKey v.disk.keyFile) console.existing).trace ++
          .logged line :: call.trace) := by
        rw [rejections_append]
        omega
      constructor
      · dsimp only
        rw [newKeys_append, rejections_append]
        omega
      · intro hnone
        -- the file held a key before, and a rename can only put another one there
        have hafter := file_after_mint hminting v.disk hverdict.legible _ (hquietLog line)
        rw [List.append_assoc] at hafter
        rcases hafter with hsame | hsome
        · exact absurd (hsame ▸ hnone) hkey
        · exact absurd hnone hsome

/-- As long as every boot that finds no key gets a verdict on the key it mints, all keys minted
over the boots of a volume but one are paid for by a rejection. -/
theorem newKeys_le_rejections (cfg : Config) (disk : Disk) (consoles : List Console) (v : Volume)
    (hverdicts : Guarded (bootStep cfg) GetsVerdict ⟨disk, []⟩ consoles)
    (hrun : exec (bootStep cfg) ⟨disk, []⟩ consoles = some v) :
    newKeys v.trace ≤ rejections v.trace + 1 := by
  have hstart : Paid ⟨disk, []⟩ := ⟨Nat.zero_le _, fun _ => Nat.le_refl _⟩
  exact (guarded_invariant (bootStep cfg)
    (fun _ _ _ hinv hguard hstep => paid_step hinv hguard hstep) hstart hverdicts hrun).total

private def bootConfig : Config :=
  ⟨"/unifi/api-key", "unifi-containers", "http://127.0.0.1:9080"⟩

private def answering (status : ℕ) (key : String) : Console where
  existing _ := status
  owner _ := some "owner"
  mint := some key
  minted _ := status

theorem newKeys_le_rejections_example :
    let v := (exec (bootStep bootConfig) ⟨⟨.absent, none⟩, []⟩
      [answering 403 "first", answering 200 "second", answering 503 "third"]).get (by decide)
    newKeys v.trace ≤ rejections v.trace + 1 :=
  newKeys_le_rejections bootConfig ⟨.absent, none⟩
    [answering 403 "first", answering 200 "second", answering 503 "third"] _ (by decide)
    (Option.some_get _).symm

/-- Two boots whose console never gives a verdict mint two keys, and nothing was rejected. -/
theorem slow_boots_mint_again :
    (exec (bootStep bootConfig) ⟨⟨.absent, none⟩, []⟩
      [answering 503 "first", answering 503 "second"]).map
        (fun v => (newKeys v.trace, rejections v.trace)) = some (2, 0) := by
  decide

end

end UnifiContainers.UosOwner
