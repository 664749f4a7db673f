import UnifiContainers.Runtime.Readiness

/-!
# What readiness costs in logins

The login marker is there so that waiting for readiness costs one login for each time the session
dies. The check of the marker, the login and the write of the marker are separate steps: the two
provers keep to that bound as long as they do not log in at the same time.
-/

namespace UnifiContainers.Healthcheck

open StepRun

def Prover.other : Prover → Prover
  | .healthcheck => .readyz
  | .readyz => .healthcheck

/-- The successful logins of this boot. -/
def logins (history : History) : ℕ := history.countP fun e => e.2 = .login true

/-- The 401 and 403 answers of the v2 surface in this boot. -/
def rejections (history : History) : ℕ := history.countP fun e => e.2 = .v2 401 ∨ e.2 = .v2 403

/-- `/tmp` is writable: no write and no removal fails. -/
def Writable : Label → Prop
  | .tick _ (.written done) | .tick _ (.removed done) => done = true
  | _ => True

instance : (label : Label) → Decidable (Writable label)
  | .boot | .start _ => isTrue trivial
  | .tick _ (.written done) | .tick _ (.removed done) => inferInstanceAs (Decidable (done = true))
  | .tick _ .proceed | .tick _ .saveJar | .tick _ (.login _) | .tick _ (.v2 _)
  | .tick _ (.devices _) | .tick _ .raised => isTrue trivial

/-- A login whose marker is not written yet. -/
def LoggingIn (stage : Option Stage) : Prop := stage = some .awaitLogin ∨ stage = some .writeLogin

instance (stage : Option Stage) : Decidable (LoggingIn stage) := inferInstanceAs (Decidable (_ ∨ _))

/-- A prover that sends a login does so while the marker is still absent and the other prover has
no login under way. -/
def Alone (s : State) : Label → Prop
  | .tick p .proceed =>
      s.stage p = some .askLogin → s.files loginMarker = false ∧ ¬ LoggingIn (s.stage p.other)
  | _ => True

instance (s : State) : (label : Label) → Decidable (Alone s label)
  | .tick _ .proceed => inferInstanceAs (Decidable (_ → _))
  | .boot | .start _ | .tick _ (.written _) | .tick _ (.removed _) | .tick _ .saveJar
  | .tick _ (.login _) | .tick _ (.v2 _) | .tick _ (.devices _) | .tick _ .raised => isTrue trivial

/-! ### The steps that matter to the count -/

/-- What one step of a tick does to the login marker and to the count. -/
inductive LoginStep (files after : Files) : Stage → Option Stage → List Event → Prop where
  | quiet {stage next events} (hfiles : after loginMarker = files loginMarker)
      (hstage : stage ≠ .writeLogin ∧ stage ≠ .forget ∧ stage ≠ .askLogin)
      (hnext : ¬ LoggingIn next ∧ next ≠ some .forget)
      (hlogins : .login true ∉ events) :
      LoginStep files after stage next events
  | saved (hfiles : after loginMarker = files loginMarker) :
      LoginStep files after .awaitLogin (some .awaitLogin) []
  | sent (hfiles : after = files) : LoginStep files after .askLogin (some .awaitLogin) [.asked]
  | accepted (hfiles : after = files) :
      LoginStep files after .awaitLogin (some .writeLogin) [.login true]
  | wrote (hfiles : after loginMarker = true) : LoginStep files after .writeLogin (some .askV2) []
  | rejected {status} (hfiles : after = files) (hstatus : status = 401 ∨ status = 403) :
      LoginStep files after .awaitV2 (some .forget) [.v2 status]
  | forgot (hfiles : after loginMarker = false) :
      LoginStep files after .forget none [.answered false]

section

variable {gate : Gate} {s t : State} {p : Prover} {history : History} {files after : Files}
  {at_ : Stage} {act : Act} {next : Option Stage} {events : List Event}

theorem tick_loginStep (hwritable : Writable (.tick p act))
    (h : tick gate files at_ act = some (after, next, events)) :
    LoginStep files after at_ next events := by
  have hmarker : loginMarker ≠ marker := by decide
  have hjar : loginMarker ≠ cookieJar := by decide
  cases at_ with
  | writeLogin =>
      cases act <;> simp only [tick, reduceCtorEq] at h
      rename_i done
      have hdone : done = true := hwritable
      cases h
      exact .wrote (by simp [hdone])
  | forget =>
      cases act <;> simp only [tick, reduceCtorEq] at h
      rename_i done
      have hdone : done = true := hwritable
      cases h
      exact .forgot (by simp [hdone])
  | askLogin =>
      cases act <;> simp only [tick, reduceCtorEq] at h
      cases h
      exact .sent rfl
  | awaitLogin =>
      cases act with
      | login ok =>
          cases ok
          · cases h
            exact .quiet rfl (by simp) (by simp [LoggingIn]) (by simp)
          · cases h
            exact .accepted rfl
      | saveJar =>
          cases h
          exact .saved (Function.update_of_ne hjar _ _)
      | raised =>
          cases h
          exact .quiet rfl (by simp) (by simp [LoggingIn]) (by simp)
      | _ => simp only [tick, reduceCtorEq] at h
  | awaitV2 =>
      cases act with
      | v2 status =>
          simp only [tick] at h
          split at h
          · rename_i hdead
            cases h
            exact .rejected rfl hdead
          · split at h
            · cases h
              exact .quiet rfl (by simp) (by simp [LoggingIn]) (by simp)
            · split at h
              · cases h
                exact .quiet rfl (by simp) (by simp [LoggingIn]) (by simp)
              · cases h
                exact .quiet rfl (by simp) (by simp [LoggingIn]) (by simp)
      | saveJar =>
          cases h
          exact .quiet (Function.update_of_ne hjar _ _) (by simp) (by simp [LoggingIn]) (by simp)
      | raised =>
          cases h
          exact .quiet rfl (by simp) (by simp [LoggingIn]) (by simp)
      | _ => simp only [tick, reduceCtorEq] at h
  | checkMarker | checkLogin =>
      cases act <;> simp only [tick, reduceCtorEq] at h
      split at h
      · cases h
        exact .quiet rfl (by simp) (by simp [LoggingIn]) (by simp)
      · cases h
        exact .quiet rfl (by simp) (by simp [LoggingIn]) (by simp)
  | askV2 | askDevices =>
      cases act <;> simp only [tick, reduceCtorEq] at h
      cases h
      exact .quiet rfl (by simp) (by simp [LoggingIn]) (by simp)
  | awaitDevices =>
      cases act with
      | devices count =>
          simp only [tick] at h
          split at h
          · cases h
            exact .quiet rfl (by simp) (by simp [LoggingIn]) (by simp)
          · cases h
            exact .quiet rfl (by simp) (by simp [LoggingIn]) (by simp)
      | saveJar =>
          cases h
          exact .quiet (Function.update_of_ne hjar _ _) (by simp) (by simp [LoggingIn]) (by simp)
      | raised =>
          cases h
          exact .quiet rfl (by simp) (by simp [LoggingIn]) (by simp)
      | _ => simp only [tick, reduceCtorEq] at h
  | writeMarker =>
      cases act <;> simp only [tick, reduceCtorEq] at h
      split at h
      · cases h
        exact .quiet (Function.update_of_ne hmarker _ _) (by simp) (by simp [LoggingIn]) (by simp)
      · cases h
        exact .quiet rfl (by simp) (by simp [LoggingIn]) (by simp)

/-! ### The budget -/

/-- A rejection whose marker is not removed yet. -/
def forgetting (stage : Option Stage) : ℕ := if stage = some .forget then 1 else 0

/-- A login is remembered: its marker is written, or about to be. -/
def Remembered (s : State) : Prop :=
  s.files loginMarker = true ∨ ∃ p, s.stage p = some .writeLogin

/-- Every login but the remembered one is paid for by a rejection that has run its course. -/
structure Budget (s : State) : Prop where
  fresh : ¬ Remembered s → logins s.history + (forgetting (s.stage .healthcheck) +
    forgetting (s.stage .readyz)) ≤ rejections s.history
  spent : logins s.history + (forgetting (s.stage .healthcheck) + forgetting (s.stage .readyz)) ≤
    rejections s.history + 1
  exclusive : ∀ p, LoggingIn (s.stage p) → ¬ LoggingIn (s.stage p.other)
  absent : ∀ p, s.stage p = some .awaitLogin → s.files loginMarker = false

/-- The state after a step of `p`. -/
def advanced (s : State) (p : Prover) (after : Files) (next : Option Stage)
    (events : List Event) : State :=
  ⟨after, Function.update s.stage p next, events.map (Prod.mk p) ++ s.history⟩

@[simp]
theorem other_ne (p : Prover) : p.other ≠ p := by cases p <;> decide

theorem eq_or_other (p q : Prover) : q = p ∨ q = p.other := by cases p <;> cases q <;> decide

@[simp]
theorem other_other (p : Prover) : p.other.other = p := by cases p <;> rfl

@[simp]
theorem stage_advanced_self : (advanced s p after next events).stage p = next :=
  Function.update_self _ _ _

@[simp]
theorem stage_advanced_other :
    (advanced s p after next events).stage p.other = s.stage p.other :=
  Function.update_of_ne (other_ne p) _ _

theorem forgetting_sum (s : State) (p : Prover) :
    forgetting (s.stage .healthcheck) + forgetting (s.stage .readyz) =
      forgetting (s.stage p) + forgetting (s.stage p.other) := by
  cases p
  · rfl
  · exact Nat.add_comm _ _

theorem logins_advanced : logins (advanced s p after next events).history =
    events.countP (· = .login true) + logins s.history := by
  simp only [advanced, logins, List.countP_append, List.countP_map]
  rfl

theorem rejections_advanced : rejections (advanced s p after next events).history =
    events.countP (fun e => e = .v2 401 ∨ e = .v2 403) + rejections s.history := by
  simp only [advanced, rejections, List.countP_append, List.countP_map]
  rfl

theorem remembered_advanced : Remembered (advanced s p after next events) ↔
    after loginMarker = true ∨ next = some .writeLogin ∨ s.stage p.other = some .writeLogin := by
  constructor
  · intro h
    rcases h with h | ⟨q, h⟩
    · exact Or.inl h
    · rcases eq_or_other p q with rfl | rfl
      · exact Or.inr (Or.inl (by simpa using h))
      · exact Or.inr (Or.inr (by simpa using h))
  · intro h
    rcases h with h | h | h
    · exact Or.inl h
    · exact Or.inr ⟨p, by simpa using h⟩
    · exact Or.inr ⟨p.other, by simpa using h⟩

theorem remembered_iff (p : Prover) : Remembered s ↔
    s.files loginMarker = true ∨ s.stage p = some .writeLogin ∨
      s.stage p.other = some .writeLogin := by
  rw [Remembered]
  cases p with
  | healthcheck => exact or_congr_right ⟨fun ⟨q, h⟩ => by cases q <;> tauto, fun h => by tauto⟩
  | readyz => exact or_congr_right ⟨fun ⟨q, h⟩ => by cases q <;> tauto, fun h => by tauto⟩

/-- The budget after a step of `p`, from what the step does. -/
theorem budget_advanced
    (hfresh : ¬ (after loginMarker = true ∨ next = some .writeLogin ∨
        s.stage p.other = some .writeLogin) →
      events.countP (· = .login true) + logins s.history +
        (forgetting next + forgetting (s.stage p.other)) ≤
      events.countP (fun e => e = .v2 401 ∨ e = .v2 403) + rejections s.history)
    (hspent : events.countP (· = .login true) + logins s.history +
        (forgetting next + forgetting (s.stage p.other)) ≤
      events.countP (fun e => e = .v2 401 ∨ e = .v2 403) + rejections s.history + 1)
    (hexclusive : LoggingIn next → ¬ LoggingIn (s.stage p.other))
    (hself : next = some .awaitLogin → after loginMarker = false)
    (hother : s.stage p.other = some .awaitLogin → after loginMarker = false) :
    Budget (advanced s p after next events) := by
  have hsum := forgetting_sum (advanced s p after next events) p
  rw [stage_advanced_self, stage_advanced_other] at hsum
  constructor
  · intro hforgotten
    rw [remembered_advanced] at hforgotten
    rw [hsum, logins_advanced, rejections_advanced]
    exact hfresh hforgotten
  · rw [hsum, logins_advanced, rejections_advanced]
    exact hspent
  · intro q hq hq'
    rcases eq_or_other p q with heq | heq
    · subst heq
      rw [stage_advanced_self] at hq
      rw [stage_advanced_other] at hq'
      exact hexclusive hq hq'
    · subst heq
      rw [other_other, stage_advanced_self] at hq'
      rw [stage_advanced_other] at hq
      exact hexclusive hq' hq
  · intro q hq
    rcases eq_or_other p q with heq | heq
    · subst heq
      exact hself (by simpa using hq)
    · subst heq
      exact hother (by simpa using hq)

theorem budget_tick (h : Budget s) (hat : s.stage p = some at_)
    (hstep : LoginStep s.files after at_ next events)
    (halone : at_ = .askLogin → s.files loginMarker = false ∧ ¬ LoggingIn (s.stage p.other)) :
    Budget (advanced s p after next events) := by
  have hspent := h.spent
  have hfresh := h.fresh
  have hexclusive := h.exclusive p
  have habsent := h.absent p.other
  rw [remembered_iff p] at hfresh
  rw [forgetting_sum s p] at hspent hfresh
  rw [hat] at hspent hfresh hexclusive
  cases hstep with
  | quiet hfiles hstage hnext hlogins =>
      have hnone : events.countP (· = .login true) = 0 := by
        rw [List.countP_eq_zero]
        intro e he heq
        exact hlogins (by simpa using (of_decide_eq_true heq) ▸ he)
      have hidle : forgetting (some at_) = 0 := by simp [forgetting, hstage.2.1]
      have hforget : forgetting next = 0 := by simp [forgetting, hnext.2]
      rw [hidle] at hspent hfresh
      apply budget_advanced
      · intro hforgotten
        rw [hfiles] at hforgotten
        have := hfresh (by simp only [Option.some.injEq, hstage.1, false_or]; tauto)
        omega
      · omega
      · exact fun hin => absurd hin hnext.1
      · exact fun heq => absurd (Or.inl heq) hnext.1
      · rwa [hfiles]
  | saved hfiles =>
      apply budget_advanced
      · intro hforgotten
        rw [hfiles] at hforgotten
        simpa using hfresh (by simpa using hforgotten)
      · simpa using hspent
      · exact hexclusive
      · rw [hfiles]
        exact fun _ => h.absent p hat
      · rwa [hfiles]
  | sent hfiles =>
      subst hfiles
      obtain ⟨hmarker, hother⟩ := halone rfl
      apply budget_advanced
      · intro hforgotten
        have := hfresh (by simpa using hforgotten)
        simpa [forgetting] using this
      · simpa [forgetting] using hspent
      · exact fun _ => hother
      · exact fun _ => hmarker
      · exact habsent
  | accepted hfiles =>
      subst hfiles
      have hother : ¬ LoggingIn (s.stage p.other) := hexclusive (Or.inl rfl)
      have hmarker := h.absent p hat
      have hpaid := hfresh (by
        intro hremembered
        rcases hremembered with hm | hm | hm
        · rw [hmarker] at hm
          cases hm
        · cases hm
        · exact hother (Or.inr hm))
      apply budget_advanced
      · exact fun hforgotten => absurd (Or.inr (Or.inl rfl)) hforgotten
      · simp only [List.countP_singleton, decide_true, if_true] at hpaid ⊢
        simp only [forgetting] at hpaid ⊢
        simp at hpaid ⊢
        omega
      · exact fun _ => hother
      · intro heq
        cases heq
      · exact fun heq => absurd (Or.inl heq) hother
  | wrote hfiles =>
      apply budget_advanced
      · exact fun hforgotten => absurd (Or.inl hfiles) hforgotten
      · simpa [forgetting] using hspent
      · intro hin
        simp [LoggingIn] at hin
      · intro heq
        cases heq
      · exact fun heq => absurd (Or.inl heq) (hexclusive (Or.inr rfl))
  | @rejected status hfiles hstatus =>
      subst hfiles
      have hone : [Event.v2 status].countP (fun e => e = .v2 401 ∨ e = .v2 403) = 1 := by
        rcases hstatus with rfl | rfl <;> rfl
      apply budget_advanced
      · intro hforgotten
        have := hfresh (by simpa using hforgotten)
        rw [hone]
        simp [forgetting] at this ⊢
        omega
      · rw [hone]
        simp [forgetting] at hspent ⊢
        omega
      · intro hin
        simp [LoggingIn] at hin
      · intro heq
        cases heq
      · exact habsent
  | forgot hfiles =>
      apply budget_advanced
      · intro _
        simp [forgetting] at hspent ⊢
        omega
      · simp [forgetting] at hspent ⊢
        omega
      · intro hin
        simp [LoggingIn] at hin
      · exact fun _ => hfiles
      · exact fun _ => hfiles

theorem budget_boot (files : Files) :
    Budget ⟨clearReadinessState bootState files, fun _ => none, []⟩ where
  fresh _ := Nat.le_refl 0
  spent := Nat.zero_le 1
  exclusive _ h := by simp [LoggingIn] at h
  absent _ h := by cases h

theorem budget_start (h : Budget s) (hidle : s.stage p = none) :
    Budget (advanced s p s.files (some .checkMarker) [.started]) := by
  have hspent := h.spent
  have hfresh := h.fresh
  rw [remembered_iff p, hidle] at hfresh
  rw [forgetting_sum s p, hidle] at hspent hfresh
  apply budget_advanced
  · intro hforgotten
    simpa [forgetting] using hfresh (by simpa using hforgotten)
  · simpa [forgetting] using hspent
  · intro hin
    simp [LoggingIn] at hin
  · intro heq
    cases heq
  · exact h.absent p.other

theorem budget_step {label : Label} (h : Budget s) (hwritable : Writable label)
    (halone : Alone s label) (hstep : step gate s label = some t) : Budget t := by
  cases label with
  | boot =>
      cases hstep
      exact budget_boot s.files
  | start p =>
      simp only [step] at hstep
      split at hstep
      · rename_i hidle
        cases hstep
        exact budget_start h hidle
      · cases hstep
  | tick p act =>
      simp only [step, bind, Option.bind_eq_some_iff] at hstep
      obtain ⟨at_, hat, ⟨files, next, events⟩, htick, ht⟩ := hstep
      cases ht
      apply budget_tick h hat (tick_loginStep hwritable htick)
      intro hask
      subst hask
      cases act <;> simp only [tick, reduceCtorEq] at htick
      exact halone hat

/-- In a boot with a writable `/tmp` in which the two provers do not log in at the same time, every
successful login but the first is paid for by a 401 or 403 of the v2 surface. -/
theorem logins_le_rejections (gate : Gate) (left t : State) (labels : List Label)
    (hrun : exec (step gate) left (.boot :: labels) = some t)
    (hguard : Guarded (step gate) (fun s label => Writable label ∧ Alone s label) left
      (.boot :: labels)) :
    logins t.history ≤ 1 + rejections t.history := by
  obtain ⟨booted, hboot, hrest⟩ := exec_cons_some (step gate) hrun
  have hbooted : Budget booted := by
    cases hboot
    exact budget_boot left.files
  have h := guarded_invariant (step gate)
    (fun s label t hinv hg hstep => budget_step hinv hg.1 hg.2 hstep) hbooted
    (hguard.2 booted hboot) hrest
  have hspent := h.spent
  omega

private def raced : List Label :=
  [.start .healthcheck, .start .readyz, .tick .healthcheck .proceed, .tick .readyz .proceed,
    .tick .healthcheck .proceed, .tick .readyz .proceed, .tick .healthcheck .proceed,
    .tick .readyz .proceed, .tick .healthcheck (.login true), .tick .readyz (.login true)]

private def renewed : List Label :=
  [.start .healthcheck, .tick .healthcheck .proceed, .tick .healthcheck .proceed,
    .tick .healthcheck .proceed, .tick .healthcheck (.login true),
    .tick .healthcheck (.written true), .start .readyz, .tick .readyz .proceed,
    .tick .readyz .proceed, .tick .readyz .proceed, .tick .readyz (.v2 401),
    .tick .readyz (.removed true), .start .readyz, .tick .readyz .proceed,
    .tick .readyz .proceed, .tick .readyz .proceed, .tick .readyz (.login true)]

theorem logins_le_rejections_renewed :
    let t := (exec (step ⟨some 3⟩) ⟨fun _ => true, fun _ => none, []⟩ (.boot :: renewed)).get
      (by decide)
    logins t.history ≤ 1 + rejections t.history :=
  logins_le_rejections ⟨some 3⟩ _ _ renewed (Option.some_get _).symm (by decide)

/-- Both provers find the marker absent, and both log in. -/
theorem logins_raced :
    ¬ ∀ (gate : Gate) (left t : State) (labels : List Label), (∀ label ∈ labels, Writable label) →
      exec (step gate) left (.boot :: labels) = some t →
      logins t.history ≤ 1 + rejections t.history := by
  intro h
  have hbound := h ⟨none⟩ ⟨fun _ => false, fun _ => none, []⟩ _ raced (by decide)
    (Option.some_get (by decide)).symm
  revert hbound
  decide

end

end UnifiContainers.Healthcheck
