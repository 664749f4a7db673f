import UnifiContainers.Release.Workflow

/-!
# Published names do not move backwards

A run decides from the tags it planned against, and writes the published names jobs later. While
its release is still the newest of the tags at each of its writes, no name ever moves to an older
release. A write that comes after a newer tag was pushed can move a name back.
-/

namespace UnifiContainers

open Regex PyText StepRun

/-- The write replaces a newer release: by revision under a version-level name, in the order of
whole releases under a global one. -/
def Write.Backwards (e : Write) : Prop :=
  match e.replaced with
  | none => False
  | some old =>
      if e.isGlobal then e.new.release.rank < old.release.rank
      else e.new.release.revision < old.release.revision

instance (e : Write) : Decidable e.Backwards := by
  unfold Write.Backwards
  split <;> infer_instance

/-- The run is still the newest build of its version among the tags, and for a global name also
their greatest release: its plan, taken again, would ask for the write again. -/
def WorkflowRun.StillAsks (w : World) (run : WorkflowRun) : Task → Prop
  | .create _ _ => isHighestBuild w.tags run.release = true
  | .slide _ => isHighestBuild w.tags run.release = true ∧
      ∀ q ∈ releasesFor w.tags run.release.product, q.rank ≤ run.release.rank
  | _ => True

instance (w : World) (run : WorkflowRun) : (task : Task) → Decidable (run.StillAsks w task)
  | .create _ _ => inferInstanceAs (Decidable (_ = true))
  | .slide _ => inferInstanceAs (Decidable (isHighestBuild w.tags run.release = true ∧
      ∀ q ∈ releasesFor w.tags run.release.product, q.rank ≤ run.release.rank))
  | .push _ _ | .makeSeed | .buildSeeded _ | .inspect _ _ | .discard => isTrue trivial

/-- No step writes a name on behalf of a release that a newer tag has overtaken. -/
def StillNewest (w : World) : WorkflowLabel → Prop
  | .work i leg => ∀ found ∈ w.next i leg, found.1.StillAsks w found.2.1
  | _ => True

instance (w : World) : (label : WorkflowLabel) → Decidable (StillNewest w label)
  | .work i leg => inferInstanceAs (Decidable (∀ found ∈ w.next i leg, found.1.StillAsks w found.2.1))
  | .pushTag _ | .plan _ | .fail _ | .rerun _ _ => isTrue trivial

/-! ### The names a plan asks for -/

def globalNames : List String := globalTracks.map Prod.fst

def Task.Planned (r : Release) : Task → Prop
  | .create variant name => name = versionTag r.upstream variant
  | .slide name => name ∈ globalNames
  | _ => True

private theorem words_globals : words "latest sim seeded" = globalNames := by decide

private theorem words_empty : words "" = [] := by decide

private theorem manifestJob_planned (p : Plan) (hpublish : p.newestBuild = true) :
    ∀ task ∈ manifestJob (emit p), task.Planned p.release := by
  intro task htask
  simp only [manifestJob, List.mem_append, List.mem_flatMap, List.mem_map,
    List.mem_singleton] at htask
  rcases htask with (⟨variant, -, h⟩ | ⟨name, hname, rfl⟩) | rfl
  · simp only [stitch, output_push, hpublish, if_true, List.mem_cons, List.not_mem_nil,
      or_false] at h
    rcases h with rfl | rfl
    · exact rfl
    · trivial
  · rw [output_globals] at hname
    split at hname
    · rwa [words_globals] at hname
    · simp [words_empty] at hname
  · trivial

theorem tasks_planned (product : Product) (p : Plan) (leg : Leg) :
    ∀ task ∈ tasks product (emit p) leg, task.Planned p.release := by
  intro task htask
  have hnew : p.newestBuild = true := by
    by_contra hfalse
    simp [tasks, hfalse] at htask
  rw [tasks.eq_def, output_publish, hnew] at htask
  simp only [if_true, ne_eq, not_true_eq_false, if_false] at htask
  split at htask
  case h_7 => exact manifestJob_planned p hnew task htask
  all_goals
    simp only [List.mem_cons, List.not_mem_nil, or_false] at htask
    try rcases htask with rfl | rfl | rfl
  all_goals trivial

private theorem dash_not_mem {u : String} (h : IsUpstream u) : '-' ∉ u.toList := by
  obtain ⟨x, y, z, hx, hy, hz, hs⟩ := h
  have hdigits : ∀ {s : List Char}, IsDigits s → '-' ∉ s := fun h hm =>
    absurd (h.2 '-' hm) (by decide)
  simp [hs, hdigits hx, hdigits hy, hdigits hz]

theorem takeWhile_versionTag {u : String} (h : IsUpstream u) (v : Variant) :
    (versionTag u v).toList.takeWhile (· ≠ '-') = u.toList := by
  have hall : ∀ c ∈ u.toList, decide (c ≠ '-') = true := fun c hc => by
    rw [decide_eq_true_iff]
    rintro rfl
    exact dash_not_mem h hc
  obtain ⟨suffix, hsuffix, hnil⟩ : ∃ suffix, (versionTag u v).toList = u.toList ++ suffix ∧
      suffix.takeWhile (· ≠ '-') = [] := by
    cases v with
    | base => exact ⟨[], by simp [versionTag], rfl⟩
    | sim => exact ⟨"-sim".toList, by simp [versionTag], by decide⟩
    | seeded => exact ⟨"-seeded".toList, by simp [versionTag], by decide⟩
  rw [hsuffix, List.takeWhile_append_of_pos hall, hnil, List.append_nil]

theorem versionTag_upstream {u u' : String} {v v' : Variant} (h : IsUpstream u)
    (h' : IsUpstream u') (heq : versionTag u v = versionTag u' v') : u = u' :=
  String.toList_inj.mp (by rw [← takeWhile_versionTag h v, heq, takeWhile_versionTag h' v'])

theorem versionTag_not_global {u : String} (h : IsUpstream u) (v : Variant) :
    versionTag u v ∉ globalNames := by
  intro hmem
  have hdot : '.' ∈ (versionTag u v).toList.takeWhile (· ≠ '-') := by
    rw [takeWhile_versionTag h v]
    obtain ⟨x, y, z, -, -, -, hs⟩ := h
    simp [hs]
  have hnone : ∀ name ∈ globalNames, '.' ∉ name.toList.takeWhile (· ≠ '-') := by decide
  exact hnone _ hmem hdot

/-! ### The invariant -/

/-- A published release is one of the product's tags, and sits under one of its own names. -/
structure OwnName (product : Product) (tags : List String) (name : String) (r : Release) :
    Prop where
  tagged : r ∈ releasesFor tags product
  named : (∃ v, name = versionTag r.upstream v) ∨ name ∈ globalNames

/-- A run's release is one of the product's tags, and its tasks are those its plan asked for. -/
structure PlannedRun (product : Product) (tags : List String) (run : WorkflowRun) : Prop where
  tagged : run.release ∈ releasesFor tags product
  planned : ∀ leg, ∀ task ∈ run.legs leg, task.Planned run.release
  outputs : ∀ leg, ∀ task ∈ tasks product run.outputs leg, task.Planned run.release

structure Forward (product : Product) (w : World) : Prop where
  runs : ∀ run ∈ w.runs, PlannedRun product w.tags run
  names : ∀ name published, w.names name = some published →
    OwnName product w.tags name published.release
  writes : ∀ e ∈ w.writes, ¬ e.Backwards

section

variable {pk : Packaging} {product : Product} {w w' : World}

private theorem isUpstream_of_mem {r : Release} (h : r ∈ releasesFor w.tags product) :
    IsUpstream r.upstream := by
  obtain ⟨⟨t, -, ht⟩, -⟩ := mem_releasesFor.mp h
  exact isUpstream_of_parse ht

private theorem releasesFor_mono {tags others : List String} (h : ∀ t ∈ tags, t ∈ others)
    {r : Release} (hr : r ∈ releasesFor tags product) : r ∈ releasesFor others product := by
  rw [mem_releasesFor] at hr ⊢
  obtain ⟨⟨t, ht, htr⟩, hp⟩ := hr
  exact ⟨⟨t, h t ht, htr⟩, hp⟩

private theorem PlannedRun.mono {run : WorkflowRun} {tags others : List String}
    (h : PlannedRun product tags run) (htags : ∀ t ∈ tags, t ∈ others) :
    PlannedRun product others run :=
  ⟨releasesFor_mono htags h.tagged, h.planned, h.outputs⟩

private theorem Forward.point {run : WorkflowRun} {isGlobal : Bool} {name : String}
    {list : ManifestList} (h : Forward product w) (hrun : run ∈ w.runs)
    (hname : (∃ v, name = versionTag run.release.upstream v) ∨ name ∈ globalNames)
    (hforward : ∀ q ∈ releasesFor w.tags product,
      (∃ v, name = versionTag q.upstream v) ∨ name ∈ globalNames →
        if isGlobal then q.rank ≤ run.release.rank else q.revision ≤ run.release.revision) :
    Forward product (w.point run isGlobal name list) where
  runs := h.runs
  names n published hn := by
    by_cases hsame : n = name
    · subst hsame
      simp only [World.point, Function.update_self, Option.some.injEq] at hn
      subst hn
      exact ⟨(h.runs run hrun).tagged, hname⟩
    · simp only [World.point, Function.update_of_ne hsame] at hn
      exact ⟨(h.names n published hn).tagged, (h.names n published hn).named⟩
  writes e he := by
    rcases List.mem_cons.mp he with rfl | he
    · cases hold : w.names name with
      | none => simp [Write.Backwards]
      | some old =>
          have hown := h.names name old hold
          have hle := hforward old.release hown.tagged hown.named
          cases isGlobal
          · simpa [Write.Backwards] using hle
          · simpa [Write.Backwards] using hle
    · exact h.writes e he

private theorem Forward.frame (h : Forward product w) (htags : ∀ t ∈ w.tags, t ∈ w'.tags)
    (hnames : w'.names = w.names) (hwrites : w'.writes = w.writes)
    (hruns : ∀ run ∈ w'.runs, PlannedRun product w'.tags run) : Forward product w' where
  runs := hruns
  names n published hn := by
    rw [hnames] at hn
    exact ⟨releasesFor_mono htags (h.names n published hn).tagged, (h.names n published hn).named⟩
  writes e he := h.writes e (hwrites ▸ he)

private theorem planned_planned {tag : String} {p : Plan} (hplan : planAt pk w.tags tag = .ok p)
    (htag : tag ∈ w.tags) (hproduct : p.release.product = product) :
    PlannedRun product w.tags (.planned product tag p) := by
  obtain ⟨hparse, -⟩ := plan_ok hplan
  exact ⟨mem_releasesFor.mpr ⟨⟨tag, htag, hparse⟩, hproduct⟩, tasks_planned product p,
    tasks_planned product p⟩

private theorem TaskEffect.forward {i : ℕ} {leg : Leg} {run run' : WorkflowRun} {task : Task}
    {rest : List Task} (h : Forward product w) (hguard : StillNewest w (.work i leg))
    (hnext : w.next i leg = some (run, task, rest)) (heffect : TaskEffect w run task w' run') :
    Forward product w' ∧ w'.runs = w.runs ∧ run'.release = run.release ∧ run'.legs = run.legs ∧
      run'.outputs = run.outputs := by
  obtain ⟨hrun, hlegs⟩ := next_mem hnext
  have hrunOk := h.runs run hrun
  have htask : task.Planned run.release := hrunOk.planned leg task (by simp [hlegs])
  have hstill := hguard (run, task, rest) hnext
  have hup := isUpstream_of_mem hrunOk.tagged
  have hproduct := (mem_releasesFor.mp hrunOk.tagged).2
  cases heffect with
  | push himage => exact ⟨h.frame (fun _ ht => ht) rfl rfl h.runs, rfl, rfl, rfl, rfl⟩
  | makeSeed hbase => exact ⟨h, rfl, rfl, rfl, rfl⟩
  | buildSeeded hbase hseed => exact ⟨h, rfl, rfl, rfl, rfl⟩
  | create hamd64 harm64 =>
      refine ⟨h.point hrun (Or.inl ⟨_, htask⟩) fun q hq hname => ?_, rfl, rfl, rfl, rfl⟩
      have hsame : q.upstream = run.release.upstream := by
        rcases hname with ⟨v, hv⟩ | hglobal
        · exact versionTag_upstream (isUpstream_of_mem hq) hup (hv.symm.trans htask)
        · exact absurd (htask ▸ hglobal) (versionTag_not_global hup _)
      obtain ⟨hq', hqp⟩ := mem_releasesFor.mp hq
      exact isHighestBuild_iff.mp hstill q
        (mem_buildsOf.mpr ⟨hq', hqp.trans hproduct.symm, hsame⟩)
  | inspect hname => exact ⟨h, rfl, rfl, rfl, rfl⟩
  | slide hvariant hlist =>
      refine ⟨h.point hrun (Or.inr htask) fun q hq _ => ?_, rfl, rfl, rfl, rfl⟩
      exact hstill.2 q (hproduct ▸ hq)
  | discard => exact ⟨h.frame (fun _ ht => ht) rfl rfl h.runs, rfl, rfl, rfl, rfl⟩

private theorem planned_set {run : WorkflowRun} {i : ℕ} (h : Forward product w)
    (hrun : run ∈ w.runs) (run' : WorkflowRun) (hrelease : run'.release = run.release)
    (houtputs : run'.outputs = run.outputs)
    (hlegs : ∀ leg, ∀ task ∈ run'.legs leg,
      task ∈ run.legs leg ∨ task.Planned run.release) :
    ∀ r ∈ w.runs.set i run', PlannedRun product w.tags r := by
  intro r hr
  rcases List.mem_or_eq_of_mem_set hr with hr | rfl
  · exact h.runs r hr
  · have hok := h.runs run hrun
    refine ⟨hrelease ▸ hok.tagged, fun leg task htask => ?_, ?_⟩
    · rw [hrelease]
      exact (hlegs leg task htask).elim (hok.planned leg task) id
    · rw [hrelease, houtputs]
      exact hok.outputs

theorem forward_step {label : WorkflowLabel} (h : Forward product w) (hguard : StillNewest w label)
    (hstep : workflowStep pk product w label = some w') : Forward product w' := by
  cases workflowStep_effect hstep with
  | pushTag tag =>
      have htags : ∀ t ∈ w.tags, t ∈ w.tags ++ [tag] := fun t ht => List.mem_append_left _ ht
      exact h.frame htags rfl rfl fun run hrun => (h.runs run hrun).mono htags
  | plan hplan htag hproduct =>
      refine h.frame (fun _ ht => ht) rfl rfl fun run hrun => ?_
      rcases List.mem_append.mp hrun with hrun | hrun
      · exact h.runs run hrun
      · rw [List.mem_singleton.mp hrun]
        exact planned_planned hplan htag hproduct
  | @work i leg run task rest after run' hnext heffect =>
      obtain ⟨hafter, hruns, hrelease, hlegs, houtputs⟩ := heffect.forward h hguard hnext
      obtain ⟨hrun, htasks⟩ := next_mem hnext
      refine hafter.frame (fun _ ht => ht) rfl rfl (planned_set hafter (hruns ▸ hrun)
        (run'.setLeg leg rest) hrelease houtputs fun other t ht => Or.inl ?_)
      rcases WorkflowRun.mem_setLeg ht with ⟨hother, hleft⟩ | hold
      · rw [hother, htasks]
        exact List.mem_cons_of_mem _ hleft
      · rwa [hlegs] at hold
  | @fail i run left hrun hleft =>
      refine h.frame (fun _ ht => ht) rfl rfl (planned_set h hrun
        (run.setLeg .manifest left) rfl rfl fun other t ht => ?_)
      rcases WorkflowRun.mem_setLeg ht with ⟨-, ht⟩ | ht
      · rw [hleft t ht]
        exact Or.inr trivial
      · exact Or.inl ht
  | @rerun i leg run digests hrun hdigests =>
      refine h.frame (fun _ ht => ht) rfl rfl (planned_set h hrun
        { run.setLeg leg (tasks product run.outputs leg) with digests := digests }
        rfl rfl fun other t ht => ?_)
      rcases WorkflowRun.mem_setLeg ht with ⟨-, ht⟩ | ht
      · exact Or.inr ((h.runs run hrun).outputs leg t ht)
      · exact Or.inl ht

/-- In every interleaving whose writes are made while the run is still the newest of the tags, no
published name moves back. -/
theorem published_forward (pk : Packaging) (product : Product) (labels : List WorkflowLabel)
    (w : World) (hguard : Guarded (workflowStep pk product) StillNewest World.start labels)
    (hrun : exec (workflowStep pk product) World.start labels = some w) :
    ∀ e ∈ w.writes, ¬ e.Backwards := by
  have hstart : Forward product World.start := ⟨by simp [World.start], by simp [World.start],
    by simp [World.start]⟩
  exact (guarded_invariant (workflowStep pk product)
    (fun _ _ _ hinv hg hstep => forward_step hinv hg hstep) hstart hguard hrun).writes

private def inOrder : List WorkflowLabel :=
  [.pushTag "network/10.4.57-1", .plan "network/10.4.57-1"] ++ networkJobs 0 ++
    [.pushTag "network/10.4.57-2", .plan "network/10.4.57-2"] ++ networkJobs 1

theorem published_forward_example :
    ∃ w, exec (workflowStep numericPackaging .network) World.start inOrder = some w ∧
      ∀ e ∈ w.writes, ¬ e.Backwards :=
  ⟨_, (Option.some_get (by decide +kernel)).symm,
    published_forward numericPackaging .network inOrder _ (by decide +kernel)
      (Option.some_get _).symm⟩

/-- Build 1 plans, build 2 is tagged and published, and build 1's run then takes every name back. -/
theorem published_backwards :
    (exec (workflowStep numericPackaging .network) World.start
      ([.pushTag "network/10.4.57-1", .plan "network/10.4.57-1", .pushTag "network/10.4.57-2",
        .plan "network/10.4.57-2"] ++ networkJobs 1 ++ networkJobs 0)).map (fun w =>
      (w.writes.filter (·.Backwards)).map fun e =>
        (e.name, e.replaced.map fun old => old.tag, e.new.tag)) =
    some (["seeded", "sim", "latest", "10.4.57-seeded", "10.4.57-sim", "10.4.57"].map
      fun name => (name, some "network/10.4.57-2", "network/10.4.57-1")) := by
  decide +kernel

end

end UnifiContainers
