import UnifiContainers.Release.Workflow

/-!
# Whose images a published name holds

The staging names are shared by all runs of a product, and a version-level name is read back after
it is written. A run publishes its own images as long as nothing it reads from a shared name was
last written by a run for another tag.
-/

namespace UnifiContainers

open Regex PyText StepRun

/-- The image was built from `tag` and from nothing else. -/
structure Image.BuiltFrom (image : Image) (tag : String) : Prop where
  own : tag ∈ image.builtFrom
  only : ∀ t ∈ image.builtFrom, t = tag

def ManifestList.BuiltFrom (list : ManifestList) (tag : String) : Prop :=
  ∀ arch, (list.image arch).BuiltFrom tag

/-- Whoever last wrote the shared names this task reads was a run for the same tag. -/
def WorkflowRun.ReadsOwn (w : World) (run : WorkflowRun) : Task → Prop
  | .makeSeed => ∀ staged ∈ w.staging .base .amd64, staged.pushedBy = run.tag
  | .buildSeeded arch => ∀ staged ∈ w.staging .base arch, staged.pushedBy = run.tag
  | .create variant _ => (∀ staged ∈ w.staging variant .amd64, staged.pushedBy = run.tag) ∧
      ∀ staged ∈ w.staging variant .arm64, staged.pushedBy = run.tag
  | .inspect _ name => ∀ published ∈ w.names name, published.tag = run.tag
  | .push _ _ | .slide _ | .discard => True

instance (w : World) (run : WorkflowRun) (task : Task) : Decidable (run.ReadsOwn w task) := by
  cases task <;> unfold WorkflowRun.ReadsOwn <;> infer_instance

/-- No run for another tag wrote a shared name between this run's write of it and this read. -/
def Undisturbed (w : World) : WorkflowLabel → Prop
  | .work i leg => ∀ found ∈ w.next i leg, found.1.ReadsOwn w found.2.1
  | _ => True

instance (w : World) (label : WorkflowLabel) : Decidable (Undisturbed w label) := by
  cases label <;> unfold Undisturbed <;> infer_instance

/-! ### The invariant -/

structure OwnArtifacts (run : WorkflowRun) : Prop where
  seed : ∀ seed, run.seed = some seed → ∀ t ∈ seed, t = run.tag
  seeded : ∀ arch image, run.seeded arch = some image → image.BuiltFrom run.tag
  digests : ∀ variant list, run.digests variant = some list → list.BuiltFrom run.tag

/-- Every image in a registry was built from the tag of the run that put it there. -/
structure OwnImages (w : World) : Prop where
  runs : ∀ run ∈ w.runs, OwnArtifacts run
  staging : ∀ variant arch staged, w.staging variant arch = some staged →
    staged.image.BuiltFrom staged.pushedBy
  names : ∀ name published, w.names name = some published → published.list.BuiltFrom published.tag
  writes : ∀ e ∈ w.writes, e.new.list.BuiltFrom e.new.tag

section

variable {pk : Packaging} {product : Product} {w w' : World} {run run' : WorkflowRun}

private theorem localImage_builtFrom (h : OwnArtifacts run) {variant : Variant} {arch : Arch}
    {image : Image} (himage : run.localImage variant arch = some image) :
    image.BuiltFrom run.tag := by
  rw [WorkflowRun.localImage.eq_def] at himage
  split at himage
  · exact h.seeded arch image himage
  · cases himage
    exact ⟨by simp, by simp⟩

private theorem OwnImages.push (h : OwnImages w) {variant : Variant} {arch : Arch}
    {staged : Staged} (himage : staged.image.BuiltFrom staged.pushedBy) :
    OwnImages { w with
      staging := Function.update w.staging variant
        (Function.update (w.staging variant) arch (some staged)) } := by
  refine ⟨h.runs, fun v a found hfound => ?_, h.names, h.writes⟩
  by_cases hv : v = variant
  · subst hv
    by_cases ha : a = arch
    · subst ha
      have hsame : staged = found := by simpa using hfound
      exact hsame ▸ himage
    · exact h.staging v a found (by simpa [Function.update_of_ne ha] using hfound)
  · exact h.staging v a found (by simpa [Function.update_of_ne hv] using hfound)

private theorem OwnImages.point (h : OwnImages w) {isGlobal : Bool} {name : String}
    {list : ManifestList} (hlist : list.BuiltFrom run.tag) :
    OwnImages (w.point run isGlobal name list) := by
  refine ⟨h.runs, h.staging, fun n published hn => ?_, fun e he => ?_⟩
  · by_cases hsame : n = name
    · subst hsame
      simp only [World.point, Function.update_self, Option.some.injEq] at hn
      exact hn ▸ hlist
    · simp only [World.point, Function.update_of_ne hsame] at hn
      exact h.names n published hn
  · rcases List.mem_cons.mp he with rfl | he
    · exact hlist
    · exact h.writes e he

private theorem TaskEffect.ownImages {task : Task} (h : OwnImages w) (hrun : OwnArtifacts run)
    (hreads : run.ReadsOwn w task) (heffect : TaskEffect w run task w' run') :
    OwnImages w' ∧ OwnArtifacts run' ∧ w'.runs = w.runs := by
  have hstaged : ∀ {variant arch staged}, w.staging variant arch = some staged →
      staged.pushedBy = run.tag → staged.image.BuiltFrom run.tag := fun hs htag =>
    htag ▸ h.staging _ _ _ hs
  cases heffect with
  | push himage => exact ⟨h.push (localImage_builtFrom hrun himage), hrun, rfl⟩
  | @makeSeed base hbase =>
      have himage := hstaged hbase (hreads base hbase)
      refine ⟨h, ⟨fun seed hseed => ?_, hrun.seeded, hrun.digests⟩, rfl⟩
      cases hseed
      exact himage.only
  | @buildSeeded arch base seed hbase hseed =>
      have himage := hstaged hbase (hreads base hbase)
      refine ⟨h, ⟨hrun.seed, fun a image ha => ?_, hrun.digests⟩, rfl⟩
      by_cases hsame : a = arch
      · subst hsame
        simp only [Function.update_self, Option.some.injEq] at ha
        subst ha
        refine ⟨by simp, fun t ht => ?_⟩
        rcases List.mem_cons.mp ht with rfl | ht
        · rfl
        · exact (List.mem_append.mp ht).elim (himage.only t) (hrun.seed seed hseed t)
      · simp only [Function.update_of_ne hsame] at ha
        exact hrun.seeded a image ha
  | @create variant name amd64 arm64 hamd64 harm64 =>
      have hfirst := hstaged hamd64 (hreads.1 amd64 hamd64)
      have hsecond := hstaged harm64 (hreads.2 arm64 harm64)
      refine ⟨h.point fun arch => ?_, hrun, rfl⟩
      cases arch with
      | amd64 => exact hfirst
      | arm64 => exact hsecond
  | @inspect variant name published hname =>
      refine ⟨h, ⟨hrun.seed, hrun.seeded, fun v list hv => ?_⟩, rfl⟩
      by_cases hsame : v = variant
      · subst hsame
        simp only [Function.update_self, Option.some.injEq] at hv
        subst hv
        exact hreads published hname ▸ h.names name published hname
      · simp only [Function.update_of_ne hsame] at hv
        exact hrun.digests v list hv
  | slide hvariant hlist => exact ⟨h.point (hrun.digests _ _ hlist), hrun, rfl⟩
  | discard => exact ⟨⟨h.runs, by simp, h.names, h.writes⟩, hrun, rfl⟩

private theorem ownArtifacts_set {i : ℕ} (h : OwnImages w) (hrun : OwnArtifacts run) :
    ∀ r ∈ w.runs.set i run, OwnArtifacts r := by
  intro r hr
  rcases List.mem_or_eq_of_mem_set hr with hr | rfl
  · exact h.runs r hr
  · exact hrun

theorem ownImages_step {label : WorkflowLabel} (h : OwnImages w) (hguard : Undisturbed w label)
    (hstep : workflowStep pk product w label = some w') : OwnImages w' := by
  cases workflowStep_effect hstep with
  | pushTag tag => exact ⟨h.runs, h.staging, h.names, h.writes⟩
  | @plan tag p hplan htag hproduct =>
      refine ⟨fun r hr => ?_, h.staging, h.names, h.writes⟩
      rcases List.mem_append.mp hr with hr | hr
      · exact h.runs r hr
      · rw [List.mem_singleton.mp hr]
        exact ⟨by simp [WorkflowRun.planned], by simp [WorkflowRun.planned],
          by simp [WorkflowRun.planned]⟩
  | @work i leg run task rest after run' hnext heffect =>
      have hrun := h.runs run (next_mem hnext).1
      obtain ⟨hafter, hrun', hruns⟩ :=
        heffect.ownImages h hrun (hguard (run, task, rest) hnext)
      exact ⟨ownArtifacts_set hafter ⟨hrun'.seed, hrun'.seeded, hrun'.digests⟩, hafter.staging,
        hafter.names, hafter.writes⟩
  | fail hrun hleft =>
      have hold := h.runs _ hrun
      exact ⟨ownArtifacts_set h ⟨hold.seed, hold.seeded, hold.digests⟩, h.staging, h.names,
        h.writes⟩
  | rerun hrun hdigests =>
      have hold := h.runs _ hrun
      exact ⟨ownArtifacts_set h ⟨hold.seed, hold.seeded, fun v l hl => hold.digests v l
        (hdigests v l hl)⟩, h.staging, h.names, h.writes⟩

/-- In every interleaving in which no run for another tag writes a shared name between a run's
write and its read of it, every published name a run writes holds images of that run's tag. -/
theorem published_own (pk : Packaging) (product : Product) (labels : List WorkflowLabel) (w : World)
    (hguard : Guarded (workflowStep pk product) Undisturbed World.start labels)
    (hrun : exec (workflowStep pk product) World.start labels = some w) :
    ∀ e ∈ w.writes, e.new.list.BuiltFrom e.new.tag := by
  have hstart : OwnImages World.start := ⟨by simp [World.start], by simp [World.start],
    by simp [World.start], by simp [World.start]⟩
  exact (guarded_invariant (workflowStep pk product)
    (fun _ _ _ hinv hg hstep => ownImages_step hinv hg hstep) hstart hguard hrun).writes

theorem create_own_iff (h : OwnImages w) {variant : Variant} {amd64 arm64 : Staged} {tag : String}
    (hamd64 : w.staging variant .amd64 = some amd64) (harm64 : w.staging variant .arm64 = some arm64) :
    (⟨amd64.image, arm64.image⟩ : ManifestList).BuiltFrom tag ↔
      amd64.pushedBy = tag ∧ arm64.pushedBy = tag := by
  have hfirst := h.staging _ _ _ hamd64
  have hsecond := h.staging _ _ _ harm64
  constructor
  · intro hlist
    exact ⟨(hlist .amd64).only _ hfirst.own, (hlist .arm64).only _ hsecond.own⟩
  · rintro ⟨ha, hb⟩ arch
    cases arch with
    | amd64 => exact ha ▸ hfirst
    | arm64 => exact hb ▸ hsecond

private def bothPlanned : List WorkflowLabel :=
  [.pushTag "network/10.4.57-1", .pushTag "network/10.4.58-1", .plan "network/10.4.57-1",
    .plan "network/10.4.58-1"]

theorem published_own_example :
    ∃ w, exec (workflowStep numericPackaging .network) World.start
      (bothPlanned ++ networkBuild 0 ++ List.replicate 7 (.work 0 .manifest) ++
        networkBuild 1) = some w ∧ ∀ e ∈ w.writes, e.new.list.BuiltFrom e.new.tag :=
  ⟨_, (Option.some_get (by decide +kernel)).symm,
    published_own numericPackaging .network _ _ (by decide +kernel) (Option.some_get _).symm⟩

/-- The second run pushes its images while the first still has to stitch its own, and the first
run's version-level names point at the second run's build. -/
theorem published_foreign :
    (exec (workflowStep numericPackaging .network) World.start
      (bothPlanned ++ networkBuild 0 ++ networkBuild 1 ++ List.replicate 6 (.work 0 .manifest))).map
      (fun w => w.writes.map fun e => (e.name, e.new.tag, e.new.list.amd64, e.new.list.arm64)) =
    some (["10.4.57-seeded", "10.4.57-sim", "10.4.57"].map fun name =>
      let builtFrom := if name = "10.4.57-seeded"
        then List.replicate 3 "network/10.4.58-1" else ["network/10.4.58-1"]
      (name, "network/10.4.57-1", ⟨builtFrom⟩, ⟨builtFrom⟩)) := by
  decide +kernel

end

end UnifiContainers
