import UnifiContainers.Release.Plan
import UnifiContainers.Lib.Run

/-!
# The release workflows

One product's release workflow as a machine: tags are pushed, a run plans its tag, builds and
pushes its images to the product's one staging package, stitches the published lists from it and
slides the global names. The jobs of a run and the runs themselves interleave freely. An image
carries the tags whose checkouts went into it, so that a published name shows whose build it is.
-/

namespace UnifiContainers

open Regex PyText StepRun

/-! ### Sliding tags -/

def globalTracks : List (String × Variant) :=
  [("latest", .base), ("sim", .sim), ("seeded", .seeded)]

/-- `^\d+\.\d+\.\d+(?:-(?:sim|seeded))?$` -/
def versionTagRe : Pattern Empty :=
  .seq (.bol false) (.seq dotted
    (.seq (.alt (.seq (.lit ['-']) (.alt (.lit "sim".toList) (.lit "seeded".toList))) .empty)
      (.eol false)))

/-- Which pushed digest a tag name tracks, `none` for an unknown name. -/
def variantFor (name : String) : Option Variant :=
  match globalTracks.lookup name with
  | some variant => some variant
  | none =>
      if (versionTagRe.matchStart name.toList).isNone then none
      else if "-sim".toList <:+ name.toList then some .sim
      else if "-seeded".toList <:+ name.toList then some .seeded
      else some .base

def words (s : String) : List String :=
  ((s.toList.splitOnP Char.isWhitespace).filter (· ≠ [])).map String.ofList

example : words (" ".intercalate ["latest", "sim", "seeded"]) = ["latest", "sim", "seeded"] := by
  decide

/-! ### Jobs -/

inductive Arch where
  | amd64
  | arm64
  deriving DecidableEq, Repr

/-- A step of a job that touches a registry or an artifact. -/
inductive Task where
  | push (variant : Variant) (arch : Arch)
  | makeSeed
  | buildSeeded (arch : Arch)
  | create (variant : Variant) (name : String)
  | inspect (variant : Variant) (name : String)
  | slide (name : String)
  | discard
  deriving DecidableEq, Repr

/-- The jobs of a run, one leg for each entry of a build matrix. -/
inductive Leg where
  | build (arch : Arch)
  | seed
  | seeded (arch : Arch)
  | manifest
  deriving DecidableEq, Repr

def Leg.needs : Leg → List Leg
  | .build _ => []
  | .seed => [.build .amd64, .build .arm64]
  | .seeded _ => [.build .amd64, .build .arm64, .seed]
  | .manifest => [.build .amd64, .build .arm64, .seeded .amd64, .seeded .arm64]

/-- `stitch <variant> <published-tag>`: create the list, then read its digest back. -/
def stitch (outputs : List (String × String)) (variant : Variant) : List Task :=
  let name := output outputs (pushKey variant)
  [.create variant name, .inspect variant name]

def manifestJob (outputs : List (String × String)) : List Task :=
  [.base, .sim, .seeded].flatMap (stitch outputs) ++
    (words (output outputs "globals")).map .slide ++ [.discard]

/-- The tasks of each leg once the plan's outputs are known; a superseded build has none. The
unifi-os lane builds its seeded image beside the others, the network lane from a booted base. -/
def tasks (product : Product) (outputs : List (String × String)) (leg : Leg) : List Task :=
  if output outputs "publish" ≠ "true" then []
  else
    match product, leg with
    | .network, .build arch => [.push .base arch, .push .sim arch]
    | .unifiOs, .build arch => [.push .base arch, .push .sim arch, .push .seeded arch]
    | .network, .seed => [.makeSeed]
    | .network, .seeded arch => [.buildSeeded arch, .push .seeded arch]
    | .unifiOs, .seed => []
    | .unifiOs, .seeded _ => []
    | _, .manifest => manifestJob outputs

/-! ### The machine -/

structure Image where
  builtFrom : List String
  deriving DecidableEq, Repr

/-- A manifest list; its digest determines it, so it also stands for its digest. -/
structure ManifestList where
  amd64 : Image
  arm64 : Image
  deriving DecidableEq, Repr

def ManifestList.image (l : ManifestList) : Arch → Image
  | .amd64 => l.amd64
  | .arm64 => l.arm64

/-- A staging name's image, and the tag of the run that pushed it. -/
structure Staged where
  image : Image
  pushedBy : String
  deriving DecidableEq, Repr

/-- A published name's list, and the run that pointed the name at it. -/
structure Published where
  list : ManifestList
  release : Release
  tag : String
  deriving DecidableEq, Repr

structure WorkflowRun where
  tag : String
  release : Release
  outputs : List (String × String)
  legs : Leg → List Task
  seed : Option (List String)
  seeded : Arch → Option Image
  digests : Variant → Option ManifestList

/-- A write of a published name: what it points at, and what it replaced. -/
structure Write where
  name : String
  /-- Written by `slide`, not by `stitch`. -/
  isGlobal : Bool
  new : Published
  replaced : Option Published
  deriving DecidableEq, Repr

structure World where
  tags : List String
  runs : List WorkflowRun
  staging : Variant → Arch → Option Staged
  names : String → Option Published
  writes : List Write

namespace World

def start : World := ⟨[], [], fun _ _ => none, fun _ => none, []⟩

def point (w : World) (run : WorkflowRun) (isGlobal : Bool) (name : String) (list : ManifestList) :
    World :=
  let new : Published := ⟨list, run.release, run.tag⟩
  { w with
    names := Function.update w.names name (some new)
    writes := ⟨name, isGlobal, new, w.names name⟩ :: w.writes }

/-- The next task of a leg, once the legs it needs are done. -/
def next (w : World) (i : ℕ) (leg : Leg) : Option (WorkflowRun × Task × List Task) := do
  let run ← w.runs[i]?
  guard (leg.needs.all fun needed => (run.legs needed).isEmpty)
  match run.legs leg with
  | [] => none
  | task :: rest => some (run, task, rest)

end World

namespace WorkflowRun

def localImage (run : WorkflowRun) (variant : Variant) (arch : Arch) : Option Image :=
  match run.release.product, variant with
  | .network, .seeded => run.seeded arch
  | _, _ => some ⟨[run.tag]⟩

def setLeg (run : WorkflowRun) (leg : Leg) (left : List Task) : WorkflowRun :=
  { run with legs := Function.update run.legs leg left }

theorem mem_setLeg {run : WorkflowRun} {leg other : Leg} {left : List Task} {task : Task}
    (h : task ∈ (run.setLeg leg left).legs other) :
    (other = leg ∧ task ∈ left) ∨ task ∈ run.legs other := by
  by_cases hother : other = leg
  · subst hother
    exact Or.inl ⟨rfl, by simpa [setLeg] using h⟩
  · exact Or.inr (by simpa [setLeg, Function.update_of_ne hother] using h)

end WorkflowRun

/-- A task's effect on the registry and on its run; `none` when the step fails. -/
def doTask (w : World) (run : WorkflowRun) : Task → Option (World × WorkflowRun)
  | .push variant arch => do
      let image ← run.localImage variant arch
      let cell : Staged := ⟨image, run.tag⟩
      return ({ w with
        staging := Function.update w.staging variant
          (Function.update (w.staging variant) arch (some cell)) }, run)
  | .makeSeed => do
      let base ← w.staging .base .amd64
      return (w, { run with seed := some base.image.builtFrom })
  | .buildSeeded arch => do
      let base ← w.staging .base arch
      let seed ← run.seed
      let image : Image := ⟨run.tag :: (base.image.builtFrom ++ seed)⟩
      return (w, { run with seeded := Function.update run.seeded arch (some image) })
  | .create variant name => do
      let amd64 ← w.staging variant .amd64
      let arm64 ← w.staging variant .arm64
      return (w.point run false name ⟨amd64.image, arm64.image⟩, run)
  | .inspect variant name => do
      let published ← w.names name
      return (w, { run with digests := Function.update run.digests variant (some published.list) })
  | .slide name => do
      let variant ← variantFor name
      let list ← run.digests variant
      return (w.point run true name list, run)
  | .discard => some ({ w with staging := fun _ _ => none }, run)

inductive WorkflowLabel where
  | pushTag (tag : String)
  /-- A run starts for a pushed tag and plans against the tags there are. -/
  | plan (tag : String)
  | work (run : ℕ) (leg : Leg)
  /-- A step of the manifest job fails: only the discard, which always runs, is left. -/
  | fail (run : ℕ)
  /-- A job again, with the outputs the plan produced. -/
  | rerun (run : ℕ) (leg : Leg)
  deriving DecidableEq, Repr

section

variable (pk : Packaging) (product : Product)

def WorkflowRun.planned (tag : String) (p : Plan) : WorkflowRun where
  tag := tag
  release := p.release
  outputs := emit p
  legs := tasks product (emit p)
  seed := none
  seeded _ := none
  digests _ := none

def workflowStep (w : World) : WorkflowLabel → Option World
  | .pushTag tag => some { w with tags := w.tags ++ [tag] }
  | .plan tag =>
      match planAt pk w.tags tag with
      | .ok p =>
          if tag ∈ w.tags ∧ p.release.product = product then
            some { w with runs := w.runs ++ [.planned product tag p] }
          else none
      | .error _ => none
  | .work i leg => do
      let (run, task, rest) ← w.next i leg
      let (after, run') ← doTask w run task
      return { after with runs := after.runs.set i (run'.setLeg leg rest) }
  | .fail i => do
      let run ← w.runs[i]?
      let left := if 1 < (run.legs .manifest).length then [.discard] else []
      return { w with runs := w.runs.set i (run.setLeg .manifest left) }
  | .rerun i leg => do
      let run ← w.runs[i]?
      let again := run.setLeg leg (tasks product run.outputs leg)
      let digests := if leg = .manifest then fun _ => none else run.digests
      return { w with runs := w.runs.set i { again with digests := digests } }

end

def networkBuild (i : ℕ) : List WorkflowLabel :=
  [.work i (.build .amd64), .work i (.build .amd64), .work i (.build .arm64),
    .work i (.build .arm64), .work i .seed, .work i (.seeded .amd64), .work i (.seeded .amd64),
    .work i (.seeded .arm64), .work i (.seeded .arm64)]

def networkJobs (i : ℕ) : List WorkflowLabel :=
  networkBuild i ++ List.replicate 10 (.work i .manifest)

/-! ### What a step can do -/

/-- A task that succeeded: what it read, and the registry and the run it leaves. -/
inductive TaskEffect (w : World) (run : WorkflowRun) : Task → World → WorkflowRun → Prop where
  | push {variant arch image} (himage : run.localImage variant arch = some image) :
      TaskEffect w run (.push variant arch)
        { w with
          staging := Function.update w.staging variant
            (Function.update (w.staging variant) arch (some ⟨image, run.tag⟩)) } run
  | makeSeed {base} (hbase : w.staging .base .amd64 = some base) :
      TaskEffect w run .makeSeed w { run with seed := some base.image.builtFrom }
  | buildSeeded {arch base seed} (hbase : w.staging .base arch = some base)
      (hseed : run.seed = some seed) :
      TaskEffect w run (.buildSeeded arch) w
        { run with
          seeded := Function.update run.seeded arch
            (some ⟨run.tag :: (base.image.builtFrom ++ seed)⟩) }
  | create {variant name amd64 arm64} (hamd64 : w.staging variant .amd64 = some amd64)
      (harm64 : w.staging variant .arm64 = some arm64) :
      TaskEffect w run (.create variant name)
        (w.point run false name ⟨amd64.image, arm64.image⟩) run
  | inspect {variant name published} (hname : w.names name = some published) :
      TaskEffect w run (.inspect variant name) w
        { run with digests := Function.update run.digests variant (some published.list) }
  | slide {name variant list} (hvariant : variantFor name = some variant)
      (hlist : run.digests variant = some list) :
      TaskEffect w run (.slide name) (w.point run true name list) run
  | discard : TaskEffect w run .discard { w with staging := fun _ _ => none } run

/-- A step of the machine, by its label. -/
inductive StepEffect (pk : Packaging) (product : Product) (w : World) :
    WorkflowLabel → World → Prop where
  | pushTag (tag) : StepEffect pk product w (.pushTag tag) { w with tags := w.tags ++ [tag] }
  | plan {tag p} (hplan : planAt pk w.tags tag = .ok p) (htag : tag ∈ w.tags)
      (hproduct : p.release.product = product) :
      StepEffect pk product w (.plan tag) { w with runs := w.runs ++ [.planned product tag p] }
  | work {i leg run task rest after run'} (hnext : w.next i leg = some (run, task, rest))
      (heffect : TaskEffect w run task after run') :
      StepEffect pk product w (.work i leg)
        { after with runs := after.runs.set i (run'.setLeg leg rest) }
  | fail {i run left} (hrun : run ∈ w.runs) (hleft : ∀ task ∈ left, task = .discard) :
      StepEffect pk product w (.fail i)
        { w with runs := w.runs.set i (run.setLeg .manifest left) }
  | rerun {i leg run digests} (hrun : run ∈ w.runs)
      (hdigests : ∀ v l, digests v = some l → run.digests v = some l) :
      StepEffect pk product w (.rerun i leg)
        { w with
          runs := w.runs.set i
            { run.setLeg leg (tasks product run.outputs leg) with digests := digests } }

section

variable {pk : Packaging} {product : Product} {w w' : World}

theorem next_mem {i : ℕ} {leg : Leg} {run : WorkflowRun} {task : Task} {rest : List Task}
    (h : w.next i leg = some (run, task, rest)) :
    run ∈ w.runs ∧ run.legs leg = task :: rest := by
  simp only [World.next, bind, Option.bind_eq_some_iff] at h
  obtain ⟨found, hrun, -, -, h⟩ := h
  split at h
  · cases h
  · rename_i task' rest' hlegs
    cases h
    exact ⟨List.mem_of_getElem? hrun, hlegs⟩

theorem doTask_effect {run run' : WorkflowRun} {task : Task}
    (h : doTask w run task = some (w', run')) : TaskEffect w run task w' run' := by
  cases task with
  | push variant arch =>
      simp only [doTask, bind, Option.bind_eq_some_iff] at h
      obtain ⟨image, himage, hw⟩ := h
      cases hw
      exact .push himage
  | makeSeed =>
      simp only [doTask, bind, Option.bind_eq_some_iff] at h
      obtain ⟨base, hbase, hw⟩ := h
      cases hw
      exact .makeSeed hbase
  | buildSeeded arch =>
      simp only [doTask, bind, Option.bind_eq_some_iff] at h
      obtain ⟨base, hbase, seed, hseed, hw⟩ := h
      cases hw
      exact .buildSeeded hbase hseed
  | create variant name =>
      simp only [doTask, bind, Option.bind_eq_some_iff] at h
      obtain ⟨amd64, hamd64, arm64, harm64, hw⟩ := h
      cases hw
      exact .create hamd64 harm64
  | inspect variant name =>
      simp only [doTask, bind, Option.bind_eq_some_iff] at h
      obtain ⟨published, hname, hw⟩ := h
      cases hw
      exact .inspect hname
  | slide name =>
      simp only [doTask, bind, Option.bind_eq_some_iff] at h
      obtain ⟨variant, hvariant, list, hlist, hw⟩ := h
      cases hw
      exact .slide hvariant hlist
  | discard =>
      cases h
      exact .discard

theorem workflowStep_effect {label : WorkflowLabel}
    (h : workflowStep pk product w label = some w') : StepEffect pk product w label w' := by
  cases label with
  | pushTag tag =>
      cases h
      exact .pushTag tag
  | plan tag =>
      simp only [workflowStep] at h
      split at h
      · rename_i p hplan
        split at h
        · rename_i hmem
          cases h
          exact .plan hplan hmem.1 hmem.2
        · cases h
      · cases h
  | work i leg =>
      simp only [workflowStep, bind, Option.bind_eq_some_iff] at h
      obtain ⟨⟨run, task, rest⟩, hnext, ⟨after, run'⟩, hdo, hw⟩ := h
      cases hw
      exact .work hnext (doTask_effect hdo)
  | fail i =>
      simp only [workflowStep, bind, Option.bind_eq_some_iff] at h
      obtain ⟨run, hrun, hw⟩ := h
      cases hw
      refine .fail (List.mem_of_getElem? hrun) fun task htask => ?_
      split at htask
      · exact List.mem_singleton.mp htask
      · simp at htask
  | rerun i leg =>
      simp only [workflowStep, bind, Option.bind_eq_some_iff] at h
      obtain ⟨run, hrun, hw⟩ := h
      cases hw
      refine .rerun (List.mem_of_getElem? hrun) fun v l hl => ?_
      split at hl
      · cases hl
      · exact hl

end

end UnifiContainers
