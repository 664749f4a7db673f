import UnifiContainers.Release.Workflow

/-!
# Sliding names

The plan prints the names a release is published under, and the slider points names at digests by
a pattern and suffixes of its own. Every name the plan prints is one of the slider's, for the
variant it stands for; a build's own name is not.
-/

namespace UnifiContainers

open Regex PyText

/-! ### The slider -/

/-- A call of `create`: point `image:tag` at `image@digest`. -/
structure CreateCall where
  image : String
  tag : String
  digest : String
  deriving DecidableEq, Repr

inductive SlideError where
  | unknownTag (name : String)
  | noDigest (name : String) (variant : Variant)
  | createFailed (call : CreateCall) (said : String)
  deriving DecidableEq, Repr

def Variant.name : Variant → String
  | .base => "base"
  | .sim => "sim"
  | .seeded => "seeded"

/-- The text of the exception; `quoted` is Python's `repr` of a string. -/
def SlideError.message (quoted : String → String) : SlideError → String
  | .unknownTag name =>
      "unknown sliding tag " ++ quoted name ++
        "; expected one of latest, seeded, sim, or <version>[-sim|-seeded]"
  | .noDigest name variant =>
      quoted name ++ " tracks the " ++ variant.name ++ " variant but no " ++ variant.name ++
        " digest was given; refusing to leave :" ++ name ++ " on the previous image"
  | .createFailed call said =>
      "imagetools create " ++ call.image ++ ":" ++ call.tag ++ " -> " ++ call.digest ++
        " failed: " ++ said

/-- What a finished command leaves. -/
structure Completed where
  returncode : ℤ
  stdout : String
  stderr : String
  deriving DecidableEq, Repr

def imagetoolsArgv (call : CreateCall) : List String :=
  ["docker", "buildx", "imagetools", "create", "--tag", call.image ++ ":" ++ call.tag,
    call.image ++ "@" ++ call.digest]

def imagetoolsCreate (run : List String → Completed) (call : CreateCall) :
    Except SlideError Unit :=
  let proc := run (imagetoolsArgv call)
  if proc.returncode ≠ 0 then
    let said := if proc.stderr = "" then proc.stdout else proc.stderr
    .error (.createFailed call (String.ofList ((strip said.toList).take 400)))
  else .ok ()

/-- Move every named sliding tag: the calls of `create` that were made, and the names moved. -/
def slide (image : String) (digests : Variant → Option String)
    (create : CreateCall → Except SlideError Unit) :
    List String → List CreateCall × Except SlideError (List String)
  | [] => ([], .ok [])
  | name :: names =>
      match variantFor name with
      | none => ([], .error (.unknownTag name))
      | some variant =>
          let digest := (digests variant).getD ""
          if digest = "" then ([], .error (.noDigest name variant))
          else
            let call : CreateCall := ⟨image, name, digest⟩
            match create call with
            | .error e => ([call], .error e)
            | .ok () =>
                let (calls, moved) := slide image digests create names
                (call :: calls, moved.map (name :: ·))

/-- A name and the variant it stands for. -/
def Tracks (named : String × Variant) : Prop := variantFor named.1 = some named.2

/-- Over names that the slider knows, with a digest for each variant, there is one call a name. -/
theorem slide_tracked {image : String} {digests : Variant → Option String}
    {create : CreateCall → Except SlideError Unit} {digest : Variant → String}
    (hdigests : ∀ v, digests v = some (digest v)) (hne : ∀ v, digest v ≠ "")
    (hcreate : ∀ call, create call = .ok ()) {names : List (String × Variant)}
    (h : ∀ named ∈ names, Tracks named) :
    slide image digests create (names.map Prod.fst) =
      (names.map fun named => ⟨image, named.1, digest named.2⟩, .ok (names.map Prod.fst)) := by
  induction names with
  | nil => rfl
  | cons named names ih =>
    have hknown : variantFor named.1 = some named.2 := h named List.mem_cons_self
    have hrest := ih fun other hother => h other (List.mem_cons_of_mem named hother)
    simp only [List.map_cons, slide, hknown, hdigests, Option.getD_some, if_neg (hne _), hcreate,
      hrest]
    rfl

/-! ### The names it knows -/

/-- The name of a build: `X.Y.Z-N`. -/
def IsBuildName (name : String) : Prop :=
  ∃ upstream build, IsUpstream upstream ∧ IsDigits build ∧
    name.toList = upstream.toList ++ '-' :: build

/-- The suffix of a variant's version-level names. -/
def suffix : Variant → List Char
  | .base => []
  | .sim => "-sim".toList
  | .seeded => "-seeded".toList

-- written out, since Lean derives the equations by evaluating the texts
@[simp]
theorem suffix_base : suffix .base = [] := rfl

@[simp]
theorem suffix_sim : suffix .sim = "-sim".toList := rfl

@[simp]
theorem suffix_seeded : suffix .seeded = "-seeded".toList := rfl

theorem versionTag_toList (upstream : String) (v : Variant) :
    (versionTag upstream v).toList = upstream.toList ++ suffix v := by
  cases v with
  | base => exact (List.append_nil _).symm
  | sim => exact String.toList_append
  | seeded => exact String.toList_append

theorem mem_suffixes {word : List Char} :
    word ∈ (({['-']} * ({"sim".toList} + {"seeded".toList}) + 1) : Language Char) ↔
      ∃ v, word = suffix v := by
  constructor
  · intro h
    rcases h with h | h
    · obtain ⟨_, rfl, _, hname, rfl⟩ := h
      rcases hname with rfl | rfl
      · exact ⟨.sim, rfl⟩
      · exact ⟨.seeded, rfl⟩
    · exact ⟨.base, h⟩
  · intro h
    obtain ⟨v, rfl⟩ := h
    cases v with
    | base => exact Or.inr rfl
    | sim => exact Or.inl ⟨['-'], rfl, _, Or.inl rfl, rfl⟩
    | seeded => exact Or.inl ⟨['-'], rfl, _, Or.inr rfl, rfl⟩

/-- The pattern takes a version with a variant's suffix, and a final newline. -/
theorem matches_versionTagRe {t : List Char} :
    (∃ u, Pattern.Matches versionTagRe (Cursor.start t) u) ↔
      ∃ x y z v tail, IsDigits x ∧ IsDigits y ∧ IsDigits z ∧ (tail = [] ∨ tail = ['\n']) ∧
        t = x ++ '.' :: (y ++ '.' :: z) ++ (suffix v ++ tail) := by
  have hsuffix := (Pattern.consumes_lit (γ := Empty) ['-']).seq
    ((Pattern.consumes_lit "sim".toList).alt (Pattern.consumes_lit "seeded".toList))
  simp only [versionTagRe, Pattern.matches_seq, Pattern.matches_bol, consumes_dotted _ _,
    hsuffix.alt Pattern.consumes_empty _ _, Pattern.matches_eol, Pattern.atEol_single, mem_dotted,
    mem_suffixes]
  constructor
  · intro h
    obtain ⟨_, _, ⟨_, rfl⟩, _, ⟨_, rest, htext, ⟨x, y, z, hx, hy, hz, rfl⟩, rfl⟩, _,
      ⟨_, tail, hrest, ⟨v, rfl⟩, rfl⟩, htail, -⟩ := h
    have hafter : rest = suffix v ++ tail := hrest
    subst hafter
    exact ⟨x, y, z, v, tail, hx, hy, hz, htail, htext⟩
  · intro h
    obtain ⟨x, y, z, v, tail, hx, hy, hz, htail, rfl⟩ := h
    exact ⟨_, _, ⟨rfl, rfl⟩, _, ⟨_, suffix v ++ tail, rfl, ⟨x, y, z, hx, hy, hz, rfl⟩, rfl⟩, _,
      ⟨_, tail, rfl, ⟨v, rfl⟩, rfl⟩, htail, rfl⟩

/-! ### Which variant a name tracks -/

section

variable {u name : String} {v w : Variant}

theorem lookup_globalTracks {c : Char} {rest : List Char} (hname : name.toList = c :: rest)
    (hc : isDecimal c = true) : globalTracks.lookup name = none := by
  rw [List.lookup_eq_none_iff]
  intro named hmem
  rw [bne_iff_ne]
  intro heq
  rw [heq] at hname
  simp only [globalTracks, List.mem_cons, List.not_mem_nil, or_false] at hmem
  rcases hmem with rfl | rfl | rfl
  all_goals
    cases hname
    exact absurd hc (by decide)

theorem IsUpstream.cons (h : IsUpstream u) :
    ∃ c rest, u.toList = c :: rest ∧ isDecimal c = true := by
  obtain ⟨x, y, z, hx, hy, hz, hu⟩ := h
  obtain ⟨c, x', rfl⟩ := List.exists_cons_of_ne_nil hx.1
  exact ⟨c, _, hu, hx.2 c List.mem_cons_self⟩

theorem IsUpstream.concat (h : IsUpstream u) :
    ∃ start c, u.toList = start ++ [c] ∧ isDecimal c = true := by
  obtain ⟨x, y, z, hx, hy, hz, hu⟩ := h
  obtain ⟨hne, hdecimal⟩ := hz
  refine ⟨x ++ '.' :: (y ++ '.' :: z.dropLast), z.getLast hne, ?_,
    hdecimal _ (List.getLast_mem hne)⟩
  calc u.toList = x ++ '.' :: (y ++ '.' :: (z.dropLast ++ [z.getLast hne])) := by
        rw [hu, List.dropLast_append_getLast]
    _ = x ++ '.' :: (y ++ '.' :: z.dropLast) ++ [z.getLast hne] := by simp

/-- Only the suffix test of its own variant takes a version-level name. -/
theorem suffix_versionTag (h : IsUpstream u) (hw : w ≠ .base) :
    suffix w <:+ (versionTag u v).toList ↔ v = w := by
  constructor
  · intro hsuffix
    obtain ⟨before, hsuffix⟩ := hsuffix
    obtain ⟨start, c, hstart, hc⟩ := h.concat
    rw [versionTag_toList, hstart] at hsuffix
    have hlast := congrArg List.getLast? hsuffix
    cases w with
    | base => exact absurd rfl hw
    | sim | seeded =>
      cases v <;> simp at hlast ⊢
      exact absurd hc (by rw [← hlast]; decide)
  · intro heq
    rw [heq, versionTag_toList]
    exact List.suffix_append _ _

theorem variantFor_versionTag (h : IsUpstream u) (v : Variant) :
    variantFor (versionTag u v) = some v := by
  obtain ⟨c, rest, hcons, hc⟩ := h.cons
  have htext : (versionTag u v).toList = c :: (rest ++ suffix v) := by
    rw [versionTag_toList, hcons]
    rfl
  have hglobal := lookup_globalTracks htext hc
  have hmatches : (versionTagRe.matchStart (versionTag u v).toList).isNone = false := by
    rw [Bool.eq_false_iff, ne_eq, Pattern.isNone_matchStart, not_forall]
    simp only [not_not]
    obtain ⟨x, y, z, hx, hy, hz, hu⟩ := h
    exact matches_versionTagRe.mpr
      ⟨x, y, z, v, [], hx, hy, hz, .inl rfl, by rw [versionTag_toList, hu, List.append_nil]⟩
  have hsim := suffix_versionTag (v := v) h (show Variant.sim ≠ .base by decide)
  have hseeded := suffix_versionTag (v := v) h (show Variant.seeded ≠ .base by decide)
  simp only [suffix_sim, suffix_seeded] at hsim hseeded
  simp only [variantFor, hglobal, hmatches, hsim, hseeded]
  cases v <;> rfl

/-- Build numbers never reach a registry. -/
theorem variantFor_buildName (h : IsBuildName name) : variantFor name = none := by
  obtain ⟨upstream, build, hup, hbuild, hname⟩ := h
  obtain ⟨c, rest, hcons, hc⟩ := hup.cons
  have htext : name.toList = c :: (rest ++ '-' :: build) := by
    rw [hname, hcons]
    rfl
  have hglobal := lookup_globalTracks htext hc
  have hnone : (versionTagRe.matchStart name.toList).isNone = true := by
    rw [Pattern.isNone_matchStart, ← not_exists, matches_versionTagRe]
    intro hmatches
    obtain ⟨x, y, z, v, tail, hx, hy, hz, htail, htext⟩ := hmatches
    obtain ⟨x', y', z', hx', hy', hz', hu⟩ := hup
    rw [hname, hu] at htext
    have hdash : ∀ c ∈ ('-' :: build).head?, isDecimal c = false := by
      intro c hc
      cases hc
      decide
    have hending : ∀ c ∈ (suffix v ++ tail).head?, isDecimal c = false := by
      intro c hc
      rcases htail with rfl | rfl <;> cases v <;> cases hc <;> decide
    simp only [List.append_assoc, List.cons_append] at htext
    obtain ⟨-, -, -, hrest⟩ := dotted_append_inj hx' hy' hz' hx hy hz hdash hending htext
    obtain ⟨d, build', rfl⟩ := List.exists_cons_of_ne_nil hbuild.1
    have hd := hbuild.2 d List.mem_cons_self
    rcases htail with rfl | rfl <;> cases v <;> simp at hrest
    all_goals
      rw [hrest.1] at hd
      exact absurd hd (by decide)
  simp only [variantFor, hglobal, hnone, if_true]

end

/-! ### The names of a plan -/

/-- The names that a plan's outputs ask to be published: the push targets, then the globals. -/
def emittedNames (outputs : List (String × String)) : List String :=
  ([Variant.base, .sim, .seeded].map fun v => output outputs (pushKey v)).filter (· ≠ "") ++
    words (output outputs "globals")

/-- The names of a release with the variants they stand for. -/
def trackedNames (p : Plan) : List (String × Variant) :=
  if p.newestBuild then
    [(p.release.upstream, .base), (p.release.upstream ++ "-sim", .sim),
      (p.release.upstream ++ "-seeded", .seeded)] ++
      if p.top then [("latest", .base), ("sim", .sim), ("seeded", .seeded)] else []
  else []

/-- The plan, the report and the slider name the same tags. -/
structure OneLanguage (p : Plan) : Prop where
  sliding : emittedNames (emit p) = slidingTags p.release p.newestBuild p.top
  unpublished : output (emit p) "publish" = "false" → emittedNames (emit p) = []
  noBuild : ∀ name ∈ emittedNames (emit p), ¬ IsBuildName name
  /-- One call a name, in order, with the digest of the variant the name stands for. -/
  slides : ∀ image digests create (digest : Variant → String),
    (∀ v, digests v = some (digest v)) → (∀ v, digest v ≠ "") → (∀ call, create call = .ok ()) →
      slide image digests create (emittedNames (emit p)) =
        ((trackedNames p).map fun named => ⟨image, named.1, digest named.2⟩,
          .ok (emittedNames (emit p)))
  build : variantFor p.release.version = none

theorem emittedNames_emit (p : Plan) (hne : p.release.upstream ≠ "") :
    emittedNames (emit p) = (trackedNames p).map Prod.fst := by
  have hglobals : words "latest sim seeded" = ["latest", "sim", "seeded"] := by decide
  have hnone : words "" = [] := by decide
  have htags : [p.release.upstream, p.release.upstream ++ "-sim",
      p.release.upstream ++ "-seeded"].filter (· ≠ "") = [p.release.upstream,
        p.release.upstream ++ "-sim", p.release.upstream ++ "-seeded"] := by
    rw [List.filter_eq_self]
    simp [hne]
  have hpushed : emittedNames (emit p) = (if p.newestBuild then [p.release.upstream,
      p.release.upstream ++ "-sim", p.release.upstream ++ "-seeded"].filter (· ≠ "") else []) ++
        words (if p.newestBuild && p.top then "latest sim seeded" else "") := by
    rw [emittedNames, output_globals]
    simp only [output_push]
    cases p.newestBuild <;> rfl
  rw [hpushed, htags, trackedNames]
  cases p.newestBuild <;> cases p.top <;> simp [hglobals, hnone]

theorem tracks_trackedNames {p : Plan} (h : IsUpstream p.release.upstream) :
    ∀ named ∈ trackedNames p, Tracks named := by
  intro named hmem
  rw [trackedNames] at hmem
  split at hmem
  · rcases List.mem_append.mp hmem with hversion | hglobal
    · simp only [List.mem_cons, List.not_mem_nil, or_false] at hversion
      rcases hversion with rfl | rfl | rfl
      · exact variantFor_versionTag h .base
      · exact variantFor_versionTag h .sim
      · exact variantFor_versionTag h .seeded
    · split at hglobal
      · simp only [List.mem_cons, List.not_mem_nil, or_false] at hglobal
        rcases hglobal with rfl | rfl | rfl <;> rfl
      · cases hglobal
  · cases hmem

/-- Whatever is planned: the names the plan prints are the sliding tags, in order, and none names a
build; the slider knows them all, each for its own variant; it refuses the build's name. -/
theorem plan_oneLanguage (pk : Packaging) (gitTag : String) (tags : List String)
    (pinnedLookup : Product → Option String) (p : Plan)
    (h : plan pk gitTag tags pinnedLookup = .ok p) : OneLanguage p := by
  have hup : IsUpstream p.release.upstream := isUpstream_of_parse (plan_ok h).1
  have hne : p.release.upstream ≠ "" := by
    obtain ⟨c, rest, hcons, -⟩ := hup.cons
    intro hempty
    rw [hempty] at hcons
    cases hcons
  have htracks := tracks_trackedNames hup
  have hnames := emittedNames_emit p hne
  constructor
  · rw [hnames, slidingTags, trackedNames, versionTags, globalTags]
    cases p.newestBuild <;> cases p.top <;> rfl
  · intro hpublish
    rw [output_publish] at hpublish
    rw [hnames, trackedNames]
    cases hnewest : p.newestBuild with
    | false => rfl
    | true =>
      rw [hnewest] at hpublish
      exact absurd hpublish (by decide)
  · intro name hmem hbuild
    rw [hnames] at hmem
    obtain ⟨named, hnamed, rfl⟩ := List.mem_map.mp hmem
    cases (variantFor_buildName hbuild).symm.trans (htracks named hnamed)
  · intro image digests create digest hdigests hdigest hcreate
    rw [hnames]
    exact slide_tracked hdigests hdigest hcreate htracks
  · refine variantFor_buildName ⟨p.release.upstream, str p.release.revision, hup, ?_, ?_⟩
    · exact .of_numeral (str_isNumeral _)
    · simp [Release.version]

theorem plan_oneLanguage_example :
    OneLanguage ⟨⟨.network, "10.4.57", 2⟩, "10.4.57", true, true⟩ :=
  plan_oneLanguage numericPackaging "network/10.4.57-2" ["network/10.4.57-1", "network/10.4.57-2"]
    (fun _ => some "10.4.57") _ rfl

/-! ### Refused slides -/

/-- The slider's own refusals, and not a failure of `create`. -/
def SlideError.IsRefusal : SlideError → Prop
  | .unknownTag _ => True
  | .noDigest _ _ => True
  | .createFailed _ _ => False

/-- Why a name is refused: it is no sliding tag, or its variant's digest is missing or empty. -/
def refusal (digests : Variant → Option String) (name : String) : Option SlideError :=
  match variantFor name with
  | none => some (.unknownTag name)
  | some variant =>
      if (digests variant).getD "" = "" then some (.noDigest name variant) else none

/-- The call that moves a name. -/
def moveOf (image : String) (digests : Variant → Option String) (name : String) : CreateCall :=
  ⟨image, name, ((variantFor name).bind digests).getD ""⟩

/-- A `create` that fails at some calls, with a text of its own. -/
def createUnless (fails : CreateCall → Option String) (call : CreateCall) :
    Except SlideError Unit :=
  match fails call with
  | some said => .error (.createFailed call said)
  | none => .ok ()

theorem exists_createUnless (run : List String → Completed) :
    ∃ fails, imagetoolsCreate run = createUnless fails := by
  refine ⟨fun call =>
    let proc := run (imagetoolsArgv call)
    if proc.returncode ≠ 0 then
      let said := if proc.stderr = "" then proc.stdout else proc.stderr
      some (String.ofList ((strip said.toList).take 400))
    else none, ?_⟩
  funext call
  simp only [imagetoolsCreate, createUnless]
  split
  · rfl
  · rfl

section

variable {image : String} {digests : Variant → Option String} {fails : CreateCall → Option String}
  {name : String} {names before after : List String} {e : SlideError}

/-- One step: a name is refused, its move fails, or it moves and the rest follows. -/
theorem slide_cons :
    slide image digests (createUnless fails) (name :: names) =
      match refusal digests name with
      | some e => ([], .error e)
      | none =>
          match fails (moveOf image digests name) with
          | some said =>
              ([moveOf image digests name], .error (.createFailed (moveOf image digests name) said))
          | none =>
              let rest := slide image digests (createUnless fails) names
              (moveOf image digests name :: rest.1, rest.2.map (name :: ·)) := by
  rw [slide, refusal, moveOf]
  cases variantFor name with
  | none => rfl
  | some variant =>
    simp only [Option.bind_some]
    by_cases hdigest : (digests variant).getD "" = ""
    · rw [if_pos hdigest, if_pos hdigest]
    · rw [if_neg hdigest, if_neg hdigest]
      simp only [createUnless]
      cases fails ⟨image, name, (digests variant).getD ""⟩ <;> rfl

theorem isRefusal_of_refusal (h : refusal digests name = some e) : e.IsRefusal := by
  rw [refusal] at h
  split at h
  · cases h
    trivial
  · split at h
    · cases h
      trivial
    · cases h

/-- A name that the slider takes and whose move goes through. -/
def Moves (image : String) (digests : Variant → Option String)
    (fails : CreateCall → Option String) (name : String) : Prop :=
  refusal digests name = none ∧ fails (moveOf image digests name) = none

theorem slide_cons_of_moves (h : Moves image digests fails name) :
    slide image digests (createUnless fails) (name :: names) =
      (moveOf image digests name :: (slide image digests (createUnless fails) names).1,
        (slide image digests (createUnless fails) names).2.map (name :: ·)) := by
  rw [slide_cons, h.1]
  simp only
  rw [h.2]

/-- Every name ahead of the first refused one has moved by then. -/
theorem slide_at_refused (hbefore : ∀ moved ∈ before, Moves image digests fails moved)
    (h : refusal digests name = some e) :
    slide image digests (createUnless fails) (before ++ name :: after) =
      (before.map (moveOf image digests), .error e) := by
  induction before with
  | nil =>
    rw [List.nil_append, slide_cons, h]
    rfl
  | cons moved before ih =>
    have hrest := ih fun other hother => hbefore other (List.mem_cons_of_mem moved hother)
    rw [List.cons_append, slide_cons_of_moves (hbefore moved List.mem_cons_self), hrest]
    rfl

/-- A refusal is of a name in the list, behind names that all moved. -/
theorem slide_refused (h : (slide image digests (createUnless fails) names).2 = .error e)
    (he : e.IsRefusal) :
    ∃ before name after, names = before ++ name :: after ∧ refusal digests name = some e ∧
      ∀ moved ∈ before, Moves image digests fails moved := by
  induction names with
  | nil => cases h
  | cons name names ih =>
    cases hrefusal : refusal digests name with
    | some e' =>
      rw [slide_cons, hrefusal] at h
      cases h
      exact ⟨[], name, names, rfl, hrefusal, fun _ hmem => absurd hmem List.not_mem_nil⟩
    | none =>
      cases hfails : fails (moveOf image digests name) with
      | some said =>
        rw [slide_cons, hrefusal] at h
        simp only [hfails] at h
        cases h
        exact absurd he not_false
      | none =>
        rw [slide_cons_of_moves ⟨hrefusal, hfails⟩] at h
        cases hrest : (slide image digests (createUnless fails) names).2 with
        | ok moved =>
          rw [hrest] at h
          cases h
        | error e' =>
          rw [hrest] at h
          cases h
          obtain ⟨before, refused, after, rfl, hname, hbefore⟩ := ih hrest
          refine ⟨name :: before, refused, after, rfl, hname, ?_⟩
          intro moved hmem
          rcases List.mem_cons.mp hmem with rfl | hmem
          · exact ⟨hrefusal, hfails⟩
          · exact hbefore moved hmem

end

/-- A refused slide has moved nothing, whatever `create` does, exactly when the first name to be
refused leads the list or stands behind a name whose move fails. -/
theorem slide_refused_moves_nothing_iff (image : String) (digests : Variant → Option String)
    (fails : CreateCall → Option String) (names : List String) :
    (∀ e : SlideError, (slide image digests (createUnless fails) names).2 = .error e →
        e.IsRefusal → (slide image digests (createUnless fails) names).1 = []) ↔
      ∀ before name after, names = before ++ name :: after →
        (refusal digests name).isSome → (∀ ahead ∈ before, refusal digests ahead = none) →
          before = [] ∨ ∃ ahead ∈ before, (fails (moveOf image digests ahead)).isSome := by
  constructor
  · intro h before name after hnames hname hbefore
    obtain ⟨e, hrefusal⟩ := Option.isSome_iff_exists.mp hname
    by_contra hmoved
    rw [not_or] at hmoved
    have hmoves : ∀ moved ∈ before, Moves image digests fails moved := by
      intro moved hmem
      refine ⟨hbefore moved hmem, Option.not_isSome_iff_eq_none.mp ?_⟩
      intro hfails
      exact hmoved.2 ⟨moved, hmem, hfails⟩
    have hslide : slide image digests (createUnless fails) (before ++ name :: after) =
        (before.map (moveOf image digests), .error e) := slide_at_refused hmoves hrefusal
    rw [← hnames] at hslide
    have hcalls := h e (congrArg Prod.snd hslide) (isRefusal_of_refusal hrefusal)
    rw [hslide] at hcalls
    exact hmoved.1 (List.map_eq_nil_iff.mp hcalls)
  · intro h e herror he
    obtain ⟨before, name, after, hnames, hname, hbefore⟩ := slide_refused herror he
    have hfirst := h before name after hnames (Option.isSome_iff_exists.mpr ⟨e, hname⟩)
      fun ahead hmem => (hbefore ahead hmem).1
    rcases hfirst with rfl | hfails
    · rw [hnames, List.nil_append, slide_cons, hname]
    · obtain ⟨ahead, hmem, hfails⟩ := hfails
      rw [(hbefore ahead hmem).2] at hfails
      cases hfails

/-- With no digest for `seeded`, the run that refuses it has moved `latest`. -/
theorem slide_partly_moved :
    slide "img" (fun | .base => some "sha256:a" | _ => none) (createUnless fun _ => none)
        ["latest", "seeded"] =
      ([⟨"img", "latest", "sha256:a"⟩], .error (.noDigest "seeded" .seeded)) := by
  decide

end UnifiContainers
