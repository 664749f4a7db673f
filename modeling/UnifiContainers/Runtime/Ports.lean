import UnifiContainers.Properties.Library

/-!
# The port of the controller

The entrypoint adds the documented ports to `system.properties` and the probe asks the file where the
controller listens. Both go through the vendored library, and what the entrypoint writes does not
change where the probe looks.
-/

namespace UnifiContainers.Ports

open Properties OrderedDict Fallible

/-! ### The file -/

/-- What `open(path).read()` makes of line endings. -/
def universalNewlines (text : List Char) : List Char :=
  (asciiSplitlines text).flatMap fun line =>
    content line ++ if ending line = [] then [] else ['\n']

/-- The text of a file that may not be there. -/
def readFile (file : Option (List Char)) : List Char := universalNewlines (file.getD [])

def httpPort : Key := "unifi.http.port".toList.map ord

def httpsPort : Key := "unifi.https.port".toList.map ord

/-- `DEFAULT_HTTPS_PORT` -/
def defaultHttpsPort : Value := "8443".toList.map ord

/-- `SYSPROPS_DEFAULTS` -/
def syspropsDefaults : List (Key × Value) :=
  [(httpPort, "8080".toList.map ord), (httpsPort, "8443".toList.map ord)]

/-- `network.write_system_properties`, the file that it leaves. -/
def writeSystemProperties (settings : Option (List (Key × Value))) (file : Option (List Char)) :
    Except InvalidUEscapeError (Option (List Char)) := do
  let merged ← merge (readFile file) (settings.getD syspropsDefaults) true
  return if merged = readFile file then file else some merged

/-- `port or DEFAULT_HTTPS_PORT` -/
def portOr (port : Option Value) : Value :=
  match port with
  | none => defaultHttpsPort
  | some port => if port = [] then defaultHttpsPort else port

/-- `healthcheck.network_url` -/
def networkUrl (host : Value) (file : Option (List Char)) : Except InvalidUEscapeError Value := do
  let port ← match file with
    | none => .ok none
    | some raw => (fun items => items.lookup httpsPort) <$> loads (universalNewlines raw)
  return "https://".toList.map ord ++ host ++ [ord ':'] ++ portOr port

/-! ### Line endings -/

variable {text raw : List Char} {file after : Option (List Char)}
  {settings : Option (List (Key × Value))} {items : List (Key × Value)}

theorem not_cr_universalNewlines (text : List Char) : '\r' ∉ universalNewlines text := by
  intro hmem
  obtain ⟨line, -, hmem⟩ := List.mem_flatMap.mp hmem
  rcases List.mem_append.mp hmem with hmem | hmem
  · cases not_isEol_of_mem_content hmem
  · split at hmem
    · cases hmem
    · cases List.mem_singleton.mp hmem

theorem universalNewlines_eq (h : '\r' ∉ text) : universalNewlines text = text := by
  have hlines : ∀ line ∈ asciiSplitlines text,
      (content line ++ if ending line = [] then [] else ['\n']) = line := by
    intro line hline
    have hcr : '\r' ∉ line := fun hmem => h (by
      rw [← flatten_asciiSplitlines text]
      exact List.mem_flatten.mpr ⟨line, hline, hmem⟩)
    have hending := isLine_of_mem hline
    have hparts := content_append_ending line
    rw [IsLine, List.mem_cons, List.mem_cons, List.mem_cons, List.mem_singleton] at hending
    rcases hending with hnil | hcrEnd | hlf | hcrlf
    · rw [if_pos hnil, ← hnil, hparts]
    · rw [← hparts, hcrEnd] at hcr
      exact absurd (by simp) hcr
    · rw [hlf, if_neg (List.cons_ne_nil _ _), ← hlf, hparts]
    · rw [← hparts, hcrlf] at hcr
      exact absurd (by simp) hcr
  rw [universalNewlines, List.flatMap_def, List.map_congr_left hlines, List.map_id',
    flatten_asciiSplitlines]

/-- The entrypoint writes line feeds only, so that the text it writes is the text that is read. -/
theorem readFile_write (h : writeSystemProperties settings file = .ok after) :
    merge (readFile file) (settings.getD syspropsDefaults) true = .ok (readFile after) := by
  rw [writeSystemProperties] at h
  obtain ⟨merged, hmerge, h⟩ := bind_ok h
  rw [hmerge]
  have hread : readFile after = merged := by
    by_cases hsame : merged = readFile file
    · rw [if_pos hsame] at h
      cases h
      exact hsame.symm
    · rw [if_neg hsame] at h
      cases h
      refine universalNewlines_eq fun hcr => ?_
      obtain ⟨items, hload⟩ := exists_loads hmerge
      obtain ⟨added, kept, tail, eol, -, hkept, -, heol, hgrown⟩ :=
        merge_grows hload (settings.getD syspropsDefaults)
      rw [hmerge, Except.ok.injEq] at hgrown
      split at hgrown
      · exact hsame hgrown
      · rw [Option.getD_some, hgrown, List.mem_append, List.mem_append] at hcr
        rcases hcr with (hcr | hcr) | hcr
        · exact not_cr_universalNewlines (file.getD []) (by
            rw [← readFile, hkept]
            exact List.mem_append_left _ hcr)
        · rcases heol with rfl | rfl
          · cases hcr
          · cases List.mem_singleton.mp hcr
        · obtain ⟨item, -, hcr⟩ := List.mem_flatMap.mp hcr
          rcases List.mem_append.mp hcr with hcr | hcr
          · cases joinKeyValue_not_eol item.1 item.2 '\r' hcr
          · cases List.mem_singleton.mp hcr
  rw [hread]

theorem networkUrl_eq (host : Value) (hload : loads (readFile file) = .ok items) :
    networkUrl host file = .ok ("https://".toList.map ord ++ host ++ [ord ':'] ++
      portOr (items.lookup httpsPort)) := by
  cases file with
  | none =>
    have hempty : loads (readFile none) = .ok [] := rfl
    cases hempty.symm.trans hload
    rfl
  | some raw =>
    have hraw : loads (universalNewlines raw) = .ok items := hload
    rw [networkUrl, hraw]
    rfl

theorem lookup_syspropsDefaults : syspropsDefaults.lookup httpsPort = some defaultHttpsPort := by
  decide

/-- The probe goes where it went before the entrypoint wrote the defaults. -/
theorem networkUrl_write (h : writeSystemProperties none file = .ok after)
    (hwhole : ¬LoneBackslash (readFile file)) (host : Value) :
    networkUrl host after = networkUrl host file := by
  have hmerge := readFile_write h
  obtain ⟨items, hload⟩ := exists_loads hmerge
  have hread := loads_merge hwhole (show Plain syspropsDefaults by decide) true
  rw [Option.getD_none] at hmerge
  rw [hmerge, ok_bind, hload] at hread
  rw [networkUrl_eq host hread, networkUrl_eq host hload, lookup_mergeItems,
    lookup_syspropsDefaults]
  cases items.lookup httpsPort <;> rfl

theorem networkUrl_write_new : ∃ after, writeSystemProperties none (some ['a', '\r']) = .ok after ∧
    networkUrl ("localhost".toList.map ord) after =
      networkUrl ("localhost".toList.map ord) (some ['a', '\r']) :=
  ⟨_, rfl, networkUrl_write rfl (fun hlone => by cases hlone.1) _⟩

end UnifiContainers.Ports
