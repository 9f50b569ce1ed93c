/-
FprimeTopologyAnalysis.FlowPipeline — from C++ bodies to the calls between
ports: the flow map that `component_call_graph.py` builds, read by
`port_flow.py`, under a topology that `topology_graph.py` has loaded.

The flow map is a dictionary that is handed over as it is, or goes through
a JSON file. `load_text_exact`: both are the same map, and a file of
another version is refused. What the map then answers is what the bodies
show (`outputsFor_flowOf`), so a call of the loaded graph is a
connection of the model whose output port some body behind the handler
comes to invoke (`hop_from_source`).

A component is implemented by the first of its candidate class names that
the map covers. Handlers recorded under another candidate are not seen.
-/
import FprimeTopologyAnalysis.CallClosure
import FprimeTopologyAnalysis.ModelLoad
import FprimeTopologyAnalysis.UnitCache

namespace FprimeTopologyAnalysis

open Library CallGraphExtractor

/-! ## The flow map as JSON -/

/-- The fields of a handler. -/
def FlowHandler.fields (h : FlowHandler) : List (String × Json) :=
  [("ports", .ofNames (sortNames h.ports)),
    ("opaque", .bool h.isOpaque),
    ("functions_visited", .int h.functionsVisited),
    ("guarded_ports", .ofNames (sortNames h.guardedPorts)),
    ("fields_written", .ofNames (sortNames h.fieldsWritten)),
    ("fields_read", .ofNames (sortNames h.fieldsRead)),
    ("locks_taken", .ofNames (sortNames h.locksTaken)),
    ("event_severities", .ofNames (sortNames h.eventSeverities))]

/-- A handler, as `build_flow_map` stores it. -/
def FlowHandler.toJson (h : FlowHandler) : Json := .obj h.fields

/-- A component. -/
def FlowComponent.toJson (c : FlowComponent) : Json :=
  .obj [("class", .str c.cls), ("handlers", .ofDict FlowHandler.toJson c.handlers)]

/-- The dictionary that `build_flow_map` returns. -/
def FlowMap.toJson (m : FlowMap) : Json :=
  .obj [
    ("version", .int m.version),
    ("implemented_by", .obj (m.implementedBy.map fun e => (e.1, .str e.2))),
    ("compile_commands", .str m.compileCommands),
    ("parsed_files", .int m.parsedFiles),
    ("failed_files", .ofNames m.failedFiles),
    ("not_generated", .ofNames m.notGenerated),
    ("components", .ofDict FlowComponent.toJson m.components)]

/-! ## What `PortFlowMap` reads -/

/-- A handler's record: the facts that are lists of names, and the mark. -/
def HandlerRecord.ofJson (record : Json) : Option HandlerRecord := do
  let fields ← record.dict?
  pure {
    lists := Dict.ofList (fields.entries.filterMap fun e =>
      (Json.listOf Json.str? e.2).map (Prod.mk e.1))
    isOpaque := (fields.get? "opaque").bind Json.bool? }

/-- A component's record. One without handlers covers the component. -/
def ComponentRecord.ofJson (record : Json) : Option ComponentRecord := do
  let fields ← record.dict?
  match fields.get? "handlers" with
  | none => pure ⟨∅⟩
  | some handlers => (Json.dictOf HandlerRecord.ofJson handlers).map ComponentRecord.mk

/-- What `load` raises. A map whose records are no dictionaries is only
noticed at a lookup; that is left out. -/
inductive FlowLoadError where
  | fileNotFound
  | malformed
  | noDictionary
  | unsupportedVersion (version : Option Json)
  | malformedRecords

/-- `version != FLOW_FORMAT_VERSION`, the other way round. `True` is 1. A map
with the version `1.0`, which Python takes for 1, is malformed here:
`Json.loads` has no numbers with a fraction. -/
def isFlowVersion : Option Json → Bool
  | some (.int n) => n = flowFormatVersion
  | some (.bool b) => b
  | _ => false

/-- `PortFlowMap(data, strict)`. -/
def PortFlowMap.ofData (data : Dict String Json) (strict : Bool) : Option PortFlowMap :=
  match data.get? "components" with
  | none => some ⟨∅, strict⟩
  | some components =>
    (Json.dictOf ComponentRecord.ofJson components).map fun d => ⟨d, strict⟩

/-- `load`: the text of the file, if there is one. -/
def PortFlowMap.load (file : Option String) (strict : Bool) : Except FlowLoadError PortFlowMap :=
  match file with
  | none => .error .fileNotFound
  | some text =>
    match Json.loads text with
    | none => .error .malformed
    | some json =>
      match json.dict? with
      | none => .error .noDictionary
      | some data =>
        if isFlowVersion (data.get? "version") then
          match PortFlowMap.ofData data strict with
          | none => .error .malformedRecords
          | some flow => .ok flow
        else .error (.unsupportedVersion (data.get? "version"))

/-! ## The map that is handed over -/

/-- The record of a handler. -/
def FlowHandler.record (h : FlowHandler) : HandlerRecord where
  lists := .ofList [
    ("ports", sortNames h.ports),
    ("guarded_ports", sortNames h.guardedPorts),
    ("fields_written", sortNames h.fieldsWritten),
    ("fields_read", sortNames h.fieldsRead),
    ("locks_taken", sortNames h.locksTaken),
    ("event_severities", sortNames h.eventSeverities)]
  isOpaque := some h.isOpaque

/-- The record of a component. -/
def FlowComponent.record (c : FlowComponent) : ComponentRecord :=
  ⟨c.handlers.mapValues FlowHandler.record⟩

/-- The flow map that a run's result is handed over as. -/
def FlowMap.portFlowMap (m : FlowMap) (strict : Bool) : PortFlowMap :=
  ⟨m.components.mapValues FlowComponent.record, strict⟩

theorem HandlerRecord.ofJson_toJson (h : FlowHandler) : ofJson h.toJson = some h.record := by
  have hnd : (h.fields.map Prod.fst).Nodup := by
    show ["ports", "opaque", "functions_visited", "guarded_ports", "fields_written", "fields_read",
      "locks_taken", "event_severities"].Nodup
    decide
  have hclear : (Dict.ofList h.fields).get? "opaque" = some (.bool h.isOpaque) := by
    rw [Dict.get?_ofList_eq_some_iff hnd]
    simp [FlowHandler.fields]
  have hjson : h.toJson.dict? = some (Dict.ofList h.fields) := rfl
  have hbool : Json.listOf Json.str? (.bool h.isOpaque) = none := rfl
  have hint : Json.listOf Json.str? (.int h.functionsVisited) = none := rfl
  unfold ofJson
  rw [hjson]
  simp only [Option.pure_def, Option.bind_eq_bind, Option.bind_some, hclear,
    Dict.entries_ofList hnd]
  simp [FlowHandler.fields, FlowHandler.record, hbool, hint, Json.bool?]

theorem ComponentRecord.ofJson_toJson (c : FlowComponent) : ofJson c.toJson = some c.record := by
  have hread := Json.dictOf_ofDict HandlerRecord.ofJson_toJson c.handlers
  simp [ofJson, FlowComponent.toJson, Json.dict?, Dict.ofList, hread, FlowComponent.record]

theorem FlowMap.dict_toJson (m : FlowMap) : ∃ data, m.toJson.dict? = some data
    ∧ data.get? "version" = some (.int m.version)
    ∧ data.get? "components" = some (.ofDict FlowComponent.toJson m.components) := by
  refine ⟨_, rfl, ?_, ?_⟩
  · simp [Dict.ofList]
  · simp [Dict.ofList]

/-- A map that is handed over has the records of the components. -/
theorem PortFlowMap.ofData_toJson {m : FlowMap} {data : Dict String Json} (strict : Bool)
    (h : m.toJson.dict? = some data) : ofData data strict = some (m.portFlowMap strict) := by
  obtain ⟨data', hdata', _, hcomponents⟩ := m.dict_toJson
  obtain rfl := Option.some.inj (h.symm.trans hdata')
  have hread := Json.dictOf_ofDict ComponentRecord.ofJson_toJson m.components
  simp [ofData, hcomponents, hread, FlowMap.portFlowMap]

/-- The `payload` of `_write_cached_flow`. The database goes in by its
digest. -/
def CallGraphExtractor.FlowPayload.toJson (digest : CompileCommands → String) (payload : FlowPayload) : Json :=
  .obj [
    ("version", .int payload.version),
    ("extractor", .str payload.extractor),
    ("compile_commands", .str (digest payload.compileCommands)),
    ("dependencies", .obj ((sortStamps payload.dependencies).map fun p => (p.1, stampToJson p.2))),
    ("data", payload.data.toJson)]

/-- `payload["data"]`, if it is a dictionary. -/
def cachedData (text : String) : Option (Dict String Json) :=
  (Json.loads text).bind fun payload => (payload.field "data").bind Json.dict?

/-- **A flow map survives its file.** What `load` reads of a map's text, and
what a run takes over from its cache file, is the map as it is handed over
in memory. A map of another version is refused. -/
theorem load_text_exact (m : FlowMap) (strict : Bool) :
    (m.version = flowFormatVersion →
      PortFlowMap.load (some (Json.dumps m.toJson)) strict = .ok (m.portFlowMap strict))
    ∧ (m.version ≠ flowFormatVersion → PortFlowMap.load (some (Json.dumps m.toJson)) strict
      = .error (.unsupportedVersion (some (.int m.version))))
    ∧ ∀ (digest : CompileCommands → String) (payload : FlowPayload), payload.data = m →
      (cachedData (Json.dumps (payload.toJson digest))).bind (PortFlowMap.ofData · strict)
        = some (m.portFlowMap strict) := by
  obtain ⟨data, hdata, hversion, _⟩ := m.dict_toJson
  have hload : PortFlowMap.load (some (Json.dumps m.toJson)) strict
      = if isFlowVersion (some (.int m.version)) then .ok (m.portFlowMap strict)
        else .error (.unsupportedVersion (some (.int m.version))) := by
    unfold PortFlowMap.load
    simp only [Json.loads_dumps, hdata, hversion, PortFlowMap.ofData_toJson strict hdata]
  refine ⟨fun h => ?_, fun h => ?_, fun digest payload hpayload => ?_⟩
  · rw [hload, if_pos (by simp [isFlowVersion, h])]
  · rw [hload, if_neg (by simpa [isFlowVersion] using fun heq => h (Int.ofNat.inj heq))]
  · have hfield : (payload.toJson digest).field "data" = some m.toJson := by
      simp [FlowPayload.toJson, field_obj, Dict.ofList, hpayload]
    unfold cachedData
    rw [Json.loads_dumps, Option.bind_some, hfield, Option.bind_some, hdata, Option.bind_some]
    exact PortFlowMap.ofData_toJson strict hdata

/-! ## What a fresh map answers -/

/-- The map a run hands over. -/
def flowOf (compileCommands : String) (x : UnitResult) : PortFlowMap :=
  (buildFlowMap compileCommands x).portFlowMap true

/-- Some method is a handler of class `name`. -/
def Covers (x : UnitResult) (name : String) : Prop :=
  ∃ key ∈ x.methods.keys, ∃ entry, MapsTo x.classComponent key name entry

/-- Component `component` is implemented as `name`: the first of its
candidate names that some handler is recorded under. -/
def ImplementedAs (x : UnitResult) (component name : String) : Prop :=
  ∃ before after, PortFlowMap.candidateNames component = before ++ name :: after
    ∧ (∀ other ∈ before, ¬ Covers x other) ∧ Covers x name

/-- Method `key` is a handler of `component` for `entry`. -/
def Handles (x : UnitResult) (component entry : String) (key : MethodKey) : Prop :=
  key ∈ x.methods.keys ∧ ∃ name, ImplementedAs x component name
    ∧ MapsTo x.classComponent key name entry

section Answers

variable {compileCommands : String} {x : UnitResult} {component entry : String}

theorem exactFlow : ExactFlow x.methods x.classComponent x.methods.keys (flowComponents x) :=
  (exactFlow_foldl _).perm (sortKeys_perm x.methods)

/-- A component of the map has a handler. -/
theorem exists_handler {name : String} {c : FlowComponent}
    (h : (flowComponents x).get? name = some c) : ∃ entry, (c.handlers.get? entry).isSome := by
  have hgen : ∀ (keys : List MethodKey) (components : Dict String FlowComponent),
      (∀ name c, components.get? name = some c → ∃ entry, (c.handlers.get? entry).isSome) →
      ∀ name c, (keys.foldl (addHandler x.methods x.classComponent) components).get? name = some c →
        ∃ entry, (c.handlers.get? entry).isSome := by
    intro keys
    induction keys with
    | nil => exact fun _ h => h
    | cons key keys ih =>
      intro components hcomponents
      refine ih _ fun name c hget => ?_
      unfold addHandler at hget
      split at hget
      · exact hcomponents name c hget
      · rename_i entry' _
        dsimp only at hget
        rw [Dict.get?_set] at hget
        split at hget
        · obtain rfl := Option.some.inj hget
          exact ⟨entry', by simp⟩
        · exact hcomponents name c hget
  exact hgen _ ∅ (by simp) name c h

theorem covers_iff {name : String} :
    Covers x name ↔ ((flowComponents x).get? name).isSome := by
  constructor
  · rintro ⟨key, hkey, entry, hmaps⟩
    have hrecorded := (exactFlow.recorded name entry).mpr ⟨key, hkey, hmaps⟩
    unfold recordAt at hrecorded
    cases hget : (flowComponents x).get? name with
    | none => simp [hget] at hrecorded
    | some c => rfl
  · intro h
    obtain ⟨c, hget⟩ := Option.isSome_iff_exists.mp h
    obtain ⟨entry, hentry⟩ := exists_handler hget
    have hrecorded : (recordAt (flowComponents x) name entry).isSome := by
      simpa [recordAt, hget] using hentry
    obtain ⟨key, hkey, hmaps⟩ := (exactFlow.recorded name entry).mp hrecorded
    exact ⟨key, hkey, entry, hmaps⟩

theorem get?_components_flowOf {name : String} :
    (flowOf compileCommands x).components.get? name
      = ((flowComponents x).get? name).map FlowComponent.record :=
  Dict.get?_mapValues ..

/-- The map covers a component as the class it is implemented as. -/
theorem componentRecord_flowOf {record : ComponentRecord} :
    (flowOf compileCommands x).componentRecord component = some record
      ↔ ∃ name c, ImplementedAs x component name ∧ (flowComponents x).get? name = some c
        ∧ record = c.record := by
  have hnone : ∀ name, (flowOf compileCommands x).components.get? name = none ↔ ¬ Covers x name := by
    intro name
    rw [covers_iff, get?_components_flowOf]
    simp
  unfold PortFlowMap.componentRecord ImplementedAs
  rw [List.findSome?_eq_some_iff]
  constructor
  · rintro ⟨before, name, after, hsplit, hget, hbefore⟩
    rw [get?_components_flowOf, Option.map_eq_some_iff] at hget
    obtain ⟨c, hc, rfl⟩ := hget
    exact ⟨name, c, ⟨before, after, hsplit, fun other ho => (hnone other).mp (hbefore other ho),
      covers_iff.mpr (by rw [hc]; rfl)⟩, hc, rfl⟩
  · rintro ⟨name, c, ⟨before, after, hsplit, hbefore, _⟩, hc, rfl⟩
    refine ⟨before, name, after, hsplit, ?_, fun other ho => (hnone other).mpr (hbefore other ho)⟩
    rw [get?_components_flowOf, hc]
    rfl

/-- A component is implemented as one class. -/
theorem ImplementedAs.unique {name name' : String} (h : ImplementedAs x component name)
    (h' : ImplementedAs x component name') : name = name' := by
  have hfind : ∀ n, ImplementedAs x component n →
      (PortFlowMap.candidateNames component).find?
        (fun other => ((flowComponents x).get? other).isSome) = some n := by
    rintro n ⟨before, after, hsplit, hbefore, hn⟩
    refine List.find?_eq_some_iff_append.mpr ⟨covers_iff.mp hn, before, after, hsplit, ?_⟩
    intro other ho
    have hno := mt covers_iff.mpr (hbefore other ho)
    simpa using hno
  exact Option.some.inj ((hfind name h).symm.trans (hfind name' h'))

/-- A lookup finds the record of the class that implements the component. -/
theorem lookup_flowOf {record : HandlerRecord} :
    (flowOf compileCommands x).lookup component entry = some record
      ↔ ∃ name h, ImplementedAs x component name
        ∧ recordAt (flowComponents x) name entry = some h ∧ record = h.record := by
  unfold PortFlowMap.lookup
  rw [Option.bind_eq_some_iff]
  simp only [componentRecord_flowOf]
  constructor
  · rintro ⟨_, ⟨name, c, himpl, hget, rfl⟩, hentry⟩
    rw [FlowComponent.record, Dict.get?_mapValues, Option.map_eq_some_iff] at hentry
    obtain ⟨h, hh, rfl⟩ := hentry
    exact ⟨name, h, himpl, by rw [recordAt, hget]; exact hh, rfl⟩
  · rintro ⟨name, h, himpl, hrecord, rfl⟩
    unfold recordAt at hrecord
    obtain ⟨c, hget, hh⟩ := Option.bind_eq_some_iff.mp hrecord
    refine ⟨c.record, ⟨name, c, himpl, hget, rfl⟩, ?_⟩
    rw [FlowComponent.record, Dict.get?_mapValues, hh]
    rfl

/-- What the record of an entry shows. -/
theorem has_of_recordAt {name : String} {h : FlowHandler} (himpl : ImplementedAs x component name)
    (hrecord : recordAt (flowComponents x) name entry = some h) {fact : Fact} :
    h.Has fact ↔ ∃ key, Handles x component entry key ∧ ReachesFact x.methods key fact
      ∧ fact.KeptFor key.1 name := by
  rw [exactFlow.facts name entry h hrecord fact]
  constructor
  · rintro ⟨key, hkey, hmaps, hrest⟩
    exact ⟨key, ⟨hkey, name, himpl, hmaps⟩, hrest⟩
  · rintro ⟨key, ⟨hkey, name', himpl', hmaps⟩, hrest⟩
    obtain rfl := himpl.unique himpl'
    exact ⟨key, hkey, hmaps, hrest⟩

/-- There is a record for an entry that some method handles. -/
theorem exists_recordAt : (∃ name h, ImplementedAs x component name
      ∧ recordAt (flowComponents x) name entry = some h)
    ↔ ∃ key, Handles x component entry key := by
  constructor
  · rintro ⟨name, h, himpl, hrecord⟩
    obtain ⟨key, hkey, hmaps⟩ := (exactFlow.recorded name entry).mp (by rw [hrecord]; rfl)
    exact ⟨key, hkey, name, himpl, hmaps⟩
  · rintro ⟨key, hkey, name, himpl, hmaps⟩
    obtain ⟨h, hrecord⟩ := Option.isSome_iff_exists.mp
      ((exactFlow.recorded name entry).mpr ⟨key, hkey, hmaps⟩)
    exact ⟨name, h, himpl, hrecord⟩

theorem ports_record (h : FlowHandler) :
    (h.record.lists.get? "ports").getD [] = sortNames h.ports := by
  simp [FlowHandler.record, Dict.ofList]

/-- Which lookups the map answers, and with which ports. -/
theorem outputsFor_flowOf {declared outs : List PortName} :
    ((∃ outs, (flowOf compileCommands x).outputsFor component entry declared = .ok outs)
      ↔ (∃ key, Handles x component entry key)
        ∧ ∀ key, Handles x component entry key → ¬ ReachesFact x.methods key .unresolvedCall)
    ∧ ((flowOf compileCommands x).outputsFor component entry declared = .ok outs → ∀ p, p ∈ outs
      ↔ p ∈ declared ∧ ∃ key, Handles x component entry key
        ∧ ReachesFact x.methods key (.port p.str)) := by
  have hresolved : ∀ record, (flowOf compileCommands x).resolvedRecord component entry = some record
      ↔ ∃ name h, ImplementedAs x component name
        ∧ recordAt (flowComponents x) name entry = some h ∧ record = h.record
        ∧ h.isOpaque = false := by
    intro record
    unfold PortFlowMap.resolvedRecord
    rw [Option.filter_eq_some_iff, lookup_flowOf]
    constructor
    · rintro ⟨⟨name, h, himpl, hrecord, rfl⟩, hclear⟩
      exact ⟨name, h, himpl, hrecord, rfl, by simpa [FlowHandler.record] using hclear⟩
    · rintro ⟨name, h, himpl, hrecord, rfl, hclear⟩
      exact ⟨⟨name, h, himpl, hrecord, rfl⟩, by simp [FlowHandler.record, hclear]⟩
  have hclear : ∀ {name : String} {h : FlowHandler}, ImplementedAs x component name →
      recordAt (flowComponents x) name entry = some h → (h.isOpaque = false
        ↔ ∀ key, Handles x component entry key → ¬ ReachesFact x.methods key .unresolvedCall) := by
    intro name h himpl hrecord
    have hhas : h.Has .unresolvedCall ↔ _ := has_of_recordAt himpl hrecord
    simp only [FlowHandler.Has, Fact.KeptFor, and_true] at hhas
    rw [← Bool.not_eq_true, hhas]
    simp
  constructor
  · rw [PortFlowMap.outputsFor_strict_iff _ rfl, Option.isSome_iff_exists, ← exists_recordAt]
    simp only [hresolved]
    constructor
    · rintro ⟨_, name, h, himpl, hrecord, _, hno⟩
      exact ⟨⟨name, h, himpl, hrecord⟩, (hclear himpl hrecord).mp hno⟩
    · rintro ⟨⟨name, h, himpl, hrecord⟩, hno⟩
      exact ⟨_, name, h, himpl, hrecord, rfl, (hclear himpl hrecord).mpr hno⟩
  · intro hok p
    unfold PortFlowMap.outputsFor at hok
    split at hok
    · have hstrict : (flowOf compileCommands x).strict = true := rfl
      rw [if_pos hstrict] at hok
      cases hok
    · rename_i record hrec
      obtain ⟨name, h, himpl, hrecord, rfl, _⟩ := (hresolved record).mp hrec
      obtain rfl := Except.ok.inj hok
      have hhas : h.Has (.port p.str) ↔ _ := has_of_recordAt himpl hrecord
      simp only [FlowHandler.Has, Fact.KeptFor, and_true] at hhas
      rw [ports_record, ← hhas, List.mem_filterMap]
      constructor
      · rintro ⟨port, hport, hfind⟩
        have hstr : p.str = port := by simpa using List.find?_some hfind
        exact ⟨List.mem_of_find?_eq_some hfind, hstr ▸ mem_sortNames.mp hport⟩
      · rintro ⟨hmem, hport⟩
        refine ⟨p.str, mem_sortNames.mpr hport, ?_⟩
        cases hfind : declared.find? fun q => q.str = p.str with
        | none =>
          rw [List.find?_eq_none] at hfind
          exact absurd (decide_eq_true rfl) (hfind p hmem)
        | some q =>
          have hstr : q.str = p.str := by simpa using List.find?_some hfind
          rw [PortName.str_injective hstr]

end Answers

/-! ## The calls of a loaded graph -/

/-- A port of the model that can be entered under `kind`. -/
def EnterableAt (t : Topology) (port : PortKey) (kind : SyncKind) (ci : ComponentInstance) : Prop :=
  .component ci ∈ t.instanceMap ∧ ci.qualifiedName = port.inst
    ∧ ∃ declared, ci.portMap.get? port.port = some declared ∧ declared.direction ≠ some .output
      ∧ kind ∈ ci.inputSyncKinds declared.specifier

/-- The body behind flow entry `entry` of an instance of the model comes to
invoke output port `source`, and every call on the way is resolved. -/
def BodyInvokes (t : Topology) (x : UnitResult) (entry : String) (source : PortKey) : Prop :=
  ∃ ci declared, .component ci ∈ t.instanceMap ∧ ci.qualifiedName = source.inst
    ∧ ci.portMap.get? source.port = some declared ∧ declared.direction = some .output
    ∧ (∀ key, Handles x (ci.componentName.getD "") entry key →
      ¬ ReachesFact x.methods key .unresolvedCall)
    ∧ ∃ key, Handles x (ci.componentName.getD "") entry key
      ∧ ReachesFact x.methods key (.port source.port.str)

/-- A connection of the model that resolves. -/
def Wires (t : Topology) (source dest : PortKey) : Prop :=
  ∃ m ∈ t.outputConnectionMap.flatten, ∃ c, m.resolve = some c ∧ c.source.port = source
    ∧ c.dest.port = dest

theorem ComponentInstance.componentName_info (ci : ComponentInstance) :
    ci.info.componentName = ci.componentName.getD "" := by
  have hadd : ∀ (port : PortName × PortInstance) (info : InstanceInfo),
      (ci.addPort info port).componentName = info.componentName := by
    intro port info
    unfold addPort InstanceInfo.notePort InstanceInfo.noteQueue
    dsimp only
    repeat' split
    all_goals rfl
  have hfold : ∀ (ports : List (PortName × PortInstance)) (info : InstanceInfo),
      (ports.foldl ci.addPort info).componentName = info.componentName := by
    intro ports
    induction ports with
    | nil => exact fun _ => rfl
    | cons port ports ih => exact fun info => (ih _).trans (hadd port info)
  exact hfold ci.portMap.entries _

section Calls

variable {t : Topology} {x : UnitResult} {compileCommands : String}

theorem invokes_load_iff {inst entry : String} {source : PortKey} :
    (t.load (flowOf compileCommands x)).Invokes (inst, entry) source
      ↔ source.inst = inst ∧ BodyInvokes t x entry source := by
  unfold TopologyGraph.Invokes BodyInvokes
  refine and_congr_right fun hinst => ?_
  subst hinst
  constructor
  · rintro ⟨info, outs, hget, houts, hport⟩
    obtain ⟨ci, hci, hname, rfl⟩ := Topology.get?_buildInstances.mp hget
    have houts' : (flowOf compileCommands x).outputsFor ci.info.componentName entry
        ci.info.outputPorts = .ok outs := houts
    rw [ComponentInstance.componentName_info] at houts'
    obtain ⟨hok, hmem⟩ := @outputsFor_flowOf compileCommands x (ci.componentName.getD "") entry
      ci.info.outputPorts outs
    obtain ⟨hdeclared, hbody⟩ := (hmem houts' source.port).mp hport
    obtain ⟨declared, hdecl, hout⟩ := ComponentInstance.mem_outputPorts.mp hdeclared
    exact ⟨ci, declared, hci, hname, hdecl, hout, (hok.mp ⟨outs, houts'⟩).2, hbody⟩
  · rintro ⟨ci, declared, hci, hname, hdecl, hout, hresolved, key, hkey, hreach⟩
    obtain ⟨outs, houts⟩ := (@outputsFor_flowOf compileCommands x (ci.componentName.getD "") entry
      ci.info.outputPorts []).1.mpr ⟨⟨key, hkey⟩, hresolved⟩
    refine ⟨ci.info, outs, Topology.get?_buildInstances.mpr ⟨ci, hci, hname, rfl⟩, ?_, ?_⟩
    · show (flowOf compileCommands x).outputsFor ci.info.componentName entry ci.info.outputPorts = _
      rw [ComponentInstance.componentName_info, houts]
    · refine ((outputsFor_flowOf).2 houts source.port).mpr ⟨?_, key, hkey, hreach⟩
      exact ComponentInstance.mem_outputPorts.mpr ⟨declared, hdecl, hout⟩

theorem wires_iff {source dest : PortKey} {flow : PortFlowMap} :
    Wires t source dest ↔ dest ∈ (t.load flow).destinations source.inst source.port := by
  rw [Topology.mem_destinations_load]
  simp only [Topology.resolvedConnections, List.mem_filterMap, Wires]
  constructor
  · rintro ⟨m, hm, c, hc, hsource, hdest⟩
    exact ⟨c, ⟨m, hm, hc⟩, hsource, hdest⟩
  · rintro ⟨c, ⟨m, hm, hc⟩, hsource, hdest⟩
    exact ⟨m, hm, c, hc, hsource, hdest⟩

/-- **The calls of the analysed graph are those of the program.** Of the
graph loaded from a model with the flow map of an extraction: a handler has
a hop exactly when the model wires the output port to the input port, the
input can be entered under the hop's kind, and the bodies behind the handler,
with every call of theirs resolved, come to invoke the output port. -/
theorem hop_from_source (t : Topology) (x : UnitResult) (compileCommands : String) (h : Handler)
    (hop : OutwardHop) :
    (t.load (flowOf compileCommands x)).HopOut h hop
      ↔ hop.source.inst = h.1 ∧ BodyInvokes t x h.2 hop.source ∧ Wires t hop.source hop.dest
        ∧ ∃ ci, EnterableAt t hop.dest hop.kind ci ∧ hop.destInfo = ci.info := by
  rw [TopologyGraph.hopOut_iff, ← wires_iff]
  have hinvokes := @invokes_load_iff t x compileCommands h.1 h.2 hop.source
  rw [Prod.mk.eta] at hinvokes
  rw [hinvokes, and_assoc]
  refine and_congr_right' (and_congr_right' (and_congr_right' ?_))
  constructor
  · rintro ⟨hget, hk⟩
    obtain ⟨ci, hci, hname, hinfo⟩ := Topology.get?_buildInstances.mp hget
    rw [← hinfo] at hk
    exact ⟨ci, ⟨hci, hname, ComponentInstance.mem_kindsOf.mp hk⟩, hinfo.symm⟩
  · rintro ⟨ci, ⟨hci, hname, hk⟩, hinfo⟩
    rw [hinfo]
    exact ⟨Topology.get?_buildInstances.mpr ⟨ci, hci, hname, rfl⟩,
      ComponentInstance.mem_kindsOf.mpr hk⟩

end Calls

end FprimeTopologyAnalysis
