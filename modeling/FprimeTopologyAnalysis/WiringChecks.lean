/-
FprimeTopologyAnalysis.WiringChecks — the checks that read the tables of a
graph only (`PingCoverage`, `FatalPath` and `CommandTelemetryPaths` in
`checks.py`).

They know ports by their FPP type. `wiring_exact` says what is reported in
terms of the model: which own threads no ping reaches, or reaches on the
pinger's thread, and which command, time, event and telemetry ports are
left open. `fatal_exact` goes down to the bodies: a component is reported
when a handler of its comes to emit a FATAL and the event port leads into a
queue or to a port that drops.

`facet` reads a record whether its calls are resolved or not. A FATAL
behind a call that is not resolved goes unseen, where `outputs_for` would
refuse to answer.
-/
import FprimeTopologyAnalysis.Contention
import FprimeTopologyAnalysis.FlowPipeline

namespace FprimeTopologyAnalysis

open Library TopologyGraph CallGraphExtractor

/-! ## The checks -/

/-- `LOG_TYPE`. -/
def logType : String := "Fw.Log"

/-- `PING_TYPE`. -/
def pingType : String := "Svc.Ping"

/-- `TIME_TYPE`. -/
def timeType : String := "Fw.Time"

/-- `TLM_TYPE`. -/
def tlmType : String := "Fw.Tlm"

/-- `FATAL_SEVERITY`. -/
def fatalSeverity : String := "FATAL"

/-- `str(kind)`. -/
def ComponentKind.str : ComponentKind → String
  | .active => "active"
  | .passive => "passive"
  | .queued => "queued"

namespace PingCoverage

/-- `connected`: the ping inputs that something is wired to. -/
def connected (g : TopologyGraph) (name : String) (info : InstanceInfo) : List PortName :=
  (Check.inputsOfType info pingType).filter fun port => ⟨name, port⟩ ∈ g.connectedInputs

/-- The finding on a thread that no ping reaches. -/
def unmonitored (name : String) (info : InstanceInfo) : RawFinding :=
  ⟨.warning, name, name ++ " runs its own thread but no health ping reaches it. If that thread " ++
    "wedges, nothing notices.", ["kind: " ++ info.kind.str]⟩

/-- The finding on a ping that is answered by another thread. -/
def misplaced (name : String) (info : InstanceInfo) (port : PortName) : RawFinding :=
  ⟨.error, name ++ "." ++ port.str,
    "The ping port is " ++
      "/".intercalate ((SyncKind.sorted (info.kindsOf port)).map SyncKind.str) ++
      ", not async, so it is answered on the pinger's thread. It proves nothing about " ++ name ++
      "'s own thread, while reporting healthy.", ["instance kind: " ++ info.kind.str]⟩

/-- The round of one instance. -/
def instanceFindings (g : TopologyGraph) (e : String × InstanceInfo) : List RawFinding :=
  if ¬ e.2.isOwnThread then []
  else
    match connected g e.1 e.2 with
    | [] => [unmonitored e.1 e.2]
    | ports => (ports.filter fun port => .async ∉ e.2.kindsOf port).map (misplaced e.1 e.2)

end PingCoverage

/-- `PingCoverage`: threads that are unmonitored, or monitored in a way that
proves nothing. -/
def pingCoverage : Check where
  id := "ping-coverage"
  requiresFlow := false
  body g := pure ((Check.sortedInstances g).flatMap (PingCoverage.instanceFindings g))
  queries _ := .pure _

namespace FatalPath

/-- `emitters`: the handlers that emit a FATAL. -/
def emitters (g : TopologyGraph) (info : InstanceInfo) : List (PortName × String × SyncKind) :=
  (Check.handlers info).filter fun h =>
    fatalSeverity ∈ g.flow.facet info.componentName h.2.1 "event_severities"

/-- What can become of a report at the port it is sent to. -/
def destHazards (dest : PortKey) (destInfo : InstanceInfo) : List String :=
  let behavior := (destInfo.portQueueFull.get? dest.port).getD defaultQueueFull
  (if .async ∈ destInfo.kindsOf dest.port then
    [dest.str ++ " is async (" ++ behavior.str ++ ") - the report is queued before it is downlinked"]
  else [])
    ++ if behavior = .drop then [dest.str ++ " may drop the report under load"] else []

/-- `hazards`. -/
def hazards (g : TopologyGraph) (name : String) (info : InstanceInfo) : List String :=
  (Check.outputsOfType info logType).flatMap fun port =>
    (g.destinations name port).flatMap fun dest =>
      match g.instances.get? dest.inst with
      | none => []
      | some destInfo => destHazards dest destInfo

/-- The round of one instance. -/
def instanceFindings (g : TopologyGraph) (e : String × InstanceInfo) : List RawFinding :=
  if emitters g e.2 = [] then []
  else if hazards g e.1 e.2 = [] then []
  else
    [⟨.warning, e.1, e.1 ++ " emits a FATAL event, but its reporting path can queue or drop " ++
      "before the report leaves the vehicle.",
      ("emitters: " ++ ", ".intercalate ((emitters g e.2).map fun h => h.2.1)) ::
        sortNames (hazards g e.1 e.2).toFinset⟩]

end FatalPath

/-- `FatalPath`: whether a FATAL report can be dropped or queued before it is
seen. -/
def fatalPath : Check where
  id := "fatal-path"
  requiresFlow := true
  body g := pure ((Check.sortedInstances g).flatMap (FatalPath.instanceFindings g))
  queries _ := .pure _

namespace CommandTelemetryPaths

/-- The finding on a command port that no dispatcher is wired to. -/
def unsendable (name : String) (info : InstanceInfo) (port : PortName) : RawFinding :=
  ⟨.error, name ++ "." ++ port.str, name ++ " defines " ++
    toString info.commandKinds.entries.length ++ " command(s) but its command port is not " ++
    "connected to a dispatcher, so none can be sent.", []⟩

/-- The port types that are looked at, and what goes out of them. -/
def pathTypes : List (String × String) :=
  [(timeType, "time"), (logType, "event"), (tlmType, "telemetry")]

/-- The finding on an output port of such a type. -/
def openEnded (name : String) (port : PortName) (path : String × String) : RawFinding :=
  ⟨if path.1 = timeType then .warning else .info, name ++ "." ++ port.str,
    path.2.capitalize ++ " port unconnected: " ++
      (if path.1 = timeType then
        "every event and channel from this component is timestamped zero"
      else "its " ++ path.2 ++ " output goes nowhere") ++ ".", []⟩

/-- The round of one instance. -/
def instanceFindings (g : TopologyGraph) (e : String × InstanceInfo) : List RawFinding :=
  (match e.2.cmdPort with
    | none => []
    | some port =>
      if e.2.commandKinds.entries ≠ [] ∧ port.str ≠ "" ∧ ⟨e.1, port⟩ ∉ g.connectedInputs then
        [unsendable e.1 e.2 port]
      else [])
    ++ pathTypes.flatMap fun path =>
      ((Check.outputsOfType e.2 path.1).filter fun port => g.destinations e.1 port = []).map fun port =>
        openEnded e.1 port path

end CommandTelemetryPaths

/-- `CommandTelemetryPaths`: ports a deployment needs wired, that fpp-check
does not require. -/
def commandTelemetryPaths : Check where
  id := "cmd-tlm-paths"
  requiresFlow := false
  body g := pure ((Check.sortedInstances g).flatMap (CommandTelemetryPaths.instanceFindings g))
  queries _ := .pure _

/-! ## The tables of a loaded instance -/

/-- A port that receives commands. -/
def PortInstance.ReceivesCommands (port : PortInstance) : Prop :=
  port.direction ≠ some .output
    ∧ match port.specifier with
      | .special .commandRecv _ => True
      | _ => False

instance (port : PortInstance) : Decidable port.ReceivesCommands := by
  unfold PortInstance.ReceivesCommands
  split <;> infer_instance

namespace ComponentInstance

variable {ci : ComponentInstance}

/-- What a port adds to the types. -/
theorem portTypes_addPort (info : InstanceInfo) (port : PortName × PortInstance) :
    (ci.addPort info port).portTypes
      = match port.2.typeName.filter fun name => name ≠ "" with
        | none => info.portTypes
        | some typeName => info.portTypes.set port.1 typeName := by
  have hnote : (info.notePort port.1 port.2).portTypes
      = match port.2.typeName.filter fun name => name ≠ "" with
        | none => info.portTypes
        | some typeName => info.portTypes.set port.1 typeName := by
    unfold InstanceInfo.notePort
    cases port.2.typeName with
    | none => rfl
    | some typeName => by_cases hname : typeName = "" <;> simp [hname, Option.filter]
  have hqueue : ∀ i : InstanceInfo, (i.noteQueue port.1 port.2).portTypes = i.portTypes := by
    intro i
    unfold InstanceInfo.noteQueue
    dsimp only
    split <;> rfl
  unfold addPort
  dsimp only
  split
  · exact hnote
  · split <;> split <;> exact (hqueue _).trans hnote

/-- And to the command port. -/
theorem cmdPort_addPort (info : InstanceInfo) (port : PortName × PortInstance) :
    (ci.addPort info port).cmdPort
      = if port.2.ReceivesCommands then some port.1 else info.cmdPort := by
  have hnote : (info.notePort port.1 port.2).cmdPort = info.cmdPort := by
    unfold InstanceInfo.notePort
    split
    · rfl
    · split <;> rfl
  have hqueue : ∀ i : InstanceInfo, (i.noteQueue port.1 port.2).cmdPort = i.cmdPort := by
    intro i
    unfold InstanceInfo.noteQueue
    dsimp only
    split <;> rfl
  unfold addPort
  dsimp only
  obtain ⟨name, direction, specifier, priority, queueFull, typeName, arraySize⟩ := port
  by_cases hout : direction = some .output
  · simpa [hout, PortInstance.ReceivesCommands] using hnote
  · have hkinds : ∀ (i : InstanceInfo) (kinds : Finset SyncKind),
        (if kinds = ∅ then i else { i with inputPorts := i.inputPorts.set name kinds }).cmdPort
          = i.cmdPort := by
      intro i kinds
      by_cases h : kinds = ∅ <;> simp [h]
    have hpast := ((hkinds _ (ci.inputSyncKinds specifier)).trans (hqueue _)).trans hnote
    cases specifier with
    | special kind inputKind =>
      cases kind with
      | commandRecv => simp [hout, PortInstance.ReceivesCommands]
      | other => simpa [hout, PortInstance.ReceivesCommands] using hpast
    | general kind => simpa [hout, PortInstance.ReceivesCommands] using hpast
    | internal => simpa [hout, PortInstance.ReceivesCommands] using hpast
    | other => simpa [hout, PortInstance.ReceivesCommands] using hpast

/-- A port of a type is declared with it. -/
theorem mem_portsOfType {p : PortName} {typeName : String} (hname : typeName ≠ "") :
    p ∈ Check.portsOfType ci.info typeName
      ↔ ∃ port, ci.portMap.get? p = some port ∧ port.typeName = some typeName := by
  let typed (ports : List (PortName × PortInstance)) : List (PortName × String) :=
    (ports.filter fun port => port.2.typeName.getD "" ≠ "").map fun port =>
      (port.1, port.2.typeName.getD "")
  have hfold : ∀ (ports : List (PortName × PortInstance)) (info : InstanceInfo),
      (ports.foldl ci.addPort info).portTypes
        = (typed ports).foldl (fun d e => d.set e.1 e.2) info.portTypes := by
    intro ports
    induction ports with
    | nil => exact fun _ => rfl
    | cons port ports ih =>
      intro info
      rw [List.foldl_cons, ih, portTypes_addPort]
      cases htype : port.2.typeName with
      | none => simp [typed, htype]
      | some name => by_cases hempty : name = "" <;> simp [typed, htype, hempty, Option.filter]
  have hnd : ((typed ci.portMap.entries).map Prod.fst).Nodup := by
    rw [List.map_map]
    exact ci.portMap.nodupKeys.sublist (List.filter_sublist.map Prod.fst)
  have htypes : ci.info.portTypes = Dict.ofList (typed ci.portMap.entries) :=
    hfold ci.portMap.entries _
  have hget : (p, typeName) ∈ ci.info.portTypes.entries
      ↔ (p, typeName) ∈ typed ci.portMap.entries := by
    rw [htypes, ← Dict.get?_eq_some_iff, Dict.get?_ofList_eq_some_iff hnd]
  have hports : p ∈ Check.portsOfType ci.info typeName
      ↔ (p, typeName) ∈ ci.info.portTypes.entries := by
    simp [Check.portsOfType]
  rw [hports, hget]
  simp only [typed, List.mem_map, List.mem_filter, decide_eq_true_eq, Prod.mk.injEq]
  constructor
  · rintro ⟨⟨q, port⟩, ⟨hmem, hne⟩, rfl, rfl⟩
    refine ⟨port, (ci.portMap.get?_eq_some_iff _ _).mpr hmem, ?_⟩
    cases htype : port.typeName with
    | none => simp [htype] at hne
    | some name => rfl
  · rintro ⟨port, hport, htype⟩
    exact ⟨(p, port), ⟨(ci.portMap.get?_eq_some_iff _ _).mp hport, by simpa [htype] using hname⟩,
      rfl, by simp [htype]⟩

/-- The command port is the last that receives commands. -/
theorem cmdPort_info : ci.info.cmdPort
    = ((ci.portMap.entries.filter fun port => port.2.ReceivesCommands).map Prod.fst).getLast? := by
  have hfold : ∀ (ports : List (PortName × PortInstance)) (info : InstanceInfo),
      (ports.foldl ci.addPort info).cmdPort
        = ((ports.filter fun port => port.2.ReceivesCommands).map Prod.fst).getLast?.or
            info.cmdPort := by
    intro ports
    induction ports with
    | nil => exact fun _ => rfl
    | cons port ports ih =>
      intro info
      rw [List.foldl_cons, ih, cmdPort_addPort]
      by_cases hrecv : port.2.ReceivesCommands
      · simp only [hrecv, if_true, List.filter_cons, decide_true, List.map_cons,
          List.getLast?_cons, Option.some_or]
        cases ((ports.filter fun port => port.2.ReceivesCommands).map Prod.fst).getLast? <;> rfl
      · simp [hrecv]
  exact (hfold ci.portMap.entries _).trans (Option.or_none ..)

/-- Commands are counted by their mnemonics. -/
theorem commandKinds_ne_nil : ci.info.commandKinds.entries ≠ []
    ↔ ∃ mnemonic kind, .nonParam (some mnemonic) kind ∈ ci.commandMap := by
  have hfold : ∀ (commands : List Command) (result : Dict String (Finset SyncKind)) (key : String),
      key ∈ (commands.foldl addCommandKind result).keys
        ↔ key ∈ result.keys ∨ ∃ kind, .nonParam (some key) kind ∈ commands := by
    intro commands
    induction commands with
    | nil => simp
    | cons command commands ih =>
      intro result key
      rw [List.foldl_cons, ih]
      match command with
      | .param => simp [addCommandKind]
      | .nonParam none kind => simp [addCommandKind]
      | .nonParam (some mnemonic) kind =>
        simp only [addCommandKind, Dict.mem_keys_set, List.mem_cons, Command.nonParam.injEq,
          Option.some.injEq]
        constructor
        · rintro ((rfl | hkey) | ⟨kind', hmem⟩)
          · exact .inr ⟨kind, .inl ⟨rfl, rfl⟩⟩
          · exact .inl hkey
          · exact .inr ⟨kind', .inr hmem⟩
        · rintro (hkey | ⟨kind', ⟨rfl, rfl⟩ | hmem⟩)
          · exact .inl (.inr hkey)
          · exact .inl (.inl rfl)
          · exact .inr ⟨kind', hmem⟩
  have hkeys : ∀ key, key ∈ ci.info.commandKinds.keys
      ↔ ∃ kind, .nonParam (some key) kind ∈ ci.commandMap := by
    intro key
    exact (hfold ci.commandMap ∅ key).trans (or_iff_right (by simp [Dict.mem_keys_iff]))
  simp only [← hkeys]
  constructor
  · intro hne
    obtain ⟨e, he⟩ := List.exists_mem_of_ne_nil _ hne
    exact ⟨e.1, List.mem_map.mpr ⟨e, he, rfl⟩⟩
  · rintro ⟨key, hkey⟩ hnil
    simp [Dict.keys, hnil] at hkey

end ComponentInstance

/-! ## What is reported of a model -/

/-- Something is wired to an input port. -/
def Driven (t : Topology) (dest : PortKey) : Prop := ∃ source, Wires t source dest

/-- An output port of a type. -/
def ComponentInstance.TypedOutput (ci : ComponentInstance) (p : PortName) (typeName : String) :
    Prop :=
  ∃ port, ci.portMap.get? p = some port ∧ port.direction = some .output
    ∧ port.typeName = some typeName

/-- An input port of a type, that can be entered under some kind. -/
def ComponentInstance.TypedInput (ci : ComponentInstance) (p : PortName) (typeName : String) :
    Prop :=
  ∃ port, ci.portMap.get? p = some port ∧ port.direction ≠ some .output
    ∧ ci.inputSyncKinds port.specifier ≠ ∅ ∧ port.typeName = some typeName

/-- The command port of a component: the last of its ports that receive
commands. -/
def ComponentInstance.CommandPort (ci : ComponentInstance) (p : PortName) : Prop :=
  ((ci.portMap.entries.filter fun port => port.2.ReceivesCommands).map Prod.fst).getLast? = some p

section Loaded

variable {t : Topology} {flow : PortFlowMap} {ci : ComponentInstance}

theorem mem_outputsOfType {p : PortName} {typeName : String} (hname : typeName ≠ "") :
    p ∈ Check.outputsOfType ci.info typeName ↔ ci.TypedOutput p typeName := by
  simp only [Check.outputsOfType, List.mem_filter, decide_eq_true_eq,
    ComponentInstance.mem_portsOfType hname, ComponentInstance.mem_outputPorts]
  constructor
  · rintro ⟨⟨port, hget, htype⟩, port', hget', hout⟩
    obtain rfl := Option.some.inj (hget.symm.trans hget')
    exact ⟨port, hget, hout, htype⟩
  · rintro ⟨port, hget, hout, htype⟩
    exact ⟨⟨port, hget, htype⟩, port, hget, hout⟩

theorem mem_inputsOfType {p : PortName} {typeName : String} (hname : typeName ≠ "") :
    p ∈ Check.inputsOfType ci.info typeName ↔ ci.TypedInput p typeName := by
  simp only [Check.inputsOfType, List.mem_filter, decide_eq_true_eq, Dict.mem_keys_iff,
    ComponentInstance.mem_portsOfType hname, ComponentInstance.get?_inputPorts]
  constructor
  · rintro ⟨⟨port, hget, htype⟩, kinds, hne, port', hget', hin, rfl⟩
    obtain rfl := Option.some.inj (hget.symm.trans hget')
    exact ⟨port, hget, hin, hne, htype⟩
  · rintro ⟨port, hget, hin, hne, htype⟩
    exact ⟨⟨port, hget, htype⟩, _, hne, port, hget, hin, rfl⟩

theorem driven_iff {dest : PortKey} : dest ∈ (t.load flow).connectedInputs ↔ Driven t dest := by
  rw [Topology.mem_connectedInputs]
  simp only [Driven, Wires, Topology.resolvedConnections, List.mem_filterMap]
  constructor
  · rintro ⟨c, ⟨m, hm, hc⟩, hdest⟩
    exact ⟨_, m, hm, c, hc, rfl, hdest⟩
  · rintro ⟨_, m, hm, c, hc, _, hdest⟩
    exact ⟨c, ⟨m, hm, hc⟩, hdest⟩

/-- A check that asks no queries reports what it produces. -/
theorem reports_pure {check : Check} {g : TopologyGraph} {raws : List RawFinding}
    (h : check.body g = pure raws) {f : RawFinding} : Reports check g f ↔ f ∈ raws := by
  have hrun : check.run g .fresh = (.ok (raws.map check.finding), .fresh) := by
    rw [Check.run, h]
    rfl
  constructor
  · rintro ⟨findings, s, hfindings, hf⟩
    rw [hrun] at hfindings
    obtain rfl := Except.ok.inj (Prod.mk.inj hfindings).1
    exact (List.mem_map_of_injective check.finding_injective).mp hf
  · intro hf
    exact ⟨_, _, hrun, List.mem_map.mpr ⟨f, hf, rfl⟩⟩

/-- One round an instance of the model. -/
theorem mem_rounds {round : String × InstanceInfo → List RawFinding} {f : RawFinding} :
    f ∈ (Check.sortedInstances (t.load flow).toTopologyGraph).flatMap round
      ↔ ∃ ci, .component ci ∈ t.instanceMap ∧ f ∈ round (ci.qualifiedName, ci.info) := by
  simp only [List.mem_flatMap, Check.mem_sortedInstances]
  constructor
  · rintro ⟨⟨name, info⟩, hget, hf⟩
    obtain ⟨ci, hci, rfl, rfl⟩ := Topology.get?_buildInstances.mp hget
    exact ⟨ci, hci, hf⟩
  · rintro ⟨ci, hci, hf⟩
    exact ⟨_, Topology.get?_buildInstances.mpr ⟨ci, hci, rfl, rfl⟩, hf⟩

theorem mem_pingFindings {f : RawFinding} :
    f ∈ PingCoverage.instanceFindings (t.load flow).toTopologyGraph (ci.qualifiedName, ci.info)
      ↔ ci.info.isOwnThread ∧ (((∀ p, ci.TypedInput p pingType → ¬ Driven t ⟨ci.qualifiedName, p⟩)
          ∧ f = PingCoverage.unmonitored ci.qualifiedName ci.info)
        ∨ ∃ p, ci.TypedInput p pingType ∧ Driven t ⟨ci.qualifiedName, p⟩
          ∧ .async ∉ ci.info.kindsOf p ∧ f = PingCoverage.misplaced ci.qualifiedName ci.info p) := by
  have hconnected : ∀ p, p ∈ PingCoverage.connected (t.load flow).toTopologyGraph ci.qualifiedName
      ci.info ↔ ci.TypedInput p pingType ∧ Driven t ⟨ci.qualifiedName, p⟩ := by
    intro p
    rw [PingCoverage.connected, List.mem_filter, mem_inputsOfType (by decide), decide_eq_true_eq,
      driven_iff]
  unfold PingCoverage.instanceFindings
  by_cases hown : ci.info.isOwnThread
  · simp only [hown, not_true_eq_false, if_false, true_and]
    cases hports : PingCoverage.connected (t.load flow).toTopologyGraph ci.qualifiedName ci.info with
    | nil =>
      have hno : ∀ p, ci.TypedInput p pingType → ¬ Driven t ⟨ci.qualifiedName, p⟩ := by
        intro p hp hdriven
        have hmem := (hconnected p).mpr ⟨hp, hdriven⟩
        simp [hports] at hmem
      simp only [List.mem_singleton]
      refine ⟨fun h => .inl ⟨hno, h⟩, ?_⟩
      rintro (⟨_, h⟩ | ⟨p, hp, hdriven, _⟩)
      · exact h
      · exact absurd hdriven (hno p hp)
    | cons port ports =>
      rw [hports] at hconnected
      have hsome : ¬ ∀ p, ci.TypedInput p pingType → ¬ Driven t ⟨ci.qualifiedName, p⟩ := by
        intro hno
        obtain ⟨hp, hdriven⟩ := (hconnected port).mp (List.mem_cons_self ..)
        exact hno port hp hdriven
      simp only [hsome, false_and, false_or, List.mem_map, List.mem_filter, decide_eq_true_eq,
        hconnected]
      constructor
      · rintro ⟨p, ⟨⟨hp, hdriven⟩, hasync⟩, rfl⟩
        exact ⟨p, hp, hdriven, hasync, rfl⟩
      · rintro ⟨p, hp, hdriven, hasync, rfl⟩
        exact ⟨p, ⟨⟨hp, hdriven⟩, hasync⟩, rfl⟩
  · simp [hown]

theorem mem_pathFindings {f : RawFinding} :
    f ∈ CommandTelemetryPaths.instanceFindings (t.load flow).toTopologyGraph
        (ci.qualifiedName, ci.info)
      ↔ (∃ p, ci.CommandPort p ∧ (∃ mnemonic kind, .nonParam (some mnemonic) kind ∈ ci.commandMap)
          ∧ p.str ≠ "" ∧ ¬ Driven t ⟨ci.qualifiedName, p⟩
          ∧ f = CommandTelemetryPaths.unsendable ci.qualifiedName ci.info p)
        ∨ ∃ path ∈ CommandTelemetryPaths.pathTypes, ∃ p, ci.TypedOutput p path.1
          ∧ (∀ dest, ¬ Wires t ⟨ci.qualifiedName, p⟩ dest)
          ∧ f = CommandTelemetryPaths.openEnded ci.qualifiedName p path := by
  have hopen : ∀ p, (t.load flow).destinations ci.qualifiedName p = []
      ↔ ∀ dest, ¬ Wires t ⟨ci.qualifiedName, p⟩ dest := by
    intro p
    rw [List.eq_nil_iff_forall_not_mem]
    exact forall_congr' fun dest => not_congr (@wires_iff t ⟨ci.qualifiedName, p⟩ dest flow).symm
  have htyped : ∀ path ∈ CommandTelemetryPaths.pathTypes, path.1 ≠ "" := by decide
  have hpaths : (∃ path ∈ CommandTelemetryPaths.pathTypes, ∃ p,
      (p ∈ Check.outputsOfType ci.info path.1 ∧ (t.load flow).destinations ci.qualifiedName p = [])
        ∧ CommandTelemetryPaths.openEnded ci.qualifiedName p path = f)
      ↔ ∃ path ∈ CommandTelemetryPaths.pathTypes, ∃ p, ci.TypedOutput p path.1
        ∧ (∀ dest, ¬ Wires t ⟨ci.qualifiedName, p⟩ dest)
        ∧ f = CommandTelemetryPaths.openEnded ci.qualifiedName p path := by
    refine exists_congr fun path => and_congr_right fun hpath => exists_congr fun p => ?_
    rw [mem_outputsOfType (htyped path hpath), hopen, and_assoc, eq_comm]
  unfold CommandTelemetryPaths.instanceFindings
  rw [List.mem_append]
  refine or_congr ?_ ?_
  · have hport : ∀ p, ci.CommandPort p ↔ ci.info.cmdPort = some p := fun p => by
      rw [ComponentInstance.cmdPort_info]
      rfl
    simp only [hport, ← ComponentInstance.commandKinds_ne_nil, ← @driven_iff t flow]
    cases ci.info.cmdPort with
    | none => simp
    | some port =>
      dsimp only
      split
      · simp_all
      · rename_i hno
        simp only [List.not_mem_nil, Option.some.injEq, false_iff]
        rintro ⟨_, rfl, hcommands, hname, hdriven, _⟩
        exact hno ⟨hcommands, hname, hdriven⟩
  · rw [← hpaths]
    simp only [List.mem_flatMap, List.mem_map, List.mem_filter, decide_eq_true_eq]

end Loaded

/-- **What is left unwired**: of a graph loaded from a model, the checks
report the instances with a thread of their own and no ping input that
something is wired to, the wired ping inputs that are not async, the
command ports of components with commands that nothing is wired to, and the
time, event and telemetry outputs that lead nowhere; and nothing else. -/
theorem wiring_exact (t : Topology) (flow : PortFlowMap) (f : RawFinding) :
    (Reports pingCoverage (t.load flow).toTopologyGraph f
      ↔ ∃ ci, .component ci ∈ t.instanceMap ∧ ci.info.isOwnThread
        ∧ (((∀ p, ci.TypedInput p pingType → ¬ Driven t ⟨ci.qualifiedName, p⟩)
            ∧ f = PingCoverage.unmonitored ci.qualifiedName ci.info)
          ∨ ∃ p, ci.TypedInput p pingType ∧ Driven t ⟨ci.qualifiedName, p⟩
            ∧ .async ∉ ci.info.kindsOf p ∧ f = PingCoverage.misplaced ci.qualifiedName ci.info p))
    ∧ (Reports commandTelemetryPaths (t.load flow).toTopologyGraph f
      ↔ ∃ ci, .component ci ∈ t.instanceMap
        ∧ ((∃ p, ci.CommandPort p ∧ (∃ mnemonic kind, .nonParam (some mnemonic) kind ∈ ci.commandMap)
            ∧ p.str ≠ "" ∧ ¬ Driven t ⟨ci.qualifiedName, p⟩
            ∧ f = CommandTelemetryPaths.unsendable ci.qualifiedName ci.info p)
          ∨ ∃ path ∈ CommandTelemetryPaths.pathTypes, ∃ p, ci.TypedOutput p path.1
            ∧ (∀ dest, ¬ Wires t ⟨ci.qualifiedName, p⟩ dest)
            ∧ f = CommandTelemetryPaths.openEnded ci.qualifiedName p path)) := by
  constructor
  · rw [reports_pure rfl, mem_rounds]
    simp only [mem_pingFindings]
  · rw [reports_pure rfl, mem_rounds]
    simp only [mem_pathFindings]

/-! ## FATAL reports -/

/-- A body behind some handler of the component, or one that it comes to
call, emits a FATAL. -/
def EmitsFatal (x : UnitResult) (ci : ComponentInstance) : Prop :=
  ∃ port kind entry, kind ∈ ci.info.kindsOf port ∧ entry ∈ ci.info.flowEntries port kind
    ∧ ∃ key, Handles x (ci.componentName.getD "") entry key
      ∧ ReachesFact x.methods key (.severity fatalSeverity)

/-- What is sent to an input port waits in a queue, or may be dropped. -/
def MayWait (t : Topology) (dest : PortKey) : Prop :=
  ∃ ci port, .component ci ∈ t.instanceMap ∧ ci.qualifiedName = dest.inst
    ∧ ci.portMap.get? dest.port = some port ∧ port.direction ≠ some .output
    ∧ (.async ∈ ci.inputSyncKinds port.specifier ∨ port.queueFullBehavior = .drop)

section Fatal

variable {t : Topology} {x : UnitResult} {compileCommands : String} {ci : ComponentInstance}

/-- The severities that are recorded are those the bodies show. -/
theorem mem_facet_flowOf {component entry severity : String} :
    severity ∈ (flowOf compileCommands x).facet component entry "event_severities"
      ↔ ∃ key, Handles x component entry key ∧ ReachesFact x.methods key (.severity severity) := by
  have hrecorded : ∀ {name : String} {h : FlowHandler}, ImplementedAs x component name →
      recordAt (flowComponents x) name entry = some h → (severity ∈ h.eventSeverities
        ↔ ∃ key, Handles x component entry key ∧ ReachesFact x.methods key (.severity severity)) := by
    intro name h himpl hrecord
    have hhas : h.Has (.severity severity) ↔ _ := has_of_recordAt himpl hrecord
    simpa only [FlowHandler.Has, Fact.KeptFor, and_true] using hhas
  have hfield : ∀ h : FlowHandler,
      (h.record.lists.get? "event_severities").getD [] = sortNames h.eventSeverities := by
    intro h
    simp [FlowHandler.record, Dict.ofList]
  unfold PortFlowMap.facet
  split
  · rename_i hlookup
    simp only [List.not_mem_nil, false_iff]
    rintro ⟨key, hkey, _⟩
    obtain ⟨name, h, himpl, hrecord⟩ := exists_recordAt.mpr ⟨key, hkey⟩
    have hsome : (flowOf compileCommands x).lookup component entry = some h.record :=
      lookup_flowOf.mpr ⟨name, h, himpl, hrecord, rfl⟩
    rw [hsome] at hlookup
    cases hlookup
  · rename_i record hlookup
    obtain ⟨name, h, himpl, hrecord, rfl⟩ := lookup_flowOf.mp hlookup
    rw [hfield, mem_sortNames]
    exact hrecorded himpl hrecord

theorem emitters_ne_nil :
    FatalPath.emitters (t.load (flowOf compileCommands x)).toTopologyGraph ci.info ≠ []
      ↔ EmitsFatal x ci := by
  rw [FatalPath.emitters, ne_eq, List.filter_eq_nil_iff, not_forall]
  simp only [decide_eq_true_eq, not_forall, not_not, Prod.exists, Check.mem_handlers]
  have hflow : (t.load (flowOf compileCommands x)).flow = flowOf compileCommands x := rfl
  rw [hflow, ComponentInstance.componentName_info]
  simp only [mem_facet_flowOf, EmitsFatal]
  constructor
  · rintro ⟨port, entry, kind, ⟨hkind, hentry⟩, hkey⟩
    exact ⟨port, kind, entry, hkind, hentry, hkey⟩
  · rintro ⟨port, kind, entry, hkind, hentry, hkey⟩
    exact ⟨port, entry, kind, ⟨hkind, hentry⟩, hkey⟩

theorem destHazards_ne_nil {dest : PortKey} :
    FatalPath.destHazards dest ci.info ≠ [] ↔ ∃ port, ci.portMap.get? dest.port = some port
      ∧ port.direction ≠ some .output
      ∧ (.async ∈ ci.inputSyncKinds port.specifier ∨ port.queueFullBehavior = .drop) := by
  have hdrop : (ci.info.portQueueFull.get? dest.port).getD defaultQueueFull = .drop
      ↔ ci.info.portQueueFull.get? dest.port = some .drop := by
    cases ci.info.portQueueFull.get? dest.port with
    | none => simp [defaultQueueFull]
    | some behavior => simp
  unfold FatalPath.destHazards
  dsimp only
  rw [ne_eq, List.append_eq_nil_iff, not_and_or]
  simp only [ite_eq_right_iff, List.cons_ne_nil, imp_false, not_not, hdrop,
    ComponentInstance.mem_kindsOf, ComponentInstance.get?_portQueueFull]
  constructor
  · rintro (⟨port, hget, hin, hasync⟩ | ⟨port, hget, hin, hbehavior⟩)
    · exact ⟨port, hget, hin, .inl hasync⟩
    · exact ⟨port, hget, hin, .inr hbehavior⟩
  · rintro ⟨port, hget, hin, hasync | hbehavior⟩
    · exact .inl ⟨port, hget, hin, hasync⟩
    · exact .inr ⟨port, hget, hin, hbehavior⟩

theorem hazards_ne_nil {flow : PortFlowMap} :
    FatalPath.hazards (t.load flow).toTopologyGraph ci.qualifiedName ci.info ≠ []
      ↔ ∃ p dest, ci.TypedOutput p logType ∧ Wires t ⟨ci.qualifiedName, p⟩ dest ∧ MayWait t dest := by
  have hwires : ∀ p dest, dest ∈ (t.load flow).destinations ci.qualifiedName p
      ↔ Wires t ⟨ci.qualifiedName, p⟩ dest := fun p dest =>
    (@wires_iff t ⟨ci.qualifiedName, p⟩ dest flow).symm
  have hwaits : ∀ dest, (match (t.load flow).instances.get? dest.inst with
      | none => []
      | some destInfo => FatalPath.destHazards dest destInfo) ≠ [] ↔ MayWait t dest := by
    intro dest
    unfold MayWait
    split
    · rename_i hnone
      simp only [ne_eq, not_true_eq_false, false_iff]
      rintro ⟨ci', port, hci, hname, _⟩
      have hsome := Topology.get?_buildInstances.mpr ⟨ci', hci, hname, rfl⟩
      exact absurd (hnone.symm.trans hsome) (by simp)
    · rename_i destInfo hget
      constructor
      · intro hne
        obtain ⟨ci', hci, hname, rfl⟩ := Topology.get?_buildInstances.mp hget
        obtain ⟨port, hport, hrest⟩ := destHazards_ne_nil.mp hne
        exact ⟨ci', port, hci, hname, hport, hrest⟩
      · rintro ⟨ci', port, hci, hname, hport, hrest⟩
        have hsame := Topology.get?_buildInstances.mpr ⟨ci', hci, hname, rfl⟩
        obtain rfl := Option.some.inj (hsame.symm.trans hget)
        exact destHazards_ne_nil.mpr ⟨port, hport, hrest⟩
  have hlog : logType ≠ "" := by decide
  unfold FatalPath.hazards
  simp only [ne_eq, List.flatMap_eq_nil_iff, not_forall, mem_outputsOfType hlog, hwires] at hwaits ⊢
  simp only [hwaits]
  constructor
  · rintro ⟨p, hp, dest, hwire, hwait⟩
    exact ⟨p, dest, hp, hwire, hwait⟩
  · rintro ⟨p, dest, hp, hwire, hwait⟩
    exact ⟨p, hp, dest, hwire, hwait⟩

/-- **Which FATAL reports can be held up**: an instance is reported when a
body behind one of its handlers comes to emit a FATAL and an event output
of its is wired to an input that queues or drops what it is sent. -/
theorem fatal_exact (t : Topology) (x : UnitResult) (compileCommands name : String) :
    (∃ f, Reports fatalPath (t.load (flowOf compileCommands x)).toTopologyGraph f ∧ f.subject = name)
      ↔ ∃ ci, .component ci ∈ t.instanceMap ∧ ci.qualifiedName = name ∧ EmitsFatal x ci
        ∧ ∃ p dest, ci.TypedOutput p logType ∧ Wires t ⟨name, p⟩ dest ∧ MayWait t dest := by
  have hround : ∀ ci : ComponentInstance, (∃ f, f ∈ FatalPath.instanceFindings
      (t.load (flowOf compileCommands x)).toTopologyGraph (ci.qualifiedName, ci.info)
        ∧ f.subject = name) ↔ ci.qualifiedName = name ∧ EmitsFatal x ci
          ∧ ∃ p dest, ci.TypedOutput p logType ∧ Wires t ⟨ci.qualifiedName, p⟩ dest
            ∧ MayWait t dest := by
    intro ci
    rw [← @emitters_ne_nil t x compileCommands ci, ← @hazards_ne_nil t ci (flowOf compileCommands x)]
    unfold FatalPath.instanceFindings
    dsimp only
    split
    · simp [*]
    · split
      · simp [*]
      · simp [*]
  constructor
  · rintro ⟨f, hf, hsubject⟩
    rw [reports_pure rfl, mem_rounds] at hf
    obtain ⟨ci, hci, hf⟩ := hf
    obtain ⟨hname, hemits, p, dest, hrest⟩ := (hround ci).mp ⟨f, hf, hsubject⟩
    exact ⟨ci, hci, hname, hemits, p, dest, hname ▸ hrest⟩
  · rintro ⟨ci, hci, rfl, hrest⟩
    obtain ⟨f, hf, hsubject⟩ := (hround ci).mpr ⟨rfl, hrest⟩
    exact ⟨f, (reports_pure rfl).mpr (mem_rounds.mpr ⟨ci, hci, hf⟩), hsubject⟩

end Fatal

end FprimeTopologyAnalysis
