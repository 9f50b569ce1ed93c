/-
FprimeTopologyAnalysis.TopologyModel — loading the topology
(`_build_instances`, `_build_connections` and what they call in
`topology_graph.py`).

The FPP model is read here as far as the loader reads it: component
instances with their ports and commands, and connections between
endpoints. It hands both back in an order that is not stable between runs,
so the loader sorts the destination lists. What is left of the model's
order is the order in which the two tables were filled
(`load_sameTables`).
-/
import FprimeTopologyAnalysis.TopologyGraph

namespace FprimeTopologyAnalysis

open Library

/-! ## The FPP model -/

/-- `Direction` of a port instance. -/
inductive Direction where
  | input
  | output
  deriving DecidableEq

/-- `GeneralKind`. -/
inductive GeneralKind where
  | asyncInput
  | guardedInput
  | output
  | syncInput
  deriving DecidableEq

/-- `SpecialKind`; the loader tells only command reception apart. -/
inductive SpecialKind where
  | commandRecv
  | other
  deriving DecidableEq

/-- `SpecialInputKind`. -/
inductive SpecialInputKind where
  | async
  | guarded
  | sync
  deriving DecidableEq

/-- The classes of port instances, with what the loader reads of them. -/
inductive PortSpecifier where
  | general (kind : GeneralKind)
  | special (kind : SpecialKind) (inputKind : Option SpecialInputKind)
  | internal
  | other
  deriving DecidableEq

/-- The priority expression of a port: a literal, a named constant with its
value where the model has evaluated it to a number, or none of these. -/
inductive PortPriority where
  | undeclared
  | literal (value : Int)
  | ident (value : Option Int)
  | other
  deriving DecidableEq

/-- `PortInstance`. The array size and the name of the type are absent
where the model raises or has none. -/
structure PortInstance where
  direction : Option Direction
  specifier : PortSpecifier
  priority : PortPriority := .undeclared
  queueFull : Option QueueFull := none
  typeName : Option String := none
  arraySize : Option Int := some 1
  deriving DecidableEq

/-- A general port that declares no more than its kind. -/
def PortInstance.general (direction : Direction) (kind : GeneralKind) : PortInstance where
  direction := some direction
  specifier := .general kind

/-- The kinds of a command that is not generated for a parameter. An async
command has queue properties of its own. -/
inductive NonParamKind where
  | async (priority : Option Int) (queueFull : QueueFull)
  | guarded
  | sync
  deriving DecidableEq

/-- `Command`. The name is absent where `get_name()` raises. -/
inductive Command where
  | nonParam (name : Option String) (kind : NonParamKind)
  | param
  deriving DecidableEq

/-- `ComponentInstance`, with its component's tables. The component's name
is absent where the lookup of its symbol raises. The order of the sets that
the loader makes of it goes with the instance. -/
structure ComponentInstance where
  qualifiedName : String
  kind : ComponentKind
  componentName : Option String := none
  portMap : Dict PortName PortInstance := ∅
  commandMap : List Command := []
  priority : Option Int := none
  queueSize : Option Int := none
  kindOrder : KindOrder := .byText
  deriving DecidableEq

/-- `InterfaceInstance`: a component instance, or something else that has
ports. -/
inductive InterfaceInstance where
  | component (ci : ComponentInstance)
  | other
  deriving DecidableEq

/-- `isinstance(interface_instance, InterfaceComponentInstance)`. -/
def InterfaceInstance.component? : InterfaceInstance → Option ComponentInstance
  | .component ci => some ci
  | .other => none

/-- An underlying endpoint of a connection. -/
structure Endpoint where
  interfaceInstance : InterfaceInstance
  portInstance : PortName
  portNumber : Option Int
  deriving DecidableEq

/-- A connection of the model. An endpoint is absent where
`get_underlying_endpoint()` raises. -/
structure ModelConnection where
  fromEndpoint : Option Endpoint
  toEndpoint : Option Endpoint
  deriving DecidableEq

/-- The selected `Topology`, as its two maps are iterated. A qualified name
names one component instance. -/
structure Topology where
  instanceMap : List InterfaceInstance
  outputConnectionMap : List (List ModelConnection)
  nodupNames : ((instanceMap.filterMap InterfaceInstance.component?).map
    ComponentInstance.qualifiedName).Nodup

/-! ## Dispatch kinds -/

/-- `_command_kind`. -/
def Command.syncKind : Command → SyncKind
  | .nonParam _ (.async _ _) => .async
  | .nonParam _ .guarded => .guarded
  | .nonParam _ .sync => .sync
  | .param => .sync

/-- `_command_sync_kinds`. -/
def ComponentInstance.commandSyncKinds (ci : ComponentInstance) : Finset SyncKind :=
  (ci.commandMap.map Command.syncKind).toFinset

/-- `_special_input_kind`. -/
def specialInputKind : Option SpecialInputKind → SyncKind
  | some .async => .async
  | some .guarded => .guarded
  | some .sync => .sync
  | none => .sync

/-- `_input_sync_kinds`. -/
def ComponentInstance.inputSyncKinds (ci : ComponentInstance) : PortSpecifier → Finset SyncKind
  | .general .guardedInput => {.guarded}
  | .general .syncInput => {.sync}
  | .general .asyncInput => {.async}
  | .general .output => ∅
  | .special .commandRecv inputKind =>
    -- a component may declare the port but no commands of its own
    if ci.commandSyncKinds = ∅ then {specialInputKind inputKind} else ci.commandSyncKinds
  | .special .other inputKind => {specialInputKind inputKind}
  | .internal => {.async}
  | .other => ∅

/-- The body of the loop of `_command_kinds_by_mnemonic`. -/
def addCommandKind (result : Dict String (Finset SyncKind)) :
    Command → Dict String (Finset SyncKind)
  | .param => result
  | .nonParam none _ => result
  | .nonParam (some mnemonic) kind =>
    result.set mnemonic
      (insert (Command.syncKind (.nonParam (some mnemonic) kind))
        ((result.get? mnemonic).getD ∅))

/-- `_command_kinds_by_mnemonic`. -/
def ComponentInstance.commandKindsByMnemonic (ci : ComponentInstance) :
    Dict String (Finset SyncKind) :=
  ci.commandMap.foldl addCommandKind ∅

/-! ## Queue properties -/

/-- `_port_priority`: only a general port can name a constant. -/
def PortInstance.portPriority (port : PortInstance) : Option Int :=
  match port.specifier, port.priority with
  | .general _, .literal value => some value
  | .general _, .ident value => value
  | .special _ _, .literal value => some value
  | .internal, .literal value => some value
  | _, _ => none

/-- `_queue_full_behavior`. -/
def PortInstance.queueFullBehavior (port : PortInstance) : QueueFull :=
  match port.specifier with
  | .other => defaultQueueFull
  | _ => port.queueFull.getD defaultQueueFull

/-- The body of the loop of `_async_command_queue_properties`. -/
def addQueueProperties (props : Dict String Int × Dict String QueueFull) :
    Command → Dict String Int × Dict String QueueFull
  | .nonParam (some mnemonic) (.async priority queueFull) =>
    (match priority with
      | some priority => props.1.set mnemonic priority
      | none => props.1,
      props.2.set mnemonic queueFull)
  | _ => props

/-- `_async_command_queue_properties`. -/
def ComponentInstance.asyncCommandQueueProperties (ci : ComponentInstance) :
    Dict String Int × Dict String QueueFull :=
  ci.commandMap.foldl addQueueProperties (∅, ∅)

/-! ## The instance table -/

/-- What the loop over a component's ports notes of a port of either
direction. -/
def InstanceInfo.notePort (info : InstanceInfo) (name : PortName) (port : PortInstance) :
    InstanceInfo :=
  let info :=
    match port.typeName with
    | none => info
    | some typeName =>
      if typeName = "" then info else { info with portTypes := info.portTypes.set name typeName }
  { info with portSizes := info.portSizes.set name (port.arraySize.getD 1) }

/-- What the loop notes of the queue behind an input port. -/
def InstanceInfo.noteQueue (info : InstanceInfo) (name : PortName) (port : PortInstance) :
    InstanceInfo :=
  let info := { info with portQueueFull := info.portQueueFull.set name port.queueFullBehavior }
  match port.portPriority with
  | none => info
  | some priority => { info with portPriorities := info.portPriorities.set name priority }

/-- The body of the loop over a component's ports. -/
def ComponentInstance.addPort (ci : ComponentInstance) (info : InstanceInfo)
    (port : PortName × PortInstance) : InstanceInfo :=
  let info := info.notePort port.1 port.2
  if port.2.direction = some .output then
    { info with outputPorts := info.outputPorts ++ [port.1] }
  else
    let info := info.noteQueue port.1 port.2
    let kinds := ci.inputSyncKinds port.2.specifier
    let info :=
      if kinds = ∅ then info else { info with inputPorts := info.inputPorts.set port.1 kinds }
    match port.2.specifier with
    | .special .commandRecv _ => { info with cmdPort := some port.1 }
    | _ => info

/-- The `InstanceInfo` that `_build_instances` makes of an instance. -/
def ComponentInstance.info (ci : ComponentInstance) : InstanceInfo :=
  let info := ci.portMap.entries.foldl ci.addPort
    { kind := ci.kind, componentName := ci.componentName.getD "", taskPriority := ci.priority
      kindOrder := ci.kindOrder, queueSize := ci.queueSize }
  { info with
    commandKinds := ci.commandKindsByMnemonic
    commandPriorities := ci.asyncCommandQueueProperties.1
    commandQueueFull := ci.asyncCommandQueueProperties.2 }

namespace Topology

variable (t : Topology)

/-- The component instances, in the order of `instance_map`. -/
def components : List ComponentInstance := t.instanceMap.filterMap InterfaceInstance.component?

/-- `_build_instances`. -/
def buildInstances : Dict String InstanceInfo :=
  .ofList (t.components.map fun ci => (ci.qualifiedName, ci.info))

end Topology

/-! ## The connection table -/

/-- `ConnectionEnd`: one end of a connection, with its port array index. -/
structure ConnectionEnd where
  port : PortKey
  index : Option Int
  deriving DecidableEq

/-- `str(end)`. -/
def ConnectionEnd.str (e : ConnectionEnd) : String :=
  match e.index with
  | none => e.port.str
  | some index => e.port.str ++ "[" ++ toString index ++ "]"

/-- The text after the port's. -/
private theorem ConnectionEnd.toList_str (e : ConnectionEnd) :
    e.str.toList = e.port.inst.toList ++ '.' :: (e.port.port.str.toList
      ++ match e.index with
        | none => []
        | some index => '[' :: (index.repr.toList ++ [']'])) := by
  unfold ConnectionEnd.str
  split <;> simp [PortKey.str, String.toList_append]

/-- The text the source keys its rates by determines the end. -/
theorem ConnectionEnd.str_injective : Function.Injective ConnectionEnd.str := by
  rintro ⟨⟨i, p⟩, m⟩ ⟨⟨j, q⟩, n⟩ h
  have hchars := congrArg String.toList h
  rw [ConnectionEnd.toList_str, ConnectionEnd.toList_str] at hchars
  have hport : ∀ (r : PortName) (k : Option Int), '.' ∉ r.str.toList
      ++ match k with
        | none => []
        | some index => '[' :: (index.repr.toList ++ [']']) := by
    intro r k hmem
    rcases List.mem_append.mp hmem with hmem | hmem
    · exact r.property.notMem (by decide) hmem
    · cases k with
      | none => simp at hmem
      | some index =>
        have hrepr : '.' ∈ index.repr.toList := by simpa using hmem
        exact absurd (Text.mem_repr hrepr) (by decide)
  obtain ⟨hinst, hrest⟩ := Text.append_cons_inj (hport p m) (hport q n) hchars
  have hindex : p = q ∧ m = n := by
    have hbracket : ∀ (r : PortName), '[' ∉ r.str.toList := fun r => r.property.notMem (by decide)
    cases m with
    | none =>
      cases n with
      | none => exact ⟨PortName.str_injective (String.toList_injective (by simpa using hrest)), rfl⟩
      | some b => exact absurd (by simpa using hrest) fun heq => hbracket p (by simp [heq])
    | some a =>
      cases n with
      | none => exact absurd (by simpa using hrest) fun heq => hbracket q (by simp [← heq])
      | some b =>
        have hdigits : ∀ k : Int, '[' ∉ k.repr.toList ++ [']'] := by
          intro k hmem
          have hrepr : '[' ∈ k.repr.toList := by simpa using hmem
          exact absurd (Text.mem_repr hrepr) (by decide)
        obtain ⟨hp, hn⟩ := Text.append_cons_inj (hdigits a) (hdigits b) hrest
        have hrepr : a.repr = b.repr := String.toList_injective (List.append_cancel_right hn)
        exact ⟨PortName.str_injective (String.toList_injective hp),
          congrArg some (Text.intRepr_injective hrepr)⟩
  have hij : i = j := String.toList_injective hinst
  rw [hij, hindex.1, hindex.2]

/-- `Connection`: from an output port to an input port. -/
structure Connection where
  source : ConnectionEnd
  dest : ConnectionEnd
  deriving DecidableEq

/-- Which output port leads to which input port. -/
def Connection.wire (c : Connection) : PortKey × PortKey := (c.source.port, c.dest.port)

/-- The order of `connection_list`: by `(str(source), str(dest))`. -/
def Connection.le (a b : Connection) : Prop :=
  a.source.str < b.source.str ∨ a.source.str = b.source.str ∧ a.dest.str ≤ b.dest.str

instance : DecidableRel Connection.le := fun a b =>
  inferInstanceAs (Decidable (a.source.str < b.source.str
    ∨ a.source.str = b.source.str ∧ a.dest.str ≤ b.dest.str))

/-- Destinations are ordered by their text. -/
def PortKey.le (p q : PortKey) : Prop := p.str ≤ q.str

instance : DecidableRel PortKey.le := fun p q => inferInstanceAs (Decidable (p.str ≤ q.str))

instance : IsTrans PortKey PortKey.le := ⟨fun _ _ _ h h' => le_trans (α := String) h h'⟩

instance : Std.Antisymm PortKey.le := ⟨fun _ _ h h' => PortKey.str_injective (le_antisymm h h')⟩

instance : Std.Total PortKey.le := ⟨fun p q => le_total p.str q.str⟩

/-- `_endpoint_port_key`. -/
def Endpoint.portKey (e : Endpoint) : Option PortKey :=
  e.interfaceInstance.component?.map fun ci => ⟨ci.qualifiedName, e.portInstance⟩

/-- What the loop of `_build_connections` makes of a connection: nothing
where an endpoint does not resolve to a port of a component instance. -/
def ModelConnection.resolve (c : ModelConnection) : Option Connection := do
  let fromEp ← c.fromEndpoint
  let toEp ← c.toEndpoint
  let fromKey ← fromEp.portKey
  let toKey ← toEp.portKey
  pure ⟨⟨fromKey, fromEp.portNumber⟩, ⟨toKey, toEp.portNumber⟩⟩

/-- A `TopologyGraph` with the list of its connections. -/
structure LoadedTopology extends TopologyGraph where
  connectionList : List Connection

namespace Topology

variable (t : Topology)

/-- The connections that resolve, in the model's order. -/
def resolvedConnections : List Connection :=
  t.outputConnectionMap.flatten.filterMap ModelConnection.resolve

/-- `connections`, as `_build_connections` leaves it. -/
def connectionTable : Dict PortKey (List PortKey) :=
  (Dict.group (t.resolvedConnections.map Connection.wire)).mapValues fun dests =>
    dests.insertionSort PortKey.le

/-- `load`, of the selected topology. -/
def load (flow : PortFlowMap) : LoadedTopology where
  instances := t.buildInstances
  connections := t.connectionTable
  flow := flow
  connectionList := t.resolvedConnections.insertionSort Connection.le

/-! ## What is loaded -/

variable {t}

/-- An entry of the instance table is what one instance of the model was
read as. -/
theorem get?_buildInstances {name : String} {info : InstanceInfo} :
    t.buildInstances.get? name = some info
      ↔ ∃ ci, .component ci ∈ t.instanceMap ∧ ci.qualifiedName = name ∧ ci.info = info := by
  have hnd : ((t.components.map fun ci => (ci.qualifiedName, ci.info)).map Prod.fst).Nodup := by
    rw [List.map_map]
    exact t.nodupNames
  have hcomponents : ∀ ci, ci ∈ t.components ↔ .component ci ∈ t.instanceMap := by
    intro ci
    rw [components, List.mem_filterMap]
    constructor
    · rintro ⟨i, hi, hci⟩
      cases i with
      | component ci' => exact Option.some.inj hci ▸ hi
      | other => cases hci
    · exact fun h => ⟨_, h, rfl⟩
  rw [buildInstances, Dict.get?_ofList_eq_some_iff hnd, List.mem_map]
  simp only [hcomponents, Prod.mk.injEq]

/-- A destination of an output port is wired to it by a connection. -/
theorem mem_destinations_load {flow : PortFlowMap} {inst : String} {outPort : PortName}
    {dest : PortKey} :
    dest ∈ (t.load flow).destinations inst outPort
      ↔ ∃ c ∈ t.resolvedConnections, c.source.port = ⟨inst, outPort⟩ ∧ c.dest.port = dest := by
  have hvalues : dest ∈ Dict.valuesAt (t.resolvedConnections.map Connection.wire) ⟨inst, outPort⟩
      ↔ ∃ c ∈ t.resolvedConnections, c.source.port = ⟨inst, outPort⟩ ∧ c.dest.port = dest := by
    simp only [Dict.mem_valuesAt, List.mem_map, Connection.wire, Prod.mk.injEq]
  rw [← hvalues]
  simp only [TopologyGraph.destinations, load, connectionTable, Dict.get?_mapValues, Dict.get?_group]
  split
  · rename_i hnil
    simp [hnil]
  · simp

end Topology

/-! ## The model's order -/

/-- Two models with the same instances and the same connections, in
whatever orders. An instance is the same in both, with the order in which its
sets of kinds are iterated: that order comes from the set and the process,
and the order of the model does not reach it. -/
structure SameModel (t t' : Topology) : Prop where
  instances : t.instanceMap.Perm t'.instanceMap
  connections : t.outputConnectionMap.flatten.Perm t'.outputConnectionMap.flatten

theorem SameModel.resolvedConnections {t t' : Topology} (h : SameModel t t') :
    t.resolvedConnections.Perm t'.resolvedConnections :=
  h.connections.filterMap ModelConnection.resolve

/-- Two graphs whose tables are equal as dictionaries: they answer alike,
and may have been filled in different orders. -/
structure SameTables (g g' : TopologyGraph) : Prop where
  instances : ∀ name, g.instances.get? name = g'.instances.get? name
  connections : ∀ port, g.connections.get? port = g'.connections.get? port
  flow : g.flow = g'.flow

/-- **Loading forgets the model's order**, up to the order of the entries. -/
theorem load_sameTables {t t' : Topology} (h : SameModel t t') (flow : PortFlowMap) :
    SameTables (t.load flow).toTopologyGraph (t'.load flow).toTopologyGraph where
  instances name := by
    refine Dict.get?_ofList_perm ?_ ((h.instances.filterMap _).map _) name
    rw [List.map_map]
    exact t.nodupNames
  connections port := by
    have hvalues := Dict.valuesAt_perm (h.resolvedConnections.map Connection.wire) port
    have hsorted := Dict.insertionSort_perm (r := PortKey.le) (fun p _ q _ => antisymm) hvalues
    have hnil : Dict.valuesAt (t.resolvedConnections.map Connection.wire) port = []
        ↔ Dict.valuesAt (t'.resolvedConnections.map Connection.wire) port = [] := by
      constructor
      · exact fun hnil => List.nil_perm.mp (hnil ▸ hvalues)
      · exact fun hnil => List.perm_nil.mp (hnil ▸ hvalues)
    simp only [Topology.load, Topology.connectionTable, Dict.get?_mapValues, Dict.get?_group, hnil]
    split
    · rfl
    · rw [Option.map_some, Option.map_some, hsorted]
  flow := rfl

end FprimeTopologyAnalysis
