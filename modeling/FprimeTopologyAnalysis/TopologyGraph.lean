/-
FprimeTopologyAnalysis.TopologyGraph — the tagged topology graph
(`topology_graph.py`): component instances, how each input port is
dispatched, which output port is wired to which input port, and
`outward_hops`, the one place that says what the calls out of a handler
are.

The source keys its wiring and its thread origins by `str(port)`, the
text `instance.port`. A port name has no dot, so that text determines the
port (`PortKey.str_injective`) and the tables here are keyed by the port
itself.

Over the executable functions stand the relations every analysis is
stated with: a handler is an instance with a flow entry, `HopOut` relates it
to the wired calls it makes, and `Calls` to the handlers those calls run
on the same thread.
-/
import FprimeTopologyAnalysis.PortFlow
import FprimeTopologyAnalysis.Library.Text
import Mathlib.Data.List.Sort
import Mathlib.Logic.Relation

namespace FprimeTopologyAnalysis

open Library

/-! ## Ports and instances -/

/-- `Severity`: finding severity, ordered by `rank`. -/
inductive Severity where
  | info
  | warning
  | error
  deriving DecidableEq, Repr

/-- `SyncKind`: how an input port is dispatched. -/
inductive SyncKind where
  | sync
  | guarded
  | async
  deriving DecidableEq, Repr

/-- `str(kind)`. -/
def SyncKind.str : SyncKind → String
  | .sync => "sync"
  | .guarded => "guarded"
  | .async => "async"

/-- `sorted(kinds, key=str)`: alphabetical by the kind's text. -/
def SyncKind.sorted (kinds : Finset SyncKind) : List SyncKind :=
  [.async, .guarded, .sync].filter fun kind => kind ∈ kinds

@[simp] theorem SyncKind.mem_sorted (kinds : Finset SyncKind) (kind : SyncKind) :
    kind ∈ SyncKind.sorted kinds ↔ kind ∈ kinds := by
  cases kind <;> simp [SyncKind.sorted]

/-- An order in which sets of kinds are iterated. Python leaves it open,
but a set that does not change keeps to one. -/
structure KindOrder where
  order : List SyncKind
  perm : order.Perm [.async, .guarded, .sync]
  deriving DecidableEq

/-- The order by the kind's text. -/
def KindOrder.byText : KindOrder := ⟨[.async, .guarded, .sync], .refl _⟩

/-- `for kind in kinds`. -/
def KindOrder.iterate (o : KindOrder) (kinds : Finset SyncKind) : List SyncKind :=
  o.order.filter fun kind => kind ∈ kinds

@[simp] theorem KindOrder.mem_iterate (o : KindOrder) (kinds : Finset SyncKind) (kind : SyncKind) :
    kind ∈ o.iterate kinds ↔ kind ∈ kinds := by
  have hall : kind ∈ o.order := by
    rw [o.perm.mem_iff]
    cases kind <;> simp
  simp [iterate, hall]

@[simp] theorem KindOrder.iterate_empty (o : KindOrder) : o.iterate ∅ = [] := by
  simp [iterate]

/-- `PortKey`: a port on a specific component instance. -/
structure PortKey where
  inst : String
  port : PortName
  deriving DecidableEq

/-- `str(port)`. -/
def PortKey.str (p : PortKey) : String := p.inst ++ "." ++ p.port.str

/-- The text the source keys its tables by determines the port. -/
theorem PortKey.str_injective : Function.Injective PortKey.str := by
  rintro ⟨i, p⟩ ⟨j, q⟩ h
  have hchars := congrArg String.toList h
  simp only [PortKey.str, String.toList_append] at hchars
  have hdot : ∀ r : PortName, '.' ∉ r.str.toList := fun r => r.property.notMem (by decide)
  obtain ⟨hi, hp⟩ := Text.append_cons_inj (hdot p) (hdot q) (by simpa using hchars)
  have hij : i = j := String.toList_injective hi
  have hpq : p = q := PortName.str_injective (String.toList_injective hp)
  rw [hij, hpq]

/-- `ComponentKind`. -/
inductive ComponentKind where
  | active
  | passive
  | queued
  deriving DecidableEq, Repr

/-- What happens to a message that finds its queue full. -/
inductive QueueFull where
  | assert
  | block
  | drop
  | hook
  deriving DecidableEq, Repr

/-- `str(behavior)`. -/
def QueueFull.str : QueueFull → String
  | .assert => "assert"
  | .block => "block"
  | .drop => "drop"
  | .hook => "hook"

/-- `DEFAULT_QUEUE_FULL`. -/
def defaultQueueFull : QueueFull := .assert

/-- `InstanceInfo`: the topology facts about one component instance, and
the order in which the sets of kinds among them are iterated. -/
structure InstanceInfo where
  kind : ComponentKind
  componentName : String := ""
  inputPorts : Dict PortName (Finset SyncKind) := ∅
  outputPorts : List PortName := []
  cmdPort : Option PortName := none
  commandKinds : Dict String (Finset SyncKind) := ∅
  taskPriority : Option Int := none
  kindOrder : KindOrder := .byText
  queueSize : Option Int := none
  portPriorities : Dict PortName Int := ∅
  portTypes : Dict PortName String := ∅
  portQueueFull : Dict PortName QueueFull := ∅
  portSizes : Dict PortName Int := ∅
  commandPriorities : Dict String Int := ∅
  commandQueueFull : Dict String QueueFull := ∅
  deriving DecidableEq

namespace InstanceInfo

/-- `is_own_thread`: active and queued instances run their own queue. -/
def isOwnThread (info : InstanceInfo) : Bool :=
  info.kind = .active || info.kind = .queued

/-- `input_ports.get(port, set())`. -/
def kindsOf (info : InstanceInfo) (port : PortName) : Finset SyncKind :=
  (info.inputPorts.get? port).getD ∅

/-- `guarded_entries`. -/
def guardedEntries (info : InstanceInfo) : List PortName :=
  ((info.inputPorts.entries.filter fun e => .guarded ∈ e.2).map Prod.fst).insertionSort (· ≤ ·)

/-- `async_entries`. -/
def asyncEntries (info : InstanceInfo) : List PortName :=
  ((info.inputPorts.entries.filter fun e => .async ∈ e.2).map Prod.fst).insertionSort (· ≤ ·)

/-- `flow_entries`: the flow-map keys of the handlers behind a port. A
command port has one handler per command of the kind asked for; every
other port has one handler under its own name. -/
def flowEntries (info : InstanceInfo) (portName : PortName) (kind : SyncKind) : List String :=
  if info.cmdPort ≠ some portName then
    [portName.str]
  else
    ((info.commandKinds.entries.filter fun e => kind ∈ e.2).map Prod.fst).insertionSort (· ≤ ·)
      |>.map fun mnemonic => "cmd:" ++ mnemonic

/-- The kinds of a port, read off the entries. -/
theorem mem_kindsOf_iff {info : InstanceInfo} {port : PortName} {kind : SyncKind} :
    kind ∈ info.kindsOf port ↔ ∃ kinds, (port, kinds) ∈ info.inputPorts.entries ∧ kind ∈ kinds := by
  unfold kindsOf
  constructor
  · intro h
    cases hget : info.inputPorts.get? port with
    | none => rw [hget] at h; simp at h
    | some kinds =>
      rw [hget] at h
      exact ⟨kinds, (info.inputPorts.get?_eq_some_iff _ _).mp hget, h⟩
  · rintro ⟨kinds, hmem, hk⟩
    rw [(info.inputPorts.get?_eq_some_iff _ _).mpr hmem]
    exact hk

/-- The ports that can be dispatched under a kind, sorted. -/
theorem mem_entriesUnder (info : InstanceInfo) (kind : SyncKind) (port : PortName) :
    port ∈ ((info.inputPorts.entries.filter fun e => kind ∈ e.2).map Prod.fst).insertionSort (· ≤ ·)
      ↔ kind ∈ info.kindsOf port := by
  simp only [List.mem_insertionSort, List.mem_map, List.mem_filter, decide_eq_true_eq,
    mem_kindsOf_iff]
  constructor
  · rintro ⟨⟨p, kinds⟩, ⟨hmem, hk⟩, rfl⟩
    exact ⟨kinds, hmem, hk⟩
  · rintro ⟨kinds, hmem, hk⟩
    exact ⟨(port, kinds), ⟨hmem, hk⟩, rfl⟩

theorem mem_guardedEntries (info : InstanceInfo) (port : PortName) :
    port ∈ info.guardedEntries ↔ SyncKind.guarded ∈ info.kindsOf port :=
  info.mem_entriesUnder .guarded port

theorem mem_asyncEntries (info : InstanceInfo) (port : PortName) :
    port ∈ info.asyncEntries ↔ SyncKind.async ∈ info.kindsOf port :=
  info.mem_entriesUnder .async port

end InstanceInfo

/-! ## The graph -/

/-- A handler: the instance it belongs to and its flow-map key. -/
abbrev Handler := String × String

/-- One wired call out of a handler, as `outward_hops` yields it. -/
structure OutwardHop where
  source : PortKey
  dest : PortKey
  destInfo : InstanceInfo
  kind : SyncKind
  deriving DecidableEq

/-- The handlers behind an instance's input ports, under every kind. -/
def InstanceInfo.handlers (info : InstanceInfo) (name : String) : List Handler :=
  info.inputPorts.entries.flatMap fun e =>
    (SyncKind.sorted e.2).flatMap fun kind =>
      (info.flowEntries e.1 kind).map fun entry => (name, entry)

/-- The hop's line in a witness path. -/
def OutwardHop.label (hop : OutwardHop) : String :=
  hop.source.str ++ " -> " ++ hop.dest.str ++ " [" ++ hop.kind.str ++ "]"

/-- The handlers that run when the hop is taken. -/
def OutwardHop.targets (hop : OutwardHop) : List Handler :=
  (hop.destInfo.flowEntries hop.dest.port hop.kind).map fun entry => (hop.dest.inst, entry)

/-- `TopologyGraph`, without the lazily computed thread origins. -/
structure TopologyGraph where
  instances : Dict String InstanceInfo
  connections : Dict PortKey (List PortKey)
  flow : PortFlowMap

namespace TopologyGraph

variable (g : TopologyGraph)

/-- `outputs_for`. -/
def outputsFor (info : InstanceInfo) (flowEntry : String) :
    Except UnresolvedFlowError (List PortName) :=
  g.flow.outputsFor info.componentName flowEntry info.outputPorts

/-- `destinations`. -/
def destinations (inst : String) (outPort : PortName) : List PortKey :=
  (g.connections.get? ⟨inst, outPort⟩).getD []

/-- The hops of one output port. -/
def hopsFrom (inst : String) (outPort : PortName) : List OutwardHop :=
  (g.destinations inst outPort).flatMap fun dest =>
    match g.instances.get? dest.inst with
    | none => []
    | some destInfo =>
      (SyncKind.sorted (destInfo.kindsOf dest.port)).map fun kind =>
        ⟨⟨inst, outPort⟩, dest, destInfo, kind⟩

/-- `outward_hops`. -/
def outwardHops (inst flowEntry : String) : Except UnresolvedFlowError (List OutwardHop) :=
  match g.instances.get? inst with
  | none => .ok []
  | some info =>
    match g.outputsFor info flowEntry with
    | .error e => .error e
    | .ok outs => .ok (outs.flatMap (g.hopsFrom inst))

/-- `connected_inputs`. -/
def connectedInputs : List PortKey := g.connections.values.flatten

/-- Every handler of the topology. -/
def handlers : List Handler :=
  g.instances.entries.flatMap fun e => e.2.handlers e.1

/-! ## Hops and calls as relations -/

/-- `hop` is one of the wired calls out of handler `h`. -/
def HopOut (h : Handler) (hop : OutwardHop) : Prop :=
  ∃ hops, g.outwardHops h.1 h.2 = .ok hops ∧ hop ∈ hops

/-- The flow map answers for handler `h`. -/
def Resolves (h : Handler) : Prop :=
  ∃ hops, g.outwardHops h.1 h.2 = .ok hops

/-- Every handler of the topology resolves. -/
def AllResolve : Prop := ∀ h ∈ g.handlers, g.Resolves h

instance (h : Handler) : Decidable (g.Resolves h) :=
  decidable_of_iff ((g.outwardHops h.1 h.2).isOk = true) <| by
    unfold Resolves
    cases g.outwardHops h.1 h.2 <;> simp [Except.isOk, Except.toBool]

instance : Decidable g.AllResolve :=
  inferInstanceAs (Decidable (∀ h ∈ g.handlers, g.Resolves h))

/-- The hops out of handler `h`, none where it does not resolve. -/
def hopsOut (h : Handler) : List OutwardHop := (g.outwardHops h.1 h.2).toOption.getD []

theorem hopOut_iff_mem {h : Handler} {hop : OutwardHop} : g.HopOut h hop ↔ hop ∈ g.hopsOut h := by
  unfold HopOut hopsOut
  cases g.outwardHops h.1 h.2 <;> simp [Except.toOption]

instance (h : Handler) (hop : OutwardHop) : Decidable (g.HopOut h hop) :=
  decidable_of_iff (hop ∈ g.hopsOut h) g.hopOut_iff_mem.symm

/-- `h` calls `h'` on its own thread: through a sync or guarded hop. -/
def Calls (h h' : Handler) : Prop :=
  ∃ hop, g.HopOut h hop ∧ hop.kind ≠ .async ∧ h' ∈ hop.targets

/-- Handlers that call only one another are all that one of them leads to. -/
theorem mem_of_calls {S : List Handler}
    (hS : ∀ h ∈ S, ∀ hop ∈ g.hopsOut h, hop.kind ≠ .async → ∀ h' ∈ hop.targets, h' ∈ S)
    {h h' : Handler} (hh : h ∈ S) (hcalls : Relation.ReflTransGen g.Calls h h') : h' ∈ S := by
  induction hcalls with
  | refl => exact hh
  | tail _ hcall ih =>
    obtain ⟨hop, hhop, hkind, htarget⟩ := hcall
    exact hS _ ih hop (g.hopOut_iff_mem.mp hhop) hkind _ htarget

/-- `entry` is a handler behind input `port` of `name` under `kind`. -/
def Behind (port : PortKey) (kind : SyncKind) (h : Handler) : Prop :=
  ∃ info, g.instances.get? port.inst = some info ∧ kind ∈ info.kindsOf port.port
    ∧ ∃ entry ∈ info.flowEntries port.port kind, h = (port.inst, entry)

/-- Handler `h` may invoke output port `s`. -/
def Invokes (h : Handler) (s : PortKey) : Prop :=
  s.inst = h.1 ∧ ∃ info outs, g.instances.get? h.1 = some info
    ∧ g.outputsFor info h.2 = .ok outs ∧ s.port ∈ outs

variable {g}

theorem mem_hopsFrom {inst : String} {outPort : PortName} {hop : OutwardHop} :
    hop ∈ g.hopsFrom inst outPort ↔
      hop.source = ⟨inst, outPort⟩ ∧ hop.dest ∈ g.destinations inst outPort
        ∧ g.instances.get? hop.dest.inst = some hop.destInfo
        ∧ hop.kind ∈ hop.destInfo.kindsOf hop.dest.port := by
  unfold hopsFrom
  rw [List.mem_flatMap]
  constructor
  · rintro ⟨dest, hdest, hmem⟩
    cases hget : g.instances.get? dest.inst with
    | none => rw [hget] at hmem; simp at hmem
    | some destInfo =>
      rw [hget] at hmem
      obtain ⟨kind, hkind, rfl⟩ := List.mem_map.mp hmem
      exact ⟨rfl, hdest, hget, (SyncKind.mem_sorted _ _).mp hkind⟩
  · rintro ⟨hsrc, hdest, hget, hkind⟩
    refine ⟨hop.dest, hdest, ?_⟩
    rw [hget]
    refine List.mem_map.mpr ⟨hop.kind, (SyncKind.mem_sorted _ _).mpr hkind, ?_⟩
    rw [← hsrc]

/-- The calls out of a handler go where the output ports it may invoke
are wired to. -/
theorem hopOut_iff {h : Handler} {hop : OutwardHop} :
    g.HopOut h hop ↔ g.Invokes h hop.source
      ∧ hop.dest ∈ g.destinations hop.source.inst hop.source.port
      ∧ g.instances.get? hop.dest.inst = some hop.destInfo
      ∧ hop.kind ∈ hop.destInfo.kindsOf hop.dest.port := by
  constructor
  · rintro ⟨hops, hok, hmem⟩
    unfold outwardHops at hok
    split at hok
    · cases hok; simp at hmem
    · rename_i info hget
      split at hok
      · cases hok
      · rename_i outs houts
        cases hok
        obtain ⟨out, hout, hfrom⟩ := List.mem_flatMap.mp hmem
        obtain ⟨hsrc, hrest⟩ := mem_hopsFrom.mp hfrom
        rw [hsrc]
        exact ⟨⟨rfl, info, outs, hget, houts, hout⟩, hrest⟩
  · rintro ⟨⟨hinst, info, outs, hget, houts, hport⟩, hrest⟩
    refine ⟨outs.flatMap (g.hopsFrom h.1), by simp only [outwardHops, hget, houts], ?_⟩
    rw [hinst] at hrest
    refine List.mem_flatMap.mpr ⟨hop.source.port, hport, mem_hopsFrom.mpr ⟨?_, hrest⟩⟩
    rw [← hinst]

/-- What a hop says about its far end. -/
theorem HopOut.dest_spec {h : Handler} {hop : OutwardHop} (hh : g.HopOut h hop) :
    g.instances.get? hop.dest.inst = some hop.destInfo
      ∧ hop.kind ∈ hop.destInfo.kindsOf hop.dest.port := by
  obtain ⟨hops, hok, hmem⟩ := hh
  unfold outwardHops at hok
  split at hok
  · cases hok; simp at hmem
  · split at hok
    · cases hok
    · cases hok
      obtain ⟨out, _, hout⟩ := List.mem_flatMap.mp hmem
      exact (mem_hopsFrom.mp hout).2.2

/-- A port that carries several kinds is reached under each of them by
the same call. -/
theorem HopOut.withKind {h : Handler} {hop : OutwardHop} (hh : g.HopOut h hop) {kind : SyncKind}
    (hk : kind ∈ hop.destInfo.kindsOf hop.dest.port) : g.HopOut h { hop with kind := kind } := by
  obtain ⟨hops, hok, hmem⟩ := hh
  refine ⟨hops, hok, ?_⟩
  unfold outwardHops at hok
  split at hok
  · cases hok; simp at hmem
  · split at hok
    · cases hok
    · cases hok
      obtain ⟨out, hout, hfrom⟩ := List.mem_flatMap.mp hmem
      obtain ⟨hsrc, hdest, hget, _⟩ := mem_hopsFrom.mp hfrom
      exact List.mem_flatMap.mpr ⟨out, hout, mem_hopsFrom.mpr ⟨hsrc, hdest, hget, hk⟩⟩

theorem mem_handlers {h : Handler} :
    h ∈ g.handlers ↔ ∃ port kind, g.Behind port kind h := by
  simp only [handlers, InstanceInfo.handlers, List.mem_flatMap, List.mem_map]
  constructor
  · rintro ⟨⟨name, info⟩, hinst, ⟨port, kinds⟩, hport, kind, hkind, entry, hentry, rfl⟩
    exact ⟨⟨name, port⟩, kind, info, (g.instances.get?_eq_some_iff name info).mpr hinst,
      InstanceInfo.mem_kindsOf_iff.mpr ⟨kinds, hport, (SyncKind.mem_sorted _ _).mp hkind⟩,
      entry, hentry, rfl⟩
  · rintro ⟨port, kind, info, hget, hkind, entry, hentry, rfl⟩
    obtain ⟨kinds, hport, hmem⟩ := InstanceInfo.mem_kindsOf_iff.mp hkind
    exact ⟨(port.inst, info), (g.instances.get?_eq_some_iff _ _).mp hget, (port.port, kinds), hport,
      kind, (SyncKind.mem_sorted _ _).mpr hmem, entry, hentry, rfl⟩

/-- The handlers a hop runs stand behind the port it lands on. -/
theorem HopOut.behind_of_mem_targets {h h' : Handler} {hop : OutwardHop} (hh : g.HopOut h hop)
    (ht : h' ∈ hop.targets) : g.Behind hop.dest hop.kind h' := by
  obtain ⟨entry, hentry, rfl⟩ := List.mem_map.mp ht
  exact ⟨hop.destInfo, hh.dest_spec.1, hh.dest_spec.2, entry, hentry, rfl⟩

theorem Calls.mem_handlers {h h' : Handler} (hc : g.Calls h h') : h' ∈ g.handlers := by
  obtain ⟨hop, hh, _, ht⟩ := hc
  exact TopologyGraph.mem_handlers.mpr ⟨_, _, hh.behind_of_mem_targets ht⟩

end TopologyGraph

end FprimeTopologyAnalysis
