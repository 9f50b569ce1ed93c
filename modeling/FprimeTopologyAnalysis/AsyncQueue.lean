/-
FprimeTopologyAnalysis.AsyncQueue — the async queues and who feeds them
(`analyze`, `filter_drop_ports` and what they call in
`async_queue_analyzer.py`).

One pass over the connections gathers a queue for every instance with an
async input, and in the queue a group for every kind of message. The pass
keeps its tables by key. What a key holds in the end is the fold over what
comes to this key, so an instance's row is read off the connections that
arrive at it (`madeOf_of_mem_rows`) and a group off what they deliver
(`of_get?_portsOf`).

A rate is the value of a float. What is computed with rates is rounded as
float operations round, so a total depends on the order it is added up in.
-/
import FprimeTopologyAnalysis.EmitContext
import FprimeTopologyAnalysis.RequeueDrops
import FprimeTopologyAnalysis.Library.Grouping
import FprimeTopologyAnalysis.Library.Rounding
import Mathlib.Algebra.Order.Ring.Rat
import Mathlib.Data.List.TakeWhile
import Mathlib.Order.WithBot

namespace FprimeTopologyAnalysis

open Library

/-! ## Rates -/

/-- The binary digits of a float. The range of its exponent is left out: no
rate here overflows, and none is infinite or NaN. -/
def floatDigits : Nat := 53

/-- A value of the rate model; of a number, the value of its float. -/
inductive RateValue where
  | number (hz : ℚ)
  | table (entries : List (String × RateValue))
  | other

/-- A table of overrides. -/
abbrev RateTable := List (String × RateValue)

/-- `isinstance(value, (int, float))`. -/
def RateValue.number? : RateValue → Option ℚ
  | .number hz => some hz
  | _ => none

/-- The descent along the parts of a dotted key. -/
def RateValue.follow : RateValue → List String → Option RateValue
  | value, [] => some value
  | .table entries, part :: parts =>
    match entries.lookup part with
    | none => none
    | some value => value.follow parts
  | _, _ :: _ => none

/-- What a table has for a key: as it stands, or along its parts. -/
def lookupKey (rateModel : RateTable) (key : String) : Option ℚ :=
  match (rateModel.lookup key).bind RateValue.number? with
  | some hz => some hz
  | none => ((RateValue.table rateModel).follow (Text.split "." key)).bind RateValue.number?

/-- `lookup_rate`. -/
def lookupRate (rateModel : RateTable) (keys : List String) : Option ℚ :=
  keys.findSome? (lookupKey rateModel)

/-- The rate model: `production_rate_hz` and `consumption_rate_hz`. -/
structure RateModel where
  production : RateTable := []
  consumption : RateTable := []

/-- `as_rate_model`, of the inferred rates. -/
def asRateModel (production consumption : Dict String ℚ) : RateModel where
  production := production.entries.map fun e => (e.1, .number e.2)
  consumption := consumption.entries.map fun e => (e.1, .number e.2)

/-- The rate at which an output is said to send. -/
def RateModel.productionHz (rates : RateModel) (source : ConnectionEnd) : Option ℚ :=
  lookupRate rates.production [source.str, source.port.str, source.port.inst]

/-- `estimate_fill_time`; `⊤` is `math.inf`. -/
def estimateFillTime (queueSize : Option Int) (prod cons : Option ℚ) : Option (WithTop ℚ) :=
  match queueSize, prod, cons with
  | some size, some prod, some cons =>
    let net := Rounding.sub floatDigits prod cons
    some (if net ≤ 0 then ⊤
      else (Rounding.div floatDigits (Rounding.round floatDigits size) net : WithTop ℚ))
  | _, _, _ => none

/-- `_add_rate`. -/
def addRate (total hz : Option ℚ) : Option ℚ :=
  match hz with
  | none => total
  | some hz => some (Rounding.add floatDigits (total.getD 0) hz)

/-! ## The report -/

/-- `InboundProducer`. -/
structure InboundProducer where
  source : String
  threadKind : ThreadKind
  threadPriority : Option Int
  drainSource : Option String
  threadContext : String
  emitContext : String
  productionHz : Option ℚ

/-- `InboundAsyncPortGroup`. -/
structure InboundAsyncPortGroup where
  destinationPort : String
  dataType : String
  overflowBehavior : QueueFull
  producers : List InboundProducer
  totalProductionHz : Option ℚ

/-- `QueueGroup`: a row of the report. -/
structure QueueGroup where
  destination : String
  destinationType : String
  queueSize : Option Int
  drainThreadKind : ThreadKind
  drainThreadPriority : Option Int
  drainDrainSource : Option String
  drainContext : String
  inboundPorts : List InboundAsyncPortGroup
  inbound : List String
  dataTypes : List String
  totalProductionHz : Option ℚ
  consumerRateHz : Option ℚ
  queueFillTimeS : Option (WithTop ℚ)

/-! ## The queues while they are gathered -/

/-- `_PortQueue`: the producers that feed one kind of message. -/
structure PortQueue where
  overflowBehavior : QueueFull
  producers : List InboundProducer
  sources : Finset String
  productionHz : Option ℚ
  hasUnknownRate : Bool

/-- `_PortQueue(queue_full)`. -/
def PortQueue.new (queueFull : QueueFull) : PortQueue := ⟨queueFull, [], ∅, none, false⟩

/-- What the loop does to a port queue for a producer. -/
def PortQueue.receive (q : PortQueue) (p : InboundProducer) : PortQueue :=
  if p.source ∈ q.sources then q
  else
    ⟨q.overflowBehavior, q.producers ++ [p], insert p.source q.sources,
      addRate q.productionHz p.productionHz, q.hasUnknownRate || p.productionHz.isNone⟩

/-- An independently queued kind of message. -/
structure QueueEntry where
  name : String
  dataType : String
  queueFull : QueueFull
  deriving DecidableEq

/-- The key of the group. -/
def QueueEntry.key (e : QueueEntry) : String × String := (e.name, e.dataType)

namespace InstanceInfo

/-- `port_queue_full.get(port, DEFAULT_QUEUE_FULL)`. -/
def portFull (info : InstanceInfo) (port : PortName) : QueueFull :=
  (info.portQueueFull.get? port).getD defaultQueueFull

/-- `_destination_queue_entries`. -/
def destinationQueueEntries (info : InstanceInfo) (port : PortName) (dataType : String) :
    List QueueEntry :=
  if some port ≠ info.cmdPort then [⟨port.str, dataType, info.portFull port⟩]
  else
    let commands := info.asyncCommands.map fun mnemonic =>
      ⟨port.str ++ ":" ++ mnemonic, dataType,
        (info.commandQueueFull.get? mnemonic).getD defaultQueueFull⟩
    if commands ≠ [] then commands else [⟨port.str, dataType, info.portFull port⟩]

end InstanceInfo

/-- What one connection brings to a queue. -/
structure Arrival where
  connection : Connection
  destInfo : InstanceInfo
  dataType : String
  thread : InstanceThreadInfo
  producer : InboundProducer

/-- The kinds of message the connection feeds. -/
def Arrival.entries (a : Arrival) : List QueueEntry :=
  a.destInfo.destinationQueueEntries a.connection.dest.port.port a.dataType

/-- `_Queue`: an instance's message queue. -/
structure Queue where
  queueSize : Option Int
  thread : InstanceThreadInfo
  ports : Dict (String × String) PortQueue
  inbound : Finset String
  dataTypes : Finset String
  productionHz : Option ℚ
  hasUnknownRate : Bool

/-- `_Queue(queue_size, thread)`. -/
def Queue.new (a : Arrival) : Queue :=
  ⟨a.destInfo.queueSize, a.thread, ∅, ∅, ∅, none, false⟩

/-- The body of the loop over the entries. -/
def receivePort (p : InboundProducer) (ports : Dict (String × String) PortQueue)
    (entry : QueueEntry) : Dict (String × String) PortQueue :=
  ports.set entry.key (((ports.get? entry.key).getD (.new entry.queueFull)).receive p)

/-- What the loop does to a queue for a connection. -/
def Queue.receive (q : Queue) (a : Arrival) : Queue where
  queueSize := q.queueSize
  thread := q.thread
  ports := a.entries.foldl (receivePort a.producer) q.ports
  inbound := insert a.producer.source q.inbound
  dataTypes := insert a.dataType q.dataTypes
  productionHz := addRate q.productionHz a.producer.productionHz
  hasUnknownRate := q.hasUnknownRate || a.producer.productionHz.isNone

/-- `queues.setdefault(dest.instance, ..)`, and the queue's update. -/
def receiveAt (queues : Dict String Queue) (a : Arrival) : Dict String Queue :=
  queues.set a.connection.dest.port.inst
    (((queues.get? a.connection.dest.port.inst).getD (.new a)).receive a)

/-- What the loop of `analyze` keeps: the queues and its two caches. -/
structure Gathering where
  queues : Dict String Queue
  threads : ThreadCache
  contexts : Dict PortKey String

namespace LoadedTopology

variable (g : LoadedTopology) (rates : RateModel)

/-- The queue behind a destination, where none of the loop's conditions
skips it: its instance, and the type of its messages. -/
def queueOf (dest : PortKey) : Option (InstanceInfo × String) :=
  match g.instances.get? dest.inst with
  | none => none
  | some destInfo =>
    if .async ∉ destInfo.kindsOf dest.port then none
    else
      match destInfo.portTypes.get? dest.port with
      | none => none
      | some dataType => if dataType = "" then none else some (destInfo, dataType)

/-- `emit_context`. -/
def emitContext (contexts : Dict PortKey String) (port : PortKey) :
    Except UnresolvedFlowError (String × Dict PortKey String) :=
  match contexts.get? port with
  | some context => .ok (context, contexts)
  | none =>
    (g.emitContextForPort port.inst port.port).map fun context =>
      (context, contexts.set port context)

/-- What a connection brings, and the caches after it. -/
def arrival (threads : ThreadCache) (contexts : Dict PortKey String) (c : Connection)
    (destInfo : InstanceInfo) (dataType : String) :
    Except UnresolvedFlowError (Arrival × ThreadCache × Dict PortKey String) :=
  let (thread, threads) := g.inferInstanceThreadInfo (some c.dest.port.inst) threads
  let (sourceThread, threads) := g.inferInstanceThreadInfo (some c.source.port.inst) threads
  (g.emitContext contexts c.source.port).map fun (context, contexts) =>
    (⟨c, destInfo, dataType, thread,
      { source := c.source.str
        threadKind := sourceThread.kind
        threadPriority := sourceThread.priority
        drainSource := sourceThread.drainSource
        threadContext := sourceThread.context
        emitContext := context
        productionHz := rates.productionHz c.source }⟩, threads, contexts)

/-- The body of the loop over the connections. -/
def gather (s : Gathering) (c : Connection) : Except UnresolvedFlowError Gathering :=
  match g.queueOf c.dest.port with
  | none => .ok s
  | some (destInfo, dataType) =>
    (g.arrival rates s.threads s.contexts c destInfo dataType).map fun (a, threads, contexts) =>
      ⟨receiveAt s.queues a, threads, contexts⟩

end LoadedTopology

/-- A total, where an unknown rate leaves it unknown. -/
def knownHz (hasUnknownRate : Bool) (productionHz : Option ℚ) : Option ℚ :=
  if hasUnknownRate then none else productionHz

/-- The order of `sorted(queue.ports.items())`: by port and type. -/
def keyLe (a b : (String × String) × PortQueue) : Prop :=
  a.1.1 < b.1.1 ∨ a.1.1 = b.1.1 ∧ a.1.2 ≤ b.1.2

instance : DecidableRel keyLe := fun a b =>
  inferInstanceAs (Decidable (a.1.1 < b.1.1 ∨ a.1.1 = b.1.1 ∧ a.1.2 ≤ b.1.2))

/-- The group of a port queue. -/
def portGroup (e : (String × String) × PortQueue) : InboundAsyncPortGroup where
  destinationPort := e.1.1
  dataType := e.1.2
  overflowBehavior := e.2.overflowBehavior
  producers := e.2.producers.insertionSort fun a b => a.source ≤ b.source
  totalProductionHz := knownHz e.2.hasUnknownRate e.2.productionHz

namespace LoadedTopology

variable (g : LoadedTopology) (rates : RateModel)

/-- The row of a queue. -/
def queueGroup (e : String × Queue) : QueueGroup where
  destination := e.1
  destinationType := ((g.instances.get? e.1).map InstanceInfo.componentName).getD ""
  queueSize := e.2.queueSize
  drainThreadKind := e.2.thread.kind
  drainThreadPriority := e.2.thread.priority
  drainDrainSource := e.2.thread.drainSource
  drainContext := e.2.thread.context
  inboundPorts := (e.2.ports.entries.insertionSort keyLe).map portGroup
  inbound := sortNames e.2.inbound
  dataTypes := sortNames e.2.dataTypes
  totalProductionHz := knownHz e.2.hasUnknownRate e.2.productionHz
  consumerRateHz := lookupRate rates.consumption [e.1]
  queueFillTimeS := estimateFillTime e.2.queueSize (knownHz e.2.hasUnknownRate e.2.productionHz)
    (lookupRate rates.consumption [e.1])

/-- `analyze`. -/
def analyze : Except UnresolvedFlowError (List QueueGroup) :=
  (g.connectionList.foldlM (g.gather rates) ⟨∅, ∅, ∅⟩).map fun s =>
    s.queues.sortedEntries.map (g.queueGroup rates)

end LoadedTopology

/-! ## Hiding drop ports -/

/-- The total of the kept groups. Floats are added up by `sum` one by one, and
with a compensation from Python 3.12 on: `sums` says which. -/
def groupsHz (sums : Rounding.SumOf) (groups : List InboundAsyncPortGroup) : Option ℚ :=
  let knownRates := groups.filterMap InboundAsyncPortGroup.totalProductionHz
  if knownRates.length = groups.length ∧ knownRates ≠ [] then
    some (sums.apply floatDigits knownRates)
  else none

/-- The body of the loop of `filter_drop_ports`. -/
def hideDropPorts (sums : Rounding.SumOf) (row : QueueGroup) : Option QueueGroup :=
  let groups := row.inboundPorts.filter fun group => group.overflowBehavior ≠ .drop
  if groups = [] then none
  else
    some { row with
      inboundPorts := groups
      inbound := sortNames
        (groups.flatMap fun group => group.producers.map InboundProducer.source).toFinset
      dataTypes := sortNames (groups.map InboundAsyncPortGroup.dataType).toFinset
      totalProductionHz := groupsHz sums groups
      queueFillTimeS := estimateFillTime row.queueSize (groupsHz sums groups) row.consumerRateHz }

/-- `filter_drop_ports`. -/
def filterDropPorts (sums : Rounding.SumOf) (rows : List QueueGroup) : List QueueGroup :=
  rows.filterMap (hideDropPorts sums)

/-! ## Totals -/

/-- A total of rates, the way a queue and a port queue keep it. -/
def totalHz (hz : List (Option ℚ)) : Option ℚ :=
  knownHz (hz.any Option.isNone) (hz.foldl addRate none)

theorem foldl_addRate_some {hz : List (Option ℚ)} (hknown : none ∉ hz) (total : ℚ) :
    hz.foldl addRate (some total)
      = some ((hz.map fun h => h.getD 0).foldl (Rounding.add floatDigits) total) := by
  induction hz generalizing total with
  | nil => rfl
  | cons h hz ih =>
    obtain ⟨hhead, hrest⟩ := not_or.mp (List.mem_cons.not.mp hknown)
    obtain ⟨rate, rfl⟩ := Option.ne_none_iff_exists'.mp (Ne.symm hhead)
    exact ih hrest _

/-- **A total is its rates added up**, unless one of them is unknown. -/
theorem totalHz_eq {hz : List (Option ℚ)} (hne : hz ≠ []) :
    totalHz hz = if none ∈ hz then none
      else some (Rounding.total floatDigits (hz.map fun h => h.getD 0)) := by
  have hany : hz.any Option.isNone = true ↔ none ∈ hz := by simp
  unfold totalHz knownHz
  by_cases hnone : none ∈ hz
  · simp [hany.mpr hnone, hnone]
  · rw [if_neg fun h => hnone (hany.mp h), if_neg hnone]
    obtain ⟨first, rest, rfl⟩ := List.exists_cons_of_ne_nil hne
    obtain ⟨hhead, hrest⟩ := not_or.mp (List.mem_cons.not.mp hnone)
    obtain ⟨h, rfl⟩ := Option.ne_none_iff_exists'.mp (Ne.symm hhead)
    exact foldl_addRate_some hrest _

/-- The total of groups is made of their totals. -/
theorem groupsHz_eq (sums : Rounding.SumOf) {groups : List InboundAsyncPortGroup}
    (hne : groups ≠ []) :
    groupsHz sums groups = if none ∈ groups.map InboundAsyncPortGroup.totalProductionHz then none
      else some (sums.apply floatDigits
        ((groups.map InboundAsyncPortGroup.totalProductionHz).map fun h => h.getD 0)) := by
  have hlen : ∀ hz : List (Option ℚ), (hz.filterMap id).length = hz.length ↔ none ∉ hz := by
    intro hz
    rw [List.filterMap_length_eq_length]
    constructor
    · exact fun hall hnone => absurd (hall none hnone) (by simp)
    · exact fun hnone h hh => Option.isSome_iff_ne_none.mpr fun heq => hnone (heq ▸ hh)
  have hvalues : ∀ hz : List (Option ℚ), none ∉ hz →
      hz.filterMap id = hz.map fun h => h.getD 0 := by
    intro hz hknown
    rw [← List.filterMap_eq_map]
    refine List.filterMap_congr fun h hh => ?_
    obtain ⟨rate, rfl⟩ := Option.ne_none_iff_exists'.mp fun heq => hknown (heq ▸ hh)
    rfl
  have hfilter : groups.filterMap InboundAsyncPortGroup.totalProductionHz
      = (groups.map InboundAsyncPortGroup.totalProductionHz).filterMap id := by
    rw [List.filterMap_map]
    rfl
  have hlength := hlen (groups.map InboundAsyncPortGroup.totalProductionHz)
  rw [List.length_map] at hlength
  unfold groupsHz
  simp only [hfilter, hlength]
  by_cases hnone : none ∈ groups.map InboundAsyncPortGroup.totalProductionHz
  · simp [hnone]
  · have hnil : (groups.map InboundAsyncPortGroup.totalProductionHz).filterMap id ≠ [] := by
      intro hnil
      rw [hnil, List.length_nil] at hlength
      exact hne (List.length_eq_zero_iff.mp (hlength.mpr hnone).symm)
    rw [if_pos ⟨hnone, hnil⟩, if_neg hnone, hvalues _ hnone]

/-! ## The queue of some arrivals -/

theorem toFinset_append_singleton (names : List String) (name : String) :
    (names ++ [name]).toFinset = insert name names.toFinset := by
  ext other
  simp

/-- A port queue of some producers. -/
def PortQueue.of (queueFull : QueueFull) (producers : List InboundProducer) : PortQueue :=
  ⟨queueFull, producers, (producers.map InboundProducer.source).toFinset,
    (producers.map InboundProducer.productionHz).foldl addRate none,
    (producers.map InboundProducer.productionHz).any Option.isNone⟩

/-- **A source is queued once.** -/
theorem PortQueue.foldl_receive (queueFull : QueueFull) (ps : List InboundProducer) :
    ps.foldl PortQueue.receive (.new queueFull)
      = .of queueFull (Grouping.keepFirsts InboundProducer.source ps) := by
  induction ps using List.reverseRecOn with
  | nil => rfl
  | append_singleton ps p ih =>
    rw [List.foldl_append, ih, Grouping.keepFirsts_append_singleton, Grouping.keepFirst]
    simp only [List.foldl_cons, List.foldl_nil]
    unfold PortQueue.receive
    by_cases hold : p.source
        ∈ (Grouping.keepFirsts InboundProducer.source ps).map InboundProducer.source
    · rw [if_pos hold, if_pos (by simpa [PortQueue.of] using hold)]
    · rw [if_neg hold, if_neg (by simpa [PortQueue.of] using hold)]
      simp only [PortQueue.of, List.map_append, List.map_cons, List.map_nil,
        toFinset_append_singleton, List.foldl_append, List.foldl_cons, List.foldl_nil,
        List.any_append, List.any_cons, List.any_nil, Bool.or_false]

/-- What an arrival brings to the groups of its queue. -/
def Arrival.deliveries (a : Arrival) : List (QueueEntry × InboundProducer) :=
  a.entries.map fun entry => (entry, a.producer)

/-- The groups that some deliveries make. -/
def portsOf (ds : List (QueueEntry × InboundProducer)) : Dict (String × String) PortQueue :=
  ds.foldl (Dict.gather (fun d => d.1.key) (fun d => .new d.1.queueFull) fun q d => q.receive d.2) ∅

/-- The queue of an instance that has these arrivals. -/
theorem Queue.foldl_receive (a : Arrival) (as : List Arrival) :
    as.foldl Queue.receive (.new a)
      = ⟨a.destInfo.queueSize, a.thread, portsOf (as.flatMap Arrival.deliveries),
        (as.map fun a => a.producer.source).toFinset, (as.map Arrival.dataType).toFinset,
        (as.map fun a => a.producer.productionHz).foldl addRate none,
        (as.map fun a => a.producer.productionHz).any Option.isNone⟩ := by
  induction as using List.reverseRecOn with
  | nil => rfl
  | append_singleton as b ih =>
    have hports : ∀ ports, b.entries.foldl (receivePort b.producer) ports
        = b.deliveries.foldl (Dict.gather (fun d => d.1.key) (fun d => .new d.1.queueFull)
          fun q d => q.receive d.2) ports := by
      intro ports
      rw [Arrival.deliveries, List.foldl_map]
      rfl
    rw [List.foldl_append, ih]
    simp only [List.foldl_cons, List.foldl_nil, Queue.receive, hports, portsOf, List.flatMap_append,
      List.flatMap_cons, List.flatMap_nil, List.append_nil, List.foldl_append, List.map_append,
      List.map_cons, List.map_nil, toFinset_append_singleton, List.any_append, List.any_cons,
      List.any_nil, Bool.or_false]

/-! ## The kinds of message of a port -/

namespace InstanceInfo

variable {info : InstanceInfo} {port port' : PortName} {dataType : String} {e e' : QueueEntry}

/-- A command port has a kind for each async command, if there is one; any
other port has one kind, under its own name. -/
theorem mem_destinationQueueEntries :
    e ∈ info.destinationQueueEntries port dataType
      ↔ (((info.cmdPort = some port → info.asyncCommands = [])
          ∧ e = ⟨port.str, dataType, info.portFull port⟩)
        ∨ (info.cmdPort = some port ∧ ∃ mnemonic ∈ info.asyncCommands,
          e = ⟨port.str ++ ":" ++ mnemonic, dataType,
            (info.commandQueueFull.get? mnemonic).getD defaultQueueFull⟩)) := by
  unfold destinationQueueEntries
  by_cases hcmd : info.cmdPort = some port
  · by_cases hnil : info.asyncCommands = []
    · simp [hcmd, hnil]
    · have hmap : ∀ f : String → QueueEntry, e ∈ info.asyncCommands.map f
          ↔ ∃ mnemonic ∈ info.asyncCommands, e = f mnemonic := by
        intro f
        simp only [List.mem_map, eq_comm]
      simp [hcmd, hnil, hmap]
  · simp [hcmd, Ne.symm hcmd]

theorem destinationQueueEntries_ne_nil : info.destinationQueueEntries port dataType ≠ [] := by
  unfold destinationQueueEntries
  dsimp only
  split
  · simp
  · split
    · rename_i hne
      exact hne
    · simp

theorem dataType_of_mem (h : e ∈ info.destinationQueueEntries port dataType) :
    e.dataType = dataType := by
  rcases mem_destinationQueueEntries.mp h with ⟨_, rfl⟩ | ⟨_, _, _, rfl⟩ <;> rfl

/-- A kind's name starts with the port, up to a colon. -/
theorem takeWhile_name (h : e ∈ info.destinationQueueEntries port dataType) :
    e.name.toList.takeWhile (fun c => c ≠ ':') = port.str.toList := by
  have hport : ∀ c ∈ port.str.toList, decide (c ≠ ':') = true := by
    intro c hc
    have hcolon : ':' ∉ port.str.toList := port.property.notMem (by decide)
    exact decide_eq_true fun heq => hcolon (heq ▸ hc)
  rcases mem_destinationQueueEntries.mp h with ⟨_, rfl⟩ | ⟨_, _, _, rfl⟩
  · exact List.takeWhile_eq_self_iff.mpr hport
  · have hcolon : (":" : String).toList = [':'] := rfl
    rw [String.toList_append, String.toList_append, hcolon, List.append_assoc,
      List.takeWhile_append_of_pos hport]
    simp

/-- So it tells the port. -/
theorem port_eq_of_name (h : e ∈ info.destinationQueueEntries port dataType) {dataType' : String}
    (h' : e' ∈ info.destinationQueueEntries port' dataType') (hname : e.name = e'.name) :
    port = port' := by
  have htake := takeWhile_name h
  rw [hname, takeWhile_name h'] at htake
  exact (PortName.str_injective (String.toList_injective htake)).symm

/-- The kinds of a port have different names. -/
theorem entry_eq_of_name (h : e ∈ info.destinationQueueEntries port dataType)
    (h' : e' ∈ info.destinationQueueEntries port dataType) (hname : e.name = e'.name) : e = e' := by
  rcases mem_destinationQueueEntries.mp h with ⟨hone, rfl⟩ | ⟨hcmd, mnemonic, hmem, rfl⟩
  · rcases mem_destinationQueueEntries.mp h' with ⟨_, rfl⟩ | ⟨hcmd, mnemonic, hmem, rfl⟩
    · rfl
    · simp [hone hcmd] at hmem
  · rcases mem_destinationQueueEntries.mp h' with ⟨hone, rfl⟩ | ⟨_, mnemonic', _, rfl⟩
    · simp [hone hcmd] at hmem
    · have hmnemonic : mnemonic = mnemonic' := by
        have hchars := congrArg String.toList hname
        simp only [String.toList_append, List.append_cancel_left_eq] at hchars
        exact String.toList_injective hchars
      rw [hmnemonic]

theorem nodup_asyncCommands (info : InstanceInfo) : info.asyncCommands.Nodup := by
  unfold asyncCommands
  rw [(List.perm_insertionSort _ _).nodup_iff]
  exact info.commandKinds.nodupKeys.sublist (List.filter_sublist.map Prod.fst)

theorem nodup_destinationQueueEntries :
    (info.destinationQueueEntries port dataType).Nodup := by
  unfold destinationQueueEntries
  dsimp only
  split
  · simp
  · split
    · refine info.nodup_asyncCommands.map_on fun m _ m' _ heq => ?_
      have hchars := congrArg String.toList (QueueEntry.mk.inj heq).1
      simp only [String.toList_append, List.append_cancel_left_eq] at hchars
      exact String.toList_injective hchars
    · simp

end InstanceInfo

/-- An arrival brings something. -/
theorem Arrival.exists_entry (a : Arrival) : ∃ e, e ∈ a.entries :=
  List.exists_mem_of_ne_nil _ InstanceInfo.destinationQueueEntries_ne_nil

/-! ## The run -/

/-- The conditions under which the loop does not skip a connection. -/
theorem LoadedTopology.queueOf_eq_some_iff {g : LoadedTopology} {dest : PortKey}
    {destInfo : InstanceInfo} {dataType : String} :
    g.queueOf dest = some (destInfo, dataType)
      ↔ g.instances.get? dest.inst = some destInfo ∧ .async ∈ destInfo.kindsOf dest.port
        ∧ destInfo.portTypes.get? dest.port = some dataType ∧ dataType ≠ "" := by
  constructor
  · intro h
    unfold LoadedTopology.queueOf at h
    split at h
    · cases h
    · rename_i info hget
      split at h
      · cases h
      · rename_i hasync
        split at h
        · cases h
        · rename_i type htype
          split at h
          · cases h
          · rename_i hne
            obtain ⟨rfl, rfl⟩ := Prod.mk.inj (Option.some.inj h)
            exact ⟨hget, not_not.mp hasync, htype, hne⟩
  · rintro ⟨hget, hasync, htype, hne⟩
    simp [LoadedTopology.queueOf, hget, hasync, htype, hne]

/-- What a connection that feeds a queue brings to it. -/
structure Arrival.From (g : LoadedTopology) (rates : RateModel) (a : Arrival) : Prop where
  queue : g.queueOf a.connection.dest.port = some (a.destInfo, a.dataType)
  source : a.producer.source = a.connection.source.str
  rate : a.producer.productionHz = rates.productionHz a.connection.source

/-- The arrivals are those of the listed connections that feed a queue. -/
structure LoadedTopology.ArrivalsOf (g : LoadedTopology) (rates : RateModel) (as : List Arrival) :
    Prop where
  connections : as.map Arrival.connection
    = g.connectionList.filter fun c => (g.queueOf c.dest.port).isSome
  brings : ∀ a ∈ as, a.From g rates

/-- The connection leads to an input port of the instance that can be
dispatched async. -/
structure LoadedTopology.FeedsAsync (g : LoadedTopology) (c : Connection) (info : InstanceInfo) :
    Prop where
  listed : c ∈ g.connectionList
  dest : g.instances.get? c.dest.port.inst = some info
  async : .async ∈ info.kindsOf c.dest.port.port

namespace LoadedTopology

variable {g : LoadedTopology} {rates : RateModel}

/-- One round: nothing arrives, or the queue of the destination receives
what the connection brings. -/
theorem gather_cases {s s' : Gathering} {c : Connection} (h : g.gather rates s c = .ok s') :
    (g.queueOf c.dest.port = none ∧ s' = s)
      ∨ ∃ a : Arrival, a.connection = c ∧ a.From g rates ∧ s'.queues = receiveAt s.queues a := by
  unfold gather at h
  split at h
  · rename_i hnone
    exact .inl ⟨hnone, (Except.ok.inj h).symm⟩
  · rename_i destInfo dataType hqueue
    unfold arrival at h
    dsimp only at h
    cases hcontext : g.emitContext s.contexts c.source.port with
    | error e => simp [hcontext, Except.map] at h
    | ok context =>
      simp only [hcontext, Except.map, Except.ok.injEq] at h
      subst h
      exact .inr ⟨_, rfl, ⟨hqueue, rfl, rfl⟩, rfl⟩

theorem foldlM_gather : ∀ (cs : List Connection) {s s' : Gathering},
    cs.foldlM (g.gather rates) s = .ok s' →
    ∃ as : List Arrival,
      as.map Arrival.connection = cs.filter (fun c => (g.queueOf c.dest.port).isSome)
      ∧ (∀ a ∈ as, a.From g rates) ∧ s'.queues = as.foldl receiveAt s.queues
  | [], s, s', h => by
      cases h
      exact ⟨[], rfl, by simp, rfl⟩
  | c :: cs, s, s', h => by
      rw [List.foldlM_cons] at h
      cases hround : g.gather rates s c with
      | error e => simp [hround, bind, Except.bind] at h
      | ok s₁ =>
        rw [hround] at h
        obtain ⟨as, hmap, hfrom, hqueues⟩ := foldlM_gather cs h
        rcases gather_cases hround with ⟨hnone, rfl⟩ | ⟨a, rfl, ha, hs₁⟩
        · exact ⟨as, by simp [hmap, hnone], hfrom, hqueues⟩
        · refine ⟨a :: as, by simp [hmap, ha.queue], ?_, ?_⟩
          · simpa using ⟨ha, hfrom⟩
          · rw [hqueues, hs₁, List.foldl_cons]

/-- **The report is that of the arrivals.** -/
theorem analyze_arrivals {rows : List QueueGroup} (h : g.analyze rates = .ok rows) :
    ∃ as, g.ArrivalsOf rates as
      ∧ rows = (as.foldl receiveAt ∅).sortedEntries.map (g.queueGroup rates) := by
  unfold analyze at h
  cases hfold : g.connectionList.foldlM (g.gather rates) ⟨∅, ∅, ∅⟩ with
  | error e => simp [hfold, Except.map] at h
  | ok s =>
    obtain ⟨as, hmap, hfrom, hqueues⟩ := foldlM_gather _ hfold
    simp only [hfold, Except.map, Except.ok.injEq] at h
    exact ⟨as, ⟨hmap, hfrom⟩, by rw [← h, hqueues]⟩

end LoadedTopology

/-! ## The groups of a row -/

/-- The producers of a group. -/
def producersAt (ds : List (QueueEntry × InboundProducer)) (k : String × String) :
    List InboundProducer :=
  Grouping.keepFirsts InboundProducer.source ((ds.filter fun d => d.1.key = k).map Prod.snd)

section Ports

variable {ds : List (QueueEntry × InboundProducer)} {k : String × String}

theorem mem_keys_portsOf : k ∈ (portsOf ds).keys ↔ ∃ d ∈ ds, d.1.key = k := Dict.mem_keys_gather

theorem of_get?_portsOf {q : PortQueue} (h : (portsOf ds).get? k = some q) :
    ∃ d ∈ ds, d.1.key = k ∧ q = .of d.1.queueFull (producersAt ds k) := by
  obtain ⟨d, rest, hfilter, rfl⟩ := Dict.get?_gather_eq_some_iff.mp h
  have hmem : d ∈ ds.filter fun d => d.1.key = k := by simp [hfilter]
  obtain ⟨hd, hkey⟩ := List.mem_filter.mp hmem
  refine ⟨d, hd, of_decide_eq_true hkey, ?_⟩
  rw [producersAt, hfilter, ← PortQueue.foldl_receive, List.foldl_map]

theorem nodup_producersAt : ((producersAt ds k).map InboundProducer.source).Nodup :=
  Grouping.nodup_keepFirsts _ _

theorem mem_source_producersAt {source : String} :
    source ∈ (producersAt ds k).map InboundProducer.source
      ↔ ∃ d ∈ ds, d.1.key = k ∧ d.2.source = source := by
  rw [producersAt, Grouping.mem_map_keepFirsts]
  simp only [List.mem_map, List.mem_filter, decide_eq_true_eq]
  constructor
  · rintro ⟨p, ⟨d, ⟨hd, hkey⟩, rfl⟩, hsource⟩
    exact ⟨d, hd, hkey, hsource⟩
  · rintro ⟨d, hd, hkey, hsource⟩
    exact ⟨d.2, ⟨d, ⟨hd, hkey⟩, rfl⟩, hsource⟩

theorem of_mem_producersAt {p : InboundProducer} (h : p ∈ producersAt ds k) :
    ∃ d ∈ ds, d.1.key = k ∧ d.2 = p := by
  obtain ⟨d, hd, rfl⟩ := List.mem_map.mp (Grouping.mem_of_mem_keepFirsts _ h)
  obtain ⟨hmem, hkey⟩ := List.mem_filter.mp hd
  exact ⟨d, hmem, of_decide_eq_true hkey, rfl⟩

end Ports

/-- The arrivals at an instance. -/
def arrivalsAt (as : List Arrival) (name : String) : List Arrival :=
  as.filter fun a => a.connection.dest.port.inst = name

namespace LoadedTopology

variable {g : LoadedTopology} {rates : RateModel}

/-- **A row is made of its instance's arrivals**, and every instance with
some has one. -/
theorem mem_rows_iff {as : List Arrival} {r : QueueGroup} :
    r ∈ (as.foldl receiveAt ∅).sortedEntries.map (g.queueGroup rates)
      ↔ ∃ a rest, arrivalsAt as r.destination = a :: rest
        ∧ r = g.queueGroup rates (r.destination, (a :: rest).foldl Queue.receive (.new a)) := by
  have hget : ∀ name q, (as.foldl receiveAt ∅).get? name = some q
      ↔ ∃ a rest, arrivalsAt as name = a :: rest ∧ q = (a :: rest).foldl Queue.receive (.new a) :=
    fun name q => Dict.get?_gather_eq_some_iff
  have hmem : ∀ e, e ∈ (as.foldl receiveAt ∅).sortedEntries
      ↔ (as.foldl receiveAt ∅).get? e.1 = some e.2 := by
    intro e
    rw [Dict.sortedEntries, List.mem_insertionSort, Dict.get?_eq_some_iff]
  rw [List.mem_map]
  constructor
  · rintro ⟨⟨name, q⟩, he, rfl⟩
    obtain ⟨a, rest, harrivals, rfl⟩ := (hget _ _).mp ((hmem _).mp he)
    exact ⟨a, rest, harrivals, rfl⟩
  · rintro ⟨a, rest, harrivals, hr⟩
    exact ⟨_, (hmem _).mpr ((hget _ _).mpr ⟨a, rest, harrivals, rfl⟩), hr.symm⟩

/-- An instance has one row. -/
theorem nodup_destinations (as : List Arrival) :
    (((as.foldl receiveAt ∅).sortedEntries.map (g.queueGroup rates)).map
      QueueGroup.destination).Nodup := by
  rw [List.map_map]
  show ((as.foldl receiveAt ∅).sortedEntries.map Prod.fst).Nodup
  rw [Dict.sortedEntries, ((List.perm_insertionSort _ _).map Prod.fst).nodup_iff]
  exact (as.foldl receiveAt ∅).nodupKeys

end LoadedTopology

/-- The deliveries to an instance. -/
def deliveriesAt (as : List Arrival) (name : String) : List (QueueEntry × InboundProducer) :=
  (arrivalsAt as name).flatMap Arrival.deliveries

theorem mem_arrivalsAt {as : List Arrival} {name : String} {a : Arrival} :
    a ∈ arrivalsAt as name ↔ a ∈ as ∧ a.connection.dest.port.inst = name := by
  simp [arrivalsAt]

theorem mem_deliveriesAt {as : List Arrival} {name : String} {d : QueueEntry × InboundProducer} :
    d ∈ deliveriesAt as name ↔ ∃ a ∈ arrivalsAt as name, d.1 ∈ a.entries ∧ d.2 = a.producer := by
  simp only [deliveriesAt, List.mem_flatMap, Arrival.deliveries, List.mem_map]
  constructor
  · rintro ⟨a, ha, entry, hentry, rfl⟩
    exact ⟨a, ha, hentry, rfl⟩
  · rintro ⟨a, ha, hentry, hproducer⟩
    exact ⟨a, ha, d.1, hentry, Prod.ext rfl hproducer.symm⟩

/-- The row is made of the arrivals at its destination. -/
structure QueueGroup.MadeOf (as : List Arrival) (r : QueueGroup) : Prop where
  arrives : arrivalsAt as r.destination ≠ []
  inboundPorts : r.inboundPorts
    = ((portsOf (deliveriesAt as r.destination)).entries.insertionSort keyLe).map portGroup
  inbound : r.inbound
    = sortNames ((arrivalsAt as r.destination).map fun a => a.producer.source).toFinset
  dataTypes : r.dataTypes = sortNames ((arrivalsAt as r.destination).map Arrival.dataType).toFinset
  total : r.totalProductionHz
    = totalHz ((arrivalsAt as r.destination).map fun a => a.producer.productionHz)
  fillTime : r.queueFillTimeS = estimateFillTime r.queueSize r.totalProductionHz r.consumerRateHz

namespace QueueGroup.MadeOf

variable {as : List Arrival} {r : QueueGroup}

/-- The groups, by their keys. -/
theorem mem_inboundPorts_iff (h : r.MadeOf as) {group : InboundAsyncPortGroup} :
    group ∈ r.inboundPorts ↔ ∃ k q, (portsOf (deliveriesAt as r.destination)).get? k = some q
      ∧ group = portGroup (k, q) := by
  rw [h.inboundPorts, List.mem_map]
  constructor
  · rintro ⟨⟨k, q⟩, he, rfl⟩
    exact ⟨k, q, (Dict.get?_eq_some_iff _ _ _).mpr ((List.mem_insertionSort keyLe).mp he), rfl⟩
  · rintro ⟨k, q, hget, rfl⟩
    exact ⟨(k, q), (List.mem_insertionSort keyLe).mpr ((Dict.get?_eq_some_iff _ _ _).mp hget), rfl⟩

/-- A group has the policy of the kind of message it is for. -/
theorem of_mem_inboundPorts (h : r.MadeOf as) {group : InboundAsyncPortGroup}
    (hgroup : group ∈ r.inboundPorts) :
    ∃ a ∈ arrivalsAt as r.destination, ∃ e ∈ a.entries,
      e.key = (group.destinationPort, group.dataType) ∧ e.queueFull = group.overflowBehavior := by
  obtain ⟨k, q, hget, rfl⟩ := h.mem_inboundPorts_iff.mp hgroup
  obtain ⟨d, hd, hkey, rfl⟩ := of_get?_portsOf hget
  obtain ⟨a, ha, hentry, _⟩ := mem_deliveriesAt.mp hd
  exact ⟨a, ha, d.1, hentry, hkey, rfl⟩

/-- The producers of a group are those of its deliveries. -/
theorem producers_perm (h : r.MadeOf as) {group : InboundAsyncPortGroup}
    (hgroup : group ∈ r.inboundPorts) :
    group.producers.Perm
      (producersAt (deliveriesAt as r.destination) (group.destinationPort, group.dataType)) := by
  obtain ⟨k, q, hget, rfl⟩ := h.mem_inboundPorts_iff.mp hgroup
  obtain ⟨d, hd, hkey, rfl⟩ := of_get?_portsOf hget
  exact List.perm_insertionSort _ _

end QueueGroup.MadeOf

namespace LoadedTopology

variable {g : LoadedTopology} {rates : RateModel}

variable {as : List Arrival}

theorem ArrivalsOf.feedsAsync (h : g.ArrivalsOf rates as) {a : Arrival} (ha : a ∈ as) :
    g.FeedsAsync a.connection a.destInfo := by
  have hmem : a.connection ∈ as.map Arrival.connection := List.mem_map_of_mem ha
  rw [h.connections] at hmem
  obtain ⟨hdest, hasync, _⟩ := queueOf_eq_some_iff.mp (h.brings a ha).queue
  exact ⟨(List.mem_filter.mp hmem).1, hdest, hasync⟩

/-- A connection that feeds a queue arrives. -/
theorem ArrivalsOf.exists_arrival (h : g.ArrivalsOf rates as) {c : Connection}
    (hc : c ∈ g.connectionList) {info : InstanceInfo} {dataType : String}
    (hqueue : g.queueOf c.dest.port = some (info, dataType)) : ∃ a ∈ as, a.connection = c := by
  have hmem : c ∈ as.map Arrival.connection := by
    rw [h.connections]
    exact List.mem_filter.mpr ⟨hc, by simp [hqueue]⟩
  exact List.mem_map.mp hmem

/-- The arrivals at an instance agree on what it is. -/
theorem ArrivalsOf.destInfo_eq (h : g.ArrivalsOf rates as) {a : Arrival} {name : String}
    (ha : a ∈ arrivalsAt as name) {info : InstanceInfo} (hinfo : g.instances.get? name = some info) :
    a.destInfo = info := by
  obtain ⟨hmem, rfl⟩ := mem_arrivalsAt.mp ha
  exact Option.some.inj ((h.feedsAsync hmem).dest.symm.trans hinfo)

theorem ArrivalsOf.dataType (h : g.ArrivalsOf rates as) {a : Arrival} {name : String}
    (ha : a ∈ arrivalsAt as name) :
    a.destInfo.portTypes.get? a.connection.dest.port.port = some a.dataType := by
  obtain ⟨hmem, _⟩ := mem_arrivalsAt.mp ha
  exact (queueOf_eq_some_iff.mp (h.brings a hmem).queue).2.2.1

/-- The name of a kind of message tells the kind. -/
theorem ArrivalsOf.key_eq (h : g.ArrivalsOf rates as) {name : String} {a a' : Arrival}
    (ha : a ∈ arrivalsAt as name) (ha' : a' ∈ arrivalsAt as name) {e e' : QueueEntry}
    (he : e ∈ a.entries) (he' : e' ∈ a'.entries) (hname : e.name = e'.name) : e = e' := by
  have hinfo : g.instances.get? name = some a'.destInfo := by
    obtain ⟨hmem, rfl⟩ := mem_arrivalsAt.mp ha'
    exact (h.feedsAsync hmem).dest
  have hdest := h.destInfo_eq ha hinfo
  have htype := h.dataType ha
  have htype' := h.dataType ha'
  unfold Arrival.entries at he he'
  rw [hdest] at he htype
  have hport := InstanceInfo.port_eq_of_name he he' hname
  rw [hport, htype'] at htype
  rw [hport, ← Option.some.inj htype] at he
  exact InstanceInfo.entry_eq_of_name he he' hname

/-- An instance with arrivals has a row. -/
theorem exists_row {a : Arrival} (ha : a ∈ as) :
    ∃ r ∈ (as.foldl receiveAt ∅).sortedEntries.map (g.queueGroup rates),
      r.destination = a.connection.dest.port.inst := by
  have hne : arrivalsAt as a.connection.dest.port.inst ≠ [] :=
    List.ne_nil_of_mem (mem_arrivalsAt.mpr ⟨ha, rfl⟩)
  obtain ⟨first, rest, harrivals⟩ := List.exists_cons_of_ne_nil hne
  exact ⟨g.queueGroup rates
      (a.connection.dest.port.inst, (first :: rest).foldl Queue.receive (.new first)),
    mem_rows_iff.mpr ⟨first, rest, harrivals, rfl⟩, rfl⟩

theorem madeOf_of_mem_rows {r : QueueGroup}
    (h : r ∈ (as.foldl receiveAt ∅).sortedEntries.map (g.queueGroup rates)) : r.MadeOf as := by
  obtain ⟨a, rest, harrivals, hr⟩ := mem_rows_iff.mp h
  rw [Queue.foldl_receive, ← harrivals] at hr
  have hne : arrivalsAt as r.destination ≠ [] := by simp [harrivals]
  exact ⟨hne, by rw [hr]; rfl, by rw [hr]; rfl, by rw [hr]; rfl, by rw [hr]; rfl, by rw [hr]; rfl⟩

/-- A row has one group of a name. -/
theorem nodup_destinationPorts (has : g.ArrivalsOf rates as) {r : QueueGroup} (hr : r.MadeOf as) :
    (r.inboundPorts.map InboundAsyncPortGroup.destinationPort).Nodup := by
  have hperm : (r.inboundPorts.map InboundAsyncPortGroup.destinationPort).Perm
      ((portsOf (deliveriesAt as r.destination)).keys.map Prod.fst) := by
    rw [hr.inboundPorts, List.map_map, Dict.keys, List.map_map]
    exact (List.perm_insertionSort keyLe _).map _
  rw [hperm.nodup_iff]
  refine (portsOf (deliveriesAt as r.destination)).nodupKeys.map_on fun k hk k' hk' hname => ?_
  obtain ⟨d, hd, rfl⟩ := mem_keys_portsOf.mp hk
  obtain ⟨d', hd', rfl⟩ := mem_keys_portsOf.mp hk'
  obtain ⟨a, ha, he, _⟩ := mem_deliveriesAt.mp hd
  obtain ⟨a', ha', he', _⟩ := mem_deliveriesAt.mp hd'
  rw [has.key_eq ha ha' he he' hname]

/-- It has a group for each kind of message that arrives. -/
theorem exists_group {r : QueueGroup} (hr : r.MadeOf as) {a : Arrival}
    (ha : a ∈ arrivalsAt as r.destination) {e : QueueEntry} (he : e ∈ a.entries) :
    ∃ group ∈ r.inboundPorts, (group.destinationPort, group.dataType) = e.key := by
  have hkey : e.key ∈ (portsOf (deliveriesAt as r.destination)).keys :=
    mem_keys_portsOf.mpr ⟨(e, a.producer), mem_deliveriesAt.mpr ⟨a, ha, he, rfl⟩, rfl⟩
  obtain ⟨q, hq⟩ := (Dict.mem_keys_iff _ _).mp hkey
  exact ⟨_, hr.mem_inboundPorts_iff.mpr ⟨_, q, hq, rfl⟩, rfl⟩

end LoadedTopology

end FprimeTopologyAnalysis
