/-
FprimeTopologyAnalysis.QueueProducers — which producers the queue report
names.

`analyze` groups every async queue with the producers that feed it. A
connection is skipped when its destination is not known or not async, and
then has no queue to feed. It is also skipped when the destination port has
no type, as a serial port has none; that connection feeds a queue and is
not in the report.

Every producer is therefore named, and named once, exactly when the async
destinations have types (`keepsProducers_iff`).
-/
import FprimeTopologyAnalysis.AsyncQueue

namespace FprimeTopologyAnalysis

open Library

/-- The names of the groups that a connection to the port belongs to. -/
def InstanceInfo.groupNames (info : InstanceInfo) (port : PortName) : List String :=
  if info.cmdPort = some port ∧ info.asyncCommands ≠ [] then
    info.asyncCommands.map fun mnemonic => port.str ++ ":" ++ mnemonic
  else [port.str]

/-- The port has a type. -/
def InstanceInfo.Typed (info : InstanceInfo) (port : PortName) : Prop :=
  ∃ dataType, info.portTypes.get? port = some dataType ∧ dataType ≠ ""

theorem InstanceInfo.mem_groupNames_iff {info : InstanceInfo} {port : PortName} (dataType : String)
    {name : String} : name ∈ info.groupNames port
      ↔ ∃ e ∈ info.destinationQueueEntries port dataType, e.name = name := by
  simp only [mem_destinationQueueEntries]
  unfold groupNames
  split
  · rename_i hcmd
    rw [List.mem_map]
    constructor
    · rintro ⟨mnemonic, hmem, rfl⟩
      exact ⟨_, .inr ⟨hcmd.1, mnemonic, hmem, rfl⟩, rfl⟩
    · rintro ⟨_, ⟨hone, rfl⟩ | ⟨_, mnemonic, hmem, rfl⟩, rfl⟩
      · exact absurd (hone hcmd.1) hcmd.2
      · exact ⟨mnemonic, hmem, rfl⟩
  · rename_i hcmd
    rw [List.mem_singleton]
    constructor
    · rintro rfl
      exact ⟨_, .inl ⟨fun hport => not_not.mp fun hne => hcmd ⟨hport, hne⟩, rfl⟩, rfl⟩
    · rintro ⟨_, ⟨_, rfl⟩ | ⟨hport, mnemonic, hmem, rfl⟩, rfl⟩
      · rfl
      · exact absurd ⟨hport, List.ne_nil_of_mem hmem⟩ hcmd

theorem InstanceInfo.exists_groupName (info : InstanceInfo) (port : PortName) :
    ∃ name, name ∈ info.groupNames port := by
  have hne : info.destinationQueueEntries port "" ≠ [] := destinationQueueEntries_ne_nil
  obtain ⟨e, he⟩ := List.exists_mem_of_ne_nil _ hne
  exact ⟨e.name, (mem_groupNames_iff "").mpr ⟨e, he, rfl⟩⟩

namespace LoadedTopology

variable (g : LoadedTopology)

/-- The source is named once in the row: in its inbound list, and as one
producer of the one group of each name. -/
structure NamedOnce (r : QueueGroup) (source : String) (names : List String) : Prop where
  inbound : source ∈ r.inbound
  groups : ∀ name ∈ names, ∃ group,
    r.inboundPorts.filter (fun group => group.destinationPort = name) = [group]
      ∧ (group.producers.map InboundProducer.source).count source = 1

/-- No producer is lost, duplicated or made up. -/
structure KeepsProducers (rows : List QueueGroup) : Prop where
  feeds : ∀ c info, g.FeedsAsync c info → ∃ r,
    rows.filter (fun r => r.destination = c.dest.port.inst) = [r]
      ∧ NamedOnce r c.source.str (info.groupNames c.dest.port.port)
  producers : ∀ r ∈ rows, ∀ group ∈ r.inboundPorts, ∀ p ∈ group.producers, ∃ c info,
    g.FeedsAsync c info ∧ c.dest.port.inst = r.destination
      ∧ group.destinationPort ∈ info.groupNames c.dest.port.port ∧ p.source = c.source.str
  rows : ∀ r ∈ rows, ∃ c info, g.FeedsAsync c info ∧ c.dest.port.inst = r.destination

variable {g} {rates : RateModel}

theorem queueOf_of_typed {c : Connection} {info : InstanceInfo} (h : g.FeedsAsync c info)
    (ht : info.Typed c.dest.port.port) :
    ∃ dataType, g.queueOf c.dest.port = some (info, dataType) := by
  obtain ⟨dataType, hget, hne⟩ := ht
  exact ⟨dataType, queueOf_eq_some_iff.mpr ⟨h.dest, h.async, hget, hne⟩⟩

/-! ## The groups of a row -/

section Row

variable {as : List Arrival} {r : QueueGroup}

/-- The producers of a group, each once: the sources that deliver to it. -/
theorem count_source (hr : r.MadeOf as) {group : InboundAsyncPortGroup}
    (hgroup : group ∈ r.inboundPorts) {a : Arrival} (ha : a ∈ arrivalsAt as r.destination)
    {e : QueueEntry} (he : e ∈ a.entries)
    (hkey : (group.destinationPort, group.dataType) = e.key) :
    (group.producers.map InboundProducer.source).count a.producer.source = 1 := by
  have hmem : a.producer.source ∈ (producersAt (deliveriesAt as r.destination) e.key).map
      InboundProducer.source :=
    mem_source_producersAt.mpr ⟨(e, a.producer), mem_deliveriesAt.mpr ⟨a, ha, he, rfl⟩, rfl, rfl⟩
  rw [((hr.producers_perm hgroup).map InboundProducer.source).count_eq, hkey]
  exact List.count_eq_one_of_mem nodup_producersAt hmem

/-- Each producer of a group comes from a connection to one of its ports. -/
theorem of_mem_producers (has : g.ArrivalsOf rates as) (hr : r.MadeOf as)
    {group : InboundAsyncPortGroup} (hgroup : group ∈ r.inboundPorts) {p : InboundProducer}
    (hp : p ∈ group.producers) :
    ∃ c info, g.FeedsAsync c info ∧ c.dest.port.inst = r.destination
      ∧ group.destinationPort ∈ info.groupNames c.dest.port.port ∧ p.source = c.source.str := by
  obtain ⟨d, hd, hkey, rfl⟩ := of_mem_producersAt ((hr.producers_perm hgroup).subset hp)
  obtain ⟨a, ha, he, hproducer⟩ := mem_deliveriesAt.mp hd
  obtain ⟨hmem, hdest⟩ := mem_arrivalsAt.mp ha
  refine ⟨a.connection, a.destInfo, has.feedsAsync hmem, hdest, ?_, ?_⟩
  · exact (InstanceInfo.mem_groupNames_iff a.dataType).mpr ⟨d.1, he, congrArg Prod.fst hkey⟩
  · rw [hproducer, (has.brings a hmem).source]

end Row

/-! ## Every producer, once -/

/-- A connection to a typed port is named once in its row. -/
theorem namedOnce_of_arrival {as : List Arrival} (has : g.ArrivalsOf rates as) {r : QueueGroup}
    (hr : r.MadeOf as) {a : Arrival} (ha : a ∈ arrivalsAt as r.destination) :
    NamedOnce r a.connection.source.str (a.destInfo.groupNames a.connection.dest.port.port) where
  inbound := by
    rw [hr.inbound, mem_sortNames, List.mem_toFinset, List.mem_map]
    exact ⟨a, ha, (has.brings a (mem_arrivalsAt.mp ha).1).source⟩
  groups name hname := by
    obtain ⟨e, he, rfl⟩ := (InstanceInfo.mem_groupNames_iff a.dataType).mp hname
    obtain ⟨group, hgroup, hkey⟩ := exists_group hr ha he
    have hport : group.destinationPort = e.name := congrArg Prod.fst hkey
    refine ⟨group, ?_, ?_⟩
    · rw [← hport]
      exact Grouping.filter_key_eq_singleton _ (nodup_destinationPorts has hr) hgroup
    · rw [← (has.brings a (mem_arrivalsAt.mp ha).1).source]
      exact count_source hr hgroup ha he hkey

/-- A connection that is named in a group feeds a typed port. -/
theorem typed_of_group {as : List Arrival} (has : g.ArrivalsOf rates as) {r : QueueGroup}
    (hr : r.MadeOf as) {c : Connection} {info : InstanceInfo} (hc : g.FeedsAsync c info)
    (hdest : r.destination = c.dest.port.inst) {group : InboundAsyncPortGroup}
    (hgroup : group ∈ r.inboundPorts)
    (hname : group.destinationPort ∈ info.groupNames c.dest.port.port) :
    info.Typed c.dest.port.port := by
  obtain ⟨a, ha, e, he, hkey, _⟩ := hr.of_mem_inboundPorts hgroup
  obtain rfl := has.destInfo_eq ha (hdest ▸ hc.dest)
  obtain ⟨e', he', hname'⟩ := (InstanceInfo.mem_groupNames_iff a.dataType).mp hname
  have hport := InstanceInfo.port_eq_of_name he he' ((congrArg Prod.fst hkey).trans hname'.symm)
  obtain ⟨_, _, htype, hne⟩ := queueOf_eq_some_iff.mp (has.brings a (mem_arrivalsAt.mp ha).1).queue
  exact ⟨a.dataType, hport ▸ htype, hne⟩

/-- **No producer is lost exactly when** every async destination has a
type. -/
theorem keepsProducers_iff {rows : List QueueGroup} (h : g.analyze rates = .ok rows) :
    g.KeepsProducers rows ↔ ∀ c info, g.FeedsAsync c info → info.Typed c.dest.port.port := by
  obtain ⟨as, has, rfl⟩ := analyze_arrivals h
  constructor
  · intro hkeeps c info hc
    obtain ⟨r, hfilter, hnamed⟩ := hkeeps.feeds c info hc
    obtain ⟨hr, hdest⟩ := List.mem_filter.mp (List.mem_of_mem_head? (by rw [hfilter]; rfl))
    obtain ⟨name, hname⟩ := info.exists_groupName c.dest.port.port
    obtain ⟨group, hgroups, _⟩ := hnamed.groups name hname
    obtain ⟨hgroup, hnamed'⟩ := List.mem_filter.mp (List.mem_of_mem_head? (by rw [hgroups]; rfl))
    obtain rfl := of_decide_eq_true hnamed'
    exact typed_of_group has (madeOf_of_mem_rows hr) hc (of_decide_eq_true hdest) hgroup hname
  · intro htyped
    refine ⟨fun c info hc => ?_, fun r hr group hgroup p hp => ?_, fun r hr => ?_⟩
    · obtain ⟨dataType, hqueue⟩ := queueOf_of_typed hc (htyped c info hc)
      obtain ⟨a, ha, rfl⟩ := has.exists_arrival hc.listed hqueue
      obtain ⟨r, hr, hdest⟩ := exists_row ha
      have hat : a ∈ arrivalsAt as r.destination := mem_arrivalsAt.mpr ⟨ha, hdest.symm⟩
      obtain rfl := has.destInfo_eq (mem_arrivalsAt.mpr ⟨ha, rfl⟩) hc.dest
      refine ⟨r, ?_, namedOnce_of_arrival has (madeOf_of_mem_rows hr) hat⟩
      rw [← hdest]
      exact Grouping.filter_key_eq_singleton _ (nodup_destinations as) hr
    · exact of_mem_producers has (madeOf_of_mem_rows hr) hgroup hp
    · obtain ⟨a, ha⟩ := List.exists_mem_of_ne_nil _ (madeOf_of_mem_rows hr).arrives
      obtain ⟨hmem, hdest⟩ := mem_arrivalsAt.mp ha
      exact ⟨a.connection, a.destInfo, has.feedsAsync hmem, hdest⟩

end LoadedTopology

/-! ## A serial port -/

/-- A serial port, which has no type. -/
def PortName.serialIn : PortName := ⟨"serialIn", by decide⟩

/-- `T.driver.out`, wired to an async input of `T.hub`. -/
def serialConnection : Connection :=
  ⟨⟨⟨"T.driver", .out⟩, some 0⟩, ⟨⟨"T.hub", .serialIn⟩, some 0⟩⟩

/-- A hub with an async port of some type. -/
def hubInfo (portTypes : Dict PortName String) : InstanceInfo where
  kind := .active
  inputPorts := .ofList [(.serialIn, {.async})]
  queueSize := some 10
  portTypes := portTypes

/-- A driver that feeds the queue of the hub through the connection. -/
def hubTopology (portTypes : Dict PortName String) : LoadedTopology where
  instances := .ofList [("T.driver", { kind := .active, outputPorts := [.out] }),
    ("T.hub", hubInfo portTypes)]
  connections := .ofList [(⟨"T.driver", .out⟩, [⟨"T.hub", .serialIn⟩])]
  flow := .permissive ∅
  connectionList := [serialConnection]

theorem hub_feedsAsync (portTypes : Dict PortName String) :
    (hubTopology portTypes).FeedsAsync serialConnection (hubInfo portTypes) where
  listed := List.mem_singleton_self _
  dest := rfl
  async := by
    have hkinds : SyncKind.async ∈ (hubInfo ∅).kindsOf serialConnection.dest.port.port := by decide
    exact hkinds

/-- With a type for the port, the driver is named. -/
theorem keepsProducers_iff_typed :
    ∃ rows, (hubTopology (.ofList [(.serialIn, "Fw.BufferSend")])).analyze {} = .ok rows
      ∧ (hubTopology (.ofList [(.serialIn, "Fw.BufferSend")])).KeepsProducers rows := by
  refine ⟨_, rfl, (LoadedTopology.keepsProducers_iff rfl).mpr fun c info hc => ?_⟩
  obtain rfl : c = serialConnection := List.mem_singleton.mp hc.listed
  obtain rfl := Option.some.inj ((hub_feedsAsync _).dest.symm.trans hc.dest)
  exact ⟨"Fw.BufferSend", by decide, by decide⟩

/-- **A producer is lost**: the serial port is async, and the report has no
row for its queue. -/
theorem producer_lost :
    (hubTopology ∅).analyze {} = .ok [] ∧ ¬ (hubTopology ∅).KeepsProducers [] := by
  refine ⟨rfl, fun hkeeps => ?_⟩
  obtain ⟨r, hfilter, _⟩ := hkeeps.feeds _ _ (hub_feedsAsync ∅)
  simp at hfilter

end FprimeTopologyAnalysis
