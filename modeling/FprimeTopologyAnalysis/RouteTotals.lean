/-
FprimeTopologyAnalysis.RouteTotals — the totals of a row, route by route.

A route is a source and the port it feeds. A group adds up the rates of the
routes that bring its kind of message, each once; a row adds up those of its
connections. Where no addition is rounded (`FitsDigits`), the totals are sums
over the routes: the groups that are kept count a route once for each kept
kind of message of its port (`apply_totals`), and the connections once for
each of them (`total_connections`).
-/
import FprimeTopologyAnalysis.AsyncQueue

namespace FprimeTopologyAnalysis

open Library

/-- A rate, where an unknown one counts nothing. -/
def RateModel.hz (rates : RateModel) (source : ConnectionEnd) : ℚ :=
  (rates.productionHz source).getD 0

/-- The key of a group. -/
def InboundAsyncPortGroup.key (group : InboundAsyncPortGroup) : String × String :=
  (group.destinationPort, group.dataType)

namespace LoadedTopology

variable (g : LoadedTopology) (rates : RateModel)

/-- The kinds of message that a connection to the port brings. -/
def entriesAt (dest : PortKey) : List QueueEntry :=
  match g.queueOf dest with
  | none => []
  | some (destInfo, dataType) => destInfo.destinationQueueEntries dest.port dataType

/-- Those of them that are not dropped. -/
def keptEntries (dest : PortKey) : List QueueEntry :=
  (g.entriesAt dest).filter fun e => e.queueFull ≠ .drop

/-- The connection feeds a group of the row that is kept. -/
def FeedsKept (r : QueueGroup) (c : Connection) : Prop :=
  c.dest.port.inst = r.destination ∧ ∃ e ∈ g.entriesAt c.dest.port, ∃ group ∈ r.inboundPorts,
    group.overflowBehavior ≠ .drop ∧ group.key = e.key

instance (r : QueueGroup) : DecidablePred (g.FeedsKept r) := fun c =>
  inferInstanceAs (Decidable (c.dest.port.inst = r.destination ∧ ∃ e ∈ g.entriesAt c.dest.port,
    ∃ group ∈ r.inboundPorts, group.overflowBehavior ≠ .drop ∧ group.key = e.key))

/-- The distinct connections that feed a kept group, in the order of their list. -/
def keptConnections (r : QueueGroup) : List Connection :=
  (g.connectionList.filter (g.FeedsKept r)).dedup

/-- The rates of some connections added up as `analyze` does, unless one is
unknown. -/
def sumHz (cs : List Connection) : Option ℚ := totalHz (cs.map fun c => rates.productionHz c.source)

end LoadedTopology

/-- A source and the port it feeds. -/
abbrev Route := ConnectionEnd × PortKey

/-- The route of a connection: all of it but the index it ends at. -/
def Connection.route (c : Connection) : Route := (c.source, c.dest.port)

namespace LoadedTopology

variable (g : LoadedTopology) (rates : RateModel)

/-- The connections to an instance that bring a kept kind of message. -/
def keptList (name : String) : List Connection :=
  g.connectionList.filter fun c => c.dest.port.inst = name ∧ g.keptEntries c.dest.port ≠ []

/-- Their routes. -/
def keptRoutes (name : String) : Finset Route :=
  ((g.keptList name).map Connection.route).toFinset

/-- How many kept kinds of message a route brings. -/
def kinds (route : Route) : Nat := (g.keptEntries route.2).length

/-- How many connections a route has. -/
def distinct (route : Route) : Nat :=
  (g.connectionList.toFinset.filter fun c => c.route = route).card

/-- How often the connections of a route are listed. -/
def listed (route : Route) : Nat := (g.connectionList.filter fun c => c.route = route).length

/-- The rates of the routes, each as often as it counts. -/
def weigh (name : String) (times : Route → Nat) : ℚ :=
  ∑ route ∈ g.keptRoutes name, times route • rates.hz route.1

/-- No kind of message that comes to the instance is dropped. -/
def DropsNothing (name : String) : Prop :=
  ∀ c ∈ g.connectionList, c.dest.port.inst = name →
    ∀ e ∈ g.entriesAt c.dest.port, e.queueFull ≠ .drop

/-- The rate of a kept route is unknown. -/
def Unknown (name : String) : Prop :=
  ∃ route ∈ g.keptRoutes name, rates.productionHz route.1 = none

instance (name : String) : Decidable (g.Unknown rates name) :=
  inferInstanceAs (Decidable (∃ route ∈ g.keptRoutes name, rates.productionHz route.1 = none))

/-- The rates of the kept routes are whole multiples of a power of two, and
counted by kinds of message or by connections they come to less than `2 ^ 53`
of it. So no addition is rounded, in whatever order. -/
structure FitsDigits (name : String) (k : Int) : Prop where
  multiple : ∀ route ∈ g.keptRoutes name, Rounding.IsMultiple k (rates.hz route.1)
  kinds : ∑ route ∈ g.keptRoutes name, g.kinds route • |rates.hz route.1| < 2 ^ (k + floatDigits)
  listed : ∑ route ∈ g.keptRoutes name, g.listed route • |rates.hz route.1| < 2 ^ (k + floatDigits)

variable {g} {rates} {name : String}

theorem mem_keptList {c : Connection} :
    c ∈ g.keptList name
      ↔ c ∈ g.connectionList ∧ c.dest.port.inst = name ∧ g.keptEntries c.dest.port ≠ [] := by
  simp [keptList]

theorem mem_keptRoutes {route : Route} :
    route ∈ g.keptRoutes name ↔ ∃ c ∈ g.keptList name, c.route = route := by
  simp [keptRoutes]

theorem mem_keptEntries {dest : PortKey} {e : QueueEntry} :
    e ∈ g.keptEntries dest ↔ e ∈ g.entriesAt dest ∧ e.queueFull ≠ .drop := by
  simp [keptEntries]

theorem nodup_keys_entriesAt (dest : PortKey) :
    ((g.entriesAt dest).map QueueEntry.key).Nodup := by
  unfold entriesAt
  split
  · simp
  · refine InstanceInfo.nodup_destinationQueueEntries.map_on fun e he e' he' hkey => ?_
    exact InstanceInfo.entry_eq_of_name he he' (congrArg Prod.fst hkey)

theorem nodup_keys_keptEntries (dest : PortKey) :
    ((g.keptEntries dest).map QueueEntry.key).Nodup :=
  (nodup_keys_entriesAt dest).sublist (List.filter_sublist.map _)

/-! ## Arrivals on the routes -/

variable {as : List Arrival} {r : QueueGroup}

theorem ArrivalsOf.entries_eq (h : g.ArrivalsOf rates as) {a : Arrival} (ha : a ∈ as) :
    a.entries = g.entriesAt a.connection.dest.port := by
  rw [entriesAt, (h.brings a ha).queue]
  rfl

/-- A connection that brings something arrives. -/
theorem ArrivalsOf.exists_of_entry (h : g.ArrivalsOf rates as) {c : Connection}
    (hc : c ∈ g.connectionList) {e : QueueEntry} (he : e ∈ g.entriesAt c.dest.port) :
    ∃ a ∈ as, a.connection = c ∧ e ∈ a.entries := by
  have hqueue : ∃ info dataType, g.queueOf c.dest.port = some (info, dataType) := by
    unfold entriesAt at he
    split at he
    · simp at he
    · exact ⟨_, _, by assumption⟩
  obtain ⟨info, dataType, hqueue⟩ := hqueue
  obtain ⟨a, ha, rfl⟩ := h.exists_arrival hc hqueue
  exact ⟨a, ha, rfl, (h.entries_eq ha).symm ▸ he⟩

/-- A group has the policy of its kind of message. -/
theorem policy_eq (has : g.ArrivalsOf rates as) (hr : r.MadeOf as) {a : Arrival}
    (ha : a ∈ arrivalsAt as r.destination) {e : QueueEntry} (he : e ∈ a.entries)
    {group : InboundAsyncPortGroup} (hgroup : group ∈ r.inboundPorts) (hkey : group.key = e.key) :
    group.overflowBehavior = e.queueFull := by
  obtain ⟨a', ha', e', he', hkey', hfull⟩ := hr.of_mem_inboundPorts hgroup
  have hname : e'.name = e.name := congrArg Prod.fst (hkey'.trans hkey)
  rw [← hfull, has.key_eq ha' ha he' he hname]

/-- **The kept groups are the kept kinds of message.** -/
theorem exists_kept_iff (has : g.ArrivalsOf rates as) (hr : r.MadeOf as) {c : Connection}
    (hc : c ∈ g.connectionList) (hdest : c.dest.port.inst = r.destination) {k : String × String} :
    (∃ e ∈ g.keptEntries c.dest.port, e.key = k)
      ↔ ∃ e ∈ g.entriesAt c.dest.port, e.key = k
        ∧ ∃ group ∈ r.inboundPorts, group.overflowBehavior ≠ .drop ∧ group.key = k := by
  constructor
  · rintro ⟨e, he, rfl⟩
    obtain ⟨he, hfull⟩ := mem_keptEntries.mp he
    obtain ⟨a, ha, rfl, hentry⟩ := has.exists_of_entry hc he
    have hat : a ∈ arrivalsAt as r.destination := mem_arrivalsAt.mpr ⟨ha, hdest⟩
    obtain ⟨group, hgroup, hkey⟩ := exists_group hr hat hentry
    exact ⟨e, he, rfl, group, hgroup, (policy_eq has hr hat hentry hgroup hkey).symm ▸ hfull, hkey⟩
  · rintro ⟨e, he, rfl, group, hgroup, hfull, hkey⟩
    obtain ⟨a, ha, rfl, hentry⟩ := has.exists_of_entry hc he
    have hat : a ∈ arrivalsAt as r.destination := mem_arrivalsAt.mpr ⟨ha, hdest⟩
    exact ⟨e, mem_keptEntries.mpr ⟨he, policy_eq has hr hat hentry hgroup hkey ▸ hfull⟩, rfl⟩

theorem feedsKept_iff (has : g.ArrivalsOf rates as) (hr : r.MadeOf as) {c : Connection}
    (hc : c ∈ g.connectionList) :
    g.FeedsKept r c ↔ c.dest.port.inst = r.destination ∧ g.keptEntries c.dest.port ≠ [] := by
  unfold FeedsKept
  refine and_congr_right fun hdest => ?_
  constructor
  · rintro ⟨e, he, group, hgroup, hfull, hkey⟩
    obtain ⟨e', he', _⟩ := (exists_kept_iff has hr hc hdest).mpr
      ⟨e, he, rfl, group, hgroup, hfull, hkey⟩
    exact List.ne_nil_of_mem he'
  · intro hne
    obtain ⟨e, he⟩ := List.exists_mem_of_ne_nil _ hne
    obtain ⟨e', he', hkey, group, hgroup, hfull, hkey'⟩ :=
      (exists_kept_iff has hr hc hdest).mp ⟨e, he, rfl⟩
    exact ⟨e', he', group, hgroup, hfull, hkey'.trans hkey.symm⟩

/-- Nothing is dropped when no group of the row is. -/
theorem dropsNothing_iff (has : g.ArrivalsOf rates as) (hr : r.MadeOf as) :
    (∀ group ∈ r.inboundPorts, group.overflowBehavior ≠ .drop) ↔ g.DropsNothing r.destination := by
  constructor
  · intro hall c hc hdest e he
    obtain ⟨a, ha, rfl, hentry⟩ := has.exists_of_entry hc he
    have hat : a ∈ arrivalsAt as r.destination := mem_arrivalsAt.mpr ⟨ha, hdest⟩
    obtain ⟨group, hgroup, hkey⟩ := exists_group hr hat hentry
    exact policy_eq has hr hat hentry hgroup hkey ▸ hall group hgroup
  · intro hnothing group hgroup
    obtain ⟨a, ha, e, he, _, hfull⟩ := hr.of_mem_inboundPorts hgroup
    obtain ⟨hmem, hdest⟩ := mem_arrivalsAt.mp ha
    rw [has.entries_eq hmem] at he
    exact hfull ▸ hnothing a.connection (has.feedsAsync hmem).listed hdest e he

/-- At one instance, the name of a kind of message tells the port. -/
theorem dest_eq_of_name {dest dest' : PortKey} (hinst : dest.inst = dest'.inst) {e e' : QueueEntry}
    (he : e ∈ g.entriesAt dest) (he' : e' ∈ g.entriesAt dest') (hname : e.name = e'.name) :
    dest = dest' := by
  have hinfo : ∀ {d : PortKey} {e : QueueEntry}, e ∈ g.entriesAt d → ∃ info dataType,
      g.instances.get? d.inst = some info ∧ e ∈ info.destinationQueueEntries d.port dataType := by
    intro d e he
    unfold entriesAt at he
    split at he
    · simp at he
    · rename_i info dataType hqueue
      exact ⟨info, dataType, (queueOf_eq_some_iff.mp hqueue).1, he⟩
  obtain ⟨info, _, hget, he⟩ := hinfo he
  obtain ⟨info', _, hget', he'⟩ := hinfo he'
  rw [← hinst, hget] at hget'
  obtain rfl := Option.some.inj hget'
  have hport := InstanceInfo.port_eq_of_name he he' hname
  cases dest
  cases dest'
  simp_all

/-! ## The total of a group -/

/-- The routes that bring a kind of message. -/
def routesTo (g : LoadedTopology) (name : String) (k : String × String) : Finset Route :=
  (g.keptRoutes name).filter fun route => ∃ e ∈ g.keptEntries route.2, e.key = k

theorem mem_routesTo {k : String × String} {route : Route} :
    route ∈ g.routesTo name k
      ↔ route ∈ g.keptRoutes name ∧ ∃ e ∈ g.keptEntries route.2, e.key = k := by
  simp [routesTo]

/-- The sources of a kind of message name its routes. -/
theorem injOn_routesTo (k : String × String) :
    Set.InjOn (fun route : Route => route.1.str) (g.routesTo name k) := by
  intro route hroute route' hroute' hstr
  obtain ⟨hkept, e, he, hkey⟩ := mem_routesTo.mp hroute
  obtain ⟨hkept', e', he', hkey'⟩ := mem_routesTo.mp hroute'
  obtain ⟨c, hc, rfl⟩ := mem_keptRoutes.mp hkept
  obtain ⟨c', hc', rfl⟩ := mem_keptRoutes.mp hkept'
  have hinst : c.dest.port.inst = c'.dest.port.inst :=
    (mem_keptList.mp hc).2.1.trans (mem_keptList.mp hc').2.1.symm
  have hdest := dest_eq_of_name hinst (mem_keptEntries.mp he).1 (mem_keptEntries.mp he').1
    (congrArg Prod.fst (hkey.trans hkey'.symm))
  exact Prod.ext (ConnectionEnd.str_injective hstr) hdest

/-- The producers of a kept group are the sources of its routes. -/
theorem mem_source_iff (has : g.ArrivalsOf rates as) (hr : r.MadeOf as)
    {group : InboundAsyncPortGroup} (hgroup : group ∈ r.inboundPorts)
    (hfull : group.overflowBehavior ≠ .drop) {source : String} :
    source ∈ (producersAt (deliveriesAt as r.destination) group.key).map InboundProducer.source
      ↔ ∃ route ∈ g.routesTo r.destination group.key, route.1.str = source := by
  rw [mem_source_producersAt]
  constructor
  · rintro ⟨d, hd, hkey, rfl⟩
    obtain ⟨a, ha, he, hproducer⟩ := mem_deliveriesAt.mp hd
    obtain ⟨hmem, hdest⟩ := mem_arrivalsAt.mp ha
    have hkept : d.1 ∈ g.keptEntries a.connection.dest.port := by
      rw [mem_keptEntries, ← has.entries_eq hmem]
      exact ⟨he, policy_eq has hr ha he hgroup hkey.symm ▸ hfull⟩
    have hroute : a.connection.route ∈ g.keptRoutes r.destination :=
      mem_keptRoutes.mpr ⟨a.connection, mem_keptList.mpr
        ⟨(has.feedsAsync hmem).listed, hdest, List.ne_nil_of_mem hkept⟩, rfl⟩
    refine ⟨a.connection.route, mem_routesTo.mpr ⟨hroute, d.1, hkept, hkey⟩, ?_⟩
    rw [hproducer, (has.brings a hmem).source]
    rfl
  · rintro ⟨route, hroute, rfl⟩
    obtain ⟨hkept, e, he, hkey⟩ := mem_routesTo.mp hroute
    obtain ⟨c, hc, rfl⟩ := mem_keptRoutes.mp hkept
    obtain ⟨hlisted, hdest, _⟩ := mem_keptList.mp hc
    obtain ⟨a, ha, rfl, hentry⟩ := has.exists_of_entry hlisted (mem_keptEntries.mp he).1
    exact ⟨(e, a.producer), mem_deliveriesAt.mpr ⟨a, mem_arrivalsAt.mpr ⟨ha, hdest⟩, hentry, rfl⟩,
      hkey, (has.brings a ha).source⟩

/-- The rate of a producer is that of the source it is named by. -/
theorem productionHz_of_mem (has : g.ArrivalsOf rates as) {k : String × String}
    {p : InboundProducer} (hp : p ∈ producersAt (deliveriesAt as name) k) {source : ConnectionEnd}
    (hsource : source.str = p.source) : p.productionHz = rates.productionHz source := by
  obtain ⟨d, hd, _, rfl⟩ := of_mem_producersAt hp
  obtain ⟨a, ha, _, hproducer⟩ := mem_deliveriesAt.mp hd
  have hfrom := has.brings a (mem_arrivalsAt.mp ha).1
  rw [hproducer, hfrom.source] at hsource
  rw [hproducer, hfrom.rate, ConnectionEnd.str_injective hsource]

/-- The total of a group is that of its producers. -/
theorem group_totalHz (hr : r.MadeOf as) {group : InboundAsyncPortGroup}
    (hgroup : group ∈ r.inboundPorts) :
    group.totalProductionHz = totalHz ((producersAt (deliveriesAt as r.destination) group.key).map
      InboundProducer.productionHz) := by
  obtain ⟨k, q, hget, rfl⟩ := hr.mem_inboundPorts_iff.mp hgroup
  obtain ⟨d, hd, hkey, rfl⟩ := of_get?_portsOf hget
  rfl

/-- A group has a producer. -/
theorem producersAt_ne_nil (hr : r.MadeOf as) {group : InboundAsyncPortGroup}
    (hgroup : group ∈ r.inboundPorts) :
    producersAt (deliveriesAt as r.destination) group.key ≠ [] := by
  obtain ⟨a, ha, e, he, hkey, _⟩ := hr.of_mem_inboundPorts hgroup
  have hmem : a.producer.source ∈ (producersAt (deliveriesAt as r.destination) group.key).map
      InboundProducer.source :=
    mem_source_producersAt.mpr ⟨(e, a.producer), mem_deliveriesAt.mpr ⟨a, ha, he, rfl⟩, hkey, rfl⟩
  obtain ⟨p, hp, _⟩ := List.mem_map.mp hmem
  exact List.ne_nil_of_mem hp

/-- A kept group adds up what its routes bring. -/
theorem sum_producers (has : g.ArrivalsOf rates as) (hr : r.MadeOf as)
    {group : InboundAsyncPortGroup} (hgroup : group ∈ r.inboundPorts)
    (hfull : group.overflowBehavior ≠ .drop) (f : ℚ → ℚ) :
    ((producersAt (deliveriesAt as r.destination) group.key).map
        fun p => f (p.productionHz.getD 0)).sum
      = ∑ route ∈ g.routesTo r.destination group.key, f (rates.hz route.1) := by
  refine Grouping.sum_map_eq_sum InboundProducer.source nodup_producersAt (injOn_routesTo _)
    (fun _ => mem_source_iff has hr hgroup hfull) fun p hp route _ hstr => ?_
  rw [productionHz_of_mem has hp hstr, RateModel.hz]

/-- Its total is unknown if one of their rates is. -/
theorem none_mem_producers_iff (has : g.ArrivalsOf rates as) (hr : r.MadeOf as)
    {group : InboundAsyncPortGroup} (hgroup : group ∈ r.inboundPorts)
    (hfull : group.overflowBehavior ≠ .drop) :
    none ∈ (producersAt (deliveriesAt as r.destination) group.key).map InboundProducer.productionHz
      ↔ ∃ route ∈ g.routesTo r.destination group.key, rates.productionHz route.1 = none := by
  have hsource : ∀ source, source ∈ (producersAt (deliveriesAt as r.destination) group.key).map
      InboundProducer.source ↔ ∃ route ∈ g.routesTo r.destination group.key, route.1.str = source :=
    fun _ => mem_source_iff has hr hgroup hfull
  rw [List.mem_map]
  constructor
  · rintro ⟨p, hp, hnone⟩
    obtain ⟨route, hroute, hstr⟩ := (hsource _).mp (List.mem_map_of_mem hp)
    exact ⟨route, hroute, (productionHz_of_mem has hp hstr).symm.trans hnone⟩
  · rintro ⟨route, hroute, hnone⟩
    obtain ⟨p, hp, hstr⟩ := List.mem_map.mp ((hsource _).mpr ⟨route, hroute, rfl⟩)
    exact ⟨p, hp, (productionHz_of_mem has hp hstr.symm).trans hnone⟩

/-- The total of a kept group. -/
theorem totalProductionHz_of_kept (has : g.ArrivalsOf rates as) (hr : r.MadeOf as)
    {group : InboundAsyncPortGroup} (hgroup : group ∈ r.inboundPorts)
    (hfull : group.overflowBehavior ≠ .drop) :
    group.totalProductionHz
      = if ∃ route ∈ g.routesTo r.destination group.key, rates.productionHz route.1 = none then none
        else some (Rounding.total floatDigits
          ((producersAt (deliveriesAt as r.destination) group.key).map
            fun p => p.productionHz.getD 0)) := by
  have hne : (producersAt (deliveriesAt as r.destination) group.key).map
      InboundProducer.productionHz ≠ [] := by
    simpa using producersAt_ne_nil hr hgroup
  rw [group_totalHz hr hgroup, totalHz_eq hne, List.map_map]
  simp only [none_mem_producers_iff has hr hgroup hfull]
  rfl

/-! ## The three totals -/

/-- The groups that are kept. -/
def keptGroups (r : QueueGroup) : List InboundAsyncPortGroup :=
  r.inboundPorts.filter fun group => group.overflowBehavior ≠ .drop

theorem mem_keptGroups {group : InboundAsyncPortGroup} :
    group ∈ keptGroups r ↔ group ∈ r.inboundPorts ∧ group.overflowBehavior ≠ .drop := by
  simp [keptGroups]

/-- A group of which nothing is kept is dropped. -/
theorem keptGroups_eq_nil_iff :
    keptGroups r = [] ↔ ∀ group ∈ r.inboundPorts, group.overflowBehavior = .drop := by
  simp [keptGroups]

/-- A kept group has a connection that brings its kind of message. -/
theorem exists_kept_of_group (has : g.ArrivalsOf rates as) (hr : r.MadeOf as)
    {group : InboundAsyncPortGroup} (hgroup : group ∈ keptGroups r) :
    ∃ c ∈ g.keptList r.destination, ∃ e ∈ g.keptEntries c.dest.port, e.key = group.key := by
  obtain ⟨hin, hfull⟩ := mem_keptGroups.mp hgroup
  obtain ⟨a, ha, e, he, hkey, hpolicy⟩ := hr.of_mem_inboundPorts hin
  obtain ⟨hmem, hdest⟩ := mem_arrivalsAt.mp ha
  rw [has.entries_eq hmem] at he
  have hkept : e ∈ g.keptEntries a.connection.dest.port :=
    mem_keptEntries.mpr ⟨he, hpolicy ▸ hfull⟩
  exact ⟨a.connection, mem_keptList.mpr ⟨(has.feedsAsync hmem).listed, hdest,
    List.ne_nil_of_mem hkept⟩, e, hkept, hkey⟩

/-- A kept group has a connection. -/
theorem keptList_ne_nil (has : g.ArrivalsOf rates as) (hr : r.MadeOf as) (hne : keptGroups r ≠ []) :
    g.keptList r.destination ≠ [] := by
  obtain ⟨group, hgroup⟩ := List.exists_mem_of_ne_nil _ hne
  obtain ⟨c, hc, _⟩ := exists_kept_of_group has hr hgroup
  exact List.ne_nil_of_mem hc

theorem nodup_keptGroups (has : g.ArrivalsOf rates as) (hr : r.MadeOf as) :
    ((keptGroups r).map InboundAsyncPortGroup.key).Nodup := by
  have hnd : (r.inboundPorts.map InboundAsyncPortGroup.key).Nodup := by
    refine List.Nodup.of_map Prod.fst ?_
    rw [List.map_map]
    exact nodup_destinationPorts has hr
  exact hnd.sublist (List.filter_sublist.map _)

/-- A route is counted by the groups of its kept kinds of message. -/
theorem mem_keptGroups_iff (has : g.ArrivalsOf rates as) (hr : r.MadeOf as) (k : String × String)
    (route : Route) :
    k ∈ ((keptGroups r).map InboundAsyncPortGroup.key).toFinset
        ∧ route ∈ g.routesTo r.destination k
      ↔ k ∈ ((g.keptEntries route.2).map QueueEntry.key).toFinset
        ∧ route ∈ g.keptRoutes r.destination := by
  rw [List.mem_toFinset, List.mem_toFinset, List.mem_map, List.mem_map, mem_routesTo]
  constructor
  · rintro ⟨_, hroute, hkind⟩
    exact ⟨hkind, hroute⟩
  · rintro ⟨hkind, hroute⟩
    obtain ⟨c, hc, rfl⟩ := mem_keptRoutes.mp hroute
    obtain ⟨hlisted, hdest, _⟩ := mem_keptList.mp hc
    obtain ⟨e, he, hkey, group, hgroup, hfull, hgkey⟩ :=
      (exists_kept_iff has hr hlisted hdest).mp hkind
    exact ⟨⟨group, mem_keptGroups.mpr ⟨hgroup, hfull⟩, hgkey⟩, hroute, hkind⟩

/-- The total of a kept group is unknown for the same reason as the row's. -/
theorem none_mem_totals_iff (has : g.ArrivalsOf rates as) (hr : r.MadeOf as) :
    none ∈ (keptGroups r).map InboundAsyncPortGroup.totalProductionHz
      ↔ g.Unknown rates r.destination := by
  rw [List.mem_map]
  constructor
  · rintro ⟨group, hgroup, hnone⟩
    obtain ⟨hgroup, hfull⟩ := mem_keptGroups.mp hgroup
    rw [totalProductionHz_of_kept has hr hgroup hfull] at hnone
    by_cases hsome : ∃ route ∈ g.routesTo r.destination group.key, rates.productionHz route.1 = none
    · obtain ⟨route, hroute, hrate⟩ := hsome
      exact ⟨route, (mem_routesTo.mp hroute).1, hrate⟩
    · rw [if_neg hsome] at hnone
      cases hnone
  · rintro ⟨route, hroute, hrate⟩
    obtain ⟨c, hc, rfl⟩ := mem_keptRoutes.mp hroute
    obtain ⟨e, he⟩ := List.exists_mem_of_ne_nil _ (mem_keptList.mp hc).2.2
    have hkey : e.key ∈ ((g.keptEntries c.route.2).map QueueEntry.key).toFinset :=
      List.mem_toFinset.mpr (List.mem_map_of_mem he)
    obtain ⟨hkept, hto⟩ := (mem_keptGroups_iff has hr e.key c.route).mpr ⟨hkey, hroute⟩
    obtain ⟨group, hgroup, hgkey⟩ := List.mem_map.mp (List.mem_toFinset.mp hkept)
    obtain ⟨hin, hfull⟩ := mem_keptGroups.mp hgroup
    refine ⟨group, hgroup, ?_⟩
    rw [totalProductionHz_of_kept has hr hin hfull, hgkey, if_pos ⟨c.route, hto, hrate⟩]

/-- The total that the filter gives a row. -/
theorem groupsHz_keptGroups (sums : Rounding.SumOf) (has : g.ArrivalsOf rates as)
    (hr : r.MadeOf as) (hne : keptGroups r ≠ []) :
    groupsHz sums (keptGroups r) = if g.Unknown rates r.destination then none
      else some (sums.apply floatDigits
        ((keptGroups r).map fun group => group.totalProductionHz.getD 0)) := by
  rw [groupsHz_eq sums hne, List.map_map]
  simp only [none_mem_totals_iff has hr]
  rfl

theorem mem_keptConnections (has : g.ArrivalsOf rates as) (hr : r.MadeOf as) {c : Connection} :
    c ∈ g.keptConnections r ↔ c ∈ g.keptList r.destination := by
  rw [keptConnections, List.mem_dedup, List.mem_filter, mem_keptList]
  refine and_congr_right fun hc => ?_
  rw [decide_eq_true_iff, feedsKept_iff has hr hc]

/-- Some connections have an unknown rate if their routes have. -/
theorem none_mem_rates_iff {cs : List Connection} (h : ∀ c, c ∈ cs ↔ c ∈ g.keptList name) :
    none ∈ cs.map (fun c => rates.productionHz c.source) ↔ g.Unknown rates name := by
  rw [List.mem_map]
  constructor
  · rintro ⟨c, hc, hrate⟩
    exact ⟨c.route, mem_keptRoutes.mpr ⟨c, (h c).mp hc, rfl⟩, hrate⟩
  · rintro ⟨route, hroute, hrate⟩
    obtain ⟨c, hc, rfl⟩ := mem_keptRoutes.mp hroute
    exact ⟨c, (h c).mpr hc, hrate⟩

/-- What some connections to the kept routes add up to. -/
theorem sumHz_eq {cs : List Connection} (h : ∀ c, c ∈ cs ↔ c ∈ g.keptList name)
    (hne : g.keptList name ≠ []) :
    sumHz rates cs = if g.Unknown rates name then none
      else some (Rounding.total floatDigits (cs.map fun c => rates.hz c.source)) := by
  have hcs : cs.map (fun c => rates.productionHz c.source) ≠ [] := by
    obtain ⟨c, hc⟩ := List.exists_mem_of_ne_nil _ hne
    exact List.ne_nil_of_mem (List.mem_map_of_mem ((h c).mpr hc))
  rw [sumHz, totalHz_eq hcs, List.map_map]
  simp only [none_mem_rates_iff h]
  rfl

/-- The arrivals that bring a kept kind of message, in order. -/
theorem connections_kept (has : g.ArrivalsOf rates as) :
    ((arrivalsAt as name).filter fun a => g.keptEntries a.connection.dest.port ≠ []).map
      Arrival.connection = g.keptList name := by
  have hfilter : ((arrivalsAt as name).filter fun a =>
        g.keptEntries a.connection.dest.port ≠ []).map Arrival.connection
      = ((as.map Arrival.connection).filter fun c => c.dest.port.inst = name).filter
        fun c => g.keptEntries c.dest.port ≠ [] := by
    rw [List.filter_map, List.filter_map]
    rfl
  rw [hfilter, has.connections, List.filter_filter, List.filter_filter, keptList]
  refine List.filter_congr fun c _ => ?_
  have hsome : g.keptEntries c.dest.port ≠ [] → (g.queueOf c.dest.port).isSome = true := by
    intro hne
    obtain ⟨e, he⟩ := List.exists_mem_of_ne_nil _ hne
    have hentry := (mem_keptEntries.mp he).1
    unfold entriesAt at hentry
    split at hentry
    · simp at hentry
    · rename_i hqueue
      simp [hqueue]
  rw [Bool.eq_iff_iff]
  simp only [Bool.and_eq_true, decide_eq_true_eq]
  constructor
  · rintro ⟨⟨hkept, hdest⟩, _⟩
    exact ⟨hdest, hkept⟩
  · rintro ⟨hdest, hkept⟩
    exact ⟨⟨hkept, hdest⟩, hsome hkept⟩

/-- **The row's own total, if nothing of it is dropped**: its connections
arrive as they are listed. -/
theorem totalProductionHz_of_dropsNothing (has : g.ArrivalsOf rates as) (hr : r.MadeOf as)
    (hnothing : g.DropsNothing r.destination) :
    r.totalProductionHz = sumHz rates (g.keptList r.destination) := by
  have hkept : (arrivalsAt as r.destination).filter
      (fun a => g.keptEntries a.connection.dest.port ≠ []) = arrivalsAt as r.destination := by
    rw [List.filter_eq_self]
    intro a ha
    obtain ⟨e, he⟩ := a.exists_entry
    obtain ⟨hmem, hdest⟩ := mem_arrivalsAt.mp ha
    rw [has.entries_eq hmem] at he
    exact decide_eq_true (List.ne_nil_of_mem (mem_keptEntries.mpr
      ⟨he, hnothing a.connection (has.feedsAsync hmem).listed hdest e he⟩))
  have hrates : (arrivalsAt as r.destination).map (fun a => a.producer.productionHz)
      = (g.keptList r.destination).map fun c => rates.productionHz c.source := by
    rw [← connections_kept has, hkept, List.map_map]
    exact List.map_congr_left fun a ha => (has.brings a (mem_arrivalsAt.mp ha).1).rate
  rw [hr.total, hrates, sumHz]

/-! ## Where no addition is rounded -/

section Exact

variable {k : Int}

/-- A route's kinds of message have different keys. -/
theorem kinds_eq_card (route : Route) :
    g.kinds route = ((g.keptEntries route.2).map QueueEntry.key).toFinset.card := by
  rw [List.toFinset_card_of_nodup (nodup_keys_keptEntries route.2), List.length_map, kinds]

/-- Summed over the kept groups, a route counts once for each of them. -/
theorem sum_routesTo (has : g.ArrivalsOf rates as) (hr : r.MadeOf as) (f : Route → ℚ) :
    ((keptGroups r).map fun group => ∑ route ∈ g.routesTo r.destination group.key, f route).sum
      = ∑ route ∈ g.keptRoutes r.destination, g.kinds route • f route := by
  calc ((keptGroups r).map fun group =>
          ∑ route ∈ g.routesTo r.destination group.key, f route).sum
      = ∑ k ∈ ((keptGroups r).map InboundAsyncPortGroup.key).toFinset,
          ∑ route ∈ g.routesTo r.destination k, f route := by
        refine Grouping.sum_map_eq_sum InboundAsyncPortGroup.key (nodup_keptGroups has hr)
          (Set.injOn_id _) (by simp) fun group _ k _ hkey => ?_
        obtain rfl : k = group.key := hkey
        rfl
    _ = ∑ route ∈ g.keptRoutes r.destination,
          ∑ _k ∈ ((g.keptEntries route.2).map QueueEntry.key).toFinset, f route :=
        Finset.sum_comm' fun k route => mem_keptGroups_iff has hr k route
    _ = ∑ route ∈ g.keptRoutes r.destination, g.kinds route • f route := by
        simp only [Finset.sum_const, ← kinds_eq_card]

/-- The rates of the routes to a kept group are among those that fit. -/
theorem sum_routesTo_lt (hfit : g.FitsDigits rates r.destination k) (has : g.ArrivalsOf rates as)
    (hr : r.MadeOf as) {group : InboundAsyncPortGroup} (hgroup : group ∈ keptGroups r) :
    ∑ route ∈ g.routesTo r.destination group.key, |rates.hz route.1| < 2 ^ (k + floatDigits) := by
  refine lt_of_le_of_lt ?_ hfit.kinds
  rw [← sum_routesTo has hr]
  refine List.single_le_sum (fun q hq => ?_) _ (List.mem_map_of_mem hgroup)
  obtain ⟨group', _, rfl⟩ := List.mem_map.mp hq
  exact Finset.sum_nonneg fun route _ => abs_nonneg _

/-- **A kept group counts each of its routes once.** -/
theorem total_of_kept (hfit : g.FitsDigits rates r.destination k) (has : g.ArrivalsOf rates as)
    (hr : r.MadeOf as) (hu : ¬ g.Unknown rates r.destination) {group : InboundAsyncPortGroup}
    (hgroup : group ∈ keptGroups r) :
    group.totalProductionHz.getD 0
      = ∑ route ∈ g.routesTo r.destination group.key, rates.hz route.1 := by
  obtain ⟨hin, hfull⟩ := mem_keptGroups.mp hgroup
  have hknown : ¬ ∃ route ∈ g.routesTo r.destination group.key,
      rates.productionHz route.1 = none := by
    rintro ⟨route, hroute, hrate⟩
    exact hu ⟨route, (mem_routesTo.mp hroute).1, hrate⟩
  have hmultiple : ∀ q ∈ (producersAt (deliveriesAt as r.destination) group.key).map
      (fun p => p.productionHz.getD 0), Rounding.IsMultiple k q := by
    intro q hq
    obtain ⟨p, hp, rfl⟩ := List.mem_map.mp hq
    obtain ⟨route, hroute, hstr⟩ :=
      (mem_source_iff has hr hin hfull).mp (List.mem_map_of_mem hp)
    rw [productionHz_of_mem has hp hstr]
    exact hfit.multiple route (mem_routesTo.mp hroute).1
  have habs : (((producersAt (deliveriesAt as r.destination) group.key).map
      fun p => p.productionHz.getD 0).map abs).sum < 2 ^ (k + floatDigits) := by
    rw [List.map_map]
    exact (sum_producers has hr hin hfull abs).trans_lt (sum_routesTo_lt hfit has hr hgroup)
  rw [totalProductionHz_of_kept has hr hin hfull, if_neg hknown, Option.getD_some,
    Rounding.total_eq_sum hmultiple habs]
  exact sum_producers has hr hin hfull id

/-- **The filter counts a route once for each kept kind of message.** -/
theorem apply_totals (sums : Rounding.SumOf) (hfit : g.FitsDigits rates r.destination k)
    (has : g.ArrivalsOf rates as) (hr : r.MadeOf as) (hu : ¬ g.Unknown rates r.destination) :
    sums.apply floatDigits ((keptGroups r).map fun group => group.totalProductionHz.getD 0)
      = g.weigh rates r.destination g.kinds := by
  have htotals : (keptGroups r).map (fun group => group.totalProductionHz.getD 0)
      = (keptGroups r).map fun group =>
        ∑ route ∈ g.routesTo r.destination group.key, rates.hz route.1 :=
    List.map_congr_left fun _ hgroup => total_of_kept hfit has hr hu hgroup
  rw [htotals, Rounding.SumOf.apply_eq_sum sums (k := k), sum_routesTo has hr, weigh]
  · intro q hq
    obtain ⟨group, _, rfl⟩ := List.mem_map.mp hq
    exact .finset_sum fun route hroute => hfit.multiple route (mem_routesTo.mp hroute).1
  · refine lt_of_le_of_lt ?_ hfit.kinds
    rw [← sum_routesTo has hr, List.map_map]
    exact List.sum_le_sum fun group _ => Finset.abs_sum_le_sum_abs _ _

/-- Connections to the kept routes count a route once for each of them. -/
theorem sum_map_route {cs : List Connection} (h : ∀ c, c ∈ cs ↔ c ∈ g.keptList name)
    (f : Route → ℚ) :
    (cs.map fun c => f c.route).sum
      = ∑ route ∈ g.keptRoutes name, (cs.filter fun c => c.route = route).length • f route := by
  have hroutes : (cs.map Connection.route).toFinset = g.keptRoutes name := by
    ext route
    rw [List.mem_toFinset, List.mem_map, mem_keptRoutes]
    exact exists_congr fun c => and_congr_left fun _ => h c
  rw [Grouping.sum_map_eq_sum_length Connection.route f, hroutes]

/-- **The connections of a row count a route once for each of them**, if none
is there more often than it is listed. -/
theorem total_connections (hfit : g.FitsDigits rates name k) {cs : List Connection}
    (h : ∀ c, c ∈ cs ↔ c ∈ g.keptList name) {times : Route → Nat}
    (htimes : ∀ route ∈ g.keptRoutes name, (cs.filter fun c => c.route = route).length = times route)
    (hle : ∀ route ∈ g.keptRoutes name, times route ≤ g.listed route) :
    Rounding.total floatDigits (cs.map fun c => rates.hz c.source) = g.weigh rates name times := by
  have hsum : ∀ f : ℚ → ℚ, (cs.map fun c => f (rates.hz c.source)).sum
      = ∑ route ∈ g.keptRoutes name, times route • f (rates.hz route.1) := by
    intro f
    rw [show (cs.map fun c => f (rates.hz c.source))
        = cs.map fun c => f (rates.hz c.route.1) from rfl,
      sum_map_route h fun route => f (rates.hz route.1)]
    exact Finset.sum_congr rfl fun route hroute => by rw [htimes route hroute]
  rw [Rounding.total_eq_sum (k := k)]
  · exact hsum id
  · intro q hq
    obtain ⟨c, hc, rfl⟩ := List.mem_map.mp hq
    exact hfit.multiple c.route (mem_keptRoutes.mpr ⟨c, (h c).mp hc, rfl⟩)
  · rw [List.map_map]
    refine (hsum abs).trans_lt (lt_of_le_of_lt (Finset.sum_le_sum fun route hroute => ?_) hfit.listed)
    exact nsmul_le_nsmul_left (abs_nonneg _) (hle route hroute)

/-- As often as a connection is listed, it is kept or not. -/
theorem length_keptList {route : Route} (hroute : route ∈ g.keptRoutes name) :
    ((g.keptList name).filter fun c => c.route = route).length = g.listed route := by
  obtain ⟨c, hc, rfl⟩ := mem_keptRoutes.mp hroute
  rw [keptList, List.filter_filter, listed]
  refine congrArg List.length (List.filter_congr fun c' _ => ?_)
  by_cases hroute' : c'.route = c.route
  · have hdest : c'.dest.port = c.dest.port := congrArg Prod.snd hroute'
    simp [hroute', hdest, (mem_keptList.mp hc).2]
  · simp [hroute']

/-- Of the connections that are left, each counts once. -/
theorem length_keptConnections (has : g.ArrivalsOf rates as) (hr : r.MadeOf as) {route : Route}
    (hroute : route ∈ g.keptRoutes r.destination) :
    ((g.keptConnections r).filter fun c => c.route = route).length = g.distinct route := by
  obtain ⟨c, hc, rfl⟩ := mem_keptRoutes.mp hroute
  have hnd : ((g.keptConnections r).filter fun c' => c'.route = c.route).Nodup :=
    (List.nodup_dedup _).filter _
  rw [← List.toFinset_card_of_nodup hnd, distinct]
  refine congrArg Finset.card (Finset.ext fun c' => ?_)
  rw [List.mem_toFinset, List.mem_filter, mem_keptConnections has hr, mem_keptList,
    Finset.mem_filter, List.mem_toFinset, decide_eq_true_iff]
  constructor
  · rintro ⟨⟨hlisted, _⟩, hroute'⟩
    exact ⟨hlisted, hroute'⟩
  · rintro ⟨hlisted, hroute'⟩
    have hdest : c'.dest.port = c.dest.port := congrArg Prod.snd hroute'
    refine ⟨⟨hlisted, ?_⟩, hroute'⟩
    rw [hdest]
    exact (mem_keptList.mp hc).2

theorem distinct_le_listed (route : Route) : g.distinct route ≤ g.listed route := by
  have hset : g.connectionList.toFinset.filter (fun c => c.route = route)
      = (g.connectionList.filter fun c => c.route = route).toFinset := by
    rw [List.toFinset_filter]
    simp
  rw [distinct, hset, listed]
  exact List.toFinset_card_le _

end Exact

end LoadedTopology

end FprimeTopologyAnalysis
