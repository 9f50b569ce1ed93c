/-
FprimeTopologyAnalysis.DropFilter — what hiding the drop ports does to the
totals (`filter_drop_ports`).

`analyze` adds a rate to its row's total for every connection, and the
filter adds up the totals of the groups it keeps. A connection belongs to a
group for every kind of message it can bring. A command port has a kind for
each async command, so the filter counts a connection to it once for each
of them, also in a row where it drops nothing.

A total is rounded at every addition. Where nothing is rounded
(`AddsExactly`), both are sums over the routes of a row: a source and the
port it feeds. Each route is counted as often as its port has kept kinds of
message by the one, and as often as it has connections by the other, and the
totals are right exactly when the two counts weigh the same (`CountsAlike`).
Where something is rounded, they are right if the filter adds up the same
numbers in the same order: all connections but the last one listed bring one
kind of message, and that one brings one too (`OneButLast`). A rate that is
unknown makes every total unknown.
-/
import FprimeTopologyAnalysis.RouteTotals

namespace FprimeTopologyAnalysis

open Library

namespace LoadedTopology

variable (g : LoadedTopology) (rates : RateModel)

/-! ## Right totals -/

/-- Hiding the drop ports does to a row what it is to do: the row is kept if
something in it is, its total is that of the connections that are left, and
where nothing is hidden it is as it was. -/
structure HidesDropPorts (sums : Rounding.SumOf) (rows : List QueueGroup) (r : QueueGroup) :
    Prop where
  kept : (∃ r' ∈ filterDropPorts sums rows, r'.destination = r.destination)
    ↔ ∃ group ∈ r.inboundPorts, group.overflowBehavior ≠ .drop
  total : ∀ r' ∈ filterDropPorts sums rows, r'.destination = r.destination →
    r'.totalProductionHz = sumHz rates (g.keptConnections r)
  fillTime : ∀ r' ∈ filterDropPorts sums rows, r'.destination = r.destination →
    r'.queueFillTimeS = estimateFillTime r.queueSize r'.totalProductionHz r.consumerRateHz
  unchanged : (∀ group ∈ r.inboundPorts, group.overflowBehavior ≠ .drop) →
    ∀ r' ∈ filterDropPorts sums rows, r'.destination = r.destination → r' = r

/-- The rate of a kept route is unknown, or counting the routes by kinds of message
comes to the same as counting their connections. -/
def CountsAlike (name : String) : Prop :=
  g.Unknown rates name
    ∨ (g.weigh rates name g.kinds = g.weigh rates name g.distinct
      ∧ (g.DropsNothing name → g.weigh rates name g.kinds = g.weigh rates name g.listed))

/-- No addition of the rates is rounded. -/
def AddsExactly (name : String) : Prop := ∃ k, g.FitsDigits rates name k

/-- The kept connections but the last one listed bring one kind of message, the
last one brings one too, and all come over different routes. -/
structure OneButLast (name : String) : Prop where
  front : ∃ key, ∀ c ∈ (g.keptList name).dropLast,
    (g.keptEntries c.dest.port).map QueueEntry.key = [key]
  once : ∀ route ∈ g.keptRoutes name, g.kinds route = 1 ∧ g.listed route = 1
  floats : ∀ route ∈ g.keptRoutes name, Rounding.IsFloat floatDigits (rates.hz route.1)

/-- A port keeps a kind of message. -/
def Keeps (dest : PortKey) (key : String × String) : Prop := ∃ e ∈ g.keptEntries dest, e.key = key

instance (dest : PortKey) (key : String × String) : Decidable (g.Keeps dest key) :=
  inferInstanceAs (Decidable (∃ e ∈ g.keptEntries dest, e.key = key))

/-- The kept connections that bring a kind of message. -/
def bringing (name : String) (key : String × String) : List Connection :=
  (g.keptList name).filter fun c => g.Keeps c.dest.port key

variable {g} {rates} {name : String} {as : List Arrival} {r : QueueGroup}

/-! ## The total of a group -/

section Groups

variable {key : String × String}

/-- A route that is listed once is that of one connection. -/
theorem nodup_routes (honce : ∀ route ∈ g.keptRoutes name, g.listed route = 1) :
    ((g.keptList name).map Connection.route).Nodup := by
  rw [List.nodup_iff_count_le_one]
  intro route
  by_cases hroute : route ∈ g.keptRoutes name
  · rw [List.count, List.countP_map, List.countP_eq_length_filter, ← honce route hroute,
      ← length_keptList hroute]
    exact le_of_eq (congrArg List.length (List.filter_congr fun c _ => beq_eq_decide ..))
  · rw [List.count_eq_zero_of_not_mem fun hmem => hroute (List.mem_toFinset.mpr hmem)]
    exact zero_le_one

/-- Then the connections that are left are those that are listed. -/
theorem keptConnections_of_once (has : g.ArrivalsOf rates as) (hr : r.MadeOf as)
    (honce : ∀ route ∈ g.keptRoutes r.destination, g.listed route = 1) :
    g.keptConnections r = g.keptList r.destination := by
  have hfilter : g.connectionList.filter (g.FeedsKept r) = g.keptList r.destination := by
    refine List.filter_congr fun c hc => ?_
    exact decide_eq_decide.mpr (feedsKept_iff has hr hc)
  rw [keptConnections, hfilter, List.dedup_eq_self]
  exact .of_map _ (nodup_routes honce)

theorem mem_bringing {c : Connection} :
    c ∈ g.bringing name key ↔ c ∈ g.keptList name ∧ g.Keeps c.dest.port key := by
  rw [bringing, List.mem_filter, decide_eq_true_eq]

/-- A port that keeps one kind of message. -/
theorem keeps_iff {dest : PortKey} {k : String × String}
    (hkinds : (g.keptEntries dest).map QueueEntry.key = [key]) : g.Keeps dest k ↔ k = key := by
  rw [← List.mem_singleton, ← hkinds, List.mem_map]
  rfl

/-- And those that bring one kind of message have different sources. -/
theorem nodup_sources (honce : ∀ route ∈ g.keptRoutes name, g.listed route = 1) :
    ((g.bringing name key).map fun c => c.source.str).Nodup := by
  have hroutes : ((g.bringing name key).map Connection.route).Nodup :=
    (nodup_routes honce).sublist (List.filter_sublist.map _)
  refine hroutes.of_map.map_on fun c hc c' hc' hstr => ?_
  obtain ⟨hlist, e, he, hek⟩ := mem_bringing.mp hc
  obtain ⟨hlist', e', he', hek'⟩ := mem_bringing.mp hc'
  have hinst : c.dest.port.inst = c'.dest.port.inst :=
    (mem_keptList.mp hlist).2.1.trans (mem_keptList.mp hlist').2.1.symm
  have hdest := dest_eq_of_name hinst (mem_keptEntries.mp he).1 (mem_keptEntries.mp he').1
    (congrArg Prod.fst (hek.trans hek'.symm))
  exact List.inj_on_of_nodup_map hroutes hc hc' (Prod.ext (ConnectionEnd.str_injective hstr) hdest)

/-- An arrival delivers a kept kind of message once or not at all. -/
theorem delivered_of_kept (has : g.ArrivalsOf rates as) {c : Connection}
    (hc : c ∈ g.bringing name key) {a : Arrival} (ha : a ∈ arrivalsAt as name) :
    (a.deliveries.filter fun d => d.1.key = key).map Prod.snd
      = if g.Keeps a.connection.dest.port key then [a.producer] else [] := by
  obtain ⟨hmem, hdest⟩ := mem_arrivalsAt.mp ha
  have hentries := has.entries_eq hmem
  have hfilter : (a.deliveries.filter fun d => d.1.key = key).map Prod.snd
      = (a.entries.filter fun e => e.key = key).map fun _ => a.producer := by
    rw [Arrival.deliveries, List.filter_map, List.map_map]
    rfl
  rw [hfilter]
  split
  · rename_i hkept
    obtain ⟨e, he, rfl⟩ := hkept
    rw [hentries, Grouping.filter_key_eq_singleton QueueEntry.key (nodup_keys_entriesAt _)
      (mem_keptEntries.mp he).1, List.map_singleton]
  · rename_i hdropped
    rw [List.map_eq_nil_iff, List.filter_eq_nil_iff]
    intro e he hek
    -- the kind is kept where `c` brings it, and so it would be here
    obtain ⟨hlist, e', he', hek'⟩ := mem_bringing.mp hc
    obtain ⟨hlisted, hdest', _⟩ := mem_keptList.mp hlist
    obtain ⟨he', hfull⟩ := mem_keptEntries.mp he'
    obtain ⟨a', ha', rfl, hentry'⟩ := has.exists_of_entry hlisted he'
    have heq : e = e' := has.key_eq ha (mem_arrivalsAt.mpr ⟨ha', hdest'⟩) he hentry'
      (congrArg Prod.fst ((of_decide_eq_true hek).trans hek'.symm))
    subst heq
    rw [hentries] at he
    exact hdropped ⟨e, mem_keptEntries.mpr ⟨he, hfull⟩, hek'⟩

/-- What arrives of a kept kind is what the connections bring of it. -/
theorem deliveries_of_kept (has : g.ArrivalsOf rates as) {c : Connection}
    (hc : c ∈ g.bringing name key) :
    ((deliveriesAt as name).filter fun d => d.1.key = key).map Prod.snd
      = ((arrivalsAt as name).filter fun a => g.Keeps a.connection.dest.port key).map
        Arrival.producer := by
  have hbrings := fun a (ha : a ∈ arrivalsAt as name) => delivered_of_kept has hc ha
  rw [deliveriesAt, List.filter_flatMap, List.map_flatMap]
  generalize arrivalsAt as name = arrivals at hbrings ⊢
  induction arrivals with
  | nil => rfl
  | cons a arrivals ih =>
    rw [List.flatMap_cons, hbrings a (by simp), ih fun b hb => hbrings b (by simp [hb])]
    by_cases hkept : g.Keeps a.connection.dest.port key
    · rw [List.filter_cons_of_pos (by simpa using hkept), if_pos hkept]
      rfl
    · rw [List.filter_cons_of_neg (by simpa using hkept), if_neg hkept]
      rfl

/-- What they say of it, in order. -/
theorem map_producers_bringing (has : g.ArrivalsOf rates as) (name : String)
    (key : String × String) {β : Type} (f : InboundProducer → β) (f' : Connection → β)
    (hf : ∀ a ∈ as, f a.producer = f' a.connection) :
    (((arrivalsAt as name).filter fun a => g.Keeps a.connection.dest.port key).map
        Arrival.producer).map f
      = (g.bringing name key).map f' := by
  have hfilter : g.bringing name key = ((arrivalsAt as name).filter fun a =>
      g.Keeps a.connection.dest.port key).map Arrival.connection := by
    rw [bringing, ← connections_kept has, List.filter_map, List.filter_filter]
    refine congrArg (List.map Arrival.connection) (List.filter_congr fun a _ => ?_)
    rw [Bool.eq_iff_iff]
    simp only [Function.comp_apply, Bool.and_eq_true, decide_eq_true_eq]
    refine and_iff_left_of_imp fun hkept => ?_
    obtain ⟨e, he, _⟩ := hkept
    exact List.ne_nil_of_mem he
  rw [hfilter, List.map_map, List.map_map]
  exact List.map_congr_left fun a ha => hf a (mem_arrivalsAt.mp (List.mem_filter.mp ha).1).1

/-- **A kept group adds up its connections** as they are listed. -/
theorem totalProductionHz_of_once (has : g.ArrivalsOf rates as) (hr : r.MadeOf as)
    (honce : ∀ route ∈ g.keptRoutes r.destination, g.listed route = 1)
    {group : InboundAsyncPortGroup} (hgroup : group ∈ keptGroups r) :
    group.totalProductionHz = sumHz rates (g.bringing r.destination group.key) := by
  obtain ⟨c, hc⟩ := exists_kept_of_group has hr hgroup
  have hsources := map_producers_bringing has r.destination group.key InboundProducer.source
    (fun c => c.source.str) fun a ha => (has.brings a ha).source
  have hrates := map_producers_bringing has r.destination group.key InboundProducer.productionHz
    (fun c => rates.productionHz c.source) fun a ha => (has.brings a ha).rate
  rw [group_totalHz hr (mem_keptGroups.mp hgroup).1, producersAt,
    deliveries_of_kept has (mem_bringing.mpr hc),
    Grouping.keepFirsts_of_nodup _ (hsources ▸ nodup_sources honce), hrates, sumHz]

/-- A kind of message has a kept group if a connection brings it. -/
theorem exists_group_iff (has : g.ArrivalsOf rates as) (hr : r.MadeOf as) :
    (∃ group ∈ keptGroups r, group.key = key) ↔ ∃ c, c ∈ g.bringing r.destination key := by
  constructor
  · rintro ⟨group, hgroup, rfl⟩
    obtain ⟨c, hc⟩ := exists_kept_of_group has hr hgroup
    exact ⟨c, mem_bringing.mpr hc⟩
  · rintro ⟨c, hc⟩
    obtain ⟨hlist, hkept⟩ := mem_bringing.mp hc
    obtain ⟨hlisted, hdest, _⟩ := mem_keptList.mp hlist
    obtain ⟨_, _, _, group, hgroup, hfull, hkey⟩ := (exists_kept_iff has hr hlisted hdest).mp hkept
    exact ⟨group, mem_keptGroups.mpr ⟨hgroup, hfull⟩, hkey⟩

end Groups

/-! ## Where one connection brings another kind of message -/

section OneButLast

variable {key key' : String × String}

/-- The total of a single group is the group's. -/
theorem groupsHz_singleton (sums : Rounding.SumOf) (group : InboundAsyncPortGroup) :
    groupsHz sums [group] = group.totalProductionHz := by
  cases htotal : group.totalProductionHz <;> simp [groupsHz, htotal]

/-- The total of two groups is rounded once. -/
theorem groupsHz_pair (sums : Rounding.SumOf) {group group' : InboundAsyncPortGroup} {p q : ℚ}
    (hp : group.totalProductionHz = some p) (hq : group'.totalProductionHz = some q)
    (hfp : Rounding.IsFloat floatDigits p) (hfq : Rounding.IsFloat floatDigits q) :
    groupsHz sums [group, group'] = some (Rounding.add floatDigits p q) := by
  simp [groupsHz, hp, hq, sums.apply_pair (by decide) hfp hfq]

/-- Of some kept connections with known rates the total is known. -/
theorem sumHz_of_known (hu : ¬ g.Unknown rates name) {cs : List Connection} (hne : cs ≠ [])
    (hcs : ∀ c ∈ cs, c ∈ g.keptList name) :
    sumHz rates cs = some (Rounding.total floatDigits (cs.map fun c => rates.hz c.source)) := by
  have hknown : none ∉ cs.map fun c => rates.productionHz c.source := by
    intro hnone
    obtain ⟨c, hc, hrate⟩ := List.mem_map.mp hnone
    exact hu ⟨c.route, mem_keptRoutes.mpr ⟨c, hcs c hc, rfl⟩, hrate⟩
  rw [sumHz, totalHz_eq (by simpa using hne), if_neg hknown, List.map_map]
  rfl

/-- If all that is kept is one kind of message, there is one group. -/
theorem keptGroups_singleton (has : g.ArrivalsOf rates as) (hr : r.MadeOf as)
    (hne : keptGroups r ≠ []) (hkeys : ∀ group ∈ keptGroups r, group.key = key) :
    ∃ group, keptGroups r = [group] := by
  obtain ⟨group, rest, hgroups⟩ := List.exists_cons_of_ne_nil hne
  have hnd := nodup_keptGroups has hr
  rw [hgroups] at hnd hkeys
  rw [List.map_cons, List.nodup_cons] at hnd
  have hrest : rest = [] := by
    refine List.eq_nil_iff_forall_not_mem.mpr fun group' hgroup' => hnd.1 ?_
    rw [hkeys group (by simp), ← hkeys group' (by simp [hgroup'])]
    exact List.mem_map_of_mem hgroup'
  exact ⟨group, hgroups.trans (congrArg (group :: ·) hrest)⟩

/-- If it is two kinds, there are two groups. -/
theorem keptGroups_pair (has : g.ArrivalsOf rates as) (hr : r.MadeOf as) (hkey : key ≠ key')
    (hkeys : ∀ k, (∃ group ∈ keptGroups r, group.key = k) ↔ k = key ∨ k = key') :
    ∃ group group', keptGroups r = [group, group']
      ∧ (group.key = key ∧ group'.key = key' ∨ group.key = key' ∧ group'.key = key) := by
  have hnd := nodup_keptGroups has hr
  have hperm : ((keptGroups r).map InboundAsyncPortGroup.key).Perm [key, key'] := by
    refine (List.perm_ext_iff_of_nodup hnd (by simpa using hkey)).mpr fun k => ?_
    rw [List.mem_map, hkeys, List.mem_pair]
  obtain ⟨group, group', hgroups⟩ := List.length_eq_two.mp
    ((List.length_map _).symm.trans hperm.length_eq)
  have hfirst := (hkeys group.key).mp ⟨group, by simp [hgroups], rfl⟩
  have hsecond := (hkeys group'.key).mp ⟨group', by simp [hgroups], rfl⟩
  have hapart : group.key ≠ group'.key := by simpa [hgroups] using hnd
  refine ⟨group, group', hgroups, ?_⟩
  rcases hfirst with hfirst | hfirst
  · exact .inl ⟨hfirst, hsecond.resolve_left fun h => hapart (hfirst.trans h.symm)⟩
  · exact .inr ⟨hfirst, hsecond.resolve_right fun h => hapart (hfirst.trans h.symm)⟩

/-- A single kept group adds up what the row does. -/
theorem groupsHz_of_oneKind (sums : Rounding.SumOf) (has : g.ArrivalsOf rates as)
    (hr : r.MadeOf as) (honce : ∀ route ∈ g.keptRoutes r.destination, g.listed route = 1)
    (hne : keptGroups r ≠ []) (hkinds : ∀ c ∈ g.keptList r.destination,
      (g.keptEntries c.dest.port).map QueueEntry.key = [key]) :
    groupsHz sums (keptGroups r) = sumHz rates (g.keptList r.destination) := by
  have hkeys : ∀ group ∈ keptGroups r, group.key = key := by
    intro group hgroup
    obtain ⟨c, hc, e, he, hek⟩ := exists_kept_of_group has hr hgroup
    have hmem : e.key ∈ [key] := hkinds c hc ▸ List.mem_map_of_mem he
    exact hek.symm.trans (List.mem_singleton.mp hmem)
  obtain ⟨group, hgroups⟩ := keptGroups_singleton has hr hne hkeys
  have hgroup : group ∈ keptGroups r := by simp [hgroups]
  have hbringing : g.bringing r.destination key = g.keptList r.destination :=
    List.filter_eq_self.mpr fun c hc => decide_eq_true ((keeps_iff (hkinds c hc)).mpr rfl)
  rw [hgroups, groupsHz_singleton, totalProductionHz_of_once has hr honce hgroup, hkeys group hgroup,
    hbringing]

section TwoKinds

variable {init : List Connection} {last : Connection} (hlist : g.keptList name = init ++ [last])
  (hfront : ∀ c ∈ init, (g.keptEntries c.dest.port).map QueueEntry.key = [key])
  (hlast : (g.keptEntries last.dest.port).map QueueEntry.key = [key']) (hkey : key ≠ key')
include hlist hfront hlast hkey

theorem bringing_front : g.bringing name key = init := by
  have hself : init.filter (fun c => g.Keeps c.dest.port key) = init :=
    List.filter_eq_self.mpr fun c hc => decide_eq_true ((keeps_iff (hfront c hc)).mpr rfl)
  have hnil : [last].filter (fun c => g.Keeps c.dest.port key) = [] := by
    simp [keeps_iff hlast, hkey]
  rw [bringing, hlist, List.filter_append, hself, hnil, List.append_nil]

theorem bringing_last : g.bringing name key' = [last] := by
  have hnil : init.filter (fun c => g.Keeps c.dest.port key') = [] :=
    List.filter_eq_nil_iff.mpr fun c hc hkeeps =>
      hkey.symm ((keeps_iff (hfront c hc)).mp (of_decide_eq_true hkeeps))
  have hself : [last].filter (fun c => g.Keeps c.dest.port key') = [last] := by
    simp [keeps_iff hlast]
  rw [bringing, hlist, List.filter_append, hnil, hself, List.nil_append]

theorem exists_bringing_iff (hinit : init ≠ []) (k : String × String) :
    (∃ c, c ∈ g.bringing name k) ↔ k = key ∨ k = key' := by
  constructor
  · rintro ⟨c, hc⟩
    obtain ⟨hmem, hkept⟩ := mem_bringing.mp hc
    rw [hlist, List.mem_append, List.mem_singleton] at hmem
    rcases hmem with hmem | rfl
    · exact .inl ((keeps_iff (hfront c hmem)).mp hkept)
    · exact .inr ((keeps_iff hlast).mp hkept)
  · rintro (rfl | rfl)
    · rw [bringing_front hlist hfront hlast hkey]
      exact List.exists_mem_of_ne_nil _ hinit
    · exact ⟨last, by simp [bringing_last hlist hfront hlast hkey]⟩

end TwoKinds

/-- Two of them, if the second has one connection and it is listed last. -/
theorem groupsHz_of_twoKinds (sums : Rounding.SumOf) (has : g.ArrivalsOf rates as)
    (hr : r.MadeOf as) (honce : ∀ route ∈ g.keptRoutes r.destination, g.listed route = 1)
    (hu : ¬ g.Unknown rates r.destination) {init : List Connection} {last : Connection}
    (hlist : g.keptList r.destination = init ++ [last]) (hinit : init ≠ [])
    (hfront : ∀ c ∈ init, (g.keptEntries c.dest.port).map QueueEntry.key = [key])
    (hlast : (g.keptEntries last.dest.port).map QueueEntry.key = [key']) (hkey : key ≠ key')
    (hfloat : Rounding.IsFloat floatDigits (rates.hz last.source)) :
    groupsHz sums (keptGroups r) = sumHz rates (g.keptList r.destination) := by
  obtain ⟨group, group', hgroups, horder⟩ := keptGroups_pair has hr hkey fun k =>
    (exists_group_iff has hr).trans (exists_bringing_iff hlist hfront hlast hkey hinit k)
  have hfirst : group.totalProductionHz = sumHz rates (g.bringing r.destination group.key) :=
    totalProductionHz_of_once has hr honce (by simp [hgroups])
  have hsecond : group'.totalProductionHz = sumHz rates (g.bringing r.destination group'.key) :=
    totalProductionHz_of_once has hr honce (by simp [hgroups])
  have htotal : sumHz rates init
      = some (Rounding.total floatDigits (init.map fun c => rates.hz c.source)) :=
    sumHz_of_known hu hinit (by simp +contextual [hlist])
  have htotal' : sumHz rates [last] = some (rates.hz last.source) := by
    rw [sumHz_of_known hu (by simp) (by simp [hlist])]
    simp [Rounding.total, Rounding.add, hfloat.eq]
  have hrow : sumHz rates (g.keptList r.destination) = some (Rounding.add floatDigits
      (Rounding.total floatDigits (init.map fun c => rates.hz c.source)) (rates.hz last.source)) := by
    rw [sumHz_of_known hu (by simp [hlist]) fun c hc => hc, hlist]
    simp [Rounding.total]
  have hfloat' := Rounding.isFloat_total (show 0 < floatDigits by decide)
    (init.map fun c => rates.hz c.source)
  rw [hgroups, hrow]
  rcases horder with ⟨hk, hk'⟩ | ⟨hk, hk'⟩
  · rw [hk, bringing_front hlist hfront hlast hkey, htotal] at hfirst
    rw [hk', bringing_last hlist hfront hlast hkey, htotal'] at hsecond
    exact groupsHz_pair sums hfirst hsecond hfloat' hfloat
  · rw [hk, bringing_last hlist hfront hlast hkey, htotal'] at hfirst
    rw [hk', bringing_front hlist hfront hlast hkey, htotal] at hsecond
    rw [groupsHz_pair sums hfirst hsecond hfloat hfloat', Rounding.add_swap]

/-- **The filter adds the last connection to the others**, as the row does. -/
theorem groupsHz_of_oneButLast (sums : Rounding.SumOf) (has : g.ArrivalsOf rates as)
    (hr : r.MadeOf as) (h : g.OneButLast rates r.destination) (hu : ¬ g.Unknown rates r.destination)
    (hne : keptGroups r ≠ []) :
    groupsHz sums (keptGroups r) = sumHz rates (g.keptList r.destination) := by
  have honce := fun route hroute => (h.once route hroute).2
  obtain ⟨init, last, hlist⟩ : ∃ init last, g.keptList r.destination = init ++ [last] :=
    ⟨_, _, (List.dropLast_append_getLast (keptList_ne_nil has hr hne)).symm⟩
  obtain ⟨key, hfront⟩ := h.front
  rw [hlist, List.dropLast_concat] at hfront
  have hroute : last.route ∈ g.keptRoutes r.destination :=
    mem_keptRoutes.mpr ⟨last, by simp [hlist], rfl⟩
  obtain ⟨e, hentries⟩ := List.length_eq_one_iff.mp (h.once last.route hroute).1
  have hlast : (g.keptEntries last.dest.port).map QueueEntry.key = [e.key] := by
    rw [show g.keptEntries last.dest.port = [e] from hentries, List.map_singleton]
  by_cases hsame : init = [] ∨ key = e.key
  · have hkind : ∀ c ∈ g.keptList r.destination,
        (g.keptEntries c.dest.port).map QueueEntry.key = [e.key] := by
      intro c hc
      rw [hlist, List.mem_append, List.mem_singleton] at hc
      rcases hc with hc | rfl
      · rw [hfront c hc, hsame.resolve_left (List.ne_nil_of_mem hc)]
      · exact hlast
    exact groupsHz_of_oneKind sums has hr honce hne hkind
  · rw [not_or] at hsame
    exact groupsHz_of_twoKinds sums has hr honce hu hlist hsame.1 hfront hlast hsame.2
      (h.floats last.route hroute)

end OneButLast

/-! ## When the totals agree -/

section Totals

variable (sums : Rounding.SumOf)

/-- With a rate unknown, so is every total. -/
theorem totals_of_unknown (has : g.ArrivalsOf rates as) (hr : r.MadeOf as)
    (hne : keptGroups r ≠ []) (hu : g.Unknown rates r.destination) :
    groupsHz sums (keptGroups r) = sumHz rates (g.keptConnections r)
      ∧ (g.DropsNothing r.destination → groupsHz sums (keptGroups r) = r.totalProductionHz) := by
  have hlist := keptList_ne_nil has hr hne
  rw [groupsHz_keptGroups sums has hr hne, if_pos hu,
    sumHz_eq (fun _ => mem_keptConnections has hr) hlist, if_pos hu]
  refine ⟨rfl, fun hnothing => ?_⟩
  rw [totalProductionHz_of_dropsNothing has hr hnothing, sumHz_eq (fun _ => Iff.rfl) hlist,
    if_pos hu]

/-- Where the last connection is added to those of one kind, all totals are added
up alike. -/
theorem totals_of_oneButLast (has : g.ArrivalsOf rates as) (hr : r.MadeOf as)
    (hne : keptGroups r ≠ []) (h : g.OneButLast rates r.destination) :
    groupsHz sums (keptGroups r) = sumHz rates (g.keptConnections r)
      ∧ (g.DropsNothing r.destination → groupsHz sums (keptGroups r) = r.totalProductionHz) := by
  by_cases hu : g.Unknown rates r.destination
  · exact totals_of_unknown sums has hr hne hu
  · rw [keptConnections_of_once has hr fun route hroute => (h.once route hroute).2,
      groupsHz_of_oneButLast sums has hr h hu hne]
    exact ⟨rfl, fun hnothing => (totalProductionHz_of_dropsNothing has hr hnothing).symm⟩

/-- **Where nothing is rounded, the totals agree exactly when the counts do.** -/
theorem totals_iff_of_fits {k : Int} (hfit : g.FitsDigits rates r.destination k)
    (has : g.ArrivalsOf rates as) (hr : r.MadeOf as) (hne : keptGroups r ≠ []) :
    (groupsHz sums (keptGroups r) = sumHz rates (g.keptConnections r)
        ∧ (g.DropsNothing r.destination → groupsHz sums (keptGroups r) = r.totalProductionHz))
      ↔ g.CountsAlike rates r.destination := by
  by_cases hu : g.Unknown rates r.destination
  · exact iff_of_true (totals_of_unknown sums has hr hne hu) (.inl hu)
  · have hlist := keptList_ne_nil has hr hne
    have hdistinct : sumHz rates (g.keptConnections r)
        = some (g.weigh rates r.destination g.distinct) := by
      rw [sumHz_eq (fun _ => mem_keptConnections has hr) hlist, if_neg hu,
        total_connections hfit (fun _ => mem_keptConnections has hr)
          (fun _ hroute => length_keptConnections has hr hroute) fun route _ => distinct_le_listed route]
    have hlisted : sumHz rates (g.keptList r.destination)
        = some (g.weigh rates r.destination g.listed) := by
      rw [sumHz_eq (fun _ => Iff.rfl) hlist, if_neg hu,
        total_connections hfit (fun _ => Iff.rfl) (fun _ hroute => length_keptList hroute)
          fun _ _ => le_rfl]
    rw [groupsHz_keptGroups sums has hr hne, if_neg hu, apply_totals sums hfit has hr hu, hdistinct,
      CountsAlike, or_iff_right hu, Option.some.injEq]
    refine and_congr_right fun _ => forall_congr' fun hnothing => ?_
    rw [totalProductionHz_of_dropsNothing has hr hnothing, hlisted, Option.some.injEq]

end Totals

/-! ## The filtered row -/

theorem destination_of_hideDropPorts {sums : Rounding.SumOf} {row row' : QueueGroup}
    (h : hideDropPorts sums row = some row') :
    row'.destination = row.destination := by
  unfold hideDropPorts at h
  dsimp only at h
  split at h
  · cases h
  · cases h
    rfl

/-- Without kept groups, no route brings anything that is kept. -/
theorem keptRoutes_eq_empty (has : g.ArrivalsOf rates as) (hr : r.MadeOf as)
    (hnil : keptGroups r = []) : g.keptRoutes r.destination = ∅ := by
  refine Finset.eq_empty_of_forall_notMem fun route hroute => ?_
  obtain ⟨c, hc, rfl⟩ := mem_keptRoutes.mp hroute
  obtain ⟨hlisted, hdest, hne⟩ := mem_keptList.mp hc
  obtain ⟨_, _, group, hgroup, hfull, _⟩ := ((feedsKept_iff has hr hlisted).mpr ⟨hdest, hne⟩).2
  exact hfull (keptGroups_eq_nil_iff.mp hnil group hgroup)

/-- A row of the filtered report comes from the row of its destination. -/
theorem mem_filterDropPorts_iff {sums : Rounding.SumOf} {rows : List QueueGroup}
    (hnd : (rows.map QueueGroup.destination).Nodup) (hr : r ∈ rows) (r' : QueueGroup) :
    (r' ∈ filterDropPorts sums rows ∧ r'.destination = r.destination)
      ↔ hideDropPorts sums r = some r' := by
  unfold filterDropPorts
  rw [List.mem_filterMap]
  constructor
  · rintro ⟨⟨row, hrow, hhide⟩, hdest⟩
    rw [destination_of_hideDropPorts hhide] at hdest
    rwa [← List.inj_on_of_nodup_map hnd hrow hr hdest]
  · exact fun h => ⟨⟨r, hr, h⟩, destination_of_hideDropPorts h⟩

/-- The row that is left of a row with kept groups. -/
theorem hideDropPorts_eq (sums : Rounding.SumOf) (hne : keptGroups r ≠ []) :
    hideDropPorts sums r = some { r with
      inboundPorts := keptGroups r
      inbound := sortNames
        ((keptGroups r).flatMap fun group => group.producers.map InboundProducer.source).toFinset
      dataTypes := sortNames ((keptGroups r).map InboundAsyncPortGroup.dataType).toFinset
      totalProductionHz := groupsHz sums (keptGroups r)
      queueFillTimeS := estimateFillTime r.queueSize (groupsHz sums (keptGroups r)) r.consumerRateHz } :=
  if_neg hne

theorem hideDropPorts_none (sums : Rounding.SumOf) (hnil : keptGroups r = []) :
    hideDropPorts sums r = none := if_pos hnil

/-- The producers of all groups are the sources of all arrivals. -/
theorem inbound_eq (hr : r.MadeOf as) :
    (r.inboundPorts.flatMap fun group => group.producers.map InboundProducer.source).toFinset
      = ((arrivalsAt as r.destination).map fun a => a.producer.source).toFinset := by
  ext source
  rw [List.mem_toFinset, List.mem_toFinset, List.mem_flatMap, List.mem_map]
  constructor
  · rintro ⟨group, hgroup, hsource⟩
    rw [((hr.producers_perm hgroup).map InboundProducer.source).mem_iff,
      mem_source_producersAt] at hsource
    obtain ⟨d, hd, _, rfl⟩ := hsource
    obtain ⟨a, ha, _, hproducer⟩ := mem_deliveriesAt.mp hd
    exact ⟨a, ha, by rw [hproducer]⟩
  · rintro ⟨a, ha, rfl⟩
    obtain ⟨e, he⟩ := a.exists_entry
    obtain ⟨group, hgroup, hkey⟩ := exists_group hr ha he
    refine ⟨group, hgroup, ?_⟩
    rw [((hr.producers_perm hgroup).map InboundProducer.source).mem_iff, mem_source_producersAt]
    exact ⟨(e, a.producer), mem_deliveriesAt.mpr ⟨a, ha, he, rfl⟩, hkey.symm, rfl⟩

theorem dataTypes_eq (hr : r.MadeOf as) :
    (r.inboundPorts.map InboundAsyncPortGroup.dataType).toFinset
      = ((arrivalsAt as r.destination).map Arrival.dataType).toFinset := by
  ext dataType
  rw [List.mem_toFinset, List.mem_toFinset, List.mem_map, List.mem_map]
  constructor
  · rintro ⟨group, hgroup, rfl⟩
    obtain ⟨a, ha, e, he, hkey, _⟩ := hr.of_mem_inboundPorts hgroup
    exact ⟨a, ha, (InstanceInfo.dataType_of_mem he).symm.trans (congrArg Prod.snd hkey)⟩
  · rintro ⟨a, ha, rfl⟩
    obtain ⟨e, he⟩ := a.exists_entry
    obtain ⟨group, hgroup, hkey⟩ := exists_group hr ha he
    exact ⟨group, hgroup, (congrArg Prod.snd hkey).trans (InstanceInfo.dataType_of_mem he)⟩

/-- Where nothing is dropped, the row is as it was if its total is. -/
theorem hideDropPorts_self_iff {sums : Rounding.SumOf} (hr : r.MadeOf as)
    (hall : ∀ group ∈ r.inboundPorts, group.overflowBehavior ≠ .drop) {r' : QueueGroup}
    (hhide : hideDropPorts sums r = some r') :
    r' = r ↔ groupsHz sums (keptGroups r) = r.totalProductionHz := by
  have hkept : keptGroups r = r.inboundPorts := by
    rw [keptGroups, List.filter_eq_self]
    exact fun group hgroup => decide_eq_true (hall group hgroup)
  have hne : keptGroups r ≠ [] := by
    intro hnil
    rw [hideDropPorts_none _ hnil] at hhide
    cases hhide
  rw [hideDropPorts_eq _ hne] at hhide
  obtain rfl := Option.some.inj hhide
  constructor
  · exact fun heq => congrArg QueueGroup.totalProductionHz heq
  · intro htotal
    rw [htotal, hkept, inbound_eq hr, dataTypes_eq hr, ← hr.inbound, ← hr.dataTypes, ← hr.fillTime]

/-- A row of which nothing is kept has no row to be wrong. -/
theorem hidesDropPorts_of_nil {sums : Rounding.SumOf} {rows : List QueueGroup}
    (hnd : (rows.map QueueGroup.destination).Nodup) (hmem : r ∈ rows) (hnil : keptGroups r = []) :
    g.HidesDropPorts rates sums rows r := by
  have hnone : ∀ r', r' ∈ filterDropPorts sums rows → r'.destination ≠ r.destination := by
    intro r' hin hdest
    have hhide := (mem_filterDropPorts_iff hnd hmem r').mp ⟨hin, hdest⟩
    rw [hideDropPorts_none _ hnil] at hhide
    cases hhide
  refine ⟨iff_of_false ?_ ?_, fun r' hin hdest => absurd hdest (hnone r' hin),
    fun r' hin hdest => absurd hdest (hnone r' hin),
    fun _ r' hin hdest => absurd hdest (hnone r' hin)⟩
  · exact fun ⟨r', hin, hdest⟩ => hnone r' hin hdest
  · rintro ⟨group, hgroup, hfull⟩
    exact hfull (keptGroups_eq_nil_iff.mp hnil group hgroup)

/-- Of any other row, the totals tell. -/
theorem hidesDropPorts_iff_totals {sums : Rounding.SumOf} {rows : List QueueGroup} (hr : r.MadeOf as)
    (hnd : (rows.map QueueGroup.destination).Nodup) (hmem : r ∈ rows) (hne : keptGroups r ≠ []) :
    g.HidesDropPorts rates sums rows r
      ↔ groupsHz sums (keptGroups r) = sumHz rates (g.keptConnections r)
        ∧ ((∀ group ∈ r.inboundPorts, group.overflowBehavior ≠ .drop) →
          groupsHz sums (keptGroups r) = r.totalProductionHz) := by
  have hfilter : ∀ r', (r' ∈ filterDropPorts sums rows ∧ r'.destination = r.destination)
      ↔ hideDropPorts sums r = some r' := mem_filterDropPorts_iff hnd hmem
  have hhide := hideDropPorts_eq sums hne
  constructor
  · intro hright
    obtain ⟨hin, hdest⟩ := (hfilter _).mpr hhide
    exact ⟨hright.total _ hin hdest, fun hall =>
      (hideDropPorts_self_iff hr hall hhide).mp (hright.unchanged hall _ hin hdest)⟩
  · rintro ⟨htotal, hself⟩
    obtain ⟨group, hgroup⟩ := List.exists_mem_of_ne_nil _ hne
    refine ⟨iff_of_true ⟨_, (hfilter _).mpr hhide⟩ ⟨group, mem_keptGroups.mp hgroup⟩,
      fun r' hin hdest => ?_, fun r' hin hdest => ?_, fun hall r' hin hdest => ?_⟩
    · obtain rfl := Option.some.inj (hhide.symm.trans ((hfilter r').mp ⟨hin, hdest⟩))
      exact htotal
    · obtain rfl := Option.some.inj (hhide.symm.trans ((hfilter r').mp ⟨hin, hdest⟩))
      rfl
    · exact (hideDropPorts_self_iff hr hall ((hfilter r').mp ⟨hin, hdest⟩)).mpr (hself hall)

/-- A kept route brings something. -/
theorem kinds_pos {route : Route} (hroute : route ∈ g.keptRoutes name) : 1 ≤ g.kinds route := by
  obtain ⟨c, hc, rfl⟩ := mem_keptRoutes.mp hroute
  exact List.length_pos_of_ne_nil (mem_keptList.mp hc).2.2

/-- **With positive rates, and one connection on a route**, the counts weigh
alike exactly when no connection brings two kept kinds of message. -/
theorem countsAlike_iff_of_pos (hpos : ∀ route ∈ g.keptRoutes name, 0 < rates.hz route.1)
    (hone : (g.connectionList.map Connection.route).Nodup) :
    g.CountsAlike rates name ↔ ∀ route ∈ g.keptRoutes name, g.kinds route = 1 := by
  have hfilter : ∀ route ∈ g.keptRoutes name, ∃ c,
      g.connectionList.filter (fun c => c.route = route) = [c] := by
    intro route hroute
    obtain ⟨c, hc, rfl⟩ := mem_keptRoutes.mp hroute
    exact ⟨c, Grouping.filter_key_eq_singleton _ hone (mem_keptList.mp hc).1⟩
  have hlisted : ∀ route ∈ g.keptRoutes name, g.listed route = 1 := by
    intro route hroute
    obtain ⟨c, hc⟩ := hfilter route hroute
    rw [listed, hc, List.length_singleton]
  have hdistinct : ∀ route ∈ g.keptRoutes name, g.distinct route = 1 := by
    intro route hroute
    obtain ⟨c, hc⟩ := hfilter route hroute
    have hset : g.connectionList.toFinset.filter (fun c => c.route = route) = {c} := by
      ext c'
      have hmem : c' ∈ g.connectionList.filter (fun c => c.route = route) ↔ c' = c := by simp [hc]
      simpa using hmem
    rw [distinct, hset, Finset.card_singleton]
  have hknown : ¬ g.Unknown rates name := by
    rintro ⟨route, hroute, hnone⟩
    have hzero : rates.hz route.1 = 0 := by rw [RateModel.hz, hnone, Option.getD_none]
    exact absurd (hpos route hroute) (by simp [hzero])
  have hweigh : ∀ times : Route → Nat, (∀ route ∈ g.keptRoutes name, times route = 1) →
      g.weigh rates name times = ∑ route ∈ g.keptRoutes name, rates.hz route.1 := by
    intro times htimes
    exact Finset.sum_congr rfl fun route hroute => by rw [htimes route hroute, one_nsmul]
  rw [CountsAlike, or_iff_right hknown, hweigh _ hdistinct, hweigh _ hlisted]
  constructor
  · rintro ⟨hkinds, _⟩ route hroute
    have hle : ∀ route ∈ g.keptRoutes name, rates.hz route.1 ≤ g.kinds route • rates.hz route.1 := by
      intro route hroute
      have hmono := nsmul_le_nsmul_left (hpos route hroute).le (kinds_pos hroute)
      rwa [one_nsmul] at hmono
    have heq := (Finset.sum_eq_sum_iff_of_le hle).mp hkinds.symm route hroute
    by_contra hne
    have htwo : 2 ≤ g.kinds route := by
      have hge := kinds_pos hroute
      omega
    have hlt : rates.hz route.1 < 2 • rates.hz route.1 := by
      rw [two_nsmul]
      exact lt_add_of_pos_left _ (hpos route hroute)
    exact absurd heq (hlt.trans_le (nsmul_le_nsmul_left (hpos route hroute).le htwo)).ne
  · intro hkinds
    exact ⟨hweigh _ hkinds, fun _ => hweigh _ hkinds⟩

end LoadedTopology

/-! ## A command port -/

/-- `T.ground.out`, wired to the command port of `T.logger`. -/
def uplink : Connection := ⟨⟨⟨"T.ground", .out⟩, some 0⟩, ⟨⟨"T.logger", .cmdIn⟩, some 0⟩⟩

/-- A logger that takes these commands from its queue. -/
def loggerInfo (commandKinds : Dict String (Finset SyncKind)) : InstanceInfo where
  kind := .active
  inputPorts := .ofList [(.cmdIn, {.async})]
  cmdPort := some .cmdIn
  commandKinds := commandKinds
  queueSize := some 10
  portTypes := .ofList [(.cmdIn, "Fw.Cmd")]

/-- A ground station that commands the logger. -/
def uplinkTopology (commandKinds : Dict String (Finset SyncKind)) : LoadedTopology where
  instances := .ofList [("T.ground", { kind := .active, outputPorts := [.out] }),
    ("T.logger", loggerInfo commandKinds)]
  connections := .ofList [(⟨"T.ground", .out⟩, [⟨"T.logger", .cmdIn⟩])]
  flow := .permissive ∅
  connectionList := [uplink]

/-- Two commands a second. -/
def uplinkRates : RateModel := asRateModel (.ofList [("T.ground.out", 2)]) ∅

/-- Three sensors on two ports of a logger. -/
def sensorTopology : LoadedTopology where
  instances := .ofList [("T.a", { kind := .active, outputPorts := [.out] }),
    ("T.b", { kind := .active, outputPorts := [.out] }),
    ("T.c", { kind := .active, outputPorts := [.out] }),
    ("T.logger", { kind := .active, inputPorts := .ofList [(.go, {.async}), (.run, {.async})]
                   portTypes := .ofList [(.go, "Svc.Sched"), (.run, "Svc.Sched")] })]
  connections := .ofList [(⟨"T.a", .out⟩, [⟨"T.logger", .go⟩]), (⟨"T.b", .out⟩, [⟨"T.logger", .run⟩]),
    (⟨"T.c", .out⟩, [⟨"T.logger", .run⟩])]
  flow := .permissive ∅
  connectionList := [⟨⟨⟨"T.a", .out⟩, some 0⟩, ⟨⟨"T.logger", .go⟩, some 0⟩⟩,
    ⟨⟨⟨"T.b", .out⟩, some 0⟩, ⟨⟨"T.logger", .run⟩, some 0⟩⟩,
    ⟨⟨⟨"T.c", .out⟩, some 0⟩, ⟨⟨"T.logger", .run⟩, some 1⟩⟩]

/-- The floats `0.1`, `0.2` and `0.3`. -/
def sensorRates : RateModel :=
  asRateModel (.ofList [("T.a.out", Rounding.round floatDigits (1 / 10)),
    ("T.b.out", Rounding.round floatDigits (2 / 10)),
    ("T.c.out", Rounding.round floatDigits (3 / 10))]) ∅

/-- What the filter leaves of `0.1 + 0.2 + 0.3` is `0.1 + (0.2 + 0.3)`: the
last digit changes, though nothing is dropped. -/
example : ∃ rows, sensorTopology.analyze sensorRates = .ok rows
    ∧ rows.map QueueGroup.totalProductionHz
      = [some (Rounding.round floatDigits (6000000000000001 / 10000000000000000))]
    ∧ (filterDropPorts .plain rows).map QueueGroup.totalProductionHz
      = [some (Rounding.round floatDigits (6 / 10))] :=
  ⟨_, rfl, by decide +kernel, by decide +kernel⟩

end FprimeTopologyAnalysis
