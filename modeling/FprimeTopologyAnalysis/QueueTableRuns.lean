/-
FprimeTopologyAnalysis.QueueTableRuns — what the table shows of an analysis.

`analyze` shares two caches between the connections. Neither shows: a
producer is what a query of its own says of its source (`producerOf`), so
equal names are equal producers and the rows of every analysis are
`Legible`. The order of the ports is the one by the highest priority of
their type (`typeMax_eq`, `pairwise_visible`). Together the table has every
port of every row and every producer, in this order, and no more
(`table_exact`).
-/
import FprimeTopologyAnalysis.QueueTableRead
import FprimeTopologyAnalysis.DropFilter
import FprimeTopologyAnalysis.DrainCache

namespace FprimeTopologyAnalysis

open Library

namespace LoadedTopology

/-! ## Producers -/

/-- A producer, as a query of its own has it. -/
def producerOf (g : LoadedTopology) (rates : RateModel) (source : ConnectionEnd)
    (context : String) : InboundProducer :=
  let thread := g.plainInfo (some source.port.inst)
  { source := source.str
    threadKind := thread.kind
    threadPriority := thread.priority
    drainSource := thread.drainSource
    threadContext := thread.context
    emitContext := context
    productionHz := rates.productionHz source }

/-- The producer of an arrival is what its source says. -/
def FromSource (g : LoadedTopology) (rates : RateModel) (a : Arrival) : Prop :=
  ∃ context, g.emitContextForPort a.connection.source.port.inst a.connection.source.port.port
      = .ok context
    ∧ a.producer = g.producerOf rates a.connection.source context

/-- Neither cache has anything but plain answers. -/
structure Settled (g : LoadedTopology) (s : Gathering) : Prop where
  threads : g.Sound s.threads
  contexts : ∀ port context, s.contexts.get? port = some context →
    g.emitContextForPort port.inst port.port = .ok context

variable {g : LoadedTopology} {rates : RateModel}

/-- A context is the one of its port, and so is what is remembered. -/
theorem emitContext_settled {contexts contexts' : Dict PortKey String} {port : PortKey}
    {context : String}
    (hcontexts : ∀ port context, contexts.get? port = some context →
      g.emitContextForPort port.inst port.port = .ok context)
    (h : g.emitContext contexts port = .ok (context, contexts')) :
    g.emitContextForPort port.inst port.port = .ok context
      ∧ ∀ port context, contexts'.get? port = some context →
        g.emitContextForPort port.inst port.port = .ok context := by
  unfold emitContext at h
  cases hget : contexts.get? port with
  | some known =>
    simp only [hget, Except.ok.injEq, Prod.mk.injEq] at h
    obtain ⟨rfl, rfl⟩ := h
    exact ⟨hcontexts port known hget, hcontexts⟩
  | none =>
    cases hfresh : g.emitContextForPort port.inst port.port with
    | error e => simp [hget, hfresh, Except.map] at h
    | ok fresh =>
      simp only [hget, hfresh, Except.map, Except.ok.injEq, Prod.mk.injEq] at h
      obtain ⟨rfl, rfl⟩ := h
      refine ⟨rfl, fun other known hknown => ?_⟩
      rw [Dict.get?_set] at hknown
      by_cases hother : other = port
      · rw [if_pos hother] at hknown
        rw [hother, hfresh, Option.some.inj hknown]
      · rw [if_neg hother] at hknown
        exact hcontexts other known hknown

/-- One round keeps the caches plain, and what arrives is what its source
says. -/
theorem gather_settled {s s' : Gathering} {c : Connection} (hs : g.Settled s)
    (h : g.gather rates s c = .ok s') :
    g.Settled s' ∧ ((g.queueOf c.dest.port = none ∧ s' = s)
      ∨ ∃ a : Arrival, a.connection = c ∧ a.From g rates ∧ g.FromSource rates a
        ∧ s'.queues = receiveAt s.queues a) := by
  unfold gather at h
  cases hqueue : g.queueOf c.dest.port with
  | none =>
    simp only [hqueue, Except.ok.injEq] at h
    subst h
    exact ⟨hs, .inl ⟨rfl, rfl⟩⟩
  | some target =>
    obtain ⟨destInfo, dataType⟩ := target
    simp only [hqueue, arrival] at h
    obtain ⟨hdrain, _⟩ := settled_query hs.threads (some c.dest.port.inst)
    obtain ⟨hsource, hplain⟩ := settled_query hdrain (some c.source.port.inst)
    cases hcontext : g.emitContext s.contexts c.source.port with
    | error e => simp [hcontext, Except.map] at h
    | ok found =>
      obtain ⟨context, contexts⟩ := found
      obtain ⟨hport, hcontexts⟩ := emitContext_settled hs.contexts hcontext
      simp only [hcontext, Except.map, Except.ok.injEq] at h
      subst h
      refine ⟨⟨hsource, hcontexts⟩, .inr ⟨_, rfl, ⟨hqueue, rfl, rfl⟩, ⟨context, hport, ?_⟩, rfl⟩⟩
      simp only [producerOf, hplain]

theorem foldlM_gather_settled : ∀ (cs : List Connection) {s s' : Gathering}, g.Settled s →
    cs.foldlM (g.gather rates) s = .ok s' →
    ∃ as : List Arrival,
      as.map Arrival.connection = cs.filter (fun c => (g.queueOf c.dest.port).isSome)
      ∧ (∀ a ∈ as, a.From g rates ∧ g.FromSource rates a)
      ∧ s'.queues = as.foldl receiveAt s.queues
  | [], s, s', _, h => by
      cases h
      exact ⟨[], rfl, by simp, rfl⟩
  | c :: cs, s, s', hs, h => by
      rw [List.foldlM_cons] at h
      cases hround : g.gather rates s c with
      | error e => simp [hround, bind, Except.bind] at h
      | ok s₁ =>
        rw [hround] at h
        obtain ⟨hs₁, hcases⟩ := gather_settled hs hround
        obtain ⟨as, hmap, hfrom, hqueues⟩ := foldlM_gather_settled cs hs₁ h
        rcases hcases with ⟨hnone, rfl⟩ | ⟨a, rfl, ha, hsource, hqueue⟩
        · exact ⟨as, by simp [hmap, hnone], hfrom, hqueues⟩
        · refine ⟨a :: as, by simp [hmap, ha.queue], ?_, ?_⟩
          · exact List.forall_mem_cons.mpr ⟨⟨ha, hsource⟩, hfrom⟩
          · rw [hqueues, hqueue, List.foldl_cons]

/-- **The producers of a report are what their sources say.** -/
theorem analyze_producers {rows : List QueueGroup} (h : g.analyze rates = .ok rows) :
    ∃ as, g.ArrivalsOf rates as ∧ (∀ a ∈ as, g.FromSource rates a)
      ∧ rows = (as.foldl receiveAt ∅).sortedEntries.map (g.queueGroup rates) := by
  unfold analyze at h
  cases hfold : g.connectionList.foldlM (g.gather rates) ⟨∅, ∅, ∅⟩ with
  | error e => simp [hfold, Except.map] at h
  | ok s =>
    have hempty : g.Settled ⟨∅, ∅, ∅⟩ := ⟨.empty, by simp⟩
    obtain ⟨as, hmap, hfrom, hqueues⟩ := foldlM_gather_settled _ hempty hfold
    simp only [hfold, Except.map, Except.ok.injEq] at h
    exact ⟨as, ⟨hmap, fun a ha => (hfrom a ha).1⟩, fun a ha => (hfrom a ha).2, by rw [← h, hqueues]⟩

/-! ## Rows that can be read -/

variable {as : List Arrival} {row : QueueGroup}

/-- A producer of a row arrived. -/
theorem exists_arrival_of_producer (hr : row.MadeOf as) {group : InboundAsyncPortGroup}
    (hgroup : group ∈ row.inboundPorts) {p : InboundProducer} (hp : p ∈ group.producers) :
    ∃ a ∈ as, a.producer = p := by
  obtain ⟨d, hd, _, rfl⟩ := of_mem_producersAt ((hr.producers_perm hgroup).mem_iff.mp hp)
  obtain ⟨a, ha, _, hproducer⟩ := mem_deliveriesAt.mp hd
  exact ⟨a, (mem_arrivalsAt.mp ha).1, hproducer.symm⟩

theorem str_ne_empty (source : ConnectionEnd) : source.str ≠ "" := by
  have hdot : '.' ∈ source.str.toList := by
    unfold ConnectionEnd.str PortKey.str
    split <;> simp
  intro hempty
  rw [hempty] at hdot
  cases hdot

/-- Equal names are equal producers. -/
theorem producer_eq_of_source (has : g.ArrivalsOf rates as)
    (hsources : ∀ a ∈ as, g.FromSource rates a) {a a' : Arrival} (ha : a ∈ as) (ha' : a' ∈ as)
    (heq : a.producer.source = a'.producer.source) : a.producer = a'.producer := by
  rw [(has.brings a ha).source, (has.brings a' ha').source] at heq
  have hsource := ConnectionEnd.str_injective heq
  obtain ⟨context, hcontext, hproducer⟩ := hsources a ha
  obtain ⟨context', hcontext', hproducer'⟩ := hsources a' ha'
  rw [hsource, hcontext', Except.ok.injEq] at hcontext
  rw [hproducer, hproducer', hsource, hcontext]

/-- **The rows of an analysis are legible.** -/
theorem legible_of_madeOf (has : g.ArrivalsOf rates as)
    (hsources : ∀ a ∈ as, g.FromSource rates a) (hr : row.MadeOf as) {v : Bool}
    (hplain : row.Plain v) : row.Legible where
  destination := hplain.named
  fed := by
    obtain ⟨a, ha⟩ := List.exists_mem_of_ne_nil _ hr.arrives
    obtain ⟨e, he⟩ := a.exists_entry
    obtain ⟨group, hgroup, _⟩ := exists_group hr ha he
    exact List.ne_nil_of_mem hgroup
  ports group hgroup := by
    obtain ⟨a, ha, e, he, hkey, _⟩ := hr.of_mem_inboundPorts hgroup
    have hqueue := (has.brings a (mem_arrivalsAt.mp ha).1).queue
    have htype : group.dataType = a.dataType :=
      (congrArg Prod.snd hkey).symm.trans (InstanceInfo.dataType_of_mem he)
    refine ⟨(hplain.groups group hgroup).1, ?_, ?_⟩
    · rw [htype]
      exact (queueOf_eq_some_iff.mp hqueue).2.2.2
    · intro hnil
      have hperm := hr.producers_perm hgroup
      rw [hnil] at hperm
      exact producersAt_ne_nil hr hgroup hperm.symm.eq_nil
  sources group hgroup p hp := by
    obtain ⟨a, ha, rfl⟩ := exists_arrival_of_producer hr hgroup hp
    rw [(has.brings a ha).source]
    exact str_ne_empty _
  apart group hgroup := by
    rw [((hr.producers_perm hgroup).map InboundProducer.source).nodup_iff]
    exact nodup_producersAt
  agree group hgroup group' hgroup' p hp p' hp' heq := by
    obtain ⟨a, ha, rfl⟩ := exists_arrival_of_producer hr hgroup hp
    obtain ⟨a', ha', rfl⟩ := exists_arrival_of_producer hr hgroup' hp'
    exact producer_eq_of_source has hsources ha ha' heq

end LoadedTopology

/-! ## Hiding the drop ports -/

/-- What is left of a row: some of its ports, and its names. -/
theorem of_hideDropPorts {sums : Rounding.SumOf} {row row' : QueueGroup}
    (h : hideDropPorts sums row = some row') :
    row'.inboundPorts.Sublist row.inboundPorts ∧ row'.inboundPorts ≠ []
      ∧ row'.destination = row.destination ∧ row'.destinationType = row.destinationType
      ∧ row'.drainDrainSource = row.drainDrainSource := by
  unfold hideDropPorts at h
  dsimp only at h
  split at h
  · cases h
  · rename_i hne
    obtain rfl := Option.some.inj h
    exact ⟨List.filter_sublist, hne, rfl, rfl, rfl⟩

/-- It is as legible as before. -/
theorem QueueGroup.Legible.hideDropPorts {sums : Rounding.SumOf} {row row' : QueueGroup}
    (h : row.Legible) (hhide : hideDropPorts sums row = some row') : row'.Legible := by
  obtain ⟨hsub, hne, hdest, _, _⟩ := of_hideDropPorts hhide
  exact ⟨hdest ▸ h.destination, hne, fun group hgroup => h.ports group (hsub.subset hgroup),
    fun group hgroup => h.sources group (hsub.subset hgroup),
    fun group hgroup => h.apart group (hsub.subset hgroup),
    fun group hgroup group' hgroup' =>
      h.agree group (hsub.subset hgroup) group' (hsub.subset hgroup')⟩

/-- And as plain. -/
theorem QueueGroup.Plain.hideDropPorts {sums : Rounding.SumOf} {row row' : QueueGroup} {v : Bool}
    (h : row.Plain v) (hhide : hideDropPorts sums row = some row') : row'.Plain v := by
  obtain ⟨hsub, _, hdest, htype, hdrain⟩ := of_hideDropPorts hhide
  exact ⟨hdest ▸ h.named, hdest ▸ h.destination, htype ▸ h.destinationType, hdrain ▸ h.drainSource,
    fun group hgroup => h.groups group (hsub.subset hgroup),
    fun group hgroup => h.producers group (hsub.subset hgroup)⟩

/-! ## The order of the ports -/

section Order

variable {row : QueueGroup}

/-- The highest priority that feeds a type of message. -/
def QueueGroup.topPriority (row : QueueGroup) (dataType : String) : Option Int :=
  (((row.inboundPorts.filter fun group => group.dataType = dataType).flatMap
    InboundAsyncPortGroup.producers).filterMap InboundProducer.threadPriority).max?

/-- One round raises the maximum of its type. -/
theorem join_get?_noteMax (maxima : Dict String (Option Int)) (group : InboundAsyncPortGroup)
    (dataType : String) :
    ((noteMax maxima group).get? dataType).join
      = if group.dataType = dataType then
          ((maxima.get? dataType).join).merge max (groupMax group)
        else (maxima.get? dataType).join := by
  unfold noteMax
  by_cases htype : group.dataType = dataType
  · subst htype
    rw [if_pos rfl]
    cases hknown : (maxima.get? group.dataType).join with
    | none => simp
    | some known =>
      cases hmost : groupMax group with
      | none => simp [hknown]
      | some most =>
        by_cases hlt : known < most
        · simp [hlt, max_eq_right hlt.le]
        · simp [hlt, hknown, max_eq_left (not_lt.mp hlt)]
  · rw [if_neg htype]
    have hother : ∀ most : Option Int,
        ((maxima.set group.dataType most).get? dataType).join = (maxima.get? dataType).join := by
      intro most
      rw [Dict.get?_set, if_neg (Ne.symm htype)]
    split
    · exact hother _
    · split
      · rfl
      · split
        · exact hother _
        · rfl

theorem max?_append (xs ys : List Int) : (xs ++ ys).max? = xs.max?.merge max ys.max? := by
  induction xs with
  | nil => simp
  | cons x xs ih =>
    rw [List.cons_append, List.max?_cons, List.max?_cons, ih]
    cases xs.max? <;> cases ys.max? <;> simp [max_assoc]

/-- **The table of the loop has the highest priority of each type.** -/
theorem typeMax_eq (row : QueueGroup) : typeMax row = row.topPriority := by
  have hfold : ∀ (groups : List InboundAsyncPortGroup) (maxima : Dict String (Option Int))
      (dataType : String),
      ((groups.foldl noteMax maxima).get? dataType).join
        = ((maxima.get? dataType).join).merge max
            ((((groups.filter fun group => group.dataType = dataType).flatMap
              InboundAsyncPortGroup.producers).filterMap InboundProducer.threadPriority).max?) := by
    intro groups
    induction groups with
    | nil => simp
    | cons group groups ih =>
      intro maxima dataType
      rw [List.foldl_cons, ih, join_get?_noteMax]
      by_cases htype : group.dataType = dataType
      · rw [if_pos htype, List.filter_cons_of_pos (by simpa using htype), List.flatMap_cons,
          List.filterMap_append, max?_append, ← groupMax]
        cases (maxima.get? dataType).join <;> cases groupMax group <;>
          cases (((groups.filter fun group => group.dataType = dataType).flatMap
            InboundAsyncPortGroup.producers).filterMap InboundProducer.threadPriority).max? <;>
          simp [max_assoc]
      · rw [if_neg htype, List.filter_cons_of_neg (by simpa using htype)]
  funext dataType
  rw [typeMax, maxPrioByType, hfold]
  simp [QueueGroup.topPriority]

theorem nameLe_total (a b : InboundAsyncPortGroup) : nameLe a b ∨ nameLe b a := by
  unfold nameLe
  rcases lt_trichotomy a.dataType b.dataType with h | h | h
  · exact .inl (.inl h)
  · rcases le_total a.destinationPort b.destinationPort with hport | hport
    · exact .inl (.inr ⟨h, hport⟩)
    · exact .inr (.inr ⟨h.symm, hport⟩)
  · exact .inr (.inl h)

theorem nameLe.trans {a b c : InboundAsyncPortGroup} (hab : nameLe a b) (hbc : nameLe b c) :
    nameLe a c := by
  rcases hab with hab | ⟨hab, hport⟩
  · rcases hbc with hbc | ⟨hbc, _⟩
    · exact .inl (hab.trans hbc)
    · exact .inl (hbc ▸ hab)
  · rcases hbc with hbc | ⟨hbc, hport'⟩
    · exact .inl (hab ▸ hbc)
    · exact .inr ⟨hab.trans hbc, hport.trans hport'⟩

variable (top : String → Option Int)

instance : Std.Total (groupLe top) where
  total a b := by
    unfold groupLe
    cases top a.dataType with
    | none =>
      cases top b.dataType with
      | none => exact nameLe_total a b
      | some y => exact .inr trivial
    | some x =>
      cases top b.dataType with
      | none => exact .inl trivial
      | some y =>
        rcases lt_trichotomy x y with h | rfl | h
        · exact .inr (.inl h)
        · exact (nameLe_total a b).imp (fun hab => .inr ⟨rfl, hab⟩) fun hba => .inr ⟨rfl, hba⟩
        · exact .inl (.inl h)

instance : IsTrans InboundAsyncPortGroup (groupLe top) where
  trans a b c := by
    unfold groupLe
    cases top a.dataType with
    | none =>
      cases top b.dataType with
      | none =>
        cases top c.dataType with
        | none => exact nameLe.trans
        | some z => exact fun _ h => h
      | some y => exact fun h => h.elim
    | some x =>
      cases top b.dataType with
      | none =>
        cases top c.dataType with
        | none => exact fun _ _ => trivial
        | some z => exact fun _ h => h.elim
      | some y =>
        cases top c.dataType with
        | none => exact fun _ _ => trivial
        | some z =>
          intro hab hbc
          rcases hab with hab | ⟨rfl, hab⟩
          · rcases hbc with hbc | ⟨rfl, _⟩
            · exact .inl (hbc.trans hab)
            · exact .inl hab
          · rcases hbc with hbc | ⟨rfl, hbc⟩
            · exact .inl hbc
            · exact .inr ⟨rfl, hab.trans hbc⟩

/-- The producers of a port that are not hidden. -/
def QueueGroup.unhidden (row : QueueGroup) (hideGreenRows : Bool) (group : InboundAsyncPortGroup) :
    List InboundProducer :=
  group.producers.filter fun p => ¬ (hideGreenRows ∧ producerEmoji row p = "🟢")

/-- The ports of a row as the table is to have them: those with a producer to
be seen, once each and with all of these, by the highest priority of their
type. -/
structure QueueGroup.InOrder (row : QueueGroup) (hideGreenRows : Bool)
    (shown : List (InboundAsyncPortGroup × List InboundProducer)) : Prop where
  groups : ∀ group producers, (group, producers) ∈ shown
    ↔ group ∈ row.inboundPorts ∧ producers = row.unhidden hideGreenRows group ∧ producers ≠ []
  once : (shown.map fun e => e.1.destinationPort).Nodup
  order : (shown.map Prod.fst).Pairwise (groupLe row.topPriority)

/-- **The ports are in order.** -/
theorem inOrder_visible (hnodup : (row.inboundPorts.map InboundAsyncPortGroup.destinationPort).Nodup)
    (hideGreenRows : Bool) : row.InOrder hideGreenRows (row.visible hideGreenRows) := by
  have hsub : ((row.visible hideGreenRows).map Prod.fst).Sublist
      (row.inboundPorts.insertionSort (groupLe (typeMax row))) := by
    have hmap := (@List.filter_sublist _ (fun e : InboundAsyncPortGroup × List InboundProducer =>
      e.2 ≠ []) ((row.inboundPorts.insertionSort (groupLe (typeMax row))).map fun group =>
        (group, row.unhidden hideGreenRows group))).map Prod.fst
    rwa [List.map_map, show Prod.fst ∘ (fun group => (group, row.unhidden hideGreenRows group))
      = id from rfl, List.map_id] at hmap
  refine ⟨fun group producers => ?_, ?_, ?_⟩
  · rw [QueueGroup.visible, List.mem_filter, List.mem_map]
    constructor
    · rintro ⟨⟨group', hgroup, heq⟩, hne⟩
      obtain ⟨rfl, rfl⟩ := Prod.mk.inj heq
      exact ⟨(List.mem_insertionSort _).mp hgroup, rfl, by simpa using hne⟩
    · rintro ⟨hgroup, rfl, hne⟩
      exact ⟨⟨group, (List.mem_insertionSort _).mpr hgroup, rfl⟩, by simpa using hne⟩
  · have hports := hsub.map InboundAsyncPortGroup.destinationPort
    rw [List.map_map] at hports
    exact (((List.perm_insertionSort _ _).map _).nodup_iff.mpr hnodup).sublist hports
  · rw [← typeMax_eq]
    exact (List.pairwise_insertionSort (groupLe (typeMax row)) row.inboundPorts).sublist hsub

end Order

/-! ## The table of an analysis -/

namespace LoadedTopology

variable {g : LoadedTopology} {rates : RateModel}

/-- **The table of an analysis is exact.** What is read off it is every row
with something to be seen, in the order of the report: the cells of its
queue, its ports and their producers, and its statuses. This is so whatever
the columns and the layout, with the drop ports or without them. -/
theorem table_exact {rows : List QueueGroup} (h : g.analyze rates = .ok rows)
    (opts : RenderOptions) (hnames : ∀ e ∈ opts.rateGroups.entries, IsPlain e.1)
    (hplain : ∀ row ∈ rows, row.Plain opts.producerVerbose) (sums : Rounding.SumOf) :
    ∀ report ∈ [rows, filterDropPorts sums rows],
      readTable opts (renderMarkdown opts report) = (visibleRows opts report).map (tableRow opts)
        ∧ ∀ row ∈ report, row.InOrder opts.hideGreenRows (row.visible opts.hideGreenRows) := by
  obtain ⟨as, has, hsources, hrows⟩ := analyze_producers h
  have hmade : ∀ row ∈ rows, row.MadeOf as := fun row hrow => madeOf_of_mem_rows (hrows ▸ hrow)
  have hlegible : ∀ row ∈ rows, row.Legible := fun row hrow =>
    legible_of_madeOf has hsources (hmade row hrow) (hplain row hrow)
  have hnodup : ∀ row ∈ rows,
      (row.inboundPorts.map InboundAsyncPortGroup.destinationPort).Nodup := fun row hrow =>
    nodup_destinationPorts has (hmade row hrow)
  intro report hreport
  rcases List.mem_pair.mp hreport with rfl | rfl
  · exact ⟨readTable_renderMarkdown hnames hlegible hplain, fun row hrow =>
      inOrder_visible (hnodup row hrow) opts.hideGreenRows⟩
  · have hfrom : ∀ row' ∈ filterDropPorts sums rows, ∃ row ∈ rows,
        hideDropPorts sums row = some row' :=
      fun row' hrow' => List.mem_filterMap.mp hrow'
    refine ⟨readTable_renderMarkdown hnames (fun row' hrow' => ?_) fun row' hrow' => ?_,
      fun row' hrow' => inOrder_visible ?_ opts.hideGreenRows⟩
    · obtain ⟨row, hrow, hhide⟩ := hfrom row' hrow'
      exact (hlegible row hrow).hideDropPorts hhide
    · obtain ⟨row, hrow, hhide⟩ := hfrom row' hrow'
      exact (hplain row hrow).hideDropPorts hhide
    · obtain ⟨row, hrow, hhide⟩ := hfrom row' hrow'
      exact (hnodup row hrow).sublist ((of_hideDropPorts hhide).1.map _)

end LoadedTopology

/-- The table of a logger with two commands, green producers hidden. -/
theorem table_exact_uplink :
    ∃ rows, (uplinkTopology (.ofList [("START", {.async}), ("STOP", {.async})])).analyze uplinkRates
        = .ok rows
      ∧ ∀ report ∈ [rows, filterDropPorts .plain rows],
        readTable { includeRates := true, hideGreenRows := true }
            (renderMarkdown { includeRates := true, hideGreenRows := true } report)
          = (visibleRows { includeRates := true, hideGreenRows := true } report).map
            (tableRow { includeRates := true, hideGreenRows := true })
        ∧ ∀ row ∈ report, row.InOrder true (row.visible true) := by
  have hrows : ∃ rows,
      (uplinkTopology (.ofList [("START", {.async}), ("STOP", {.async})])).analyze uplinkRates
        = .ok rows ∧ ∀ row ∈ rows, row.Plain false := by
    refine ⟨_, rfl, fun row hrow => ?_⟩
    obtain rfl := List.mem_singleton.mp hrow
    exact ⟨by decide +kernel, by decide +kernel, by decide +kernel, by decide +kernel,
      by decide +kernel, by decide +kernel⟩
  obtain ⟨rows, hanalyze, hplain⟩ := hrows
  exact ⟨rows, hanalyze, LoadedTopology.table_exact hanalyze _ (by decide) hplain .plain⟩

end FprimeTopologyAnalysis
