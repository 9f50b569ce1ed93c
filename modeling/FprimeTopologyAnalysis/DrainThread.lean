/-
FprimeTopologyAnalysis.DrainThread — which task services an instance
(`_queued_drain_info`, `infer_instance_thread_info` of
`async_queue_analyzer.py`), and what that makes of the thread labels of a
live cycle.

The two analyses tell threads apart differently. To the queue analysis a
queued instance has no task of its own: it is drained by whoever is wired
to its `run` or `schedIn` port, and the search goes on there.
`ServicedBy` is where it ends. To the deadlock analysis every active or
queued instance is a thread of its own (`is_own_thread`), and a real thread
is a `<thread:...>` origin. So the labels of two active instances are two
tasks, and a queued instance's label can be the task of another
(`abba_one_task`).
-/
import FprimeTopologyAnalysis.EdgeChains
import FprimeTopologyAnalysis.TopologyModel

namespace FprimeTopologyAnalysis

open Library

/-! ## The inference -/

/-- The kinds of an `InstanceThreadInfo`. -/
inductive ThreadKind where
  | active
  | queued
  | passive
  | unknown
  deriving DecidableEq

/-- `InstanceThreadInfo`. -/
structure InstanceThreadInfo where
  kind : ThreadKind
  context : String
  priority : Option Int
  drainSource : Option String
  deriving DecidableEq

/-- The answer without a thread. -/
def InstanceThreadInfo.unknown (context : String) : InstanceThreadInfo :=
  ⟨.unknown, context, none, none⟩

/-- The answer for an active instance. -/
def InstanceThreadInfo.active (priority : Option Int) : InstanceThreadInfo :=
  ⟨.active,
    match priority with
    | none => "active thread (priority unknown)"
    | some priority => "active thread priority " ++ toString priority,
    priority, none⟩

/-- The answer for a queued instance that `source` drains at `priority`. -/
def InstanceThreadInfo.queued (source : ConnectionEnd) (priority : Option Int) :
    InstanceThreadInfo :=
  ⟨.queued,
    match priority with
    | none => "queued drain via " ++ source.str
    | some priority => "queued drain via " ++ source.str ++ " (priority " ++ toString priority ++ ")",
    priority, some source.str⟩

/-- `QUEUED_DRAIN_PORTS`. -/
def queuedDrainPorts : List String := ["run", "schedin"]

/-- `port.lower()`, of a name in ASCII. -/
def lowerName (port : PortName) : String := String.ofList (port.str.toList.map Char.toLower)

/-- `cache`: the answers given so far. -/
abbrev ThreadCache := Dict String InstanceThreadInfo

namespace LoadedTopology

variable (g : LoadedTopology)

/-- The connections that drain a queued instance, by their sources. -/
def drains (name : String) : List Connection :=
  (g.connectionList.filter fun c =>
    c.dest.port.inst = name ∧ lowerName c.dest.port.port ∈ queuedDrainPorts).insertionSort
      fun a b => a.source.str ≤ b.source.str

/-- `drains[0].source`. -/
def drainSource (name : String) : Option ConnectionEnd :=
  (g.drains name).head?.map Connection.source

/-- `_queued_drain_info`, where `infer` answers for the caller. -/
def queuedDrainInfo (infer : Option String → ThreadCache → InstanceThreadInfo × ThreadCache)
    (name : String) (cache : ThreadCache) : InstanceThreadInfo × ThreadCache :=
  match g.drainSource name with
  | none => (⟨.queued, "queued drain context unknown", none, none⟩, cache)
  | some source =>
    let (caller, cache) := infer (some source.port.inst) cache
    (.queued source caller.priority, cache)

/-- `infer_instance_thread_info`, to a depth of `fuel` calls. A call takes
its own name out of `visiting` again, so the caller sees the set it had. -/
def inferWithin : Nat → Finset String → Option String → ThreadCache →
    InstanceThreadInfo × ThreadCache
  | 0, _, _, cache => (.unknown "thread context unknown", cache)
  | _ + 1, _, none, cache => (.unknown "thread context unknown", cache)
  | fuel + 1, visiting, some name, cache =>
    match g.instances.get? name with
    | none => (.unknown "thread context unknown", cache)
    | some info =>
      match cache.get? name with
      | some result => (result, cache)
      | none =>
        if name ∈ visiting then (.unknown "drain context cycle detected", cache)
        else
          let (result, cache) :=
            match info.kind with
            | .active => (InstanceThreadInfo.active info.taskPriority, cache)
            | .queued => g.queuedDrainInfo (inferWithin fuel (insert name visiting)) name cache
            | .passive => (⟨.passive, "passive component context", none, none⟩, cache)
          (result, cache.set name result)

/-- `infer_instance_thread_info`. No instance is visited twice, so their
number bounds the depth (`inferWithin_fuel`). -/
def inferInstanceThreadInfo (name : Option String) (cache : ThreadCache) :
    InstanceThreadInfo × ThreadCache :=
  g.inferWithin (g.instances.keys.length + 1) ∅ name cache

/-- The instances that are not being visited. -/
def unvisited (visiting : Finset String) : Finset String :=
  g.instances.keys.toFinset \ visiting

variable {g} in
/-- A visit leaves fewer. -/
theorem card_unvisited_insert {name : String} {info : InstanceInfo}
    (hget : g.instances.get? name = some info) {visiting : Finset String} (hnot : name ∉ visiting) :
    (g.unvisited (insert name visiting)).card < (g.unvisited visiting).card := by
  have hmem : name ∈ g.unvisited visiting := by
    rw [unvisited, Finset.mem_sdiff, List.mem_toFinset]
    exact ⟨Dict.mem_keys_of_get? hget, hnot⟩
  have hsub : g.unvisited (insert name visiting) ⊆ g.unvisited visiting :=
    Finset.sdiff_subset_sdiff (Finset.Subset.refl _) (Finset.subset_insert _ _)
  refine Finset.card_lt_card ((Finset.ssubset_iff_of_subset hsub).mpr ⟨name, hmem, ?_⟩)
  simp [unvisited]

/-- **The depth is enough**: with a call for each instance not yet visited,
more make no difference. -/
theorem inferWithin_fuel : ∀ (fuel fuel' : Nat) (visiting : Finset String) (name : Option String)
    (cache : ThreadCache), (g.unvisited visiting).card < fuel → (g.unvisited visiting).card < fuel' →
    g.inferWithin fuel visiting name cache = g.inferWithin fuel' visiting name cache
  | 0, _, _, _, _, h, _ => by omega
  | _, 0, _, _, _, _, h => by omega
  | _ + 1, _ + 1, _, none, _, _, _ => rfl
  | fuel + 1, fuel' + 1, visiting, some name, cache, h, h' => by
      rw [inferWithin, inferWithin]
      cases hget : g.instances.get? name with
      | none => rfl
      | some info =>
        dsimp only
        cases cache.get? name with
        | some result => rfl
        | none =>
          dsimp only
          split
          · rfl
          · rename_i hnot
            have hlt := card_unvisited_insert hget hnot
            have ih : g.inferWithin fuel (insert name visiting)
                = g.inferWithin fuel' (insert name visiting) := by
              funext caller cache
              exact inferWithin_fuel fuel fuel' _ caller cache (by omega) (by omega)
            rw [ih]

/-! ## The servicing task -/

/-- An instance's servicing task: its own when it is active, and that of
whoever drains it when it is queued. -/
inductive ServicedBy : String → String → Prop
  | active {name : String} {info : InstanceInfo} :
      g.instances.get? name = some info → info.kind = .active → ServicedBy name name
  | queued {name task : String} {info : InstanceInfo} {source : ConnectionEnd} :
      g.instances.get? name = some info → info.kind = .queued →
      g.drainSource name = some source → ServicedBy source.port.inst task → ServicedBy name task

variable {g}

/-- There is one task for an instance. -/
theorem ServicedBy.unique {name task task' : String} (h : g.ServicedBy name task)
    (h' : g.ServicedBy name task') : task = task' := by
  induction h with
  | active hget hk =>
    cases h' with
    | active _ _ => rfl
    | queued hget' hk' _ _ =>
      obtain rfl := Option.some.inj (hget.symm.trans hget')
      rw [hk] at hk'
      cases hk'
  | queued hget hk hdrain _ ih =>
    cases h' with
    | active hget' hk' =>
      obtain rfl := Option.some.inj (hget.symm.trans hget')
      rw [hk] at hk'
      cases hk'
    | queued _ _ hdrain' hrest' =>
      obtain rfl := Option.some.inj (hdrain.symm.trans hdrain')
      exact ih hrest'

/-- `caller` drains the queued instance `name`. -/
def DrainedBy (g : LoadedTopology) (name caller : String) : Prop :=
  ∃ info source, g.instances.get? name = some info ∧ info.kind = .queued
    ∧ g.drainSource name = some source ∧ source.port.inst = caller

/-- A drain chain that ends at a task does not come back. -/
theorem ServicedBy.acyclic {name task : String} (h : g.ServicedBy name task) :
    ¬ Relation.TransGen g.DrainedBy name name := by
  induction h with
  | active hget hk =>
    intro hloop
    obtain ⟨_, ⟨info', _, hget', hk', _⟩, _⟩ := Relation.TransGen.head'_iff.mp hloop
    obtain rfl := Option.some.inj (hget.symm.trans hget')
    rw [hk] at hk'
    cases hk'
  | queued hget hk hdrain _ ih =>
    intro hloop
    obtain ⟨caller, hstep, hback⟩ := Relation.TransGen.head'_iff.mp hloop
    have ⟨_, _, _, _, hdrain', hcaller⟩ := hstep
    obtain rfl := Option.some.inj (hdrain.symm.trans hdrain')
    subst hcaller
    exact ih (Relation.TransGen.tail' hback hstep)

theorem ServicedBy.inferWithin {name task : String} (h : g.ServicedBy name task) :
    ∀ (fuel : Nat) (visiting : Finset String), (g.unvisited visiting).card < fuel →
      (∀ v ∈ visiting, Relation.TransGen g.DrainedBy v name) →
      ∃ info, g.instances.get? task = some info ∧ info.kind = .active
        ∧ (g.inferWithin fuel visiting (some name) ∅).1.priority = info.taskPriority := by
  induction h with
  | active hget hk =>
    intro fuel visiting hfuel hvisiting
    obtain ⟨fuel, rfl⟩ := Nat.exists_eq_succ_of_ne_zero (Nat.ne_of_gt (Nat.zero_lt_of_lt hfuel))
    have hnot : _ ∉ visiting := fun hmem => (ServicedBy.active hget hk).acyclic (hvisiting _ hmem)
    refine ⟨_, hget, hk, ?_⟩
    rw [LoadedTopology.inferWithin, hget]
    simp [hnot, hk, InstanceThreadInfo.active]
  | @queued name _ _ _ hget hk hdrain hrest ih =>
    intro fuel visiting hfuel hvisiting
    obtain ⟨fuel, rfl⟩ := Nat.exists_eq_succ_of_ne_zero (Nat.ne_of_gt (Nat.zero_lt_of_lt hfuel))
    have hnot : name ∉ visiting :=
      fun hmem => (ServicedBy.queued hget hk hdrain hrest).acyclic (hvisiting _ hmem)
    have hstep : g.DrainedBy name _ := ⟨_, _, hget, hk, hdrain, rfl⟩
    have hlt := card_unvisited_insert hget hnot
    obtain ⟨info, htask, hactive, hpriority⟩ :=
      ih fuel (insert name visiting) (by omega) fun v hv => by
      rcases Finset.mem_insert.mp hv with rfl | hv
      · exact .single hstep
      · exact (hvisiting v hv).tail hstep
    refine ⟨info, htask, hactive, ?_⟩
    rw [LoadedTopology.inferWithin, hget]
    simpa [hnot, hk, queuedDrainInfo, hdrain, InstanceThreadInfo.queued] using hpriority

/-- **The inference follows the drain chain**: for an instance whose chain
ends at an active one, it answers with that task's priority. -/
theorem infer_of_servicedBy {name task : String} (h : g.ServicedBy name task) :
    ∃ info, g.instances.get? task = some info ∧ info.kind = .active
      ∧ (g.inferInstanceThreadInfo (some name) ∅).1.priority = info.taskPriority := by
  refine h.inferWithin _ ∅ ?_ (fun v hv => absurd hv (Finset.notMem_empty v))
  have hcard : (g.unvisited ∅).card ≤ g.instances.keys.length := by
    unfold unvisited
    rw [Finset.sdiff_empty]
    exact List.toFinset_card_le _
  omega

end LoadedTopology

/-! ## The labels of a live cycle -/

/-- `x` is an active or queued instance with an async input: its label is a
thread to the deadlock analysis. -/
def OwnQueue (g : TopologyGraph) (x : String) : Prop :=
  ∃ info port, g.instances.get? x = some info ∧ info.isOwnThread ∧ .async ∈ info.kindsOf port

/-- A label that reaches a port is seeded at its instance. -/
theorem TopologyGraph.LandsOn.ownQueue {g : TopologyGraph} {x : String} {p : PortKey}
    (h : g.LandsOn (.thread x) p) : OwnQueue g x := by
  have hseeds : ∀ port kind, g.Seeds (.thread x) port kind → OwnQueue g x := by
    rintro port kind ⟨info, hget, hmem, ⟨rfl, hown, ho⟩ | ⟨_, _, ho⟩⟩
    · obtain rfl : x = port.inst := by simpa using ho
      exact ⟨info, port.port, hget, hown, hmem⟩
    · cases ho
  rcases h with ⟨kind, hseed⟩ | ⟨_, ⟨port, kind, hseed, _⟩, _⟩
  · exact hseeds _ _ hseed
  · exact hseeds _ _ hseed

/-- The instance is queued. -/
def IsQueued (g : TopologyGraph) (x : String) : Prop :=
  ∃ info, g.instances.get? x = some info ∧ info.kind = .queued

/-- **The labels behind a live cycle.** Whenever a run reports an ABBA, two
of its edges carry different `<thread:...>` labels, each of an active or
queued instance with an async input. Unless one of the two is queued, they
are serviced by different tasks. -/
theorem abba_thread_labels (g : LoadedTopology) (cfg : AnalyzerSettings) (s : BuildState)
    (hrun : run g.toTopologyGraph cfg = (.ok (), s)) (f : Finding) (hf : f ∈ s.analyzer.findings)
    (hk : f.kind = .abba) :
    ∃ e ∈ f.edges, ∃ e' ∈ f.edges, (e.holder, e.acquired) ≠ (e'.holder, e'.acquired)
      ∧ ∃ x y, x ≠ y ∧ .thread x ∈ e.threads ∧ .thread y ∈ e'.threads
        ∧ OwnQueue g.toTopologyGraph x ∧ OwnQueue g.toTopologyGraph y
        ∧ (IsQueued g.toTopologyGraph x ∨ IsQueued g.toTopologyGraph y
          ∨ ∃ t u, g.ServicedBy x t ∧ g.ServicedBy y u ∧ t ≠ u) := by
  obtain ⟨a, hdetect, hsound, _⟩ := run_built hrun
  rw [hdetect] at hf
  rcases detectCycles_sound hf with hold | ⟨cycle, _, _, hd, rfl⟩
  · obtain ⟨_, _, hself⟩ := hsound.findings f hold
    rw [hself.kind] at hk
    cases hk
  · obtain ⟨p, hp, q, hq, hpq, e, e', he, he', x, y, hx, hy, hxy⟩ := hd
    have hkey := (hsound.edges p e he).key_eq
    have hkey' := (hsound.edges q e' he').key_eq
    have hown : ∀ {key edge} {z : String}, a.lockEdges.get? key = some edge →
        .thread z ∈ edge.threads → OwnQueue g.toTopologyGraph z := by
      intro key edge z hget hz
      obtain ⟨_, _, _, hreach⟩ := (hsound.edges key edge hget).threads _ hz
      exact (hreach.resolve_right fun h => nomatch h.1).ownQueue
    have htask : ∀ {z}, OwnQueue g.toTopologyGraph z →
        IsQueued g.toTopologyGraph z ∨ g.ServicedBy z z := by
      rintro z ⟨info, _, hget, hthread, _⟩
      cases hkind : info.kind with
      | active => exact .inr (.active hget hkind)
      | passive => simp [InstanceInfo.isOwnThread, hkind] at hthread
      | queued => exact .inl ⟨info, hget, hkind⟩
    refine ⟨e, List.mem_filterMap.mpr ⟨p, hp, he⟩, e', List.mem_filterMap.mpr ⟨q, hq, he'⟩, ?_,
      x, y, hxy, hx, hy, hown he hx, hown he' hy, ?_⟩
    · rw [hkey, hkey']
      exact hpq
    · rcases htask (hown he hx) with hqx | hx'
      · exact .inl hqx
      · rcases htask (hown he' hy) with hqy | hy'
        · exact .inr (.inl hqy)
        · exact .inr (.inr ⟨x, y, hx', hy', hxy⟩)

/-! A queued instance and the active one that drains it, each calling into
the other's mutex. -/

/-- An active instance that calls its neighbour. -/
def drainingComponent : ComponentInstance where
  qualifiedName := "a"
  kind := .active
  portMap := .ofList [(.go, .general .input .asyncInput),
    (.gIn, .general .input .guardedInput), (.out, .general .output .output)]

/-- A queued instance that does so too. -/
def drainedComponent : ComponentInstance where
  qualifiedName := "q"
  kind := .queued
  portMap := .ofList [(.go, .general .input .asyncInput),
    (.gIn, .general .input .guardedInput), (.run, .general .input .syncInput),
    (.out, .general .output .output)]

/-- A connection from `out`. -/
def wireOut (source dest : ComponentInstance) (port : PortName) : ModelConnection where
  fromEndpoint := some ⟨.component source, .out, none⟩
  toEndpoint := some ⟨.component dest, port, none⟩

def drainedTopology : Topology where
  instanceMap := [.component drainingComponent, .component drainedComponent]
  outputConnectionMap := [
    [wireOut drainingComponent drainedComponent .gIn, wireOut drainingComponent drainedComponent .run],
    [wireOut drainedComponent drainingComponent .gIn]]
  nodupNames := by decide

/-- The topology as it is loaded. -/
def drainedGraph : LoadedTopology := drainedTopology.load (.permissive ∅)

theorem drainedGraph_servicedBy :
    drainedGraph.ServicedBy "a" "a" ∧ drainedGraph.ServicedBy "q" "a" := by
  have hactive : drainedGraph.instances.get? "a" = some drainingComponent.info := by decide +kernel
  have hqueued : drainedGraph.instances.get? "q" = some drainedComponent.info := by decide +kernel
  have ha : drainedGraph.ServicedBy "a" "a" := .active hactive rfl
  have hdrain : drainedGraph.drainSource "q" = some ⟨⟨"a", .out⟩, none⟩ := by decide +kernel
  exact ⟨ha, .queued hqueued rfl hdrain ha⟩

/-- The cycle is reported as live, and every thread on its edges is
serviced by the one task of `a`. -/
theorem abba_one_task :
    (run drainedGraph.toTopologyGraph {}).1 = .ok ()
      ∧ ∃ f ∈ (run drainedGraph.toTopologyGraph {}).2.analyzer.findings, f.kind = .abba
        ∧ ∀ edge ∈ f.edges, ∀ x, .thread x ∈ edge.threads →
          ∀ task, drainedGraph.ServicedBy x task ↔ task = "a" := by
  have hfound : (run drainedGraph.toTopologyGraph {}).1 = .ok ()
      ∧ ∃ f ∈ (run drainedGraph.toTopologyGraph {}).2.analyzer.findings, f.kind = .abba
        ∧ ∀ edge ∈ f.edges, edge.threads ⊆ {.thread "a", .thread "q"} := by
    decide +kernel
  obtain ⟨hok, f, hf, hk, hall⟩ := hfound
  refine ⟨hok, f, hf, hk, fun edge hedge x hx task => ?_⟩
  have hserviced : drainedGraph.ServicedBy x "a" := by
    have hx := hall edge hedge hx
    simp only [Finset.mem_insert, Finset.mem_singleton, Origin.thread.injEq] at hx
    rcases hx with rfl | rfl
    · exact drainedGraph_servicedBy.1
    · exact drainedGraph_servicedBy.2
  constructor
  · exact fun h => h.unique hserviced
  · rintro rfl
    exact hserviced

theorem abba_thread_labels_drained :
    ∃ f ∈ (run drainedGraph.toTopologyGraph {}).2.analyzer.findings,
      ∃ e ∈ f.edges, ∃ e' ∈ f.edges, (e.holder, e.acquired) ≠ (e'.holder, e'.acquired)
        ∧ ∃ x y, x ≠ y ∧ .thread x ∈ e.threads ∧ .thread y ∈ e'.threads
          ∧ OwnQueue drainedGraph.toTopologyGraph x ∧ OwnQueue drainedGraph.toTopologyGraph y
          ∧ (IsQueued drainedGraph.toTopologyGraph x ∨ IsQueued drainedGraph.toTopologyGraph y
            ∨ ∃ t u, drainedGraph.ServicedBy x t ∧ drainedGraph.ServicedBy y u ∧ t ≠ u) := by
  have hfound : (run drainedGraph.toTopologyGraph {}).1 = .ok ()
      ∧ ∃ f ∈ (run drainedGraph.toTopologyGraph {}).2.analyzer.findings, f.kind = .abba := by
    decide +kernel
  obtain ⟨hok, f, hf, hk⟩ := hfound
  exact ⟨f, hf, abba_thread_labels drainedGraph {} _ (Prod.ext hok rfl) f hf hk⟩

end FprimeTopologyAnalysis
