/-
FprimeTopologyAnalysis.ModelOrder — the deadlock report against the order
of the model.

Two models with the same instances and connections are loaded into tables
that are equal as dictionaries (`load_sameTables`). The analyzer reads its
graph by lookup, by `outward_hops`, whose order the sorted destinations
fix, and by the sorted guarded entries, so whatever it does on one graph it
does on the other. Only the propagation of thread origins follows the order
of the instances. Its table is `LandsOn` once it ends well
(`mem_portThreads_iff`), and which handlers it asks for does not depend on
the order either; only which of them raises first does.

An instance brings the order of its ports and of its sets of kinds with it,
whichever that is.
-/
import FprimeTopologyAnalysis.EdgeChains
import FprimeTopologyAnalysis.TopologyModel

namespace FprimeTopologyAnalysis

open Library

/-! ## Graphs with equal tables -/

namespace SameTables

variable {g g' : TopologyGraph}

theorem symm (h : SameTables g g') : SameTables g' g where
  instances name := (h.instances name).symm
  connections port := (h.connections port).symm
  flow := h.flow.symm

/-- The calls out of a handler are the same, in the same order. -/
theorem outwardHops_eq (h : SameTables g g') : g.outwardHops = g'.outwardHops := by
  have hdest : g.destinations = g'.destinations := by
    funext inst outPort
    simp only [TopologyGraph.destinations, h.connections]
  have hfrom : g.hopsFrom = g'.hopsFrom := by
    funext inst outPort
    simp only [TopologyGraph.hopsFrom, hdest, h.instances]
  have houts : g.outputsFor = g'.outputsFor := by
    funext info flowEntry
    simp only [TopologyGraph.outputsFor, h.flow]
  funext inst flowEntry
  simp only [TopologyGraph.outwardHops, h.instances, houts, hfrom]

theorem mem_connectedInputs (h : SameTables g g') (p : PortKey) :
    p ∈ g.connectedInputs ↔ p ∈ g'.connectedInputs := by
  have hperm : g.connectedInputs.Perm g'.connectedInputs :=
    List.Perm.flatten ((Dict.entries_perm h.connections).map Prod.snd)
  exact hperm.mem_iff

/-- The handlers are listed in the order of the instances. -/
theorem handlers_perm (h : SameTables g g') : g.handlers.Perm g'.handlers :=
  (Dict.entries_perm h.instances).flatMap_right _

theorem guardedInputs_eq (h : SameTables g g') : guardedInputs g = guardedInputs g' := by
  have hsorted := Dict.sortedEntries_eq h.instances
  unfold Dict.sortedEntries at hsorted
  rw [guardedInputs, hsorted, guardedInputs]

/-! ## Thread origins -/

theorem hopOut_eq (h : SameTables g g') : g.HopOut = g'.HopOut := by
  funext handler hop
  simp only [TopologyGraph.HopOut, h.outwardHops_eq]

theorem behind_eq (h : SameTables g g') : g.Behind = g'.Behind := by
  funext port kind handler
  simp only [TopologyGraph.Behind, h.instances]

theorem seeds_eq (h : SameTables g g') : g.Seeds = g'.Seeds := by
  funext o port kind
  simp only [TopologyGraph.Seeds, h.instances, h.mem_connectedInputs]

theorem runs_eq (h : SameTables g g') : g.Runs = g'.Runs := by
  have hcalls : g.Calls = g'.Calls := by
    funext handler handler'
    simp only [TopologyGraph.Calls, h.hopOut_eq]
  funext o handler
  simp only [TopologyGraph.Runs, TopologyGraph.EnteredFrom, h.seeds_eq, h.behind_eq, hcalls]

theorem landsOn_eq (h : SameTables g g') : g.LandsOn = g'.LandsOn := by
  funext o p
  simp only [TopologyGraph.LandsOn, TopologyGraph.CallsPort, h.seeds_eq, h.runs_eq, h.hopOut_eq]

/-- The propagations end well together. -/
theorem exists_completeOrigins (h : SameTables g g') (hc : ∃ s, g.CompleteOrigins s) :
    ∃ s', g'.CompleteOrigins s' := by
  rw [TopologyGraph.completeOrigins_iff_runs_resolve] at hc ⊢
  intro o handler hrun
  have hres := hc o handler (h.runs_eq ▸ hrun)
  unfold TopologyGraph.Resolves at hres ⊢
  rwa [← h.outwardHops_eq]

/-- And leave tables that label every port alike. -/
theorem threadsAt_eq (h : SameTables g g') {s s' : OriginState} (hs : g.CompleteOrigins s)
    (hs' : g'.CompleteOrigins s') : s.threadsAt = s'.threadsAt := by
  funext p
  ext o
  rw [TopologyGraph.mem_portThreads_iff hs, TopologyGraph.mem_portThreads_iff hs', h.landsOn_eq]

theorem reachingAt_eq (h : SameTables g g') {s s' : OriginState} (hs : g.CompleteOrigins s)
    (hs' : g'.CompleteOrigins s') : s.reachingAt = s'.reachingAt := by
  funext p
  simp only [OriginState.reachingAt, h.threadsAt_eq hs hs']

end SameTables

/-! ## The table itself -/

/-- A port has an entry once it has an origin. -/
def NoEmptyEntry (s : OriginState) : Prop := ∀ p, s.portThreads.get? p ≠ some ∅

theorem NoEmptyEntry.addOrigin {s : OriginState} (hs : NoEmptyEntry s) (port : PortKey)
    (origin : Origin) : NoEmptyEntry (s.addOrigin port origin) := by
  intro p
  simp only [OriginState.addOrigin, Dict.get?_set]
  split
  · simp
  · exact hs p

theorem NoEmptyEntry.addHops (o : Origin) : ∀ (hops : List OutwardHop) (s : OriginState),
    NoEmptyEntry s → NoEmptyEntry (hops.foldl (fun t hop => t.addOrigin hop.dest o) s)
  | [], _, hs => hs
  | _ :: hops, _, hs => NoEmptyEntry.addHops o hops _ (hs.addOrigin _ _)

/-- One flood keeps it so, also when it raises. -/
theorem NoEmptyEntry.propagateOrigin {g : TopologyGraph} {s : OriginState} (hs : NoEmptyEntry s)
    (o : Origin) (port : PortKey) (kind : SyncKind) :
    NoEmptyEntry (g.propagateOrigin o port kind s).2 := by
  unfold TopologyGraph.propagateOrigin
  cases g.instances.get? port.inst with
  | none => exact hs
  | some info =>
    refine Worklist.run_inv (TopologyGraph.floodRoots info port kind) NoEmptyEntry ?_ _ _ _ _
      (fun h hh => .root hh) (hs.addOrigin _ _)
    intro h r t _ hr ht
    unfold TopologyGraph.floodExpand at hr
    cases hops : g.outwardHops h.1 h.2 with
    | error e => rw [hops] at hr; cases hr
    | ok hs =>
      rw [hops] at hr
      cases hr
      exact ht.addHops _ _ _

/-- An entry of the complete table is what the port is labelled with. -/
theorem TopologyGraph.CompleteOrigins.get?_portThreads {g : TopologyGraph} {s : OriginState}
    (hs : g.CompleteOrigins s) (p : PortKey) :
    s.portThreads.get? p = if s.threadsAt p = ∅ then none else some (s.threadsAt p) := by
  have hno : NoEmptyEntry s := by
    have h := @OriginM.forEach_inv _ (fun o => g.propagateOrigin o.1 o.2.1 o.2.2) NoEmptyEntry
      g.origins (fun _ _ _ ht => ht.propagateOrigin _ _ _) ⟨∅, true⟩ (fun p => by simp)
    unfold TopologyGraph.CompleteOrigins TopologyGraph.computeThreadOrigins at hs
    rw [hs] at h
    exact h
  unfold OriginState.threadsAt
  cases hget : s.portThreads.get? p with
  | none => rfl
  | some origins =>
    have hne : origins ≠ ∅ := fun h => hno p (h ▸ hget)
    simp [hne]

theorem SameTables.get?_portThreads {g g' : TopologyGraph} (h : SameTables g g')
    {s s' : OriginState} (hs : g.CompleteOrigins s) (hs' : g'.CompleteOrigins s') (p : PortKey) :
    s.portThreads.get? p = s'.portThreads.get? p := by
  rw [hs.get?_portThreads, hs'.get?_portThreads, h.threadsAt_eq hs hs']

/-! ## Two runs in step -/

section Runs

variable {g g' : TopologyGraph} (cfg : AnalyzerSettings)

theorem SameTables.walkChains_eq {σ κ α : Type} [DecidableEq κ] (h : SameTables g g') (entry : PortKey)
    (entryKind : SyncKind) (onHop : Hop σ → α → Option σ × α) (initialState : σ) (stateKey : σ → κ)
    (s : WalkState κ α) :
    g.walkChains entry entryKind onHop initialState stateKey s
      = g'.walkChains entry entryKind onHop initialState stateKey s := by
  have hproblem : ∀ flowEntry, g.descendProblem entry flowEntry onHop stateKey
      = g'.descendProblem entry flowEntry onHop stateKey := by
    intro flowEntry
    simp only [TopologyGraph.descendProblem, h.outwardHops_eq]
  have hentry : g.walkEntry 0 entry entryKind onHop initialState stateKey
      = g'.walkEntry 0 entry entryKind onHop initialState stateKey := by
    funext flowEntry t
    simp only [TopologyGraph.walkEntry, hproblem]
  simp only [TopologyGraph.walkChains, TopologyGraph.walkChainsWith, h.instances, hentry]

/-- Two states of the build that differ at most in how the complete tables
are laid out. -/
structure InStep (g g' : TopologyGraph) (s s' : BuildState) : Prop where
  analyzer : s.analyzer = s'.analyzer
  budget : s.budget = s'.budget
  coherent : Coherent g s.origins
  coherent' : Coherent g' s'.origins

/-- One round on either graph. -/
theorem InStep.round (h : SameTables g g') {complete complete' : OriginState}
    (hc : g.CompleteOrigins complete) (hc' : g'.CompleteOrigins complete') {s s' : BuildState}
    (hs : InStep g g' s s') (e : PortKey) :
    ∃ r t t', walkGuardedEntry g cfg e s = (r, t) ∧ walkGuardedEntry g' cfg e s' = (r, t')
      ∧ InStep g g' t t' := by
  unfold walkGuardedEntry
  rw [hs.coherent.threadsReaching hc, hs.coherent'.threadsReaching hc', h.reachingAt_eq hc hc',
    ← hs.analyzer, ← hs.budget]
  dsimp only
  rw [h.walkChains_eq]
  cases g'.walkChains e .guarded (onHop cfg e (complete'.reachingAt e)) [e.inst] List.toFinset
      ⟨s.budget, s.analyzer, []⟩ with
  | mk r w =>
    cases r with
    | error err => exact ⟨_, _, _, rfl, rfl, ⟨rfl, rfl, .inr hc, .inr hc'⟩⟩
    | ok cut => exact ⟨_, _, _, rfl, rfl, ⟨rfl, rfl, .inr hc, .inr hc'⟩⟩

/-- All rounds. -/
theorem InStep.rounds (h : SameTables g g') {complete complete' : OriginState}
    (hc : g.CompleteOrigins complete) (hc' : g'.CompleteOrigins complete') :
    ∀ (entries : List PortKey) {s s' : BuildState}, InStep g g' s s' →
      ∃ r t t', walkEntries g cfg entries s = (r, t) ∧ walkEntries g' cfg entries s' = (r, t')
        ∧ InStep g g' t t'
  | [], s, s', hs => ⟨_, _, _, rfl, rfl, hs⟩
  | e :: entries, s, s', hs => by
      obtain ⟨r, t, t', hround, hround', ht⟩ := hs.round cfg h hc hc' e
      rw [walkEntries, walkEntries, hround, hround']
      cases r with
      | error err => exact ⟨_, _, _, rfl, rfl, ht⟩
      | ok _ => exact InStep.rounds h hc hc' entries ht

/-- Where the propagation cannot end well, no guarded entry is walked. -/
theorem walkEntries_raises (hno : ¬ ∃ s, g.CompleteOrigins s) (hin : guardedInputs g ≠ []) :
    ∃ e s, walkEntries g cfg (guardedInputs g) ⟨.init, cfg.maxStates, .fresh⟩ = (.error e, s) := by
  cases hrun : walkEntries g cfg (guardedInputs g) ⟨.init, cfg.maxStates, .fresh⟩ with
  | mk r s =>
    cases r with
    | error e => exact ⟨e, s, rfl⟩
    | ok _ =>
      obtain ⟨_, _, hend⟩ := walkEntries_ok (guardedInputs g) ⟨.init, cfg.maxStates, .fresh⟩ s
        (fun _ he => he) (.inl rfl) sound_init hrun
      exact absurd ⟨_, hend hin⟩ hno

/-! ## Call chains in step -/

theorem SameTables.callPathLoop_eq (h : SameTables g g') (entry : PortKey) :
    ∀ fuel search, g.callPathLoop entry fuel search = g'.callPathLoop entry fuel search
  | 0, _ => rfl
  | fuel + 1, search => by
      rw [TopologyGraph.callPathLoop, TopologyGraph.callPathLoop, h.outwardHops_eq]
      simp only [SameTables.callPathLoop_eq h entry fuel]

theorem SameTables.originCallPath_eq (h : SameTables g g') {s s' : OriginState}
    (hs : g.CompleteOrigins s) (hs' : g'.CompleteOrigins s') (o : Origin) (entry : PortKey) :
    ∃ r, g.originCallPath o entry s = (r, s) ∧ g'.originCallPath o entry s' = (r, s') := by
  have hseeds : g.originSeeds o = g'.originSeeds o := by
    cases o with
    | thread name => simp only [TopologyGraph.originSeeds, h.instances]
    | external port => simp only [TopologyGraph.originSeeds, h.instances]
    | unknown => rfl
  have hseed : g.seedSearch = g'.seedSearch := by
    funext seeds
    simp only [TopologyGraph.seedSearch, h.instances]
  have hloop : g.callPathLoop entry = g'.callPathLoop entry :=
    funext fun fuel => funext fun search => h.callPathLoop_eq entry fuel search
  unfold TopologyGraph.originCallPath
  rw [OriginM.bind_apply, OriginM.bind_apply, TopologyGraph.ensure_complete hs,
    TopologyGraph.ensure_complete hs', hseeds, hseed, hloop, h.handlers_perm.length_eq]
  dsimp only
  split
  · exact ⟨_, rfl, rfl⟩
  · split
    · exact ⟨_, rfl, rfl⟩
    · exact ⟨_, rfl, rfl⟩

theorem SameTables.chainLoop_eq (h : SameTables g g') {s s' : OriginState}
    (hs : g.CompleteOrigins s) (hs' : g'.CompleteOrigins s') (entry : PortKey) :
    ∀ (threads : List Origin) (chains : Dict Origin (List String)),
      ∃ r, chainLoop g entry threads chains s = (r, s)
        ∧ chainLoop g' entry threads chains s' = (r, s')
  | [], chains => ⟨_, rfl, rfl⟩
  | thread :: threads, chains => by
      rw [chainLoop, chainLoop]
      split
      · obtain ⟨r, hpath, hpath'⟩ := h.originCallPath_eq hs hs' thread entry
        rw [OriginM.bind_apply, OriginM.bind_apply, hpath, hpath']
        cases r with
        | error e => exact ⟨_, rfl, rfl⟩
        | ok path => exact h.chainLoop_eq hs hs' entry threads _
      · exact h.chainLoop_eq hs hs' entry threads chains

theorem SameTables.edgeCallChains_eq (h : SameTables g g') {s s' : OriginState}
    (hs : g.CompleteOrigins s) (hs' : g'.CompleteOrigins s') (edge : LockEdge) :
    (edgeCallChains g edge s).1 = (edgeCallChains g' edge s').1 := by
  unfold edgeCallChains
  rw [OriginM.bind_apply, OriginM.bind_apply, Coherent.threadsReaching hs (.inr hs),
    Coherent.threadsReaching hs' (.inr hs'), h.reachingAt_eq hs hs']
  dsimp only
  obtain ⟨r, hrun, hrun'⟩ := h.chainLoop_eq hs hs' edge.entry
    (sortOrigins (s'.reachingAt edge.entry)) ∅
  rw [hrun, hrun']

end Runs

/-! ## The report -/

/-- The edge is in the table, or shown with a finding. -/
def Reported (a : AnalyzerState) (edge : LockEdge) : Prop :=
  (∃ key, a.lockEdges.get? key = some edge) ∨ ∃ f ∈ a.findings, edge ∈ f.edges

/-- Two finished runs report the same: edges, findings in order, the
origins of every port, and the call chains of every edge. -/
structure SameReport (g g' : TopologyGraph) (s s' : BuildState) : Prop where
  analyzer : s.analyzer = s'.analyzer
  portThreads : ∀ p, s.origins.portThreads.get? p = s'.origins.portThreads.get? p
  chains : ∀ edge, Reported s.analyzer edge →
    (edgeCallChains g edge s.origins).1 = (edgeCallChains g' edge s'.origins).1

/-- On graphs with equal tables both runs raise, or both finish with the
same report. -/
theorem SameTables.run {g g' : TopologyGraph} (h : SameTables g g') (cfg : AnalyzerSettings) :
    (∃ e s e' s', run g cfg = (.error e, s) ∧ run g' cfg = (.error e', s'))
      ∨ ∃ s s', run g cfg = (.ok (), s) ∧ run g' cfg = (.ok (), s') ∧ SameReport g g' s s' := by
  unfold FprimeTopologyAnalysis.run buildLockGraph
  by_cases hin : guardedInputs g = []
  · -- nothing is walked, and the propagation never asked for
    rw [← h.guardedInputs_eq, hin]
    refine .inr ⟨_, _, rfl, rfl, rfl, fun p => rfl, ?_⟩
    rintro edge (⟨key, hget⟩ | ⟨f, hf, hedge⟩)
    · simp [detectCycles_lockEdges, AnalyzerState.init] at hget
    · rcases detectCycles_sound hf with hold | ⟨cycle, _, _, _, rfl⟩
      · simp [AnalyzerState.init] at hold
      · obtain ⟨key, _, hget⟩ := List.mem_filterMap.mp hedge
        simp [AnalyzerState.init] at hget
  · by_cases hcomplete : ∃ complete, g.CompleteOrigins complete
    · obtain ⟨complete, hc⟩ := hcomplete
      obtain ⟨complete', hc'⟩ := h.exists_completeOrigins ⟨complete, hc⟩
      have hstart : InStep g g' ⟨.init, cfg.maxStates, .fresh⟩ ⟨.init, cfg.maxStates, .fresh⟩ :=
        ⟨rfl, rfl, .inl rfl, .inl rfl⟩
      obtain ⟨r, t, t', hrun, hrun', ht⟩ := InStep.rounds cfg h hc hc' (guardedInputs g) hstart
      rw [← h.guardedInputs_eq, hrun, hrun']
      cases r with
      | error e => exact .inl ⟨_, _, _, _, rfl, rfl⟩
      | ok _ =>
        have hs := (walkEntries_ok _ _ _ (fun _ he => he) (.inl rfl) sound_init hrun).2.2 hin
        have hs' := (walkEntries_ok _ _ _ (fun _ he => h.guardedInputs_eq ▸ he) (.inl rfl) sound_init
          hrun').2.2 hin
        refine .inr ⟨_, _, rfl, rfl, ?_, h.get?_portThreads hs hs', fun edge _ =>
          h.edgeCallChains_eq hs hs' edge⟩
        rw [ht.analyzer]
    · obtain ⟨e, s, hrun⟩ := walkEntries_raises cfg hcomplete hin
      obtain ⟨e', s', hrun'⟩ := walkEntries_raises (g := g') cfg
        (fun hc => hcomplete (h.symm.exists_completeOrigins hc)) (h.guardedInputs_eq ▸ hin)
      rw [hrun, hrun']
      exact .inl ⟨_, _, _, _, rfl, rfl⟩

/-- **The report does not depend on the model's order.** Loaded from two
models with the same instances and the same connections, in whatever
orders, the analyzer raises on both or reports the same on both. -/
theorem report_order_free (t t' : Topology) (h : SameModel t t') (flow : PortFlowMap)
    (cfg : AnalyzerSettings) :
    (∃ e s e' s', run (t.load flow).toTopologyGraph cfg = (.error e, s)
        ∧ run (t'.load flow).toTopologyGraph cfg = (.error e', s'))
      ∨ ∃ s s', run (t.load flow).toTopologyGraph cfg = (.ok (), s)
        ∧ run (t'.load flow).toTopologyGraph cfg = (.ok (), s')
        ∧ SameReport (t.load flow).toTopologyGraph (t'.load flow).toTopologyGraph s s' :=
  (load_sameTables h flow).run cfg

/-! Two instances that take each other's mutex, in both orders. -/

/-- A component with a guarded input whose handler calls `out`. -/
def guardedComponent (name : String) : ComponentInstance where
  qualifiedName := name
  kind := .passive
  portMap := .ofList [(.gIn, .general .input .guardedInput),
    (.out, .general .output .output)]

/-- `source.out -> dest.gIn`. -/
def wireGuarded (source dest : String) : ModelConnection where
  fromEndpoint := some ⟨.component (guardedComponent source), .out, none⟩
  toEndpoint := some ⟨.component (guardedComponent dest), .gIn, none⟩

def crossedTopology : Topology where
  instanceMap := [.component (guardedComponent "a"), .component (guardedComponent "b")]
  outputConnectionMap := [[wireGuarded "a" "b"], [wireGuarded "b" "a"]]
  nodupNames := by decide

def crossedTopologySwapped : Topology where
  instanceMap := [.component (guardedComponent "b"), .component (guardedComponent "a")]
  outputConnectionMap := [[wireGuarded "b" "a"], [wireGuarded "a" "b"]]
  nodupNames := by decide

theorem report_order_free_crossed :
    ∃ s s', run (crossedTopology.load (.permissive ∅)).toTopologyGraph {} = (.ok (), s)
      ∧ run (crossedTopologySwapped.load (.permissive ∅)).toTopologyGraph {} = (.ok (), s')
      ∧ SameReport (crossedTopology.load (.permissive ∅)).toTopologyGraph
          (crossedTopologySwapped.load (.permissive ∅)).toTopologyGraph s s' := by
  have hsame : SameModel crossedTopology crossedTopologySwapped :=
    ⟨List.Perm.swap _ _ _, List.Perm.swap _ _ _⟩
  have hok : (run (crossedTopology.load (.permissive ∅)).toTopologyGraph {}).1 = .ok () := by
    decide +kernel
  rcases report_order_free crossedTopology crossedTopologySwapped hsame (.permissive ∅) {} with
    ⟨e, s, _, _, hrun, _⟩ | h
  · rw [hrun] at hok
    cases hok
  · exact h

end FprimeTopologyAnalysis
