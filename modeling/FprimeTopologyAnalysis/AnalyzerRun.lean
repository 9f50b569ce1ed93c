/-
FprimeTopologyAnalysis.AnalyzerRun — a whole run of the analyzer (`run` of
`guarded_port_analyzer.py`), and what widening the flow does to it.

`Analyzed` collects what is known of a finished run: everything it reports
is genuine, and without truncation everything within its bounds is
reported. A run over a topology whose handlers all resolve ends so
(`run_analyzed`).

Widening the flow gives every handler at least the outputs it had. Hops,
lock chains and origins then only grow, and so does what an untruncated
run reports (`run_widens`).
-/
import FprimeTopologyAnalysis.CycleDetection
import FprimeTopologyAnalysis.LockGraphExact

namespace FprimeTopologyAnalysis

open Library

/-! ## One run -/

/-- `run`. -/
def run (g : TopologyGraph) (cfg : AnalyzerSettings) :
    Except UnresolvedFlowError Unit × BuildState :=
  match buildLockGraph g cfg with
  | (.error e, s) => (.error e, s)
  | (.ok (), s) => (.ok (), { s with analyzer := detectCycles cfg s.analyzer })

/-- There is a finding about a live cycle. -/
def HasAbba (a : AnalyzerState) (cycle : List String) : Prop :=
  ∃ f ∈ a.findings, f.kind = .abba ∧ f.cycle = cycle

/-- What a finished run has reported: nothing but the genuine, and without
truncation all of that. -/
structure Analyzed (g : TopologyGraph) (cfg : AnalyzerSettings) (complete : OriginState)
    (a : AnalyzerState) : Prop where
  edges : ∀ key edge, a.lockEdges.get? key = some edge → EdgeSound g cfg key edge
  selfs : ∀ x, HasSelf a x → ∃ f ∈ a.findings, ∃ edge, SelfSound g cfg f x edge
  abbas : ∀ cycle, HasAbba a cycle → IsLockCycle a.lockEdges cycle
    ∧ ElementaryCycles.LeastFirst cycle ∧ DrivenByTwo a.lockEdges cycle
  recorded : a.truncated = false → ∀ e ∈ guardedInputs g,
    RecordedFrom g cfg e (complete.reachingAt e) a
  reported : a.truncated = false → ∀ cycle, IsLockCycle a.lockEdges cycle →
    ElementaryCycles.LeastFirst cycle → DrivenByTwo a.lockEdges cycle → HasAbba a cycle

/-- The detection keeps what was built and adds the live cycles. -/
theorem Analyzed.of_built {g : TopologyGraph} {cfg : AnalyzerSettings} {complete : OriginState}
    {a : AnalyzerState} (hsound : Sound g cfg a)
    (hrec : a.truncated = false → ∀ e ∈ guardedInputs g,
      RecordedFrom g cfg e (complete.reachingAt e) a) :
    Analyzed g cfg complete (detectCycles cfg a) := by
  have hedges := detectCycles_lockEdges cfg a
  have hkeep : ∀ f ∈ a.findings, f ∈ (detectCycles cfg a).findings :=
    fun f hf => (mem_detectCycles cfg).mpr (.inl hf)
  exact {
    edges := by
      rw [hedges]
      exact hsound.edges
    selfs := by
      rintro x ⟨f, hf, hk, hcycle⟩
      rcases detectCycles_sound hf with hold | ⟨_, _, _, _, rfl⟩
      · obtain ⟨x', edge, hs⟩ := hsound.findings f hold
        obtain rfl : x' = x := by simpa using hs.cycle.symm.trans hcycle
        exact ⟨f, hf, edge, hs⟩
      · cases hk
    abbas := by
      rintro cycle ⟨f, hf, hk, rfl⟩
      rw [hedges]
      rcases detectCycles_sound hf with hold | ⟨_, hc, hfirst, hd, rfl⟩
      · obtain ⟨_, _, hs⟩ := hsound.findings f hold
        rw [hs.kind] at hk
        cases hk
      · exact ⟨hc, hfirst, hd⟩
    recorded := by
      intro htrunc e he
      have hold := hrec (detectCycles_truncated cfg htrunc).1 e he
      refine ⟨fun holder acquired w hn hsupp => ?_, fun x w hr hsupp => ?_⟩
      · exact (hasEdge_of_lockEdges hedges).mpr (hold.nests holder acquired w hn hsupp)
      · obtain ⟨f, hf, hkind⟩ := hold.reenters x w hr hsupp
        exact ⟨f, hkeep f hf, hkind⟩
    reported := by
      rw [hedges]
      intro htrunc cycle hc hfirst hd
      exact ⟨_, detectCycles_complete htrunc hc hfirst hd, rfl, rfl⟩ }

/-- **A run over a topology whose handlers all resolve ends well.** -/
theorem run_analyzed {g : TopologyGraph} (hres : g.AllResolve) {complete : OriginState}
    (hc : g.CompleteOrigins complete) (cfg : AnalyzerSettings) :
    ∃ s, run g cfg = (.ok (), s) ∧ Analyzed g cfg complete s.analyzer := by
  obtain ⟨s, hbuild, _, hsound, hrec⟩ := buildLockGraph_spec hc hres cfg
  refine ⟨{ s with analyzer := detectCycles cfg s.analyzer }, ?_, .of_built hsound hrec⟩
  unfold run
  rw [hbuild]

/-! ## Widening the flow -/

/-- `g'` is the topology of `g` with a flow that gives every handler at
least its outputs. -/
structure Widens (g g' : TopologyGraph) : Prop where
  instances : g'.instances = g.instances
  connections : g'.connections = g.connections
  outputs : ∀ h ∈ g.handlers, ∀ info, g.instances.get? h.1 = some info →
    ∀ outs outs', g.outputsFor info h.2 = .ok outs → g'.outputsFor info h.2 = .ok outs' →
      outs ⊆ outs'

/-- The permissive map without records, which answers every output, widens
any flow. -/
theorem widens_permissive (g : TopologyGraph) : Widens g { g with flow := .permissive ∅ } where
  instances := rfl
  connections := rfl
  outputs h _ info _ outs outs' hout hout' := by
    obtain rfl : info.outputPorts = outs' := by
      simpa [TopologyGraph.outputsFor, PortFlowMap.outputsFor_permissive_empty] using hout'
    exact PortFlowMap.outputsFor_subset _ _ _ _ _ hout

namespace Widens

variable {g g' : TopologyGraph} {cfg cfg' : AnalyzerSettings}

theorem behind (hw : Widens g g') {p : PortKey} {kind : SyncKind} {h : Handler} :
    g'.Behind p kind h ↔ g.Behind p kind h := by
  unfold TopologyGraph.Behind
  rw [hw.instances]

theorem mem_handlers (hw : Widens g g') {h : Handler} : h ∈ g'.handlers ↔ h ∈ g.handlers := by
  unfold TopologyGraph.handlers
  rw [hw.instances]

/-- A hop out of a handler stays one. -/
theorem hopOut (hw : Widens g g') (hres : g'.AllResolve) {h : Handler} {hop : OutwardHop}
    (hmem : h ∈ g.handlers) (hh : g.HopOut h hop) : g'.HopOut h hop := by
  obtain ⟨hops, hok, hhop⟩ := hh
  obtain ⟨hops', hok'⟩ := hres h (hw.mem_handlers.mpr hmem)
  refine ⟨hops', hok', ?_⟩
  have hfrom : g'.hopsFrom h.1 = g.hopsFrom h.1 := by
    funext out
    unfold TopologyGraph.hopsFrom TopologyGraph.destinations
    rw [hw.instances, hw.connections]
  unfold TopologyGraph.outwardHops at hok hok'
  rw [hw.instances] at hok'
  cases hget : g.instances.get? h.1 with
  | none =>
    rw [hget] at hok
    cases hok
    simp at hhop
  | some info =>
    rw [hget] at hok hok'
    dsimp only at hok hok'
    cases houts : g.outputsFor info h.2 with
    | error e => rw [houts] at hok; cases hok
    | ok outs =>
      cases houts' : g'.outputsFor info h.2 with
      | error e => rw [houts'] at hok'; cases hok'
      | ok outs' =>
        rw [houts] at hok
        rw [houts', hfrom] at hok'
        cases hok
        cases hok'
        obtain ⟨out, hout, hin⟩ := List.mem_flatMap.mp hhop
        exact List.mem_flatMap.mpr ⟨out, hw.outputs h hmem info hget outs outs' houts houts' hout, hin⟩

/-- A lock chain stays one, as long as there is depth for it. -/
theorem lockChain (hw : Widens g g') (hres : g'.AllResolve)
    (hdepth : cfg.maxLockDepth ≤ cfg'.maxLockDepth) {e : PortKey} {h : Handler}
    {held path : List String} (hc : LockChainWithin g (Fits cfg) e h held path) :
    LockChainWithin g' (Fits cfg') e h held path := by
  induction hc with
  | start hb => exact .start (hw.behind.mpr hb)
  | sync hprev hhop hk ht ih => exact .sync ih (hw.hopOut hres hprev.mem_handlers hhop) hk ht
  | guarded hprev hhop hk hnot hfit ht ih =>
    refine .guarded ih (hw.hopOut hres hprev.mem_handlers hhop) hk hnot ?_ ht
    unfold Fits at hfit ⊢
    omega

theorem nests (hw : Widens g g') (hres : g'.AllResolve)
    (hdepth : cfg.maxLockDepth ≤ cfg'.maxLockDepth) {e : PortKey} {holder acquired : String}
    {w : List String} (hn : Nests g (Fits cfg) e holder acquired w) :
    Nests g' (Fits cfg') e holder acquired w := by
  obtain ⟨h, held, path, hop, hc, hhop, hrest⟩ := hn
  exact ⟨h, held, path, hop, hw.lockChain hres hdepth hc, hw.hopOut hres hc.mem_handlers hhop, hrest⟩

theorem reEnters (hw : Widens g g') (hres : g'.AllResolve)
    (hdepth : cfg.maxLockDepth ≤ cfg'.maxLockDepth) {e : PortKey} {x : String} {w : List String}
    (hr : ReEnters g (Fits cfg) e x w) : ReEnters g' (Fits cfg') e x w := by
  obtain ⟨h, held, path, hop, hc, hhop, hrest⟩ := hr
  exact ⟨h, held, path, hop, hw.lockChain hres hdepth hc, hw.hopOut hres hc.mem_handlers hhop, hrest⟩

/-- An origin keeps the handlers it runs. -/
theorem runs (hw : Widens g g') (hres : g'.AllResolve) {o : Origin} {h : Handler}
    (hr : g.Runs o h) : g'.Runs o h := by
  obtain ⟨p, kind, hseed, h₀, hbehind, hreach⟩ := hr
  have hconn : g'.connectedInputs = g.connectedInputs := by
    unfold TopologyGraph.connectedInputs
    rw [hw.connections]
  refine ⟨p, kind, ?_, h₀, hw.behind.mpr hbehind, ?_⟩
  · unfold TopologyGraph.Seeds
    rw [hw.instances, hconn]
    exact hseed
  · clear hseed
    have hmem₀ := TopologyGraph.mem_handlers.mpr ⟨p, kind, hbehind⟩
    induction hreach with
    | refl => exact .refl
    | tail hprev hcall ih =>
      obtain ⟨hop, hhop, hk, ht⟩ := hcall
      have hmem := TopologyGraph.EnteredFrom.mem_handlers ⟨h₀, hbehind, hprev⟩
      exact ih.tail ⟨hop, hw.hopOut hres hmem hhop, hk, ht⟩

/-- An origin keeps the ports it can invoke. -/
theorem landsOn (hw : Widens g g') (hres : g'.AllResolve) {o : Origin} {p : PortKey}
    (hl : g.LandsOn o p) : g'.LandsOn o p := by
  rcases hl with ⟨kind, hseed⟩ | ⟨h, hr, hop, hhop, hrest⟩
  · refine .inl ⟨kind, ?_⟩
    unfold TopologyGraph.Seeds TopologyGraph.connectedInputs
    rw [hw.instances, hw.connections]
    exact hseed
  · exact .inr ⟨h, hw.runs hres hr, hop, hw.hopOut hres hr.mem_handlers hhop, hrest⟩

end Widens

/-- `b` reports at least what `a` does: its lock edges with their known
origins, its self-deadlocks and its live cycles. -/
structure ReportsAtLeast (a b : AnalyzerState) : Prop where
  edges : ∀ key edge, a.lockEdges.get? key = some edge →
    ∃ edge', b.lockEdges.get? key = some edge' ∧ edge.threads.erase .unknown ⊆ edge'.threads
  selfs : ∀ x, HasSelf a x → HasSelf b x
  abbas : ∀ cycle, HasAbba a cycle → HasAbba b cycle

/-- **Widening the flow never loses a finding.** Over a wider flow, and
with at least the depth, an untruncated run reports at least what any run
over the narrower flow does. -/
theorem run_widens (g g' : TopologyGraph) (cfg cfg' : AnalyzerSettings) (hw : Widens g g')
    (hres : g.AllResolve) (hres' : g'.AllResolve) (hsupp : cfg'.suppressions = ∅)
    (hdepth : cfg.maxLockDepth ≤ cfg'.maxLockDepth)
    (htrunc : (run g' cfg').2.analyzer.truncated = false) :
    (run g cfg).1 = .ok () ∧ (run g' cfg').1 = .ok ()
      ∧ ReportsAtLeast (run g cfg).2.analyzer (run g' cfg').2.analyzer := by
  obtain ⟨complete, hc⟩ := hres.completeOrigins
  obtain ⟨complete', hc'⟩ := hres'.completeOrigins
  obtain ⟨s, hrun, ha⟩ := run_analyzed hres hc cfg
  obtain ⟨s', hrun', ha'⟩ := run_analyzed hres' hc' cfg'
  rw [hrun'] at htrunc
  rw [hrun, hrun']
  have hnone : ∀ key, key ∉ cfg'.suppressions := by simp [hsupp]
  have hrecorded := ha'.recorded htrunc
  have hedges : ∀ key edge, s.analyzer.lockEdges.get? key = some edge →
      ∃ edge', s'.analyzer.lockEdges.get? key = some edge'
        ∧ edge.threads.erase .unknown ⊆ edge'.threads := by
    rintro ⟨holder, acquired⟩ edge hget
    have hsound := ha.edges _ edge hget
    have hwitness := hw.nests hres' hdepth hsound.witness
    obtain ⟨edge', hget', _⟩ :=
      (hrecorded _ hwitness.mem_guardedInputs).nests _ _ _ hwitness (hnone _)
    refine ⟨edge', hget', fun o ho => ?_⟩
    obtain ⟨hknown, hmem⟩ := Finset.mem_erase.mp ho
    obtain ⟨e, w, hnest, hreach⟩ := hsound.threads o hmem
    have hnest' := hw.nests hres' hdepth hnest
    have hreach' : g'.Reaching o e :=
      .inl (hw.landsOn hres' (hreach.resolve_right fun h => hknown h.1))
    obtain ⟨edge'', hget'', hsub⟩ :=
      (hrecorded e hnest'.mem_guardedInputs).nests _ _ w hnest' (hnone _)
    obtain rfl : edge'' = edge' := Option.some.inj (hget''.symm.trans hget')
    exact hsub ((TopologyGraph.mem_reachingAt_iff hc').mpr hreach')
  refine ⟨rfl, rfl, hedges, ?_, ?_⟩
  · intro x hx
    obtain ⟨f, _, edge, hs⟩ := ha.selfs x hx
    have hre := hw.reEnters hres' hdepth hs.witness
    exact (hrecorded _ hre.mem_guardedInputs).reenters x _ hre (hnone _)
  · intro cycle hcycle
    obtain ⟨hlock, hfirst, p, hp, q, hq, hpq, e, f, he, hf, t, u, ht, hu, hne⟩ :=
      ha.abbas cycle hcycle
    refine ha'.reported htrunc cycle ⟨hlock.nodup, hlock.two, fun k hk => ?_⟩ hfirst ?_
    · obtain ⟨edge, hget⟩ := hlock.get? hk
      obtain ⟨edge', hget', _⟩ := hedges k edge hget
      exact Dict.mem_keys_of_get? hget'
    · obtain ⟨e', he', hsube⟩ := hedges p e he
      obtain ⟨f', hf', hsubf⟩ := hedges q f hf
      exact ⟨p, hp, q, hq, hpq, e', f', he', hf', t, u,
        hsube (Finset.mem_erase.mpr ⟨by simp, ht⟩), hsubf (Finset.mem_erase.mpr ⟨by simp, hu⟩), hne⟩

/-- The two threads under their strict map, where they have an ABBA finding,
and under the permissive one. -/
theorem run_widens_row :
    HasAbba (run crossTopology {}).2.analyzer ["x", "y"]
      ∧ (run crossTopology {}).2.analyzer.lockEdges.keys = [("x", "y"), ("y", "x")]
      ∧ ReportsAtLeast (run crossTopology {}).2.analyzer
        (run { crossTopology with flow := .permissive ∅ } {}).2.analyzer :=
  ⟨by unfold HasAbba; decide +kernel, by decide +kernel,
    (run_widens crossTopology { crossTopology with flow := .permissive ∅ } {} {}
      (widens_permissive crossTopology) (by decide) (by decide) rfl le_rfl (by decide +kernel)).2.2⟩

end FprimeTopologyAnalysis
