/-
FprimeTopologyAnalysis.Suppressions — what a suppression file does to a run
(`guarded_port_analyzer.py`).

A suppressed ordering is dropped where it would be recorded: while the walk
is running, and before any cycle is looked for. `AnalyzerState.suppress` is
the filter this amounts to. Recording commutes with it
(`onHop_suppress`), and the walk never reads what was recorded, so the lock
graph is the filtered one whether the walk ends or raises
(`buildLockGraph_suppress`).

The detection then runs on the smaller table. A cycle of it is a cycle of
the larger table without a suppressed edge, and a component of it lies
inside a component of the larger one, so the cap is not reached where it
was not reached before (`detectCycles_suppress`).
-/
import FprimeTopologyAnalysis.AnalyzerRun

namespace FprimeTopologyAnalysis

open Library

/-! ## The filter -/

/-- The settings without their suppressions. -/
def AnalyzerSettings.unsuppressed (cfg : AnalyzerSettings) : AnalyzerSettings :=
  { cfg with suppressions := ∅ }

theorem AnalyzerSettings.notMem_unsuppressed (cfg : AnalyzerSettings) (p : String × String) :
    p ∉ cfg.unsuppressed.suppressions :=
  Finset.notMem_empty p

/-- No edge of the finding's cycle is suppressed. -/
def spared (S : Finset (String × String)) (f : Finding) : Bool :=
  decide (∀ p ∈ ElementaryCycles.pairs f.cycle, p ∉ S)

/-- What the analyzer has recorded, less what is suppressed. -/
def AnalyzerState.suppress (S : Finset (String × String)) (a : AnalyzerState) : AnalyzerState where
  lockEdges := a.lockEdges.filter fun key => key ∉ S
  findings := a.findings.filter (spared S)
  truncated := a.truncated

/-- The same between two entries. -/
def BuildState.suppress (S : Finset (String × String)) (s : BuildState) : BuildState :=
  { s with analyzer := s.analyzer.suppress S }

theorem spared_congr (S : Finset (String × String)) {f f' : Finding} (h : f.cycle = f'.cycle) :
    spared S f = spared S f' := by
  unfold spared
  rw [h]

/-- A self-deadlock uses one edge, from the mutex to itself. -/
theorem spared_singleton (S : Finset (String × String)) {f : Finding} {x : String}
    (h : f.cycle = [x]) : spared S f = decide ((x, x) ∉ S) := by
  simp [spared, h, ElementaryCycles.pairs]

/-! ## Recording commutes with the filter -/

section Recording

variable (cfg : AnalyzerSettings)

theorem recordEdge_suppress (acquired : String) (entry : PortKey) (path : List String)
    (threads : Finset Origin) (a : AnalyzerState) (holder : String) :
    recordEdge cfg acquired entry path threads (a.suppress cfg.suppressions) holder
      = (recordEdge cfg.unsuppressed acquired entry path threads a holder).suppress
          cfg.suppressions := by
  unfold recordEdge
  rw [if_neg (cfg.notMem_unsuppressed (holder, acquired))]
  by_cases hsupp : (holder, acquired) ∈ cfg.suppressions
  · rw [if_pos hsupp]
    simp [AnalyzerState.suppress, Dict.filter_set, hsupp]
  · rw [if_neg hsupp]
    simp [AnalyzerState.suppress, Dict.filter_set, Dict.get?_filter, hsupp]

theorem filter_recordSelf (S : Finset (String × String)) (fresh : Finding)
    (threads : Finset Origin) (findings : List Finding) :
    (recordSelf fresh threads findings).filter (spared S)
      = if spared S fresh then recordSelf fresh threads (findings.filter (spared S))
        else findings.filter (spared S) := by
  induction findings with
  | nil => by_cases hfresh : spared S fresh <;> simp [recordSelf, hfresh]
  | cons f rest ih =>
    rw [recordSelf]
    split
    · -- the finding that takes the threads is about the same instance
      rename_i hsame
      have hf : spared S f = spared S fresh := spared_congr S hsame.2
      have hadd : spared S (f.addThreads threads) = spared S fresh :=
        (spared_congr S (cycle_addThreads f threads)).trans hf
      by_cases hfresh : spared S fresh
      · simp [hf, hadd, hfresh, recordSelf, hsame]
      · simp [hf, hadd, hfresh]
    · rename_i hother
      by_cases hf : spared S f
      · rw [List.filter_cons_of_pos hf, List.filter_cons_of_pos hf, ih, recordSelf, if_neg hother]
        by_cases hfresh : spared S fresh <;> simp [hfresh]
      · rw [List.filter_cons_of_neg hf, List.filter_cons_of_neg hf, ih]

theorem recordSelfDeadlock_suppress (entry dest : PortKey) (held path : List String)
    (threads : Finset Origin) (a : AnalyzerState) :
    recordSelfDeadlock cfg entry dest held path threads (a.suppress cfg.suppressions)
      = (recordSelfDeadlock cfg.unsuppressed entry dest held path threads a).suppress
          cfg.suppressions := by
  have hfresh := spared_singleton cfg.suppressions
    (show (selfDeadlockFinding entry dest held path threads).cycle = [dest.inst] from rfl)
  unfold recordSelfDeadlock
  rw [if_neg (cfg.notMem_unsuppressed (dest.inst, dest.inst))]
  by_cases hsupp : (dest.inst, dest.inst) ∈ cfg.suppressions
  · rw [if_pos hsupp]
    simp [AnalyzerState.suppress, filter_recordSelf, hfresh, hsupp]
  · rw [if_neg hsupp]
    simp [AnalyzerState.suppress, filter_recordSelf, hfresh, hsupp]

/-- **The callback commutes with the filter**, and answers alike. -/
theorem onHop_suppress (entry : PortKey) (threads : Finset Origin) (hop : Hop (List String))
    (a : AnalyzerState) :
    onHop cfg entry threads hop (a.suppress cfg.suppressions)
      = ((onHop cfg.unsuppressed entry threads hop a).1,
          (onHop cfg.unsuppressed entry threads hop a).2.suppress cfg.suppressions) := by
  unfold onHop
  cases hop.kind with
  | async => rfl
  | sync => rfl
  | guarded =>
    dsimp only
    by_cases hheld : hop.dest.inst ∈ hop.state
    · rw [if_pos hheld, if_pos hheld, recordSelfDeadlock_suppress]
    · rw [if_neg hheld, if_neg hheld]
      have hfold := @List.foldl_hom _ _ _
        (AnalyzerState.suppress cfg.suppressions)
        (recordEdge cfg.unsuppressed hop.dest.inst entry hop.path threads)
        (recordEdge cfg hop.dest.inst entry hop.path threads) hop.state a
        (fun b holder => recordEdge_suppress cfg hop.dest.inst entry hop.path threads b holder)
      rw [hfold]
      by_cases hdeep : cfg.maxLockDepth ≤ hop.state.length
      · rw [if_pos hdeep, if_pos (by exact hdeep)]
        rfl
      · rw [if_neg hdeep, if_neg (by exact hdeep)]

variable (g : TopologyGraph)

theorem walkGuardedEntry_suppress (entry : PortKey) (s : BuildState) :
    walkGuardedEntry g cfg entry (s.suppress cfg.suppressions)
      = ((walkGuardedEntry g cfg.unsuppressed entry s).1,
          (walkGuardedEntry g cfg.unsuppressed entry s).2.suppress cfg.suppressions) := by
  unfold walkGuardedEntry
  have horigins : (s.suppress cfg.suppressions).origins = s.origins := rfl
  rw [horigins]
  cases g.threadsReaching entry s.origins with
  | mk r origins =>
    cases r with
    | error e => rfl
    | ok threads =>
      have hwalk := @TopologyGraph.walkChains_map _ _ _ g entry .guarded _ [entry.inst] List.toFinset _ _ _
        (AnalyzerState.suppress cfg.suppressions) (onHop_suppress cfg entry threads)
        ⟨s.budget, s.analyzer, []⟩
      simp only [WalkState.mapAcc] at hwalk
      dsimp only
      simp only [BuildState.suppress, hwalk]
      cases g.walkChains entry .guarded (onHop cfg.unsuppressed entry threads) [entry.inst]
        List.toFinset ⟨s.budget, s.analyzer, []⟩ with
      | mk r w => cases r <;> rfl

theorem walkEntries_suppress (entries : List PortKey) : ∀ s : BuildState,
    walkEntries g cfg entries (s.suppress cfg.suppressions)
      = ((walkEntries g cfg.unsuppressed entries s).1,
          (walkEntries g cfg.unsuppressed entries s).2.suppress cfg.suppressions) := by
  induction entries with
  | nil => exact fun _ => rfl
  | cons entry entries ih =>
    intro s
    rw [walkEntries, walkEntries, walkGuardedEntry_suppress]
    cases walkGuardedEntry g cfg.unsuppressed entry s with
    | mk r s' =>
      cases r with
      | error e => rfl
      | ok _ => exact ih s'

/-- **The lock graph is the filtered one**, whether the walk ends or raises. -/
theorem buildLockGraph_suppress :
    buildLockGraph g cfg = ((buildLockGraph g cfg.unsuppressed).1,
      (buildLockGraph g cfg.unsuppressed).2.suppress cfg.suppressions) :=
  walkEntries_suppress cfg g (guardedInputs g) ⟨.init, cfg.maxStates, .fresh⟩

end Recording

/-! ## What the walk reports -/

/-- Every finding is about one mutex that is taken twice. -/
def OnlySelfs (a : AnalyzerState) : Prop :=
  ∀ f ∈ a.findings, f.kind = .selfDeadlock ∧ ∃ x, f.cycle = [x]

section OnlySelfs

variable (cfg : AnalyzerSettings) (g : TopologyGraph)

theorem OnlySelfs.onHop {entry : PortKey} {threads : Finset Origin} {hop : Hop (List String)}
    {a : AnalyzerState} (h : OnlySelfs a) : OnlySelfs (onHop cfg entry threads hop a).2 := by
  unfold FprimeTopologyAnalysis.onHop
  cases hop.kind with
  | async => exact h
  | sync => exact h
  | guarded =>
    dsimp only
    split
    · unfold recordSelfDeadlock
      split
      · exact h
      · intro f hf
        rcases mem_recordSelf hf with rfl | hold | ⟨f₀, hf₀, _, rfl⟩
        · exact ⟨rfl, _, rfl⟩
        · exact h f hold
        · rw [kind_addThreads, cycle_addThreads]
          exact h f₀ hf₀
    · have hfind := (recordEdges_spec cfg hop.dest.inst entry hop.path threads hop.state a).2.2
      unfold OnlySelfs at h ⊢
      split
      · rw [hfind]
        exact h
      · rw [hfind]
        exact h

theorem OnlySelfs.walkGuardedEntry {entry : PortKey} {s : BuildState} (h : OnlySelfs s.analyzer) :
    OnlySelfs (walkGuardedEntry g cfg entry s).2.analyzer := by
  unfold FprimeTopologyAnalysis.walkGuardedEntry
  split
  · exact h
  · rename_i threads _ _
    have hwalk := @TopologyGraph.walkChains_inv _ _ _ g entry .guarded _ [entry.inst] List.toFinset _ _
      (onHop_decides cfg entry threads) OnlySelfs
      (fun _ _ _ _ _ _ _ _ _ ha => ha.onHop cfg) 0 ⟨s.budget, s.analyzer, []⟩ h
    split
    · rename_i heq
      exact (congrArg (fun r => OnlySelfs r.2.acc) heq).mp hwalk
    · rename_i heq
      exact (congrArg (fun r => OnlySelfs r.2.acc) heq).mp hwalk

theorem onlySelfs_buildLockGraph : OnlySelfs (buildLockGraph g cfg).2.analyzer := by
  have hgen : ∀ (entries : List PortKey) (s : BuildState), OnlySelfs s.analyzer →
      OnlySelfs (walkEntries g cfg entries s).2.analyzer := by
    intro entries
    induction entries with
    | nil => exact fun _ h => h
    | cons entry entries ih =>
      intro s h
      have hround : OnlySelfs (walkGuardedEntry g cfg entry s).2.analyzer := h.walkGuardedEntry cfg g
      rw [walkEntries]
      cases hr : walkGuardedEntry g cfg entry s with
      | mk r s' =>
        rw [hr] at hround
        cases r with
        | error e => exact hround
        | ok _ => exact ih s' hround
  exact hgen _ _ (by simp [OnlySelfs, AnalyzerState.init])

end OnlySelfs

/-! ## Cycles of the smaller table -/

section Cycles

variable {edges : LockEdges} {keep : String × String → Bool} {cycle : List String}

theorem isLockCycle_filter_iff : IsLockCycle (edges.filter keep) cycle ↔
    IsLockCycle edges cycle ∧ ∀ p ∈ ElementaryCycles.pairs cycle, keep p := by
  constructor
  · intro h
    refine ⟨h.mono fun x y hxy => ((edges.mem_keys_filter keep _).mp hxy).1, fun p hp => ?_⟩
    exact ((edges.mem_keys_filter keep p).mp (h.edges p hp)).2
  · rintro ⟨h, hkeep⟩
    exact ⟨h.nodup, h.two, fun p hp =>
      (edges.mem_keys_filter keep p).mpr ⟨h.edges p hp, hkeep p hp⟩⟩

/-- The smaller table answers alike along a cycle that is kept. -/
theorem get?_filter_of_kept (h : ∀ p ∈ ElementaryCycles.pairs cycle, keep p) :
    ∀ p ∈ ElementaryCycles.pairs cycle, (edges.filter keep).get? p = edges.get? p := by
  intro p hp
  rw [Dict.get?_filter, if_pos (h p hp)]

theorem drivenByTwo_filter_iff (h : ∀ p ∈ ElementaryCycles.pairs cycle, keep p) :
    DrivenByTwo (edges.filter keep) cycle ↔ DrivenByTwo edges cycle := by
  have hget := @get?_filter_of_kept edges keep cycle h
  constructor
  · rintro ⟨p, hp, q, hq, hpq, e, f, he, hf, hdistinct⟩
    exact ⟨p, hp, q, hq, hpq, e, f, hget p hp ▸ he, hget q hq ▸ hf, hdistinct⟩
  · rintro ⟨p, hp, q, hq, hpq, e, f, he, hf, hdistinct⟩
    exact ⟨p, hp, q, hq, hpq, e, f, (hget p hp).trans he, (hget q hq).trans hf, hdistinct⟩

theorem abbaFinding_filter (h : ∀ p ∈ ElementaryCycles.pairs cycle, keep p) :
    abbaFinding (edges.filter keep) cycle = abbaFinding edges cycle := by
  have hedges : cycleEdges (edges.filter keep) cycle = cycleEdges edges cycle :=
    List.filterMap_congr (get?_filter_of_kept h)
  unfold abbaFinding
  rw [hedges]

/-- A component of the smaller table lies inside one of the larger. -/
theorem exists_component_of_filter {component : List String}
    (h : component ∈ cyclicComponents (edges.filter keep)) :
    ∃ larger ∈ cyclicComponents edges, ∀ x ∈ component, x ∈ larger := by
  obtain ⟨hcomp, htwo⟩ := List.mem_filter.mp h
  obtain ⟨hnodup, _, hclass⟩ := Tarjan.components_correct (lockNodes_closed (edges.filter keep))
  refine exists_component_of_reach ((List.nodup_flatten.mp hnodup).1 component hcomp)
    (of_decide_eq_true htwo) fun x hx y hy => ?_
  refine Relation.ReflTransGen.mono (fun u v huv => ?_) _ _
    (((hclass component hcomp).2 x hx y).mp hy).1
  have hkey := mem_successors.mp (show v ∈ successors (edges.filter keep) u from huv)
  exact mem_successors.mpr ((edges.mem_keys_filter keep _).mp hkey).1

end Cycles

/-! ## A suppressed run -/

section Detection

variable {cfg : AnalyzerSettings} {a : AnalyzerState}

/-- Where the cap was not reached, it is not reached on the smaller table. -/
theorem detectCycles_suppress_truncated (h : (detectCycles cfg.unsuppressed a).truncated = false) :
    (detectCycles cfg (a.suppress cfg.suppressions)).truncated = false := by
  rw [detectCycles, detectComponents_eq]
  simp only [Bool.or_eq_false_iff, List.any_eq_false]
  refine ⟨(detectCycles_truncated _ h).1, fun component hcomp hcap => ?_⟩
  obtain ⟨larger, hlarger, hsub⟩ := exists_component_of_filter hcomp
  -- the cycles that reach the cap there are cycles of the larger table
  have htrunc := @truncated_of_cap cfg.unsuppressed _ _ hlarger _
    (@elementaryCycles_nodup cfg _ component) ?_ (cap_of_truncated hcap)
  · rw [h] at htrunc
    cases htrunc
  · intro c hc
    obtain ⟨hcycle, hfirst⟩ := mem_elementaryCycles_sound hc
    exact ⟨(isLockCycle_filter_iff.mp hcycle).1, hfirst,
      fun x hx => hsub x (mem_component_of_mem_cycle hc x hx)⟩

theorem nodup_cycleFindings (cfg : AnalyzerSettings) (edges : LockEdges) :
    (cycleFindings cfg edges).Nodup := by
  refine List.Pairwise.imp (fun {f f'} hdistinct heq => hdistinct ?_) cycleFindings_distinct
  rw [heq]

/-- **The detection commutes with the filter**, up to the order of what it
appends. -/
theorem cycleFindings_suppress (h : (detectCycles cfg.unsuppressed a).truncated = false) :
    (cycleFindings cfg (a.suppress cfg.suppressions).lockEdges).Perm
      ((cycleFindings cfg.unsuppressed a.lockEdges).filter (spared cfg.suppressions)) := by
  refine (List.perm_ext_iff_of_nodup (nodup_cycleFindings _ _)
    ((nodup_cycleFindings _ _).filter _)).mpr fun f => ?_
  rw [mem_cycleFindings_iff (detectCycles_suppress_truncated h), List.mem_filter,
    mem_cycleFindings_iff h]
  simp only [AnalyzerState.suppress, isLockCycle_filter_iff]
  constructor
  · rintro ⟨cycle, ⟨hc, hkeep⟩, hfirst, hd, rfl⟩
    rw [drivenByTwo_filter_iff hkeep] at hd
    rw [abbaFinding_filter hkeep]
    exact ⟨⟨cycle, hc, hfirst, hd, rfl⟩, decide_eq_true fun p hp => of_decide_eq_true (hkeep p hp)⟩
  · rintro ⟨⟨cycle, hc, hfirst, hd, rfl⟩, hspared⟩
    have hkeep : ∀ p ∈ ElementaryCycles.pairs cycle, decide (p ∉ cfg.suppressions) = true :=
      fun p hp => decide_eq_true (of_decide_eq_true hspared p hp)
    exact ⟨cycle, ⟨hc, hkeep⟩, hfirst, (drivenByTwo_filter_iff hkeep).mpr hd,
      (abbaFinding_filter hkeep).symm⟩

end Detection

/-- `a` reports what `base` does, less what is suppressed: the lock edges
that are not, in their order; the self-deadlocks of the instances that are
not, in their order; and the live cycles without a suppressed edge, each
once. -/
structure OnlyFilters (S : Finset (String × String)) (base a : AnalyzerState) : Prop where
  lockEdges : a.lockEdges = base.lockEdges.filter fun key => key ∉ S
  selfs : a.findings.filter (·.kind = .selfDeadlock)
    = (base.findings.filter (·.kind = .selfDeadlock)).filter fun f => ∀ x ∈ f.cycle, (x, x) ∉ S
  abbas : (a.findings.filter (·.kind = .abba)).Perm
    ((base.findings.filter (·.kind = .abba)).filter fun f =>
      ∀ p ∈ ElementaryCycles.pairs f.cycle, p ∉ S)
  findings : ∀ f, f ∈ a.findings ↔ f ∈ base.findings ∧ ∀ p ∈ ElementaryCycles.pairs f.cycle, p ∉ S
  truncated : a.truncated = base.truncated

theorem filter_kind {kind kind' : FindingKind} {fs : List Finding} (h : ∀ f ∈ fs, f.kind = kind) :
    fs.filter (fun f => f.kind = kind') = if kind = kind' then fs else [] := by
  split
  · rename_i heq
    exact List.filter_eq_self.mpr fun f hf => decide_eq_true ((h f hf).trans heq)
  · rename_i hne
    exact List.filter_eq_nil_iff.mpr fun f hf => by simpa [h f hf] using hne

/-- Self-deadlocks that are filtered, and live cycles appended after them. -/
theorem OnlyFilters.of_parts {S : Finset (String × String)} {base a built : AnalyzerState}
    {cycles cycles' : List Finding} (hedges : a.lockEdges = base.lockEdges.filter fun key => key ∉ S)
    (hselfs : OnlySelfs built) (hkinds : ∀ f ∈ cycles, f.kind = .abba)
    (hbase : base.findings = built.findings ++ cycles)
    (ha : a.findings = (built.suppress S).findings ++ cycles')
    (hcycles : cycles'.Perm (cycles.filter (spared S))) (htrunc : a.truncated = base.truncated) :
    OnlyFilters S base a := by
  have hkinds' : ∀ f ∈ cycles', f.kind = .abba := fun f hf =>
    hkinds f (List.mem_filter.mp (hcycles.mem_iff.mp hf)).1
  have hsuppressed : ∀ f ∈ (built.suppress S).findings, f.kind = .selfDeadlock :=
    fun f hf => (hselfs f (List.mem_filter.mp hf).1).1
  have hspared : ∀ f ∈ built.findings, spared S f = decide (∀ x ∈ f.cycle, (x, x) ∉ S) := by
    intro f hf
    obtain ⟨_, x, hx⟩ := hselfs f hf
    rw [spared_singleton S hx, hx]
    simp
  refine ⟨hedges, ?_, ?_, ?_, htrunc⟩
  · rw [ha, hbase, List.filter_append, List.filter_append, filter_kind hkinds, filter_kind hkinds',
      filter_kind fun f hf => (hselfs f hf).1, filter_kind hsuppressed]
    simp only [reduceIte, reduceCtorEq, List.append_nil]
    exact List.filter_congr hspared
  · rw [ha, hbase, List.filter_append, List.filter_append, filter_kind hkinds, filter_kind hkinds',
      filter_kind fun f hf => (hselfs f hf).1, filter_kind hsuppressed]
    simp only [reduceIte, reduceCtorEq, List.nil_append]
    exact hcycles
  · intro f
    rw [ha, hbase, List.mem_append, List.mem_append, hcycles.mem_iff]
    simp only [AnalyzerState.suppress, List.mem_filter, spared, decide_eq_true_eq]
    tauto

/-- **Suppressions only filter.** Against an untruncated run without
suppressions, a run with them ends or raises alike and reports what is left
of the findings and edges once the suppressed orderings are taken out. -/
theorem run_suppressions (g : TopologyGraph) (cfg : AnalyzerSettings)
    (htrunc : (run g cfg.unsuppressed).2.analyzer.truncated = false) :
    (run g cfg).1 = (run g cfg.unsuppressed).1
      ∧ OnlyFilters cfg.suppressions (run g cfg.unsuppressed).2.analyzer
          (run g cfg).2.analyzer := by
  have hbuild := buildLockGraph_suppress cfg g
  have hselfs := onlySelfs_buildLockGraph cfg.unsuppressed g
  unfold run at htrunc ⊢
  rw [hbuild]
  cases hrun : buildLockGraph g cfg.unsuppressed with
  | mk r s =>
    rw [hrun] at htrunc hselfs
    cases r with
    | error e =>
      refine ⟨rfl, @OnlyFilters.of_parts _ _ _ _ [] [] rfl hselfs (by simp) ?_ ?_ .rfl rfl⟩
      · exact (List.append_nil _).symm
      · exact (List.append_nil _).symm
    | ok _ =>
      have htrunc' := detectCycles_suppress_truncated htrunc
      refine ⟨rfl, .of_parts ?_ hselfs ?_ (detectCycles_findings _ _) (detectCycles_findings _ _)
        (cycleFindings_suppress htrunc) ?_⟩
      · show (detectCycles _ _).lockEdges = Dict.filter (detectCycles _ _).lockEdges _
        rw [detectCycles_lockEdges, detectCycles_lockEdges]
        rfl
      · exact fun f hf => (mem_cycleFindings hf).kind
      · exact htrunc'.trans htrunc.symm

/-- Suppressing one ordering of two threads that take two mutexes in opposite
orders: the run loses an edge and the ABBA finding, and keeps the rest. -/
theorem run_suppressions_row :
    (run crossTopology {}).2.analyzer.lockEdges.keys = [("x", "y"), ("y", "x")]
      ∧ (run crossTopology { suppressions := {("x", "y")} }).2.analyzer.lockEdges.keys
        = [("y", "x")]
      ∧ ((run crossTopology {}).2.analyzer.findings.map Finding.kind).count .abba = 1
      ∧ ((run crossTopology { suppressions := {("x", "y")} }).2.analyzer.findings.map
          Finding.kind).count .abba = 0
      ∧ OnlyFilters {("x", "y")} (run crossTopology {}).2.analyzer
        (run crossTopology { suppressions := {("x", "y")} }).2.analyzer :=
  ⟨by decide +kernel, by decide +kernel, by decide +kernel, by decide +kernel,
    (run_suppressions crossTopology { suppressions := {("x", "y")} } (by decide +kernel)).2⟩

end FprimeTopologyAnalysis
