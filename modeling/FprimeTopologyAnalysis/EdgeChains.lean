/-
FprimeTopologyAnalysis.EdgeChains — the call chains reported with an edge
(`_edge_call_chains` of `guarded_port_analyzer.py`).

For each thread the report shows how it comes down to the edge's `entry`.
The threads of an edge are gathered over every entry that records it; the
entry is one of these, the first or the one with the shortest witness. A
thread that drives the edge through another entry only has no chain down to
this one, and the report is silent about it. So every driving thread gets
its chain exactly where each of them reaches the recorded entry
(`edgeCallChains_iff`).
-/
import FprimeTopologyAnalysis.AnalyzerRun
import FprimeTopologyAnalysis.CallPath

namespace FprimeTopologyAnalysis

open Library

/-! ## The call chains of an edge -/

/-- Origins are ordered by their tokens. -/
def originLe (a b : Origin) : Prop := a.str ≤ b.str

instance : DecidableRel originLe := fun a b => inferInstanceAs (Decidable (a.str ≤ b.str))

instance : IsTrans Origin originLe := ⟨fun _ _ _ h h' => le_trans (α := String) h h'⟩

instance : Std.Antisymm originLe := ⟨fun _ _ h h' => Origin.str_injective (le_antisymm h h')⟩

instance : Std.Total originLe := ⟨fun a b => le_total a.str b.str⟩

/-- `sorted(origins)`. -/
def sortOrigins (origins : Finset Origin) : List Origin := origins.sort originLe

/-- `if path: chains[thread] = path`. -/
def recordPath (chains : Dict Origin (List String)) (thread : Origin) :
    Option (List String) → Dict Origin (List String)
  | none => chains
  | some [] => chains
  | some (label :: labels) => chains.set thread (label :: labels)

/-- The loop of `_edge_call_chains`. -/
def chainLoop (g : TopologyGraph) (entry : PortKey) :
    List Origin → Dict Origin (List String) → OriginM (Dict Origin (List String))
  | [], chains => pure chains
  | thread :: threads, chains =>
    if thread.isThread then do
      let path ← g.originCallPath thread entry
      chainLoop g entry threads (recordPath chains thread path)
    else chainLoop g entry threads chains

/-- `_edge_call_chains`. -/
def edgeCallChains (g : TopologyGraph) (edge : LockEdge) : OriginM (Dict Origin (List String)) := do
  let threads ← g.threadsReaching edge.entry
  chainLoop g edge.entry (sortOrigins threads) ∅

section Chains

variable {g : TopologyGraph} {s : OriginState}

/-- A path to be reported has a label. -/
theorem TopologyGraph.IsCallPath.ne_nil {o : Origin} {p : PortKey} {labels : List String}
    (h : g.IsCallPath o p labels) : labels ≠ [] := by
  rcases h with ⟨_, rfl⟩ | ⟨_, _, _, _, _, _, _, _, rfl, _⟩
  · simp
  · simp

theorem get?_recordPath (chains : Dict Origin (List String)) (thread t : Origin)
    {labels : List String} (hne : labels ≠ []) :
    (recordPath chains thread (some labels)).get? t
      = if t = thread then some labels else chains.get? t := by
  cases labels with
  | nil => exact absurd rfl hne
  | cons label labels => exact Dict.get?_set _ _ _ _

/-- Every thread the loop comes to gets its path, and no one else. -/
theorem chainLoop_spec (hs : g.CompleteOrigins s) (entry : PortKey) :
    ∀ (threads : List Origin) (chains : Dict Origin (List String)),
      (∀ t ∈ threads, t.isThread → t ∈ s.threadsAt entry) →
      ∃ chains', chainLoop g entry threads chains s = (.ok chains', s)
        ∧ ∀ t, (t ∈ threads → t.isThread →
            ∃ labels, chains'.get? t = some labels ∧ g.IsCallPath t entry labels)
          ∧ (¬ (t ∈ threads ∧ t.isThread) → chains'.get? t = chains.get? t)
  | [], chains, _ => ⟨chains, rfl, by simp⟩
  | thread :: threads, chains, hin => by
      have hrest : ∀ t ∈ threads, t.isThread → t ∈ s.threadsAt entry :=
        fun t ht => hin t (List.mem_cons_of_mem _ ht)
      rw [chainLoop]
      by_cases hthread : thread.isThread
      · rw [if_pos hthread]
        have hmem := hin thread (List.mem_cons_self ..) hthread
        obtain ⟨path, hpath, hsome, hall⟩ := hs.originCallPath hmem entry
        have hreach : thread ∈ s.reachingAt entry := by
          unfold OriginState.reachingAt
          rw [if_neg (Finset.ne_empty_of_mem hmem)]
          exact hmem
        obtain ⟨labels, rfl⟩ := Option.isSome_iff_exists.mp (hsome.mpr hreach)
        have hcall := hall labels rfl
        obtain ⟨chains', hrun, hspec⟩ := chainLoop_spec hs entry threads
          (recordPath chains thread (some labels)) hrest
        refine ⟨chains', ?_, fun t => ⟨fun ht htt => ?_, fun hnot => ?_⟩⟩
        · rw [OriginM.bind_apply, hpath]
          exact hrun
        · by_cases hmem' : t ∈ threads
          · exact (hspec t).1 hmem' htt
          · obtain rfl : t = thread := (List.mem_cons.mp ht).resolve_right hmem'
            refine ⟨labels, ?_, hcall⟩
            rw [(hspec t).2 fun h => hmem' h.1, get?_recordPath chains t t hcall.ne_nil, if_pos rfl]
        · have hne : t ≠ thread := fun h => hnot ⟨h ▸ List.mem_cons_self .., h ▸ hthread⟩
          rw [(hspec t).2 fun h => hnot ⟨List.mem_cons_of_mem _ h.1, h.2⟩,
            get?_recordPath chains thread t hcall.ne_nil, if_neg hne]
      · rw [if_neg hthread]
        obtain ⟨chains', hrun, hspec⟩ := chainLoop_spec hs entry threads chains hrest
        refine ⟨chains', hrun, fun t => ⟨fun ht htt => ?_, fun hnot => (hspec t).2 fun h =>
          hnot ⟨List.mem_cons_of_mem _ h.1, h.2⟩⟩⟩
        have hne : t ≠ thread := fun h => hthread (h ▸ htt)
        exact (hspec t).1 ((List.mem_cons.mp ht).resolve_left hne) htt

/-- The chains are one for each real thread that reaches the edge's entry. -/
theorem edgeCallChains_spec (hs : g.CompleteOrigins s) (edge : LockEdge) :
    ∃ chains, edgeCallChains g edge s = (.ok chains, s)
      ∧ ∀ t : String, (g.LandsOn (.thread t) edge.entry →
          ∃ labels, chains.get? (.thread t) = some labels
            ∧ g.IsCallPath (.thread t) edge.entry labels)
        ∧ (chains.get? (.thread t) ≠ none → g.LandsOn (.thread t) edge.entry) := by
  have hmem : ∀ t, t ∈ sortOrigins (s.reachingAt edge.entry) ↔ t ∈ s.reachingAt edge.entry :=
    fun t => Finset.mem_sort _
  have hlands : ∀ t : String, Origin.thread t ∈ s.reachingAt edge.entry
      ↔ g.LandsOn (.thread t) edge.entry := by
    intro t
    rw [TopologyGraph.mem_reachingAt_iff hs]
    exact or_iff_left fun h => nomatch h.1
  obtain ⟨chains, hrun, hspec⟩ := chainLoop_spec hs edge.entry
    (sortOrigins (s.reachingAt edge.entry)) ∅ (fun o ho ht => by
      cases o with
      | thread t =>
        exact (TopologyGraph.mem_portThreads_iff hs _ _).mpr ((hlands t).mp ((hmem _).mp ho))
      | external p => cases ht
      | unknown => cases ht)
  refine ⟨chains, ?_, fun t => ⟨fun hl => ?_, fun hne => ?_⟩⟩
  · unfold edgeCallChains
    rw [OriginM.bind_apply, Coherent.threadsReaching hs (.inr hs)]
    exact hrun
  · exact (hspec (.thread t)).1 ((hmem _).mpr ((hlands t).mpr hl)) rfl
  · by_contra hnot
    refine hne ((hspec (.thread t)).2 fun h => hnot ?_)
    exact (hlands t).mp ((hmem _).mp h.1)

end Chains

/-! ## The edges of a finished run -/

/-- A lock chain out of guarded entry `e` takes the edge's second mutex
while it holds the first. -/
def Drives (g : TopologyGraph) (e : PortKey) (edge : LockEdge) : Prop :=
  e ∈ guardedInputs g ∧ ∃ h held path hop, LockChain g e h held path ∧ g.HopOut h hop
    ∧ hop.kind = .guarded ∧ hop.dest.inst = edge.acquired ∧ edge.holder ∈ held

section Finished

variable {g : TopologyGraph} {cfg : AnalyzerSettings}

/-- A round that ends well has recorded genuine chains, and the propagation
behind it is complete. -/
theorem walkGuardedEntry_ok {e : PortKey} (he : e ∈ guardedInputs g) {s s' : BuildState}
    (hco : Coherent g s.origins) (hsound : Sound g cfg s.analyzer)
    (hrun : walkGuardedEntry g cfg e s = (.ok (), s')) :
    g.CompleteOrigins s'.origins ∧ Sound g cfg s'.analyzer := by
  unfold walkGuardedEntry at hrun
  cases hthreads : g.threadsReaching e s.origins with
  | mk r origins =>
    rw [hthreads] at hrun
    cases r with
    | error err => cases hrun
    | ok threads =>
      obtain ⟨hc, rfl⟩ := hco.of_threadsReaching hthreads
      have hwalk := walk_sound cfg he (fun o ho => (TopologyGraph.mem_reachingAt_iff hc).mp ho)
        ⟨s.budget, s.analyzer, []⟩ hsound
      dsimp only at hrun
      cases hw : g.walkChains e .guarded (onHop cfg e (origins.reachingAt e)) [e.inst] List.toFinset
          ⟨s.budget, s.analyzer, []⟩ with
      | mk r w =>
        rw [hw] at hrun hwalk
        cases r with
        | error err => cases hrun
        | ok cut =>
          obtain rfl : _ = s' := congrArg Prod.snd hrun
          exact ⟨hc, hwalk.of_eq rfl rfl⟩

theorem walkEntries_ok : ∀ (entries : List PortKey) (s s' : BuildState),
    (∀ e ∈ entries, e ∈ guardedInputs g) → Coherent g s.origins → Sound g cfg s.analyzer →
    walkEntries g cfg entries s = (.ok (), s') →
    Coherent g s'.origins ∧ Sound g cfg s'.analyzer
      ∧ (entries ≠ [] → g.CompleteOrigins s'.origins)
  | [], s, s', _, hco, hsound, hrun => by
      obtain rfl : s = s' := congrArg Prod.snd hrun
      exact ⟨hco, hsound, fun h => absurd rfl h⟩
  | e :: entries, s, s', hin, hco, hsound, hrun => by
      rw [walkEntries] at hrun
      cases hround : walkGuardedEntry g cfg e s with
      | mk r s₁ =>
        rw [hround] at hrun
        cases r with
        | error err => cases hrun
        | ok _ =>
          obtain ⟨hc, hsound₁⟩ := walkGuardedEntry_ok (hin e (List.mem_cons_self ..)) hco hsound hround
          obtain ⟨hco', hsound', hend⟩ := walkEntries_ok entries s₁ s'
            (fun x hx => hin x (List.mem_cons_of_mem _ hx)) (.inr hc) hsound₁ hrun
          refine ⟨hco', hsound', fun _ => ?_⟩
          cases entries with
          | nil =>
            obtain rfl : s₁ = s' := congrArg Prod.snd hrun
            exact hc
          | cons x rest => exact hend (by simp)

/-- What the cycle detection of a run that ends well starts from: genuine
records, and a complete propagation if anything was walked. -/
theorem run_built {s : BuildState} (hrun : run g cfg = (.ok (), s)) :
    ∃ a, s.analyzer = detectCycles cfg a ∧ Sound g cfg a
      ∧ (guardedInputs g ≠ [] → g.CompleteOrigins s.origins) := by
  unfold run at hrun
  cases hbuild : buildLockGraph g cfg with
  | mk r t =>
    rw [hbuild] at hrun
    cases r with
    | error e => cases hrun
    | ok _ =>
      obtain rfl : _ = s := congrArg Prod.snd hrun
      obtain ⟨_, hsound, hend⟩ := walkEntries_ok (guardedInputs g) ⟨.init, cfg.maxStates, .fresh⟩ t
        (fun _ h => h) (.inl rfl) sound_init hbuild
      exact ⟨t.analyzer, rfl, hsound, hend⟩

/-- An edge of a finding is driven from its entry, and the propagation the
run has made is complete. -/
theorem run_edge {s : BuildState} (hrun : run g cfg = (.ok (), s)) {f : Finding}
    (hf : f ∈ s.analyzer.findings) {edge : LockEdge} (hedge : edge ∈ f.edges) :
    g.CompleteOrigins s.origins ∧ Drives g edge.entry edge := by
  obtain ⟨a, hdetect, hsound, hend⟩ := run_built hrun
  rw [hdetect] at hf
  have hdrives : Drives g edge.entry edge := by
    rcases detectCycles_sound hf with hold | ⟨cycle, _, _, _, rfl⟩
    · obtain ⟨x, edge', hself⟩ := hsound.findings f hold
      rw [hself.edges, List.mem_singleton] at hedge
      subst hedge
      obtain ⟨hholder, hacquired⟩ := Prod.mk.inj hself.key_eq
      have hre := hself.witness
      obtain ⟨h, held, path, hop, hc, hhop, hk, hd, hmem, _⟩ := hre
      exact ⟨hself.witness.mem_guardedInputs, h, held, path, hop, hc.mono fun _ _ => trivial,
        hhop, hk, hd.trans hacquired.symm, hholder ▸ hmem⟩
    · obtain ⟨key, _, hget⟩ := List.mem_filterMap.mp hedge
      have hes := hsound.edges key edge hget
      obtain ⟨rfl⟩ : (edge.holder, edge.acquired) = key := hes.key_eq
      obtain ⟨h, held, path, hop, hc, hhop, hk, hd, _, hmem, _⟩ := hes.witness
      exact ⟨hes.witness.mem_guardedInputs, h, held, path, hop, hc.mono fun _ _ => trivial,
        hhop, hk, hd, hmem⟩
  exact ⟨hend (List.ne_nil_of_mem hdrives.1), hdrives⟩

end Finished

/-- Every real thread of the edge has a chain from its seed to a guarded
entry that drives the edge. -/
def ChainsComplete (g : TopologyGraph) (edge : LockEdge) (chains : Dict Origin (List String)) : Prop :=
  ∀ t, Origin.thread t ∈ edge.threads → ∃ labels e, chains.get? (.thread t) = some labels
    ∧ g.IsCallPath (.thread t) e labels ∧ Drives g e edge

/-- **Every driving thread gets its call chain exactly where each of them
reaches the recorded entry**, for every edge of every finding of a run that
ends well. -/
theorem edgeCallChains_iff (g : TopologyGraph) (cfg : AnalyzerSettings) (s : BuildState)
    (hrun : run g cfg = (.ok (), s)) (f : Finding) (hf : f ∈ s.analyzer.findings) (edge : LockEdge)
    (hedge : edge ∈ f.edges) :
    ∃ chains, edgeCallChains g edge s.origins = (.ok chains, s.origins)
      ∧ (ChainsComplete g edge chains
        ↔ ∀ t, Origin.thread t ∈ edge.threads → g.LandsOn (.thread t) edge.entry) := by
  obtain ⟨hc, hdrives⟩ := run_edge hrun hf hedge
  obtain ⟨chains, hchains, hspec⟩ := edgeCallChains_spec hc edge
  refine ⟨chains, hchains, fun h t ht => ?_, fun h t ht => ?_⟩
  · obtain ⟨labels, _, hget, _⟩ := h t ht
    exact (hspec t).2 (by simp [hget])
  · obtain ⟨labels, hget, hpath⟩ := (hspec t).1 (h t ht)
    exact ⟨labels, edge.entry, hget, hpath, hdrives⟩

/-! Two threads that come in by different doors: `t1` calls `x.gIn`, `t2`
calls `x.go`, and both handlers call back into `x`. -/

/-- An active instance whose handler calls `out`. -/
def callerInstance : InstanceInfo where
  kind := .active
  inputPorts := .ofList [(.go, {.async})]
  outputPorts := [.out]

def doorsTopology : TopologyGraph where
  instances := .ofList [
    ("t1", callerInstance), ("t2", callerInstance),
    ("x", { kind := .passive
            inputPorts := .ofList [(.gIn, {.guarded}), (.go, {.guarded}), (.run, {.guarded})]
            outputPorts := [.out] })]
  connections := .ofList [(⟨"t1", .out⟩, [⟨"x", .gIn⟩]), (⟨"t2", .out⟩, [⟨"x", .go⟩]),
    (⟨"x", .out⟩, [⟨"x", .run⟩])]
  flow := .permissive ∅

/-- The edge of the self-deadlock is driven by both, and the chains reported
with it leave `t2` out: they lead to `x.gIn`, which `t2` does not call. -/
theorem edgeCallChains_misses_doors :
    (run doorsTopology {}).1 = .ok ()
      ∧ ∃ f ∈ (run doorsTopology {}).2.analyzer.findings, ∃ edge ∈ f.edges,
        Origin.thread "t2" ∈ edge.threads ∧ edge.entry = ⟨"x", .gIn⟩
        ∧ ((edgeCallChains doorsTopology edge (run doorsTopology {}).2.origins).1.map
          fun chains => (chains.get? (.thread "t1"), chains.get? (.thread "t2")))
          = .ok (some ["t1.go [origin]", "t1.out -> x.gIn [guarded]"], none) := by
  decide +kernel

theorem edgeCallChains_iff_doors :
    ∃ f ∈ (run doorsTopology {}).2.analyzer.findings, ∃ edge ∈ f.edges, ∃ chains,
      edgeCallChains doorsTopology edge (run doorsTopology {}).2.origins
          = (.ok chains, (run doorsTopology {}).2.origins)
        ∧ (ChainsComplete doorsTopology edge chains
          ↔ ∀ t, Origin.thread t ∈ edge.threads → doorsTopology.LandsOn (.thread t) edge.entry) := by
  obtain ⟨f, hf, edge, hedge, _⟩ : ∃ f ∈ (run doorsTopology {}).2.analyzer.findings,
      ∃ edge ∈ f.edges, Origin.thread "t2" ∈ edge.threads := by decide
  exact ⟨f, hf, edge, hedge,
    edgeCallChains_iff doorsTopology {} _ (Prod.ext (by decide) rfl) f hf edge hedge⟩

end FprimeTopologyAnalysis
