/-
FprimeTopologyAnalysis.Registry — the checks that `checks.py` runs, in its
order, and the report that comes of them (`CHECKS`, `run_checks`).

The checks share one graph, and through it the table of origins that the
first query fills in. `registry_exact` says that none sees what another
did: on a topology all of whose handlers resolve the report is what each
check reports on its own, one after the other, a selection of checks
reports what the full run reports of them, and no check is skipped but one.

The buffer check is that one. It looks a peer up that need not be in the
graph, and what it raises is no `UnresolvedFlowError`, so it is no `Check`
here but a round of its own.
-/
import FprimeTopologyAnalysis.BufferOwnership
import FprimeTopologyAnalysis.RaceRuns
import FprimeTopologyAnalysis.StackDepth
import FprimeTopologyAnalysis.SyncCycle
import FprimeTopologyAnalysis.WiringChecks

namespace FprimeTopologyAnalysis

open Library TopologyGraph

/-! ## The registry -/

/-- `StackDepth`: the deepest synchronous chain of each thread. -/
def stackDepth (stackSizes : Dict String Int) : Check where
  id := "stack-depth"
  requiresFlow := true
  body g := OriginM.ofExcept (StackDepth.run g stackSizes)
  queries _ := .ofExcept _

/-- One round of the loop of `run_checks`. -/
structure Round where
  id : String
  report : TopologyGraph → OriginState → CheckReport × OriginState

/-- The round of a check. -/
def Check.round (check : Check) : Round := ⟨check.id, fun g s => runCheck g check s⟩

/-- The round of `BufferOwnership`. The text of a `KeyError` is the key in
quotes. -/
def bufferOwnership : Round where
  id := "buffer-ownership"
  report g s :=
    match BufferOwnership.run g with
    | .ok raws =>
      (⟨raws.map fun raw =>
        ⟨"buffer-ownership", raw.severity, raw.subject, raw.message, raw.evidence⟩, []⟩, s)
    | .error (.notAnInstance name) =>
      (⟨[], [⟨"buffer-ownership", "failed with KeyError: '" ++ name ++ "'"⟩]⟩, s)

/-- `CHECKS`, where the instances of the graph declare `cpu` and
`stackSizes`. -/
def checks (cpu : String → Option Int) (stackSizes : Dict String Int) : List Round :=
  [priorityInversionWindow.round, unconnectedPortInvoked.round, syncCycle.round,
    pingCoverage.round, dataRace.round, bufferOwnership, (stackDepth stackSizes).round,
    rateGroup.round, fatalPath.round, queueOverflow.round, commandTelemetryPaths.round,
    (cpuAffinity cpu).round]

/-- `if selected and check.id not in selected`, the other way round. -/
def Round.selectedBy (selected : Finset String) (round : Round) : Bool :=
  selected = ∅ ∨ round.id ∈ selected

/-- `run_checks`, over any rounds. -/
def runRounds (g : TopologyGraph) (selected : Finset String) :
    List Round → OriginState → CheckReport × OriginState
  | [], s => (⟨[], []⟩, s)
  | round :: rounds, s =>
    if round.selectedBy selected then
      let r := round.report g s
      let rest := runRounds g selected rounds r.2
      (⟨r.1.findings ++ rest.1.findings, r.1.skipped ++ rest.1.skipped⟩, rest.2)
    else runRounds g selected rounds s

/-- Over checks it is `runChecks`. -/
theorem runRounds_map (g : TopologyGraph) (selected : Finset String) :
    ∀ (cs : List Check) (s : OriginState),
      runRounds g selected (cs.map Check.round) s = runChecks g selected cs s
  | [], _ => rfl
  | check :: cs, s => by
      have hrest := runRounds_map g selected cs
      have hselected : check.round.selectedBy selected = selects selected check := rfl
      rw [List.map_cons, runRounds, runChecks, hselected]
      split
      · dsimp only
        rw [hrest]
        rfl
      · exact hrest s

/-! ## One check does not see another -/

/-- On coherent states a round reports as on the fresh graph, and leaves
them coherent. -/
def Round.Steady (g : TopologyGraph) (round : Round) : Prop :=
  ∀ s, Coherent g s → (round.report g s).1 = (round.report g .fresh).1
    ∧ Coherent g (round.report g s).2

/-- All of a round's findings and notes carry its id. -/
def Round.Stamps (g : TopologyGraph) (round : Round) : Prop :=
  (∀ f ∈ (round.report g .fresh).1.findings, f.check = round.id)
    ∧ ∀ n ∈ (round.report g .fresh).1.skipped, n.check = round.id

section Rounds

variable {g : TopologyGraph} {complete : OriginState}

theorem steady_round (hc : g.CompleteOrigins complete) (check : Check) : check.round.Steady g :=
  fun _ hs => runCheck_steady hc check hs

theorem steady_bufferOwnership : bufferOwnership.Steady g := by
  intro s hs
  simp only [bufferOwnership]
  split
  · exact ⟨rfl, hs⟩
  · exact ⟨rfl, hs⟩

theorem steady_checks (hc : g.CompleteOrigins complete) (cpu : String → Option Int)
    (stackSizes : Dict String Int) : ∀ round ∈ checks cpu stackSizes, round.Steady g := by
  simp [checks, steady_round hc, steady_bufferOwnership]

theorem stamps_round (check : Check) : check.round.Stamps g := by
  have habout := runCheck_about (g := g) check .fresh check.id
  rw [if_pos rfl] at habout
  obtain ⟨hfindings, hskipped⟩ := CheckReport.mk.inj habout
  constructor
  · intro f hf
    exact of_decide_eq_true (List.filter_eq_self.mp hfindings f hf)
  · intro n hn
    exact of_decide_eq_true (List.filter_eq_self.mp hskipped n hn)

theorem stamps_bufferOwnership : bufferOwnership.Stamps g := by
  unfold Round.Stamps bufferOwnership
  dsimp only
  split <;> simp

theorem stamps_checks (cpu : String → Option Int) (stackSizes : Dict String Int) :
    ∀ round ∈ checks cpu stackSizes, round.Stamps g := by
  simp [checks, stamps_round, stamps_bufferOwnership]

/-- The report is that of each selected round on its own. -/
theorem runRounds_eq (selected : Finset String) :
    ∀ (rounds : List Round) (s : OriginState), Coherent g s → (∀ round ∈ rounds, round.Steady g) →
      (runRounds g selected rounds s).1
        = ⟨(rounds.filter (Round.selectedBy selected)).flatMap fun round =>
            (round.report g .fresh).1.findings,
          (rounds.filter (Round.selectedBy selected)).flatMap fun round =>
            (round.report g .fresh).1.skipped⟩
  | [], _, _, _ => rfl
  | round :: rounds, s, hs, hsteady => by
      rw [List.forall_mem_cons] at hsteady
      obtain ⟨heq, hco⟩ := hsteady.1 s hs
      rw [runRounds]
      by_cases hsel : round.selectedBy selected
      · have hrest := runRounds_eq selected rounds (round.report g s).2 hco hsteady.2
        simp only [hsel, if_true, List.filter_cons, List.flatMap_cons, hrest, heq]
      · have hrest := runRounds_eq selected rounds s hs hsteady.2
        simp only [hsel, Bool.false_eq_true, if_false, List.filter_cons, hrest]

end Rounds

/-! ## No check raises -/

/-- `m` answers on every coherent state. -/
def Answered (g : TopologyGraph) {α : Type} (m : OriginM α) : Prop := ∃ a, Answers g m a

section Answered

variable {g : TopologyGraph} {complete : OriginState} {α β : Type}

theorem Answered.pure (a : α) : Answered g (Pure.pure a : OriginM α) := ⟨a, .pure a⟩

theorem Answered.ofExcept {r : Except UnresolvedFlowError α} (h : ∃ a, r = .ok a) :
    Answered g (OriginM.ofExcept r) := by
  obtain ⟨a, rfl⟩ := h
  exact .pure a

theorem Answered.bind {m : OriginM α} {f : α → OriginM β} (hm : Answered g m)
    (hf : ∀ a, Answered g (f a)) : Answered g (m >>= f) := by
  obtain ⟨a, ha⟩ := hm
  obtain ⟨b, hb⟩ := hf a
  exact ⟨b, ha.bind hb⟩

theorem Answered.collect {body : α → OriginM (List β)} :
    ∀ xs, (∀ x ∈ xs, Answered g (body x)) → Answered g (OriginM.collect body xs)
  | [], _ => .pure []
  | x :: xs, h => by
      rw [List.forall_mem_cons] at h
      exact h.1.bind fun _ => (Answered.collect xs h.2).bind fun _ => .pure _

theorem Answered.threadsReaching (hc : g.CompleteOrigins complete) (port : PortKey) :
    Answered g (g.threadsReaching port) :=
  ⟨_, .threadsReaching hc port⟩

/-- A check whose body answers is not skipped for what it raises. -/
theorem skipped_of_answered {check : Check} (h : Answered g (check.body g))
    (hflow : g.flow.isEmpty → g.flow.strict = false) : (check.round.report g .fresh).1.skipped = [] := by
  obtain ⟨findings, hanswers⟩ : Answered g (check.run g) := h.bind fun _ => .pure _
  obtain ⟨s, hrun, _⟩ := hanswers .fresh (.inl rfl)
  simp only [Check.round, runCheck]
  split
  · rename_i hskip
    exact absurd hskip.2.2 (by simp [hflow hskip.2.1])
  · rw [hrun]

end Answered

section Resolving

variable {g : TopologyGraph}

/-- A handler of an instance. -/
theorem mem_handlers_of_check {name : String} {info : InstanceInfo} {h : PortName × String × SyncKind}
    (hget : g.instances.get? name = some info) (hh : h ∈ Check.handlers info) :
    (name, h.2.1) ∈ g.handlers := by
  obtain ⟨hkind, hentry⟩ := Check.mem_handlers.mp hh
  exact TopologyGraph.mem_handlers.mpr ⟨⟨name, h.1⟩, _, info, hget, hkind, _, hentry, rfl⟩

theorem exists_hops (hres : g.AllResolve) {node : Handler} (hnode : node ∈ g.handlers) :
    ∃ hops, g.outwardHops node.1 node.2 = .ok hops ∧ ∀ hop ∈ hops, g.HopOut node hop := by
  obtain ⟨hops, hok⟩ := hres node hnode
  exact ⟨hops, hok, fun hop hhop => ⟨hops, hok, hhop⟩⟩

/-- What is done for each handler behind a hop is done to the end. -/
theorem entries_loop_ok {node : Handler} {hop : OutwardHop} (hhop : g.HopOut node hop) {σ : Type}
    {kind : SyncKind} (hkind : kind ∈ hop.destInfo.kindsOf hop.dest.port)
    {body : σ → String → Except UnresolvedFlowError σ}
    (hbody : ∀ s nxt, (hop.dest.inst, nxt) ∈ g.handlers → ∃ s', body s nxt = .ok s') (s : σ) :
    ∃ s', (hop.destInfo.flowEntries hop.dest.port kind).foldlM body s = .ok s' := by
  refine SimplePaths.foldlM_ok _ (fun nxt hnxt s => hbody s nxt ?_) s
  exact TopologyGraph.mem_handlers.mpr ⟨hop.dest, kind, hop.destInfo, hhop.dest_spec.1, hkind, nxt,
    hnxt, rfl⟩

theorem deepest_ok (hres : g.AllResolve) : ∀ (room : Nat) (node : Handler) (path : List String)
    (seen : Finset Handler), node ∈ g.handlers →
      ∃ chain, StackDepth.deepest g room node path seen = .ok chain
  | 0, _, path, _, _ => ⟨path, rfl⟩
  | room + 1, node, path, seen, hnode => by
      rw [StackDepth.deepest]
      split
      · exact ⟨path, rfl⟩
      · obtain ⟨hops, hok, hhops⟩ := exists_hops hres hnode
        rw [hok]
        refine SimplePaths.foldlM_ok hops (fun hop hhop best => ?_) path
        split
        · exact ⟨best, rfl⟩
        · refine entries_loop_ok (hhops hop hhop) (hhops hop hhop).dest_spec.2
            (fun best nxt hnxt => ?_) best
          obtain ⟨chain, hchain⟩ := deepest_ok hres room _ (path ++ [hop.dest.str])
            (insert node seen) hnxt
          exact ⟨_, SimplePaths.map_eq_ok_iff.mpr ⟨chain, hchain, rfl⟩⟩

theorem count_ok (hres : g.AllResolve) : ∀ (room : Nat) (node : Handler) (seen : Finset Handler)
    (s : QueueOverflow.Counted), node ∈ g.handlers →
      ∃ s', QueueOverflow.count g room node seen s = .ok s'
  | 0, _, _, s, _ => ⟨s, rfl⟩
  | room + 1, node, seen, s, hnode => by
      rw [QueueOverflow.count]
      split
      · exact ⟨s, rfl⟩
      · split
        · exact ⟨s, rfl⟩
        · obtain ⟨hops, hok, hhops⟩ := exists_hops hres hnode
          rw [hok]
          refine SimplePaths.foldlM_ok hops (fun hop hhop s => ?_) s
          split
          · exact ⟨_, rfl⟩
          · exact entries_loop_ok (hhops hop hhop) (hhops hop hhop).dest_spec.2
              (fun s nxt hnxt => count_ok hres room _ _ s hnxt) _

theorem walk_ok (hres : g.AllResolve) : ∀ (room : Nat) (node : Handler) (path : List String)
    (onPath : Finset Handler) (s : SyncCycle.Reported), node ∈ g.handlers →
      ∃ s', SyncCycle.walk g room node path onPath s = .ok s'
  | 0, _, _, _, _, _ => ⟨_, rfl⟩
  | room + 1, node, path, onPath, s, hnode => by
      rw [SyncCycle.walk]
      split
      · exact ⟨_, rfl⟩
      · obtain ⟨hops, hok, hhops⟩ := exists_hops hres hnode
        rw [hok]
        refine SimplePaths.foldlM_ok _ (fun hop hhop s => ?_) s
        obtain ⟨hmem, hsync⟩ := List.mem_filter.mp hhop
        -- a port that is sync only is entered under sync
        have hkinds : hop.destInfo.inputPorts.get? hop.dest.port = some {.sync} :=
          of_decide_eq_true hsync
        have hkind : .sync ∈ hop.destInfo.kindsOf hop.dest.port := by
          simp [InstanceInfo.kindsOf, hkinds]
        exact entries_loop_ok (hhops hop hmem) hkind
          (fun s nxt hnxt => walk_ok hres room _ _ _ s hnxt) s

/-! Every check but the buffer check answers. -/

theorem stackDepth_ok (hres : g.AllResolve) (stackSizes : Dict String Int) :
    ∃ raws, StackDepth.run g stackSizes = .ok raws := by
  refine (SimplePaths.collect_ok_iff _).mpr fun e he => ?_
  have hget := Check.mem_sortedInstances.mp he
  split
  · have hkept : ∃ chain, StackDepth.kept g e.1 e.2 = .ok chain := by
      refine SimplePaths.foldlM_ok _ (fun h hh best => ?_) []
      split
      · exact ⟨best, rfl⟩
      · obtain ⟨chain, hchain⟩ := deepest_ok hres StackDepth.maxPath _
          [(PortKey.mk e.1 h.1).str] ∅ (mem_handlers_of_check hget hh)
        exact ⟨_, SimplePaths.map_eq_ok_iff.mpr ⟨chain, hchain, rfl⟩⟩
    obtain ⟨chain, hchain⟩ := hkept
    exact ⟨_, SimplePaths.map_eq_ok_iff.mpr ⟨chain, hchain, rfl⟩⟩
  · exact ⟨[], rfl⟩

theorem queueOverflow_ok (hres : g.AllResolve) : ∃ raws, QueueOverflow.run g = .ok raws := by
  refine (SimplePaths.collect_ok_iff _).mpr fun e he => ?_
  refine (SimplePaths.collect_ok_iff _).mpr fun h hh => ?_
  unfold QueueOverflow.handlerFindings
  split
  · exact ⟨[], rfl⟩
  · obtain ⟨s, hs⟩ := count_ok hres QueueOverflow.depthBound _ ∅ ⟨∅, ∅⟩
      (mem_handlers_of_check (Check.mem_sortedInstances.mp he) hh)
    exact ⟨_, SimplePaths.map_eq_ok_iff.mpr ⟨s, hs, rfl⟩⟩

theorem syncCycle_ok (hres : g.AllResolve) : ∃ raws, SyncCycle.run g = .ok raws := by
  have hloop : ∃ s, (Check.sortedInstances g).foldlM (fun s e =>
      (Check.handlers e.2).foldlM (SyncCycle.startWalk g e.1) s) (⟨[], ∅⟩ : SyncCycle.Reported)
        = .ok s := by
    refine SimplePaths.foldlM_ok _ (fun e he s => ?_) _
    refine SimplePaths.foldlM_ok _ (fun h hh s => ?_) s
    unfold SyncCycle.startWalk
    split
    · exact ⟨s, rfl⟩
    · exact walk_ok hres _ _ _ _ s (mem_handlers_of_check (Check.mem_sortedInstances.mp he) hh)
  obtain ⟨s, hs⟩ := hloop
  exact ⟨_, SimplePaths.map_eq_ok_iff.mpr ⟨s, hs, rfl⟩⟩

theorem outputsFor_ok (hres : g.AllResolve) {name : String} {info : InstanceInfo}
    (hget : g.instances.get? name = some info) {h : PortName × String × SyncKind}
    (hh : h ∈ Check.handlers info) : ∃ outs, g.outputsFor info h.2.1 = .ok outs := by
  obtain ⟨hops, hok⟩ := hres _ (mem_handlers_of_check hget hh)
  simp only [outwardHops, hget] at hok
  split at hok
  · cases hok
  · rename_i outs houts
    exact ⟨outs, houts⟩

variable {complete : OriginState}

theorem unconnected_answered (hres : g.AllResolve) (hc : g.CompleteOrigins complete) :
    Answered g (unconnectedPortInvoked.body g) := by
  refine .collect _ fun e he => ?_
  split
  · exact .pure []
  · refine .collect _ fun h hh => ?_
    refine .bind (.ofExcept (outputsFor_ok hres (Check.mem_sortedInstances.mp he) hh)) fun invoked => ?_
    dsimp only
    split
    · exact .pure []
    · exact (Answered.threadsReaching hc _).bind fun _ => .pure _

theorem contention_answered (hc : g.CompleteOrigins complete)
    (report : String → List PortName → Finset Origin → List RawFinding) :
    Answered g (OriginM.collect (Contention.instanceFindings report g) (Check.sortedInstances g)) := by
  obtain ⟨origins, _, hround⟩ := @Contention.instanceFindings_answers g complete report hc
  exact ⟨_, Answers.collect hround _⟩

theorem dataRace_answered (hc : g.CompleteOrigins complete) : Answered g (dataRace.body g) := by
  have hloop : ∀ name info hs access, Answered g (DataRace.accessLoop g name info hs access) := by
    intro name info hs
    induction hs with
    | nil => exact fun access => .pure access
    | cons h hs ih =>
      intro access
      obtain ⟨port, entry, kind⟩ := h
      unfold DataRace.accessLoop
      dsimp only
      split
      · exact ih access
      · refine .bind ?_ fun threads => ih _
        unfold DataRace.handlerThreads
        split
        · exact .pure _
        · exact .threadsReaching hc _
  exact .collect _ fun e _ => (hloop _ _ _ _).bind fun _ => .pure _

theorem rateGroup_answered (hc : g.CompleteOrigins complete) : Answered g (rateGroup.body g) := by
  have hcontention : ∀ name dest, Answered g (RateGroupBudget.contention g name dest) := by
    intro name dest
    unfold RateGroupBudget.contention
    split
    · exact .pure []
    · split
      · exact .pure []
      · split
        · exact .pure []
        · exact (Answered.threadsReaching hc dest).bind fun _ => .pure _
  refine .collect _ fun e _ => ?_
  unfold RateGroupBudget.instanceFindings
  split
  · exact (Answered.collect _ fun dest _ => hcontention e.1 dest).bind fun _ => .pure _
  · exact .pure []

/-- All checks but the buffer check answer. -/
theorem skipped_checks (hres : g.AllResolve) (hflow : g.flow.isEmpty → g.flow.strict = false)
    (cpu : String → Option Int) (stackSizes : Dict String Int) : ∀ round ∈ checks cpu stackSizes,
      round = bufferOwnership ∨ (round.report g .fresh).1.skipped = [] := by
  obtain ⟨complete, hc⟩ := hres.completeOrigins
  have hpure : ∀ {check : Check} {raws : List RawFinding}, check.body g = pure raws →
      (check.round.report g .fresh).1.skipped = [] := by
    intro check raws hbody
    refine skipped_of_answered ?_ hflow
    rw [hbody]
    exact .pure raws
  have hsync : (syncCycle.round.report g .fresh).1.skipped = [] :=
    skipped_of_answered (.ofExcept (syncCycle_ok hres)) hflow
  have hstack : ((stackDepth stackSizes).round.report g .fresh).1.skipped = [] :=
    skipped_of_answered (.ofExcept (stackDepth_ok hres stackSizes)) hflow
  have hqueue : (queueOverflow.round.report g .fresh).1.skipped = [] :=
    skipped_of_answered (.ofExcept (queueOverflow_ok hres)) hflow
  simp only [checks, List.forall_mem_cons, List.not_mem_nil, false_imp_iff, implies_true, and_true]
  exact ⟨.inr (skipped_of_answered (contention_answered hc _) hflow),
    .inr (skipped_of_answered (unconnected_answered hres hc) hflow), .inr hsync, .inr (hpure rfl),
    .inr (skipped_of_answered (dataRace_answered hc) hflow), .inl trivial, .inr hstack,
    .inr (skipped_of_answered (rateGroup_answered hc) hflow), .inr (hpure rfl), .inr hqueue,
    .inr (hpure rfl), .inr (skipped_of_answered (contention_answered hc _) hflow)⟩

/-- The buffer check is skipped when a buffer goes where the graph ends. -/
theorem skipped_bufferOwnership :
    (bufferOwnership.report g .fresh).1.skipped ≠ [] ↔ BufferOwnership.Strays g := by
  rw [← not_iff_not, ← BufferOwnership.run_ok_iff, bufferOwnership]
  dsimp only
  cases BufferOwnership.run g with
  | ok raws => simp
  | error e => cases e; simp

end Resolving

/-- What a report says of some checks. -/
def CheckReport.restrict (report : CheckReport) (selected : Finset String) : CheckReport :=
  ⟨report.findings.filter fun f => selected = ∅ ∨ f.check ∈ selected,
    report.skipped.filter fun n => selected = ∅ ∨ n.check ∈ selected⟩

/-- Leaving rounds out leaves their lines out. -/
theorem filter_flatMap_stamped {α : Type} (lines : Round → List α) (check : α → String)
    (selected : Finset String) : ∀ rounds : List Round,
      (∀ round ∈ rounds, ∀ line ∈ lines round, check line = round.id) →
      (rounds.flatMap lines).filter (fun line => selected = ∅ ∨ check line ∈ selected)
        = (rounds.filter (Round.selectedBy selected)).flatMap lines
  | [], _ => rfl
  | round :: rounds, h => by
      rw [List.forall_mem_cons] at h
      rw [List.flatMap_cons, List.filter_append, filter_flatMap_stamped lines check selected rounds h.2,
        List.filter_cons]
      by_cases hsel : round.selectedBy selected
      · have hkept : (lines round).filter (fun line => selected = ∅ ∨ check line ∈ selected)
            = lines round :=
          List.filter_eq_self.mpr fun line hline => by rw [h.1 line hline]; exact hsel
        rw [hkept, if_pos hsel, List.flatMap_cons]
      · have hleft : (lines round).filter (fun line => selected = ∅ ∨ check line ∈ selected) = [] :=
          List.filter_eq_nil_iff.mpr fun line hline => by rw [h.1 line hline]; exact hsel
        rw [hleft, if_neg hsel, List.nil_append]

/-- **The report of a run**: on a topology all of whose handlers resolve,
the checks have ids of their own, and the report of the selected ones is
what each reports on the fresh graph, in order. It is what the full run
reports of them. Where the flow map covers something, or the run is
permissive, no check is skipped but the buffer check, and that when an
instance that allocates buffers sends some to an instance the graph does
not have. -/
theorem registry_exact (g : TopologyGraph) (hres : g.AllResolve) (cpu : String → Option Int)
    (stackSizes : Dict String Int) (selected : Finset String) :
    ((checks cpu stackSizes).map Round.id).Nodup
    ∧ (runRounds g selected (checks cpu stackSizes) .fresh).1.findings
      = ((checks cpu stackSizes).filter (Round.selectedBy selected)).flatMap (fun round =>
          (round.report g .fresh).1.findings)
    ∧ (runRounds g selected (checks cpu stackSizes) .fresh).1
      = (runRounds g ∅ (checks cpu stackSizes) .fresh).1.restrict selected
    ∧ ((g.flow.isEmpty → g.flow.strict = false) →
      (∀ note ∈ (runRounds g selected (checks cpu stackSizes) .fresh).1.skipped,
          note.check = bufferOwnership.id)
        ∧ ((runRounds g selected (checks cpu stackSizes) .fresh).1.skipped ≠ []
          ↔ bufferOwnership.selectedBy selected ∧ BufferOwnership.Strays g)) := by
  obtain ⟨complete, hc⟩ := hres.completeOrigins
  have hsteady := steady_checks hc cpu stackSizes
  have hstamps := stamps_checks (g := g) cpu stackSizes
  have hall : (checks cpu stackSizes).filter (Round.selectedBy ∅) = checks cpu stackSizes :=
    List.filter_eq_self.mpr fun _ _ => by simp [Round.selectedBy]
  have hids : (checks cpu stackSizes).map Round.id = ["priority-inversion-window",
      "unconnected-port-invoked", "sync-cycle", "ping-coverage", "data-race", "buffer-ownership",
      "stack-depth", "rate-group", "fatal-path", "queue-overflow", "cmd-tlm-paths",
      "cpu-affinity"] := rfl
  simp only [runRounds_eq _ _ _ (.inl rfl) hsteady, hall, CheckReport.restrict]
  refine ⟨hids ▸ by decide, trivial, ?_, fun hflow => ⟨fun note hnote => ?_, ?_⟩⟩
  · rw [filter_flatMap_stamped (fun round => (round.report g .fresh).1.findings) CheckFinding.check
        selected _ fun round hround => (hstamps round hround).1,
      filter_flatMap_stamped (fun round => (round.report g .fresh).1.skipped) SkipNote.check
        selected _ fun round hround => (hstamps round hround).2]
  · obtain ⟨round, hround, hnote⟩ := List.mem_flatMap.mp hnote
    have hmem := (List.mem_filter.mp hround).1
    rcases skipped_checks hres hflow cpu stackSizes round hmem with rfl | hnone
    · exact (hstamps _ hmem).2 note hnote
    · simp [hnone] at hnote
  · rw [ne_eq, List.flatMap_eq_nil_iff, not_forall]
    simp only [not_forall, exists_prop, List.mem_filter]
    constructor
    · rintro ⟨round, ⟨hround, hsel⟩, hskipped⟩
      rcases skipped_checks hres hflow cpu stackSizes round hround with rfl | hnone
      · exact ⟨hsel, skipped_bufferOwnership.mp hskipped⟩
      · exact absurd hnone hskipped
    · rintro ⟨hsel, hstrays⟩
      exact ⟨bufferOwnership, ⟨by simp [checks], hsel⟩, skipped_bufferOwnership.mpr hstrays⟩

/-- Two checks out of twelve, on the topology with two priorities. -/
theorem registry_exact_inversion :
    (runRounds inversionTopology {"cpu-affinity", "data-race"} (checks (fun _ => none) ∅) .fresh).1
      = (runRounds inversionTopology ∅ (checks (fun _ => none) ∅) .fresh).1.restrict
        {"cpu-affinity", "data-race"} :=
  (registry_exact inversionTopology (by decide) (fun _ => none) ∅
    {"cpu-affinity", "data-race"}).2.2.1

end FprimeTopologyAnalysis
