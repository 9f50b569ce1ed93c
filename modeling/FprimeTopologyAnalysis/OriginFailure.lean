/-
FprimeTopologyAnalysis.OriginFailure — what a failed origin propagation
leaves behind.

`ensure_thread_origins` sets `_origins_computed` before it propagates. A
propagation that raises therefore marks a partial table as computed, and
the graph answers from it from then on. The two things one would rely on,
`FailsSafe` (no half-results) and `SelectionIndependent` (a check reports
what it reports alone), hold exactly on the graphs whose propagation does
not raise, that is, whose origins run only handlers that resolve.
-/
import FprimeTopologyAnalysis.DataRace

namespace FprimeTopologyAnalysis

open Library

/-! ## Sequences of queries -/

/-- A call on the graph object. -/
inductive Query where
  | ensureThreadOrigins
  | threadsReaching (port : PortKey)
  | originCallPath (origin : Origin) (entry : PortKey)

/-- What such a call returns. -/
inductive Answer where
  | none
  | threads (origins : Finset Origin)
  | path (labels : Option (List String))

/-- Make one call. -/
def Query.ask (g : TopologyGraph) : Query → OriginM Answer
  | .ensureThreadOrigins => do
    g.ensureThreadOrigins
    pure .none
  | .threadsReaching port => do
    let origins ← g.threadsReaching port
    pure (.threads origins)
  | .originCallPath origin entry => do
    let labels ← g.originCallPath origin entry
    pure (.path labels)

/-- The state after a sequence of calls, whatever each of them returned. -/
def stateAfter (g : TopologyGraph) (calls : List Query) (s : OriginState) : OriginState :=
  calls.foldl (fun s q => (q.ask g s).2) s

theorem Query.ask_queries (g : TopologyGraph) (q : Query) : QueriesOnly g (q.ask g) := by
  cases q with
  | ensureThreadOrigins => exact .bind .ensure fun _ => .pure _
  | threadsReaching port => exact .bind (.threadsReaching port) fun _ => .pure _
  | originCallPath origin entry => exact .bind (.originCallPath origin entry) fun _ => .pure _

/-- A failed propagation leaves no usable half-results: in every sequence
of calls on a fresh graph, once a call has raised while propagating, each
later call raises or answers as it would after a complete propagation. -/
def FailsSafe (g : TopologyGraph) : Prop :=
  ∀ (earlier : List Query) (q : Query) (between : List Query) (later : Query)
    (e : UnresolvedFlowError) (answer : Answer),
    (g.ensureThreadOrigins (stateAfter g earlier .fresh)).1 = .error e →
    (later.ask g (stateAfter g (earlier ++ q :: between) .fresh)).1 = .ok answer →
    ∃ complete, g.CompleteOrigins complete ∧ (later.ask g complete).1 = .ok answer

/-- What a run reports about a selected check is what the check reports
when it alone is selected, on a fresh graph. -/
def SelectionIndependent (g : TopologyGraph) : Prop :=
  ∀ (checks : List Check) (selected : Finset String) (c : Check),
    (checks.map Check.id).Nodup → c ∈ checks → selects selected c →
    (runChecks g selected checks .fresh).1.about c.id
      = (runChecks g {c.id} checks .fresh).1.about c.id

theorem stateAfter_coherent {g : TopologyGraph} {complete : OriginState}
    (hc : g.CompleteOrigins complete) :
    ∀ (calls : List Query) (s : OriginState), Coherent g s → Coherent g (stateAfter g calls s)
  | [], _, hs => hs
  | q :: calls, s, hs =>
    stateAfter_coherent hc calls _ (((q.ask_queries g).steady hc) s hs).2

/-- The flag stays set once it is. -/
theorem ensure_after_error {g : TopologyGraph} {s : OriginState}
    (hs : s.originsComputed = true) : g.ensureThreadOrigins s = (.ok (), s) := by
  unfold TopologyGraph.ensureThreadOrigins
  rw [if_pos hs]

/-- **A failed propagation is harmless exactly where there is none**: the
queries fail safe and the checks report independently of each other iff
every handler that some thread origin runs resolves. -/
theorem failsSafe_iff_runs_resolve (g : TopologyGraph) :
    FailsSafe g ∧ SelectionIndependent g ↔ ∀ o h, g.Runs o h → g.Resolves h := by
  rw [← TopologyGraph.completeOrigins_iff_runs_resolve]
  constructor
  · rintro ⟨hsafe, _⟩
    cases hrun : g.ensureThreadOrigins .fresh with
    | mk r s =>
      cases r with
      | ok u => exact ⟨s, hrun⟩
      | error e =>
        -- the flag is set, so the next call answers from the partial table
        have hflag : s.originsComputed = true := by
          have h := TopologyGraph.computeThreadOrigins_computed (g := g) ⟨∅, true⟩
          have hs : (g.computeThreadOrigins ⟨∅, true⟩).2 = s := congrArg Prod.snd hrun
          rw [hs] at h
          exact h
        have hstate : stateAfter g [Query.ensureThreadOrigins] .fresh = s := by
          simp only [stateAfter, List.foldl_cons, List.foldl_nil, Query.ask, OriginM.bind_apply,
            hrun]
        obtain ⟨complete, hc, _⟩ := hsafe [] .ensureThreadOrigins [] .ensureThreadOrigins e .none
          (by rw [stateAfter, List.foldl_nil, hrun])
          (by
            rw [List.nil_append, hstate, Query.ask, OriginM.bind_apply, ensure_after_error hflag]
            rfl)
        exact ⟨complete, hc⟩
  · rintro ⟨complete, hc⟩
    refine ⟨?_, ?_⟩
    · intro earlier q between later e answer herr _
      rw [(stateAfter_coherent hc earlier .fresh (.inl rfl)).ensure hc] at herr
      cases herr
    · intro checks selected c hnd hmem hsel
      have halone : selects {c.id} c := by simp [selects]
      rw [runChecks_about hc selected hsel checks .fresh (.inl rfl) hmem hnd,
        runChecks_about hc {c.id} halone checks .fresh (.inl rfl) hmem hnd]

/-! A graph with one handler the flow map does not know: `a` runs its own
queue, `b` is driven from outside and leaves an output unconnected. -/

/-- `b`'s handler is resolved; `a`'s is not in the map. -/
def halfFlow : PortFlowMap :=
  ⟨.ofList [("B", ⟨.ofList [("in",
    ⟨.ofList [("ports", ["out"]), ("fields_written", ["B::m_v"])], some false⟩)]⟩)], true⟩

def halfTopology : TopologyGraph where
  instances := .ofList [
    ("a", { kind := .active, componentName := "A",
            inputPorts := .ofList [(.go, {.async})] }),
    ("b", { kind := .passive, componentName := "B",
            inputPorts := .ofList [(⟨"in", by decide⟩, {.sync})],
            outputPorts := [.out] })]
  connections := ∅
  flow := halfFlow

/-- Run after another check, `DataRace` reports on the half-filled table;
alone it is skipped. So on this graph neither promise holds. -/
theorem failsSafe_false_on_half :
    ((runChecks halfTopology ∅ [unconnectedPortInvoked, dataRace] .fresh).1.about
        "data-race").skipped = []
      ∧ ((runChecks halfTopology {"data-race"} [unconnectedPortInvoked, dataRace] .fresh).1.about
        "data-race").skipped ≠ []
      ∧ ¬ FailsSafe halfTopology ∧ ¬ SelectionIndependent halfTopology := by
  have hrun : ((runChecks halfTopology ∅ [unconnectedPortInvoked, dataRace] .fresh).1.about
      "data-race").skipped = [] := by decide
  have halone : ((runChecks halfTopology {"data-race"} [unconnectedPortInvoked, dataRace]
      .fresh).1.about "data-race").skipped ≠ [] := by decide
  refine ⟨hrun, halone, ?_, ?_⟩
  · intro hsafe
    have hfail : (halfTopology.ensureThreadOrigins .fresh).1
        = .error ⟨"A", "go", "component absent from the flow map; its source may not be in " ++
          "compile_commands.json"⟩ := by decide
    obtain ⟨complete, hc, _⟩ := hsafe [] .ensureThreadOrigins [] .ensureThreadOrigins _ .none
      hfail (by rfl)
    have hok : (halfTopology.ensureThreadOrigins .fresh).1 = .ok () := by
      rw [TopologyGraph.ensure_fresh hc]
    rw [hok] at hfail
    cases hfail
  · intro hindep
    have hsame := hindep [unconnectedPortInvoked, dataRace] ∅ dataRace (by decide) (by simp)
      (by decide)
    have hskip : ((runChecks halfTopology {"data-race"} [unconnectedPortInvoked, dataRace]
        .fresh).1.about "data-race").skipped = [] := by
      rw [← hrun]
      exact congrArg CheckReport.skipped hsame.symm
    exact halone hskip

end FprimeTopologyAnalysis
