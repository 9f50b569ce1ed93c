/-
FprimeTopologyAnalysis.MessageCounts — what `_count` of the queue overflow
check counts.

The visited set of `_count` is per path, so a handler that two paths come to
is counted behind each. Where no call path has more than twelve hops, which
leaves none that comes back, neither the set nor the depth cuts anything: the
count of an instance is the number of ways to go from the stimulus along
sync and guarded hops and then to it by an async hop (`counts_exact`).
-/
import FprimeTopologyAnalysis.QueueOverflow
import FprimeTopologyAnalysis.Library.Walks

namespace FprimeTopologyAnalysis

open Library

/-- A call path: the handlers that run from one on, along sync and guarded
hops. A leg of it is a connection under one kind, and one of the flow entries
behind it. -/
abbrev TopologyGraph.CallPath (g : TopologyGraph) :
    Handler → List (Walks.Leg Handler OutwardHop) → Handler → Prop :=
  Walks.Walk (QueueOverflow.problem g)

/-- No call path from `h` has more than `depth` hops. A cycle among the
handlers has paths of any length. -/
abbrev TopologyGraph.DepthWithin (g : TopologyGraph) (h : Handler) (depth : Nat) : Prop :=
  Walks.Within (QueueOverflow.problem g) h depth

namespace QueueOverflow

variable {g : TopologyGraph} {h : Handler}

/-- The messages on `target`'s queue: a call path, and an async hop onto it
out of the path's last handler, with its place among the hops there. -/
def Enqueues (g : TopologyGraph) (h : Handler) (target : String) :
    Set (List (Walks.Leg Handler OutwardHop) × Nat × OutwardHop) :=
  {d | ∃ h' hops, g.CallPath h d.1 h' ∧ g.outwardHops h'.1 h'.2 = .ok hops
    ∧ hops[d.2.1]? = some d.2.2 ∧ d.2.2.kind = .async ∧ d.2.2.dest.inst = target}

/-- The hop puts a message on `target`'s queue. -/
def onto (target : String) (hop : OutwardHop) : Bool :=
  hop.kind = .async ∧ hop.dest.inst = target

theorem enqueues_eq (target : String) :
    Enqueues g h target = Walks.Departs (problem g) (onto target) h := by
  simp only [Enqueues, Walks.Departs, onto, decide_eq_true_eq]
  rfl

theorem length_messagePaths (target : String)
    (es : List (SimplePaths.Event Handler OutwardHop)) :
    (es.filterMap (messagePath? target)).length = es.countP (Walks.leaves (onto target)) := by
  rw [List.length_filterMap_eq_countP]
  refine List.countP_congr fun e _ => ?_
  cases e with
  | closed p => simp [messagePath?, Walks.leaves]
  | hop p hop =>
    rw [messagePath?, Walks.leaves, onto]
    split <;> simp [*]

/-- **The counts are exact.** From a handler whose call paths have at most
twelve hops, `_count` returns unless one of them comes to a handler that the
flow map does not resolve, and the count of every instance is the number of
its messages. -/
theorem counts_exact (g : TopologyGraph) (h : Handler) (hdepth : g.DepthWithin h 12) :
    ((∃ s, count g depthBound h ∅ ⟨∅, ∅⟩ = .ok s)
        ↔ ∀ legs h', g.CallPath h legs h' → g.Resolves h')
      ∧ ∀ s, count g depthBound h ∅ ⟨∅, ∅⟩ = .ok s → ∀ target,
        (Enqueues g h target).Finite
          ∧ (s.counts.get? target).getD 0 = (Enqueues g h target).ncard := by
  have hcount : count g depthBound h ∅ ⟨∅, ∅⟩
      = (SimplePaths.events (problem g) depthBound (.root h)).map fun es =>
          es.foldl (note g) ⟨∅, ∅⟩ :=
    count_eq g depthBound (.root h) ⟨∅, ∅⟩
  have hreturns : (∃ s, count g depthBound h ∅ ⟨∅, ∅⟩ = .ok s)
      ↔ ∃ es, SimplePaths.events (problem g) depthBound (.root h) = .ok es := by
    simp only [hcount, SimplePaths.map_eq_ok_iff]
    exact ⟨fun ⟨_, es, hes, _⟩ => ⟨es, hes⟩, fun ⟨es, hes⟩ => ⟨_, es, hes, rfl⟩⟩
  refine ⟨hreturns.trans (Walks.events_ok_iff_walks hdepth), fun s hs target => ?_⟩
  rw [hcount] at hs
  obtain ⟨es, hes, rfl⟩ := SimplePaths.map_eq_ok_iff.mp hs
  have htarget := counts_foldl target es (known_events hes) ⟨∅, ∅⟩
  have hevents := Walks.countP_events (onto target) hes (.root h) hdepth
  rw [Dict.get?_empty, Option.getD_none, zero_add, length_messagePaths, hevents] at htarget
  rw [htarget, enqueues_eq]
  exact ⟨Walks.finite_departs hdepth, congrArg Nat.cast (Walks.ncard_departs hdepth).symm⟩

/-- The array of `x` comes back to it through `y` and through `z`: two
messages. -/
theorem counts_exact_array :
    ∃ s, count arrayTopology depthBound ("x", "go") ∅ ⟨∅, ∅⟩ = .ok s
      ∧ (s.counts.get? "x").getD 0 = (Enqueues arrayTopology ("x", "go") "x").ncard
      ∧ (s.counts.get? "x").getD 0 = 2 := by
  have hrun : (count arrayTopology depthBound ("x", "go") ∅ ⟨∅, ∅⟩).map
      (fun s => (s.counts.get? "x").getD 0) = .ok 2 := by
    decide +kernel
  obtain ⟨s, hs, hvalue⟩ := SimplePaths.map_eq_ok_iff.mp hrun
  exact ⟨s, hs, ((counts_exact arrayTopology ("x", "go") (by decide +kernel)).2 s hs "x").2, hvalue⟩

end QueueOverflow

end FprimeTopologyAnalysis
