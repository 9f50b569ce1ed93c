/-
FprimeTopologyAnalysis.CycleDetection — cycles of the lock-order graph and
their verdicts (`guarded_port_analyzer.py`, `detect_cycles` and what it
calls).

Tarjan's components and the enumeration inside them are instances of
`Library.Tarjan` and `Library.ElementaryCycles`; the rules proved there
make `detectCycles` exact on the table of edges. `detectCycles_sound`:
whatever the cap, each finding it appends is an elementary cycle of edges,
two of which distinct threads drive (`DrivenByTwo`). `detectCycles_complete`:
without truncation each such cycle is reported.

`DrivenByTwo` is the verdict by design. It is weaker than a thread of its
own for each edge (`HeldOpen`) as soon as the cycle has three edges.
-/
import FprimeTopologyAnalysis.LockGraph
import FprimeTopologyAnalysis.Library.ElementaryCycles
import FprimeTopologyAnalysis.Library.Tarjan

namespace FprimeTopologyAnalysis

open Library

/-- `lock_edges`. -/
abbrev LockEdges := Dict (String × String) LockEdge

/-! ## The analyzer's cycles -/

/-- `graph[holder]` of `_strongly_connected_components`. -/
def successors (edges : LockEdges) (holder : String) : List String :=
  (edges.keys.filter fun key => key.1 = holder).map Prod.snd

/-- `sorted(graph)`. -/
def lockNodes (edges : LockEdges) : List String :=
  (edges.keys.flatMap fun key => [key.1, key.2]).dedup.insertionSort (· ≤ ·)

/-- `_strongly_connected_components`. -/
def stronglyConnectedComponents (edges : LockEdges) : List (List String) :=
  Tarjan.components (successors edges) (lockNodes edges)

/-- `adjacency.get(node, [])` of `_elementary_cycles`. -/
def adjacency (edges : LockEdges) (members : List String) (node : String) : List String :=
  if node ∈ members then
    ((successors edges node).filter fun acquired => acquired ∈ members ∧ acquired ≠ node)
      |>.insertionSort (· ≤ ·)
  else []

/-- The sort key `(len(c), c)`. -/
def cycleKeyLe (c c' : List String) : Prop :=
  c.length < c'.length ∨ (c.length = c'.length ∧ c ≤ c')

instance (c c' : List String) : Decidable (cycleKeyLe c c') :=
  inferInstanceAs (Decidable (_ ∨ _))

/-- `_elementary_cycles`; the flag says whether it sets `truncated`. -/
def elementaryCycles (cfg : AnalyzerSettings) (edges : LockEdges) (component : List String) :
    List (List String) × Bool :=
  let members := component.dedup.insertionSort (· ≤ ·)
  let found := ElementaryCycles.cycles (adjacency edges members) cfg.maxCycles members
  (found.1.insertionSort cycleKeyLe, found.2)

/-- `_cycle_edges`. -/
def cycleEdges (edges : LockEdges) (cycle : List String) : List LockEdge :=
  (ElementaryCycles.pairs cycle).filterMap edges.get?

/-- `real_sets` of `_classify_cycle`. -/
def realSets (edges : List LockEdge) : List (Finset Origin) :=
  edges.map fun edge => edge.threads.filter fun t => t.isThread

/-- `distinct_possible`: origins of two of the sets differ. -/
def DistinctPossible (sets : List (Finset Origin)) : Prop :=
  ¬ sets.Pairwise fun s s' => ∀ t1 ∈ s, ∀ t2 ∈ s', t1 = t2

instance (sets : List (Finset Origin)) : Decidable (DistinctPossible sets) :=
  inferInstanceAs (Decidable (¬ _))

/-- `order`: the cycle, back to its first mutex. -/
def cycleOrder (cycle : List String) : String := " -> ".intercalate (cycle ++ cycle.take 1)

/-- The text of a live cycle. -/
def abbaDetail (cycle : List String) : String :=
  "Lock order cycle " ++ cycleOrder cycle ++ ". Different threads can take these mutexes in "
    ++ "opposite orders, so the chains can deadlock against each other."

/-- The text of a latent cycle, with the real threads that drive it. -/
def latentDetail (cycle : List String) (sets : List (Finset Origin)) : String :=
  let real := sortNames ((sets.foldr (· ∪ ·) ∅).image Origin.str)
  let reach := if real = [] then "no attributed thread" else ", ".intercalate real
  "Lock order cycle " ++ cycleOrder cycle ++ ", but no two distinct threads are known to drive "
    ++ "it in opposite orders (real threads: " ++ reach ++ "). It cannot interleave today; it "
    ++ "becomes a deadlock as soon as a second thread reaches either side."

/-- `_classify_cycle`. -/
def classifyCycle (edges : LockEdges) (cycle : List String) : FindingKind × Severity × String :=
  let sets := realSets (cycleEdges edges cycle)
  if DistinctPossible sets then (.abba, .error, abbaDetail cycle)
  else (.abbaSingleThread, .warning, latentDetail cycle sets)

/-- The finding `detect_cycles` makes of a cycle; a latent one is dropped. -/
def cycleFinding (edges : LockEdges) (cycle : List String) : Option Finding :=
  match classifyCycle edges cycle with
  | (.abbaSingleThread, _, _) => none
  | (kind, severity, detail) => some ⟨kind, severity, cycle, cycleEdges edges cycle, detail⟩

/-- The loop of `detect_cycles`. -/
def detectComponents (cfg : AnalyzerSettings) : List (List String) → AnalyzerState → AnalyzerState
  | [], a => a
  | component :: components, a =>
    if component.length < 2 then detectComponents cfg components a
    else
      let found := elementaryCycles cfg a.lockEdges component
      detectComponents cfg components
        { a with
          findings := a.findings ++ found.1.filterMap (cycleFinding a.lockEdges)
          truncated := a.truncated || found.2 }

/-- `detect_cycles`. -/
def detectCycles (cfg : AnalyzerSettings) (a : AnalyzerState) : AnalyzerState :=
  detectComponents cfg (stronglyConnectedComponents a.lockEdges) a

/-! ## Cycles of the table -/

/-- An elementary cycle of lock-order edges. -/
abbrev IsLockCycle (edges : LockEdges) (cycle : List String) : Prop :=
  ElementaryCycles.IsElementary (fun holder acquired => (holder, acquired) ∈ edges.keys) cycle

/-- Distinct threads drive two different edges of the cycle. -/
def DrivenByTwo (edges : LockEdges) (cycle : List String) : Prop :=
  ∃ p ∈ ElementaryCycles.pairs cycle, ∃ q ∈ ElementaryCycles.pairs cycle, p ≠ q
    ∧ ∃ e f, edges.get? p = some e ∧ edges.get? q = some f
      ∧ ∃ t u, Origin.thread t ∈ e.threads ∧ Origin.thread u ∈ f.threads ∧ t ≠ u

/-- The cycle can be held open: each edge has a thread of its own. -/
def HeldOpen (edges : LockEdges) (cycle : List String) : Prop :=
  ∃ ts : List String, ts.Nodup
    ∧ List.Forall₂ (fun t edge => Origin.thread t ∈ edge.threads) ts (cycleEdges edges cycle)

section Cycles

variable {edges : LockEdges} {cycle : List String}

theorem mem_successors {x y : String} : y ∈ successors edges x ↔ (x, y) ∈ edges.keys := by
  simp only [successors, List.mem_map, List.mem_filter, decide_eq_true_eq]
  constructor
  · rintro ⟨⟨x', y'⟩, ⟨hkey, rfl⟩, rfl⟩
    exact hkey
  · intro hkey
    exact ⟨(x, y), ⟨hkey, rfl⟩, rfl⟩

theorem mem_lockNodes {x : String} :
    x ∈ lockNodes edges ↔ ∃ key ∈ edges.keys, x = key.1 ∨ x = key.2 := by
  simp [lockNodes]

/-- No edge leads out of the nodes. -/
theorem lockNodes_closed (edges : LockEdges) :
    ∀ x ∈ lockNodes edges, ∀ y ∈ successors edges x, y ∈ lockNodes edges :=
  fun x _ y hy => mem_lockNodes.mpr ⟨(x, y), mem_successors.mp hy, .inr rfl⟩

theorem mem_adjacency {members : List String} {x y : String} :
    y ∈ adjacency edges members x ↔ x ∈ members ∧ y ∈ members ∧ (x, y) ∈ edges.keys ∧ y ≠ x := by
  unfold adjacency
  by_cases hx : x ∈ members
  · rw [if_pos hx, List.mem_insertionSort, List.mem_filter, mem_successors]
    simp only [ne_eq, decide_eq_true_eq, hx, true_and]
    exact ⟨fun ⟨hkey, hy, hne⟩ => ⟨hy, hkey, hne⟩, fun ⟨hy, hkey, hne⟩ => ⟨hkey, hy, hne⟩⟩
  · simp [hx]

/-- Every edge of a cycle is in the table. -/
theorem IsLockCycle.get? (hc : IsLockCycle edges cycle) {p : String × String}
    (hp : p ∈ ElementaryCycles.pairs cycle) : ∃ edge, edges.get? p = some edge :=
  (edges.mem_keys_iff p).mp (hc.edges p hp)

/-- The table's edges of a cycle, one for each of its pairs. -/
theorem IsLockCycle.forall₂_cycleEdges (hc : IsLockCycle edges cycle) :
    List.Forall₂ (fun p edge => edges.get? p = some edge) (ElementaryCycles.pairs cycle)
      (cycleEdges edges cycle) := by
  have hgen : ∀ ps : List (String × String), (∀ p ∈ ps, ∃ edge, edges.get? p = some edge) →
      List.Forall₂ (fun p edge => edges.get? p = some edge) ps (ps.filterMap edges.get?) := by
    intro ps
    induction ps with
    | nil => exact fun _ => .nil
    | cons p ps ih =>
      intro h
      obtain ⟨edge, hget⟩ := h p (List.mem_cons_self ..)
      rw [List.filterMap_cons_some hget]
      exact .cons hget (ih fun q hq => h q (List.mem_cons_of_mem _ hq))
  exact hgen _ fun p hp => hc.get? hp

/-- What `distinct_possible` decides about a cycle. -/
theorem distinctPossible_iff (hc : IsLockCycle edges cycle) :
    DistinctPossible (realSets (cycleEdges edges cycle)) ↔ DrivenByTwo edges cycle := by
  have hall := hc.forall₂_cycleEdges
  have hlen := hall.length_eq
  have hget : ∀ i (hi : i < (ElementaryCycles.pairs cycle).length),
      edges.get? (ElementaryCycles.pairs cycle)[i] = some (cycleEdges edges cycle)[i] :=
    fun i hi => hall.get hi (by omega)
  unfold DistinctPossible realSets
  rw [List.pairwise_map, List.pairwise_iff_getElem]
  simp only [Finset.mem_filter]
  constructor
  · intro hnot
    push Not at hnot
    obtain ⟨i, j, hi, hj, hij, t1, ⟨ht1, hreal1⟩, t2, ⟨ht2, hreal2⟩, hne⟩ := hnot
    refine ⟨_, List.getElem_mem (by omega : i < _), _, List.getElem_mem (by omega : j < _), ?_,
      _, _, hget i (by omega), hget j (by omega), ?_⟩
    · intro heq
      have := (ElementaryCycles.nodup_pairs hc.nodup).getElem_inj_iff.mp heq
      omega
    · cases t1 with
      | thread t =>
        cases t2 with
        | thread u => exact ⟨t, u, ht1, ht2, fun h => hne (by rw [h])⟩
        | external p => cases hreal2
        | unknown => cases hreal2
      | external p => cases hreal1
      | unknown => cases hreal1
  · rintro ⟨p, hp, q, hq, hpq, e, f, he, hf, t, u, ht, hu, hne⟩ hpair
    obtain ⟨i, hi, rfl⟩ := List.mem_iff_getElem.mp hp
    obtain ⟨j, hj, rfl⟩ := List.mem_iff_getElem.mp hq
    obtain rfl : e = (cycleEdges edges cycle)[i] := Option.some.inj (he.symm.trans (hget i hi))
    obtain rfl : f = (cycleEdges edges cycle)[j] := Option.some.inj (hf.symm.trans (hget j hj))
    rcases Nat.lt_trichotomy i j with hij | hij | hij
    · have := hpair i j (by omega) (by omega) hij _ ⟨ht, rfl⟩ _ ⟨hu, rfl⟩
      exact hne (Origin.thread.inj this)
    · subst hij
      exact hpq rfl
    · have := hpair j i (by omega) (by omega) hij _ ⟨hu, rfl⟩ _ ⟨ht, rfl⟩
      exact hne (Origin.thread.inj this).symm

/-- The finding about a live cycle. -/
def abbaFinding (edges : LockEdges) (cycle : List String) : Finding :=
  ⟨.abba, .error, cycle, cycleEdges edges cycle, abbaDetail cycle⟩

/-- A finding is made of a cycle exactly when two threads drive it. -/
theorem cycleFinding_eq_some_iff (hc : IsLockCycle edges cycle) {f : Finding} :
    cycleFinding edges cycle = some f ↔ DrivenByTwo edges cycle ∧ f = abbaFinding edges cycle := by
  rw [← distinctPossible_iff hc]
  unfold cycleFinding classifyCycle
  by_cases hd : DistinctPossible (realSets (cycleEdges edges cycle))
  · rw [if_pos hd]
    simp only [Option.some.injEq, hd, true_and]
    exact eq_comm
  · rw [if_neg hd]
    simp [hd]

end Cycles

/-! ## The detection is exact -/

section Detection

variable (cfg : AnalyzerSettings) (edges : LockEdges)

/-- The components that hold cycles. -/
def cyclicComponents : List (List String) :=
  (stronglyConnectedComponents edges).filter fun component => 2 ≤ component.length

/-- What the loop does, in one update. -/
theorem detectComponents_eq : ∀ (components : List (List String)) (a : AnalyzerState),
    detectComponents cfg components a =
      { a with
        findings := a.findings
          ++ (components.filter fun component => 2 ≤ component.length).flatMap fun component =>
            (elementaryCycles cfg a.lockEdges component).1.filterMap (cycleFinding a.lockEdges)
        truncated := a.truncated
          || (components.filter fun component => 2 ≤ component.length).any fun component =>
            (elementaryCycles cfg a.lockEdges component).2 }
  | [], a => by simp [detectComponents]
  | component :: components, a => by
      rw [detectComponents]
      by_cases hshort : component.length < 2
      · rw [if_pos hshort, detectComponents_eq components a,
          List.filter_cons_of_neg (by rw [decide_eq_true_eq]; exact Nat.not_le.mpr hshort)]
      · rw [if_neg hshort, detectComponents_eq components,
          List.filter_cons_of_pos (by rw [decide_eq_true_eq]; exact Nat.not_lt.mp hshort)]
        simp [List.append_assoc, Bool.or_assoc]

theorem mem_detectCycles {a : AnalyzerState} {f : Finding} :
    f ∈ (detectCycles cfg a).findings ↔ f ∈ a.findings
      ∨ ∃ component ∈ cyclicComponents a.lockEdges,
          ∃ cycle ∈ (elementaryCycles cfg a.lockEdges component).1,
            cycleFinding a.lockEdges cycle = some f := by
  rw [detectCycles, detectComponents_eq]
  simp only [List.mem_append, List.mem_flatMap, List.mem_filterMap]
  rfl

theorem detectCycles_lockEdges (a : AnalyzerState) :
    (detectCycles cfg a).lockEdges = a.lockEdges := by
  rw [detectCycles, detectComponents_eq]

/-- No truncation: there was none before, and no component hit the cap. -/
theorem detectCycles_truncated {a : AnalyzerState} (h : (detectCycles cfg a).truncated = false) :
    a.truncated = false ∧ ∀ component ∈ cyclicComponents a.lockEdges,
      (elementaryCycles cfg a.lockEdges component).2 = false := by
  rw [detectCycles, detectComponents_eq] at h
  simp only [Bool.or_eq_false_iff, List.any_eq_false, Bool.not_eq_true] at h
  exact h

variable {cfg edges}

/-- Only elementary cycles are enumerated, from their least mutex. -/
theorem mem_elementaryCycles_sound {component cycle : List String}
    (h : cycle ∈ (elementaryCycles cfg edges component).1) :
    IsLockCycle edges cycle ∧ ElementaryCycles.LeastFirst cycle := by
  simp only [elementaryCycles, List.mem_insertionSort] at h
  obtain ⟨start, _, hc⟩ :=
    ElementaryCycles.cycles_sound (fun x hx => (mem_adjacency.mp hx).2.2.2 rfl) _ h
  exact ⟨hc.elementary.mono fun x y hxy => (mem_adjacency.mp hxy).2.2.1, start, hc.head, hc.least⟩

/-- Below the cap every cycle inside the component is enumerated. -/
theorem mem_elementaryCycles_complete {component cycle : List String}
    (hcap : (elementaryCycles cfg edges component).2 = false) (hc : IsLockCycle edges cycle)
    (hsub : ∀ x ∈ cycle, x ∈ component) (hfirst : ElementaryCycles.LeastFirst cycle) :
    cycle ∈ (elementaryCycles cfg edges component).1 := by
  obtain ⟨start, hhead, hleast⟩ := hfirst
  have hmem : ∀ x ∈ cycle, x ∈ component.dedup.insertionSort (· ≤ ·) :=
    fun x hx => (List.mem_insertionSort _).mpr (List.mem_dedup.mpr (hsub x hx))
  simp only [elementaryCycles, List.mem_insertionSort] at hcap ⊢
  refine ElementaryCycles.cycles_complete hcap (hmem start (List.mem_of_head? hhead))
    ⟨hhead, hleast, hc.nodup, hc.two, fun p hp => ?_⟩ hmem
  obtain ⟨h1, h2⟩ := ElementaryCycles.mem_of_mem_pairs hp
  exact mem_adjacency.mpr ⟨hmem _ h1, hmem _ h2, hc.edges p hp,
    (ElementaryCycles.ne_of_mem_pairs hc.nodup hc.two hp).symm⟩

/-- Mutexes that reach each other lie inside one of the components. -/
theorem exists_component_of_reach {nodes : List String} (hnodup : nodes.Nodup)
    (htwo : 2 ≤ nodes.length)
    (hreach : ∀ x ∈ nodes, ∀ y ∈ nodes, Tarjan.Reach (successors edges) x y) :
    ∃ component ∈ cyclicComponents edges, ∀ x ∈ nodes, x ∈ component := by
  obtain ⟨_, hcover, hclass⟩ := Tarjan.components_correct (lockNodes_closed edges)
  -- one of two distinct nodes has an edge to follow
  obtain ⟨x, y, rest, rfl⟩ : ∃ x y rest, nodes = x :: y :: rest := by
    match nodes, htwo with
    | x :: y :: rest, _ => exact ⟨x, y, rest, rfl⟩
  have hne : x ≠ y := fun h => (List.nodup_cons.mp hnodup).1 (h ▸ List.mem_cons_self ..)
  have hnode : x ∈ lockNodes edges := by
    rcases (hreach x (by simp) y (by simp)).cases_head with h | ⟨z, hz, _⟩
    · exact absurd h hne
    · exact mem_lockNodes.mpr ⟨(x, z), mem_successors.mp hz, .inl rfl⟩
  obtain ⟨component, hcomp, hmem⟩ := List.mem_flatten.mp (hcover x hnode)
  have hsub : ∀ z ∈ x :: y :: rest, z ∈ component := fun z hz =>
    ((hclass component hcomp).2 x hmem z).mpr ⟨hreach x (by simp) z hz, hreach z hz x (by simp)⟩
  refine ⟨component, List.mem_filter.mpr ⟨hcomp, ?_⟩, hsub⟩
  have hlen := List.Nodup.length_le_of_subset hnodup hsub
  rw [decide_eq_true_eq]
  exact htwo.trans hlen

/-- Every cycle lies inside one of the components. -/
theorem exists_component {cycle : List String} (hc : IsLockCycle edges cycle) :
    ∃ component ∈ cyclicComponents edges, ∀ x ∈ cycle, x ∈ component :=
  exists_component_of_reach hc.nodup hc.two fun x hx y hy =>
    (hc.mono fun _ _ h => mem_successors.mpr h).reaches x hx y hy

/-- Writing a cycle from another mutex does not change who drives it. -/
theorem DrivenByTwo.of_isRotated {cycle cycle' : List String} (h : DrivenByTwo edges cycle)
    (hrot : cycle ~r cycle') : DrivenByTwo edges cycle' := by
  obtain ⟨p, hp, q, hq, hrest⟩ := h
  have hiff := fun x => (ElementaryCycles.isRotated_pairs hrot).mem_iff (a := x)
  exact ⟨p, (hiff p).mp hp, q, (hiff q).mp hq, hrest⟩

/-- **Whatever the cap, each verdict is backed**: the findings appended are
live cycles of the table, with their edges. -/
theorem detectCycles_sound {a : AnalyzerState} {f : Finding}
    (h : f ∈ (detectCycles cfg a).findings) :
    f ∈ a.findings ∨ ∃ cycle, IsLockCycle a.lockEdges cycle ∧ ElementaryCycles.LeastFirst cycle
      ∧ DrivenByTwo a.lockEdges cycle ∧ f = abbaFinding a.lockEdges cycle := by
  rcases (mem_detectCycles cfg).mp h with hold | ⟨component, _, cycle, hcycle, hf⟩
  · exact .inl hold
  · obtain ⟨hc, hfirst⟩ := mem_elementaryCycles_sound hcycle
    exact .inr ⟨cycle, hc, hfirst, (cycleFinding_eq_some_iff hc).mp hf⟩

/-- **Without truncation every live cycle is reported**, written from its
least mutex. -/
theorem detectCycles_complete {a : AnalyzerState} (h : (detectCycles cfg a).truncated = false)
    {cycle : List String} (hc : IsLockCycle a.lockEdges cycle)
    (hfirst : ElementaryCycles.LeastFirst cycle) (hd : DrivenByTwo a.lockEdges cycle) :
    abbaFinding a.lockEdges cycle ∈ (detectCycles cfg a).findings := by
  obtain ⟨component, hcomp, hsub⟩ := exists_component hc
  have hcap := (detectCycles_truncated cfg h).2 component hcomp
  refine (mem_detectCycles cfg).mpr (.inr ⟨component, hcomp, cycle, ?_, ?_⟩)
  · exact mem_elementaryCycles_complete hcap hc hsub hfirst
  · exact (cycleFinding_eq_some_iff hc).mpr ⟨hd, rfl⟩

end Detection

/-! ## Each cycle once -/

/-- A finding about a cycle: elementary, written from its least mutex, with
distinct threads on two of its edges, and with all its edges. -/
structure CycleReported (edges : LockEdges) (f : Finding) : Prop where
  kind : f.kind = .abba
  severity : f.severity = .error
  cycle : IsLockCycle edges f.cycle
  first : ElementaryCycles.LeastFirst f.cycle
  driven : DrivenByTwo edges f.cycle
  edges : List.Forall₂ (fun p edge => edges.get? p = some edge) (ElementaryCycles.pairs f.cycle)
    f.edges

section Once

variable (cfg : AnalyzerSettings) {edges : LockEdges}

/-- The findings `detect_cycles` appends. -/
def cycleFindings (edges : LockEdges) : List Finding :=
  (cyclicComponents edges).flatMap fun component =>
    (elementaryCycles cfg edges component).1.filterMap (cycleFinding edges)

theorem detectCycles_findings (a : AnalyzerState) :
    (detectCycles cfg a).findings = a.findings ++ cycleFindings cfg a.lockEdges := by
  rw [detectCycles, detectComponents_eq]
  rfl

variable {cfg}

theorem mem_cycleFindings {f : Finding} (h : f ∈ cycleFindings cfg edges) :
    CycleReported edges f := by
  obtain ⟨component, _, hmem⟩ := List.mem_flatMap.mp h
  obtain ⟨cycle, hcycle, hf⟩ := List.mem_filterMap.mp hmem
  obtain ⟨hc, hfirst⟩ := mem_elementaryCycles_sound hcycle
  obtain ⟨hd, rfl⟩ := (cycleFinding_eq_some_iff hc).mp hf
  exact ⟨rfl, rfl, hc, hfirst, hd, hc.forall₂_cycleEdges⟩

/-- The cycle of a finding is the one it was made of. -/
theorem cycle_of_cycleFinding {cycle : List String} {f : Finding}
    (h : cycleFinding edges cycle = some f) : f.cycle = cycle := by
  unfold cycleFinding at h
  split at h
  · cases h
  · cases h
    rfl

/-- A cycle stays inside the component it is found in. -/
theorem mem_component_of_mem_cycle {component cycle : List String}
    (h : cycle ∈ (elementaryCycles cfg edges component).1) : ∀ x ∈ cycle, x ∈ component := by
  simp only [elementaryCycles, List.mem_insertionSort] at h
  obtain ⟨start, _, hc⟩ :=
    ElementaryCycles.cycles_sound (fun x hx => (mem_adjacency.mp hx).2.2.2 rfl) _ h
  intro x hx
  obtain ⟨p, hp, rfl⟩ := List.mem_map.mp ((ElementaryCycles.map_fst_pairs cycle).symm ▸ hx)
  have hmem := (mem_adjacency.mp (hc.elementary.edges p hp)).1
  exact List.mem_dedup.mp ((List.mem_insertionSort _).mp hmem)

theorem elementaryCycles_nodup (component : List String) :
    (elementaryCycles cfg edges component).1.Nodup := by
  have hsucc : ∀ x, (successors edges x).Nodup := by
    intro x
    refine (edges.nodupKeys.filter _).map_on fun key hkey key' hkey' hsnd => ?_
    have hfst := of_decide_eq_true (List.mem_filter.mp hkey).2
    have hfst' := of_decide_eq_true (List.mem_filter.mp hkey').2
    exact Prod.ext (hfst.trans hfst'.symm) hsnd
  have hadj : ∀ x, (adjacency edges (component.dedup.insertionSort (· ≤ ·)) x).Nodup := by
    intro x
    unfold adjacency
    split
    · exact ((List.perm_insertionSort _ _).nodup_iff).mpr ((hsucc x).filter _)
    · exact List.nodup_nil
  have hmembers : (component.dedup.insertionSort (· ≤ ·)).Nodup :=
    ((List.perm_insertionSort _ _).nodup_iff).mpr (List.nodup_dedup component)
  exact ((List.perm_insertionSort _ _).nodup_iff).mpr (ElementaryCycles.cycles_nodup hadj hmembers)

/-- Where a component did not hit the cap, it has fewer cycles. -/
theorem length_elementaryCycles_lt {component : List String}
    (hcomp : component ∈ cyclicComponents edges)
    (h : (elementaryCycles cfg edges component).2 = false) :
    ((elementaryCycles cfg edges component).1.length : Int) < cfg.maxCycles := by
  have htwo := of_decide_eq_true (List.mem_filter.mp hcomp).2
  simp only [elementaryCycles, List.length_insertionSort] at h ⊢
  refine ElementaryCycles.cycles_length_lt (fun hnil => ?_) h
  cases component with
  | nil => simp at htwo
  | cons x rest =>
    have hx : x ∈ (x :: rest).dedup.insertionSort (· ≤ ·) :=
      (List.mem_insertionSort _).mpr (List.mem_dedup.mpr (List.mem_cons_self ..))
    rw [hnil] at hx
    simp at hx

/-- The components share no mutex. -/
theorem cyclicComponents_disjoint : (cyclicComponents edges).Pairwise List.Disjoint := by
  have hnodup := (Tarjan.components_correct (lockNodes_closed edges)).1
  exact (List.nodup_flatten.mp hnodup).2.filter _

/-- **No cycle is reported twice**, from whatever mutex it is written. -/
theorem cycleFindings_distinct :
    (cycleFindings cfg edges).Pairwise fun f f' => ¬ f.cycle ~r f'.cycle := by
  rw [cycleFindings, List.pairwise_flatMap]
  constructor
  · -- inside one component the enumeration names each cycle once
    intro component _
    rw [List.pairwise_filterMap]
    refine (elementaryCycles_nodup component).imp_of_mem ?_
    intro cycle cycle' hcycle hcycle' hne f hf f' hf' hrot
    rw [cycle_of_cycleFinding hf, cycle_of_cycleFinding hf'] at hrot
    obtain ⟨hc, hfirst⟩ := mem_elementaryCycles_sound hcycle
    obtain ⟨_, hfirst'⟩ := mem_elementaryCycles_sound hcycle'
    exact hne (hfirst.unique hc.nodup hfirst' hrot)
  · -- cycles of two components share no mutex
    refine cyclicComponents_disjoint.imp fun {component component'} hdisj => ?_
    intro f hf f' hf' hrot
    obtain ⟨cycle, hcycle, hfc⟩ := List.mem_filterMap.mp hf
    obtain ⟨cycle', hcycle', hfc'⟩ := List.mem_filterMap.mp hf'
    rw [cycle_of_cycleFinding hfc, cycle_of_cycleFinding hfc'] at hrot
    obtain ⟨_, x, hx, _⟩ := mem_elementaryCycles_sound hcycle
    have hmem := List.mem_of_head? hx
    exact hdisj (mem_component_of_mem_cycle hcycle x hmem)
      (mem_component_of_mem_cycle hcycle' x (hrot.mem_iff.mp hmem))

/-- Below the cap the findings are those of the driven cycles. -/
theorem mem_cycleFindings_iff {a : AnalyzerState} (h : (detectCycles cfg a).truncated = false)
    {f : Finding} : f ∈ cycleFindings cfg a.lockEdges ↔
      ∃ cycle, IsLockCycle a.lockEdges cycle ∧ ElementaryCycles.LeastFirst cycle
        ∧ DrivenByTwo a.lockEdges cycle ∧ f = abbaFinding a.lockEdges cycle := by
  constructor
  · intro hf
    obtain ⟨_, _, hmem⟩ := List.mem_flatMap.mp hf
    obtain ⟨cycle, hcycle, hmade⟩ := List.mem_filterMap.mp hmem
    obtain ⟨hc, hfirst⟩ := mem_elementaryCycles_sound hcycle
    obtain ⟨hd, hf⟩ := (cycleFinding_eq_some_iff hc).mp hmade
    exact ⟨cycle, hc, hfirst, hd, hf⟩
  · rintro ⟨cycle, hc, hfirst, hd, hf⟩
    obtain ⟨component, hcomp, hsub⟩ := exists_component hc
    have hmem := mem_elementaryCycles_complete ((detectCycles_truncated cfg h).2 component hcomp)
      hc hsub hfirst
    exact List.mem_flatMap.mpr ⟨component, hcomp,
      List.mem_filterMap.mpr ⟨cycle, hmem, (cycleFinding_eq_some_iff hc).mpr ⟨hd, hf⟩⟩⟩

/-- Below the cap every cycle that distinct threads drive is reported,
written from its least mutex. -/
theorem exists_cycleFinding {a : AnalyzerState} (h : (detectCycles cfg a).truncated = false)
    {cycle : List String} (hc : IsLockCycle a.lockEdges cycle) (hd : DrivenByTwo a.lockEdges cycle) :
    ∃ f ∈ cycleFindings cfg a.lockEdges, cycle ~r f.cycle := by
  obtain ⟨cycle', hrot, hfirst⟩ := hc.exists_leastFirst
  have hmem := (mem_cycleFindings_iff h).mpr
    ⟨cycle', hc.of_isRotated hrot, hfirst, hd.of_isRotated hrot, rfl⟩
  exact ⟨_, hmem, hrot⟩

/-- What sets the mark is a component with as many cycles as the cap. -/
theorem cap_of_truncated {component : List String}
    (h : (elementaryCycles cfg edges component).2 = true) :
    cfg.maxCycles ≤ ((elementaryCycles cfg edges component).1.length : Int) := by
  simp only [elementaryCycles, List.length_insertionSort] at h ⊢
  exact ElementaryCycles.cap_le_cycles_length h

/-- A component with as many cycles as the cap sets the mark. -/
theorem truncated_of_cap {a : AnalyzerState} {component : List String}
    (hcomp : component ∈ cyclicComponents a.lockEdges) {cycles : List (List String)}
    (hnodup : cycles.Nodup)
    (hcycles : ∀ c ∈ cycles, IsLockCycle a.lockEdges c ∧ ElementaryCycles.LeastFirst c
      ∧ ∀ x ∈ c, x ∈ component)
    (hcap : cfg.maxCycles ≤ cycles.length) : (detectCycles cfg a).truncated = true := by
  by_contra hfalse
  rw [Bool.not_eq_true] at hfalse
  have hflag := (detectCycles_truncated cfg hfalse).2 component hcomp
  have hsub : cycles ⊆ (elementaryCycles cfg a.lockEdges component).1 := by
    intro c hc
    obtain ⟨hcycle, hfirst, hin⟩ := hcycles c hc
    exact mem_elementaryCycles_complete hflag hcycle hin hfirst
  have hle := List.Nodup.length_le_of_subset hnodup hsub
  have hfound := length_elementaryCycles_lt hcomp hflag
  omega

/-- **The mark is set** by a component with as many cycles as the cap, and by
nothing else. -/
theorem truncated_iff {a : AnalyzerState} : (detectCycles cfg a).truncated = true
    ↔ a.truncated = true ∨ ∃ component ∈ cyclicComponents a.lockEdges,
      ∃ cycles : List (List String), cycles.Nodup
        ∧ (∀ c ∈ cycles, IsLockCycle a.lockEdges c ∧ ElementaryCycles.LeastFirst c
          ∧ ∀ x ∈ c, x ∈ component)
        ∧ cfg.maxCycles ≤ cycles.length := by
  constructor
  · intro h
    rw [detectCycles, detectComponents_eq] at h
    simp only [Bool.or_eq_true, List.any_eq_true] at h
    refine h.imp_right fun ⟨component, hcomp, hflag⟩ => ?_
    refine ⟨component, hcomp, _, elementaryCycles_nodup component, fun c hc => ?_,
      cap_of_truncated hflag⟩
    obtain ⟨hcycle, hfirst⟩ := mem_elementaryCycles_sound hc
    exact ⟨hcycle, hfirst, fun x hx => mem_component_of_mem_cycle hc x hx⟩
  · rintro (hmark | ⟨component, hcomp, cycles, hnodup, hcycles, hcap⟩)
    · rw [detectCycles, detectComponents_eq]
      simp [hmark]
    · exact truncated_of_cap hcomp hnodup hcycles hcap

/-- **Cycle findings are exact.** The detection appends findings about
elementary cycles with distinct threads on two edges, none of them twice.
Without truncation it reports all of these cycles; the mark means that there
was truncation before, or that a component reaches the cap. -/
theorem detectCycles_exact (cfg : AnalyzerSettings) (a : AnalyzerState) :
    ∃ appended, (detectCycles cfg a).findings = a.findings ++ appended
      ∧ (∀ f ∈ appended, CycleReported a.lockEdges f)
      ∧ appended.Pairwise (fun f f' => ¬ f.cycle ~r f'.cycle)
      ∧ ((detectCycles cfg a).truncated = false → ∀ cycle, IsLockCycle a.lockEdges cycle →
          DrivenByTwo a.lockEdges cycle → ∃ f ∈ appended, cycle ~r f.cycle)
      ∧ ((detectCycles cfg a).truncated = true
        ↔ a.truncated = true ∨ ∃ component ∈ cyclicComponents a.lockEdges,
          ∃ cycles : List (List String), cycles.Nodup
            ∧ (∀ c ∈ cycles, IsLockCycle a.lockEdges c ∧ ElementaryCycles.LeastFirst c
              ∧ ∀ x ∈ c, x ∈ component)
            ∧ cfg.maxCycles ≤ cycles.length) :=
  ⟨cycleFindings cfg a.lockEdges, detectCycles_findings cfg a, fun _ hf => mem_cycleFindings hf,
    cycleFindings_distinct, fun h _ hc hd => exists_cycleFinding h hc hd, truncated_iff⟩

end Once


/-! ## Two threads, or one for each edge -/

/-- For two mutexes the verdict is the deadlock: each edge has a thread of
its own. -/
theorem DrivenByTwo.heldOpen {edges : LockEdges} {cycle : List String}
    (h : DrivenByTwo edges cycle) (hlen : cycle.length = 2) : HeldOpen edges cycle := by
  obtain ⟨x, y, rfl⟩ := List.length_eq_two.mp hlen
  obtain ⟨p, hp, q, hq, hpq, e, f, he, hf, t, u, ht, hu, hne⟩ := h
  have hpairs : ElementaryCycles.pairs [x, y] = [(x, y), (y, x)] := rfl
  have hopen : ∀ {e f : LockEdge} {t u : String}, edges.get? (x, y) = some e →
      edges.get? (y, x) = some f → .thread t ∈ e.threads → .thread u ∈ f.threads → t ≠ u →
      HeldOpen edges [x, y] := by
    intro e f t u he hf ht hu hne
    refine ⟨[t, u], by simpa using hne, ?_⟩
    rw [cycleEdges, hpairs, List.filterMap_cons_some he, List.filterMap_cons_some hf]
    exact .cons ht (.cons hu .nil)
  simp only [hpairs, List.mem_cons, List.not_mem_nil, or_false] at hp hq
  rcases hp with rfl | rfl
  · rcases hq with rfl | rfl
    · exact absurd rfl hpq
    · exact hopen he hf ht hu hne
  · rcases hq with rfl | rfl
    · exact hopen hf he hu ht hne.symm
    · exact absurd rfl hpq

/-- **What an ABBA verdict is backed by**: whatever the detection adds to the
findings is about an elementary cycle, with distinct threads on two
different edges. Only for two mutexes does that give each edge a thread of
its own. -/
theorem abba_two_threads (cfg : AnalyzerSettings) (a : AnalyzerState) (f : Finding)
    (hf : f ∈ (detectCycles cfg a).findings) :
    f ∈ a.findings ∨ (f.kind = .abba ∧ IsLockCycle a.lockEdges f.cycle
      ∧ f.edges = cycleEdges a.lockEdges f.cycle ∧ DrivenByTwo a.lockEdges f.cycle
      ∧ (f.cycle.length = 2 → HeldOpen a.lockEdges f.cycle)) := by
  rcases detectCycles_sound hf with hold | ⟨cycle, hc, _, hd, rfl⟩
  · exact .inl hold
  · exact .inr ⟨rfl, hc, rfl, hd, hd.heldOpen⟩

/-- An edge of a table, driven by one thread. -/
def ringEdge (holder acquired thread : String) : (String × String) × LockEdge :=
  ((holder, acquired),
    ⟨holder, acquired, ⟨holder, .gIn⟩, [], {.thread thread}⟩)

/-- Three mutexes taken in a ring; `y` drives two of the edges. -/
def ringState : AnalyzerState :=
  { AnalyzerState.init with
    lockEdges := .ofList [ringEdge "a" "b" "x", ringEdge "b" "c" "y", ringEdge "c" "a" "y"] }

/-- The ring is reported, and two threads cannot hold three mutexes open. -/
theorem abba_ring_not_heldOpen :
    ∃ f ∈ (detectCycles {} ringState).findings, f.kind = .abba
      ∧ IsLockCycle ringState.lockEdges f.cycle ∧ ¬ HeldOpen ringState.lockEdges f.cycle := by
  obtain ⟨f, hf, hk, hcycle⟩ : ∃ f ∈ (detectCycles {} ringState).findings,
      f.kind = .abba ∧ f.cycle = ["a", "b", "c"] := by decide
  refine ⟨f, hf, hk, ?_, ?_⟩
  · rw [hcycle]
    exact ⟨by decide, by decide, by decide⟩
  · rw [hcycle]
    rintro ⟨ts, hnodup, hall⟩
    have hedges : cycleEdges ringState.lockEdges ["a", "b", "c"]
        = [(ringEdge "a" "b" "x").2, (ringEdge "b" "c" "y").2, (ringEdge "c" "a" "y").2] := by
      decide
    rw [hedges] at hall
    rcases hall with _ | ⟨_, _ | ⟨h2, _ | ⟨h3, _⟩⟩⟩
    simp only [ringEdge, Finset.mem_singleton, Origin.thread.injEq] at h2 h3
    simp [h2, h3] at hnodup

theorem abba_two_threads_ring :
    ∃ f ∈ (detectCycles {} ringState).findings,
      f ∈ ringState.findings ∨ (f.kind = .abba ∧ IsLockCycle ringState.lockEdges f.cycle
        ∧ f.edges = cycleEdges ringState.lockEdges f.cycle
        ∧ DrivenByTwo ringState.lockEdges f.cycle
        ∧ (f.cycle.length = 2 → HeldOpen ringState.lockEdges f.cycle)) := by
  obtain ⟨f, hf, _⟩ : ∃ f ∈ (detectCycles {} ringState).findings, f.kind = .abba := by decide
  exact ⟨f, hf, abba_two_threads {} ringState f hf⟩

end FprimeTopologyAnalysis
