/-
FprimeTopologyAnalysis.OriginsExact — the thread-origin table against the
chains of hops that justify it (`_compute_thread_origins`,
`_propagate_origin`, `ensure_thread_origins` of `topology_graph.py`).

`HopChain` spells a call chain out: sync and guarded hops, each out of a
handler that the one before it runs. A port carries the label of an origin
exactly when the origin is seeded there or a chain of one or more such
hops leads there from a handler behind one of its seeds.

Neither the order of the seeds nor the order in which a flood takes its
waiting handlers shows in the table (`threadOrigins_exact`). The source
leaves both open where it iterates a set.
-/
import FprimeTopologyAnalysis.ThreadOrigins

namespace FprimeTopologyAnalysis

open Library

namespace TopologyGraph

/-! ## Chains of hops -/

/-- A chain of sync and guarded hops out of a handler, and the port that
the last of them lands on. -/
inductive HopChain (g : TopologyGraph) : Handler → List OutwardHop → PortKey → Prop
  | last {h : Handler} {hop : OutwardHop} :
      g.HopOut h hop → hop.kind ≠ .async → HopChain g h [hop] hop.dest
  | cons {h h' : Handler} {hop : OutwardHop} {hops : List OutwardHop} {p : PortKey} :
      g.HopOut h hop → hop.kind ≠ .async → h' ∈ hop.targets → HopChain g h' hops p →
      HopChain g h (hop :: hops) p

variable {g : TopologyGraph}

/-- A chain leads from `h` to `p` exactly when some handler that `h` comes
to call calls `p`. -/
theorem exists_hopChain_iff {h : Handler} {p : PortKey} :
    (∃ hops, g.HopChain h hops p) ↔ ∃ h', Relation.ReflTransGen g.Calls h h' ∧ g.CallsPort h' p := by
  constructor
  · rintro ⟨hops, hchain⟩
    induction hchain with
    | last hhop hk => exact ⟨_, .refl, _, hhop, hk, rfl⟩
    | cons hhop hk ht _ ih =>
      obtain ⟨h', hcalls, hport⟩ := ih
      exact ⟨h', .head ⟨_, hhop, hk, ht⟩ hcalls, hport⟩
  · rintro ⟨h', hcalls, hport⟩
    induction hcalls using Relation.ReflTransGen.head_induction_on with
    | refl =>
      obtain ⟨hop, hhop, hk, rfl⟩ := hport
      exact ⟨[hop], .last hhop hk⟩
    | head hcall _ ih =>
      obtain ⟨hop, hhop, hk, ht⟩ := hcall
      obtain ⟨hops, hchain⟩ := ih
      exact ⟨hop :: hops, .cons hhop hk ht hchain⟩

/-- A port carries an origin: the origin is seeded there, or a chain of one
or more hops leads there from a handler behind one of its seeds. -/
def Carries (g : TopologyGraph) (o : Origin) (p : PortKey) : Prop :=
  (∃ kind, g.Seeds o p kind)
    ∨ ∃ seed kind h hops, g.Seeds o seed kind ∧ g.Behind seed kind h ∧ g.HopChain h hops p

theorem landsOn_iff_carries {o : Origin} {p : PortKey} : g.LandsOn o p ↔ g.Carries o p := by
  refine or_congr_right ?_
  constructor
  · rintro ⟨h, ⟨seed, kind, hseed, h₀, hbehind, hcalls⟩, hport⟩
    obtain ⟨hops, hchain⟩ := exists_hopChain_iff.mpr ⟨h, hcalls, hport⟩
    exact ⟨seed, kind, h₀, hops, hseed, hbehind, hchain⟩
  · rintro ⟨seed, kind, h₀, hops, hseed, hbehind, hchain⟩
    obtain ⟨h, hcalls, hport⟩ := exists_hopChain_iff.mp ⟨hops, hchain⟩
    exact ⟨h, ⟨seed, kind, hseed, h₀, hbehind, hcalls⟩, hport⟩

/-- The table is what it is for. -/
def ExactOrigins (g : TopologyGraph) (s : OriginState) : Prop :=
  ∀ o p, o ∈ s.threadsAt p ↔ g.Carries o p

/-! ## Any order -/

/-- The handlers a seed's flood starts with. -/
def seedRoots (g : TopologyGraph) (port : PortKey) (kind : SyncKind) : List Handler :=
  match g.instances.get? port.inst with
  | none => []
  | some info => floodRoots info port kind

/-- What `_propagate_origin` may end with, its waiting entries taken in any
order. -/
def FloodsTo (g : TopologyGraph) (seed : Origin × PortKey × SyncKind) (s s' : OriginState) : Prop :=
  ∃ seen, Worklist.Takes (g.floodExpand seed.1)
    (Worklist.start (g.seedRoots seed.2.1 seed.2.2) (s.addOrigin seed.2.1 seed.1)) (0, seen, s')

/-- What the loop of `_compute_thread_origins` over some seeds may end with. -/
inductive PropagatesTo (g : TopologyGraph) :
    List (Origin × PortKey × SyncKind) → OriginState → OriginState → Prop
  | nil {s : OriginState} : PropagatesTo g [] s s
  | cons {seed : Origin × PortKey × SyncKind} {seeds : List (Origin × PortKey × SyncKind)}
      {s t s' : OriginState} :
      g.FloodsTo seed s t → PropagatesTo g seeds t s' → PropagatesTo g (seed :: seeds) s s'

/-- No flood runs on, and none gets stuck, whatever it takes next. -/
def FloodsEnd (g : TopologyGraph) : Prop :=
  ∀ seed ∈ g.origins, ∀ s : OriginState,
    Worklist.EndsIn (g.floodExpand seed.1) (g.seedRoots seed.2.1 seed.2.2)
      (s.addOrigin seed.2.1 seed.1) (g.FloodsTo seed s)

theorem seedRoots_eq {o : Origin} {port : PortKey} {kind : SyncKind} (hseed : g.Seeds o port kind) :
    ∃ info, g.instances.get? port.inst = some info ∧ kind ∈ info.kindsOf port.port
      ∧ g.seedRoots port kind = floodRoots info port kind := by
  obtain ⟨info, hget, hk, _⟩ := hseed
  refine ⟨info, hget, hk, ?_⟩
  unfold seedRoots
  rw [hget]

theorem FloodsTo.labelled {o : Origin} {port : PortKey} {kind : SyncKind} {s s' : OriginState}
    (hseed : g.Seeds o port kind) (h : g.FloodsTo (o, port, kind) s s') :
    g.Labelled o port (g.EnteredFrom port kind) s s' := by
  obtain ⟨info, hget, hk, hroots⟩ := seedRoots_eq hseed
  obtain ⟨seen, htakes⟩ := h
  rw [hroots] at htakes
  exact takes_labelled hget hk htakes

/-- Where every handler resolves, every flood comes to an end. -/
theorem floodsEnd (hres : g.AllResolve) : g.FloodsEnd := by
  rintro ⟨o, port, kind⟩ hmem s
  obtain ⟨info, hget, hk, hroots⟩ := seedRoots_eq (mem_origins_iff.mp hmem)
  have hinside : ∀ h, Worklist.Reach (g.floodExpand o) (g.seedRoots port kind) h → h ∈ g.handlers := by
    intro h hh
    rw [hroots] at hh
    exact ((floodReach_iff hget hk).mp hh).mem_handlers
  have hends := Worklist.endsIn_of_spec (s := s.addOrigin port o) (P := fun _ => True)
    (fun _ _ => True) hinside (fun h hh => floodExpand_ok_iff.mpr (hres h (hinside h hh)))
    (fun _ _ _ _ _ _ _ _ => trivial) trivial fun _ _ _ _ => trivial
  exact ⟨hends.terminates, hends.progress, fun seen s' h => ⟨seen, h⟩⟩

/-- What the floods of some seeds add up to. -/
theorem PropagatesTo.labels {seeds : List (Origin × PortKey × SyncKind)} {s s' : OriginState}
    (h : g.PropagatesTo seeds s s') (hseeds : ∀ seed ∈ seeds, seed ∈ g.origins) (o : Origin)
    (p : PortKey) :
    o ∈ s'.threadsAt p ↔ o ∈ s.threadsAt p ∨ ∃ x ∈ seeds, o = x.1
      ∧ (p = x.2.1 ∨ ∃ h, g.EnteredFrom x.2.1 x.2.2 h ∧ g.CallsPort h p) := by
  induction h with
  | nil => simp
  | cons hflood _ ih =>
    have hseed := mem_origins_iff.mp (hseeds _ (List.mem_cons_self ..))
    have hrest := ih fun x hx => hseeds x (List.mem_cons_of_mem _ hx)
    rw [hrest, hflood.labelled hseed o p, List.exists_mem_cons_iff, or_assoc]

/-- **Thread-origin propagation is exact, in any order.** Where every
handler resolves, `ensure_thread_origins` ends well with the exact table;
every flood comes to an end whatever waiting entry it takes; and so does
the propagation of the seeds in any order end with the exact table. -/
theorem threadOrigins_exact (g : TopologyGraph) (hres : g.AllResolve) :
    (∃ s, g.ensureThreadOrigins .fresh = (.ok (), s) ∧ g.ExactOrigins s)
      ∧ g.FloodsEnd
      ∧ ∀ seeds, seeds.Perm g.origins → ∀ s, g.PropagatesTo seeds ⟨∅, true⟩ s → g.ExactOrigins s := by
  refine ⟨?_, floodsEnd hres, fun seeds hperm s hs o p => ?_⟩
  · obtain ⟨s, hs⟩ := hres.completeOrigins
    refine ⟨s, ensure_fresh hs, fun o p => ?_⟩
    rw [mem_portThreads_iff hs, landsOn_iff_carries]
  · rw [hs.labels (fun seed hmem => hperm.mem_iff.mp hmem), ← landsOn_iff_carries,
      landsOn_iff_exists_seed]
    simp [OriginState.threadsAt, hperm.mem_iff]

/-- A thread `t`, two instances that call each other, and a third whose
input nothing drives. -/
def cycleTopology : TopologyGraph where
  instances := .ofList [
    ("t", { kind := .active
            inputPorts := .ofList [(.go, {.async})]
            outputPorts := [.out] }),
    ("x", { kind := .passive
            inputPorts := .ofList [(.gIn, {.guarded})]
            outputPorts := [.out] }),
    ("y", { kind := .passive
            inputPorts := .ofList [(.gIn, {.guarded})]
            outputPorts := [.out] }),
    ("z", { kind := .passive
            inputPorts := .ofList [(.go, {.sync})]
            outputPorts := [.out] })]
  connections := .ofList [(⟨"t", .out⟩, [⟨"x", .gIn⟩]), (⟨"x", .out⟩, [⟨"y", .gIn⟩]),
    (⟨"y", .out⟩, [⟨"x", .gIn⟩]), (⟨"z", .out⟩, [⟨"y", .gIn⟩])]
  flow := .permissive ∅

theorem threadOrigins_exact_cycle :
    (∃ s, cycleTopology.ensureThreadOrigins .fresh = (.ok (), s) ∧ cycleTopology.ExactOrigins s)
      ∧ cycleTopology.FloodsEnd
      ∧ ∀ seeds, seeds.Perm cycleTopology.origins → ∀ s,
        cycleTopology.PropagatesTo seeds ⟨∅, true⟩ s → cycleTopology.ExactOrigins s :=
  threadOrigins_exact cycleTopology (by decide)

end TopologyGraph

end FprimeTopologyAnalysis
