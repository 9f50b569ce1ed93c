/-
FprimeTopologyAnalysis.ChainWalk — `walk_chains`, the one traversal every
analysis shares.

The walk resolves each handler's outputs, follows the wiring and hands
every resulting hop to a callback, which either stops the chain or names
the state to descend with. `_descend` is the budgeted search of
`Library.Search` over the points of a walk; `walk_chains` runs it once per
flow entry of the entry port, with a fresh set of visited points and one
shared budget.

`Chain` is what the walk is about: the chains of hops a policy does not
stop, with the witness path and the state produced along them. The two
rules an analysis uses are `walkChains_inv` (what every hop of a genuine
chain preserves holds after the walk, whatever it returns) and
`walkChains_complete` (a walk that reports no truncation has shown the
callback every hop of every chain, up to the state key).
-/
import FprimeTopologyAnalysis.TopologyGraph
import FprimeTopologyAnalysis.Library.Search
import Mathlib.Algebra.GroupWithZero.Nat

namespace FprimeTopologyAnalysis

open Library

/-! ## The traversal -/

/-- `Hop`: one call from an output port to an input port, during a walk. -/
structure Hop (σ : Type) where
  entry : PortKey
  entryFlow : String
  source : PortKey
  dest : PortKey
  kind : SyncKind
  path : List String
  state : σ

/-- The arguments `_descend` is called with: a handler, the caller's state
and the witness path so far. -/
structure WalkPoint (σ : Type) where
  inst : String
  flowEntry : String
  state : σ
  path : List String

/-- The state one walk threads through its flow entries. `expanded` lists
the markers each flow entry's search expanded. -/
structure WalkState (κ α : Type) where
  budget : Int
  acc : α
  expanded : List (String × Finset (String × String × κ))

/-- The state with its accumulator seen through `φ`. -/
def WalkState.mapAcc {κ α α' : Type} (φ : α → α') (s : WalkState κ α) : WalkState κ α' :=
  ⟨s.budget, φ s.acc, s.expanded⟩

/-- The number of nodes the searches have expanded. -/
def WalkState.expansions {κ α : Type} (s : WalkState κ α) : Nat :=
  (s.expanded.map fun e => e.2.card).sum

/-- The first line of a witness path. -/
def entryLabel (entry : PortKey) (entryKind : SyncKind) (flowEntry : String) : String :=
  if flowEntry = entry.port.str then
    entry.str ++ " [" ++ entryKind.str ++ " entry]"
  else
    entry.str ++ " [" ++ entryKind.str ++ " entry: " ++ flowEntry ++ "]"

namespace TopologyGraph

variable {σ κ α : Type} [DecidableEq κ] (g : TopologyGraph)

/-- The hop `_descend` builds for one outward call of a point. -/
def hopAt (entry : PortKey) (entryFlow : String) (n : WalkPoint σ) (out : OutwardHop) : Hop σ :=
  ⟨entry, entryFlow, out.source, out.dest, out.kind, n.path ++ [out.label], n.state⟩

/-- Where a hop leads when the callback answers with a state. -/
def pointsBehind (out : OutwardHop) (path : List String) (state : σ) : List (WalkPoint σ) :=
  out.targets.map fun h => ⟨h.1, h.2, state, path⟩

/-- The body of `_descend`, as a search problem: outward hops in order, the
callback on each, and the handlers behind the destination unless it
answered `STOP`. -/
def descendProblem (entry : PortKey) (entryFlow : String) (onHop : Hop σ → α → Option σ × α)
    (stateKey : σ → κ) :
    Search.Problem (WalkPoint σ) (OutwardHop × Hop σ) (String × String × κ)
      UnresolvedFlowError α where
  hops n :=
    match g.outwardHops n.inst n.flowEntry with
    | .error e => .error e
    | .ok outs => .ok (outs.map fun out => (out, hopAt entry entryFlow n out))
  visit h a :=
    match onHop h.2 a with
    | (none, a') => ([], a')
    | (some state, a') => (pointsBehind h.1 h.2.path state, a')
  key n := (n.inst, n.flowEntry, stateKey n.state)

/-- The point a flow entry's search starts from. -/
def startPoint (entry : PortKey) (entryKind : SyncKind) (initialState : σ) (flowEntry : String) :
    WalkPoint σ :=
  ⟨entry.inst, flowEntry, initialState, [entryLabel entry entryKind flowEntry]⟩

/-- The search from one flow entry, with a recursion allowance of `extra`
levels beyond the budget. Each flow entry has its own visited set; the
budget is shared. -/
def walkEntry (extra : Nat) (entry : PortKey) (entryKind : SyncKind)
    (onHop : Hop σ → α → Option σ × α) (initialState : σ) (stateKey : σ → κ)
    (flowEntry : String) (s : WalkState κ α) : Except UnresolvedFlowError Bool × WalkState κ α :=
  let r := Search.dfs (g.descendProblem entry flowEntry onHop stateKey)
    (s.budget.toNat + extra) (startPoint entry entryKind initialState flowEntry)
    ⟨∅, s.budget, s.acc⟩
  (r.1, ⟨r.2.budget, r.2.acc, s.expanded ++ [(flowEntry, r.2.visited)]⟩)

/-- `walk_chains`, with the recursion allowance of `walkEntry`. -/
def walkChainsWith (extra : Nat) (entry : PortKey) (entryKind : SyncKind)
    (onHop : Hop σ → α → Option σ × α) (initialState : σ) (stateKey : σ → κ)
    (s : WalkState κ α) : Except UnresolvedFlowError Bool × WalkState κ α :=
  match g.instances.get? entry.inst with
  | none => (.ok false, s)
  | some info =>
    Search.forOr (g.walkEntry extra entry entryKind onHop initialState stateKey)
      (info.flowEntries entry.port entryKind) s

/-- `walk_chains`. -/
def walkChains (entry : PortKey) (entryKind : SyncKind) (onHop : Hop σ → α → Option σ × α)
    (initialState : σ) (stateKey : σ → κ) (s : WalkState κ α) :
    Except UnresolvedFlowError Bool × WalkState κ α :=
  g.walkChainsWith 0 entry entryKind onHop initialState stateKey s

end TopologyGraph

/-! ## Chains -/

/-- A hop policy: what the callback answers, from the hop alone. -/
abbrev Policy (σ : Type) := PortKey → PortKey → SyncKind → σ → Option σ

/-- The callback answers by the policy, whatever it has accumulated. -/
def Decides {σ α : Type} (onHop : Hop σ → α → Option σ × α) (policy : Policy σ) : Prop :=
  ∀ hop a, (onHop hop a).1 = policy hop.source hop.dest hop.kind hop.state

/-- A chain of hops that the policy does not stop, from one flow entry of
the entry port: the handler it is in, the state it carries there and its
witness path. -/
inductive Chain {σ : Type} (g : TopologyGraph) (policy : Policy σ) (entry : PortKey)
    (entryKind : SyncKind) (initialState : σ) (flowEntry : String) :
    Handler → σ → List String → Prop
  | start : Chain g policy entry entryKind initialState flowEntry (entry.inst, flowEntry)
      initialState [entryLabel entry entryKind flowEntry]
  | step {h h' : Handler} {out : OutwardHop} {s t : σ} {path : List String} :
      Chain g policy entry entryKind initialState flowEntry h s path →
      g.HopOut h out → policy out.source out.dest out.kind s = some t → h' ∈ out.targets →
      Chain g policy entry entryKind initialState flowEntry h' t (path ++ [out.label])

namespace TopologyGraph

variable {σ κ α : Type} {g : TopologyGraph} {entry : PortKey}
  {entryKind : SyncKind} {onHop : Hop σ → α → Option σ × α} {initialState : σ}
  {stateKey : σ → κ} {policy : Policy σ} {flowEntry : String}

/-- The successors of a hop under a policy. -/
def successors (policy : Policy σ) (h : OutwardHop × Hop σ) : List (WalkPoint σ) :=
  match policy h.2.source h.2.dest h.2.kind h.2.state with
  | none => []
  | some state => pointsBehind h.1 h.2.path state

theorem descendProblem_pure (g : TopologyGraph) (entry : PortKey) (flowEntry : String)
    (stateKey : σ → κ) (hdec : Decides onHop policy) :
    Search.Pure (g.descendProblem entry flowEntry onHop stateKey) (successors policy) := by
  intro h a
  have hd := hdec h.2 a
  simp only [descendProblem, successors]
  cases hon : onHop h.2 a with
  | mk r a' =>
    rw [hon] at hd
    rw [← hd]
    cases r <;> rfl

theorem visit_snd (h : OutwardHop × Hop σ) (a : α) :
    ((g.descendProblem entry flowEntry onHop stateKey).visit h a).2 = (onHop h.2 a).2 := by
  simp only [descendProblem]
  cases hon : onHop h.2 a with
  | mk r a' => cases r <;> rfl

/-- A point's hops are the outward hops of its handler. -/
theorem hops_eq_ok_iff (n : WalkPoint σ) (hs : List (OutwardHop × Hop σ)) :
    (g.descendProblem entry flowEntry onHop stateKey).hops n = .ok hs ↔
      ∃ outs, g.outwardHops n.inst n.flowEntry = .ok outs
        ∧ hs = outs.map fun out => (out, hopAt entry flowEntry n out) := by
  simp only [descendProblem]
  cases g.outwardHops n.inst n.flowEntry with
  | error e => simp
  | ok outs => simp [eq_comm]

/-- The successors of a hop that the policy goes on with are the handlers
behind it, in the state the policy answers with. -/
theorem mem_successors_hopAt {n x : WalkPoint σ} {out : OutwardHop} :
    x ∈ successors policy (out, hopAt entry flowEntry n out)
      ↔ ∃ t, policy out.source out.dest out.kind n.state = some t
        ∧ ∃ target ∈ out.targets, x = ⟨target.1, target.2, t, n.path ++ [out.label]⟩ := by
  simp only [successors, hopAt]
  cases policy out.source out.dest out.kind n.state with
  | none => simp
  | some t => simp [pointsBehind, eq_comm]

/-- The points a search reaches are the ends of chains. -/
theorem reach_iff_chain (entryKind : SyncKind) (initialState : σ) (n : WalkPoint σ) :
    Search.Reach (g.descendProblem entry flowEntry onHop stateKey) (successors policy)
        (startPoint entry entryKind initialState flowEntry) n
      ↔ Chain g policy entry entryKind initialState flowEntry (n.inst, n.flowEntry)
          n.state n.path := by
  constructor
  · intro hreach
    induction hreach with
    | refl => exact .start
    | tail _ hstep ih =>
      obtain ⟨hs, hok, h, hh, hm⟩ := hstep
      obtain ⟨outs, houts, rfl⟩ := (hops_eq_ok_iff _ _).mp hok
      obtain ⟨out, hout, rfl⟩ := List.mem_map.mp hh
      obtain ⟨t, hpol, target, htarget, rfl⟩ := mem_successors_hopAt.mp hm
      exact .step ih ⟨outs, houts, hout⟩ hpol htarget
  · intro hchain
    -- the chain determines the point it ends in
    suffices hgen : ∀ h s path, Chain g policy entry entryKind initialState flowEntry h s path →
        Search.Reach (g.descendProblem entry flowEntry onHop stateKey) (successors policy)
          (startPoint entry entryKind initialState flowEntry) ⟨h.1, h.2, s, path⟩ from
      hgen _ _ _ hchain
    intro h s path hc
    induction hc with
    | start => exact .refl
    | step _ hhop hpol htarget ih =>
      obtain ⟨outs, houts, hout⟩ := hhop
      exact ih.tail ⟨_, (hops_eq_ok_iff _ _).mpr ⟨outs, houts, rfl⟩,
        _, List.mem_map.mpr ⟨_, hout, rfl⟩, mem_successors_hopAt.mpr ⟨_, hpol, _, htarget, rfl⟩⟩

/-! ## The two rules -/

variable [DecidableEq κ]

/-- States met along chains of one flow entry respect the key: equal keys
stop together or continue with equal keys. -/
def RespectsKey (g : TopologyGraph) (policy : Policy σ) (entry : PortKey) (entryKind : SyncKind)
    (initialState : σ) (stateKey : σ → κ) (flowEntry : String) : Prop :=
  ∀ h s path h' s' path',
    Chain g policy entry entryKind initialState flowEntry h s path →
    Chain g policy entry entryKind initialState flowEntry h' s' path' →
    stateKey s = stateKey s' → ∀ source dest kind,
      (policy source dest kind s).map stateKey = (policy source dest kind s').map stateKey

/-- **Completeness of one search**: without truncation it has expanded the
end of every chain and shown the callback every hop out of it, up to the
state key. -/
theorem descend_complete (hdec : Decides onHop policy)
    (hkey : RespectsKey g policy entry entryKind initialState stateKey flowEntry)
    (Seen : Hop σ → α → Prop) (hseen : ∀ hop a, Seen hop (onHop hop a).2)
    (hstable : ∀ hop hop' a, Seen hop a → Seen hop (onHop hop' a).2)
    {fuel : Nat} {s s' : Search.State (String × String × κ) α} (hempty : s.visited = ∅)
    (hrun : Search.dfs (g.descendProblem entry flowEntry onHop stateKey) fuel
      (startPoint entry entryKind initialState flowEntry) s = (.ok false, s')) :
    ∀ h st path, Chain g policy entry entryKind initialState flowEntry h st path →
      (h.1, h.2, stateKey st) ∈ s'.visited ∧ g.Resolves h
        ∧ ∀ out, g.HopOut h out → ∃ path' st', stateKey st' = stateKey st
          ∧ Seen ⟨entry, flowEntry, out.source, out.dest, out.kind, path', st'⟩ s'.acc := by
  intro h st path hchain
  have hcomplete := Search.dfs_complete (fun h a => Seen h.2 a)
    (descendProblem_pure g entry flowEntry stateKey hdec)
    (fun h a => by rw [visit_snd]; exact hseen h.2 a)
    (fun h h' a hh => by rw [visit_snd]; exact hstable h.2 h'.2 a hh)
    (fun h h' => h.2.entry = h'.2.entry ∧ h.2.entryFlow = h'.2.entryFlow
      ∧ h.2.source = h'.2.source ∧ h.2.dest = h'.2.dest ∧ h.2.kind = h'.2.kind
      ∧ stateKey h'.2.state = stateKey h.2.state) ?_ hempty hrun ⟨h.1, h.2, st, path⟩
    ((reach_iff_chain _ _ _).mpr hchain)
  · obtain ⟨hmark, hs, hok, hall⟩ := hcomplete
    obtain ⟨outs, houts, rfl⟩ := (hops_eq_ok_iff _ _).mp hok
    refine ⟨hmark, ⟨outs, houts⟩, fun out hout => ?_⟩
    obtain ⟨outs', houts', hmem⟩ := hout
    have hsame : outs' = outs := by simpa using houts'.symm.trans houts
    subst hsame
    obtain ⟨⟨_, hop'⟩, ⟨he, hf, hs, hd, hk, hst⟩, hseen'⟩ :=
      hall (out, hopAt entry flowEntry ⟨h.1, h.2, st, path⟩ out) (List.mem_map.mpr ⟨out, hmem, rfl⟩)
    refine ⟨hop'.path, hop'.state, hst, ?_⟩
    simp only [hopAt] at he hf hs hd hk
    rw [he, hf, hs, hd, hk]
    exact hseen'
  · intro n m hs hn hm hnm hok
    obtain ⟨outs, houts, rfl⟩ := (hops_eq_ok_iff _ _).mp hok
    simp only [descendProblem, Prod.mk.injEq] at hnm
    obtain ⟨hi, hf, hk⟩ := hnm
    have houtsn : g.outwardHops n.inst n.flowEntry = .ok outs := by rw [hi, hf]; exact houts
    refine ⟨_, (hops_eq_ok_iff _ _).mpr ⟨outs, houtsn, rfl⟩, ?_⟩
    intro h hh
    obtain ⟨out, hout, rfl⟩ := List.mem_map.mp hh
    refine ⟨_, List.mem_map.mpr ⟨out, hout, rfl⟩, ⟨rfl, rfl, rfl, rfl, rfl, hk.symm⟩, ?_⟩
    -- the two states stop together, or go on with equal keys
    have hpol := hkey _ _ _ _ _ _ ((reach_iff_chain _ _ n).mp hn) ((reach_iff_chain _ _ m).mp hm) hk
      out.source out.dest out.kind
    intro x hx
    obtain ⟨t, hpn, target, htarget, rfl⟩ := mem_successors_hopAt.mp hx
    rw [hpn, Option.map_some, eq_comm, Option.map_eq_some_iff] at hpol
    obtain ⟨t', hpm, hsame⟩ := hpol
    exact ⟨_, mem_successors_hopAt.mpr ⟨t', hpm, target, htarget, rfl⟩, by
      simp [descendProblem, hsame]⟩

/-- The flow entries a walk starts from. -/
def entryFlows (g : TopologyGraph) (entry : PortKey) (entryKind : SyncKind) : List String :=
  match g.instances.get? entry.inst with
  | none => []
  | some info => info.flowEntries entry.port entryKind

theorem walkChainsWith_eq (extra : Nat) (s : WalkState κ α) :
    g.walkChainsWith extra entry entryKind onHop initialState stateKey s
      = Search.forOr (g.walkEntry extra entry entryKind onHop initialState stateKey)
          (g.entryFlows entry entryKind) s := by
  unfold walkChainsWith entryFlows
  cases g.instances.get? entry.inst with
  | none => rfl
  | some info => rfl

/-- **Two walks in step**: callbacks that are the same up to a map of what
they accumulate make walks that are. -/
theorem walkChains_map {α' : Type} {onHop' : Hop σ → α' → Option σ × α'} (φ : α → α')
    (hon : ∀ hop a, onHop' hop (φ a) = ((onHop hop a).1, φ (onHop hop a).2))
    (s : WalkState κ α) :
    g.walkChains entry entryKind onHop' initialState stateKey (s.mapAcc φ)
      = ((g.walkChains entry entryKind onHop initialState stateKey s).1,
          (g.walkChains entry entryKind onHop initialState stateKey s).2.mapAcc φ) := by
  unfold walkChains
  rw [walkChainsWith_eq, walkChainsWith_eq]
  refine Search.forOr_map (WalkState.mapAcc φ) (fun flowEntry t => ?_) _ s
  have hvisit : ∀ h a, (g.descendProblem entry flowEntry onHop' stateKey).visit h (φ a)
      = (((g.descendProblem entry flowEntry onHop stateKey).visit h a).1,
          φ ((g.descendProblem entry flowEntry onHop stateKey).visit h a).2) := by
    intro h a
    simp only [descendProblem, hon]
    cases onHop h.2 a with
    | mk r a' => cases r <;> rfl
  have hdfs := Search.dfs_map (P := g.descendProblem entry flowEntry onHop stateKey) φ rfl rfl
    hvisit (t.budget.toNat + 0) (startPoint entry entryKind initialState flowEntry)
    ⟨∅, t.budget, t.acc⟩
  simp only [Search.State.mapAcc] at hdfs
  simp only [walkEntry, WalkState.mapAcc, hdfs]

/-- **Soundness of a walk**: what the callback preserves on every hop of a
genuine chain holds after the walk, whatever the walk returns. -/
theorem walkChains_inv (hdec : Decides onHop policy) (I : α → Prop)
    (hI : ∀ flowEntry ∈ g.entryFlows entry entryKind, ∀ h s path out a,
      Chain g policy entry entryKind initialState flowEntry h s path → g.HopOut h out → I a →
        I (onHop ⟨entry, flowEntry, out.source, out.dest, out.kind, path ++ [out.label], s⟩ a).2)
    (extra : Nat) (s : WalkState κ α) (hs : I s.acc) :
    I (g.walkChainsWith extra entry entryKind onHop initialState stateKey s).2.acc := by
  rw [walkChainsWith_eq]
  refine Search.forOr_inv (fun s : WalkState κ α => I s.acc) _ ?_ s hs
  intro flowEntry hflow s hs
  refine Search.dfs_inv _ (descendProblem_pure _ _ _ _ hdec) I ?_ _
    ⟨∅, s.budget, s.acc⟩ hs
  intro n hops h a hn hok hh ha
  rw [visit_snd]
  obtain ⟨outs, houts, rfl⟩ := (hops_eq_ok_iff _ _).mp hok
  obtain ⟨out, hout, rfl⟩ := List.mem_map.mp hh
  exact hI flowEntry hflow _ _ _ out a
    ((reach_iff_chain entryKind initialState n).mp hn)
    ⟨outs, houts, hout⟩ ha

/-- **Completeness of a walk**: a walk that reports no truncation has
expanded the end of every chain of every flow entry, and shown the callback
every hop out of it, up to the state key. -/
theorem walkChains_complete (hdec : Decides onHop policy)
    (hkey : ∀ flowEntry ∈ g.entryFlows entry entryKind,
      RespectsKey g policy entry entryKind initialState stateKey flowEntry)
    (Seen : Hop σ → α → Prop) (hseen : ∀ hop a, Seen hop (onHop hop a).2)
    (hstable : ∀ hop hop' a, Seen hop a → Seen hop (onHop hop' a).2)
    {extra : Nat} {s s' : WalkState κ α}
    (hrun : g.walkChainsWith extra entry entryKind onHop initialState stateKey s
      = (.ok false, s')) :
    ∀ flowEntry ∈ g.entryFlows entry entryKind,
      (∃ marks, (flowEntry, marks) ∈ s'.expanded ∧ ∀ h st path,
        Chain g policy entry entryKind initialState flowEntry h st path →
          (h.1, h.2, stateKey st) ∈ marks)
      ∧ ∀ h st path, Chain g policy entry entryKind initialState flowEntry h st path →
        g.Resolves h ∧ ∀ out, g.HopOut h out → ∃ path' st', stateKey st' = stateKey st
          ∧ Seen ⟨entry, flowEntry, out.source, out.dest, out.kind, path', st'⟩ s'.acc := by
  rw [walkChainsWith_eq] at hrun
  refine Search.forOr_ok_false (fun flowEntry (t : WalkState κ α) =>
      (∃ marks, (flowEntry, marks) ∈ t.expanded ∧ ∀ h st path,
        Chain g policy entry entryKind initialState flowEntry h st path →
          (h.1, h.2, stateKey st) ∈ marks)
      ∧ ∀ h st path, Chain g policy entry entryKind initialState flowEntry h st path →
        g.Resolves h ∧ ∀ out, g.HopOut h out → ∃ path' st', stateKey st' = stateKey st
          ∧ Seen ⟨entry, flowEntry, out.source, out.dest, out.kind, path', st'⟩ t.acc)
    (g.entryFlows entry entryKind) ?_ ?_ s s' hrun
  · -- one flow entry's own search
    intro flowEntry hflow t t' ht
    simp only [walkEntry, Prod.mk.injEq] at ht
    obtain ⟨hok, rfl⟩ := ht
    have hdfs := descend_complete hdec (hkey flowEntry hflow) Seen hseen hstable
      (s := ⟨∅, t.budget, t.acc⟩) rfl (Prod.ext hok rfl)
    refine ⟨⟨_, List.mem_append_right _ (List.mem_singleton_self _), ?_⟩, ?_⟩
    · exact fun h st path hchain => (hdfs h st path hchain).1
    · exact fun h st path hchain => (hdfs h st path hchain).2
  · -- the searches after it undo nothing
    intro flowEntry hflow flowEntry' t ht
    obtain ⟨⟨marks, hmarks, hall⟩, hseen'⟩ := ht
    refine ⟨⟨marks, List.mem_append_left _ hmarks, hall⟩, ?_⟩
    intro h st path hchain
    obtain ⟨hres, hhops⟩ := hseen' h st path hchain
    refine ⟨hres, fun out hout => ?_⟩
    obtain ⟨path', st', hst, hsn⟩ := hhops out hout
    refine ⟨path', st', hst, ?_⟩
    refine Search.dfs_inv _ (descendProblem_pure _ _ _ _ hdec) (Seen _) ?_ _
      ⟨∅, t.budget, t.acc⟩ hsn
    intro n hops h' a _ _ _ ha
    rw [visit_snd]
    exact hstable _ h'.2 a ha

/-- A walk raises only on a handler at the end of a chain. -/
theorem walkChains_ok (hdec : Decides onHop policy)
    (hres : ∀ flowEntry ∈ g.entryFlows entry entryKind, ∀ h st path,
      Chain g policy entry entryKind initialState flowEntry h st path → g.Resolves h)
    (extra : Nat) (s : WalkState κ α) :
    ∃ b s', g.walkChainsWith extra entry entryKind onHop initialState stateKey s
      = (.ok b, s') := by
  cases hrun : g.walkChainsWith extra entry entryKind onHop initialState stateKey s with
  | mk r s' =>
    cases r with
    | ok b => exact ⟨b, s', rfl⟩
    | error e =>
      rw [walkChainsWith_eq] at hrun
      obtain ⟨flowEntry, hflow, t, t', ht⟩ := Search.forOr_error _ s s' hrun
      simp only [walkEntry, Prod.mk.injEq] at ht
      obtain ⟨n, hn, herr⟩ := Search.dfs_error _ (descendProblem_pure _ _ _ _ hdec) _ _ _ _ .refl
        (Prod.ext ht.1 rfl)
      obtain ⟨outs, houts⟩ := hres flowEntry hflow _ _ _ ((reach_iff_chain _ _ n).mp hn)
      rw [(hops_eq_ok_iff n _).mpr ⟨outs, houts, rfl⟩] at herr
      cases herr

/-- **Bound of a walk**: the nodes the searches expand and the budget left
balance, and the budget is never overdrawn. -/
theorem walkChains_count (hdec : Decides onHop policy) (extra : Nat) (s : WalkState κ α) :
    let r := (g.walkChainsWith extra entry entryKind onHop initialState stateKey s).2
    (r.expansions : Int) + r.budget = s.expansions + s.budget
      ∧ min s.budget 0 ≤ r.budget ∧ r.budget ≤ s.budget := by
  rw [walkChainsWith_eq]
  refine Search.forOr_inv (fun t : WalkState κ α =>
    (t.expansions : Int) + t.budget = s.expansions + s.budget
      ∧ min s.budget 0 ≤ t.budget ∧ t.budget ≤ s.budget) _ ?_ s ⟨rfl, by omega, by omega⟩
  intro flowEntry _ t ⟨hsum, hlow, hhigh⟩
  have hcount := Search.dfs_count (startPoint entry entryKind initialState flowEntry)
    (descendProblem_pure g entry flowEntry stateKey hdec) (t.budget.toNat + extra) ⟨∅, t.budget, t.acc⟩
  rw [Finset.card_empty] at hcount
  dsimp only at hcount
  have hadd : (g.walkEntry extra entry entryKind onHop initialState stateKey flowEntry
        t).2.expansions = t.expansions
      + (Search.dfs (g.descendProblem entry flowEntry onHop stateKey) (t.budget.toNat + extra)
          (startPoint entry entryKind initialState flowEntry)
          ⟨∅, t.budget, t.acc⟩).2.visited.card := by
    simp [walkEntry, WalkState.expansions]
  have hleft : (g.walkEntry extra entry entryKind onHop initialState stateKey flowEntry
        t).2.budget
      = (Search.dfs (g.descendProblem entry flowEntry onHop stateKey) (t.budget.toNat + extra)
          (startPoint entry entryKind initialState flowEntry)
          ⟨∅, t.budget, t.acc⟩).2.budget := rfl
  rw [hadd, hleft]
  omega

/-- At most `budget` nodes are expanded. -/
theorem walkChains_bounded (hdec : Decides onHop policy) (extra : Nat) (s : WalkState κ α)
    (hs : s.expanded = []) :
    ((g.walkChainsWith extra entry entryKind onHop initialState stateKey s).2.expansions : Int)
      ≤ max s.budget 0 := by
  have hzero : s.expansions = 0 := by simp [WalkState.expansions, hs]
  have hbound : ∀ r : WalkState κ α, (r.expansions : Int) + r.budget = s.expansions + s.budget
      ∧ min s.budget 0 ≤ r.budget ∧ r.budget ≤ s.budget → (r.expansions : Int) ≤ max s.budget 0 := by
    intro r ⟨hsum, hlow, hhigh⟩
    omega
  exact hbound _ (walkChains_count hdec extra s)

/-- A walk that is cut short has spent its budget. -/
theorem walkChains_truncated (hdec : Decides onHop policy) {s s' : WalkState κ α}
    (hrun : g.walkChains entry entryKind onHop initialState stateKey s = (.ok true, s')) :
    s'.budget ≤ 0 := by
  unfold walkChains at hrun
  rw [walkChainsWith_eq] at hrun
  refine Search.forOr_ok_true (fun _ => True) (fun t : WalkState κ α => t.budget ≤ 0) _
    (fun _ _ _ _ => trivial) ?_ ?_ s s' trivial hrun
  · intro flowEntry _ t ht
    exact (Search.dfs_count _ (descendProblem_pure g entry flowEntry stateKey hdec) _
      ⟨∅, t.budget, t.acc⟩).2.2.trans ht
  · intro flowEntry _ t t' _ ht
    simp only [walkEntry, Prod.mk.injEq] at ht
    obtain ⟨hok, rfl⟩ := ht
    exact Search.dfs_truncated (descendProblem_pure g entry flowEntry stateKey hdec) _ _
      ⟨∅, t.budget, t.acc⟩ _ (by simp) (Prod.ext hok rfl)

/-- So it has expanded as many nodes as it may. -/
theorem walkChains_spent (hdec : Decides onHop policy) {s s' : WalkState κ α}
    (hrun : g.walkChains entry entryKind onHop initialState stateKey s = (.ok true, s')) :
    s.budget ≤ s'.expansions := by
  have hleft := walkChains_truncated hdec hrun
  have hcount : ((g.walkChains entry entryKind onHop initialState stateKey s).2.expansions : Int)
      + (g.walkChains entry entryKind onHop initialState stateKey s).2.budget
      = s.expansions + s.budget := (walkChains_count hdec 0 s).1
  rw [hrun] at hcount
  dsimp only at hcount
  omega

/-- Each marker a search expands belongs to a chain of its flow entry. -/
theorem walkChains_expanded_sound (hdec : Decides onHop policy) (extra : Nat)
    (s : WalkState κ α) (hs : s.expanded = []) :
    let r := (g.walkChainsWith extra entry entryKind onHop initialState stateKey s).2
    ∀ e ∈ r.expanded, e.1 ∈ g.entryFlows entry entryKind ∧ ∀ k ∈ e.2, ∃ h st path,
      k = (h.1, h.2, stateKey st)
        ∧ Chain g policy entry entryKind initialState e.1 h st path := by
  rw [walkChainsWith_eq]
  refine Search.forOr_inv (fun t : WalkState κ α => ∀ e ∈ t.expanded,
    e.1 ∈ g.entryFlows entry entryKind ∧ ∀ k ∈ e.2, ∃ h st path,
      k = (h.1, h.2, stateKey st)
        ∧ Chain g policy entry entryKind initialState e.1 h st path) _ ?_ s (by simp [hs])
  intro flowEntry hflow t ht e he
  rcases List.mem_append.mp he with he | he
  · exact ht e he
  · obtain rfl := List.mem_singleton.mp he
    refine ⟨hflow, fun k hk => ?_⟩
    rcases Search.dfs_visited_sound _ (descendProblem_pure _ _ _ _ hdec) _ _ k hk
      with hk | ⟨n, rfl, hn⟩
    · simp at hk
    · exact ⟨(n.inst, n.flowEntry), n.state, n.path, rfl, (reach_iff_chain _ _ n).mp hn⟩

/-- The searches run in the order of the flow entries, one each. -/
theorem walkChains_expanded_keys (extra : Nat) (s : WalkState κ α) (hs : s.expanded = []) :
    let r := (g.walkChainsWith extra entry entryKind onHop initialState stateKey s).2
    (r.expanded.map Prod.fst).IsPrefix (g.entryFlows entry entryKind) := by
  have hgen : ∀ (flows : List String) (t : WalkState κ α),
      ∃ ran, ran.IsPrefix flows ∧
        (Search.forOr (g.walkEntry extra entry entryKind onHop initialState stateKey) flows
          t).2.expanded.map Prod.fst = t.expanded.map Prod.fst ++ ran := by
    intro flows
    induction flows with
    | nil => exact fun t => ⟨[], List.prefix_refl _, by simp [Search.forOr]⟩
    | cons flow flows ih =>
      intro t
      have hone : (g.walkEntry extra entry entryKind onHop initialState stateKey flow
          t).2.expanded.map Prod.fst = t.expanded.map Prod.fst ++ [flow] := by
        simp [walkEntry]
      rw [Search.forOr]
      cases hflow : g.walkEntry extra entry entryKind onHop initialState stateKey flow t with
      | mk r t₁ =>
        rw [hflow] at hone
        cases r with
        | error e => exact ⟨[flow], by simp, hone⟩
        | ok b =>
          obtain ⟨ran, hran, hkeys⟩ := ih t₁
          refine ⟨flow :: ran, List.cons_prefix_cons.mpr ⟨rfl, hran⟩, ?_⟩
          dsimp only
          cases hrest : Search.forOr (g.walkEntry extra entry entryKind onHop initialState
              stateKey) flows t₁ with
          | mk r' t₂ =>
            rw [hrest] at hkeys
            simp only [hone, List.append_assoc, List.singleton_append] at hkeys
            cases r' <;> exact hkeys
  rw [walkChainsWith_eq]
  obtain ⟨ran, hran, hkeys⟩ := hgen (g.entryFlows entry entryKind) s
  simp only [hkeys, hs, List.map_nil, List.nil_append]
  exact hran

/-- The recursion allowance never decides anything: a level of recursion
has paid for an expansion, so the budget bounds the depth. -/
theorem walkChainsWith_extra (hdec : Decides onHop policy) (extra : Nat) (s : WalkState κ α) :
    g.walkChainsWith extra entry entryKind onHop initialState stateKey s
      = g.walkChains entry entryKind onHop initialState stateKey s := by
  unfold walkChains
  rw [walkChainsWith_eq, walkChainsWith_eq]
  congr 1
  funext flowEntry t
  have hdfs := Search.dfs_fuel
    (descendProblem_pure g entry flowEntry stateKey hdec) (t.budget.toNat + extra) (t.budget.toNat + 0)
    (startPoint entry entryKind initialState flowEntry) ⟨∅, t.budget, t.acc⟩
    (by simp) (by simp)
  simp only [walkEntry, hdfs]

/-! ## The walk is exact and bounded -/

/-- The callback that answers by a policy and keeps every hop it is passed. -/
def recordHops (policy : Policy σ) (hop : Hop σ) (seen : List (Hop σ)) :
    Option σ × List (Hop σ) :=
  (policy hop.source hop.dest hop.kind hop.state, seen ++ [hop])

/-- `hop` is the last hop of a chain of its flow entry, with the path and
the state the policy produced along it. -/
def EndsChain (g : TopologyGraph) (policy : Policy σ) (entry : PortKey) (entryKind : SyncKind)
    (initialState : σ) (hop : Hop σ) : Prop :=
  hop.entry = entry ∧ hop.entryFlow ∈ g.entryFlows entry entryKind
    ∧ ∃ h path out, Chain g policy entry entryKind initialState hop.entryFlow h hop.state path
      ∧ g.HopOut h out ∧ hop.source = out.source ∧ hop.dest = out.dest ∧ hop.kind = out.kind
      ∧ hop.path = path ++ [out.label]

/-- What a recording walk says about the chains of its entry port. -/
structure ExactWalk (g : TopologyGraph) (policy : Policy σ) (entry : PortKey)
    (entryKind : SyncKind) (initialState : σ) (stateKey : σ → κ) (budget : Int)
    (r : Except UnresolvedFlowError Bool × WalkState κ (List (Hop σ))) : Prop where
  /-- A walk that answers `False` was passed every hop of every chain. -/
  complete : r.1 = .ok false → ∀ flowEntry ∈ g.entryFlows entry entryKind,
    ∀ h st path out, Chain g policy entry entryKind initialState flowEntry h st path →
      g.HopOut h out → ∃ hop ∈ r.2.acc, hop.entryFlow = flowEntry ∧ hop.source = out.source
        ∧ hop.dest = out.dest ∧ hop.kind = out.kind ∧ stateKey hop.state = stateKey st
  /-- Every hop that was passed is the end of a genuine chain. -/
  sound : ∀ hop ∈ r.2.acc, EndsChain g policy entry entryKind initialState hop
  /-- At most `budget` nodes are expanded, each the end of a chain. -/
  bounded : (r.2.expansions : Int) ≤ max budget 0
  expandedSound : ∀ e ∈ r.2.expanded, ∀ k ∈ e.2, ∃ h st path,
    k = (h.1, h.2, stateKey st) ∧ Chain g policy entry entryKind initialState e.1 h st path
  /-- One search per flow entry, in order. -/
  searches : (r.2.expanded.map Prod.fst).IsPrefix (g.entryFlows entry entryKind)
  /-- A walk that answers `True` has spent its budget. -/
  spent : r.1 = .ok true → budget ≤ r.2.expansions
  /-- A node left unexpanded is reported. -/
  truncated : ∀ b, r.1 = .ok b → ∀ flowEntry ∈ g.entryFlows entry entryKind,
    ∀ h st path, Chain g policy entry entryKind initialState flowEntry h st path →
      (∀ marks, (flowEntry, marks) ∈ r.2.expanded → (h.1, h.2, stateKey st) ∉ marks) → b = true

omit [DecidableEq κ] in
/-- A policy that respects the key on every state does so along chains. -/
theorem respectsKey_of_forall
    (hkey : ∀ source dest kind s s', stateKey s = stateKey s' →
      (policy source dest kind s).map stateKey = (policy source dest kind s').map stateKey) :
    RespectsKey g policy entry entryKind initialState stateKey flowEntry :=
  fun _ s _ _ s' _ _ _ hs source dest kind => hkey source dest kind s s' hs

theorem recordHops_complete
    (hkey : ∀ source dest kind s s', stateKey s = stateKey s' →
      (policy source dest kind s).map stateKey = (policy source dest kind s').map stateKey)
    {s s' : WalkState κ (List (Hop σ))}
    (hrun : g.walkChains entry entryKind (recordHops policy) initialState stateKey s
      = (.ok false, s')) :
    ∀ flowEntry ∈ g.entryFlows entry entryKind,
      (∃ marks, (flowEntry, marks) ∈ s'.expanded ∧ ∀ h st path,
        Chain g policy entry entryKind initialState flowEntry h st path →
          (h.1, h.2, stateKey st) ∈ marks)
      ∧ ∀ h st path, Chain g policy entry entryKind initialState flowEntry h st path →
        g.Resolves h ∧ ∀ out, g.HopOut h out → ∃ path' st', stateKey st' = stateKey st
          ∧ (⟨entry, flowEntry, out.source, out.dest, out.kind, path', st'⟩ : Hop σ)
            ∈ s'.acc := by
  refine walkChains_complete (fun _ _ => rfl) (fun _ _ => respectsKey_of_forall hkey)
    (fun hop seen => hop ∈ seen) ?_ ?_ hrun
  · exact fun hop seen => List.mem_append_right _ (List.mem_singleton_self _)
  · exact fun hop hop' seen h => List.mem_append_left _ h

theorem recordHops_sound (s : WalkState κ (List (Hop σ))) (hs : s.acc = []) :
    ∀ hop ∈ (g.walkChains entry entryKind (recordHops policy) initialState stateKey s).2.acc,
      EndsChain g policy entry entryKind initialState hop := by
  refine walkChains_inv (fun _ _ => rfl)
    (fun seen => ∀ hop ∈ seen, EndsChain g policy entry entryKind initialState hop) ?_ 0 s
    (by simp [hs])
  intro flowEntry hflow h st path out seen hchain hout hseen hop hhop
  rcases List.mem_append.mp hhop with hhop | hhop
  · exact hseen hop hhop
  · obtain rfl := List.mem_singleton.mp hhop
    exact ⟨rfl, hflow, h, path, out, hchain, hout, rfl, rfl, rfl, rfl⟩

/-- **The shared traversal is complete, sound and bounded**, and its
recursion is bounded by the budget: any recursion allowance gives the same
walk. -/
theorem walkChains_exact (g : TopologyGraph) (policy : Policy σ) (entry : PortKey)
    (entryKind : SyncKind) (initialState : σ) (stateKey : σ → κ) (budget : Int)
    (hkey : ∀ source dest kind s s', stateKey s = stateKey s' →
      (policy source dest kind s).map stateKey = (policy source dest kind s').map stateKey) :
    ExactWalk g policy entry entryKind initialState stateKey budget
        (g.walkChains entry entryKind (recordHops policy) initialState stateKey ⟨budget, [], []⟩)
      ∧ ∀ extra, g.walkChainsWith extra entry entryKind (recordHops policy) initialState stateKey
          ⟨budget, [], []⟩
        = g.walkChains entry entryKind (recordHops policy) initialState stateKey
          ⟨budget, [], []⟩ := by
  have hdec : Decides (recordHops policy) policy := fun _ _ => rfl
  refine ⟨?_, fun extra => walkChainsWith_extra hdec extra _⟩
  exact {
    complete := by
      intro hok flowEntry hflow h st path out hchain hout
      obtain ⟨_, hall⟩ := recordHops_complete hkey (Prod.ext hok rfl) flowEntry hflow
      obtain ⟨path', st', hst, hmem⟩ := (hall h st path hchain).2 out hout
      exact ⟨_, hmem, rfl, rfl, rfl, rfl, hst⟩
    sound := recordHops_sound _ rfl
    bounded := walkChains_bounded hdec 0 ⟨budget, [], []⟩ rfl
    expandedSound := fun e he => (walkChains_expanded_sound hdec 0 ⟨budget, [], []⟩ rfl e he).2
    searches := walkChains_expanded_keys 0 ⟨budget, [], []⟩ rfl
    spent := by
      intro hok
      have hspent : budget ≤ (g.walkChains entry entryKind (recordHops policy) initialState stateKey
          ⟨budget, [], []⟩).2.expansions :=
        walkChains_spent (s := ⟨budget, [], []⟩) hdec (Prod.ext hok rfl)
      exact hspent
    truncated := by
      intro b hok flowEntry hflow h st path hchain hleft
      cases b with
      | true => rfl
      | false =>
        obtain ⟨⟨marks, hmarks, hall⟩, _⟩ :=
          recordHops_complete hkey (Prod.ext hok rfl) flowEntry hflow
        exact absurd (hall h st path hchain) (hleft marks hmarks) }

/-! A two-component loop: `a.go` invokes `a.out`, wired to `b.go`, whose
handler invokes `b.out`, wired back to `a.go`. -/

/-- The loop's flow map: both handlers invoke `out`. -/
def loopFlow : PortFlowMap :=
  ⟨.ofList [("C", ⟨.ofList [("go", ⟨.ofList [("ports", ["out"])], some false⟩)]⟩)], true⟩

/-- A passive component with one sync input and one output. -/
def loopInstance : InstanceInfo where
  kind := .passive
  componentName := "C"
  inputPorts := .ofList [(.go, {.sync})]
  outputPorts := [.out]
  cmdPort := none
  commandKinds := ∅

def loopTopology : TopologyGraph where
  instances := .ofList [("a", loopInstance), ("b", loopInstance)]
  connections := .ofList [(⟨"a", .out⟩, [⟨"b", .go⟩]),
    (⟨"b", .out⟩, [⟨"a", .go⟩])]
  flow := loopFlow

/-- On the loop, with the hop count as state and its parity as key, a
budget of three is spent on no more than the loop's two markers. -/
theorem walkChains_exact_loop :
    (∀ source dest kind (s s' : Nat), s % 2 = s' % 2 →
        ((fun _ _ _ s => some (s + 1) : Policy Nat) source dest kind s).map (· % 2)
          = ((fun _ _ _ s => some (s + 1) : Policy Nat) source dest kind s').map (· % 2))
      ∧ ExactWalk loopTopology (fun _ _ _ s => some (s + 1)) ⟨"a", .go⟩ .sync 0
          (· % 2) 3
          (loopTopology.walkChains ⟨"a", .go⟩ .sync
            (recordHops fun _ _ _ s => some (s + 1)) 0 (· % 2) ⟨3, [], []⟩) := by
  have hkey : ∀ source dest kind (s s' : Nat), s % 2 = s' % 2 →
      ((fun _ _ _ s => some (s + 1) : Policy Nat) source dest kind s).map (· % 2)
        = ((fun _ _ _ s => some (s + 1) : Policy Nat) source dest kind s').map (· % 2) := by
    intro _ _ _ s s' h
    have hstep : (s + 1) % 2 = (s' + 1) % 2 := by omega
    exact congrArg some hstep
  exact ⟨hkey, (walkChains_exact loopTopology _ _ _ _ _ 3 hkey).1⟩

example :
    (loopTopology.walkChains ⟨"a", .go⟩ .sync
      (recordHops fun _ _ _ s => some (s + 1)) 0 (· % 2) ⟨3, [], []⟩).1 = .ok false := by
  decide

end TopologyGraph

end FprimeTopologyAnalysis
