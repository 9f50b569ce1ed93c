/-
FprimeTopologyAnalysis.StackDepth — the stack depth check of `checks.py`.

From each async handler of an instance the check follows the calls that run
on its thread, and keeps the deepest chain of them. The search goes over
every path, keeps its visited set per path and is cut at a bounded length.
Where no chain has more than 24 entries neither cuts anything, and the chain
kept is a longest one (`kept_longest`).
-/
import FprimeTopologyAnalysis.MessageCounts

namespace FprimeTopologyAnalysis

open Library

namespace StackDepth

/-! ## The check -/

/-- `MIN_DEPTH`. -/
def minDepth : Nat := 4

/-- The longest path whose last handler is expanded. -/
def maxPath : Nat := 24

/-- `_deepest`. The first argument is how many more entries than the path has
make it too long: `maxPath + 1 - len(path)`. -/
def deepest (g : TopologyGraph) :
    Nat → Handler → List String → Finset Handler → Except UnresolvedFlowError (List String)
  | 0, _, path, _ => .ok path
  | room + 1, node, path, seen =>
    if node ∈ seen then .ok path
    else
      match g.outwardHops node.1 node.2 with
      | .error e => .error e
      | .ok hops =>
        hops.foldlM (fun best hop =>
          if hop.kind = .async then .ok best
          else
            (hop.destInfo.flowEntries hop.dest.port hop.kind).foldlM (fun best nxt =>
              (deepest g room (hop.dest.inst, nxt) (path ++ [hop.dest.str]) (insert node seen)).map
                (Walks.longer best)) best) path

/-- `deepest` of `run`: the chain kept for one instance. -/
def kept (g : TopologyGraph) (name : String) (info : InstanceInfo) :
    Except UnresolvedFlowError (List String) :=
  (Check.handlers info).foldlM (fun best h =>
    if h.2.2 ≠ .async then .ok best
    else
      (deepest g maxPath (name, h.2.1) [(PortKey.mk name h.1).str] ∅).map (Walks.longer best)) []

/-- The finding on one instance, from the chain kept and its declared stack. -/
def instanceFinding (name : String) (stackSize : Option Int) (chain : List String) :
    Option RawFinding :=
  if chain.length < minDepth then none
  else
    some ⟨.info, name,
      "Deepest synchronous chain on this thread is " ++ toString chain.length ++
        " components. They all run on " ++ name ++ "'s stack" ++
        (match stackSize.filter (· ≠ 0) with
        | some size => ", declared " ++ toString size ++ " bytes."
        | none => ", whose size is not declared."),
      chain⟩

/-- `StackDepth.run`, on a graph whose instances declare `stackSizes`. -/
def run (g : TopologyGraph) (stackSizes : Dict String Int) :
    Except UnresolvedFlowError (List RawFinding) :=
  SimplePaths.collect (fun e =>
    if e.2.isOwnThread then
      (kept g e.1 e.2).map fun chain => (instanceFinding e.1 (stackSizes.get? e.1) chain).toList
    else .ok []) (Check.sortedInstances g)

/-! ## Chains -/

/-- The line of a leg in a chain. -/
def legText (leg : Walks.Leg Handler OutwardHop) : String := leg.hop.dest.str

/-- A chain on the thread of `name`: one of its async inputs, and the ports
its calls come to along a call path. -/
def IsChain (g : TopologyGraph) (name : String) (info : InstanceInfo) (chain : List String) :
    Prop :=
  ∃ port entry, (port, entry, .async) ∈ Check.handlers info
    ∧ ∃ legs h', g.CallPath (name, entry) legs h'
      ∧ chain = (PortKey.mk name port).str :: legs.map legText

section Deepest

variable {g : TopologyGraph}

/-- The handlers a hop runs on the same thread, each with the hop. -/
def called (hop : OutwardHop) : List (OutwardHop × Handler) :=
  if hop.kind = .async then [] else hop.targets.map fun h => (hop, h)

theorem mem_called_iff {hops : List OutwardHop} {node : Handler}
    (hok : g.outwardHops node.1 node.2 = .ok hops) {c : OutwardHop × Handler} :
    c ∈ hops.flatMap called
      ↔ ∃ i j, Walks.Takes (QueueOverflow.problem g) node ⟨i, c.1, j, c.2⟩ := by
  have hnext : ∀ hop, c ∈ called hop ↔ c.1 = hop ∧ c.2 ∈ (QueueOverflow.problem g).next hop := by
    intro hop
    unfold called QueueOverflow.problem
    by_cases hk : hop.kind = .async
    · simp [hk]
    · simp only [if_neg hk, List.mem_map]
      constructor
      · rintro ⟨m, hm, rfl⟩
        exact ⟨rfl, hm⟩
      · rintro ⟨hhop, hm⟩
        exact ⟨c.2, hm, Prod.ext hhop.symm rfl⟩
  rw [List.mem_flatMap, Walks.exists_takes_iff]
  simp only [hnext]
  constructor
  · rintro ⟨hop, hhop, rfl, hm⟩
    exact ⟨hops, hok, hhop, hm⟩
  · rintro ⟨hops', hok', hhop, hm⟩
    obtain rfl := Except.ok.inj (hok.symm.trans hok')
    exact ⟨c.1, hhop, rfl, hm⟩

/-- An expanded handler: one loop over what it calls. -/
theorem deepest_open {room : Nat} {node : Handler} {path : List String} {seen : Finset Handler}
    (hopen : node ∉ seen) {hops : List OutwardHop} (hok : g.outwardHops node.1 node.2 = .ok hops) :
    deepest g (room + 1) node path seen
      = (hops.flatMap called).foldlM (fun best c =>
          (deepest g room c.2 (path ++ [c.1.dest.str]) (insert node seen)).map
            (Walks.longer best)) path := by
  rw [SimplePaths.foldlM_flatMap, deepest, if_neg hopen, hok]
  dsimp only
  congr 1
  funext best hop
  unfold called
  split
  · rfl
  · rw [OutwardHop.targets, List.map_map, List.foldlM_map]
    rfl

/-- What a search from `node` after `path` is to answer: a longest chain on
from there, unless a call path comes to a handler that does not resolve. -/
structure LongestFrom (g : TopologyGraph) (node : Handler) (path : List String)
    (answer : Except UnresolvedFlowError (List String)) : Prop where
  ends : (∃ r, answer = .ok r) ↔ ∀ legs m, g.CallPath node legs m → g.Resolves m
  genuine : ∀ r, answer = .ok r →
    ∃ legs m, g.CallPath node legs m ∧ r = path ++ legs.map legText
  longest : ∀ r, answer = .ok r → ∀ legs m, g.CallPath node legs m →
    path.length + legs.length ≤ r.length

/-- A handler that does not resolve has no answer. -/
theorem longestFrom_of_error {node : Handler} {e : UnresolvedFlowError}
    (hok : g.outwardHops node.1 node.2 = .error e) (path : List String) :
    LongestFrom g node path (.error e) where
  ends := by
    refine iff_of_false ?_ fun h => ?_
    · rintro ⟨r, hr⟩
      cases hr
    · obtain ⟨hops, hok'⟩ := h [] node (.nil _)
      cases hok.symm.trans hok'
  genuine r hr := by cases hr
  longest r hr := by cases hr

/-- From a handler on, a longest chain is one of those from what it calls. -/
theorem longestFrom_of_called {node : Handler} {path : List String} {hops : List OutwardHop}
    (hok : g.outwardHops node.1 node.2 = .ok hops)
    {answer : OutwardHop × Handler → Except UnresolvedFlowError (List String)}
    (hinner : ∀ c ∈ hops.flatMap called, LongestFrom g c.2 (path ++ [c.1.dest.str]) (answer c)) :
    LongestFrom g node path ((hops.flatMap called).foldlM
      (fun best c => (answer c).map (Walks.longer best)) path) := by
  obtain ⟨hends, hkeeps⟩ := Walks.foldlM_longer (f := answer) (hops.flatMap called) path
  have hcalled : ∀ leg : Walks.Leg Handler OutwardHop,
      Walks.Takes (QueueOverflow.problem g) node leg → (leg.hop, leg.node) ∈ hops.flatMap called :=
    fun leg htakes => (mem_called_iff hok).mpr ⟨leg.hopPlace, leg.nodePlace, htakes⟩
  refine ⟨hends.trans ⟨fun h legs m hwalk => ?_, fun h c hc => ?_⟩, fun r hr => ?_,
    fun r hr legs m hwalk => ?_⟩
  · cases hwalk with
    | nil => exact ⟨hops, hok⟩
    | cons htakes hwalk =>
      have hc := hcalled _ htakes
      exact (hinner _ hc).ends.mp (h _ hc) _ _ hwalk
  · obtain ⟨i, j, htakes⟩ := (mem_called_iff hok).mp hc
    exact (hinner c hc).ends.mpr fun legs m hwalk => h _ m (.cons htakes hwalk)
  · rcases (hkeeps r hr).1 with rfl | ⟨c, hc, hcr⟩
    · exact ⟨[], node, .nil _, by simp⟩
    · obtain ⟨i, j, htakes⟩ := (mem_called_iff hok).mp hc
      obtain ⟨legs, m, hwalk, rfl⟩ := (hinner c hc).genuine r hcr
      exact ⟨_, m, .cons htakes hwalk, by simp [legText]⟩
  · obtain ⟨_, hle, hall⟩ := hkeeps r hr
    cases hwalk with
    | nil => exact hle
    | cons htakes hwalk =>
      have hc := hcalled _ htakes
      obtain ⟨cr, hcr⟩ := hends.mp ⟨r, hr⟩ _ hc
      have hlegs := (hinner _ hc).longest cr hcr _ _ hwalk
      have hlonger := hall _ hc cr hcr
      simp only [List.length_append, List.length_cons, List.length_nil] at hlegs ⊢
      omega

/-- **The search keeps a longest chain**: it leaves out the handlers on the
path, and within the depth bound none of them is called again. -/
theorem deepest_longestFrom : ∀ {k : Nat} {node : Handler} {path : List String}
    {seen : Finset Handler}, (∀ n ∈ seen, ∃ legs, legs ≠ [] ∧ g.CallPath n legs node) →
    g.DepthWithin node k → LongestFrom g node path (deepest g (k + 1) node path seen)
  | k, node, path, seen, hseen, hdepth => by
      have hopen : node ∉ seen := by
        intro hmem
        obtain ⟨legs, hne, hwalk⟩ := hseen node hmem
        exact hne (hdepth.eq_nil_of_closed hwalk)
      cases hok : g.outwardHops node.1 node.2 with
      | error e =>
        have hraises : deepest g (k + 1) node path seen = .error e := by
          rw [deepest, if_neg hopen, hok]
        rw [hraises]
        exact longestFrom_of_error hok path
      | ok hops =>
        rw [deepest_open hopen hok]
        refine longestFrom_of_called hok fun c hc => ?_
        obtain ⟨i, j, htakes⟩ := (mem_called_iff hok).mp hc
        cases k with
        | zero => exact absurd htakes hdepth.not_takes
        | succ k =>
          refine deepest_longestFrom (fun n hn => ?_) (hdepth.of_takes htakes)
          rcases Finset.mem_insert.mp hn with rfl | hn
          · exact ⟨_, by simp, .cons htakes (.nil _)⟩
          · obtain ⟨legs, _, hwalk⟩ := hseen n hn
            exact ⟨legs ++ [_], by simp, hwalk.append (.cons htakes (.nil _))⟩

end Deepest

/-! ## The chain kept -/

/-- The async handlers of an instance. -/
def asyncHandlers (info : InstanceInfo) : List (PortName × String × SyncKind) :=
  (Check.handlers info).filter fun h => h.2.2 = .async

theorem isChain_iff {g : TopologyGraph} {name : String} {info : InstanceInfo}
    {chain : List String} :
    IsChain g name info chain
      ↔ ∃ h ∈ asyncHandlers info, ∃ legs h', g.CallPath (name, h.2.1) legs h'
      ∧ chain = (PortKey.mk name h.1).str :: legs.map legText := by
  simp only [asyncHandlers, List.mem_filter, decide_eq_true_eq]
  constructor
  · rintro ⟨port, entry, hmem, hchain⟩
    exact ⟨_, ⟨hmem, rfl⟩, hchain⟩
  · rintro ⟨⟨port, entry, kind⟩, ⟨hmem, rfl⟩, hchain⟩
    exact ⟨port, entry, hmem, hchain⟩

/-- Chains are bounded where call paths are. -/
theorem chains_bounded_iff {g : TopologyGraph} {name : String} {info : InstanceInfo} :
    (∀ chain, IsChain g name info chain → chain.length ≤ maxPath)
      ↔ ∀ h ∈ asyncHandlers info, g.DepthWithin (name, h.2.1) 23 := by
  constructor
  · intro hchains h hh legs m hwalk
    have hlen := hchains _ (isChain_iff.mpr ⟨h, hh, legs, m, hwalk, rfl⟩)
    rw [List.length_cons, List.length_map, maxPath] at hlen
    omega
  · intro hdepth chain hchain
    obtain ⟨h, hh, legs, m, hwalk, rfl⟩ := isChain_iff.mp hchain
    have hlen := hdepth h hh legs m hwalk
    rw [List.length_cons, List.length_map, maxPath]
    omega

theorem kept_eq (g : TopologyGraph) (name : String) (info : InstanceInfo) :
    kept g name info = (asyncHandlers info).foldlM (fun best h =>
      (deepest g maxPath (name, h.2.1) [(PortKey.mk name h.1).str] ∅).map (Walks.longer best)) [] := by
  rw [asyncHandlers, List.foldlM_filter, kept]
  congr 1
  funext best h
  by_cases hk : h.2.2 = .async
  · simp [hk]
  · simp [hk]
    rfl

/-- **The deepest chain is a longest one.** For an instance no chain of which
has more than 24 entries, the check answers unless a call path comes to a
handler that the flow map does not resolve. What it then keeps is a chain of
the instance, unless the instance has none, and no chain is longer. -/
theorem kept_longest (g : TopologyGraph) (name : String) (info : InstanceInfo)
    (hchains : ∀ chain, IsChain g name info chain → chain.length ≤ maxPath) :
    ((∃ chain, kept g name info = .ok chain)
        ↔ ∀ h ∈ asyncHandlers info, ∀ legs h', g.CallPath (name, h.2.1) legs h' → g.Resolves h')
      ∧ ∀ chain, kept g name info = .ok chain →
        (IsChain g name info chain ∨ chain = [] ∧ ∀ chain', ¬ IsChain g name info chain')
          ∧ ∀ chain', IsChain g name info chain' → chain'.length ≤ chain.length := by
  rw [kept_eq]
  have hdeepest : ∀ h ∈ asyncHandlers info, LongestFrom g (name, h.2.1)
      [(PortKey.mk name h.1).str]
      (deepest g maxPath (name, h.2.1) [(PortKey.mk name h.1).str] ∅) :=
    fun h hh => deepest_longestFrom (by simp) (chains_bounded_iff.mp hchains h hh)
  obtain ⟨hends, hkeeps⟩ := Walks.foldlM_longer
    (f := fun h : PortName × String × SyncKind =>
      deepest g maxPath (name, h.2.1) [(PortKey.mk name h.1).str] ∅) (asyncHandlers info) []
  refine ⟨hends.trans (forall₂_congr fun h hh => (hdeepest h hh).ends), fun chain hchain => ?_⟩
  obtain ⟨hfrom, _, hall⟩ := hkeeps chain hchain
  have hno : ∀ chain', IsChain g name info chain' → chain'.length ≤ chain.length := by
    intro chain' hchain'
    obtain ⟨h, hh, legs, m, hwalk, rfl⟩ := isChain_iff.mp hchain'
    obtain ⟨c, hc⟩ := hends.mp ⟨chain, hchain⟩ h hh
    have hle := (hdeepest h hh).longest c hc legs m hwalk
    have := hall h hh c hc
    simp only [List.length_cons, List.length_nil, List.length_map] at hle ⊢
    omega
  refine ⟨?_, hno⟩
  rcases hfrom with rfl | ⟨h, hh, hc⟩
  · refine .inr ⟨rfl, fun chain' hchain' => ?_⟩
    have hlen := hno chain' hchain'
    obtain ⟨_, _, _, _, _, rfl⟩ := isChain_iff.mp hchain'
    simp at hlen
  · obtain ⟨legs, m, hwalk, rfl⟩ := (hdeepest h hh).genuine chain hc
    exact .inl (isChain_iff.mpr ⟨h, hh, legs, m, hwalk, rfl⟩)

/-- `x` calls `y` and `z` on its own thread, and they answer through its
queue. -/
theorem kept_longest_array :
    ∃ chain, kept QueueOverflow.arrayTopology "x" QueueOverflow.arrayInstance = .ok chain
      ∧ chain = ["x.go", "y.go"]
      ∧ ∀ chain', IsChain QueueOverflow.arrayTopology "x" QueueOverflow.arrayInstance chain' →
        chain'.length ≤ chain.length := by
  have hkept : kept QueueOverflow.arrayTopology "x" QueueOverflow.arrayInstance
      = .ok ["x.go", "y.go"] := by
    decide +kernel
  exact ⟨_, hkept, rfl, ((kept_longest QueueOverflow.arrayTopology "x" QueueOverflow.arrayInstance
    (chains_bounded_iff.mpr (by decide +kernel))).2 _ hkept).2⟩

/-- The findings are the chains kept for the instances with a thread of
their own. -/
theorem mem_run_iff {g : TopologyGraph} {stackSizes : Dict String Int} {findings : List RawFinding}
    (h : run g stackSizes = .ok findings) (f : RawFinding) :
    f ∈ findings ↔ ∃ name info chain, g.instances.get? name = some info ∧ info.isOwnThread
      ∧ kept g name info = .ok chain
      ∧ instanceFinding name (stackSizes.get? name) chain = some f := by
  rw [SimplePaths.mem_collect_iff h]
  constructor
  · rintro ⟨⟨name, info⟩, he, ys, hys, hf⟩
    dsimp only at hys
    split at hys
    · rename_i hown
      obtain ⟨chain, hchain, rfl⟩ := SimplePaths.map_eq_ok_iff.mp hys
      exact ⟨name, info, chain, Check.mem_sortedInstances.mp he, hown, hchain,
        Option.mem_toList.mp hf⟩
    · cases hys
      simp at hf
  · rintro ⟨name, info, chain, hinfo, hown, hchain, hf⟩
    refine ⟨(name, info), Check.mem_sortedInstances.mpr hinfo, _, ?_, Option.mem_toList.mpr hf⟩
    rw [if_pos hown, hchain]
    rfl

end StackDepth

end FprimeTopologyAnalysis
