/-
FprimeTopologyAnalysis.LockComponents — `_strongly_connected_components` of
`guarded_port_analyzer.py`, as it runs.

The function builds a table of the lock-order graph and works on tables, a
node stack and a set of the nodes on it. Every look-up can raise, so can a
`pop`, and the `while` loop has no bound. `run_eq`: none of this happens.
Given rounds enough the function returns what `Library.Tarjan` computes,
which is what `detect_cycles` goes on with
(`stronglyConnectedComponents`); by the rules proved there these are the
classes of mutual reachability along the edges
(`stronglyConnectedComponents_exact`).

The simulation goes round by round (`workRound_ofState`). The tables agree
with the state of the algorithm (`ofState`), and besides its invariant only
this is needed: every numbered node has a low link (`Linked`).
-/
import FprimeTopologyAnalysis.CycleDetection

namespace FprimeTopologyAnalysis

namespace LockComponents

open Library

/-! ## The loops -/

/-- Why a run does not return. -/
inductive Failure where
  | keyError
  | indexError
  | outOfRounds
  deriving DecidableEq

/-- `table[key]`. -/
def lookup {α : Type} (table : Dict String α) (key : String) : Except Failure α :=
  match table.get? key with
  | some a => .ok a
  | none => .error .keyError

/-- The body of the loop over `self.lock_edges`. -/
def addEdge (graph : Dict String (List String)) (key : String × String) :
    Dict String (List String) :=
  let graph := graph.set key.1 ((graph.get? key.1).getD [] ++ [key.2])
  if key.2 ∈ graph.keys then graph else graph.set key.2 []

/-- `graph`. -/
def lockGraph (edges : LockEdges) : Dict String (List String) := edges.keys.foldl addEdge ∅

/-- The other variables; the end of `stack` is the head of the list. -/
structure Variables where
  index : Dict String Nat
  lowlink : Dict String Nat
  indexCounter : Nat
  stack : List String
  onStack : Finset String
  result : List (List String)
  deriving DecidableEq

def Variables.initial : Variables := ⟨∅, ∅, 0, [], ∅, []⟩

/-- What is done on the first visit of a node. -/
def visit (node : String) (v : Variables) : Variables :=
  { v with
    index := v.index.set node v.indexCounter
    lowlink := v.lowlink.set node v.indexCounter
    indexCounter := v.indexCounter + 1
    stack := node :: v.stack
    onStack := insert node v.onStack }

/-- `lowlink[node] = min(lowlink[node], value)`. -/
def lower (node : String) (value : Nat) (v : Variables) : Except Failure Variables := do
  let low ← lookup v.lowlink node
  return { v with lowlink := v.lowlink.set node (min low value) }

/-- The loop over the children of a node, from position `i` on; if it breaks
off, the child that has no index and the position after it. -/
def scanChildren (node : String) :
    Nat → List String → Variables → Except Failure (Variables × Option (String × Nat))
  | _, [], v => .ok (v, none)
  | i, child :: more, v =>
    if child ∉ v.index.keys then .ok (v, some (child, i + 1))
    else if child ∈ v.onStack then do
      let value ← lookup v.index child
      let v ← lower node value v
      scanChildren node (i + 1) more v
    else scanChildren node (i + 1) more v

/-- The loop that pops a component: the component, the stack and the set. -/
def popComponent (node : String) :
    List String → Finset String → Except Failure (List String × List String × Finset String)
  | [], _ => .error .indexError
  | member :: stack, onStack =>
    if member = node then .ok ([member], stack, onStack.erase member)
    else do
      let r ← popComponent node stack (onStack.erase member)
      return (member :: r.1, r.2)

/-- Close a component. -/
def close (node : String) (v : Variables) : Except Failure Variables := do
  let r ← popComponent node v.stack v.onStack
  return { v with stack := r.2.1, onStack := r.2.2, result := v.result ++ [r.1] }

/-- Close the component of a node that is the root of one. -/
def closeRoot (node : String) (v : Variables) : Except Failure Variables := do
  let low ← lookup v.lowlink node
  let value ← lookup v.index node
  if low = value then close node v else return v

/-- What is done with a node whose children are scanned; `work` is the work
stack without it. -/
def leave (node : String) (work : List (String × Nat)) (v : Variables) :
    Except Failure Variables := do
  let v ← closeRoot node v
  match work with
  | [] => return v
  | (parent, _) :: _ => do
    let low ← lookup v.lowlink node
    lower parent low v

/-- The body of the `while` loop, with `(node, childIdx)` on top of `work`. -/
def workRound (graph : Dict String (List String)) (node : String) (childIdx : Nat)
    (work : List (String × Nat)) (v : Variables) :
    Except Failure (List (String × Nat) × Variables) := do
  let v := if childIdx = 0 then visit node v else v
  let children ← lookup graph node
  let r ← scanChildren node childIdx (children.drop childIdx) v
  match r.2 with
  | some (child, next) => return ((child, 0) :: (node, next) :: work, r.1)
  | none => do
    let v ← leave node work r.1
    return (work, v)

/-- The `while` loop, for a number of rounds. -/
def workLoop (graph : Dict String (List String)) :
    Nat → List (String × Nat) → Variables → Except Failure Variables
  | _, [], v => .ok v
  | 0, _ :: _, _ => .error .outOfRounds
  | rounds + 1, (node, childIdx) :: work, v => do
    let r ← workRound graph node childIdx work v
    workLoop graph rounds r.1 r.2

/-- The loop over `sorted(graph)`. -/
def rootLoop (graph : Dict String (List String)) (rounds : Nat) (roots : List String)
    (v : Variables) : Except Failure Variables :=
  roots.foldlM (fun v root =>
    if root ∈ v.index.keys then pure v else workLoop graph rounds [(root, 0)] v) v

/-- `_strongly_connected_components`, with a number of rounds for each root. -/
def run (rounds : Nat) (edges : LockEdges) : Except Failure (List (List String)) := do
  let graph := lockGraph edges
  let v ← rootLoop graph rounds (graph.keys.insertionSort (· ≤ ·)) .initial
  return v.result

/-! ## What it is for -/

/-- The function returns: with rounds enough it does, and more make no
difference. -/
def Returns (edges : LockEdges) (components : List (List String)) : Prop :=
  ∃ enough, ∀ rounds, enough ≤ rounds → run rounds edges = .ok components

/-- The instance is at an end of an edge. -/
def Occurs (edges : LockEdges) (inst : String) : Prop :=
  ∃ key ∈ edges.keys, inst = key.1 ∨ inst = key.2

/-- One instance reaches another along the edges. -/
abbrev Reaches (edges : LockEdges) : String → String → Prop :=
  Relation.ReflTransGen fun holder acquired => (holder, acquired) ∈ edges.keys

/-- The lists partition the instances that occur, by mutual reachability. -/
structure ComponentsOf (edges : LockEdges) (components : List (List String)) : Prop where
  nonempty : [] ∉ components
  disjoint : components.flatten.Nodup
  covers : ∀ inst, (∃ component ∈ components, inst ∈ component) ↔ Occurs edges inst
  classes : ∀ a b, Occurs edges a → Occurs edges b →
    ((∃ component ∈ components, a ∈ component ∧ b ∈ component)
      ↔ Reaches edges a b ∧ Reaches edges b a)

/-! ## The graph -/

theorem get?_addEdge (graph : Dict String (List String)) (key : String × String) (x : String) :
    (addEdge graph key).get? x
      = if x = key.1 then some ((graph.get? x).getD [] ++ [key.2])
        else if x = key.2 then some ((graph.get? x).getD [])
        else graph.get? x := by
  unfold addEdge
  dsimp only
  by_cases hholder : x = key.1
  · subst hholder
    rw [if_pos rfl]
    split
    · rw [Dict.get?_set_self]
    · rename_i hnew
      rw [Dict.get?_set, if_neg, Dict.get?_set_self]
      intro hsame
      exact hnew (Dict.mem_keys_of_get? (by rw [← hsame]; exact Dict.get?_set_self ..))
  · rw [if_neg hholder]
    by_cases hacquired : x = key.2
    · subst hacquired
      rw [if_pos rfl]
      split
      · rename_i hknown
        obtain ⟨children, hget⟩ := (Dict.mem_keys_iff _ _).mp hknown
        rw [Dict.get?_set, if_neg hholder] at hget ⊢
        rw [hget, Option.getD_some]
      · rename_i hnew
        rw [← Dict.get?_eq_none_iff, Dict.get?_set, if_neg hholder] at hnew
        rw [Dict.get?_set_self, hnew, Option.getD_none]
    · rw [if_neg hacquired]
      split
      · rw [Dict.get?_set, if_neg hholder]
      · rw [Dict.get?_set, if_neg hacquired, Dict.get?_set, if_neg hholder]

/-- The table of some edges. -/
theorem get?_foldl_addEdge (keys : List (String × String)) (x : String) :
    (keys.foldl addEdge ∅).get? x
      = if ∃ key ∈ keys, x = key.1 ∨ x = key.2 then
          some ((keys.filter fun key => key.1 = x).map Prod.snd)
        else none := by
  induction keys using List.reverseRecOn with
  | nil => simp
  | append_singleton keys key ih =>
    have hold : ((keys.foldl addEdge ∅).get? x).getD []
        = (keys.filter fun key => key.1 = x).map Prod.snd := by
      rw [ih]
      split
      · rfl
      · rename_i hnone
        have hempty : (keys.filter fun key => key.1 = x) = [] := by
          simp only [List.filter_eq_nil_iff, decide_eq_true_eq]
          exact fun key hkey hx => hnone ⟨key, hkey, .inl hx.symm⟩
        rw [hempty]
        rfl
    rw [List.foldl_append, List.foldl_cons, List.foldl_nil, get?_addEdge, hold, ih]
    obtain ⟨holder, acquired⟩ := key
    by_cases hholder : x = holder
    · simp [hholder]
    · have hother : ([(holder, acquired)].filter fun key => key.1 = x) = [] := by
        simp [Ne.symm hholder]
      rw [List.filter_append, hother, List.append_nil, if_neg hholder]
      by_cases hacquired : x = acquired
      · simp [hacquired]
      · have hends : (∃ key ∈ keys ++ [(holder, acquired)], x = key.1 ∨ x = key.2)
            ↔ ∃ key ∈ keys, x = key.1 ∨ x = key.2 := by
          simp [hholder, hacquired, or_and_right, exists_or]
        rw [if_neg hacquired]
        exact (if_congr hends rfl rfl).symm

/-- **The table**: its keys are the ends of the edges, with what each leads
to. -/
theorem get?_lockGraph (edges : LockEdges) (x : String) :
    (lockGraph edges).get? x
      = if x ∈ lockNodes edges then some (successors edges x) else none := by
  rw [lockGraph, get?_foldl_addEdge]
  simp only [mem_lockNodes]
  rfl

/-- `sorted(graph)`. -/
theorem sorted_lockGraph (edges : LockEdges) :
    (lockGraph edges).keys.insertionSort (· ≤ ·) = lockNodes edges := by
  have hmem : ∀ x, x ∈ (lockGraph edges).keys ↔ x ∈ lockNodes edges := by
    intro x
    rw [Dict.mem_keys_iff, get?_lockGraph]
    split <;> simp_all
  refine Dict.insertionSort_perm (fun x _ y _ => le_antisymm) ?_
  refine (List.perm_ext_iff_of_nodup (lockGraph edges).nodupKeys (List.nodup_dedup _)).mpr ?_
  intro x
  exact (hmem x).trans (by rw [lockNodes, List.mem_insertionSort])

/-! ## One round -/

/-- The variables, from the state of the algorithm. -/
def ofState (s : Tarjan.State String) : Variables :=
  ⟨s.index, s.lowlink, s.counter, s.stack, s.stack.toFinset, s.result⟩

/-- Numbered nodes have a low link. -/
def Linked (s : Tarjan.State String) : Prop := ∀ x, s.Seen x → x ∈ s.lowlink.keys

section Round

variable {s : Tarjan.State String} {node : String}

theorem lookup_index (h : s.Seen node) : lookup (ofState s).index node = .ok (s.idx node) := by
  obtain ⟨value, hvalue⟩ := (Dict.mem_keys_iff _ _).mp h
  show lookup s.index node = _
  rw [lookup, Tarjan.State.idx, hvalue]
  rfl

theorem lookup_lowlink (hlinked : Linked s) (h : s.Seen node) :
    lookup (ofState s).lowlink node = .ok (s.low node) := by
  obtain ⟨value, hvalue⟩ := (Dict.mem_keys_iff _ _).mp (hlinked node h)
  show lookup s.lowlink node = _
  rw [lookup, Tarjan.State.low, hvalue]
  rfl

theorem visit_ofState (node : String) (s : Tarjan.State String) :
    visit node (ofState s) = ofState (s.enter node) := by
  simp [visit, ofState, Tarjan.State.enter]

theorem Linked.enter (hlinked : Linked s) (node : String) : Linked (s.enter node) := by
  intro x hx
  rcases (Tarjan.State.seen_enter ..).mp hx with rfl | hx
  · exact (Dict.mem_keys_set ..).mpr (.inl rfl)
  · exact (Dict.mem_keys_set ..).mpr (.inr (hlinked x hx))

theorem Linked.relax (hlinked : Linked s) (node : String) (value : Nat) :
    Linked (s.relax node value) :=
  fun x hx => (Dict.mem_keys_set ..).mpr (.inr (hlinked x hx))

theorem lower_ofState (hlinked : Linked s) (h : s.Seen node) (value : Nat) :
    lower node value (ofState s) = .ok (ofState (s.relax node value)) := by
  rw [lower, lookup_lowlink hlinked h]
  rfl

/-- The children are scanned as the algorithm does it. -/
theorem scanChildren_ofState : ∀ (more : List String) (i : Nat) (s : Tarjan.State String),
    Linked s → s.Seen node → (∀ x ∈ s.stack, s.Seen x) →
    scanChildren node i more (ofState s)
        = .ok (ofState (Tarjan.scan node i more s).1, (Tarjan.scan node i more s).2)
      ∧ Linked (Tarjan.scan node i more s).1
  | [], i, s, hlinked, _, _ => ⟨rfl, hlinked⟩
  | child :: more, i, s, hlinked, hnode, hstack => by
      rw [scanChildren, Tarjan.scan]
      by_cases hseen : s.Seen child
      · have hknown : ¬ child ∉ (ofState s).index.keys := not_not.mpr hseen
        rw [if_neg hknown, if_neg (not_not.mpr hseen)]
        by_cases hon : child ∈ s.stack
        · have hset : child ∈ (ofState s).onStack := List.mem_toFinset.mpr hon
          rw [if_pos hset, if_pos hon, lookup_index hseen]
          show (lower node (s.idx child) (ofState s) >>= _) = _ ∧ _
          rw [lower_ofState hlinked hnode]
          exact scanChildren_ofState more (i + 1) _ (hlinked.relax node _) hnode hstack
        · have hset : child ∉ (ofState s).onStack := fun h => hon (List.mem_toFinset.mp h)
          rw [if_neg hset, if_neg hon]
          exact scanChildren_ofState more (i + 1) s hlinked hnode hstack
      · have hnew : child ∉ (ofState s).index.keys := hseen
        rw [if_pos hnew, if_pos hseen]
        exact ⟨rfl, hlinked⟩

/-- A component is popped without emptying the stack. -/
theorem popComponent_eq : ∀ stack : List String, stack.Nodup → node ∈ stack →
    popComponent node stack stack.toFinset
      = .ok ((Tarjan.popTo node stack).1, (Tarjan.popTo node stack).2,
        (Tarjan.popTo node stack).2.toFinset)
  | [], _, hmem => by simp at hmem
  | member :: stack, hnodup, hmem => by
      obtain ⟨hnew, hrest⟩ := List.nodup_cons.mp hnodup
      have herase : (member :: stack).toFinset.erase member = stack.toFinset := by
        rw [List.toFinset_cons, Finset.erase_insert]
        rwa [List.mem_toFinset]
      rw [popComponent, Tarjan.popTo, herase]
      by_cases hsame : member = node
      · rw [if_pos hsame, if_pos hsame]
      · rw [if_neg hsame, if_neg hsame,
          popComponent_eq stack hrest ((List.mem_cons.mp hmem).resolve_left (Ne.symm hsame))]
        rfl

theorem close_ofState (hnodup : s.stack.Nodup) (hmem : node ∈ s.stack) :
    close node (ofState s) = .ok (ofState (s.close node)) := by
  show (popComponent node s.stack s.stack.toFinset >>= _) = _
  rw [popComponent_eq s.stack hnodup hmem]
  rfl

theorem Linked.close (hlinked : Linked s) (node : String) : Linked (s.close node) := hlinked

theorem closeRoot_ofState (hlinked : Linked s) (hnodup : s.stack.Nodup) (hmem : node ∈ s.stack)
    (hseen : s.Seen node) :
    closeRoot node (ofState s)
      = .ok (ofState (if s.low node = s.idx node then s.close node else s)) := by
  rw [closeRoot, lookup_lowlink hlinked hseen]
  show (lookup (ofState s).index node >>= _) = _
  rw [lookup_index hseen]
  show (if s.low node = s.idx node then close node (ofState s) else .ok (ofState s)) = _
  split
  · exact close_ofState hnodup hmem
  · rfl

/-- A node is left as the algorithm finishes it. -/
theorem leave_ofState {work : List (String × Nat)} (hlinked : Linked s) (hnodup : s.stack.Nodup)
    (hnode : node ∈ s.stack) (hstack : ∀ x ∈ s.stack, s.Seen x)
    (hwork : ∀ f ∈ work, s.Seen f.1) :
    leave node work (ofState s) = .ok (ofState (Tarjan.finish node work s))
      ∧ Linked (Tarjan.finish node work s) := by
  have hseen := hstack node hnode
  have hclosed : ∀ x, (if s.low node = s.idx node then s.close node else s).Seen x ↔ s.Seen x := by
    intro x
    split
    · exact Iff.rfl
    · exact Iff.rfl
  have hlinked' : Linked (if s.low node = s.idx node then s.close node else s) := by
    split
    · exact hlinked.close node
    · exact hlinked
  rw [leave, closeRoot_ofState hlinked hnodup hnode hseen]
  unfold Tarjan.finish
  dsimp only
  generalize (if s.low node = s.idx node then s.close node else s) = t at hclosed hlinked' ⊢
  cases work with
  | nil => exact ⟨rfl, hlinked'⟩
  | cons f work =>
    obtain ⟨parent, i⟩ := f
    have hparent : t.Seen parent := (hclosed parent).mpr (hwork _ (List.mem_cons_self ..))
    refine ⟨?_, hlinked'.relax parent _⟩
    show (lookup (ofState t).lowlink node >>= _) = _
    rw [lookup_lowlink hlinked' ((hclosed node).mpr hseen)]
    exact lower_ofState hlinked' hparent _

end Round

/-! ## The run -/

section Run

variable {edges : LockEdges} {s : Tarjan.State String}

/-- **A round is one of the algorithm's**, and nothing it looks up is
missing. -/
theorem workRound_ofState {node : String} {childIdx : Nat} {work : List (String × Nat)}
    (hhead : Tarjan.Head (successors edges) s ((node, childIdx) :: work)) (hlinked : Linked s)
    (hnode : node ∈ lockNodes edges) :
    workRound (lockGraph edges) node childIdx work (ofState s)
        = .ok ((Tarjan.round (successors edges) node childIdx work s).1,
          ofState (Tarjan.round (successors edges) node childIdx work s).2)
      ∧ Linked (Tarjan.round (successors edges) node childIdx work s).2 := by
  obtain ⟨hi, _, _⟩ := hhead.numbered
  have hvisit : (if childIdx = 0 then visit node (ofState s) else ofState s)
      = ofState (if childIdx = 0 then s.enter node else s) := by
    split
    · exact visit_ofState node s
    · rfl
  have hlinked' : Linked (if childIdx = 0 then s.enter node else s) := by
    split
    · exact hlinked.enter node
    · exact hlinked
  have hchildren : lookup (lockGraph edges) node = .ok (successors edges node) := by
    rw [lookup, get?_lockGraph, if_pos hnode]
  unfold workRound Tarjan.round
  dsimp only
  rw [hvisit, hchildren]
  generalize (if childIdx = 0 then s.enter node else s) = t at hi hlinked' ⊢
  have hframe := hi.frameStack (node, childIdx) (List.mem_cons_self ..)
  obtain ⟨hscan, hlinked''⟩ := scanChildren_ofState ((successors edges node).drop childIdx)
    childIdx t hlinked' (hi.stackSeen node hframe) hi.stackSeen
  obtain ⟨_, hspec⟩ := Tarjan.scan_spec ((successors edges node).drop childIdx) childIdx t hi rfl
  show (scanChildren node childIdx ((successors edges node).drop childIdx) (ofState t) >>= _) = _
    ∧ _
  rw [hscan]
  cases hres : Tarjan.scan node childIdx ((successors edges node).drop childIdx) t with
  | mk t' next =>
    rw [hres] at hlinked'' hspec
    cases next with
    | some p => exact ⟨rfl, hlinked''⟩
    | none =>
      obtain ⟨j, _, hinv⟩ := hspec
      obtain ⟨hleave, hleft⟩ := leave_ofState hlinked'' hinv.stack_nodup
        (hinv.frameStack (node, j) (List.mem_cons_self ..)) hinv.stackSeen fun f hf =>
          hinv.stackSeen f.1 (hinv.frameStack f (List.mem_cons_of_mem _ hf))
      refine ⟨?_, hleft⟩
      show (leave node work (ofState t') >>= _) = _
      rw [hleave]
      rfl

/-- **The loop ends** after as many rounds as there is to do. -/
theorem workLoop_ofState : ∀ (fuel rounds : Nat) (work : List (String × Nat))
    (s : Tarjan.State String), Tarjan.Head (successors edges) s work → Linked s →
    (∀ f ∈ work, f.1 ∈ lockNodes edges) → Tarjan.todo (lockNodes edges) work s ≤ fuel →
    fuel ≤ rounds →
    workLoop (lockGraph edges) rounds work (ofState s)
        = .ok (ofState (Tarjan.loop (successors edges) fuel work s))
      ∧ Linked (Tarjan.loop (successors edges) fuel work s) := by
  intro fuel
  induction fuel with
  | zero =>
    intro rounds work s _ hlinked _ htodo _
    have hnil : work = [] := by
      unfold Tarjan.todo at htodo
      exact List.eq_nil_of_length_eq_zero (by omega)
    subst hnil
    cases rounds <;> exact ⟨rfl, hlinked⟩
  | succ fuel ih =>
    intro rounds work s hhead hlinked hwork htodo hrounds
    cases work with
    | nil => cases rounds <;> exact ⟨rfl, hlinked⟩
    | cons f work =>
      obtain ⟨node, childIdx⟩ := f
      obtain ⟨rounds, rfl⟩ : ∃ n, rounds = n + 1 := ⟨rounds - 1, by omega⟩
      obtain ⟨hround, hlinked'⟩ :=
        workRound_ofState hhead hlinked (hwork _ (List.mem_cons_self ..))
      obtain ⟨hhead', hwork', hless, _⟩ :=
        Tarjan.round_spec (lockNodes_closed edges) hhead hwork
      have htodo' : Tarjan.todo (lockNodes edges)
          (Tarjan.round (successors edges) node childIdx work s).1
          (Tarjan.round (successors edges) node childIdx work s).2 ≤ fuel := by omega
      rw [Tarjan.loop_cons, workLoop, hround]
      exact ih rounds _ _ hhead' hlinked' hwork' htodo' (by omega)

/-- The loop over the roots, with rounds enough for each of them. -/
theorem rootLoop_ofState {rounds : Nat} (hrounds : 2 * (lockNodes edges).length + 1 ≤ rounds) :
    ∀ (roots : List String) (s : Tarjan.State String), (∀ root ∈ roots, root ∈ lockNodes edges) →
      Tarjan.Inv (successors edges) s [] none → Linked s →
      rootLoop (lockGraph edges) rounds roots (ofState s)
        = .ok (ofState (Tarjan.run (successors edges) (lockNodes edges) roots s))
  | [], _, _, _, _ => rfl
  | root :: roots, s, hroots, hi, hlinked => by
      have hrest : ∀ root ∈ roots, root ∈ lockNodes edges :=
        fun x hx => hroots x (List.mem_cons_of_mem _ hx)
      rw [Tarjan.run]
      show ((if root ∈ s.index.keys then pure (ofState s)
        else workLoop (lockGraph edges) rounds [(root, 0)] (ofState s)) >>= _) = _
      by_cases hseen : s.Seen root
      · have hknown : root ∈ s.index.keys := hseen
        rw [if_pos hknown, if_pos hseen]
        exact rootLoop_ofState hrounds roots s hrest hi hlinked
      · have hnew : root ∉ s.index.keys := hseen
        have hroot : ∀ f ∈ [(root, 0)], f.1 ∈ lockNodes edges := by
          simpa using hroots root (List.mem_cons_self ..)
        have htodo := Tarjan.todo_root (lockNodes edges) s root
        have hhead : Tarjan.Head (successors edges) s [(root, 0)] := .root hi hseen
        obtain ⟨hloop, hlinked'⟩ :=
          workLoop_ofState _ rounds _ s hhead hlinked hroot htodo hrounds
        obtain ⟨hi', _, _, _⟩ :=
          Tarjan.loop_spec (lockNodes_closed edges) _ _ s hhead hroot htodo
        rw [if_neg hnew, if_neg hseen, hloop]
        exact rootLoop_ofState hrounds roots _ hrest hi' hlinked'

/-- **The function returns** what the algorithm computes. -/
theorem run_eq {rounds : Nat} (hrounds : 2 * (lockNodes edges).length + 1 ≤ rounds) :
    run rounds edges = .ok (stronglyConnectedComponents edges) := by
  have hlinked : Linked .init := fun x hx => absurd hx (Tarjan.not_seen_init x)
  have hroots := rootLoop_ofState hrounds (lockNodes edges) .init (fun _ h => h) Tarjan.inv_init
    hlinked
  rw [run, sorted_lockGraph]
  show (rootLoop (lockGraph edges) rounds (lockNodes edges) (ofState .init) >>= _) = _
  rw [hroots]
  rfl

end Run

end LockComponents

open LockComponents Library

/-- Reachability along the edges is that of the algorithm. -/
theorem LockComponents.reach_iff {edges : LockEdges} {a b : String} :
    Tarjan.Reach (successors edges) a b ↔ Reaches edges a b := by
  have hedge : Tarjan.Edge (successors edges)
      = fun holder acquired => (holder, acquired) ∈ edges.keys := by
    funext holder acquired
    exact propext mem_successors
  rw [Tarjan.Reach, hedge]

/-- **The components are exact**: the function returns, without a look-up
that fails, and the lists it returns partition the instances that occur in
edges, two of them in one list when each reaches the other. -/
theorem stronglyConnectedComponents_exact (edges : LockEdges) :
    Returns edges (stronglyConnectedComponents edges)
      ∧ ComponentsOf edges (stronglyConnectedComponents edges) := by
  refine ⟨⟨_, fun rounds hrounds => run_eq hrounds⟩, ?_⟩
  obtain ⟨hnodup, hcover, hclass⟩ := Tarjan.components_correct (lockNodes_closed edges)
  have hnodes : ∀ inst, (∃ component ∈ stronglyConnectedComponents edges, inst ∈ component)
      ↔ Occurs edges inst := by
    intro inst
    constructor
    · rintro ⟨component, hcomponent, hinst⟩
      exact mem_lockNodes.mp
        (Tarjan.mem_of_mem_components (lockNodes_closed edges) hcomponent hinst)
    · intro hoccurs
      exact List.mem_flatten.mp (hcover inst (mem_lockNodes.mpr hoccurs))
  refine ⟨fun hnil => (hclass [] hnil).1 rfl, hnodup, hnodes, fun a b ha _ => ?_⟩
  constructor
  · rintro ⟨component, hcomponent, hina, hinb⟩
    simpa [reach_iff] using ((hclass component hcomponent).2 a hina b).mp hinb
  · intro hreach
    obtain ⟨component, hcomponent, hina⟩ := (hnodes a).mpr ha
    refine ⟨component, hcomponent, hina, ((hclass component hcomponent).2 a hina b).mpr ?_⟩
    simpa [reach_iff] using hreach

end FprimeTopologyAnalysis
