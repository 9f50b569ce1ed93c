/-
FprimeTopologyAnalysis.Library.Tarjan — Tarjan's strongly connected
components, with an explicit work stack.

A frame of the work stack is a node and the position of its next child.
The loop looks at the top frame: it numbers the node when the frame is
new, scans children until one has no number yet, and then either pushes
that child or finishes the node. A finished node whose low link is its own
number closes a component: everything above it on the node stack.

`Inv` is the invariant between two scans. Its fields name, in the usual
order of the argument: the stack is ordered by number and every node on it
reaches the later ones (`reach`); a node that is on the stack but no longer
on the work stack reaches an earlier one (`back`); a frame's low link is
the number of a node it reaches (`lowOf`) and bounds, with the frames above
it, every edge back into the stack (`covered`); nodes off the stack have no
edge back to it (`closed`). Closing a component then yields exactly a
class of mutual reachability (`Inv.close`), and the run as a whole yields
all of them (`components_correct`).
-/
import FprimeTopologyAnalysis.Library.Dict
import Mathlib.Logic.Relation
import Mathlib.Data.Finset.Card
import Mathlib.Data.List.Flatten
import Mathlib.Tactic.Cases

namespace Library

universe u

namespace Tarjan

variable {ν : Type u}

/-- The variables of the algorithm; the top of `stack` is its head. -/
structure State (ν : Type u) where
  index : Dict ν Nat
  lowlink : Dict ν Nat
  counter : Nat
  stack : List ν
  result : List (List ν)

variable [DecidableEq ν]

namespace State

def init : State ν := ⟨∅, ∅, 0, [], []⟩

/-- The node's number. -/
def idx (s : State ν) (x : ν) : Nat := (s.index.get? x).getD 0

/-- The node's low link. -/
def low (s : State ν) (x : ν) : Nat := (s.lowlink.get? x).getD 0

/-- The node has a number. -/
def Seen (s : State ν) (x : ν) : Prop := x ∈ s.index.keys

instance (s : State ν) (x : ν) : Decidable (s.Seen x) :=
  inferInstanceAs (Decidable (x ∈ s.index.keys))

/-- The node is in a component already. -/
def Done (s : State ν) (x : ν) : Prop := s.Seen x ∧ x ∉ s.stack

/-- Number a node and put it on the stack. -/
def enter (s : State ν) (n : ν) : State ν :=
  { s with
    index := s.index.set n s.counter
    lowlink := s.lowlink.set n s.counter
    counter := s.counter + 1
    stack := n :: s.stack }

/-- Lower a node's low link to `v` if that is less. -/
def relax (s : State ν) (n : ν) (v : Nat) : State ν :=
  { s with lowlink := s.lowlink.set n (min (s.low n) v) }

end State

/-- Pop up to and including `n`: what was popped, and what is left. -/
def popTo (n : ν) : List ν → List ν × List ν
  | [] => ([], [])
  | m :: rest => if m = n then ([m], rest) else (m :: (popTo n rest).1, (popTo n rest).2)

/-- Close the component of `n`. -/
def State.close (s : State ν) (n : ν) : State ν :=
  { s with stack := (popTo n s.stack).2, result := s.result ++ [(popTo n s.stack).1] }

/-- Scan children from position `i` on: the next unnumbered child and the
position after it, if there is one. -/
def scan (n : ν) : Nat → List ν → State ν → State ν × Option (ν × Nat)
  | _, [], s => (s, none)
  | i, child :: more, s =>
    if ¬ s.Seen child then (s, some (child, i + 1))
    else if child ∈ s.stack then scan n (i + 1) more (s.relax n (s.idx child))
    else scan n (i + 1) more s

/-- Finish a node all of whose children have been scanned. -/
def finish (n : ν) (rest : List (ν × Nat)) (s : State ν) : State ν :=
  let t := if s.low n = s.idx n then s.close n else s
  match rest with
  | [] => t
  | (parent, _) :: _ => t.relax parent (t.low n)

variable (children : ν → List ν)

/-- The loop over the work stack. -/
def loop : Nat → List (ν × Nat) → State ν → State ν
  | 0, _, s => s
  | _ + 1, [], s => s
  | fuel + 1, (n, i) :: rest, s =>
    let t := if i = 0 then s.enter n else s
    match scan n i ((children n).drop i) t with
    | (t', some (child, j)) => loop fuel ((child, 0) :: (n, j) :: rest) t'
    | (t', none) => loop fuel rest (finish n rest t')

/-- One round of it: the work stack and the state it leaves. -/
def round (n : ν) (i : Nat) (rest : List (ν × Nat)) (s : State ν) : List (ν × Nat) × State ν :=
  let t := if i = 0 then s.enter n else s
  match scan n i ((children n).drop i) t with
  | (t', some (child, j)) => ((child, 0) :: (n, j) :: rest, t')
  | (t', none) => (rest, finish n rest t')

theorem loop_cons (fuel : Nat) (n : ν) (i : Nat) (rest : List (ν × Nat)) (s : State ν) :
    loop children (fuel + 1) ((n, i) :: rest) s
      = loop children fuel (round children n i rest s).1 (round children n i rest s).2 := by
  rw [loop, round]
  cases scan n i ((children n).drop i) (if i = 0 then s.enter n else s) with
  | mk t next => cases next <;> rfl

/-- The loop over the roots. Twice the number of nodes is fuel enough for
each of them. -/
def run (nodes : List ν) : List ν → State ν → State ν
  | [], s => s
  | root :: roots, s =>
    run nodes roots (if s.Seen root then s else loop children (2 * nodes.length + 1) [(root, 0)] s)

/-- The strongly connected components of the graph on `nodes`. -/
def components (nodes : List ν) : List (List ν) := (run children nodes nodes .init).result

/-! ## The invariant -/

/-- An edge of the graph. -/
def Edge (x y : ν) : Prop := y ∈ children x

/-- Reachability along edges. -/
abbrev Reach : ν → ν → Prop := Relation.ReflTransGen (Edge children)

/-- An edge that has been scanned: all of a node's, except those from the
position of its frame on. -/
def Scanned (frames : List (ν × Nat)) (x y : ν) : Prop :=
  y ∈ children x ∧ ∀ i, (x, i) ∈ frames → y ∈ (children x).take i

/-- The invariant, for the frames of the numbered nodes and the unnumbered
child found last, if any. -/
structure Inv (s : State ν) (frames : List (ν × Nat)) (pending : Option ν) : Prop where
  stackSeen : ∀ x ∈ s.stack, s.Seen x
  idxLt : ∀ x, s.Seen x → s.idx x < s.counter
  sorted : s.stack.Pairwise fun a b => s.idx b < s.idx a
  frameStack : ∀ f ∈ frames, f.1 ∈ s.stack
  frameSorted : frames.Pairwise fun a b => s.idx b.1 < s.idx a.1
  pendingNew : ∀ c, pending = some c → ¬ s.Seen c
    ∧ ∀ f, frames.head? = some f → Edge children f.1 c
  reach : ∀ x ∈ s.stack, ∀ y ∈ s.stack, s.idx x ≤ s.idx y → Reach children x y
  back : ∀ x ∈ s.stack, x ∉ frames.map Prod.fst →
    ∃ y ∈ s.stack, s.idx y < s.idx x ∧ Reach children x y
  explored : ∀ x ∈ s.stack, ∀ y, Scanned children frames x y → s.Seen y ∨ pending = some y
  lowOf : ∀ f ∈ frames, s.low f.1 ≤ s.idx f.1
    ∧ ∃ y ∈ s.stack, s.idx y = s.low f.1 ∧ Reach children f.1 y
  covered : ∀ f ∈ frames, ∀ x ∈ s.stack, s.idx f.1 ≤ s.idx x → ∀ y ∈ s.stack,
    Scanned children frames x y → ∃ f' ∈ frames, s.idx f.1 ≤ s.idx f'.1 ∧ s.low f'.1 ≤ s.idx y
  closed : ∀ x, s.Done x → ∀ y, Edge children x y → s.Done y
  resultIff : ∀ x, x ∈ s.result.flatten ↔ s.Done x
  resultNodup : s.result.flatten.Nodup
  classes : ∀ C ∈ s.result, C ≠ [] ∧ ∀ x ∈ C, ∀ z, z ∈ C ↔ Reach children x z ∧ Reach children z x

variable {children} {s : State ν} {frames : List (ν × Nat)}

theorem not_seen_init (x : ν) : ¬ (State.init : State ν).Seen x := by
  intro h
  obtain ⟨_, h⟩ := (Dict.mem_keys_iff _ _).mp h
  simp [State.init] at h

theorem inv_init : Inv children (State.init : State ν) [] none where
  stackSeen x hx := by simp [State.init] at hx
  idxLt x hx := absurd hx (not_seen_init x)
  sorted := .nil
  frameStack f hf := by simp at hf
  frameSorted := .nil
  pendingNew c hc := by cases hc
  reach x hx := by simp [State.init] at hx
  back x hx := by simp [State.init] at hx
  explored x hx := by simp [State.init] at hx
  lowOf f hf := by simp at hf
  covered f hf := by simp at hf
  closed x hx := absurd hx.1 (not_seen_init x)
  resultIff x := by
    refine iff_of_false ?_ fun hdone => not_seen_init x hdone.1
    simp [State.init]
  resultNodup := by simp [State.init]
  classes C hC := by simp [State.init] at hC

namespace State

@[simp] theorem idx_relax (s : State ν) (n : ν) (v : Nat) (x : ν) :
    (s.relax n v).idx x = s.idx x := rfl

@[simp] theorem seen_relax (s : State ν) (n : ν) (v : Nat) (x : ν) :
    (s.relax n v).Seen x ↔ s.Seen x := Iff.rfl

@[simp] theorem stack_relax (s : State ν) (n : ν) (v : Nat) : (s.relax n v).stack = s.stack := rfl

theorem low_relax (s : State ν) (n : ν) (v : Nat) (x : ν) :
    (s.relax n v).low x = if x = n then min (s.low n) v else s.low x := by
  simp only [low, relax, Dict.get?_set]
  split <;> rfl

theorem seen_enter (s : State ν) (n x : ν) : (s.enter n).Seen x ↔ x = n ∨ s.Seen x :=
  Dict.mem_keys_set _ _ _ _

theorem idx_enter (s : State ν) (n x : ν) :
    (s.enter n).idx x = if x = n then s.counter else s.idx x := by
  simp only [idx, enter, Dict.get?_set]
  split <;> rfl

theorem low_enter (s : State ν) (n x : ν) :
    (s.enter n).low x = if x = n then s.counter else s.low x := by
  simp only [low, enter, Dict.get?_set]
  split <;> rfl

@[simp] theorem idx_close (s : State ν) (n x : ν) : (s.close n).idx x = s.idx x := rfl

@[simp] theorem low_close (s : State ν) (n x : ν) : (s.close n).low x = s.low x := rfl

@[simp] theorem seen_close (s : State ν) (n x : ν) : (s.close n).Seen x ↔ s.Seen x := Iff.rfl

end State

omit [DecidableEq ν] in
theorem scanned_cons_of_ne {f : ν × Nat} {x y : ν} (hx : x ≠ f.1) :
    Scanned children (f :: frames) x y ↔ Scanned children frames x y := by
  unfold Scanned
  refine and_congr_right fun _ => ⟨fun h i hi => h i (List.mem_cons_of_mem _ hi), fun h i hi => ?_⟩
  rcases List.mem_cons.mp hi with heq | hi
  · exact absurd (congrArg Prod.fst heq) hx
  · exact h i hi

/-- Every node on the stack reaches the top frame's node. -/
theorem Inv.reach_top {f : ν × Nat} {rest : List (ν × Nat)} {pending : Option ν}
    (hi : Inv children s (f :: rest) pending) : ∀ x ∈ s.stack, Reach children x f.1 := by
  have hf := hi.frameStack f (List.mem_cons_self ..)
  suffices hgen : ∀ d, ∀ x ∈ s.stack, s.idx x = d → Reach children x f.1 from
    fun x hx => hgen _ x hx rfl
  intro d
  induction d using Nat.strong_induction_on with
  | _ d ih =>
    intro x hx hd
    by_cases hframe : x ∈ (f :: rest).map Prod.fst
    · -- a frame below the top one is earlier on the stack
      obtain ⟨f', hf', rfl⟩ := List.mem_map.mp hframe
      rcases List.mem_cons.mp hf' with rfl | hrest
      · exact .refl
      · have hlt := (List.pairwise_cons.mp hi.frameSorted).1 f' hrest
        exact hi.reach f'.1 hx f.1 hf (by omega)
    · obtain ⟨y, hy, hlt, hreach⟩ := hi.back x hx hframe
      exact hreach.trans (ih (s.idx y) (by omega) y hy rfl)

theorem Inv.stack_nodup {pending : Option ν} (hi : Inv children s frames pending) :
    s.stack.Nodup :=
  hi.sorted.imp fun hlt heq => absurd hlt (by rw [heq]; exact lt_irrefl _)

/-- With no frame left the stack is empty. -/
theorem Inv.stack_eq_nil {pending : Option ν} (hi : Inv children s [] pending) :
    s.stack = [] := by
  by_contra hne
  obtain ⟨x, hx⟩ := List.exists_mem_of_ne_nil _ hne
  suffices hgen : ∀ d, ∀ x ∈ s.stack, s.idx x = d → False from hgen _ x hx rfl
  intro d
  induction d using Nat.strong_induction_on with
  | _ d ih =>
    intro x hx hd
    obtain ⟨y, hy, hlt, _⟩ := hi.back x hx (by simp)
    exact ih (s.idx y) (by omega) y hy rfl

/-! ## Entering, scanning -/

theorem State.done_enter {c : ν} (hnew : ¬ s.Seen c) (x : ν) : (s.enter c).Done x ↔ s.Done x := by
  unfold State.Done
  rw [State.seen_enter]
  show (x = c ∨ s.Seen x) ∧ x ∉ c :: s.stack ↔ _
  rw [List.mem_cons, not_or]
  constructor
  · rintro ⟨hseen, hxc, hstack⟩
    exact ⟨hseen.resolve_left hxc, hstack⟩
  · rintro ⟨hseen, hstack⟩
    refine ⟨.inr hseen, ?_, hstack⟩
    rintro rfl
    exact hnew hseen

section Enter

variable {c : ν}

theorem State.idx_enter_self : (s.enter c).idx c = s.counter := by rw [State.idx_enter, if_pos rfl]

theorem State.low_enter_self : (s.enter c).low c = s.counter := by rw [State.low_enter, if_pos rfl]

theorem State.idx_enter_of_seen (hnew : ¬ s.Seen c) {x : ν} (hx : s.Seen x) :
    (s.enter c).idx x = s.idx x := by
  rw [State.idx_enter, if_neg]
  rintro rfl
  exact hnew hx

theorem State.low_enter_of_seen (hnew : ¬ s.Seen c) {x : ν} (hx : s.Seen x) :
    (s.enter c).low x = s.low x := by
  rw [State.low_enter, if_neg]
  rintro rfl
  exact hnew hx

/-- Every node on the stack reaches the pending child. -/
theorem Inv.reach_pending (hi : Inv children s frames (some c)) :
    ∀ x ∈ s.stack, Reach children x c := by
  intro x hx
  cases frames with
  | nil =>
    rw [hi.stack_eq_nil] at hx
    simp at hx
  | cons f rest => exact (hi.reach_top x hx).tail ((hi.pendingNew c rfl).2 f rfl)

omit [DecidableEq ν] in
/-- None of the edges of a new frame has been scanned. -/
theorem not_scanned_new (y : ν) : ¬ Scanned children ((c, 0) :: frames) c y := by
  intro h
  have h0 := h.2 0 (List.mem_cons_self ..)
  simp at h0

/-- What is on the stack keeps its number and its low link, and its edges are
scanned as before. -/
theorem Inv.enter_of_mem (hi : Inv children s frames (some c)) {x : ν} (hx : x ∈ s.stack) :
    (s.enter c).idx x = s.idx x ∧ (s.enter c).low x = s.low x
      ∧ ∀ y, Scanned children ((c, 0) :: frames) x y → Scanned children frames x y := by
  obtain ⟨hnew, _⟩ := hi.pendingNew c rfl
  have hseen := hi.stackSeen x hx
  have hne : x ≠ c := by
    rintro rfl
    exact hnew hseen
  exact ⟨State.idx_enter_of_seen hnew hseen, State.low_enter_of_seen hnew hseen,
    fun y h => (scanned_cons_of_ne hne).mp h⟩

/-- The new node has the largest number. -/
theorem Inv.idx_enter_lt (hi : Inv children s frames (some c)) {x : ν} (hx : x ∈ s.stack) :
    (s.enter c).idx x < (s.enter c).idx c := by
  rw [(hi.enter_of_mem hx).1, State.idx_enter_self]
  exact hi.idxLt x (hi.stackSeen x hx)

/-- So it goes on top of what is ordered by number. -/
theorem Inv.pairwise_enter (hi : Inv children s frames (some c)) {α : Type*} (key : α → ν)
    {l : List α} (hl : ∀ a ∈ l, key a ∈ s.stack)
    (hsorted : l.Pairwise fun a b => s.idx (key b) < s.idx (key a)) {top : α}
    (htop : key top = c) :
    (top :: l).Pairwise fun a b => (s.enter c).idx (key b) < (s.enter c).idx (key a) := by
  refine List.pairwise_cons.mpr ⟨fun b hb => ?_, ?_⟩
  · rw [htop]
    exact hi.idx_enter_lt (hl b hb)
  · refine hsorted.imp_of_mem fun {a b} ha hb hab => ?_
    rw [(hi.enter_of_mem (hl a ha)).1, (hi.enter_of_mem (hl b hb)).1]
    exact hab

theorem Inv.reach_enter (hi : Inv children s frames (some c)) :
    ∀ x ∈ (s.enter c).stack, ∀ y ∈ (s.enter c).stack,
      (s.enter c).idx x ≤ (s.enter c).idx y → Reach children x y := by
  intro x hx y hy hle
  rcases List.mem_cons.mp hx with rfl | hx'
  · rcases List.mem_cons.mp hy with rfl | hy'
    · exact .refl
    · exact absurd (hi.idx_enter_lt hy') (not_lt.mpr hle)
  · rcases List.mem_cons.mp hy with rfl | hy'
    · exact hi.reach_pending x hx'
    · rw [(hi.enter_of_mem hx').1, (hi.enter_of_mem hy').1] at hle
      exact hi.reach x hx' y hy' hle

/-- The new frame's low link is its own number; the others are as they were. -/
theorem Inv.lowOf_enter (hi : Inv children s frames (some c)) :
    ∀ f ∈ (c, 0) :: frames, (s.enter c).low f.1 ≤ (s.enter c).idx f.1
      ∧ ∃ y ∈ (s.enter c).stack, (s.enter c).idx y = (s.enter c).low f.1
        ∧ Reach children f.1 y := by
  intro f hf
  rcases List.mem_cons.mp hf with rfl | hf
  · have hlow : (s.enter c).low c = (s.enter c).idx c := by
      rw [State.low_enter_self, State.idx_enter_self]
    exact ⟨hlow.le, c, List.mem_cons_self .., hlow.symm, .refl⟩
  · obtain ⟨hidx, hlow, _⟩ := hi.enter_of_mem (hi.frameStack f hf)
    obtain ⟨hle, y, hy, heq, hreach⟩ := hi.lowOf f hf
    rw [hidx, hlow]
    refine ⟨hle, y, List.mem_cons_of_mem _ hy, ?_, hreach⟩
    rw [(hi.enter_of_mem hy).1]
    exact heq

/-- The edges that were covered still are, and one to the new node is above
every low link. -/
theorem Inv.covered_enter (hi : Inv children s frames (some c)) :
    ∀ f ∈ (c, 0) :: frames, ∀ x ∈ (s.enter c).stack, (s.enter c).idx f.1 ≤ (s.enter c).idx x →
      ∀ y ∈ (s.enter c).stack, Scanned children ((c, 0) :: frames) x y →
      ∃ f' ∈ (c, 0) :: frames, (s.enter c).idx f.1 ≤ (s.enter c).idx f'.1
        ∧ (s.enter c).low f'.1 ≤ (s.enter c).idx y := by
  intro f hf x hx hle y hy hscanned
  rcases List.mem_cons.mp hx with rfl | hx
  · exact absurd hscanned (not_scanned_new y)
  · rcases List.mem_cons.mp hf with rfl | hold
    · exact absurd (hi.idx_enter_lt hx) (not_lt.mpr hle)
    · have hfs := hi.frameStack f hold
      obtain ⟨hidxf, hlowf, _⟩ := hi.enter_of_mem hfs
      obtain ⟨hidxx, _, hscan⟩ := hi.enter_of_mem hx
      rcases List.mem_cons.mp hy with rfl | hy
      · have hlow := (hi.lowOf f hold).1
        rw [← hidxf, ← hlowf] at hlow
        exact ⟨f, hf, le_refl _, hlow.trans (hi.idx_enter_lt hfs).le⟩
      · rw [hidxf, hidxx] at hle
        obtain ⟨f', hf', hle', hlow'⟩ := hi.covered f hold x hx hle y hy (hscan y hscanned)
        obtain ⟨hidxf', hlowf', _⟩ := hi.enter_of_mem (hi.frameStack f' hf')
        refine ⟨f', List.mem_cons_of_mem _ hf', ?_, ?_⟩
        · rw [hidxf, hidxf']
          exact hle'
        · rw [hlowf', (hi.enter_of_mem hy).1]
          exact hlow'

/-- Entering the pending child keeps the invariant. -/
theorem Inv.enter (hi : Inv children s frames (some c)) :
    Inv children (s.enter c) ((c, 0) :: frames) none := by
  obtain ⟨hnew, _⟩ := hi.pendingNew c rfl
  have hdone := State.done_enter hnew
  exact {
    stackSeen := by
      intro x hx
      rw [State.seen_enter]
      exact (List.mem_cons.mp hx).imp id (hi.stackSeen x)
    idxLt := by
      intro x hx
      show (s.enter c).idx x < s.counter + 1
      rcases (State.seen_enter s c x).mp hx with rfl | hx
      · rw [State.idx_enter_self]
        exact Nat.lt_succ_self _
      · rw [State.idx_enter_of_seen hnew hx]
        exact Nat.lt_succ_of_lt (hi.idxLt x hx)
    sorted := hi.pairwise_enter id (fun _ hx => hx) hi.sorted rfl
    frameStack := by
      intro f hf
      rcases List.mem_cons.mp hf with rfl | hf
      · exact List.mem_cons_self ..
      · exact List.mem_cons_of_mem _ (hi.frameStack f hf)
    frameSorted := hi.pairwise_enter Prod.fst hi.frameStack hi.frameSorted rfl
    pendingNew := by
      intro c' hc'
      cases hc'
    reach := hi.reach_enter
    back := by
      intro x hx hnot
      rw [List.map_cons, List.mem_cons, not_or] at hnot
      have hx := (List.mem_cons.mp hx).resolve_left hnot.1
      obtain ⟨y, hy, hylt, hreach⟩ := hi.back x hx hnot.2
      refine ⟨y, List.mem_cons_of_mem _ hy, ?_, hreach⟩
      rw [(hi.enter_of_mem hx).1, (hi.enter_of_mem hy).1]
      exact hylt
    explored := by
      intro x hx y hscanned
      rcases List.mem_cons.mp hx with rfl | hx
      · exact absurd hscanned (not_scanned_new y)
      · rw [State.seen_enter]
        rcases hi.explored x hx y ((hi.enter_of_mem hx).2.2 y hscanned) with hseen | hpend
        · exact .inl (.inr hseen)
        · exact .inl (.inl (Option.some.inj hpend).symm)
    lowOf := hi.lowOf_enter
    covered := hi.covered_enter
    closed := by
      intro x hx y hxy
      exact (hdone y).mpr (hi.closed x ((hdone x).mp hx) y hxy)
    resultIff := by
      intro x
      rw [hdone x]
      exact hi.resultIff x
    resultNodup := hi.resultNodup
    classes := hi.classes }

end Enter

/-- Lowering a low link keeps the invariant, when the new value is the number
of a node on the stack that is reached, or is no lower. -/
theorem Inv.relax {n : ν} {v : Nat} {pending : Option ν} (hi : Inv children s frames pending)
    (hv : v < s.low n → ∃ y ∈ s.stack, s.idx y = v ∧ Reach children n y) :
    Inv children (s.relax n v) frames pending := by
  have hle : ∀ x, (s.relax n v).low x ≤ s.low x := by
    intro x
    rw [State.low_relax]
    split
    · rename_i hx
      rw [hx]
      exact min_le_left _ _
    · exact le_refl _
  exact {
    stackSeen := hi.stackSeen
    idxLt := hi.idxLt
    sorted := hi.sorted
    frameStack := hi.frameStack
    frameSorted := hi.frameSorted
    pendingNew := hi.pendingNew
    reach := hi.reach
    back := hi.back
    explored := hi.explored
    lowOf := by
      intro f hf
      obtain ⟨hlow, hreached⟩ := hi.lowOf f hf
      refine ⟨le_trans (hle f.1) hlow, ?_⟩
      rw [State.low_relax]
      split
      · rename_i hsame
        rw [hsame] at hreached ⊢
        by_cases hlower : v < s.low n
        · rw [min_eq_right hlower.le]
          exact hv hlower
        · rw [min_eq_left (not_lt.mp hlower)]
          exact hreached
      · exact hreached
    covered := by
      intro f hf x hx hidx z hz hscanned
      obtain ⟨f', hf', hle', hlow'⟩ := hi.covered f hf x hx hidx z hz hscanned
      exact ⟨f', hf', hle', le_trans (hle f'.1) hlow'⟩
    closed := hi.closed
    resultIff := hi.resultIff
    resultNodup := hi.resultNodup
    classes := hi.classes }

omit [DecidableEq ν] in
/-- Moving the top frame past a child scans the edge to that child and no
other. -/
theorem scanned_advance {n child : ν} {i : Nat} {rest : List (ν × Nat)} {more : List ν}
    (hdrop : (children n).drop i = child :: more) {x y : ν}
    (h : Scanned children ((n, i + 1) :: rest) x y) :
    Scanned children ((n, i) :: rest) x y ∨ (x = n ∧ y = child) := by
  have htake : (children n).take (i + 1) = (children n).take i ++ [child] := by
    have hget : (children n)[i]? = some child := by
      have hhead := congrArg List.head? hdrop
      rwa [List.head?_drop, List.head?_cons] at hhead
    rw [List.take_add_one, hget]
    rfl
  by_cases hx : x = n
  · subst hx
    have hnew := h.2 (i + 1) (List.mem_cons_self ..)
    rw [htake, List.mem_append] at hnew
    rcases hnew with hold | hchild
    · refine .inl ⟨h.1, fun j hj => ?_⟩
      rcases List.mem_cons.mp hj with heq | hj
      · obtain rfl : j = i := congrArg Prod.snd heq
        exact hold
      · exact h.2 j (List.mem_cons_of_mem _ hj)
    · exact .inr ⟨rfl, List.mem_singleton.mp hchild⟩
  · exact .inl ((scanned_cons_of_ne hx).mpr ((scanned_cons_of_ne hx).mp h))

/-- Moving the top frame past a child keeps the invariant, when the child
is numbered or becomes the pending one, and bounds the low link if it is on
the stack. -/
theorem Inv.advance {n child : ν} {i : Nat} {rest : List (ν × Nat)} {more : List ν}
    {pending : Option ν} (hi : Inv children s ((n, i) :: rest) none)
    (hdrop : (children n).drop i = child :: more)
    (hpend : (s.Seen child ∧ pending = none) ∨ (¬ s.Seen child ∧ pending = some child))
    (hlow : child ∈ s.stack → s.low n ≤ s.idx child) :
    Inv children s ((n, i + 1) :: rest) pending := by
  have hedge : Edge children n child := by
    have hmem : child ∈ (children n).drop i := hdrop ▸ List.mem_cons_self ..
    exact List.mem_of_mem_drop hmem
  have hframes : ∀ f ∈ ((n, i + 1) :: rest), ∃ f' ∈ ((n, i) :: rest), f'.1 = f.1 := by
    intro f hf
    rcases List.mem_cons.mp hf with rfl | hf
    · exact ⟨(n, i), List.mem_cons_self .., rfl⟩
    · exact ⟨f, List.mem_cons_of_mem _ hf, rfl⟩
  have hframes' : ∀ f ∈ ((n, i) :: rest), ∃ f' ∈ ((n, i + 1) :: rest), f'.1 = f.1 := by
    intro f hf
    rcases List.mem_cons.mp hf with rfl | hf
    · exact ⟨(n, i + 1), List.mem_cons_self .., rfl⟩
    · exact ⟨f, List.mem_cons_of_mem _ hf, rfl⟩
  exact {
    stackSeen := hi.stackSeen
    idxLt := hi.idxLt
    sorted := hi.sorted
    frameStack := by
      intro f hf
      obtain ⟨f', hf', hsame⟩ := hframes f hf
      exact hsame ▸ hi.frameStack f' hf'
    frameSorted := List.pairwise_cons.mpr (List.pairwise_cons.mp hi.frameSorted)
    pendingNew := by
      intro c hc
      rcases hpend with ⟨_, hnone⟩ | ⟨hnew, hsome⟩
      · rw [hnone] at hc
        cases hc
      · rw [hsome] at hc
        obtain rfl := Option.some.inj hc
        refine ⟨hnew, fun f hf => ?_⟩
        obtain rfl : (n, i + 1) = f := Option.some.inj hf
        exact hedge
    reach := hi.reach
    back := hi.back
    explored := by
      intro x hx y hscanned
      rcases scanned_advance hdrop hscanned with hold | ⟨rfl, rfl⟩
      · exact .inl ((hi.explored x hx y hold).resolve_right (by simp))
      · rcases hpend with ⟨hseen, _⟩ | ⟨_, hsome⟩
        · exact .inl hseen
        · exact .inr hsome
    lowOf := by
      intro f hf
      obtain ⟨f', hf', hsame⟩ := hframes f hf
      exact hsame ▸ hi.lowOf f' hf'
    covered := by
      intro f hf x hx hle y hy hscanned
      obtain ⟨f₀, hf₀, hsame⟩ := hframes f hf
      rcases scanned_advance hdrop hscanned with hold | ⟨rfl, rfl⟩
      · obtain ⟨f', hf', h1, h2⟩ := hi.covered f₀ hf₀ x hx (hsame ▸ hle) y hy hold
        obtain ⟨f'', hf'', hsame'⟩ := hframes' f' hf'
        exact ⟨f'', hf'', by rw [hsame', ← hsame]; exact h1, by rw [hsame']; exact h2⟩
      · exact ⟨(x, i + 1), List.mem_cons_self .., hle, hlow hy⟩
    closed := hi.closed
    resultIff := hi.resultIff
    resultNodup := hi.resultNodup
    classes := hi.classes }

/-! ## Finishing a node -/

omit [DecidableEq ν] in
theorem take_eq_of_drop_eq_nil {l : List ν} {i : Nat} (h : l.drop i = []) : l.take i = l := by
  have hsplit := List.take_append_drop i l
  rw [h, List.append_nil] at hsplit
  exact hsplit

omit [DecidableEq ν] in
/-- Dropping a frame whose children are all scanned changes no scanned edge. -/
theorem scanned_of_rest {n : ν} {i : Nat} {rest : List (ν × Nat)}
    (hdrop : (children n).drop i = []) {x y : ν} (h : Scanned children rest x y) :
    Scanned children ((n, i) :: rest) x y := by
  refine ⟨h.1, fun j hj => ?_⟩
  rcases List.mem_cons.mp hj with heq | hj
  · obtain ⟨rfl, rfl⟩ : x = n ∧ j = i := Prod.mk.inj heq
    rw [take_eq_of_drop_eq_nil hdrop]
    exact h.1
  · exact h.2 j hj

/-- A finished node with a lower low link stays on the stack, when its parent
has taken the low link over. -/
theorem Inv.pop {n : ν} {i : Nat} {rest : List (ν × Nat)}
    (hi : Inv children s ((n, i) :: rest) none) (hdrop : (children n).drop i = [])
    (hlt : s.low n < s.idx n) (hparent : ∀ f, rest.head? = some f → s.low f.1 ≤ s.low n) :
    Inv children s rest none := by
  have hsorted := List.pairwise_cons.mp hi.frameSorted
  exact {
    stackSeen := hi.stackSeen
    idxLt := hi.idxLt
    sorted := hi.sorted
    frameStack := fun f hf => hi.frameStack f (List.mem_cons_of_mem _ hf)
    frameSorted := hsorted.2
    pendingNew := by
      intro c hc
      cases hc
    reach := hi.reach
    back := by
      intro x hx hnot
      by_cases hxn : x = n
      · subst hxn
        obtain ⟨_, z, hz, hzidx, hreach⟩ := hi.lowOf (x, i) (List.mem_cons_self ..)
        exact ⟨z, hz, by rw [hzidx]; exact hlt, hreach⟩
      · refine hi.back x hx ?_
        rw [List.map_cons, List.mem_cons, not_or]
        exact ⟨hxn, hnot⟩
    explored := fun x hx y hscanned => hi.explored x hx y (scanned_of_rest hdrop hscanned)
    lowOf := fun f hf => hi.lowOf f (List.mem_cons_of_mem _ hf)
    covered := by
      intro f hf x hx hle y hy hscanned
      obtain ⟨f', hf', hle', hlow'⟩ := hi.covered f (List.mem_cons_of_mem _ hf) x hx hle y hy
        (scanned_of_rest hdrop hscanned)
      rcases List.mem_cons.mp hf' with rfl | hf'
      · -- what the node covered, its parent now covers
        obtain ⟨p, ps, rfl⟩ := List.exists_cons_of_ne_nil (List.ne_nil_of_mem hf)
        refine ⟨p, List.mem_cons_self .., ?_, le_trans (hparent p rfl) hlow'⟩
        rcases List.mem_cons.mp hf with rfl | hf
        · exact le_refl _
        · exact le_of_lt ((List.pairwise_cons.mp hsorted.2).1 f hf)
      · exact ⟨f', hf', hle', hlow'⟩
    closed := hi.closed
    resultIff := hi.resultIff
    resultNodup := hi.resultNodup
    classes := hi.classes }

/-- What `popTo` takes off a stack ordered by `key`. -/
theorem mem_popTo (key : ν → Nat) {n : ν} : ∀ {l : List ν},
    l.Pairwise (fun a b => key b < key a) → n ∈ l → ∀ x,
      (x ∈ (popTo n l).1 ↔ x ∈ l ∧ key n ≤ key x) ∧ (x ∈ (popTo n l).2 ↔ x ∈ l ∧ key x < key n)
  | [], _, hn, _ => by simp at hn
  | m :: rest, hsorted, hn, x => by
      obtain ⟨hm, hrest⟩ := List.pairwise_cons.mp hsorted
      rw [popTo]
      by_cases hmn : m = n
      · subst hmn
        rw [if_pos rfl]
        constructor
        · rw [List.mem_singleton, List.mem_cons]
          constructor
          · rintro rfl
            exact ⟨.inl rfl, le_refl _⟩
          · rintro ⟨rfl | hx, hle⟩
            · rfl
            · have := hm x hx
              omega
        · rw [List.mem_cons]
          constructor
          · exact fun hx => ⟨.inr hx, hm x hx⟩
          · rintro ⟨rfl | hx, hlt⟩
            · omega
            · exact hx
      · rw [if_neg hmn]
        have hn' : n ∈ rest := (List.mem_cons.mp hn).resolve_left fun h => hmn h.symm
        obtain ⟨h1, h2⟩ := mem_popTo key hrest hn' x
        have hnm := hm n hn'
        simp only [List.mem_cons, h1, h2]
        constructor
        · constructor
          · rintro (rfl | ⟨hx, hle⟩)
            · exact ⟨.inl rfl, by omega⟩
            · exact ⟨.inr hx, hle⟩
          · rintro ⟨rfl | hx, hle⟩
            · exact .inl rfl
            · exact .inr ⟨hx, hle⟩
        · constructor
          · rintro ⟨hx, hlt⟩
            exact ⟨.inr hx, hlt⟩
          · rintro ⟨rfl | hx, hlt⟩
            · omega
            · exact ⟨hx, hlt⟩

theorem popTo_append (n : ν) : ∀ {l : List ν}, n ∈ l → (popTo n l).1 ++ (popTo n l).2 = l
  | [], hn => by simp at hn
  | m :: rest, hn => by
      rw [popTo]
      by_cases hmn : m = n
      · rw [if_pos hmn]
        rfl
      · rw [if_neg hmn, List.cons_append,
          popTo_append n ((List.mem_cons.mp hn).resolve_left fun h => hmn h.symm)]

section Close

variable {n : ν} {i : Nat} {rest : List (ν × Nat)}

/-- Closing takes the stack from `n` on. -/
theorem Inv.mem_close (hi : Inv children s ((n, i) :: rest) none) (x : ν) :
    (x ∈ (popTo n s.stack).1 ↔ x ∈ s.stack ∧ s.idx n ≤ s.idx x)
      ∧ (x ∈ (s.close n).stack ↔ x ∈ s.stack ∧ s.idx x < s.idx n) :=
  mem_popTo s.idx hi.sorted (hi.frameStack (n, i) (List.mem_cons_self ..)) x

theorem Inv.done_close (hi : Inv children s ((n, i) :: rest) none) (x : ν) :
    (s.close n).Done x ↔ s.Done x ∨ x ∈ (popTo n s.stack).1 := by
  unfold State.Done
  rw [State.seen_close, (hi.mem_close x).1, (hi.mem_close x).2]
  constructor
  · rintro ⟨hseen, hnot⟩
    by_cases hx : x ∈ s.stack
    · exact .inr ⟨hx, by
        by_contra hlt
        exact hnot ⟨hx, by omega⟩⟩
    · exact .inl ⟨hseen, hx⟩
  · rintro (⟨hseen, hx⟩ | ⟨hx, hle⟩)
    · exact ⟨hseen, fun h => hx h.1⟩
    · exact ⟨hi.stackSeen x hx, fun h => by omega⟩

/-- No edge leaves the component for what stays on the stack. -/
theorem Inv.closed_close (hi : Inv children s ((n, i) :: rest) none)
    (hdrop : (children n).drop i = []) (heq : s.low n = s.idx n) :
    ∀ x, (s.close n).Done x → ∀ y, Edge children x y → (s.close n).Done y := by
  intro x hx y hxy
  rw [hi.done_close]
  rcases (hi.done_close x).mp hx with hold | hnew
  · exact .inl (hi.closed x hold y hxy)
  · obtain ⟨hxs, hxle⟩ := (hi.mem_close x).1.mp hnew
    have hsorted := (List.pairwise_cons.mp hi.frameSorted).1
    have hscanned : Scanned children ((n, i) :: rest) x y := by
      refine scanned_of_rest hdrop ⟨hxy, fun j hj => ?_⟩
      have := hsorted _ hj
      dsimp only at this
      omega
    by_cases hy : y ∈ s.stack
    · obtain ⟨f', hf', hle', hlow'⟩ := hi.covered (n, i) (List.mem_cons_self ..) x hxs hxle y hy
        hscanned
      rcases List.mem_cons.mp hf' with rfl | hf'
      · exact .inr ((hi.mem_close y).1.mpr ⟨hy, by dsimp only at hlow'; omega⟩)
      · have := hsorted f' hf'
        dsimp only at hle' this
        omega
    · exact .inl ⟨(hi.explored x hxs y hscanned).resolve_right (by simp), hy⟩

omit [DecidableEq ν] in
theorem done_of_reach {t : State ν} (hclosed : ∀ x, t.Done x → ∀ y, Edge children x y → t.Done y)
    {x y : ν} (hxy : Reach children x y) (hx : t.Done x) : t.Done y := by
  induction hxy with
  | refl => exact hx
  | tail _ hstep ih => exact hclosed _ ih _ hstep

/-- The component is a class of mutual reachability. -/
theorem Inv.class_close (hi : Inv children s ((n, i) :: rest) none)
    (hdrop : (children n).drop i = []) (heq : s.low n = s.idx n) {x : ν}
    (hx : x ∈ (popTo n s.stack).1) (z : ν) :
    z ∈ (popTo n s.stack).1 ↔ Reach children x z ∧ Reach children z x := by
  have hn := hi.frameStack (n, i) (List.mem_cons_self ..)
  obtain ⟨hxs, hxle⟩ := (hi.mem_close x).1.mp hx
  constructor
  · intro hz
    obtain ⟨hzs, hzle⟩ := (hi.mem_close z).1.mp hz
    exact ⟨(hi.reach_top x hxs).trans (hi.reach n hn z hzs hzle),
      (hi.reach_top z hzs).trans (hi.reach n hn x hxs hxle)⟩
  · rintro ⟨hxz, hzx⟩
    have hdone := done_of_reach (hi.closed_close hdrop heq) hxz ((hi.done_close x).mpr (.inr hx))
    rcases (hi.done_close z).mp hdone with hold | hnew
    · exact absurd hxs (done_of_reach hi.closed hzx hold).2
    · exact hnew

/-- The component has nothing twice, and nothing of an earlier one. -/
theorem Inv.resultNodup_close (hi : Inv children s ((n, i) :: rest) none) :
    (s.close n).result.flatten.Nodup := by
  have hstack := hi.stack_nodup
  rw [← popTo_append n (hi.frameStack (n, i) (List.mem_cons_self ..))] at hstack
  have hcomponent : (popTo n s.stack).1.Nodup := (List.nodup_append.mp hstack).1
  show (s.result ++ [(popTo n s.stack).1]).flatten.Nodup
  rw [List.flatten_append, List.nodup_append]
  refine ⟨hi.resultNodup, by simpa using hcomponent, ?_⟩
  intro a ha b hb hab
  subst hab
  have hb' : a ∈ (popTo n s.stack).1 := by simpa using hb
  exact ((hi.resultIff a).mp ha).2 ((hi.mem_close a).1.mp hb').1

/-- A finished node whose low link is its own number closes a component. -/
theorem Inv.close (hi : Inv children s ((n, i) :: rest) none) (hdrop : (children n).drop i = [])
    (heq : s.low n = s.idx n) : Inv children (s.close n) rest none := by
  have hn := hi.frameStack (n, i) (List.mem_cons_self ..)
  have hsorted := List.pairwise_cons.mp hi.frameSorted
  have hpop := hi.mem_close
  have hscan : ∀ {x y}, Scanned children rest x y → Scanned children ((n, i) :: rest) x y :=
    fun h => scanned_of_rest hdrop h
  have hrestLt : ∀ f ∈ rest, s.idx f.1 < s.idx n := hsorted.1
  exact {
    stackSeen := fun x hx => hi.stackSeen x ((hpop x).2.mp hx).1
    idxLt := hi.idxLt
    sorted := by
      have hall := hi.sorted
      rw [← popTo_append n hn] at hall
      exact (List.pairwise_append.mp hall).2.1
    frameStack := fun f hf =>
      (hpop f.1).2.mpr ⟨hi.frameStack f (List.mem_cons_of_mem _ hf), hrestLt f hf⟩
    frameSorted := hsorted.2
    pendingNew := by
      intro c hc
      cases hc
    reach := by
      intro x hx y hy hle
      exact hi.reach x ((hpop x).2.mp hx).1 y ((hpop y).2.mp hy).1 hle
    back := by
      intro x hx hnot
      obtain ⟨hxs, hxlt⟩ := (hpop x).2.mp hx
      obtain ⟨y, hy, hylt, hreach⟩ := hi.back x hxs (by
        rw [List.map_cons, List.mem_cons, not_or]
        refine ⟨?_, hnot⟩
        rintro rfl
        exact lt_irrefl _ hxlt)
      exact ⟨y, (hpop y).2.mpr ⟨hy, by omega⟩, hylt, hreach⟩
    explored := by
      intro x hx y hscanned
      exact hi.explored x ((hpop x).2.mp hx).1 y (hscan hscanned)
    lowOf := by
      intro f hf
      obtain ⟨hle, y, hy, hyidx, hreach⟩ := hi.lowOf f (List.mem_cons_of_mem _ hf)
      have hflt := hrestLt f hf
      exact ⟨hle, y, (hpop y).2.mpr ⟨hy, by omega⟩, hyidx, hreach⟩
    covered := by
      intro f hf x hx hle y hy hscanned
      obtain ⟨hys, hylt⟩ := (hpop y).2.mp hy
      obtain ⟨f', hf', hle', hlow'⟩ := hi.covered f (List.mem_cons_of_mem _ hf) x
        ((hpop x).2.mp hx).1 hle y hys (hscan hscanned)
      rcases List.mem_cons.mp hf' with rfl | hf'
      · dsimp only at hlow'
        omega
      · exact ⟨f', hf', hle', hlow'⟩
    closed := hi.closed_close hdrop heq
    resultIff := by
      intro x
      rw [hi.done_close]
      show x ∈ (s.result ++ [(popTo n s.stack).1]).flatten ↔ _
      rw [List.flatten_append, List.mem_append, hi.resultIff]
      simp
    resultNodup := hi.resultNodup_close
    classes := by
      intro C hC
      rcases List.mem_append.mp hC with hC | hC
      · exact hi.classes C hC
      · obtain rfl := List.mem_singleton.mp hC
        exact ⟨List.ne_nil_of_mem ((hpop n).1.mpr ⟨hn, le_refl _⟩),
          fun x hx => hi.class_close hdrop heq hx⟩ }

end Close

/-- Finishing the top node keeps the invariant for the frames below. -/
theorem Inv.finish {n : ν} {i : Nat} {rest : List (ν × Nat)}
    (hi : Inv children s ((n, i) :: rest) none) (hdrop : (children n).drop i = []) :
    Inv children (finish n rest s) rest none ∧ ∀ x, (finish n rest s).Seen x ↔ s.Seen x := by
  obtain ⟨hlown, z, hz, hzidx, hnz⟩ := hi.lowOf (n, i) (List.mem_cons_self ..)
  dsimp only at hlown hzidx hnz
  have hsorted := (List.pairwise_cons.mp hi.frameSorted).1
  unfold Tarjan.finish
  by_cases heq : s.low n = s.idx n
  · rw [if_pos heq]
    have hclose := hi.close hdrop heq
    cases rest with
    | nil => exact ⟨hclose, fun _ => Iff.rfl⟩
    | cons p rest =>
      -- the parent's number is lower, so nothing is taken over
      have hp := (hi.lowOf p (List.mem_cons_of_mem _ (List.mem_cons_self ..))).1
      have hlt := hsorted p (List.mem_cons_self ..)
      refine ⟨hclose.relax fun hlower => ?_, fun _ => Iff.rfl⟩
      rw [State.low_close, State.low_close, heq] at hlower
      dsimp only at hlt
      omega
  · rw [if_neg heq]
    have hlt : s.low n < s.idx n := lt_of_le_of_ne hlown heq
    cases rest with
    | nil => exact ⟨hi.pop hdrop hlt (by simp), fun _ => Iff.rfl⟩
    | cons p rest =>
      -- the parent reaches the node, and through it the node's low link
      have hltp : s.idx p.1 < s.idx n := hsorted p (List.mem_cons_self ..)
      have hpn := hi.reach p.1 (hi.frameStack p (List.mem_cons_of_mem _ (List.mem_cons_self ..)))
        n (hi.frameStack (n, i) (List.mem_cons_self ..)) hltp.le
      have hne : n ≠ p.1 := by
        intro hsame
        rw [hsame] at hltp
        exact lt_irrefl _ hltp
      have hrelax := hi.relax (n := p.1) fun _ => ⟨z, hz, hzidx, hpn.trans hnz⟩
      have hlow : (s.relax p.1 (s.low n)).low n = s.low n := by rw [State.low_relax, if_neg hne]
      refine ⟨hrelax.pop hdrop (by rw [hlow]; exact hlt) fun f hf => ?_, fun _ => Iff.rfl⟩
      obtain rfl : p = f := Option.some.inj hf
      rw [hlow, State.low_relax, if_pos rfl]
      exact min_le_right _ _

/-! ## The loop -/

/-- A scan moves the top frame on, to its end or to an unnumbered child. -/
theorem scan_spec {n : ν} {rest : List (ν × Nat)} : ∀ (more : List ν) (i : Nat) (s : State ν),
    Inv children s ((n, i) :: rest) none → (children n).drop i = more →
    (∀ x, (scan n i more s).1.Seen x ↔ s.Seen x)
      ∧ match (scan n i more s).2 with
        | none =>
          ∃ j, (children n).drop j = [] ∧ Inv children (scan n i more s).1 ((n, j) :: rest) none
        | some (child, j) => 0 < j ∧ ¬ s.Seen child ∧ Edge children n child
          ∧ Inv children (scan n i more s).1 ((n, j) :: rest) (some child)
  | [], i, s, hi, hdrop => ⟨fun _ => Iff.rfl, i, hdrop, hi⟩
  | child :: more, i, s, hi, hdrop => by
      have hdrop' : (children n).drop (i + 1) = more := by
        rw [← List.drop_drop, hdrop]
        rfl
      have hedge : Edge children n child := by
        have hmem : child ∈ (children n).drop i := hdrop ▸ List.mem_cons_self ..
        exact List.mem_of_mem_drop hmem
      rw [scan]
      by_cases hseen : s.Seen child
      · rw [if_neg (not_not.mpr hseen)]
        by_cases hstack : child ∈ s.stack
        · rw [if_pos hstack]
          have hrelax := hi.relax (n := n) fun _ => ⟨child, hstack, rfl, .single hedge⟩
          have hlow : (s.relax n (s.idx child)).low n ≤ s.idx child := by
            rw [State.low_relax, if_pos rfl]
            exact min_le_right _ _
          exact scan_spec more (i + 1) _
            (hrelax.advance hdrop (.inl ⟨hseen, rfl⟩) fun _ => hlow) hdrop'
        · rw [if_neg hstack]
          exact scan_spec more (i + 1) s
            (hi.advance hdrop (.inl ⟨hseen, rfl⟩) fun h => absurd h hstack) hdrop'
      · rw [if_pos hseen]
        exact ⟨fun _ => Iff.rfl, Nat.succ_pos i, hseen, hedge,
          hi.advance hdrop (.inr ⟨hseen, rfl⟩) fun h => absurd (hi.stackSeen child h) hseen⟩

/-- The work stack at the head of the loop: a new frame on top, or none. -/
inductive Head (children : ν → List ν) (s : State ν) : List (ν × Nat) → Prop
  | resumed {work : List (ν × Nat)} : Inv children s work none → (∀ f ∈ work, 0 < f.2) →
      Head children s work
  | entered {c : ν} {rest : List (ν × Nat)} : Inv children s rest (some c) →
      (∀ f ∈ rest, 0 < f.2) → Head children s ((c, 0) :: rest)

/-- Once a new node is numbered the two cases are one. -/
theorem Head.numbered {n : ν} {i : Nat} {rest : List (ν × Nat)}
    (h : Head children s ((n, i) :: rest)) :
    Inv children (if i = 0 then s.enter n else s) ((n, i) :: rest) none ∧ (∀ f ∈ rest, 0 < f.2)
      ∧ ∀ x, (if i = 0 then s.enter n else s).Seen x ↔ x = n ∨ s.Seen x := by
  cases h with
  | resumed hi hpos =>
    have hipos : ¬ i = 0 := Nat.pos_iff_ne_zero.mp (hpos (n, i) (List.mem_cons_self ..))
    have hn : s.Seen n := hi.stackSeen n (hi.frameStack (n, i) (List.mem_cons_self ..))
    rw [if_neg hipos]
    refine ⟨hi, fun f hf => hpos f (List.mem_cons_of_mem _ hf), fun x => ?_⟩
    constructor
    · exact .inr
    · rintro (rfl | hx)
      · exact hn
      · exact hx
  | entered hi hpos =>
    rw [if_pos rfl]
    exact ⟨hi.enter, hpos, fun x => State.seen_enter ..⟩

/-- All frames but the top one are of numbered nodes. -/
theorem Head.seen_rest {f : ν × Nat} {rest : List (ν × Nat)} (h : Head children s (f :: rest)) :
    ∀ g ∈ rest, s.Seen g.1 := by
  intro g hg
  cases h with
  | resumed hi _ => exact hi.stackSeen g.1 (hi.frameStack g (List.mem_cons_of_mem _ hg))
  | entered hi _ => exact hi.stackSeen g.1 (hi.frameStack g hg)

/-- What is left to do: the work stack, and twice the nodes that have no
number and no frame. -/
def todo (nodes : List ν) (work : List (ν × Nat)) (s : State ν) : Nat :=
  2 * (nodes.toFinset.filter fun x => ¬ s.Seen x ∧ x ∉ work.map Prod.fst).card + work.length

theorem todo_push {nodes : List ν} {s t : State ν} {n child : ν} {i j : Nat}
    {rest : List (ν × Nat)} (hseen : ∀ x, x ≠ n → (t.Seen x ↔ s.Seen x))
    (hchild : child ∈ nodes) (hnew : ¬ t.Seen child) (hne : child ∉ ((n, i) :: rest).map Prod.fst) :
    todo nodes ((child, 0) :: (n, j) :: rest) t + 1 = todo nodes ((n, i) :: rest) s := by
  have hsplit : (nodes.toFinset.filter fun x => ¬ s.Seen x ∧ x ∉ ((n, i) :: rest).map Prod.fst)
      = insert child (nodes.toFinset.filter fun x =>
        ¬ t.Seen x ∧ x ∉ ((child, 0) :: (n, j) :: rest).map Prod.fst) := by
    ext x
    simp only [List.map_cons, List.mem_cons, not_or, Finset.mem_filter, List.mem_toFinset,
      Finset.mem_insert] at hne ⊢
    by_cases hx : x = child
    · subst hx
      exact ⟨fun _ => .inl rfl, fun _ => ⟨hchild, fun h => hnew ((hseen x hne.1).mpr h), hne⟩⟩
    · simp only [hx, not_false_eq_true, true_and, false_or]
      refine and_congr_right fun _ => ?_
      constructor
      · rintro ⟨hs, hxn, hr⟩
        exact ⟨fun h => hs ((hseen x hxn).mp h), hxn, hr⟩
      · rintro ⟨hs, hxn, hr⟩
        exact ⟨fun h => hs ((hseen x hxn).mpr h), hxn, hr⟩
  have hnot : child ∉ nodes.toFinset.filter fun x =>
      ¬ t.Seen x ∧ x ∉ ((child, 0) :: (n, j) :: rest).map Prod.fst := by simp
  unfold todo
  rw [hsplit, Finset.card_insert_of_notMem hnot]
  simp only [List.length_cons]
  omega

theorem todo_pop (nodes : List ν) (i : Nat) (rest : List (ν × Nat)) {s t : State ν} {n : ν}
    (hseen : ∀ x, x ≠ n → (t.Seen x ↔ s.Seen x)) (hn : t.Seen n) :
    todo nodes rest t + 1 = todo nodes ((n, i) :: rest) s := by
  have hsame : (nodes.toFinset.filter fun x => ¬ s.Seen x ∧ x ∉ ((n, i) :: rest).map Prod.fst)
      = nodes.toFinset.filter fun x => ¬ t.Seen x ∧ x ∉ rest.map Prod.fst := by
    ext x
    simp only [List.map_cons, List.mem_cons, not_or, Finset.mem_filter]
    refine and_congr_right fun _ => ?_
    by_cases hx : x = n
    · subst hx
      exact ⟨fun h => absurd rfl h.2.1, fun h => absurd hn h.1⟩
    · rw [hseen x hx]
      exact ⟨fun h => ⟨h.1, h.2.2⟩, fun h => ⟨h.1, hx, h.2⟩⟩
  unfold todo
  rw [hsame, List.length_cons]
  omega

/-- **A round** leads from one head of the loop to the next, with less to do:
it numbers the top node, and either pushes one of its children or pops it. -/
theorem round_spec {nodes : List ν} (hnodes : ∀ x ∈ nodes, ∀ y ∈ children x, y ∈ nodes) {n : ν}
    {i : Nat} {rest : List (ν × Nat)} (hhead : Head children s ((n, i) :: rest))
    (hwork : ∀ f ∈ (n, i) :: rest, f.1 ∈ nodes) :
    Head children (round children n i rest s).2 (round children n i rest s).1
      ∧ (∀ f ∈ (round children n i rest s).1, f.1 ∈ nodes)
      ∧ todo nodes (round children n i rest s).1 (round children n i rest s).2 + 1
        = todo nodes ((n, i) :: rest) s
      ∧ ∀ x, (round children n i rest s).2.Seen x ↔ x = n ∨ s.Seen x := by
  obtain ⟨hi, hpos, hnumbered⟩ := hhead.numbered
  unfold Tarjan.round
  dsimp only
  generalize (if i = 0 then s.enter n else s) = t at hi hnumbered ⊢
  have hn : n ∈ nodes := hwork (n, i) (List.mem_cons_self ..)
  have hrest : ∀ f ∈ rest, f.1 ∈ nodes := fun f hf => hwork f (List.mem_cons_of_mem _ hf)
  obtain ⟨hseen, hscan⟩ := scan_spec ((children n).drop i) i t hi rfl
  cases hres : scan n i ((children n).drop i) t with
  | mk t' next =>
    rw [hres] at hseen hscan
    dsimp only at hseen hscan ⊢
    have hscanned : ∀ x, t'.Seen x ↔ x = n ∨ s.Seen x := fun x => (hseen x).trans (hnumbered x)
    cases next with
    | none =>
      -- the node is finished
      obtain ⟨j, hdrop, hinv⟩ := hscan
      obtain ⟨hfin, hfinSeen⟩ := hinv.finish hdrop
      have hfinished : ∀ x, (finish n rest t').Seen x ↔ x = n ∨ s.Seen x :=
        fun x => (hfinSeen x).trans (hscanned x)
      exact ⟨.resumed hfin hpos, hrest,
        todo_pop nodes i rest (fun x hx => by simp [hfinished, hx]) ((hfinished n).mpr (.inl rfl)),
        hfinished⟩
    | some p =>
      obtain ⟨child, j⟩ := p
      -- an unnumbered child is pushed
      obtain ⟨hj, hchildNew, hedge, hinv⟩ := hscan
      have hchild : child ∈ nodes := hnodes n hn child hedge
      have hne : child ∉ ((n, i) :: rest).map Prod.fst := by
        intro hmem
        obtain ⟨f, hf, rfl⟩ := List.mem_map.mp hmem
        exact hchildNew (hi.stackSeen f.1 (hi.frameStack f hf))
      have hstep : ∀ x, x ≠ n → (t'.Seen x ↔ s.Seen x) := fun x hx => by simp [hscanned, hx]
      have hpush := todo_push (j := j) hstep hchild (fun h => hchildNew ((hseen child).mp h)) hne
      exact ⟨.entered hinv (List.forall_mem_cons.mpr ⟨hj, hpos⟩),
        List.forall_mem_cons.mpr ⟨hchild, List.forall_mem_cons.mpr ⟨hn, hrest⟩⟩, hpush, hscanned⟩

/-- The loop ends with an empty work stack, and numbers the nodes it was
started for, and no others than there are. -/
theorem loop_spec {nodes : List ν} (hnodes : ∀ x ∈ nodes, ∀ y ∈ children x, y ∈ nodes) :
    ∀ (fuel : Nat) (work : List (ν × Nat)) (s : State ν), Head children s work →
      (∀ f ∈ work, f.1 ∈ nodes) → todo nodes work s ≤ fuel →
      Inv children (loop children fuel work s) [] none
        ∧ (∀ x, s.Seen x → (loop children fuel work s).Seen x)
        ∧ (∀ f ∈ work, (loop children fuel work s).Seen f.1)
        ∧ ∀ x, (loop children fuel work s).Seen x → s.Seen x ∨ x ∈ nodes := by
  intro fuel
  induction fuel with
  | zero =>
    intro work s hhead hwork hfuel
    have hnil : work = [] := by
      unfold todo at hfuel
      exact List.eq_nil_of_length_eq_zero (by omega)
    subst hnil
    cases hhead with
    | resumed hi _ => exact ⟨hi, fun _ h => h, by simp, fun _ => .inl⟩
  | succ fuel ih =>
    intro work s hhead hwork hfuel
    cases work with
    | nil =>
      cases hhead with
      | resumed hi _ => exact ⟨hi, fun _ h => h, by simp, fun _ => .inl⟩
    | cons f rest =>
      obtain ⟨n, i⟩ := f
      obtain ⟨hround, hwork', htodo, hseen⟩ := round_spec hnodes hhead hwork
      rw [loop_cons]
      obtain ⟨hinv, hkeep, _, hnew⟩ := ih _ _ hround hwork' (by omega)
      have hold : ∀ x, s.Seen x → (loop children fuel (round children n i rest s).1
          (round children n i rest s).2).Seen x := fun x hx => hkeep x ((hseen x).mpr (.inr hx))
      refine ⟨hinv, hold, fun f hf => ?_, fun x hx => ?_⟩
      · rcases List.mem_cons.mp hf with rfl | hf
        · exact hkeep n ((hseen n).mpr (.inl rfl))
        · exact hold f.1 (hhead.seen_rest f hf)
      · rcases hnew x hx with hx | hx
        · rcases (hseen x).mp hx with rfl | hx
          · exact .inr (hwork (x, i) (List.mem_cons_self ..))
          · exact .inl hx
        · exact .inr hx

/-- The frame of a root that has no number. -/
theorem Head.root (hi : Inv children s [] none) {root : ν} (hnew : ¬ s.Seen root) :
    Head children s [(root, 0)] := by
  refine .entered ⟨hi.stackSeen, hi.idxLt, hi.sorted, hi.frameStack, hi.frameSorted, ?_,
    hi.reach, hi.back, ?_, hi.lowOf, hi.covered, hi.closed, hi.resultIff, hi.resultNodup,
    hi.classes⟩ (by simp)
  · intro c hc
    obtain rfl := Option.some.inj hc
    exact ⟨hnew, by simp⟩
  · intro x hx
    rw [hi.stack_eq_nil] at hx
    simp at hx

theorem todo_root (nodes : List ν) (s : State ν) (root : ν) :
    todo nodes [(root, 0)] s ≤ 2 * nodes.length + 1 := by
  have hcard := (Finset.card_filter_le nodes.toFinset fun x =>
    ¬ s.Seen x ∧ x ∉ [(root, 0)].map Prod.fst).trans (List.toFinset_card_le nodes)
  unfold todo
  simp only [List.length_singleton]
  omega

/-- The loop over the roots numbers them, and no others than there are. -/
theorem run_spec {nodes : List ν} (hnodes : ∀ x ∈ nodes, ∀ y ∈ children x, y ∈ nodes) :
    ∀ (roots : List ν) (s : State ν), (∀ r ∈ roots, r ∈ nodes) → Inv children s [] none →
      Inv children (run children nodes roots s) [] none
        ∧ (∀ x, s.Seen x → (run children nodes roots s).Seen x)
        ∧ (∀ r ∈ roots, (run children nodes roots s).Seen r)
        ∧ ∀ x, (run children nodes roots s).Seen x → s.Seen x ∨ x ∈ nodes
  | [], s, _, hi => ⟨hi, fun _ h => h, by simp, fun _ => .inl⟩
  | root :: roots, s, hroots, hi => by
      have hrest : ∀ r ∈ roots, r ∈ nodes := fun r hr => hroots r (List.mem_cons_of_mem _ hr)
      rw [run]
      by_cases hseen : s.Seen root
      · rw [if_pos hseen]
        obtain ⟨h1, h2, h3, h4⟩ := run_spec hnodes roots s hrest hi
        refine ⟨h1, h2, fun r hr => ?_, h4⟩
        rcases List.mem_cons.mp hr with rfl | hr
        · exact h2 r hseen
        · exact h3 r hr
      · rw [if_neg hseen]
        have hroot : ∀ f ∈ [(root, 0)], f.1 ∈ nodes := by
          intro f hf
          obtain rfl := List.mem_singleton.mp hf
          exact hroots _ (List.mem_cons_self ..)
        obtain ⟨l1, l2, l3, l4⟩ :=
          loop_spec hnodes _ _ s (.root hi hseen) hroot (todo_root nodes s root)
        obtain ⟨h1, h2, h3, h4⟩ := run_spec hnodes roots _ hrest l1
        refine ⟨h1, fun x hx => h2 x (l2 x hx), fun r hr => ?_, fun x hx => ?_⟩
        · rcases List.mem_cons.mp hr with rfl | hr
          · exact h2 r (l3 (r, 0) (List.mem_singleton_self _))
          · exact h3 r hr
        · exact (h4 x hx).elim (l4 x) .inr

/-- **Tarjan's algorithm is correct**: the components it returns are
non-empty, list every node exactly once, and are the classes of mutual
reachability. -/
theorem components_correct {nodes : List ν}
    (hnodes : ∀ x ∈ nodes, ∀ y ∈ children x, y ∈ nodes) :
    (components children nodes).flatten.Nodup
      ∧ (∀ x ∈ nodes, x ∈ (components children nodes).flatten)
      ∧ ∀ C ∈ components children nodes, C ≠ [] ∧
        ∀ x ∈ C, ∀ z, z ∈ C ↔ Reach children x z ∧ Reach children z x := by
  obtain ⟨hi, _, hseen, _⟩ := run_spec hnodes nodes .init (fun _ h => h) inv_init
  refine ⟨hi.resultNodup, fun x hx => (hi.resultIff x).mpr ⟨hseen x hx, ?_⟩, hi.classes⟩
  rw [hi.stack_eq_nil]
  simp

/-- They are components of the nodes only. -/
theorem mem_of_mem_components {nodes : List ν}
    (hnodes : ∀ x ∈ nodes, ∀ y ∈ children x, y ∈ nodes) {C : List ν}
    (hC : C ∈ components children nodes) {x : ν} (hx : x ∈ C) : x ∈ nodes := by
  obtain ⟨hi, _, _, hnew⟩ := run_spec hnodes nodes .init (fun _ h => h) inv_init
  have hdone := (hi.resultIff x).mp (List.mem_flatten_of_mem hC hx)
  exact (hnew x hdone.1).resolve_left (not_seen_init x)

end Tarjan

end Library
