/-
FprimeTopologyAnalysis.Library.Agenda — a thread that carries out what a
search follows.

A search problem reads a program: the hops of a node are the calls its body
makes. An agenda is what a thread has still to do, innermost first: nodes to
run, and calls to make. A body makes each of its calls at most once, in any
order and not always, and a call runs some of the nodes behind it.

* `Step.weight_le` — where walks are bounded, no run makes more calls of a
  sort than there are departures;
* `exists_runs` — some run makes as many as the search meets.
-/
import FprimeTopologyAnalysis.Library.Walks
import Mathlib.Algebra.Order.BigOperators.Group.List

namespace Library

universe u

namespace Agenda

open SimplePaths Walks

variable {ν η ε : Type u}

/-! ## The machine -/

/-- What a thread has to do. -/
inductive Task (ν η : Type u) where
  | run (n : ν)
  | call (h : η)

variable (P : Problem ν η ε)

/-- One step, with the call it makes. A node may be left without a call. -/
inductive Step : List (Task ν η) → Option η → List (Task ν η) → Prop
  | pass {n : ν} {rest : List (Task ν η)} : Step (.run n :: rest) none rest
  | enter {n : ν} {hs calls : List η} {rest : List (Task ν η)} : P.hops n = .ok hs →
      calls.Subperm hs → Step (.run n :: rest) none (calls.map .call ++ rest)
  | make {h : η} {nodes : List ν} {rest : List (Task ν η)} : nodes.Subperm (P.next h) →
      Step (.call h :: rest) (some h) (nodes.map .run ++ rest)

/-- Steps, with the calls they make in order. -/
inductive Runs : List (Task ν η) → List η → List (Task ν η) → Prop
  | refl (todo : List (Task ν η)) : Runs todo [] todo
  | step {todo todo' todo'' : List (Task ν η)} {made : Option η} {calls : List η} :
      Step P todo made todo' → Runs todo' calls todo'' → Runs todo (made.toList ++ calls) todo''

variable {P}

theorem Runs.trans {todo todo' todo'' : List (Task ν η)} {calls calls' : List η}
    (h : Runs P todo calls todo') (h' : Runs P todo' calls' todo'') :
    Runs P todo (calls ++ calls') todo'' := by
  induction h with
  | refl todo => exact h'
  | step hstep _ ih =>
    rw [List.append_assoc]
    exact .step hstep (ih h')

/-! ## No run makes more calls than there are departures -/

section Bounds

variable (P) in
/-- The walks from what is to be run are bounded. -/
def Task.Bounded : Task ν η → Prop
  | .run n => ∃ k, Within P n k
  | .call h => ∀ m ∈ P.next h, ∃ k, Within P m k

variable (P) in
/-- The departures from a node. -/
noncomputable def reach (good : η → Bool) (n : ν) : Nat := (Departs P good n).ncard

variable (P) in
/-- The calls that a task can lead to. -/
noncomputable def Task.weight (good : η → Bool) : Task ν η → Nat
  | .run n => reach P good n
  | .call h => (if good h then 1 else 0) + ((P.next h).map (reach P good)).sum

variable (P) in
noncomputable def weight (good : η → Bool) (todo : List (Task ν η)) : Nat :=
  (todo.map (Task.weight P good)).sum

/-- The departures from a node are those of its calls. -/
theorem reach_eq (good : η → Bool) {n : ν} {k : Nat} {hs : List η} (hwithin : Within P n k)
    (hok : P.hops n = .ok hs) :
    reach P good n = (hs.map fun h => Task.weight P good (.call h)).sum := by
  have hnode : ∀ h ∈ hs, ∀ m ∈ P.next h, (departures P good k m).length = reach P good m := by
    intro h hh m hm
    obtain ⟨i, j, htakes⟩ := exists_takes_iff.mpr ⟨hs, hok, hh, hm⟩
    cases k with
    | zero => exact absurd htakes hwithin.not_takes
    | succ k => exact (ncard_departs (hwithin.of_takes htakes)).symm
  rw [reach, ncard_departs hwithin, departures, hok]
  refine length_flatMap_zipIdx _ _ _ fun h hh => ?_
  have hmem : h.1 ∈ hs := List.fst_mem_of_mem_zipIdx hh
  rw [List.length_append, length_flatMap_zipIdx _ _ (reach P good)]
  · simp only [Task.weight]
    split <;> rfl
  · intro m hm
    rw [List.length_map, hnode _ hmem _ (List.fst_mem_of_mem_zipIdx hm)]

/-- A step keeps the walks bounded, and spends what it makes. -/
theorem Step.weight_le {todo todo' : List (Task ν η)} {made : Option η}
    (h : Step P todo made todo') (hb : ∀ t ∈ todo, Task.Bounded P t) (good : η → Bool) :
    (∀ t ∈ todo', Task.Bounded P t)
      ∧ made.toList.countP good + weight P good todo' ≤ weight P good todo := by
  cases h with
  | pass =>
    refine ⟨fun t ht => hb t (List.mem_cons_of_mem _ ht), ?_⟩
    simp [weight]
  | @enter n hs calls rest hok hsub =>
    obtain ⟨hn, hrest⟩ := List.forall_mem_cons.mp hb
    obtain ⟨k, hwithin⟩ := hn
    constructor
    · intro t ht
      rcases List.mem_append.mp ht with ht | ht
      · obtain ⟨h, hh, rfl⟩ := List.mem_map.mp ht
        intro m hm
        obtain ⟨i, j, htakes⟩ := exists_takes_iff.mpr ⟨hs, hok, hsub.subset hh, hm⟩
        cases k with
        | zero => exact absurd htakes hwithin.not_takes
        | succ k => exact ⟨k, hwithin.of_takes htakes⟩
      · exact hrest t ht
    · obtain ⟨calls', hperm, hsublist⟩ := hsub
      have hle : (calls.map fun h => Task.weight P good (.call h)).sum
          ≤ (hs.map fun h => Task.weight P good (.call h)).sum := by
        rw [← (hperm.map _).sum_eq]
        exact (hsublist.map _).sum_le_sum fun _ _ => Nat.zero_le _
      rw [← reach_eq good hwithin hok] at hle
      simpa [weight, Task.weight, Function.comp_def] using hle
  | @make h nodes rest hsub =>
    obtain ⟨hnodes, hrest⟩ := List.forall_mem_cons.mp hb
    constructor
    · intro t ht
      rcases List.mem_append.mp ht with ht | ht
      · obtain ⟨m, hm, rfl⟩ := List.mem_map.mp ht
        exact hnodes m (hsub.subset hm)
      · exact hrest t ht
    · obtain ⟨nodes', hperm, hsublist⟩ := hsub
      have hle : (nodes.map (reach P good)).sum ≤ ((P.next h).map (reach P good)).sum := by
        rw [← (hperm.map _).sum_eq]
        exact (hsublist.map _).sum_le_sum fun _ _ => Nat.zero_le _
      have hsum : weight P good (nodes.map .run ++ rest)
          = (nodes.map (reach P good)).sum + weight P good rest := by
        simp [weight, Task.weight, Function.comp_def]
      rw [hsum]
      simp only [weight, Task.weight, List.map_cons, List.sum_cons, Option.toList_some,
        List.countP_cons, List.countP_nil]
      omega

end Bounds

/-! ## Some run makes as many as the search meets -/

section Search

/-- The calls of a loop's rounds, one round after the other. -/
theorem runs_collect {α : Type u} {f : α → Except ε (List (Event ν η))} {task : α → Task ν η}
    (good : η → Bool) :
    ∀ {xs : List α} {es : List (Event ν η)}, collect f xs = .ok es →
      (∀ x ∈ xs, ∀ ys, f x = .ok ys → ∀ rest, ∃ calls, Runs P (task x :: rest) calls rest
        ∧ calls.countP good = ys.countP (leaves good)) →
      ∀ rest, ∃ calls, Runs P (xs.map task ++ rest) calls rest
        ∧ calls.countP good = es.countP (leaves good)
  | [], es, h, _, rest => by
      obtain rfl : [] = es := by simpa [collect] using h
      exact ⟨[], .refl _, rfl⟩
  | x :: xs, es, h, hround, rest => by
      rw [collect] at h
      cases hx : f x with
      | error e => simp [hx] at h
      | ok ys =>
        cases hxs : collect f xs with
        | error e => simp [hx, hxs] at h
        | ok zs =>
          obtain rfl : ys ++ zs = es := by simpa [hx, hxs] using h
          obtain ⟨calls, hruns, hcount⟩ :=
            hround x (List.mem_cons_self ..) ys hx (xs.map task ++ rest)
          obtain ⟨calls', hruns', hcount'⟩ :=
            runs_collect good hxs (fun y hy => hround y (List.mem_cons_of_mem _ hy)) rest
          refine ⟨calls ++ calls', hruns.trans hruns', ?_⟩
          rw [List.countP_append, List.countP_append, hcount, hcount']

/-- **A run that makes every call the search meets.** -/
theorem exists_runs [DecidableEq ν] (good : η → Bool) : ∀ {k : Nat} {p : Point ν η} {es : List (Event ν η)},
    events P k p = .ok es → ∀ rest, ∃ calls, Runs P (.run p.node :: rest) calls rest
      ∧ calls.countP good = es.countP (leaves good)
  | 0, p, es, h, rest => by
      refine ⟨[], .step .pass (.refl _), ?_⟩
      obtain rfl := Except.ok.inj h
      by_cases hc : p.Closed <;> simp [hc, leaves]
  | k + 1, p, es, h, rest => by
      by_cases hc : p.Closed
      · obtain rfl := Except.ok.inj (h.symm.trans (events_closed hc))
        exact ⟨[], .step .pass (.refl _), by simp [leaves]⟩
      · cases hok : P.hops p.node with
        | error e => simp [events, hc, hok] at h
        | ok hs =>
          rw [events_open hc hok] at h
          -- one call: it is made, and then what is behind it is run
          have hcall : ∀ hop ∈ hs, ∀ ys,
              (collect (fun m => events P k (p.enter hop m)) (P.next hop)).map
                (Event.hop p hop :: ·) = .ok ys →
              ∀ rest, ∃ calls, Runs P (.call hop :: rest) calls rest
                ∧ calls.countP good = ys.countP (leaves good) := by
            intro hop _ ys hys rest
            obtain ⟨zs, hzs, rfl⟩ := map_eq_ok_iff.mp hys
            obtain ⟨calls, hruns, hcount⟩ := runs_collect good hzs
              (fun m _ ws hws rest => exists_runs good hws rest) rest
            refine ⟨hop :: calls, .step (.make (List.Subperm.refl _)) hruns, ?_⟩
            rw [List.countP_cons, List.countP_cons, hcount]
            rfl
          obtain ⟨calls, hruns, hcount⟩ := runs_collect good h hcall rest
          exact ⟨calls, .step (.enter hok (List.Subperm.refl _)) hruns, hcount⟩

end Search

end Agenda

end Library
