/-
FprimeTopologyAnalysis.Library.Levels — the levels of a breadth-first
search.

Such a search keeps the nodes it has met and a queue of those among them
that it has not expanded. `Levels` is its invariant, with the level a node
was met at: the queue is sorted by level and spans at most two, what is
expanded lies no deeper than the queue, and its successors are met at most
one level below it. `Levels.start` and `Levels.expand` are the two
transitions.

Two facts follow from it at any moment of the search. A node that is
reached in `k` steps and is not yet expanded lies behind a queue whose head
has level at most `k` (`Levels.head_le`); so whatever the search finds at
the head of its queue it finds at its least distance. And once the queue is
empty every node that is reached is expanded (`Levels.exhausted`).
-/
import Mathlib.Data.List.Nodup
import Mathlib.Order.Nat

namespace Library

universe u

variable {ν : Type u}

/-- A node is reached from a root in so many steps. -/
inductive ReachedIn (step : ν → ν → Prop) (root : ν → Prop) : Nat → ν → Prop
  | root {n : ν} : root n → ReachedIn step root 0 n
  | step {k : Nat} {n m : ν} : ReachedIn step root k n → step n m → ReachedIn step root (k + 1) m

/-- The nodes met, each at a level, and the queue of those not expanded. -/
structure Levels (step : ν → ν → Prop) (root : ν → Prop) (level : ν → Nat) (met : ν → Prop)
    (queue : List ν) : Prop where
  roots : ∀ n, root n → met n ∧ level n = 0
  queued : ∀ n ∈ queue, met n
  sorted : queue.Pairwise fun n m => level n ≤ level m
  near : ∀ n ∈ queue, ∀ m ∈ queue, level m ≤ level n + 1
  behind : ∀ n, met n → n ∉ queue → ∀ m ∈ queue, level n ≤ level m
  closed : ∀ n, met n → n ∉ queue → ∀ m, step n m → met m ∧ level m ≤ level n + 1

namespace Levels

variable {step : ν → ν → Prop} {root : ν → Prop} {level : ν → Nat} {met : ν → Prop}
  {queue : List ν}

/-- A search starts with its roots. -/
theorem start (hqueue : ∀ n, met n ↔ n ∈ queue) (hroots : ∀ n, root n → n ∈ queue) :
    Levels step root (fun _ => 0) met queue where
  roots n hn := ⟨(hqueue n).mpr (hroots n hn), rfl⟩
  queued n hn := (hqueue n).mpr hn
  sorted := List.pairwise_of_forall fun _ _ => le_rfl
  near _ _ _ _ := Nat.zero_le _
  behind n hn hout := absurd ((hqueue n).mp hn) hout
  closed n hn hout := absurd ((hqueue n).mp hn) hout

/-- Once the head is expanded too, nothing expanded is above it. -/
theorem le_head {n x : ν} (h : Levels step root level met (n :: queue)) (hx : met x)
    (hout : x ∉ queue) : level x ≤ level n := by
  by_cases hxn : x = n
  · rw [hxn]
  · have hxout : x ∉ n :: queue := fun hmem => hout ((List.mem_cons.mp hmem).resolve_left hxn)
    exact h.behind x hx hxout n (List.mem_cons_self ..)

/-- Nothing that has been met is more than one level below the head. -/
theorem le_head_succ {n x : ν} (h : Levels step root level met (n :: queue)) (hx : met x) :
    level x ≤ level n + 1 := by
  by_cases hq : x ∈ n :: queue
  · exact h.near n (List.mem_cons_self ..) x hq
  · exact Nat.le_succ_of_le (h.behind x hx hq n (List.mem_cons_self ..))

/-- The head of the queue is expanded: its successors that are new go to
the end of the queue, one level below it. -/
theorem expand {n : ν} {new : List ν} {level' : ν → Nat}
    (h : Levels step root level met (n :: queue)) (hsucc : ∀ m, step n m → met m ∨ m ∈ new)
    (hold : ∀ x, met x → level' x = level x) (hadded : ∀ x ∈ new, level' x = level n + 1) :
    Levels step root level' (fun x => met x ∨ x ∈ new) (queue ++ new) := by
  have hmet : ∀ x ∈ queue, met x := fun x hx => h.queued x (List.mem_cons_of_mem _ hx)
  have hhead : ∀ x ∈ queue, level n ≤ level x := (List.pairwise_cons.mp h.sorted).1
  have hspan : ∀ x ∈ queue, level x ≤ level n + 1 := fun x hx => h.le_head_succ (hmet x hx)
  exact {
    roots := by
      intro x hx
      obtain ⟨hxmet, hzero⟩ := h.roots x hx
      exact ⟨.inl hxmet, (hold x hxmet).trans hzero⟩
    queued := by
      intro x hx
      exact (List.mem_append.mp hx).imp_left (hmet x)
    sorted := by
      refine List.pairwise_append.mpr ⟨?_, ?_, fun x hx y hy => ?_⟩
      · refine (List.pairwise_cons.mp h.sorted).2.imp_of_mem fun hx hy hle => ?_
        rw [hold _ (hmet _ hx), hold _ (hmet _ hy)]
        exact hle
      · exact List.pairwise_of_forall_mem_list fun x hx y hy => by rw [hadded x hx, hadded y hy]
      · rw [hold x (hmet x hx), hadded y hy]
        exact hspan x hx
    near := by
      -- all of the queue is at the level of its old head, or one below
      have hrange : ∀ x ∈ queue ++ new, level n ≤ level' x ∧ level' x ≤ level n + 1 := by
        intro x hx
        rcases List.mem_append.mp hx with hx | hx
        · rw [hold x (hmet x hx)]
          exact ⟨hhead x hx, hspan x hx⟩
        · rw [hadded x hx]
          exact ⟨Nat.le_succ _, le_rfl⟩
      intro x hx y hy
      have hlow := (hrange x hx).1
      have hhigh := (hrange y hy).2
      omega
    behind := by
      intro x hx hout y hy
      have hxmet : met x := hx.resolve_right fun hmem => hout (List.mem_append_right _ hmem)
      have hxle : level x ≤ level n :=
        h.le_head hxmet fun hmem => hout (List.mem_append_left _ hmem)
      rw [hold x hxmet]
      rcases List.mem_append.mp hy with hy | hy
      · rw [hold y (hmet y hy)]
        exact hxle.trans (hhead y hy)
      · rw [hadded y hy]
        exact Nat.le_succ_of_le hxle
    closed := by
      intro x hx hout y hxy
      have hxmet : met x := hx.resolve_right fun hmem => hout (List.mem_append_right _ hmem)
      rw [hold x hxmet]
      by_cases hxn : x = n
      · subst hxn
        refine ⟨hsucc y hxy, ?_⟩
        by_cases hy : y ∈ new
        · rw [hadded y hy]
        · have hymet := (hsucc y hxy).resolve_right hy
          rw [hold y hymet]
          exact h.le_head_succ hymet
      · have hxout : x ∉ n :: queue := fun hmem =>
          hout (List.mem_append_left _ ((List.mem_cons.mp hmem).resolve_left hxn))
        obtain ⟨hymet, hle⟩ := h.closed x hxmet hxout y hxy
        exact ⟨.inl hymet, by rw [hold y hymet]; exact hle⟩ }

/-- A node reached in `k` steps is expanded at a level of at most `k`, or
something at such a level waits in the queue. -/
theorem reached (h : Levels step root level met queue) {k : Nat} {m : ν}
    (hm : ReachedIn step root k m) :
    (met m ∧ m ∉ queue ∧ level m ≤ k) ∨ ∃ q ∈ queue, level q ≤ k := by
  have hmet : ∀ {n k}, met n → level n ≤ k →
      (met n ∧ n ∉ queue ∧ level n ≤ k) ∨ ∃ q ∈ queue, level q ≤ k := by
    intro n k hn hle
    by_cases hq : n ∈ queue
    · exact .inr ⟨n, hq, hle⟩
    · exact .inl ⟨hn, hq, hle⟩
  induction hm with
  | root hroot =>
    obtain ⟨hn, hzero⟩ := h.roots _ hroot
    exact hmet hn hzero.le
  | step _ hstep ih =>
    rcases ih with ⟨hn, hout, hle⟩ | ⟨q, hq, hle⟩
    · obtain ⟨hm, hlevel⟩ := h.closed _ hn hout _ hstep
      exact hmet hm (hlevel.trans (Nat.succ_le_succ hle))
    · exact .inr ⟨q, hq, Nat.le_succ_of_le hle⟩

/-- **The head of the queue is nearest**: no node that is not expanded is
reached in fewer steps. -/
theorem head_le {n : ν} (h : Levels step root level met (n :: queue)) {k : Nat} {m : ν}
    (hm : ReachedIn step root k m) (hopen : met m → m ∈ n :: queue) : level n ≤ k := by
  rcases h.reached hm with ⟨hmet, hout, _⟩ | ⟨q, hq, hle⟩
  · exact absurd (hopen hmet) hout
  · rcases List.mem_cons.mp hq with rfl | hq
    · exact hle
    · exact ((List.pairwise_cons.mp h.sorted).1 q hq).trans hle

/-- **An empty queue means all**: what is reached has been expanded. -/
theorem exhausted (h : Levels step root level met []) {k : Nat} {m : ν}
    (hm : ReachedIn step root k m) : met m := by
  rcases h.reached hm with ⟨hmet, _⟩ | ⟨q, hq, _⟩
  · exact hmet
  · simp at hq

end Levels

end Library
