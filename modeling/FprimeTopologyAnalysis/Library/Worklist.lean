/-
FprimeTopologyAnalysis.Library.Worklist — flooding with a worklist.

`run` pops nodes off a stack, skips the ones it has seen, and otherwise
applies the node's effect to a state and pushes its successors. Expanding
a node may raise, which ends the run and keeps the state reached so far.

`Take` is the same loop with the order left open: any waiting entry may be
taken next, and successors that have been seen may be left out.

The rules:

* `take_terminates` — the loop comes to an end, whatever is taken;
* `takes_spec` — when nothing waits any more exactly the reachable nodes
  have been seen, and what each of them preserves when it is first seen
  holds; `endsIn_of_spec` puts the two together;
* `run_takes` — a run that ends well is such a loop, so it has expanded
  every reachable node (`run_complete`);
* `run_inv` — what the effect of every reachable node preserves holds
  after any run, raising runs included;
* `run_error` — a run that raises met a reachable node that raises;
* `run_ok_iff` — so a run ends well exactly when no reachable node raises.

The loop has no bound of its own. `run` takes fuel, and `fuelFor` is
enough of it: every pop either shortens the stack or turns the pushes of
an unseen node into pushes already made.
-/
import Mathlib.Logic.Relation
import Mathlib.Data.Finset.Card
import Mathlib.Algebra.GroupWithZero.Nat
import Mathlib.Algebra.Order.BigOperators.Group.Finset

namespace Library

universe u

namespace Worklist

variable {ν ε σ : Type u}

/-- What the loop does at a node: raise, or name successors and an effect. -/
abbrev Expand (ν ε σ : Type u) := ν → Except ε (List ν × (σ → σ))

variable (expand : Expand ν ε σ)

/-- How many nodes expanding `n` pushes. -/
def pushes (n : ν) : Nat :=
  match expand n with
  | .error _ => 0
  | .ok r => r.1.length

/-- Enough fuel for a flood from `roots` inside `all`. -/
def fuelFor (all roots : List ν) : Nat := roots.length + (all.map (pushes expand)).sum + 1

/-- One step of the flood. -/
def Step (n m : ν) : Prop := ∃ r, expand n = .ok r ∧ m ∈ r.1

/-- The nodes a flood from `roots` comes to. -/
def Reach (roots : List ν) (n : ν) : Prop :=
  ∃ root ∈ roots, Relation.ReflTransGen (Step expand) root n

variable {expand} in
theorem Reach.root {roots : List ν} {n : ν} (h : n ∈ roots) : Reach expand roots n :=
  ⟨n, h, .refl⟩

variable {expand} in
theorem Reach.step {roots : List ν} {n m : ν} (h : Reach expand roots n)
    (hs : Step expand n m) : Reach expand roots m := by
  obtain ⟨root, hroot, hn⟩ := h
  exact ⟨root, hroot, hn.tail hs⟩

variable [DecidableEq ν]

/-- The loop. The stack is a list whose head is the top; a node's
successors are pushed in order. -/
def run : Nat → List ν → Finset ν → σ → Except ε Unit × σ
  | 0, _, _, s => (.ok (), s)
  | _ + 1, [], _, s => (.ok (), s)
  | fuel + 1, n :: rest, seen, s =>
    if n ∈ seen then run fuel rest seen s
    else
      match expand n with
      | .error e => (.error e, s)
      | .ok r => run fuel (r.1.reverse ++ rest) (insert n seen) (r.2 s)

/-! ## Taking the entries in any order -/

/-- Entries waiting, nodes seen, and the state. -/
abbrev Config (ν σ : Type u) := Multiset ν × Finset ν × σ

/-- One round of the loop. A node that is new is expanded; of its
successors those that have been seen need not be pushed. -/
inductive Take (expand : Expand ν ε σ) : Config ν σ → Config ν σ → Prop
  | old {n : ν} {rest : Multiset ν} {seen : Finset ν} {s : σ} :
      n ∈ seen → Take expand (n ::ₘ rest, seen, s) (rest, seen, s)
  | new {n : ν} {rest pushed : Multiset ν} {seen : Finset ν} {s : σ} {r : List ν × (σ → σ)} :
      n ∉ seen → expand n = .ok r → pushed ≤ r.1 → (∀ m ∈ r.1, m ∈ pushed ∨ m ∈ insert n seen) →
      Take expand (n ::ₘ rest, seen, s) (pushed + rest, insert n seen, r.2 s)

/-- Any number of rounds. -/
abbrev Takes (expand : Expand ν ε σ) : Config ν σ → Config ν σ → Prop :=
  Relation.ReflTransGen (Take expand)

/-- Where a flood starts. -/
def start (roots : List ν) (s : σ) : Config ν σ := (roots, ∅, s)

/-- Whatever is taken in each round, the loop comes to an end, never gets
stuck before nothing waits, and ends with a state that satisfies `P`. -/
structure EndsIn (expand : Expand ν ε σ) (roots : List ν) (s : σ) (P : σ → Prop) : Prop where
  terminates : Acc (fun c' c => Take expand c c') (start roots s)
  progress : ∀ c, Takes expand (start roots s) c → c.1 ≠ 0 → ∃ c', Take expand c c'
  result : ∀ seen s', Takes expand (start roots s) (0, seen, s') → P s'

variable {expand}

/-! ## Invariants of a run -/

/-- **Soundness rule**: what the effects of reachable nodes preserve holds
after any run. -/
theorem run_inv (roots : List ν) (I : σ → Prop)
    (hI : ∀ n r s, Reach expand roots n → expand n = .ok r → I s → I (r.2 s)) :
    ∀ fuel stack seen s, (∀ n ∈ stack, Reach expand roots n) → I s →
      I (run expand fuel stack seen s).2 := by
  intro fuel
  induction fuel with
  | zero => intro stack seen s _ hs; exact hs
  | succ fuel ih =>
    intro stack seen s hstack hs
    cases stack with
    | nil => exact hs
    | cons n rest =>
      have hrest : ∀ m ∈ rest, Reach expand roots m :=
        fun m hm => hstack m (List.mem_cons_of_mem _ hm)
      have hn := hstack n (List.mem_cons_self ..)
      rw [run]
      split
      · exact ih rest seen s hrest hs
      · cases hexp : expand n with
        | error e => exact hs
        | ok r =>
          refine ih _ _ _ ?_ (hI n r s hn hexp hs)
          intro m hm
          rcases List.mem_append.mp hm with hm | hm
          · exact hn.step ⟨r, hexp, List.mem_reverse.mp hm⟩
          · exact hrest m hm

/-- A run that raises met a reachable node that raises. -/
theorem run_error (roots : List ν) {e : ε} :
    ∀ fuel stack seen (s s' : σ), (∀ n ∈ stack, Reach expand roots n) →
      run expand fuel stack seen s = (.error e, s') →
      ∃ n, Reach expand roots n ∧ expand n = .error e := by
  intro fuel
  induction fuel with
  | zero => intro stack seen s s' _ h; simp [run] at h
  | succ fuel ih =>
    intro stack seen s s' hstack h
    cases stack with
    | nil => simp [run] at h
    | cons n rest =>
      have hrest : ∀ m ∈ rest, Reach expand roots m :=
        fun m hm => hstack m (List.mem_cons_of_mem _ hm)
      have hn := hstack n (List.mem_cons_self ..)
      rw [run] at h
      split at h
      · exact ih rest seen s s' hrest h
      · cases hexp : expand n with
        | error e' =>
          rw [hexp] at h
          simp only [Prod.mk.injEq, Except.error.injEq] at h
          exact ⟨n, hn, by rw [hexp, h.1]⟩
        | ok r =>
          rw [hexp] at h
          refine ih _ _ _ s' ?_ h
          intro m hm
          rcases List.mem_append.mp hm with hm | hm
          · exact hn.step ⟨r, hexp, List.mem_reverse.mp hm⟩
          · exact hrest m hm

/-! ## Termination -/

/-- Fuel still owed: the stack, and the pushes of the nodes not yet seen. -/
def owed (expand : Expand ν ε σ) (all : Finset ν) (stack : List ν) (seen : Finset ν) : Nat :=
  stack.length + ∑ n ∈ all \ seen, pushes expand n

private theorem sum_toFinset_le (f : ν → Nat) (l : List ν) :
    ∑ n ∈ l.toFinset, f n ≤ (l.map f).sum := by
  induction l with
  | nil => simp
  | cons a l ih =>
    rw [List.toFinset_cons, List.map_cons, List.sum_cons]
    by_cases ha : a ∈ l.toFinset
    · rw [Finset.insert_eq_of_mem ha]
      omega
    · rw [Finset.sum_insert ha]
      omega

theorem owed_insert {all seen : Finset ν} {n : ν} (hn : n ∈ all) (hseen : n ∉ seen)
    (rest pushed : List ν) (hpush : pushed.length = pushes expand n) :
    owed expand all (pushed ++ rest) (insert n seen) + 1 = owed expand all (n :: rest) seen := by
  have hsplit : all \ seen = insert n (all \ insert n seen) := by
    ext m
    by_cases hm : m = n
    · simp [hm, hn, hseen]
    · simp [hm]
  have hnot : n ∉ all \ insert n seen := by simp
  unfold owed
  rw [hsplit, Finset.sum_insert hnot, List.length_append, List.length_cons, hpush]
  omega

/-- The reachable nodes of a finite set, with the fuel for them. -/
theorem exists_live {all roots : List ν} (hall : ∀ n, Reach expand roots n → n ∈ all) :
    ∃ live : Finset ν, (∀ n, n ∈ live ↔ Reach expand roots n)
      ∧ owed expand live roots ∅ < fuelFor expand all roots := by
  classical
  refine ⟨all.toFinset.filter (Reach expand roots), fun n => ?_, ?_⟩
  · rw [Finset.mem_filter, List.mem_toFinset]
    exact ⟨And.right, fun hn => ⟨hall n hn, hn⟩⟩
  · have hsub : ∑ n ∈ all.toFinset.filter (Reach expand roots) \ ∅, pushes expand n
        ≤ ∑ n ∈ all.toFinset, pushes expand n := by
      refine Finset.sum_le_sum_of_subset ?_
      rw [Finset.sdiff_empty]
      exact Finset.filter_subset _ _
    have hsum := le_trans hsub (sum_toFinset_le (pushes expand) all)
    unfold owed fuelFor
    omega

/-- What a configuration still owes. -/
private def debt (expand : Expand ν ε σ) (all : Finset ν) (c : Config ν σ) : Nat :=
  Multiset.card c.1 + ∑ n ∈ all \ c.2.1, pushes expand n

/-- Each round pays. -/
private theorem debt_lt {all : Finset ν} {c c' : Config ν σ} (hall : ∀ n ∈ c.1, n ∈ all)
    (h : Take expand c c') : debt expand all c' < debt expand all c := by
  cases h with
  | old _ => simp [debt]
  | @new n rest pushed seen s r hnew hexp hsub _ =>
    have hn : n ∈ all := hall n (Multiset.mem_cons_self ..)
    have hcard : Multiset.card pushed ≤ pushes expand n := by
      have hle := Multiset.card_le_card hsub
      simpa [pushes, hexp] using hle
    have howed := @owed_insert ν ε σ expand _ all _ n hn hnew rest.toList
      (List.replicate (pushes expand n) n) (by simp)
    simp only [owed, List.length_append, List.length_replicate, List.length_cons,
      Multiset.length_toList] at howed
    simp only [debt, Multiset.card_add, Multiset.card_cons]
    omega

/-- **The loop comes to an end**, as long as it stays inside a finite set. -/
theorem take_terminates {all : Finset ν}
    (hclosed : ∀ n ∈ all, ∀ r, expand n = .ok r → ∀ m ∈ r.1, m ∈ all) :
    ∀ c : Config ν σ, (∀ n ∈ c.1, n ∈ all) → Acc (fun c' c => Take expand c c') c := by
  suffices hgen : ∀ k c, debt expand all c ≤ k → (∀ n ∈ c.1, n ∈ all) →
      Acc (fun c' c => Take expand c c') c from
    fun c hc => hgen _ c le_rfl hc
  intro k
  induction k with
  | zero =>
    intro c hk hc
    exact .intro c fun c' h => absurd (debt_lt hc h) (by omega)
  | succ k ih =>
    intro c hk hc
    refine .intro c fun c' h => ih c' (by have := debt_lt hc h; omega) ?_
    cases h with
    | old _ => exact fun m hm => hc m (Multiset.mem_cons_of_mem hm)
    | new _ hexp hsub _ =>
      intro m hm
      rcases Multiset.mem_add.mp hm with hm | hm
      · exact hclosed _ (hc _ (Multiset.mem_cons_self ..)) _ hexp m
          (Multiset.mem_coe.mp (Multiset.mem_of_le hsub hm))
      · exact hc m (Multiset.mem_cons_of_mem hm)

/-! ## What the loop ends with -/

/-- What has been seen or waits: it is reachable, the successors of what
has been seen are there too, and the invariant holds of the seen. -/
private structure Explored (expand : Expand ν ε σ) (roots : List ν) (I : Finset ν → σ → Prop)
    (c : Config ν σ) : Prop where
  waiting : ∀ n ∈ c.1, Reach expand roots n
  seen : ∀ n ∈ c.2.1, Reach expand roots n
  roots : ∀ n ∈ roots, n ∈ c.2.1 ∨ n ∈ c.1
  closed : ∀ n ∈ c.2.1, ∀ m, Step expand n m → m ∈ c.2.1 ∨ m ∈ c.1
  inv : I c.2.1 c.2.2

private theorem Explored.take {roots : List ν} {I : Finset ν → σ → Prop}
    (hI : ∀ n r seen s, Reach expand roots n → n ∉ seen → expand n = .ok r → I seen s →
      I (insert n seen) (r.2 s))
    {c c' : Config ν σ} (hc : Explored expand roots I c) (h : Take expand c c') :
    Explored expand roots I c' := by
  cases h with
  | @old n rest seen s hold =>
    -- a waiting node that has been seen is only dropped
    have hdrop : ∀ {m : ν}, m ∈ seen ∨ m ∈ n ::ₘ rest → m ∈ seen ∨ m ∈ rest := by
      intro m hm
      rcases hm with hm | hm
      · exact .inl hm
      · rcases Multiset.mem_cons.mp hm with rfl | hm
        · exact .inl hold
        · exact .inr hm
    exact {
      waiting := fun m hm => hc.waiting m (Multiset.mem_cons_of_mem hm)
      seen := hc.seen
      roots := fun m hm => hdrop (hc.roots m hm)
      closed := fun m hm x hx => hdrop (hc.closed m hm x hx)
      inv := hc.inv }
  | @new n rest pushed seen s r hnew hexp hsub hall =>
    have hreach := hc.waiting n (Multiset.mem_cons_self ..)
    have hkeep : ∀ {m : ν}, m ∈ seen ∨ m ∈ n ::ₘ rest → m ∈ insert n seen ∨ m ∈ pushed + rest := by
      intro m hm
      rcases hm with hm | hm
      · exact .inl (Finset.mem_insert_of_mem hm)
      · rcases Multiset.mem_cons.mp hm with rfl | hm
        · exact .inl (Finset.mem_insert_self ..)
        · exact .inr (Multiset.mem_add.mpr (.inr hm))
    exact {
      waiting := fun m hm => by
        rcases Multiset.mem_add.mp hm with hm | hm
        · exact hreach.step ⟨r, hexp, Multiset.mem_coe.mp (Multiset.mem_of_le hsub hm)⟩
        · exact hc.waiting m (Multiset.mem_cons_of_mem hm)
      seen := fun m hm => by
        rcases Finset.mem_insert.mp hm with rfl | hm
        · exact hreach
        · exact hc.seen m hm
      roots := fun m hm => hkeep (hc.roots m hm)
      closed := fun m hm x hx => by
        rcases Finset.mem_insert.mp hm with rfl | hm
        · obtain ⟨r', hr', hx⟩ := hx
          obtain rfl : r = r' := by simpa [hexp] using hr'
          rcases hall x hx with hx | hx
          · exact .inr (Multiset.mem_add.mpr (.inl hx))
          · exact .inl hx
        · exact hkeep (hc.closed m hm x hx)
      inv := hI n r seen s hreach hnew hexp hc.inv }

omit [DecidableEq ν] in
private theorem explored_start {roots : List ν} {I : Finset ν → σ → Prop} {s : σ}
    (hs : I ∅ s) : Explored expand roots I (start roots s) where
  waiting n hn := .root (Multiset.mem_coe.mp hn)
  seen n hn := by simp [start] at hn
  roots n hn := .inr (Multiset.mem_coe.mpr hn)
  closed n hn := by simp [start] at hn
  inv := hs

private theorem explored_takes {roots : List ν} {I : Finset ν → σ → Prop}
    (hI : ∀ n r seen s, Reach expand roots n → n ∉ seen → expand n = .ok r → I seen s →
      I (insert n seen) (r.2 s))
    {s : σ} (hs : I ∅ s) {c : Config ν σ} (h : Takes expand (start roots s) c) :
    Explored expand roots I c := by
  induction h with
  | refl => exact explored_start hs
  | tail _ hstep ih => exact ih.take hI hstep

/-- **When nothing waits any more** exactly the reachable nodes have been
seen, and what each of them preserves when it is first seen holds. -/
theorem takes_spec {roots : List ν} (I : Finset ν → σ → Prop)
    (hI : ∀ n r seen s, Reach expand roots n → n ∉ seen → expand n = .ok r → I seen s →
      I (insert n seen) (r.2 s))
    {s s' : σ} {seen : Finset ν} (hs : I ∅ s) (h : Takes expand (start roots s) (0, seen, s')) :
    (∀ n, n ∈ seen ↔ Reach expand roots n) ∧ I seen s' := by
  have hend := explored_takes hI hs h
  refine ⟨fun n => ⟨hend.seen n, ?_⟩, hend.inv⟩
  rintro ⟨root, hroot, hn⟩
  induction hn with
  | refl => exact (hend.roots root hroot).resolve_right (Multiset.notMem_zero _)
  | tail _ hstep ih => exact (hend.closed _ ih _ hstep).resolve_right (Multiset.notMem_zero _)

/-- A loop that no reachable node stops ends as it must, in every order. -/
theorem endsIn_of_spec {all roots : List ν} {s : σ} {P : σ → Prop} (I : Finset ν → σ → Prop)
    (hall : ∀ n, Reach expand roots n → n ∈ all)
    (hok : ∀ n, Reach expand roots n → ∃ r, expand n = .ok r)
    (hI : ∀ n r seen s, Reach expand roots n → n ∉ seen → expand n = .ok r → I seen s →
      I (insert n seen) (r.2 s))
    (hs : I ∅ s)
    (hP : ∀ seen s', (∀ n, n ∈ seen ↔ Reach expand roots n) → I seen s' → P s') :
    EndsIn expand roots s P := by
  refine ⟨?_, ?_, ?_⟩
  · obtain ⟨live, hlive, _⟩ := exists_live hall
    exact take_terminates
      (fun n hn r hr m hm => (hlive m).mpr (((hlive n).mp hn).step ⟨r, hr, hm⟩)) _
      fun n hn => (hlive n).mpr (.root (Multiset.mem_coe.mp hn))
  · rintro ⟨waiting, seen, t⟩ hc hne
    obtain ⟨n, hn⟩ := Multiset.exists_mem_of_ne_zero hne
    obtain ⟨rest, rfl⟩ := Multiset.exists_cons_of_mem hn
    have hreach := (explored_takes hI hs hc).waiting n (Multiset.mem_cons_self ..)
    obtain ⟨r, hr⟩ := hok n hreach
    by_cases hseen : n ∈ seen
    · exact ⟨_, .old hseen⟩
    · exact ⟨_, .new hseen hr le_rfl fun m hm => .inl (Multiset.mem_coe.mpr hm)⟩
  · intro seen s' hend
    obtain ⟨hiff, hinv⟩ := takes_spec I hI hs hend
    exact hP seen s' hiff hinv

/-! ## The loop that takes the entry pushed last -/

/-- An entry is taken, and its successors wait on top of the rest. -/
private theorem take_cons {n : ν} {rest : List ν} {seen : Finset ν} {s : σ} {r : List ν × (σ → σ)}
    (hnew : n ∉ seen) (hexp : expand n = .ok r) :
    Take expand (((n :: rest : List ν) : Multiset ν), seen, s)
      (((r.1.reverse ++ rest : List ν) : Multiset ν), insert n seen, r.2 s) := by
  have hpushed : ((r.1.reverse ++ rest : List ν) : Multiset ν)
      = (r.1 : Multiset ν) + (rest : Multiset ν) := by
    rw [← Multiset.coe_add, Multiset.coe_reverse]
  rw [hpushed, ← Multiset.cons_coe]
  exact .new hnew hexp le_rfl fun m hm => .inl (Multiset.mem_coe.mpr hm)

/-- A run with enough fuel that ends well takes entries until none waits. -/
private theorem run_takes_from (all : Finset ν)
    (hall : ∀ n ∈ all, ∀ r, expand n = .ok r → ∀ m ∈ r.1, m ∈ all) :
    ∀ fuel stack seen (s s' : σ), (∀ n ∈ stack, n ∈ all) → owed expand all stack seen < fuel →
      run expand fuel stack seen s = (.ok (), s') →
      ∃ seen', Takes expand ((stack : Multiset ν), seen, s) (0, seen', s') := by
  intro fuel
  induction fuel with
  | zero => intro stack seen s s' _ hfuel; omega
  | succ fuel ih =>
    intro stack seen s s' hstack hfuel h
    cases stack with
    | nil =>
      simp only [run, Prod.mk.injEq, true_and] at h
      exact ⟨seen, h ▸ .refl⟩
    | cons n rest =>
      have hn := hstack n (List.mem_cons_self ..)
      have hrest : ∀ m ∈ rest, m ∈ all := fun m hm => hstack m (List.mem_cons_of_mem _ hm)
      rw [run] at h
      split at h
      · rename_i hseen
        have howed : owed expand all rest seen < fuel := by
          unfold owed at hfuel ⊢
          rw [List.length_cons] at hfuel
          omega
        obtain ⟨seen', htakes⟩ := ih rest seen s s' hrest howed h
        rw [← Multiset.cons_coe]
        exact ⟨seen', .head (.old hseen) htakes⟩
      · rename_i hseen
        cases hexp : expand n with
        | error e => rw [hexp] at h; simp at h
        | ok r =>
          rw [hexp] at h
          have hpush : r.1.reverse.length = pushes expand n := by simp [pushes, hexp]
          have howed := owed_insert hn hseen rest r.1.reverse hpush
          have hstack' : ∀ m ∈ r.1.reverse ++ rest, m ∈ all := by
            intro m hm
            rcases List.mem_append.mp hm with hm | hm
            · exact hall n hn r hexp m (List.mem_reverse.mp hm)
            · exact hrest m hm
          obtain ⟨seen', htakes⟩ := ih _ _ _ s' hstack' (by omega) h
          exact ⟨seen', .head (take_cons hseen hexp) htakes⟩

/-- **`run` is one of these loops.** -/
theorem run_takes {all roots : List ν} (hall : ∀ n, Reach expand roots n → n ∈ all) {s s' : σ}
    (h : run expand (fuelFor expand all roots) roots ∅ s = (.ok (), s')) :
    ∃ seen, Takes expand (start roots s) (0, seen, s') := by
  obtain ⟨live, hlive, hfuel⟩ := exists_live hall
  exact run_takes_from live
    (fun n hn r hr m hm => (hlive m).mpr (((hlive n).mp hn).step ⟨r, hr, hm⟩)) _ _ _ _ _
    (fun n hn => (hlive n).mpr (.root hn)) hfuel h

/-- **Completeness rule**: a run that ends well has expanded every
reachable node and applied its effect. -/
theorem run_complete (Done : ν → σ → Prop)
    (hdone : ∀ n r s, expand n = .ok r → Done n (r.2 s))
    (hstable : ∀ n m r s, expand m = .ok r → Done n s → Done n (r.2 s))
    (all roots : List ν) (hall : ∀ n, Reach expand roots n → n ∈ all) {s s' : σ}
    (h : run expand (fuelFor expand all roots) roots ∅ s = (.ok (), s')) :
    ∀ n, Reach expand roots n → Done n s' ∧ ∃ r, expand n = .ok r := by
  obtain ⟨seen, htakes⟩ := run_takes hall h
  have hkeep : ∀ n r (seen : Finset ν) (s : σ), Reach expand roots n → n ∉ seen → expand n = .ok r →
      (∀ m ∈ seen, Done m s ∧ ∃ r, expand m = .ok r) →
      ∀ m ∈ insert n seen, Done m (r.2 s) ∧ ∃ r, expand m = .ok r := by
    intro n r seen s _ _ hexp hold m hm
    rcases Finset.mem_insert.mp hm with rfl | hm
    · exact ⟨hdone m r s hexp, r, hexp⟩
    · obtain ⟨hd, hr⟩ := hold m hm
      exact ⟨hstable m n r s hexp hd, hr⟩
  obtain ⟨hseen, hinv⟩ := takes_spec (fun seen s => ∀ n ∈ seen, Done n s ∧ ∃ r, expand n = .ok r)
    hkeep (by simp) htakes
  exact fun n hn => hinv n ((hseen n).mpr hn)

/-- A run ends well exactly when no reachable node raises. -/
theorem run_ok_iff (all roots : List ν) (hall : ∀ n, Reach expand roots n → n ∈ all) (s : σ) :
    (run expand (fuelFor expand all roots) roots ∅ s).1 = .ok ()
      ↔ ∀ n, Reach expand roots n → ∃ r, expand n = .ok r := by
  constructor
  · intro h n hn
    exact (run_complete (fun _ _ => True) (fun _ _ _ _ => trivial) (fun _ _ _ _ _ h => h)
      all roots hall (Prod.ext h rfl) n hn).2
  · intro hok
    cases hrun : run expand (fuelFor expand all roots) roots ∅ s with
    | mk r s' =>
      cases r with
      | ok u => rfl
      | error e =>
        obtain ⟨n, hn, herr⟩ := run_error roots _ roots ∅ s s' (fun n hn => .root hn) hrun
        obtain ⟨r, hr⟩ := hok n hn
        rw [herr] at hr
        cases hr

end Worklist

end Library
