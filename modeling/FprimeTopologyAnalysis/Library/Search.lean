/-
FprimeTopologyAnalysis.Library.Search — budgeted depth-first search.

`dfs` walks a graph whose nodes may be unboundedly many. A node is
identified by a key, marked before its hops are taken, and never expanded
twice; a budget bounds the number of expansions. Each hop is handed to a
visitor that may update an accumulator and names the nodes to descend to.
Expanding a node may raise, and whatever was marked or accumulated before
that stays, so a run returns an outcome together with the state it left.

The rules, for a visitor whose choice of successors is a function of the
hop (`Pure`):

* `dfs_inv` — what every visit of a reachable hop preserves holds after
  any run, raising and truncated runs included;
* `dfs_complete` — a run that reports no truncation has expanded every
  reachable key and visited every reachable hop, up to the similarity that
  equal keys are known to respect. No white-path argument is needed: the
  set of marked keys is closed when the run ends (`Explored`), and closed
  under a key-respecting step means all of it;
* `dfs_error` — a run that raises met a reachable node that raises;
* `dfs_count` — expansions and budget balance, so at most `budget` nodes
  are expanded;
* `dfs_truncated` — and a run that is cut short has spent all of it;
* `dfs_map` — two searches whose visits are the same up to a map of the
  accumulator run in step;
* `dfs_fuel` — the recursion allowance never decides anything once it is
  as large as the budget.
-/
import Mathlib.Logic.Relation
import Mathlib.Data.Finset.Card
import Mathlib.Tactic.Cases

namespace Library

universe u

namespace Search

variable {ν η κ ε α σ β : Type u}

/-! ## Loops that collect a flag -/

/-- `for x in xs: flag |= f(x)`, where `f` may raise and mutates a state. -/
def forOr (f : β → σ → Except ε Bool × σ) : List β → σ → Except ε Bool × σ
  | [], s => (.ok false, s)
  | x :: xs, s =>
    match f x s with
    | (.error e, s') => (.error e, s')
    | (.ok b, s') =>
      match forOr f xs s' with
      | (.error e, s'') => (.error e, s'')
      | (.ok c, s'') => (.ok (b || c), s'')

theorem forOr_inv {f : β → σ → Except ε Bool × σ} (I : σ → Prop) :
    ∀ (xs : List β), (∀ x ∈ xs, ∀ s, I s → I (f x s).2) →
      ∀ s, I s → I (forOr f xs s).2
  | [], _, s, hs => hs
  | x :: xs, hf, s, hs => by
      have hx := hf x (List.mem_cons_self ..) s hs
      rw [forOr]
      cases hfx : f x s with
      | mk r s' =>
        rw [hfx] at hx
        cases r with
        | error e => exact hx
        | ok b =>
          have hrest := forOr_inv I xs (fun y hy => hf y (List.mem_cons_of_mem _ hy)) s' hx
          dsimp only
          cases hxs : forOr f xs s' with
          | mk r' s'' =>
            rw [hxs] at hrest
            cases r' <;> exact hrest

/-- A loop that raises has a body that raises. -/
theorem forOr_error {f : β → σ → Except ε Bool × σ} {e : ε} :
    ∀ (xs : List β) (s s' : σ), forOr f xs s = (.error e, s') →
      ∃ x ∈ xs, ∃ s₁ s₂, f x s₁ = (.error e, s₂)
  | [], s, s', h => by simp [forOr] at h
  | x :: xs, s, s', h => by
      rw [forOr] at h
      cases hfx : f x s with
      | mk r s₁ =>
        rw [hfx] at h
        cases r with
        | error e' =>
          simp only [Prod.mk.injEq, Except.error.injEq] at h
          exact ⟨x, List.mem_cons_self .., s, s₁, by rw [hfx, h.1]⟩
        | ok b =>
          dsimp only at h
          cases hxs : forOr f xs s₁ with
          | mk r' s₂ =>
            rw [hxs] at h
            cases r' with
            | ok c => simp at h
            | error e' =>
              simp only [Prod.mk.injEq, Except.error.injEq] at h
              obtain ⟨y, hy, t, t', hft⟩ := forOr_error xs s₁ s₂ (by rw [hxs, h.1])
              exact ⟨y, List.mem_cons_of_mem _ hy, t, t', hft⟩

/-- A loop that ends without a flag ran every body without a flag. -/
theorem forOr_cons_ok_false {f : β → σ → Except ε Bool × σ} {x : β} {xs : List β} {s s' : σ}
    (h : forOr f (x :: xs) s = (.ok false, s')) :
    ∃ s₁, f x s = (.ok false, s₁) ∧ forOr f xs s₁ = (.ok false, s') := by
  rw [forOr] at h
  cases hfx : f x s with
  | mk r s₁ =>
    rw [hfx] at h
    cases r with
    | error e => simp at h
    | ok b =>
      dsimp only at h
      cases hxs : forOr f xs s₁ with
      | mk r' s₂ =>
        rw [hxs] at h
        cases r' with
        | error e => simp at h
        | ok c =>
          simp only [Prod.mk.injEq, Except.ok.injEq, Bool.or_eq_false_iff] at h
          obtain ⟨⟨rfl, rfl⟩, rfl⟩ := h
          exact ⟨s₁, rfl, hxs⟩

/-- What every body of a loop without a flag establishes, and no body
undoes, holds for all of them at the end. -/
theorem forOr_ok_false {f : β → σ → Except ε Bool × σ} (Q : β → σ → Prop) :
    ∀ (xs : List β), (∀ x ∈ xs, ∀ s s', f x s = (.ok false, s') → Q x s') →
      (∀ x ∈ xs, ∀ y s, Q y s → Q y (f x s).2) →
      ∀ s s', forOr f xs s = (.ok false, s') → ∀ x ∈ xs, Q x s'
  | [], _, _, _, _, _, x, hx => by simp at hx
  | y :: ys, hQ, hstable, s, s', h, x, hx => by
      obtain ⟨s₁, hy, hrest⟩ := forOr_cons_ok_false h
      rcases List.mem_cons.mp hx with rfl | hx
      · have hs₁ := hQ x (List.mem_cons_self ..) s s₁ hy
        have hend := forOr_inv (f := f) (Q x) ys
          (fun z hz t ht => hstable z (List.mem_cons_of_mem _ hz) x t ht) s₁ hs₁
        rwa [hrest] at hend
      · exact forOr_ok_false Q ys (fun z hz => hQ z (List.mem_cons_of_mem _ hz))
          (fun z hz => hstable z (List.mem_cons_of_mem _ hz)) s₁ s' hrest x hx

/-- What a flagged body leaves behind, and every later body keeps, holds
after a loop that ends with a flag. -/
theorem forOr_ok_true {f : β → σ → Except ε Bool × σ} (I J : σ → Prop) :
    ∀ (xs : List β), (∀ x ∈ xs, ∀ s, I s → I (f x s).2) → (∀ x ∈ xs, ∀ s, J s → J (f x s).2) →
      (∀ x ∈ xs, ∀ s s', I s → f x s = (.ok true, s') → J s') →
      ∀ s s', I s → forOr f xs s = (.ok true, s') → J s'
  | [], _, _, _, s, s', _, h => by simp [forOr] at h
  | x :: xs, hI, hJ, hflag, s, s', hs, h => by
      rw [forOr] at h
      cases hfx : f x s with
      | mk r s₁ =>
        have hkeep := hI x (List.mem_cons_self ..) s hs
        rw [hfx] at h hkeep
        cases r with
        | error e => simp at h
        | ok b =>
          dsimp only at h
          cases hxs : forOr f xs s₁ with
          | mk r' s₂ =>
            rw [hxs] at h
            cases r' with
            | error e => simp at h
            | ok c =>
              obtain ⟨hor, rfl⟩ : (b || c) = true ∧ s₂ = s' := by simpa using h
              cases b with
              | true =>
                have hJ₁ := hflag x (List.mem_cons_self ..) s s₁ hs hfx
                have hrest := forOr_inv J xs (fun y hy => hJ y (List.mem_cons_of_mem _ hy)) s₁ hJ₁
                rwa [hxs] at hrest
              | false =>
                obtain rfl : c = true := by simpa using hor
                exact forOr_ok_true I J xs (fun y hy => hI y (List.mem_cons_of_mem _ hy))
                  (fun y hy => hJ y (List.mem_cons_of_mem _ hy))
                  (fun y hy => hflag y (List.mem_cons_of_mem _ hy)) s₁ s₂ hkeep hxs

/-- Loops whose bodies agree wherever the invariant holds agree. -/
theorem forOr_congr {f f' : β → σ → Except ε Bool × σ} (I : σ → Prop) :
    ∀ (xs : List β), (∀ x ∈ xs, ∀ s, I s → f x s = f' x s ∧ I (f x s).2) →
      ∀ s, I s → forOr f xs s = forOr f' xs s
  | [], _, _, _ => rfl
  | x :: xs, hf, s, hs => by
      obtain ⟨heq, hinv⟩ := hf x (List.mem_cons_self ..) s hs
      rw [forOr, forOr, ← heq]
      cases hfx : f x s with
      | mk r s' =>
        rw [hfx] at hinv
        cases r with
        | error e => rfl
        | ok b =>
          have hrest := forOr_congr I xs (fun y hy => hf y (List.mem_cons_of_mem _ hy)) s' hinv
          simp only [hrest]

/-- A loop runs in step with one whose bodies run in step with its own. -/
theorem forOr_map {τ : Type u} {f : β → σ → Except ε Bool × σ} {f' : β → τ → Except ε Bool × τ}
    (φ : σ → τ) (hf : ∀ x s, f' x (φ s) = ((f x s).1, φ (f x s).2)) :
    ∀ (xs : List β) (s : σ), forOr f' xs (φ s) = ((forOr f xs s).1, φ (forOr f xs s).2)
  | [], _ => rfl
  | x :: xs, s => by
      rw [forOr, forOr, hf]
      cases hfx : f x s with
      | mk r s' =>
        cases r with
        | error e => rfl
        | ok b =>
          simp only [forOr_map φ hf xs s']
          cases forOr f xs s' with
          | mk r' s'' => cases r' <;> rfl

/-! ## The search -/

/-- What the search walks: the hops out of a node, what a visit does and
where it leads, and the key that identifies a node. -/
structure Problem (ν η κ ε α : Type u) where
  hops : ν → Except ε (List η)
  visit : η → α → List ν × α
  key : ν → κ

/-- The state a run carries: the marked keys, the remaining budget and the
visitor's accumulator. -/
structure State (κ α : Type u) where
  visited : Finset κ
  budget : Int
  acc : α

variable [DecidableEq κ] (P : Problem ν η κ ε α)

/-- Mark a node's key and pay for its expansion. -/
def State.mark (s : State κ α) (k : κ) : State κ α :=
  { s with visited := insert k s.visited, budget := s.budget - 1 }

/-- Depth-first search from `n`; the flag says whether the budget cut the
run short. The first argument bounds the recursion depth: every level has
paid for one expansion, so a depth equal to the budget is never exceeded
(`dfs_fuel`). -/
def dfs : Nat → ν → State κ α → Except ε Bool × State κ α
  | 0, _, s => (.ok true, s)
  | fuel + 1, n, s =>
    if s.budget ≤ 0 then (.ok true, s)
    else if P.key n ∈ s.visited then (.ok false, s)
    else
      match P.hops n with
      | .error e => (.error e, s.mark (P.key n))
      | .ok hs =>
        forOr (fun h s' => forOr (dfs fuel) (P.visit h s'.acc).1
            { s' with acc := (P.visit h s'.acc).2 })
          hs (s.mark (P.key n))

/-- The state with its accumulator seen through `φ`. -/
def State.mapAcc {γ : Type u} (φ : α → γ) (s : State κ α) : State κ γ :=
  ⟨s.visited, s.budget, φ s.acc⟩

/-- The visitor's choice of successors does not read the accumulator. -/
def Pure (next : η → List ν) : Prop := ∀ h a, (P.visit h a).1 = next h

/-- One step of the walked graph. -/
def Step (next : η → List ν) (n m : ν) : Prop :=
  ∃ hs, P.hops n = .ok hs ∧ ∃ h ∈ hs, m ∈ next h

/-- The nodes a chain of hops leads to. -/
abbrev Reach (next : η → List ν) : ν → ν → Prop := Relation.ReflTransGen (Step P next)

variable {P} {next : η → List ν}

/-- **Two searches in step**: where visits are the same up to `φ`, so are
the runs. -/
theorem dfs_map {γ : Type u} {P' : Problem ν η κ ε γ} (φ : α → γ)
    (hhops : P'.hops = P.hops) (hkey : P'.key = P.key)
    (hvisit : ∀ h a, P'.visit h (φ a) = ((P.visit h a).1, φ (P.visit h a).2)) :
    ∀ (fuel : Nat) (n : ν) (s : State κ α),
      dfs P' fuel n (s.mapAcc φ) = ((dfs P fuel n s).1, (dfs P fuel n s).2.mapAcc φ) := by
  intro fuel
  induction fuel with
  | zero => exact fun _ _ => rfl
  | succ fuel ih =>
    intro n s
    rw [dfs, dfs, hhops, hkey]
    by_cases hbudget : s.budget ≤ 0
    · rw [if_pos hbudget, if_pos (by exact hbudget)]
    · rw [if_neg hbudget, if_neg (by exact hbudget)]
      by_cases hseen : P.key n ∈ s.visited
      · rw [if_pos hseen, if_pos (by exact hseen)]
      · rw [if_neg hseen, if_neg (by exact hseen)]
        cases P.hops n with
        | error e => rfl
        | ok hs =>
          refine forOr_map (State.mapAcc φ) (fun h t => ?_) hs (s.mark (P.key n))
          have hacc : (t.mapAcc φ).acc = φ t.acc := rfl
          rw [hacc, hvisit]
          exact forOr_map (State.mapAcc φ) (fun m u => ih m u) _
            { t with acc := (P.visit h t.acc).2 }

/-! ## Invariants of a run -/

section Invariants

variable (root : ν)

/-- The search preserves what marking and visiting preserve. -/
theorem dfs_state_inv (hpure : Pure P next) (I : State κ α → Prop)
    (hmark : ∀ n s, Reach P next root n → I s → 0 < s.budget → P.key n ∉ s.visited →
      I (s.mark (P.key n)))
    (hvisit : ∀ n hs h s, Reach P next root n → P.hops n = .ok hs → h ∈ hs → I s →
      I { s with acc := (P.visit h s.acc).2 }) :
    ∀ fuel n s, Reach P next root n → I s → I (dfs P fuel n s).2 := by
  intro fuel
  induction fuel with
  | zero => intro n s _ hs; exact hs
  | succ fuel ih =>
    intro n s hn hs
    rw [dfs]
    split
    · exact hs
    · rename_i hb
      split
      · exact hs
      · rename_i hk
        have hmarked := hmark n s hn hs (by omega) hk
        split
        · exact hmarked
        · rename_i hs' hok
          refine forOr_inv I hs' ?_ _ hmarked
          intro h hh s₁ hs₁
          refine forOr_inv I _ ?_ _ (hvisit n hs' h s₁ hn hok hh hs₁)
          intro m hm s₂ hs₂
          rw [hpure] at hm
          exact ih m s₂ (hn.tail ⟨hs', hok, h, hh, hm⟩) hs₂

/-- **Soundness rule**: what every visit of a reachable hop preserves holds
of the accumulator after any run. -/
theorem dfs_inv (hpure : Pure P next) (I : α → Prop)
    (hvisit : ∀ n hs h a, Reach P next root n → P.hops n = .ok hs → h ∈ hs → I a →
      I (P.visit h a).2)
    (fuel : Nat) (s : State κ α) (hs : I s.acc) : I (dfs P fuel root s).2.acc :=
  dfs_state_inv root hpure (fun s => I s.acc) (fun _ _ _ h _ _ => h)
    (fun n hs' h _ hn hok hh hI => hvisit n hs' h _ hn hok hh hI) fuel root s .refl hs

/-- Expansions and budget balance: each marked key has cost one unit, and
the budget is never overdrawn. -/
theorem dfs_count (hpure : Pure P next) (fuel : Nat) (s : State κ α) :
    ((dfs P fuel root s).2.visited.card : Int) + (dfs P fuel root s).2.budget
        = s.visited.card + s.budget
      ∧ min s.budget 0 ≤ (dfs P fuel root s).2.budget
      ∧ (dfs P fuel root s).2.budget ≤ s.budget := by
  refine dfs_state_inv root hpure
    (fun t => (t.visited.card : Int) + t.budget = s.visited.card + s.budget
      ∧ min s.budget 0 ≤ t.budget ∧ t.budget ≤ s.budget)
    ?_ (fun _ _ _ _ _ _ _ h => h) fuel root s .refl ⟨rfl, by omega, by omega⟩
  intro n t _ ⟨hsum, hlow, hhigh⟩ hpos hk
  refine ⟨?_, ?_, ?_⟩
  · simp only [State.mark, Finset.card_insert_of_notMem hk]
    push_cast
    omega
  · simp only [State.mark]
    omega
  · simp only [State.mark]
    omega

/-- Every marked key belongs to a reachable node. -/
theorem dfs_visited_sound (hpure : Pure P next) (fuel : Nat) (s : State κ α) :
    ∀ k ∈ (dfs P fuel root s).2.visited, k ∈ s.visited
      ∨ ∃ n, P.key n = k ∧ Reach P next root n := by
  refine dfs_state_inv root hpure
    (fun t => ∀ k ∈ t.visited, k ∈ s.visited ∨ ∃ n, P.key n = k ∧ Reach P next root n)
    ?_ (fun _ _ _ _ _ _ _ h => h) fuel root s .refl (fun k hk => .inl hk)
  intro n t hn ht _ _ k hk
  rcases Finset.mem_insert.mp hk with rfl | hk
  · exact .inr ⟨n, rfl, hn⟩
  · exact ht k hk

/-- A search that raises met a reachable node that raises. -/
theorem dfs_error (hpure : Pure P next) {e : ε} :
    ∀ fuel n (s s' : State κ α), Reach P next root n → dfs P fuel n s = (.error e, s') →
      ∃ m, Reach P next root m ∧ P.hops m = .error e := by
  intro fuel
  induction fuel with
  | zero => intro n s s' _ h; simp [dfs] at h
  | succ fuel ih =>
    intro n s s' hn h
    rw [dfs] at h
    split at h
    · simp at h
    · split at h
      · simp at h
      · split at h
        · rename_i e' herr
          simp only [Prod.mk.injEq, Except.error.injEq] at h
          exact ⟨n, hn, by rw [herr, h.1]⟩
        · rename_i hs hok
          obtain ⟨hop, hhop, t, t', ht⟩ := forOr_error hs _ s' h
          obtain ⟨m, hm, t₁, t₂, hdfs⟩ := forOr_error _ _ t' ht
          rw [hpure] at hm
          exact ih m t₁ t₂ (hn.tail ⟨hs, hok, hop, hhop, hm⟩) hdfs

end Invariants

/-- A search that is cut short has spent its budget. -/
theorem dfs_truncated (hpure : Pure P next) :
    ∀ fuel n (s s' : State κ α), s.budget.toNat ≤ fuel → dfs P fuel n s = (.ok true, s') →
      s'.budget ≤ 0 := by
  intro fuel
  induction fuel with
  | zero =>
    intro n s s' hfuel h
    obtain rfl : s = s' := by simpa [dfs] using h
    omega
  | succ fuel ih =>
    intro n s s' hfuel h
    have hless : ∀ (c : Int) (m : ν) (t : State κ α), t.budget ≤ c →
        (dfs P fuel m t).2.budget ≤ c :=
      fun c m t ht => (dfs_count m hpure fuel t).2.2.trans ht
    rw [dfs] at h
    split at h
    · obtain rfl : s = s' := by simpa using h
      assumption
    · split at h
      · simp at h
      · split at h
        · simp at h
        · rename_i hs hok
          have hmark : (s.mark (P.key n)).budget.toNat ≤ fuel := by
            simp only [State.mark]
            omega
          have hkeeps : ∀ m (t : State κ α), t.budget.toNat ≤ fuel →
              (dfs P fuel m t).2.budget.toNat ≤ fuel := by
            intro m t ht
            have := (dfs_count m hpure fuel t).2.2
            omega
          refine forOr_ok_true (fun t : State κ α => t.budget.toNat ≤ fuel)
            (fun t => t.budget ≤ 0) hs ?_ ?_ ?_ _ s' hmark h
          · intro hop _ t ht
            exact forOr_inv (fun t : State κ α => t.budget.toNat ≤ fuel) _
              (fun m _ u hu => hkeeps m u hu) _ ht
          · intro hop _ t ht
            exact forOr_inv (fun t : State κ α => t.budget ≤ 0) _
              (fun m _ u hu => hless 0 m u hu) _ ht
          · intro hop _ t t' ht hrun
            exact forOr_ok_true (fun t : State κ α => t.budget.toNat ≤ fuel)
              (fun t => t.budget ≤ 0) _ (fun m _ u hu => hkeeps m u hu)
              (fun m _ u hu => hless 0 m u hu) (fun m _ u u' hu hm => ih m u u' hu hm)
              ⟨t.visited, t.budget, (P.visit hop t.acc).2⟩ t' ht hrun

/-- Any recursion allowance from the budget up gives the same run. -/
theorem dfs_fuel (hpure : Pure P next) :
    ∀ fuel fuel' n (s : State κ α), s.budget.toNat ≤ fuel → s.budget.toNat ≤ fuel' →
      dfs P fuel n s = dfs P fuel' n s := by
  intro fuel
  induction fuel with
  | zero =>
    intro fuel' n s hf _
    have hb : s.budget ≤ 0 := by omega
    cases fuel' with
    | zero => rfl
    | succ fuel' => rw [dfs, dfs, if_pos hb]
  | succ fuel ih =>
    intro fuel' n s hf hf'
    cases fuel' with
    | zero =>
      have hb : s.budget ≤ 0 := by omega
      rw [dfs, dfs, if_pos hb]
    | succ fuel' =>
      rw [dfs, dfs]
      by_cases hb : s.budget ≤ 0
      · rw [if_pos hb, if_pos hb]
      · rw [if_neg hb, if_neg hb]
        by_cases hk : P.key n ∈ s.visited
        · rw [if_pos hk, if_pos hk]
        · rw [if_neg hk, if_neg hk]
          cases P.hops n with
          | error e => rfl
          | ok hs =>
            have hle : ∀ m (t : State κ α), t.budget ≤ s.budget - 1 →
                dfs P fuel m t = dfs P fuel' m t ∧ (dfs P fuel m t).2.budget ≤ s.budget - 1 := by
              intro m t ht
              exact ⟨ih fuel' m t (by omega) (by omega),
                le_trans (dfs_count m hpure fuel t).2.2 ht⟩
            have hinner : ∀ ns (t : State κ α), t.budget ≤ s.budget - 1 →
                forOr (dfs P fuel) ns t = forOr (dfs P fuel') ns t
                  ∧ (forOr (dfs P fuel) ns t).2.budget ≤ s.budget - 1 := by
              intro ns t ht
              exact ⟨forOr_congr (fun t : State κ α => t.budget ≤ s.budget - 1) ns
                  (fun m _ t ht => hle m t ht) t ht,
                forOr_inv (fun t : State κ α => t.budget ≤ s.budget - 1) ns
                  (fun m _ t ht => (hle m t ht).2) t ht⟩
            refine forOr_congr (fun t : State κ α => t.budget ≤ s.budget - 1) hs
              (fun h _ t ht => hinner _ { t with acc := (P.visit h t.acc).2 } ht)
              (s.mark (P.key n)) ?_
            simp [State.mark]

/-! ## Completeness -/

variable {root : ν}

/-- What a run without truncation adds to a state: the marks only grow, a
hop once seen stays seen, and every new mark has a reachable node whose
hops were all seen and whose successors are all marked. -/
structure Explored (P : Problem ν η κ ε α) (next : η → List ν) (root : ν)
    (Seen : η → α → Prop) (s s' : State κ α) : Prop where
  marks : s.visited ⊆ s'.visited
  seen : ∀ h, Seen h s.acc → Seen h s'.acc
  closed : ∀ k ∈ s'.visited, k ∈ s.visited ∨ ∃ n hs, P.key n = k ∧ Reach P next root n
    ∧ P.hops n = .ok hs ∧ ∀ h ∈ hs, Seen h s'.acc ∧ ∀ m ∈ next h, P.key m ∈ s'.visited

variable {Seen : η → α → Prop}

omit [DecidableEq κ] in
theorem Explored.refl (s : State κ α) : Explored P next root Seen s s :=
  ⟨Finset.Subset.refl _, fun _ h => h, fun _ hk => .inl hk⟩

omit [DecidableEq κ] in
theorem Explored.trans {s s₁ s₂ : State κ α} (h₁ : Explored P next root Seen s s₁)
    (h₂ : Explored P next root Seen s₁ s₂) : Explored P next root Seen s s₂ := by
  refine ⟨h₁.marks.trans h₂.marks, fun h hh => h₂.seen h (h₁.seen h hh), ?_⟩
  intro k hk
  rcases h₂.closed k hk with hk₁ | hnew
  · rcases h₁.closed k hk₁ with hk₀ | ⟨n, hs, hkey, hn, hok, hall⟩
    · exact .inl hk₀
    · refine .inr ⟨n, hs, hkey, hn, hok, fun h hh => ?_⟩
      exact ⟨h₂.seen h (hall h hh).1, fun m hm => h₂.marks ((hall h hh).2 m hm)⟩
  · exact .inr hnew

section Complete

variable (Seen) (hpure : Pure P next)
  (hseen : ∀ h a, Seen h (P.visit h a).2)
  (hstable : ∀ h h' a, Seen h a → Seen h (P.visit h' a).2)

include hpure hseen hstable

omit hpure hseen hstable in
/-- The loop over the successors of one hop explores what its body does. -/
theorem forOr_dfs_explored {fuel : Nat}
    (ih : ∀ n (s s' : State κ α), Reach P next root n → dfs P fuel n s = (.ok false, s') →
      Explored P next root Seen s s' ∧ P.key n ∈ s'.visited) :
    ∀ ns (s s' : State κ α), (∀ m ∈ ns, Reach P next root m) →
      forOr (dfs P fuel) ns s = (.ok false, s') →
      Explored P next root Seen s s' ∧ ∀ m ∈ ns, P.key m ∈ s'.visited := by
  intro ns
  induction ns with
  | nil =>
    intro s s' _ h
    simp only [forOr, Prod.mk.injEq, true_and] at h
    exact ⟨h ▸ Explored.refl s, by simp⟩
  | cons m ns ihns =>
    intro s s' hreach h
    obtain ⟨s₁, hm, hrest⟩ := forOr_cons_ok_false h
    obtain ⟨hexp₁, hkey⟩ := ih m s s₁ (hreach m (List.mem_cons_self ..)) hm
    obtain ⟨hexp₂, hkeys⟩ := ihns s₁ s' (fun x hx => hreach x (List.mem_cons_of_mem _ hx)) hrest
    refine ⟨hexp₁.trans hexp₂, fun x hx => ?_⟩
    rcases List.mem_cons.mp hx with rfl | hx
    · exact hexp₂.marks hkey
    · exact hkeys x hx

/-- The loop over the hops of one node sees every hop it visits, and marks
the successors of each. -/
theorem forOr_hops_explored {fuel : Nat}
    (ih : ∀ n (s s' : State κ α), Reach P next root n → dfs P fuel n s = (.ok false, s') →
      Explored P next root Seen s s' ∧ P.key n ∈ s'.visited)
    {n : ν} {all : List η} (hn : Reach P next root n) (hok : P.hops n = .ok all) :
    ∀ hs, hs ⊆ all → ∀ s s' : State κ α,
      forOr (fun h s' => forOr (dfs P fuel) (P.visit h s'.acc).1
        { s' with acc := (P.visit h s'.acc).2 }) hs s = (.ok false, s') →
      Explored P next root Seen s s'
        ∧ ∀ h ∈ hs, Seen h s'.acc ∧ ∀ m ∈ next h, P.key m ∈ s'.visited := by
  intro hs
  induction hs with
  | nil =>
    intro _ s s' h
    simp only [forOr, Prod.mk.injEq, true_and] at h
    exact ⟨h ▸ Explored.refl s, by simp⟩
  | cons hop hs ihhs =>
    intro hsub s s' h
    obtain ⟨s₁, hhop, hrest⟩ := forOr_cons_ok_false h
    have hhopall : hop ∈ all := hsub (List.mem_cons_self ..)
    rw [hpure] at hhop
    obtain ⟨hexp₁, hkeys⟩ := forOr_dfs_explored Seen ih (next hop) _ s₁
      (fun m hm => hn.tail ⟨all, hok, hop, hhopall, hm⟩) hhop
    -- the visit itself only adds to what has been seen
    have hexp₀ : Explored P next root Seen s s₁ :=
      ⟨hexp₁.marks, fun x hx => hexp₁.seen x (hstable x hop s.acc hx), hexp₁.closed⟩
    have hseen₁ : Seen hop s₁.acc := hexp₁.seen hop (hseen hop s.acc)
    obtain ⟨hexp₂, hall⟩ := ihhs (fun x hx => hsub (List.mem_cons_of_mem _ hx)) s₁ s' hrest
    refine ⟨hexp₀.trans hexp₂, fun x hx => ?_⟩
    rcases List.mem_cons.mp hx with rfl | hx
    · exact ⟨hexp₂.seen x hseen₁, fun m hm => hexp₂.marks (hkeys m hm)⟩
    · exact hall x hx

/-- A run without truncation explores its start node. -/
theorem dfs_explored : ∀ fuel n (s s' : State κ α), Reach P next root n →
    dfs P fuel n s = (.ok false, s') →
    Explored P next root Seen s s' ∧ P.key n ∈ s'.visited := by
  intro fuel
  induction fuel with
  | zero => intro n s s' _ h; simp [dfs] at h
  | succ fuel ih =>
    intro n s s' hn h
    rw [dfs] at h
    split at h
    · simp at h
    · split at h
      · rename_i hk
        simp only [Prod.mk.injEq, true_and] at h
        exact ⟨h ▸ Explored.refl s, h ▸ hk⟩
      · split at h
        · simp at h
        · rename_i hs hok
          obtain ⟨hexp, hall⟩ := forOr_hops_explored Seen hpure hseen hstable ih hn hok hs
            (List.Subset.refl _) _ s' h
          have hkey : P.key n ∈ s'.visited := hexp.marks (Finset.mem_insert_self _ _)
          refine ⟨⟨(Finset.subset_insert _ _).trans hexp.marks, hexp.seen, ?_⟩, hkey⟩
          intro k hk
          rcases hexp.closed k hk with hk₁ | hnew
          · rcases Finset.mem_insert.mp hk₁ with rfl | hk₀
            · exact .inr ⟨n, hs, rfl, hn, hok, hall⟩
            · exact .inl hk₀
          · exact .inr hnew

/-- **Completeness rule**: a run from an unmarked state that reports no
truncation has marked every reachable key, and has seen every reachable
hop up to the similarity that nodes of equal key respect. -/
theorem dfs_complete (sim : η → η → Prop)
    (hkey : ∀ n m hs, Reach P next root n → Reach P next root m → P.key n = P.key m →
      P.hops m = .ok hs → ∃ hs', P.hops n = .ok hs' ∧ ∀ h ∈ hs', ∃ h' ∈ hs, sim h h'
        ∧ ∀ x ∈ next h, ∃ y ∈ next h', P.key x = P.key y)
    {fuel : Nat} {s s' : State κ α} (hempty : s.visited = ∅)
    (hrun : dfs P fuel root s = (.ok false, s')) :
    ∀ n, Reach P next root n → P.key n ∈ s'.visited
      ∧ ∃ hs, P.hops n = .ok hs ∧ ∀ h ∈ hs, ∃ h', sim h h' ∧ Seen h' s'.acc := by
  obtain ⟨hexp, hroot⟩ := dfs_explored Seen hpure hseen hstable fuel root s s' .refl hrun
  -- every marked key has an explored representative
  have hrep : ∀ n, Reach P next root n → P.key n ∈ s'.visited →
      ∃ hs, P.hops n = .ok hs ∧ ∀ h ∈ hs, (∃ h', sim h h' ∧ Seen h' s'.acc)
        ∧ ∀ x ∈ next h, P.key x ∈ s'.visited := by
    intro n hn hk
    rcases hexp.closed _ hk with hk₀ | ⟨m, hs, hmn, hm, hok, hall⟩
    · rw [hempty] at hk₀; simp at hk₀
    · obtain ⟨hs', hok', hsim⟩ := hkey n m hs hn hm hmn.symm hok
      refine ⟨hs', hok', fun h hh => ?_⟩
      obtain ⟨h', hh', hsim', hnext⟩ := hsim h hh
      refine ⟨⟨h', hsim', (hall h' hh').1⟩, fun x hx => ?_⟩
      obtain ⟨y, hy, hxy⟩ := hnext x hx
      exact hxy ▸ (hall h' hh').2 y hy
  have hmarked : ∀ n, Reach P next root n → P.key n ∈ s'.visited := by
    intro n hn
    induction hn with
    | refl => exact hroot
    | tail hn hstep ih =>
      obtain ⟨hs, hok, h, hh, hm⟩ := hstep
      obtain ⟨hs', hok', hall⟩ := hrep _ hn ih
      rw [hok] at hok'
      cases hok'
      exact (hall h hh).2 _ hm
  intro n hn
  obtain ⟨hs, hok, hall⟩ := hrep n hn (hmarked n hn)
  exact ⟨hmarked n hn, hs, hok, fun h hh => (hall h hh).1⟩

end Complete

end Search

end Library
