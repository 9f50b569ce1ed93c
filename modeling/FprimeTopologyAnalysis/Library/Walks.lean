/-
FprimeTopologyAnalysis.Library.Walks — the walks of a search problem, and
how often a depth-first search meets them.

A leg of a walk says which hop of the node is taken and which of the nodes
behind it is entered, each by its place in its list. So two walks differ
where the same hop is listed twice, and the set of walks has as many
elements as there are ways to go.

Walks are not cut at a node they have passed. Where they are bounded none
comes back (`Within.eq_nil_of_closed`), so there a search that keeps its
visited set per path meets every walk, and each as often as there are ways to go:

* `ncard_departs` — the events of the search count the hops out of all
  walks;
* `events_ok_iff_walks` — the search answers when every node a walk comes to
  does.
-/
import FprimeTopologyAnalysis.Library.SimplePaths
import Mathlib.Data.Set.Card

namespace Library

universe u

namespace Walks

open SimplePaths

variable {ν η ε : Type u}

/-! ## Walks -/

/-- A leg of a walk: a hop out of a node and the node behind it that is
entered, both with their places. -/
structure Leg (ν η : Type u) where
  hopPlace : Nat
  hop : η
  nodePlace : Nat
  node : ν

variable (P : Problem ν η ε)

/-- The leg goes out of `n`. -/
def Takes (n : ν) (leg : Leg ν η) : Prop :=
  ∃ hs, P.hops n = .ok hs ∧ hs[leg.hopPlace]? = some leg.hop
    ∧ (P.next leg.hop)[leg.nodePlace]? = some leg.node

/-- A walk from a node, by its legs, and where it ends. -/
inductive Walk : ν → List (Leg ν η) → ν → Prop
  | nil (n : ν) : Walk n [] n
  | cons {n m : ν} {leg : Leg ν η} {legs : List (Leg ν η)} :
      Takes P n leg → Walk leg.node legs m → Walk n (leg :: legs) m

/-- No walk from `n` has more than `k` legs. -/
def Within (n : ν) (k : Nat) : Prop := ∀ legs m, Walk P n legs m → legs.length ≤ k

/-- The hops of `good` out of all walks from `n`: a walk, and a hop of its last
node with its place. -/
def Departs (good : η → Bool) (n : ν) : Set (List (Leg ν η) × Nat × η) :=
  {d | ∃ m hs, Walk P n d.1 m ∧ P.hops m = .ok hs ∧ hs[d.2.1]? = some d.2.2 ∧ good d.2.2}

variable {P}

theorem exists_takes_iff {n m : ν} {h : η} :
    (∃ i j, Takes P n ⟨i, h, j, m⟩) ↔ ∃ hs, P.hops n = .ok hs ∧ h ∈ hs ∧ m ∈ P.next h := by
  simp only [Takes, List.mem_iff_getElem?]
  constructor
  · rintro ⟨i, j, hs, hok, hi, hj⟩
    exact ⟨hs, hok, ⟨i, hi⟩, ⟨j, hj⟩⟩
  · rintro ⟨hs, hok, ⟨i, hi⟩, ⟨j, hj⟩⟩
    exact ⟨i, j, hs, hok, hi, hj⟩

theorem Walk.append {n m l : ν} {legs legs' : List (Leg ν η)} (h : Walk P n legs m)
    (h' : Walk P m legs' l) : Walk P n (legs ++ legs') l := by
  induction h with
  | nil n => exact h'
  | cons htakes _ ih => exact .cons htakes (ih h')

/-- A closed walk, taken again and again. -/
theorem Walk.iterate {n : ν} {legs : List (Leg ν η)} (h : Walk P n legs n) (r : Nat) :
    Walk P n (List.replicate r legs).flatten n := by
  induction r with
  | zero => exact .nil n
  | succ r ih =>
    rw [List.replicate_succ, List.flatten_cons]
    exact h.append ih

/-- Where walks are bounded, none comes back. -/
theorem Within.eq_nil_of_closed {n : ν} {k : Nat} (hwithin : Within P n k) {legs : List (Leg ν η)}
    (h : Walk P n legs n) : legs = [] := by
  have hlen := hwithin _ _ (h.iterate (k + 1))
  rw [List.length_flatten, List.map_replicate, List.sum_replicate_nat] at hlen
  by_contra hne
  have hpos := List.length_pos_iff.mpr hne
  have := Nat.le_mul_of_pos_right (k + 1) hpos
  omega

theorem Within.mono {n : ν} {k k' : Nat} (h : Within P n k) (hle : k ≤ k') : Within P n k' :=
  fun legs m hw => Nat.le_trans (h legs m hw) hle

/-- A leg leaves one less for the walks from the node it enters. -/
theorem Within.of_takes {n : ν} {k : Nat} (h : Within P n (k + 1)) {leg : Leg ν η}
    (htakes : Takes P n leg) : Within P leg.node k := by
  intro legs m hw
  have := h _ _ (.cons htakes hw)
  rw [List.length_cons] at this
  omega

/-- Without room for a leg there is none. -/
theorem Within.not_takes {n : ν} (h : Within P n 0) {leg : Leg ν η} : ¬ Takes P n leg := by
  intro htakes
  have := h _ _ (.cons htakes (.nil _))
  simp at this

theorem within_zero_iff {n : ν} : Within P n 0 ↔ ∀ leg, ¬ Takes P n leg := by
  constructor
  · exact fun h leg => h.not_takes
  · intro h legs m hwalk
    cases hwalk with
    | nil => exact Nat.le_refl _
    | cons htakes _ => exact absurd htakes (h _)

theorem within_succ_iff {n : ν} {k : Nat} :
    Within P n (k + 1) ↔ ∀ leg, Takes P n leg → Within P leg.node k := by
  constructor
  · exact fun h leg htakes => h.of_takes htakes
  · intro h legs m hwalk
    cases hwalk with
    | nil => exact Nat.zero_le _
    | cons htakes hrest => exact Nat.succ_le_succ (h _ htakes _ _ hrest)

variable (P) in
/-- The nodes behind the hops of a node. -/
def successors (n : ν) : List ν :=
  match P.hops n with
  | .error _ => []
  | .ok hs => hs.flatMap P.next

theorem forall_takes_iff {n : ν} (S : ν → Prop) :
    (∀ leg, Takes P n leg → S leg.node) ↔ ∀ m ∈ successors P n, S m := by
  constructor
  · intro h m hm
    unfold successors at hm
    cases hok : P.hops n with
    | error e => simp [hok] at hm
    | ok hs =>
      rw [hok] at hm
      obtain ⟨hop, hhop, hm⟩ := List.mem_flatMap.mp hm
      obtain ⟨i, j, htakes⟩ := exists_takes_iff.mpr ⟨hs, hok, hhop, hm⟩
      exact h _ htakes
  · intro h leg htakes
    obtain ⟨hs, hok, hhop, hm⟩ := exists_takes_iff.mp ⟨_, _, htakes⟩
    refine h _ ?_
    rw [successors, hok]
    exact List.mem_flatMap.mpr ⟨_, hhop, hm⟩

/-- Walks of bounded length can be looked through. -/
instance decidableWithin : ∀ (n : ν) (k : Nat), Decidable (Within P n k)
  | n, 0 => decidable_of_iff (∀ m ∈ successors P n, False) <|
      (forall_takes_iff fun _ => False).symm.trans within_zero_iff.symm
  | n, k + 1 =>
    have : ∀ m, Decidable (Within P m k) := fun m => decidableWithin m k
    decidable_of_iff (∀ m ∈ successors P n, Within P m k) <|
      (forall_takes_iff fun m => Within P m k).symm.trans within_succ_iff.symm

/-! ## Listing the departures -/

variable (P) in
/-- The departures by walks of less than `k` legs. -/
def departures (good : η → Bool) : Nat → ν → List (List (Leg ν η) × Nat × η)
  | 0, _ => []
  | k + 1, n =>
    match P.hops n with
    | .error _ => []
    | .ok hs =>
      hs.zipIdx.flatMap fun h =>
        (if good h.1 then [([], h.2, h.1)] else [])
          ++ (P.next h.1).zipIdx.flatMap fun m =>
            (departures good k m.1).map fun d => (⟨h.2, h.1, m.2, m.1⟩ :: d.1, d.2)

theorem mem_departures {good : η → Bool} : ∀ {k : Nat} {n : ν} {d : List (Leg ν η) × Nat × η},
    d ∈ departures P good k n ↔ d ∈ Departs P good n ∧ d.1.length < k
  | 0, n, d => by simp [departures]
  | k + 1, n, ⟨legs, i, h⟩ => by
      rw [departures]
      constructor
      · cases hok : P.hops n with
        | error e => simp
        | ok hs =>
          simp only [List.mem_flatMap, List.mem_append, List.mem_map, List.mem_zipIdx_iff_getElem?]
          rintro ⟨⟨h₀, i₀⟩, hplace, hown | ⟨⟨m, j⟩, hnode, ⟨legs', i', h'⟩, hd, heq⟩⟩
          · split at hown
            · rename_i hgood
              cases List.mem_singleton.mp hown
              exact ⟨⟨n, hs, .nil n, hok, hplace, hgood⟩, Nat.zero_lt_succ k⟩
            · simp at hown
          · obtain ⟨⟨m', hs', hwalk, hrest⟩, hlen⟩ := mem_departures.mp hd
            cases heq
            exact ⟨⟨m', hs', .cons ⟨hs, hok, hplace, hnode⟩ hwalk, hrest⟩, Nat.succ_lt_succ hlen⟩
      · rintro ⟨⟨m, hs', hwalk, hok', hplace, hgood⟩, hlen⟩
        cases hwalk with
        | nil n =>
          dsimp only at hplace hgood
          rw [hok']
          refine List.mem_flatMap.mpr ⟨(h, i), List.mem_zipIdx_iff_getElem?.mpr hplace, ?_⟩
          simp [hgood]
        | @cons _ _ leg legs htakes hwalk =>
          obtain ⟨hs, hok, hhop, hnode⟩ := htakes
          have hd : (legs, i, h) ∈ departures P good k leg.node :=
            mem_departures.mpr ⟨⟨m, hs', hwalk, hok', hplace, hgood⟩, Nat.lt_of_succ_lt_succ hlen⟩
          rw [hok]
          refine List.mem_flatMap.mpr
            ⟨(leg.hop, leg.hopPlace), List.mem_zipIdx_iff_getElem?.mpr hhop, ?_⟩
          refine List.mem_append_right _ (List.mem_flatMap.mpr
            ⟨(leg.node, leg.nodePlace), List.mem_zipIdx_iff_getElem?.mpr hnode, ?_⟩)
          exact List.mem_map.mpr ⟨_, hd, rfl⟩

/-- What stands at different places of a list is listed apart. -/
theorem nodup_flatMap_zipIdx {α β : Type u} (xs : List α) (f : α × Nat → List β)
    (hown : ∀ x ∈ xs.zipIdx, (f x).Nodup)
    (hplace : ∀ x ∈ xs.zipIdx, ∀ y ∈ xs.zipIdx, ∀ b, b ∈ f x → b ∈ f y → x.2 = y.2) :
    (xs.zipIdx.flatMap f).Nodup := by
  refine List.nodup_flatMap.mpr ⟨hown, ?_⟩
  have hnodup : (xs.zipIdx.map Prod.snd).Nodup := by
    rw [List.zipIdx_map_snd]
    exact List.nodup_range'
  rw [List.nodup_iff_pairwise_ne, List.pairwise_map] at hnodup
  refine hnodup.imp_of_mem fun hx hy hne b hb hb' => hne (hplace _ hx _ hy b hb hb')

/-- The place of the first hop of a departure. -/
def firstPlace (d : List (Leg ν η) × Nat × η) : Nat :=
  match d.1 with
  | [] => d.2.1
  | leg :: _ => leg.hopPlace

theorem firstPlace_of_mem {good : η → Bool} {k : Nat} {h : η × Nat} {d : List (Leg ν η) × Nat × η}
    (hd : d ∈ (if good h.1 then [([], h.2, h.1)] else [])
      ++ (P.next h.1).zipIdx.flatMap fun m =>
        (departures P good k m.1).map fun d => (⟨h.2, h.1, m.2, m.1⟩ :: d.1, d.2)) :
    firstPlace d = h.2 := by
  rcases List.mem_append.mp hd with hown | hbehind
  · split at hown
    · rw [List.mem_singleton.mp hown]
      rfl
    · simp at hown
  · obtain ⟨_, _, hd⟩ := List.mem_flatMap.mp hbehind
    obtain ⟨_, _, rfl⟩ := List.mem_map.mp hd
    rfl

theorem nodup_departures {good : η → Bool} : ∀ (k : Nat) (n : ν), (departures P good k n).Nodup
  | 0, n => List.nodup_nil
  | k + 1, n => by
      rw [departures]
      cases P.hops n with
      | error e => exact List.nodup_nil
      | ok hs =>
        refine nodup_flatMap_zipIdx _ _ (fun h _ => ?_) fun h _ h' _ d hd hd' => ?_
        · refine List.nodup_append'.mpr ⟨by split <;> simp, ?_, ?_⟩
          · refine nodup_flatMap_zipIdx _ _ (fun m _ => ?_) fun m _ m' _ d hd hd' => ?_
            · refine (nodup_departures k m.1).map fun d d' heq => ?_
              simp only [Prod.mk.injEq, List.cons.injEq, true_and] at heq
              exact Prod.ext heq.1 heq.2
            · obtain ⟨_, _, rfl⟩ := List.mem_map.mp hd
              obtain ⟨_, _, heq⟩ := List.mem_map.mp hd'
              simp only [Prod.mk.injEq, List.cons.injEq, Leg.mk.injEq] at heq
              exact heq.1.1.2.2.1.symm
          · intro d hown hbehind
            obtain ⟨_, _, hd⟩ := List.mem_flatMap.mp hbehind
            obtain ⟨_, _, rfl⟩ := List.mem_map.mp hd
            split at hown <;> simp at hown
        · exact (firstPlace_of_mem hd).symm.trans (firstPlace_of_mem hd')

/-- Where walks are bounded, the departures listed are all there are. -/
theorem departs_eq [DecidableEq (List (Leg ν η) × Nat × η)] {good : η → Bool} {n : ν} {k : Nat}
    (hwithin : Within P n k) : Departs P good n = ↑(departures P good (k + 1) n).toFinset := by
  ext d
  rw [Finset.mem_coe, List.mem_toFinset, mem_departures, iff_self_and]
  rintro ⟨m, _, hwalk, _⟩
  exact Nat.lt_succ_of_le (hwithin _ _ hwalk)

theorem finite_departs {good : η → Bool} {n : ν} {k : Nat} (hwithin : Within P n k) :
    (Departs P good n).Finite := by
  classical
  rw [departs_eq hwithin]
  exact Finset.finite_toSet _

theorem ncard_departs {good : η → Bool} {n : ν} {k : Nat} (hwithin : Within P n k) :
    (Departs P good n).ncard = (departures P good (k + 1) n).length := by
  classical
  rw [departs_eq hwithin, Set.ncard_coe_finset, List.toFinset_card_of_nodup (nodup_departures _ _)]

/-! ## The search meets every walk -/

section Search

/-- The event is a hop of `good`. -/
def leaves (good : η → Bool) : Event ν η → Bool
  | .hop _ h => good h
  | .closed _ => false

/-- The points passed lie on walks to the point entered. -/
def Behind (P : Problem ν η ε) (p : Point ν η) : Prop :=
  ∀ n ∈ p.passed, ∃ legs, legs ≠ [] ∧ Walk P n legs p.node

theorem Behind.root (n : ν) : Behind P (.root n) := by
  simp [Behind, Point.root]

theorem Behind.enter {p : Point ν η} (h : Behind P p) {leg : Leg ν η}
    (htakes : Takes P p.node leg) :
    Behind P (p.enter leg.hop leg.node) := by
  intro n hn
  rcases List.mem_cons.mp hn with rfl | hn
  · exact ⟨[leg], by simp, .cons htakes (.nil _)⟩
  · obtain ⟨legs, hne, hwalk⟩ := h n hn
    exact ⟨legs ++ [leg], by simp, hwalk.append (.cons htakes (.nil _))⟩

/-- Where walks are bounded, a search is never back at a node. -/
theorem Behind.not_closed {p : Point ν η} (h : Behind P p) {k : Nat} (hwithin : Within P p.node k) :
    ¬ p.Closed := by
  intro hc
  obtain ⟨legs, hne, hwalk⟩ := h p.node hc
  exact hne (hwithin.eq_nil_of_closed hwalk)

/-- What a loop collects counts as its rounds do. -/
theorem countP_collect {α β : Type u} {f : β → Except ε (List α)} {q : α → Bool} {count : β → Nat} :
    ∀ {xs : List β} {zs : List α}, (∀ x ∈ xs, ∀ ys, f x = .ok ys → ys.countP q = count x) →
      collect f xs = .ok zs → zs.countP q = (xs.map count).sum
  | [], zs, _, h => by
      obtain rfl : [] = zs := by simpa [collect] using h
      rfl
  | x :: xs, zs, hcount, h => by
      rw [collect] at h
      cases hx : f x with
      | error e => simp [hx] at h
      | ok ys =>
        cases hxs : collect f xs with
        | error e => simp [hx, hxs] at h
        | ok zs' =>
          obtain rfl : ys ++ zs' = zs := by simpa [hx, hxs] using h
          have hrest := countP_collect (fun y hy => hcount y (List.mem_cons_of_mem _ hy)) hxs
          rw [List.countP_append, hcount x (List.mem_cons_self ..) ys hx, hrest, List.map_cons,
            List.sum_cons]

/-- What is listed by elements with their places is as long as the parts. -/
theorem length_flatMap_zipIdx {α β : Type u} (xs : List α) (f : α × Nat → List β)
    (count : α → Nat) (hcount : ∀ x ∈ xs.zipIdx, (f x).length = count x.1) :
    (xs.zipIdx.flatMap f).length = (xs.map count).sum := by
  rw [List.length_flatMap, List.map_congr_left hcount]
  conv_rhs => rw [← List.zipIdx_map_fst 0 xs, List.map_map]
  rfl

/-- **The search counts the departures.** -/
theorem countP_events [DecidableEq ν] (good : η → Bool) : ∀ {k : Nat} {p : Point ν η}
    {es : List (Event ν η)}, events P (k + 1) p = .ok es → Behind P p → Within P p.node k →
      es.countP (leaves good) = (departures P good (k + 1) p.node).length
  | k, p, es, h, hbehind, hwithin => by
      have hopen := hbehind.not_closed hwithin
      cases hok : P.hops p.node with
      | error e => simp [events, hopen, hok] at h
      | ok hs =>
        rw [events_open hopen hok] at h
        rw [departures, hok]
        -- one hop: itself, and the departures from the nodes behind it
        have hnode : ∀ hop ∈ hs, ∀ m ∈ P.next hop, ∀ ws, events P k (p.enter hop m) = .ok ws →
            ws.countP (leaves good) = (departures P good k m).length := by
          intro hop hhop m hm ws hws
          obtain ⟨i, j, htakes⟩ := exists_takes_iff.mpr ⟨hs, hok, hhop, hm⟩
          cases k with
          | zero => exact absurd htakes hwithin.not_takes
          | succ k => exact countP_events good hws (hbehind.enter htakes) (hwithin.of_takes htakes)
        have hcount : ∀ hop ∈ hs, ∀ ys,
            ((collect (fun m => events P k (p.enter hop m)) (P.next hop)).map
              (Event.hop p hop :: ·)) = .ok ys →
            ys.countP (leaves good) = (if good hop then 1 else 0)
              + ((P.next hop).map fun m => (departures P good k m).length).sum := by
          intro hop hhop ys hys
          obtain ⟨zs, hzs, rfl⟩ := map_eq_ok_iff.mp hys
          rw [List.countP_cons, countP_collect (hnode hop hhop) hzs, Nat.add_comm]
          rfl
        rw [countP_collect hcount h, length_flatMap_zipIdx]
        intro hop _
        rw [List.length_append, length_flatMap_zipIdx _ _ fun m => (departures P good k m).length]
        · split <;> rfl
        · intro m _
          exact List.length_map _

theorem walk_of_trail {p q : Point ν η} (h : Trail P p q) :
    ∃ legs, Walk P p.node legs q.node := by
  induction h with
  | refl => exact ⟨[], .nil _⟩
  | tail _ hstep ih =>
    obtain ⟨legs, hwalk⟩ := ih
    obtain ⟨_, hs, hok, hop, hhop, m, hm, rfl⟩ := hstep
    obtain ⟨i, j, htakes⟩ := exists_takes_iff.mpr ⟨hs, hok, hhop, hm⟩
    exact ⟨_, hwalk.append (.cons htakes (.nil _))⟩

theorem Walk.trail {n m : ν} {legs : List (Leg ν η)} (h : Walk P n legs m) :
    ∀ {p : Point ν η} {k : Nat}, p.node = n → Behind P p → Within P n k →
      ∃ q, Trail P p q ∧ q.node = m ∧ ¬ q.Closed
        ∧ q.trail.length = p.trail.length + legs.length := by
  induction h with
  | nil n =>
    rintro p k rfl hbehind hwithin
    exact ⟨p, .refl, rfl, hbehind.not_closed hwithin, rfl⟩
  | @cons n m leg legs htakes _ ih =>
    rintro p k rfl hbehind hwithin
    cases k with
    | zero => exact absurd htakes hwithin.not_takes
    | succ k =>
      obtain ⟨q, htrail, hnode, hopen, hlen⟩ :=
        ih (p := p.enter leg.hop leg.node) rfl (hbehind.enter htakes) (hwithin.of_takes htakes)
      obtain ⟨hs, hok, hhop, hm⟩ := exists_takes_iff.mp ⟨_, _, htakes⟩
      refine ⟨q, .head ⟨hbehind.not_closed hwithin, hs, hok, _, hhop, _, hm, rfl⟩ htrail, hnode,
        hopen, ?_⟩
      rw [hlen, Point.length_enter, List.length_cons]
      omega

/-- **The search answers** when every node a walk comes to does. -/
theorem events_ok_iff_walks [DecidableEq ν] {n : ν} {k : Nat} (hwithin : Within P n k) :
    (∃ es, events P (k + 1) (.root n) = .ok es)
      ↔ ∀ legs m, Walk P n legs m → ∃ hs, P.hops m = .ok hs := by
  rw [events_ok_iff]
  constructor
  · intro h legs m hwalk
    have hroot : (Point.root n : Point ν η).node = n := rfl
    obtain ⟨q, htrail, rfl, hopen, hlen⟩ := hwalk.trail hroot (.root n) hwithin
    have hle := hwithin legs _ hwalk
    exact h q htrail hopen (by omega)
  · intro h q htrail _ _
    obtain ⟨legs, hwalk⟩ := walk_of_trail htrail
    exact h legs q.node hwalk

end Search

/-! ## The longest candidate -/

section Longest

variable {α β : Type u}

/-- The candidate, if it is longer than the best so far. -/
def longer (best candidate : List α) : List α :=
  if best.length < candidate.length then candidate else best

theorem length_longer (best candidate : List α) :
    best.length ≤ (longer best candidate).length
      ∧ candidate.length ≤ (longer best candidate).length := by
  unfold longer
  split <;> omega

theorem longer_eq (best candidate : List α) :
    longer best candidate = best ∨ longer best candidate = candidate := by
  unfold longer
  split <;> simp

/-- A loop that keeps the longest candidate ends unless a candidate raises, and
what it keeps is one of them, or what it began with, and no shorter than any. -/
theorem foldlM_longer {f : β → Except ε (List α)} : ∀ (xs : List β) (best : List α),
    ((∃ r, xs.foldlM (fun best x => (f x).map (longer best)) best = .ok r)
        ↔ ∀ x ∈ xs, ∃ c, f x = .ok c)
      ∧ ∀ r, xs.foldlM (fun best x => (f x).map (longer best)) best = .ok r →
        (r = best ∨ ∃ x ∈ xs, f x = .ok r) ∧ best.length ≤ r.length
          ∧ ∀ x ∈ xs, ∀ c, f x = .ok c → c.length ≤ r.length
  | [], best => by
      refine ⟨by simp [pure, Except.pure], fun r h => ?_⟩
      obtain rfl : best = r := by simpa [pure, Except.pure] using h
      simp
  | x :: xs, best => by
      rw [List.foldlM_cons]
      cases hx : f x with
      | error e => simp [Except.map, bind, Except.bind, hx]
      | ok c =>
        obtain ⟨hends, hkeeps⟩ := foldlM_longer xs (longer best c)
        obtain ⟨hbest, hc⟩ := length_longer best c
        refine ⟨hends.trans (by simp [hx]), fun r h => ?_⟩
        obtain ⟨hfrom, hle, hall⟩ := hkeeps r h
        refine ⟨?_, hbest.trans hle, fun y hy c' hc' => ?_⟩
        · rcases hfrom with rfl | ⟨y, hy, hfy⟩
          · rcases longer_eq best c with h | h
            · exact .inl h
            · exact .inr ⟨x, List.mem_cons_self .., by rw [hx, h]⟩
          · exact .inr ⟨y, List.mem_cons_of_mem _ hy, hfy⟩
        · rcases List.mem_cons.mp hy with rfl | hy
          · obtain rfl := Except.ok.inj (hx.symm.trans hc')
            exact hc.trans hle
          · exact hall y hy c' hc'

end Longest

end Walks

end Library
