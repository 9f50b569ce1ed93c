/-
FprimeTopologyAnalysis.Library.ElementaryCycles — enumerating the
elementary cycles of a graph, up to a cap.

A cycle is a list of distinct nodes each of which has an edge to the next,
and the last to the first (`IsElementary`); which node it is written from
does not matter (`IsElementary.of_isRotated`). The search walks paths of
nodes that are not below the start node, so a cycle is found from its
least node only. It stops once the cap is reached.

`cycles_sound`: whatever the cap, all that is found are elementary cycles
written from their least node. `cycles_complete`: when the cap was not
reached every such cycle has been found. `cycles_nodup`: none is found
twice.
-/
import Mathlib.Data.Finset.Max
import Mathlib.Data.List.Chain
import Mathlib.Data.List.Rotate

namespace Library

universe u v

namespace ElementaryCycles

variable {ν : Type u}

/-! ## Cycles -/

/-- The edges of a cycle: each node with the next, the last with the first. -/
def pairs (c : List ν) : List (ν × ν) := c.zip (c.rotate 1)

/-- Distinct nodes, at least two, joined in a circle. -/
structure IsElementary (edge : ν → ν → Prop) (c : List ν) : Prop where
  nodup : c.Nodup
  two : 2 ≤ c.length
  edges : ∀ p ∈ pairs c, edge p.1 p.2

theorem length_pairs (c : List ν) : (pairs c).length = c.length := by
  simp [pairs]

/-- Writing a cycle from another node rotates its edges. -/
theorem pairs_rotate (c : List ν) (k : Nat) : pairs (c.rotate k) = (pairs c).rotate k := by
  have hswap : (c.rotate k).rotate 1 = (c.rotate 1).rotate k := by
    rw [List.rotate_rotate, List.rotate_rotate, Nat.add_comm]
  unfold pairs
  rw [hswap]
  exact (List.zipWith_rotate_distrib Prod.mk c (c.rotate 1) k (by simp)).symm

theorem isRotated_pairs {c c' : List ν} (h : c ~r c') : pairs c ~r pairs c' := by
  obtain ⟨k, rfl⟩ := h
  exact ⟨k, (pairs_rotate c k).symm⟩

theorem mem_pairs_iff {c : List ν} {p : ν × ν} :
    p ∈ pairs c ↔ ∃ i, ∃ h : i < c.length,
      p = (c.get ⟨i, h⟩, c.get ⟨(i + 1) % c.length, Nat.mod_lt _ (by omega)⟩) := by
  unfold pairs
  rw [List.mem_iff_getElem]
  constructor
  · rintro ⟨i, hi, rfl⟩
    rw [List.length_zip, List.length_rotate, Nat.min_self] at hi
    refine ⟨i, hi, ?_⟩
    rw [List.getElem_zip, List.getElem_rotate, List.get_eq_getElem, List.get_eq_getElem]
  · rintro ⟨i, hi, rfl⟩
    refine ⟨i, by simpa using hi, ?_⟩
    rw [List.getElem_zip, List.getElem_rotate, List.get_eq_getElem, List.get_eq_getElem]

/-- Both ends of an edge of a cycle are among its nodes. -/
theorem mem_of_mem_pairs {c : List ν} {p : ν × ν} (h : p ∈ pairs c) : p.1 ∈ c ∧ p.2 ∈ c := by
  obtain ⟨i, hi, rfl⟩ := mem_pairs_iff.mp h
  exact ⟨List.getElem_mem _, List.getElem_mem _⟩

theorem map_fst_pairs (c : List ν) : (pairs c).map Prod.fst = c := by
  rw [pairs, List.map_fst_zip (by simp)]

theorem nodup_pairs {c : List ν} (h : c.Nodup) : (pairs c).Nodup := by
  refine List.Nodup.of_map Prod.fst ?_
  rw [map_fst_pairs]
  exact h

/-- Every edge is followed by one. -/
theorem exists_next {c : List ν} {p : ν × ν} (h : p ∈ pairs c) : ∃ q ∈ pairs c, q.1 = p.2 := by
  have hmem : p.2 ∈ (pairs c).map Prod.fst := by
    rw [map_fst_pairs]
    exact (mem_of_mem_pairs h).2
  obtain ⟨q, hq, heq⟩ := List.mem_map.mp hmem
  exact ⟨q, hq, heq⟩

/-- The edges of the image of a cycle. -/
theorem pairs_map {β : Type v} (f : ν → β) (c : List ν) :
    pairs (c.map f) = (pairs c).map (Prod.map f f) := by
  rw [pairs, pairs, ← List.map_rotate, List.zip_map]

/-- Between distinct nodes, at least two, no edge is a loop. -/
theorem ne_of_mem_pairs {c : List ν} (hnodup : c.Nodup) (htwo : 2 ≤ c.length) {p : ν × ν}
    (h : p ∈ pairs c) : p.1 ≠ p.2 := by
  obtain ⟨i, hi, rfl⟩ := mem_pairs_iff.mp h
  intro heq
  have hi' : i = (i + 1) % c.length := hnodup.getElem_inj_iff.mp heq
  by_cases hlast : i + 1 = c.length
  · rw [hlast, Nat.mod_self] at hi'
    omega
  · rw [Nat.mod_eq_of_lt (by omega)] at hi'
    omega

theorem IsElementary.of_isRotated {edge : ν → ν → Prop} {c c' : List ν}
    (hc : IsElementary edge c) (h : c ~r c') : IsElementary edge c' where
  nodup := h.nodup_iff.mp hc.nodup
  two := h.perm.length_eq ▸ hc.two
  edges p hp := hc.edges p ((isRotated_pairs h).mem_iff.mpr hp)

theorem IsElementary.mono {edge edge' : ν → ν → Prop} (h : ∀ x y, edge x y → edge' x y)
    {c : List ν} (hc : IsElementary edge c) : IsElementary edge' c :=
  ⟨hc.nodup, hc.two, fun p hp => h _ _ (hc.edges p hp)⟩

/-- The edges of a path that returns to its first node. -/
theorem forall_pairs_cons_iff {edge : ν → ν → Prop} {x : ν} {l : List ν} :
    (∀ p ∈ pairs (x :: l), edge p.1 p.2) ↔ List.IsChain edge (x :: l ++ [x]) := by
  have hgen : ∀ (l : List ν) (y z : ν),
      (∀ p ∈ (y :: l).zip (l ++ [z]), edge p.1 p.2) ↔ List.IsChain edge (y :: l ++ [z]) := by
    intro l
    induction l with
    | nil => intro y z; simp
    | cons a l ih =>
      intro y z
      have hcons : (y :: a :: l).zip (a :: l ++ [z]) = (y, a) :: (a :: l).zip (l ++ [z]) := rfl
      rw [hcons, List.forall_mem_cons, ih]
      exact (List.isChain_cons_cons (l := l ++ [z])).symm
  have hpairs : pairs (x :: l) = (x :: l).zip (l ++ [x]) := by simp [pairs]
  rw [hpairs]
  exact hgen l x x

/-- Every node of a cycle reaches every other one. -/
theorem IsElementary.reaches {edge : ν → ν → Prop} {c : List ν} (hc : IsElementary edge c) :
    ∀ x ∈ c, ∀ y ∈ c, Relation.ReflTransGen edge x y := by
  -- from the head, a chain reaches all that follows
  have hchain : ∀ (l : List ν) (x : ν), List.IsChain edge (x :: l) → ∀ y ∈ x :: l,
      Relation.ReflTransGen edge x y := by
    intro l
    induction l with
    | nil =>
      intro x _ y hy
      obtain rfl := List.mem_singleton.mp hy
      exact .refl
    | cons a l ih =>
      intro x h y hy
      obtain ⟨hxa, hl⟩ := List.isChain_cons_cons.mp h
      rcases List.mem_cons.mp hy with rfl | hy
      · exact .refl
      · exact .head hxa (ih a hl y hy)
  intro x hx y hy
  obtain ⟨k, hk⟩ : ∃ l, c ~r (x :: l) := by
    obtain ⟨a, b, rfl⟩ := List.append_of_mem hx
    exact ⟨b ++ a, List.isRotated_append⟩
  have hrot := hc.of_isRotated hk
  have hall := forall_pairs_cons_iff.mp hrot.edges
  exact hchain _ x hall y (List.mem_append_left [x] (hk.mem_iff.mp hy))

/-- A cycle written from its least node. -/
def LeastFirst [LinearOrder ν] (c : List ν) : Prop :=
  ∃ start, c.head? = some start ∧ ∀ x ∈ c, start ≤ x

/-- Every cycle can be written so. -/
theorem IsElementary.exists_leastFirst [LinearOrder ν] {edge : ν → ν → Prop} {c : List ν}
    (hc : IsElementary edge c) : ∃ c', c ~r c' ∧ LeastFirst c' := by
  obtain ⟨start, hstart, hleast⟩ : ∃ x ∈ c, ∀ y ∈ c, x ≤ y := by
    have hne : c.toFinset.Nonempty := by
      cases c with
      | nil => exact absurd hc.two (by simp)
      | cons a l => exact ⟨a, by simp⟩
    obtain ⟨x, hx, hmin⟩ := c.toFinset.exists_min_image id hne
    exact ⟨x, List.mem_toFinset.mp hx, fun y hy => hmin y (List.mem_toFinset.mpr hy)⟩
  obtain ⟨a, b, rfl⟩ := List.append_of_mem hstart
  refine ⟨start :: b ++ a, List.isRotated_append, start, rfl, fun x hx => ?_⟩
  exact hleast x ((List.isRotated_append).mem_iff.mpr hx)

/-- Written from its least node, a cycle is written in one way. -/
theorem LeastFirst.unique [LinearOrder ν] {c c' : List ν} (hnodup : c.Nodup) (hc : LeastFirst c)
    (hc' : LeastFirst c') (h : c ~r c') : c = c' := by
  obtain ⟨x, hx, hleast⟩ := hc
  obtain ⟨y, hy, hleast'⟩ := hc'
  have hxy : x = y := le_antisymm (hleast y (h.mem_iff.mpr (List.mem_of_head? hy)))
    (hleast' x (h.mem_iff.mp (List.mem_of_head? hx)))
  obtain ⟨n, hn, rfl⟩ := List.isRotated_iff_mod.mp h
  rcases Nat.lt_or_eq_of_le hn with hlt | rfl
  · -- the node it is rotated to is the first one
    rw [List.head?_rotate hlt, ← hxy, ← hx, List.head?_eq_getElem?] at hy
    have hzero : n = 0 := (List.getElem?_inj hlt hnodup).mp hy
    rw [hzero, List.rotate_zero]
  · rw [List.rotate_length]

/-! ## The search -/

variable [LinearOrder ν] (adjacency : ν → List ν) (cap : Int)

/-- The loop over the successors of a path's last node: a successor that is
the start closes a cycle, a new one that is not below it extends the path. -/
def scanNext (descend : ν → List (List ν) → List (List ν)) (start : ν) (path : List ν) :
    List ν → List (List ν) → List (List ν)
  | [], cs => cs
  | next :: more, cs =>
    if next = start then
      if cap ≤ (cs ++ [path]).length then cs ++ [path]
      else scanNext descend start path more (cs ++ [path])
    else if next ∈ path ∨ next < start then scanNext descend start path more cs
    else scanNext descend start path more (descend next cs)

/-- Depth-first search for cycles through `start`, with `path` from it to
`node`. The first argument bounds the length of the rest of a path. -/
def search (start : ν) : Nat → ν → List ν → List (List ν) → List (List ν)
  | 0, _, _, cs => cs
  | fuel + 1, node, path, cs =>
    if cap ≤ cs.length then cs
    else scanNext cap (fun next cs => search start fuel next (path ++ [next]) cs) start path
      (adjacency node) cs

/-- The loop over the start nodes; the flag says whether the cap was hit. -/
def fromStarts (fuel : Nat) : List ν → List (List ν) → List (List ν) × Bool
  | [], cs => (cs, false)
  | start :: rest, cs =>
    let cs' := search adjacency cap start fuel start [start] cs
    if cap ≤ cs'.length then (cs', true) else fromStarts fuel rest cs'

/-- The cycles among `members`, in the order they are found. -/
def cycles (members : List ν) : List (List ν) × Bool :=
  fromStarts adjacency cap members.length members []

/-- A cycle as the search writes it: from its least node. -/
structure FromLeast (adjacency : ν → List ν) (start : ν) (c : List ν) : Prop where
  head : c.head? = some start
  least : ∀ x ∈ c, start ≤ x
  elementary : IsElementary (fun x y => y ∈ adjacency x) c

/-- A path of the search. -/
structure IsPath (adjacency : ν → List ν) (start : ν) (path : List ν) (node : ν) : Prop where
  head : path.head? = some start
  last : path.getLast? = some node
  nodup : path.Nodup
  least : ∀ x ∈ path, start ≤ x
  chain : path.IsChain fun x y => y ∈ adjacency x

variable {adjacency cap} {start : ν}

theorem IsPath.start_mem {path : List ν} {node : ν} (hp : IsPath adjacency start path node) :
    start ∈ path := List.mem_of_head? hp.head

theorem isPath_singleton (adjacency : ν → List ν) (start : ν) :
    IsPath adjacency start [start] start where
  head := rfl
  last := rfl
  nodup := by simp
  least x hx := by rw [List.mem_singleton.mp hx]
  chain := .singleton start

theorem IsPath.extend {path : List ν} {node next : ν} (hp : IsPath adjacency start path node)
    (hnext : next ∈ adjacency node) (hnew : next ∉ path) (hle : ¬ next < start) :
    IsPath adjacency start (path ++ [next]) next where
  head := by
    rw [List.head?_append, hp.head]
    rfl
  last := by simp
  nodup := List.Nodup.append hp.nodup (by simp) (by simpa using hnew)
  least x hx := by
    rcases List.mem_append.mp hx with hx | hx
    · exact hp.least x hx
    · rw [List.mem_singleton.mp hx]
      exact not_lt.mp hle
  chain := List.isChain_append.mpr ⟨hp.chain, .singleton next, by
    intro x hx y hy
    rw [hp.last, Option.mem_some_iff] at hx
    simp only [List.head?_cons, Option.mem_some_iff] at hy
    rw [← hx, ← hy]
    exact hnext⟩

/-- A path whose last node has an edge to its first is a cycle. -/
theorem IsPath.close (hloop : ∀ x, x ∉ adjacency x) {path : List ν} {node : ν}
    (hp : IsPath adjacency start path node) (hback : start ∈ adjacency node) :
    FromLeast adjacency start path where
  head := hp.head
  least := hp.least
  elementary := by
    obtain ⟨l, rfl⟩ : ∃ l, path = start :: l := by
      cases path with
      | nil => exact absurd hp.start_mem (List.not_mem_nil)
      | cons a l =>
        obtain rfl : a = start := Option.some.inj hp.head
        exact ⟨l, rfl⟩
    have hwrap : List.IsChain (fun x y => y ∈ adjacency x) (start :: l ++ [start]) := by
      refine List.isChain_append.mpr ⟨hp.chain, .singleton start, ?_⟩
      intro x hx y hy
      rw [hp.last, Option.mem_some_iff] at hx
      simp only [List.head?_cons, Option.mem_some_iff] at hy
      rw [← hx, ← hy]
      exact hback
    have hedges := forall_pairs_cons_iff.mpr hwrap
    refine ⟨hp.nodup, ?_, hedges⟩
    cases l with
    | nil =>
      obtain rfl : start = node := Option.some.inj hp.last
      exact absurd hback (hloop start)
    | cons b l => simp

/-! ## Soundness -/

theorem mem_scanNext {descend : ν → List (List ν) → List (List ν)} {path c : List ν} :
    ∀ (nexts : List ν) (cs : List (List ν)), c ∈ scanNext cap descend start path nexts cs →
      c ∈ cs ∨ (start ∈ nexts ∧ c = path)
        ∨ ∃ next ∈ nexts, next ∉ path ∧ ¬ next < start ∧ ∃ cs', c ∈ descend next cs' ∧ c ∉ cs'
  | [], cs, h => .inl h
  | next :: more, cs, h => by
      have hstep : ∀ cs', c ∈ scanNext cap descend start path more cs' →
          c ∈ cs' ∨ (start ∈ next :: more ∧ c = path)
          ∨ ∃ n ∈ next :: more, n ∉ path ∧ ¬ n < start ∧ ∃ cs', c ∈ descend n cs' ∧ c ∉ cs' := by
        intro cs' h'
        rcases mem_scanNext more cs' h' with hold | ⟨hstart, hc⟩ | ⟨n, hn, hrest⟩
        · exact .inl hold
        · exact .inr (.inl ⟨List.mem_cons_of_mem _ hstart, hc⟩)
        · exact .inr (.inr ⟨n, List.mem_cons_of_mem _ hn, hrest⟩)
      have hfound : c ∈ cs ++ [path] → next = start →
          c ∈ cs ∨ (start ∈ next :: more ∧ c = path) := by
        intro hc hstart
        rcases List.mem_append.mp hc with hc | hc
        · exact .inl hc
        · exact .inr ⟨hstart ▸ List.mem_cons_self .., List.mem_singleton.mp hc⟩
      rw [scanNext] at h
      split at h
      · rename_i hstart
        split at h
        · rcases hfound h hstart with hc | hc
          · exact .inl hc
          · exact .inr (.inl hc)
        · rcases hstep _ h with hc | hc
          · rcases hfound hc hstart with hc | hc
            · exact .inl hc
            · exact .inr (.inl hc)
          · exact .inr hc
      · split at h
        · exact hstep cs h
        · rename_i hnew
          rw [not_or] at hnew
          rcases hstep _ h with hc | hc
          · by_cases hold : c ∈ cs
            · exact .inl hold
            · exact .inr (.inr ⟨next, List.mem_cons_self .., hnew.1, hnew.2, cs, hc, hold⟩)
          · exact .inr hc

theorem search_sound (hloop : ∀ x, x ∉ adjacency x) {c : List ν} :
    ∀ (fuel : Nat) (node : ν) (path : List ν) (cs : List (List ν)),
      IsPath adjacency start path node → c ∈ search adjacency cap start fuel node path cs →
      c ∈ cs ∨ FromLeast adjacency start c := by
  intro fuel
  induction fuel with
  | zero => intro node path cs _ h; exact .inl h
  | succ fuel ih =>
    intro node path cs hp h
    rw [search] at h
    split at h
    · exact .inl h
    · rcases mem_scanNext (adjacency node) cs h with hc | ⟨hback, rfl⟩ |
        ⟨next, hnext, hnew, hle, cs', hc, hnot⟩
      · exact .inl hc
      · exact .inr (hp.close hloop hback)
      · exact .inr ((ih next _ cs' (hp.extend hnext hnew hle) hc).resolve_left hnot)

/-- Whatever the cap, only elementary cycles are found. -/
theorem cycles_sound (hloop : ∀ x, x ∉ adjacency x) (members : List ν) {c : List ν}
    (h : c ∈ (cycles adjacency cap members).1) :
    ∃ start ∈ members, FromLeast adjacency start c := by
  have hgen : ∀ (starts : List ν) (cs : List (List ν)),
      c ∈ (fromStarts adjacency cap members.length starts cs).1 →
      c ∈ cs ∨ ∃ start ∈ starts, FromLeast adjacency start c := by
    intro starts
    induction starts with
    | nil => exact fun cs h => .inl h
    | cons start rest ih =>
      intro cs h
      have hfirst : c ∈ search adjacency cap start members.length start [start] cs →
          c ∈ cs ∨ ∃ s ∈ start :: rest, FromLeast adjacency s c := fun h =>
        (search_sound hloop _ _ _ _ (isPath_singleton adjacency start) h).imp_right
          fun hc => ⟨start, List.mem_cons_self .., hc⟩
      rw [fromStarts] at h
      split at h
      · exact hfirst h
      · rcases ih _ h with hc | ⟨s, hs, hc⟩
        · exact hfirst hc
        · exact .inr ⟨s, List.mem_cons_of_mem _ hs, hc⟩
  exact (hgen members [] h).resolve_left (by simp)

/-! ## Completeness -/

/-- The loop only adds cycles, and below the cap it has tried every
successor. -/
theorem scanNext_spec {descend : ν → List (List ν) → List (List ν)} (path : List ν)
    (hdescend : ∀ next cs, cs <+: descend next cs) :
    ∀ (nexts : List ν) (cs : List (List ν)),
      cs <+: scanNext cap descend start path nexts cs
      ∧ (((scanNext cap descend start path nexts cs).length : Int) < cap → ∀ next ∈ nexts,
        (next = start → path ∈ scanNext cap descend start path nexts cs)
        ∧ (next ≠ start → next ∉ path → ¬ next < start →
          ∃ cs', descend next cs' <+: scanNext cap descend start path nexts cs))
  | [], cs => ⟨List.prefix_refl cs, fun _ next hnext => by simp at hnext⟩
  | n :: more, cs => by
      have ih := scanNext_spec path hdescend more
      rw [scanNext]
      split
      · rename_i hstart
        split
        · rename_i hcap
          exact ⟨List.prefix_append _ _, fun hlt => by omega⟩
        · obtain ⟨hpre, hall⟩ := ih (cs ++ [path])
          refine ⟨(List.prefix_append _ _).trans hpre, fun hlt next hnext => ?_⟩
          rcases List.mem_cons.mp hnext with rfl | hnext
          · exact ⟨fun _ => hpre.subset (by simp), fun hne => absurd hstart hne⟩
          · exact hall hlt next hnext
      · rename_i hstart
        split
        · rename_i hskip
          obtain ⟨hpre, hall⟩ := ih cs
          refine ⟨hpre, fun hlt next hnext => ?_⟩
          rcases List.mem_cons.mp hnext with rfl | hnext
          · refine ⟨fun h => absurd h hstart, fun _ hnot hle => ?_⟩
            exact absurd hskip (not_or.mpr ⟨hnot, hle⟩)
          · exact hall hlt next hnext
        · obtain ⟨hpre, hall⟩ := ih (descend n cs)
          refine ⟨(hdescend n cs).trans hpre, fun hlt next hnext => ?_⟩
          rcases List.mem_cons.mp hnext with rfl | hnext
          · exact ⟨fun h => absurd h hstart, fun _ _ _ => ⟨cs, hpre⟩⟩
          · exact hall hlt next hnext

theorem search_extends (adjacency : ν → List ν) (cap : Int) (start : ν) :
    ∀ (fuel : Nat) (node : ν) (path : List ν) (cs : List (List ν)),
    cs <+: search adjacency cap start fuel node path cs := by
  intro fuel
  induction fuel with
  | zero => exact fun _ _ cs => List.prefix_refl cs
  | succ fuel ih =>
    intro node path cs
    rw [search]
    split
    · exact List.prefix_refl cs
    · exact (scanNext_spec path (fun next cs => ih next _ cs) (adjacency node) cs).1

/-- Below the cap every completion of the path to a cycle is found. -/
theorem search_complete : ∀ (fuel : Nat) (rest path : List ν) (node : ν) (cs : List (List ν)),
    IsPath adjacency start path node → rest.length < fuel →
    ((search adjacency cap start fuel node path cs).length : Int) < cap →
    FromLeast adjacency start (path ++ rest) →
    path ++ rest ∈ search adjacency cap start fuel node path cs := by
  intro fuel
  induction fuel with
  | zero => intro rest path node cs _ hfuel; omega
  | succ fuel ih =>
    intro rest path node cs hp hfuel hlt hcycle
    have hcap : ¬ cap ≤ cs.length := by
      have hle := (search_extends adjacency cap start (fuel + 1) node path cs).length_le
      omega
    have hwrap : List.IsChain (fun x y => y ∈ adjacency x) (path ++ rest ++ [start]) := by
      obtain ⟨l, hl⟩ : ∃ l, path ++ rest = start :: l := by
        cases hpr : path ++ rest with
        | nil => rw [hpr] at hcycle; exact absurd hcycle.head (by simp)
        | cons a l =>
          rw [hpr] at hcycle
          obtain rfl : a = start := Option.some.inj hcycle.head
          exact ⟨l, rfl⟩
      rw [hl] at hcycle ⊢
      exact forall_pairs_cons_iff.mp hcycle.elementary.edges
    rw [search, if_neg hcap] at hlt ⊢
    obtain ⟨_, hall⟩ := scanNext_spec path
      (fun next cs => search_extends adjacency cap start fuel next (path ++ [next]) cs)
      (adjacency node) cs
    cases rest with
    | nil =>
      -- the path itself is the cycle
      rw [List.append_nil] at hwrap ⊢
      have hback := (List.isChain_append.mp hwrap).2.2 node (by rw [hp.last]; rfl) start rfl
      exact (hall hlt start hback).1 rfl
    | cons next rest =>
      have hnext : next ∈ adjacency node := by
        rw [List.append_assoc] at hwrap
        exact (List.isChain_append.mp hwrap).2.2 node (by rw [hp.last]; rfl) next rfl
      have hnodup := hcycle.elementary.nodup
      have hnew : next ∉ path := fun hmem =>
        (List.nodup_append.mp hnodup).2.2 next hmem next (List.mem_cons_self ..) rfl
      have hne : next ≠ start := fun heq => hnew (heq ▸ hp.start_mem)
      have hle : ¬ next < start := not_lt.mpr
        (hcycle.least next (List.mem_append_right _ (List.mem_cons_self ..)))
      obtain ⟨cs', hpre⟩ := (hall hlt next hnext).2 hne hnew hle
      have hsplit : path ++ next :: rest = (path ++ [next]) ++ rest := by simp
      rw [hsplit] at hcycle ⊢
      refine hpre.subset (ih rest _ next cs' (hp.extend hnext hnew hle) ?_ ?_ hcycle)
      · rw [List.length_cons] at hfuel
        omega
      · exact Int.lt_of_le_of_lt (Int.ofNat_le.mpr hpre.length_le) hlt

/-- When the cap was not hit, every elementary cycle has been found. -/
theorem cycles_complete {members : List ν} (h : (cycles adjacency cap members).2 = false)
    {start : ν} (hstart : start ∈ members) {c : List ν} (hc : FromLeast adjacency start c)
    (hsub : ∀ x ∈ c, x ∈ members) : c ∈ (cycles adjacency cap members).1 := by
  have hgen : ∀ (starts : List ν) (cs : List (List ν)),
      (fromStarts adjacency cap members.length starts cs).2 = false →
      cs <+: (fromStarts adjacency cap members.length starts cs).1
      ∧ (start ∈ starts → c ∈ (fromStarts adjacency cap members.length starts cs).1) := by
    intro starts
    induction starts with
    | nil => exact fun cs _ => ⟨List.prefix_refl cs, by simp⟩
    | cons s rest ih =>
      intro cs h
      rw [fromStarts] at h ⊢
      split at h
      · cases h
      · rename_i hcap
        rw [if_neg hcap]
        obtain ⟨hpre, hrest⟩ := ih _ h
        refine ⟨(search_extends _ _ _ _ _ _ _).trans hpre, fun hmem => ?_⟩
        rcases List.mem_cons.mp hmem with rfl | hmem
        · obtain ⟨l, rfl⟩ : ∃ l, c = [start] ++ l := by
            cases c with
            | nil => exact absurd hc.head (by simp)
            | cons a l =>
              obtain rfl : a = start := Option.some.inj hc.head
              exact ⟨l, rfl⟩
          have hlen := List.Nodup.length_le_of_subset hc.elementary.nodup hsub
          rw [List.length_append, List.length_singleton] at hlen
          exact hpre.subset (search_complete _ l _ _ cs (isPath_singleton adjacency start)
            (by omega) (by omega) hc)
        · exact hrest hmem
  exact (hgen members [] h).2 hstart

/-! ## Each cycle once -/

omit [LinearOrder ν] in
/-- A path is shorter than what continues it. -/
theorem not_continued {path : List ν} {next : ν} : ¬ path ++ [next] <+: path := by
  intro hpre
  have hlen := hpre.length_le
  rw [List.length_append, List.length_singleton] at hlen
  omega

omit [LinearOrder ν] in
/-- A list continues a path in one way. -/
theorem next_unique {path c : List ν} {n m : ν} (hn : path ++ [n] <+: c) (hm : path ++ [m] <+: c) :
    n = m := by
  have hsame : path ++ [n] = path ++ [m] :=
    List.IsPrefix.eq_of_length (List.prefix_of_prefix_length_le hn hm (by simp)) (by simp)
  simpa using hsame

/-- The loop adds the path itself, or what continues it by one of its
successors, and nothing twice. -/
theorem scanNext_adds {descend : ν → List (List ν) → List (List ν)} (path : List ν)
    (hdescend : ∀ next cs, ∃ new, descend next cs = cs ++ new ∧ new.Nodup
      ∧ ∀ c ∈ new, path ++ [next] <+: c) :
    ∀ (nexts : List ν) (cs : List (List ν)), nexts.Nodup →
      ∃ new, scanNext cap descend start path nexts cs = cs ++ new ∧ new.Nodup
        ∧ ∀ c ∈ new, (start ∈ nexts ∧ c = path) ∨ ∃ next ∈ nexts, path ++ [next] <+: c
  | [], cs, _ => ⟨[], by simp [scanNext], List.nodup_nil, by simp⟩
  | n :: more, cs, hnd => by
      have hnot : n ∉ more := (List.nodup_cons.mp hnd).1
      have ih := fun cs => scanNext_adds path hdescend more cs (List.nodup_cons.mp hnd).2
      have hwiden : ∀ c, (start ∈ more ∧ c = path) ∨ (∃ next ∈ more, path ++ [next] <+: c) →
          (start ∈ n :: more ∧ c = path) ∨ ∃ next ∈ n :: more, path ++ [next] <+: c := by
        rintro c (⟨hstart, hc⟩ | ⟨next, hnext, hc⟩)
        · exact .inl ⟨List.mem_cons_of_mem _ hstart, hc⟩
        · exact .inr ⟨next, List.mem_cons_of_mem _ hnext, hc⟩
      rw [scanNext]
      split
      · rename_i hstart
        split
        · exact ⟨[path], rfl, List.nodup_singleton _, fun c hc =>
            .inl ⟨hstart ▸ List.mem_cons_self .., List.mem_singleton.mp hc⟩⟩
        · obtain ⟨new, heq, hnew, hall⟩ := ih (cs ++ [path])
          refine ⟨path :: new, by rw [heq]; simp, List.nodup_cons.mpr ⟨fun hmem => ?_, hnew⟩, ?_⟩
          · rcases hall path hmem with ⟨hmore, _⟩ | ⟨next, _, hpre⟩
            · exact hnot (hstart ▸ hmore)
            · exact not_continued hpre
          · intro c hc
            rcases List.mem_cons.mp hc with rfl | hc
            · exact .inl ⟨hstart ▸ List.mem_cons_self .., rfl⟩
            · exact hwiden c (hall c hc)
      · split
        · obtain ⟨new, heq, hnew, hall⟩ := ih cs
          exact ⟨new, heq, hnew, fun c hc => hwiden c (hall c hc)⟩
        · obtain ⟨first, hfirst, hfirstnd, hfirstall⟩ := hdescend n cs
          obtain ⟨new, heq, hnew, hall⟩ := ih (descend n cs)
          refine ⟨first ++ new, by rw [heq, hfirst, List.append_assoc], ?_, ?_⟩
          · refine List.Nodup.append hfirstnd hnew fun c hc hc' => ?_
            have hpre := hfirstall c hc
            rcases hall c hc' with ⟨_, rfl⟩ | ⟨next, hnext, hpre'⟩
            · exact not_continued hpre
            · exact hnot (next_unique hpre hpre' ▸ hnext)
          · intro c hc
            rcases List.mem_append.mp hc with hc | hc
            · exact .inr ⟨n, List.mem_cons_self .., hfirstall c hc⟩
            · exact hwiden c (hall c hc)

/-- The search adds continuations of its path, none of them twice. -/
theorem search_adds (hadj : ∀ x, (adjacency x).Nodup) :
    ∀ (fuel : Nat) (node : ν) (path : List ν) (cs : List (List ν)),
      ∃ new, search adjacency cap start fuel node path cs = cs ++ new ∧ new.Nodup
        ∧ ∀ c ∈ new, path <+: c := by
  intro fuel
  induction fuel with
  | zero => exact fun _ _ cs => ⟨[], by simp [search], List.nodup_nil, by simp⟩
  | succ fuel ih =>
    intro node path cs
    rw [search]
    split
    · exact ⟨[], by simp, List.nodup_nil, by simp⟩
    · obtain ⟨new, heq, hnew, hall⟩ := scanNext_adds path
        (fun next cs => ih next (path ++ [next]) cs) (adjacency node) cs (hadj node)
      refine ⟨new, heq, hnew, fun c hc => ?_⟩
      rcases hall c hc with ⟨_, rfl⟩ | ⟨next, _, hpre⟩
      · exact List.prefix_refl _
      · exact (List.prefix_append _ _).trans hpre

/-- **Whatever the cap, no cycle is found twice.** -/
theorem cycles_nodup (hadj : ∀ x, (adjacency x).Nodup) {members : List ν} (hmem : members.Nodup) :
    (cycles adjacency cap members).1.Nodup := by
  have hgen : ∀ (starts : List ν) (cs : List (List ν)), starts.Nodup → cs.Nodup →
      (∀ c ∈ cs, ∀ s ∈ starts, ¬ [s] <+: c) →
      (fromStarts adjacency cap members.length starts cs).1.Nodup := by
    intro starts
    induction starts with
    | nil => exact fun cs _ hcs _ => hcs
    | cons s rest ih =>
      intro cs hnd hcs hfresh
      have hs : s ∉ rest := (List.nodup_cons.mp hnd).1
      obtain ⟨new, heq, hnew, hall⟩ :=
        @search_adds ν _ adjacency cap s hadj members.length s [s] cs
      have hboth : (cs ++ new).Nodup := List.Nodup.append hcs hnew fun c hc hc' =>
        hfresh c hc s (List.mem_cons_self ..) (hall c hc')
      rw [fromStarts, heq]
      split
      · exact hboth
      · refine ih _ (List.nodup_cons.mp hnd).2 hboth fun c hc s' hs' hpre => ?_
        rcases List.mem_append.mp hc with hc | hc
        · exact hfresh c hc s' (List.mem_cons_of_mem _ hs') hpre
        · obtain rfl : s = s' := @next_unique ν [] c s s' (hall c hc) hpre
          exact hs hs'
  exact hgen members [] hmem List.nodup_nil (by simp)

/-- The flag is set as soon as the cap is reached. -/
theorem cycles_length_lt {members : List ν} (hne : members ≠ [])
    (h : (cycles adjacency cap members).2 = false) :
    ((cycles adjacency cap members).1.length : Int) < cap := by
  have hgen : ∀ (starts : List ν) (cs : List (List ν)),
      starts ≠ [] ∨ (cs.length : Int) < cap →
      (fromStarts adjacency cap members.length starts cs).2 = false →
      ((fromStarts adjacency cap members.length starts cs).1.length : Int) < cap := by
    intro starts
    induction starts with
    | nil => exact fun cs hcs _ => hcs.resolve_left (by simp)
    | cons s rest ih =>
      intro cs _ h
      rw [fromStarts] at h ⊢
      split at h
      · cases h
      · rename_i hcap
        rw [if_neg hcap]
        exact ih _ (.inr (not_le.mp hcap)) h
  exact hgen members [] (.inl hne) h

/-- The flag is set only where the cap is reached. -/
theorem cap_le_cycles_length {members : List ν} (h : (cycles adjacency cap members).2 = true) :
    cap ≤ ((cycles adjacency cap members).1.length : Int) := by
  have hgen : ∀ (starts : List ν) (cs : List (List ν)),
      (fromStarts adjacency cap members.length starts cs).2 = true →
      cap ≤ ((fromStarts adjacency cap members.length starts cs).1.length : Int) := by
    intro starts
    induction starts with
    | nil => intro cs h; cases h
    | cons s rest ih =>
      intro cs h
      rw [fromStarts] at h ⊢
      split at h
      · rename_i hcap
        rw [if_pos hcap]
        exact hcap
      · rename_i hcap
        rw [if_neg hcap]
        exact ih _ h
  exact hgen members [] h

end ElementaryCycles

end Library
