/-
FprimeTopologyAnalysis.Library.SimplePaths — depth-first search with the
visited set kept per path.

The search enters a node with the trail of hops that led to it. On a node
the trail has already passed it closes the trail and turns back; otherwise
it takes every hop and enters every node behind it, to a bounded depth.
Nothing is remembered across branches, so the search meets every simple
trail, one event for each hop taken from it and one for each closed end.

`events` lists those events in the order of the search. A search that
folds an effect over what it meets is a fold over that list: its loops are
`foldlM`, and `foldlM_collect` turns one loop into the fold of the events
of its rounds.

The rules:

* `mem_events_iff` — the events are those of the simple trails within the
  depth;
* `events_ok_iff` — the search raises unless every node it expands
  answers;
* `foldlM_collect`, `foldlM_enter` — a loop whose rounds fold events folds
  them all.
-/
import Mathlib.Logic.Relation
import Mathlib.Data.List.Basic
import Mathlib.Tactic.Cases

namespace Library

universe u

namespace SimplePaths

variable {ν η ε α β γ : Type u}

/-! ## Loops that may raise -/

/-- The answers of all rounds, or the first thing raised. -/
def collect (f : β → Except ε (List γ)) : List β → Except ε (List γ)
  | [] => .ok []
  | x :: xs =>
    match f x with
    | .error e => .error e
    | .ok ys =>
      match collect f xs with
      | .error e => .error e
      | .ok zs => .ok (ys ++ zs)

theorem collect_ok_iff {f : β → Except ε (List γ)} (xs : List β) :
    (∃ zs, collect f xs = .ok zs) ↔ ∀ x ∈ xs, ∃ ys, f x = .ok ys := by
  induction xs with
  | nil => simp [collect]
  | cons x xs ih =>
    rw [List.forall_mem_cons, ← ih, collect]
    cases f x with
    | error e => simp
    | ok ys =>
      cases collect f xs with
      | error e => simp
      | ok zs => simp

theorem mem_collect_iff {f : β → Except ε (List γ)} {y : γ} :
    ∀ {xs : List β} {zs : List γ}, collect f xs = .ok zs →
      (y ∈ zs ↔ ∃ x ∈ xs, ∃ ys, f x = .ok ys ∧ y ∈ ys)
  | [], zs, h => by
      obtain rfl : [] = zs := by simpa [collect] using h
      simp
  | x :: xs, zs, h => by
      rw [collect] at h
      cases hx : f x with
      | error e => simp [hx] at h
      | ok ys =>
        cases hxs : collect f xs with
        | error e => simp [hx, hxs] at h
        | ok zs' =>
          obtain rfl : ys ++ zs' = zs := by simpa [hx, hxs] using h
          simp [mem_collect_iff hxs, hx]

/-- Two nested loops are one. -/
theorem foldlM_flatMap {f : β → List γ} {body : α → γ → Except ε α} (xs : List β) :
    ∀ a, (xs.flatMap f).foldlM body a = xs.foldlM (fun a x => (f x).foldlM body a) a := by
  induction xs with
  | nil => exact fun a => rfl
  | cons x xs ih =>
    intro a
    rw [List.flatMap_cons, List.foldlM_append, List.foldlM_cons]
    exact bind_congr ih

/-- A loop whose rounds fold what they meet folds all of it. -/
theorem foldlM_collect {f : β → Except ε (List γ)} {effect : α → γ → α}
    {body : α → β → Except ε α} :
    ∀ (xs : List β), (∀ x ∈ xs, ∀ a, body a x = (f x).map fun ys => ys.foldl effect a) →
      ∀ a, xs.foldlM body a = (collect f xs).map fun zs => zs.foldl effect a
  | [], _, a => rfl
  | x :: xs, hbody, a => by
      rw [List.foldlM_cons, hbody x (List.mem_cons_self ..), collect]
      cases f x with
      | error e => rfl
      | ok ys =>
        have hrest := foldlM_collect xs (fun y hy => hbody y (List.mem_cons_of_mem _ hy))
          (ys.foldl effect a)
        show xs.foldlM body (ys.foldl effect a) = _
        rw [hrest]
        cases collect f xs with
        | error e => rfl
        | ok zs => exact congrArg Except.ok List.foldl_append.symm

/-- A loop whose rounds all answer answers. -/
theorem foldlM_ok {body : α → β → Except ε α} :
    ∀ (xs : List β), (∀ x ∈ xs, ∀ a, ∃ a', body a x = .ok a') →
      ∀ a, ∃ a', xs.foldlM body a = .ok a'
  | [], _, a => ⟨a, rfl⟩
  | x :: xs, hbody, a => by
      obtain ⟨a', ha⟩ := hbody x (List.mem_cons_self ..) a
      rw [List.foldlM_cons, ha]
      exact foldlM_ok xs (fun y hy => hbody y (List.mem_cons_of_mem _ hy)) a'

/-! ## Trails -/

/-- What is searched: the hops out of a node, and the nodes behind a hop. -/
structure Problem (ν η ε : Type u) where
  hops : ν → Except ε (List η)
  next : η → List ν

/-- Where a search stands: the hops taken so far with the nodes they
entered, the nodes passed, latest first, and the node it has entered. -/
structure Point (ν η : Type u) where
  trail : List (η × ν)
  passed : List ν
  node : ν

/-- The search's first point. -/
def Point.root (n : ν) : Point ν η := ⟨[], [], n⟩

/-- Entering `m` by the hop `h`. -/
def Point.enter (p : Point ν η) (h : η) (m : ν) : Point ν η :=
  ⟨p.trail ++ [(h, m)], p.node :: p.passed, m⟩

@[simp] theorem Point.length_enter (p : Point ν η) (h : η) (m : ν) :
    (p.enter h m).trail.length = p.trail.length + 1 := by
  simp [enter]

/-- The trail has come back to a node it passed. -/
def Point.Closed (p : Point ν η) : Prop := p.node ∈ p.passed

instance [DecidableEq ν] (p : Point ν η) : Decidable p.Closed :=
  inferInstanceAs (Decidable (p.node ∈ p.passed))

variable (P : Problem ν η ε)

/-- One hop on from an open trail. -/
def Step (p q : Point ν η) : Prop :=
  ¬ p.Closed ∧ ∃ hs, P.hops p.node = .ok hs ∧ ∃ h ∈ hs, ∃ m ∈ P.next h, q = p.enter h m

/-- The simple trails on from `p`. -/
def Trail : Point ν η → Point ν η → Prop := Relation.ReflTransGen (Step P)

/-- What a search meets: a hop from an open trail, or a closed trail. -/
inductive Event (ν η : Type u) where
  | hop (p : Point ν η) (h : η)
  | closed (p : Point ν η)

/-- The events of a search from `p` to depth `k`. -/
inductive Occurs (p : Point ν η) (k : Nat) : Event ν η → Prop
  | hop {q : Point ν η} {hs : List η} {h : η} : Trail P p q → ¬ q.Closed →
      q.trail.length < p.trail.length + k → P.hops q.node = .ok hs → h ∈ hs →
      Occurs p k (.hop q h)
  | closed {q : Point ν η} : Trail P p q → q.Closed →
      q.trail.length ≤ p.trail.length + k → Occurs p k (.closed q)

variable {P}

theorem Trail.length_le {p q : Point ν η} (h : Trail P p q) :
    p.trail.length ≤ q.trail.length := by
  induction h with
  | refl => exact Nat.le_refl _
  | tail _ hstep ih =>
    obtain ⟨_, _, _, _, _, _, _, rfl⟩ := hstep
    rw [Point.length_enter]
    exact Nat.le_trans ih (Nat.le_succ _)

/-- Nothing goes on from a closed trail. -/
theorem Trail.eq_of_closed {p q : Point ν η} (h : Trail P p q) (hc : p.Closed) : q = p := by
  rcases h.cases_head with heq | ⟨_, hstep, _⟩
  · exact heq.symm
  · exact absurd hc hstep.1

theorem occurs_closed_iff {p : Point ν η} (hc : p.Closed) {k : Nat} {e : Event ν η} :
    Occurs P p k e ↔ e = .closed p := by
  constructor
  · intro h
    cases h with
    | hop htrail hopen => exact absurd (htrail.eq_of_closed hc ▸ hc) hopen
    | closed htrail _ _ => rw [htrail.eq_of_closed hc]
  · rintro rfl
    exact .closed .refl hc (by omega)

theorem not_occurs_zero {p : Point ν η} (hc : ¬ p.Closed) {e : Event ν η} :
    ¬ Occurs P p 0 e := by
  intro h
  cases h with
  | hop htrail _ hlen => exact absurd htrail.length_le (by omega)
  | closed htrail hclosed hlen =>
    rcases htrail.cases_head with heq | ⟨r, hstep, hrest⟩
    · exact hc (heq ▸ hclosed)
    · obtain ⟨_, _, _, _, _, _, _, rfl⟩ := hstep
      have := Trail.length_le hrest
      rw [Point.length_enter] at this
      omega

/-- The events from an open point are its own hops and those from the nodes
behind them. -/
theorem occurs_open_iff {p : Point ν η} (hc : ¬ p.Closed) {k : Nat} {e : Event ν η} {hs : List η}
    (hok : P.hops p.node = .ok hs) :
    Occurs P p (k + 1) e ↔ ∃ h ∈ hs, e = .hop p h ∨ ∃ m ∈ P.next h, Occurs P (p.enter h m) k e := by
  have hfirst : ∀ {q}, Trail P p q → q = p ∨ ∃ h ∈ hs, ∃ m ∈ P.next h, Trail P (p.enter h m) q := by
    intro q htrail
    rcases htrail.cases_head with heq | ⟨r, ⟨_, hs', hok', h, hh, m, hm, rfl⟩, hrest⟩
    · exact .inl heq.symm
    · obtain rfl : hs = hs' := by simpa using hok.symm.trans hok'
      exact .inr ⟨h, hh, m, hm, hrest⟩
  have hback : ∀ {q h m}, h ∈ hs → m ∈ P.next h → Trail P (p.enter h m) q → Trail P p q :=
    fun hh hm hrest => Relation.ReflTransGen.head ⟨hc, hs, hok, _, hh, _, hm, rfl⟩ hrest
  constructor
  · intro h
    cases h with
    | hop htrail hopen hlen hokq hh =>
      rcases hfirst htrail with rfl | ⟨h', hh', m, hm, hrest⟩
      · obtain rfl := Except.ok.inj (hok.symm.trans hokq)
        exact ⟨_, hh, .inl rfl⟩
      · exact ⟨h', hh', .inr ⟨m, hm, .hop hrest hopen (by simp; omega) hokq hh⟩⟩
    | closed htrail hclosed hlen =>
      rcases hfirst htrail with rfl | ⟨h', hh', m, hm, hrest⟩
      · exact absurd hclosed hc
      · exact ⟨h', hh', .inr ⟨m, hm, .closed hrest hclosed (by simp; omega)⟩⟩
  · rintro ⟨h, hh, rfl | ⟨m, hm, hocc⟩⟩
    · exact .hop .refl hc (by omega) hok hh
    · cases hocc with
      | hop hrest hopen hlen hokq hh' =>
        rw [Point.length_enter] at hlen
        exact .hop (hback hh hm hrest) hopen (by omega) hokq hh'
      | closed hrest hclosed hlen =>
        rw [Point.length_enter] at hlen
        exact .closed (hback hh hm hrest) hclosed (by omega)

/-- A trail keeps one node for each hop. -/
theorem Trail.length_passed {r : ν} {q : Point ν η} (h : Trail P (.root r) q) :
    q.passed.length = q.trail.length := by
  induction h with
  | refl => rfl
  | tail _ hstep ih =>
    obtain ⟨_, _, _, _, _, _, _, rfl⟩ := hstep
    simp [Point.enter, ih]

/-- A trail passes no node twice. -/
theorem Trail.nodup {r : ν} {q : Point ν η} (h : Trail P (.root r) q) : q.passed.Nodup := by
  induction h with
  | refl => exact List.nodup_nil
  | tail _ hstep ih =>
    obtain ⟨hopen, _, _, _, _, _, _, rfl⟩ := hstep
    exact List.nodup_cons.mpr ⟨hopen, ih⟩

/-- What all nodes behind hops share, and the root too, the whole trail does. -/
theorem Trail.forall_passed {r : ν} {q : Point ν η} (h : Trail P (.root r) q) {S : ν → Prop}
    (hr : S r) (hstep : ∀ n hs, P.hops n = .ok hs → ∀ h ∈ hs, ∀ m ∈ P.next h, S m) :
    S q.node ∧ ∀ n ∈ q.passed, S n := by
  induction h with
  | refl => exact ⟨hr, by simp [Point.root]⟩
  | tail _ hs ih =>
    obtain ⟨_, hs, hok, h, hh, m, hm, rfl⟩ := hs
    exact ⟨hstep _ hs hok h hh m hm, List.forall_mem_cons.mpr ih⟩

/-- The part of a trail after a point on it, as a trail of its own. -/
theorem Trail.detach {p q : Point ν η} (h : Trail P p q) :
    ∃ steps passed, q.trail = p.trail ++ steps ∧ q.passed = passed ++ p.passed
      ∧ Trail P (.root p.node) ⟨steps, passed, q.node⟩ := by
  induction h with
  | refl => exact ⟨[], [], by simp, by simp, .refl⟩
  | @tail q q' _ hstep ih =>
    obtain ⟨steps, passed, htrail, hpassed, hrest⟩ := ih
    obtain ⟨hopen, hs, hok, h, hh, m, hm, rfl⟩ := hstep
    refine ⟨steps ++ [(h, m)], q.node :: passed, by simp [Point.enter, htrail],
      by simp [Point.enter, hpassed], hrest.tail ⟨?_, hs, hok, h, hh, m, hm, rfl⟩⟩
    intro hc
    refine hopen ?_
    show q.node ∈ q.passed
    rw [hpassed]
    exact List.mem_append_left _ hc

/-- Every node passed is a point of the trail. -/
theorem Trail.point_of_mem {r : ν} {q : Point ν η} (h : Trail P (.root r) q) :
    ∀ n ∈ q.passed, ∃ p p', Trail P (.root r) p ∧ p.node = n ∧ Step P p p' ∧ Trail P p' q := by
  induction h with
  | refl => simp [Point.root]
  | @tail q q' hq hstep ih =>
    intro n hn
    have hpassed : q'.passed = q.node :: q.passed := by
      obtain ⟨_, _, _, _, _, _, _, rfl⟩ := hstep
      rfl
    rw [hpassed, List.mem_cons] at hn
    rcases hn with rfl | hn
    · exact ⟨q, q', hq, rfl, hstep, .refl⟩
    · obtain ⟨p, p', hp, hnode, hpp', hrest⟩ := ih n hn
      exact ⟨p, p', hp, hnode, hpp', hrest.tail hstep⟩

variable (P) in
/-- A hop out of `n` leads to `m`. -/
def Leads (n m : ν) : Prop := ∃ hs, P.hops n = .ok hs ∧ ∃ h ∈ hs, m ∈ P.next h

/-- A trail goes where the hops lead. -/
theorem Trail.leads {r : ν} {q : Point ν η} (h : Trail P (.root r) q) :
    Relation.ReflTransGen (Leads P) r q.node := by
  induction h with
  | refl => exact .refl
  | tail _ hstep ih =>
    obtain ⟨_, hs, hok, h, hh, m, hm, rfl⟩ := hstep
    exact ih.tail ⟨hs, hok, h, hh, hm⟩

/-- A hop of a trail is out of a node that the root leads to, and what it enters
leads to the trail's end. -/
theorem Trail.leads_of_mem {r : ν} {q : Point ν η} (h : Trail P (.root r) q) :
    ∀ step ∈ q.trail, ∃ n hs, Relation.ReflTransGen (Leads P) r n ∧ P.hops n = .ok hs
      ∧ step.1 ∈ hs ∧ step.2 ∈ P.next step.1 ∧ Relation.ReflTransGen (Leads P) step.2 q.node := by
  induction h with
  | refl => simp [Point.root]
  | @tail q q' hq hstep ih =>
    obtain ⟨_, hs, hok, h, hh, m, hm, rfl⟩ := hstep
    intro step hmem
    rcases List.mem_append.mp hmem with hmem | hlast
    · obtain ⟨n, hs', hfrom, hok', hh', hm', hto⟩ := ih step hmem
      exact ⟨n, hs', hfrom, hok', hh', hm', hto.tail ⟨hs, hok, h, hh, hm⟩⟩
    · obtain rfl := List.mem_singleton.mp hlast
      exact ⟨q.node, hs, Trail.leads hq, hok, hh, hm, .refl⟩

variable (P) in
/-- `n` is so many hops away from `r`. -/
def Away : Nat → ν → ν → Prop
  | 0, r, n => n = r
  | k + 1, r, n => ∃ m, Away k r m ∧ Leads P m n

/-- What is so many hops away has an open trail of no more. -/
theorem Away.exists_trail {r : ν} : ∀ {k : Nat} {n : ν}, Away P k r n →
    ∃ q, Trail P (.root r) q ∧ ¬ q.Closed ∧ q.node = n ∧ q.trail.length ≤ k
  | 0, _, h => ⟨.root r, .refl, by simp [Point.Closed, Point.root], h.symm, Nat.le_refl _⟩
  | k + 1, n, ⟨m, hm, hs, hok, h, hh, hn⟩ => by
      obtain ⟨q, hq, hopen, rfl, hlen⟩ := Away.exists_trail hm
      by_cases hnode : n = q.node
      · exact ⟨q, hq, hopen, hnode.symm, by omega⟩
      · by_cases hpassed : n ∈ q.passed
        · -- the trail has been there before
          obtain ⟨p, p', hp, hpn, hstep, hrest⟩ := hq.point_of_mem n hpassed
          have hle := Trail.length_le (P := P) (.head hstep hrest)
          exact ⟨p, hp, hstep.1, hpn, by omega⟩
        · exact ⟨q.enter h n, hq.tail ⟨hopen, hs, hok, h, hh, n, hn, rfl⟩,
            by simp [Point.Closed, Point.enter, hnode, hpassed], rfl, by simp; omega⟩

/-- An elementary cycle through `n`: a trail from `n` that closes on it. -/
def Cycle (P : Problem ν η ε) (n : ν) (steps : List (η × ν)) : Prop :=
  steps ≠ [] ∧ ∃ passed, Trail P (.root n) ⟨steps, passed, n⟩

/-- The hops a closed trail takes after it first passes the node it ends in. -/
def Point.loop [DecidableEq ν] (p : Point ν η) : List (η × ν) :=
  p.trail.drop (p.passed.reverse.idxOf p.node)

/-- A closed trail ends in an elementary cycle. -/
theorem Trail.loop_spec [DecidableEq ν] {r : ν} {q : Point ν η} (h : Trail P (.root r) q)
    (hc : q.Closed) : Cycle P q.node q.loop ∧ q.loop <:+ q.trail := by
  obtain ⟨p, p', hp, hnode, hstep, hrest⟩ := h.point_of_mem q.node hc
  have hlonger : p.trail.length < q.trail.length := by
    have := Trail.length_le hrest
    obtain ⟨_, _, _, _, _, _, _, rfl⟩ := hstep
    rw [Point.length_enter] at this
    omega
  obtain ⟨steps, passed, htrail, _, hcycle⟩ := Trail.detach (.head hstep hrest)
  have hne : steps ≠ [] := by
    rintro rfl
    simp [htrail] at hlonger
  -- `p` is where the node is first passed, so the search for it ends there
  have hidx : q.passed.reverse.idxOf q.node = p.trail.length := by
    obtain ⟨_, after, _, hafter, _⟩ := hrest.detach
    obtain ⟨hopen, _, _, _, _, _, _, rfl⟩ := hstep
    have hreverse : q.passed.reverse = p.passed.reverse ++ q.node :: after.reverse := by
      simp [hafter, Point.enter, hnode]
    have hfresh : q.node ∉ p.passed.reverse := by
      rw [List.mem_reverse, ← hnode]
      exact hopen
    rw [hreverse, List.idxOf_append_of_notMem hfresh, List.idxOf_cons_self, List.length_reverse,
      hp.length_passed, Nat.add_zero]
  have hloop : q.loop = steps := by
    rw [Point.loop, hidx, htrail, List.drop_left]
  rw [hloop]
  exact ⟨⟨hne, passed, hnode ▸ hcycle⟩, htrail ▸ List.suffix_append ..⟩

/-! ## The search -/

variable [DecidableEq ν] (P)

/-- The events of a search, in its order. -/
def events : Nat → Point ν η → Except ε (List (Event ν η))
  | 0, p => .ok (if p.Closed then [.closed p] else [])
  | k + 1, p =>
    if p.Closed then .ok [.closed p]
    else
      match P.hops p.node with
      | .error e => .error e
      | .ok hs =>
        collect (fun h =>
          (collect (fun m => events k (p.enter h m)) (P.next h)).map (Event.hop p h :: ·)) hs

variable {P}

theorem events_closed {k : Nat} {p : Point ν η} (hc : p.Closed) :
    events P k p = .ok [.closed p] := by
  cases k with
  | zero => simp [events, hc]
  | succ k => simp [events, hc]

theorem events_open {k : Nat} {p : Point ν η} (hc : ¬ p.Closed) {hs : List η}
    (hok : P.hops p.node = .ok hs) :
    events P (k + 1) p = collect (fun h =>
      (collect (fun m => events P k (p.enter h m)) (P.next h)).map (Event.hop p h :: ·)) hs := by
  simp only [events, hc, if_false, hok]

/-- The loop over the nodes behind a hop, after the hop's own event, folds the
events the search meets there. -/
theorem foldlM_enter {effect : α → Event ν η → α} {body : α → ν → Except ε α} {k : Nat}
    {p : Point ν η} {h : η}
    (hbody : ∀ m ∈ P.next h, ∀ a,
      body a m = (events P k (p.enter h m)).map fun es => es.foldl effect a) (a : α) :
    (P.next h).foldlM body (effect a (.hop p h))
      = ((collect (fun m => events P k (p.enter h m)) (P.next h)).map (Event.hop p h :: ·)).map
          fun es => es.foldl effect a := by
  rw [foldlM_collect _ hbody]
  cases collect (fun m => events P k (p.enter h m)) (P.next h) with
  | error e => rfl
  | ok es => rfl

theorem map_eq_ok_iff {f : α → β} {r : Except ε α} {b : β} :
    r.map f = .ok b ↔ ∃ a, r = .ok a ∧ f a = b := by
  cases r with
  | error e => simp [Except.map]
  | ok a => simp [Except.map]

/-- **The events are those of the simple trails within the depth.** -/
theorem mem_events_iff : ∀ {k : Nat} {p : Point ν η} {es : List (Event ν η)},
    events P k p = .ok es → ∀ e, e ∈ es ↔ Occurs P p k e
  | 0, p, es, h, e => by
      by_cases hc : p.Closed
      · obtain rfl := Except.ok.inj (h.symm.trans (events_closed hc))
        rw [List.mem_singleton, occurs_closed_iff hc]
      · obtain rfl : [] = es := by simpa [events, hc] using h
        simp [not_occurs_zero hc]
  | k + 1, p, es, h, e => by
      by_cases hc : p.Closed
      · obtain rfl := Except.ok.inj (h.symm.trans (events_closed hc))
        rw [List.mem_singleton, occurs_closed_iff hc]
      · cases hok : P.hops p.node with
        | error err => simp [events, hc, hok] at h
        | ok hs =>
          rw [events_open hc hok] at h
          rw [mem_collect_iff h, occurs_open_iff hc hok]
          refine exists_congr fun hop => and_congr_right fun hhop => ?_
          -- one hop: its own event, then those behind it
          obtain ⟨ys, hys⟩ := (collect_ok_iff hs).mp ⟨es, h⟩ hop hhop
          obtain ⟨zs, hzs, rfl⟩ := map_eq_ok_iff.mp hys
          rw [hys]
          simp only [Except.ok.injEq, exists_eq_left', List.mem_cons, mem_collect_iff hzs]
          refine or_congr_right (exists_congr fun m => and_congr_right fun hm => ?_)
          obtain ⟨ws, hws⟩ := (collect_ok_iff _).mp ⟨zs, hzs⟩ m hm
          simp only [hws, Except.ok.injEq, exists_eq_left', mem_events_iff hws e]

/-- The search answers exactly when every node it expands does. -/
theorem events_ok_iff : ∀ {k : Nat} {p : Point ν η}, (∃ es, events P k p = .ok es) ↔
    ∀ q, Trail P p q → ¬ q.Closed → q.trail.length < p.trail.length + k →
      ∃ hs, P.hops q.node = .ok hs
  | 0, p => by
      simp only [events, Except.ok.injEq, exists_eq', true_iff]
      intro q hq _ hlen
      exact absurd (Trail.length_le hq) (by omega)
  | k + 1, p => by
      by_cases hc : p.Closed
      · simp only [events_closed hc, Except.ok.injEq, exists_eq', true_iff]
        intro q hq hopen
        exact absurd (Trail.eq_of_closed hq hc ▸ hc) hopen
      · cases hok : P.hops p.node with
        | error err =>
          simp only [events, hc, if_false, hok, reduceCtorEq, exists_false, false_iff, not_forall]
          exact ⟨p, .refl, hc, by omega, by simp [hok]⟩
        | ok hs =>
          rw [events_open hc hok, collect_ok_iff]
          constructor
          · intro hall q hq hopen hlen
            rcases Relation.ReflTransGen.cases_head hq with rfl | ⟨r, hstep, hrest⟩
            · exact ⟨hs, hok⟩
            · obtain ⟨_, hs', hok', h, hh, m, hm, rfl⟩ := hstep
              obtain rfl := Except.ok.inj (hok.symm.trans hok')
              obtain ⟨ys, hys⟩ := hall h hh
              obtain ⟨zs, hzs, _⟩ := map_eq_ok_iff.mp hys
              refine events_ok_iff.mp ((collect_ok_iff _).mp ⟨zs, hzs⟩ m hm) q hrest hopen ?_
              rw [Point.length_enter]
              omega
          · intro hall h hh
            have hbehind : ∃ zs, collect (fun m => events P k (p.enter h m)) (P.next h) = .ok zs := by
              refine (collect_ok_iff _).mpr fun m hm => events_ok_iff.mpr fun q hq hopen hlen => ?_
              rw [Point.length_enter] at hlen
              exact hall q (.head ⟨hc, hs, hok, h, hh, m, hm, rfl⟩ hq) hopen (by omega)
            obtain ⟨zs, hzs⟩ := hbehind
            exact ⟨_, map_eq_ok_iff.mpr ⟨zs, hzs, rfl⟩⟩

end SimplePaths

end Library
