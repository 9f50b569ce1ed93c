/-
FprimeTopologyAnalysis.CallPath — call paths against the thread-origin
table (`_origin_seeds`, `origin_call_path` of `topology_graph.py`).

`origin_call_path` takes the token of an origin apart to find its seeds
again, and searches breadth first from them, apart from the flood that
filled the table. `seedsOfToken` is the parsing as the source does it; on
the token of an origin it finds what `originSeeds` states
(`seedsOfToken_str`).

`Searching` is the invariant of the search: its queue keeps the levels of
`Library.Levels`, and `parent` leads every handler it has met back to a
seed along genuine hops, as many as its level (`Trail`). A path it returns
is therefore a chain of hops from a seed, and no chain from any seed is
shorter (`callPathLoop_spec`). The source leaves open in which order a
port's kinds are tried, so the result is stated for the seeds in any order.
-/
import FprimeTopologyAnalysis.OriginsExact
import FprimeTopologyAnalysis.Library.Levels

namespace FprimeTopologyAnalysis

open Library

/-! ## Tokens -/

/-- `THREAD_ORIGIN_PREFIX`. -/
def threadOriginPrefix : String := "<thread:"

/-- `EXTERNAL_ORIGIN_PREFIX`. -/
def externalOriginPrefix : String := "<external:"

/-- `token[n:-1]`. -/
def sliceToken (n : Nat) (token : String) : List Char := (token.toList.drop n).dropLast

/-- `s.rpartition(".")`: what stands before the last dot, and after it. -/
def rpartitionDot (s : List Char) : List Char × List Char :=
  match s.reverse.dropWhile (· ≠ '.') with
  | [] => ([], s)
  | _ :: head => (head.reverse, (s.reverse.takeWhile (· ≠ '.')).reverse)

/-- A dot after which there is none is the last one. -/
theorem rpartitionDot_append {a c : List Char} (hc : '.' ∉ c) :
    rpartitionDot (a ++ '.' :: c) = (a, c) := by
  have hrev : (a ++ '.' :: c).reverse = c.reverse ++ '.' :: a.reverse := by simp
  have hne : ∀ x ∈ c.reverse, decide (x ≠ '.') = true :=
    fun x hx => decide_eq_true fun h => hc (h ▸ List.mem_reverse.mp hx)
  have hdrop : (a ++ '.' :: c).reverse.dropWhile (fun x => decide (x ≠ '.'))
      = '.' :: a.reverse := by
    rw [hrev, List.dropWhile_append_of_pos hne]
    simp
  have htake : (a ++ '.' :: c).reverse.takeWhile (fun x => decide (x ≠ '.')) = c.reverse := by
    rw [hrev, List.takeWhile_append_of_pos hne]
    simp
  unfold rpartitionDot
  rw [hdrop, htake]
  simp

namespace TopologyGraph

variable (g : TopologyGraph)

/-- `_origin_seeds`, as the source reads it off the token. -/
def seedsOfToken (token : String) : List (PortKey × SyncKind) :=
  if threadOriginPrefix.toList.isPrefixOf token.toList then
    let name := String.ofList (sliceToken threadOriginPrefix.length token)
    match g.instances.get? name with
    | none => []
    | some info =>
      (info.inputPorts.entries.filter fun port => .async ∈ port.2).map fun port =>
        (⟨name, port.1⟩, .async)
  else if externalOriginPrefix.toList.isPrefixOf token.toList then
    let parts := rpartitionDot (sliceToken externalOriginPrefix.length token)
    match g.instances.get? (String.ofList parts.1) with
    | none => []
    | some info =>
      match info.inputPorts.entries.find? fun port => port.1.str = String.ofList parts.2 with
      | none => []
      | some port =>
        ((info.kindOrder.iterate port.2).filter fun kind => kind ≠ .async).map fun kind =>
          (⟨String.ofList parts.1, port.1⟩, kind)
  else []

theorem sliceToken_str {before name : String} :
    sliceToken before.length (before ++ name ++ ">") = name.toList := by
  have hchars : (before ++ name ++ ">").toList = before.toList ++ (name.toList ++ ['>']) := by
    simp
  rw [sliceToken, hchars, ← String.length_toList, List.drop_left, List.dropLast_concat]

theorem seedsOfToken_thread (name : String) :
    g.seedsOfToken (Origin.thread name).str = g.originSeeds (.thread name) := by
  have htoken : threadOriginPrefix.toList.isPrefixOf (Origin.thread name).str.toList = true := by
    simp [Origin.str, threadOriginPrefix]
  have hname : sliceToken threadOriginPrefix.length (Origin.thread name).str = name.toList :=
    sliceToken_str
  unfold seedsOfToken originSeeds
  rw [if_pos htoken, hname]
  cases hget : g.instances.get? name with
  | none => simp only [String.ofList_toList, hget]
  | some info => simp only [String.ofList_toList, hget]

/-- Ports are found by their text. -/
theorem find?_port_str (info : InstanceInfo) (port : PortName) :
    info.inputPorts.entries.find? (fun p => p.1.str = port.str)
      = info.inputPorts.entries.find? (fun p => p.1 = port) := by
  congr 1
  funext p
  simp [PortName.str_injective.eq_iff]

theorem seedsOfToken_external (port : PortKey) :
    g.seedsOfToken (Origin.external port).str = g.originSeeds (.external port) := by
  have hthread : threadOriginPrefix.toList.isPrefixOf (Origin.external port).str.toList = false := by
    simp [Origin.str, threadOriginPrefix, List.isPrefixOf]
  have htoken : externalOriginPrefix.toList.isPrefixOf (Origin.external port).str.toList = true := by
    simp [Origin.str, externalOriginPrefix]
  have hport : sliceToken externalOriginPrefix.length (Origin.external port).str
      = port.inst.toList ++ '.' :: port.port.str.toList := by
    have hslice : sliceToken externalOriginPrefix.length (Origin.external port).str
        = port.str.toList := sliceToken_str
    rw [hslice, PortKey.str]
    simp
  have hdot : '.' ∉ port.port.str.toList := port.port.property.notMem (by decide)
  unfold seedsOfToken originSeeds
  rw [if_neg (by simp [hthread]), if_pos htoken, hport, rpartitionDot_append hdot]
  simp only [String.ofList_toList]
  cases g.instances.get? port.inst with
  | none => rfl
  | some info =>
    dsimp only
    rw [find?_port_str]
    unfold InstanceInfo.kindsOf Dict.get?
    cases hport' : info.inputPorts.entries.find? (fun p => p.1 = port.port) with
    | none => simp
    | some p =>
      have hp : p.1 = port.port := by simpa using List.find?_some hport'
      simp [hp]

/-- **The token of an origin is parsed back**: what `_origin_seeds` reads
off it are the origin's seeds. -/
theorem seedsOfToken_str (o : Origin) : g.seedsOfToken o.str = g.originSeeds o := by
  cases o with
  | thread name => exact seedsOfToken_thread g name
  | external port => exact seedsOfToken_external g port
  | unknown => rfl

/-! ## Trails -/

variable {g}

/-- How `parent` leads up from a handler: to the port of a seed and the
handler behind it where the search began, along these hops. -/
inductive Trail (g : TopologyGraph) (seeds : List (PortKey × SyncKind))
    (parent : Dict Handler (Option Handler × String)) :
    Handler → PortKey → Handler → List OutwardHop → Prop
  | seed {n : Handler} {seed : PortKey} {kind : SyncKind} :
      (seed, kind) ∈ seeds → g.Behind seed kind n →
      parent.get? n = some (none, seed.str ++ " [origin]") → Trail g seeds parent n seed n []
  | hop {m n root : Handler} {seed : PortKey} {hops : List OutwardHop} {hop : OutwardHop} :
      Trail g seeds parent m seed root hops → g.HopOut m hop → hop.kind ≠ .async →
      n ∈ hop.targets → parent.get? n = some (some m, hop.label) →
      Trail g seeds parent n seed root (hops ++ [hop])

/-- A handler behind one of the seeds. -/
def SeedRoot (g : TopologyGraph) (seeds : List (PortKey × SyncKind)) (root : Handler) : Prop :=
  ∃ seed kind, (seed, kind) ∈ seeds ∧ g.Behind seed kind root

section Trails

variable {seeds : List (PortKey × SyncKind)} {parent : Dict Handler (Option Handler × String)}
  {n root : Handler} {seed : PortKey} {hops : List OutwardHop}

theorem Trail.mem_keys (h : g.Trail seeds parent n seed root hops) : n ∈ parent.keys := by
  cases h with
  | seed _ _ hget => exact Dict.mem_keys_of_get? hget
  | hop _ _ _ _ hget => exact Dict.mem_keys_of_get? hget

theorem Trail.mem_handlers (h : g.Trail seeds parent n seed root hops) : n ∈ g.handlers := by
  cases h with
  | seed _ hb _ => exact TopologyGraph.mem_handlers.mpr ⟨_, _, hb⟩
  | hop _ hhop _ ht _ => exact TopologyGraph.mem_handlers.mpr ⟨_, _, hhop.behind_of_mem_targets ht⟩

/-- A trail stays one when `parent` only gets more entries. -/
theorem Trail.mono {parent' : Dict Handler (Option Handler × String)}
    (hle : ∀ x v, parent.get? x = some v → parent'.get? x = some v)
    (h : g.Trail seeds parent n seed root hops) : g.Trail seeds parent' n seed root hops := by
  induction h with
  | seed hmem hb hget => exact .seed hmem hb (hle _ _ hget)
  | hop _ hhop hk ht hget ih => exact .hop ih hhop hk ht (hle _ _ hget)

/-- A trail starts at a seed. -/
theorem Trail.seedRoot (h : g.Trail seeds parent n seed root hops) :
    ∃ kind, (seed, kind) ∈ seeds ∧ g.Behind seed kind root := by
  induction h with
  | seed hmem hb _ => exact ⟨_, hmem, hb⟩
  | hop _ _ _ _ _ ih => exact ih

theorem Trail.calls (h : g.Trail seeds parent n seed root hops) :
    Relation.ReflTransGen g.Calls root n := by
  induction h with
  | seed _ _ _ => exact .refl
  | hop _ hhop hk ht _ ih => exact ih.tail ⟨_, hhop, hk, ht⟩

/-- A trail is a call chain: what the chain goes on with, it goes on with. -/
theorem Trail.hopChain (h : g.Trail seeds parent n seed root hops) :
    ∀ {rest : List OutwardHop} {p : PortKey}, g.HopChain n rest p →
      g.HopChain root (hops ++ rest) p := by
  induction h with
  | seed _ _ _ => exact fun hrest => hrest
  | hop _ hhop hk ht _ ih =>
    intro rest p hrest
    rw [List.append_assoc]
    exact ih (.cons hhop hk ht hrest)

/-- `parent` names one trail only, so all are of one length. -/
theorem Trail.length_eq (h : g.Trail seeds parent n seed root hops) :
    ∀ {seed' : PortKey} {root' : Handler} {hops' : List OutwardHop},
      g.Trail seeds parent n seed' root' hops' → hops.length = hops'.length := by
  induction h with
  | seed _ _ hget =>
    intro seed' root' hops' h'
    cases h' with
    | seed _ _ _ => rfl
    | hop _ _ _ _ hget' =>
      rw [hget] at hget'
      cases hget'
  | hop _ _ _ _ hget ih =>
    intro seed' root' hops' h'
    cases h' with
    | seed _ _ hget' =>
      rw [hget] at hget'
      cases hget'
    | hop hprev _ _ _ hget' =>
      rw [hget] at hget'
      obtain ⟨hm, _⟩ := Prod.mk.inj (Option.some.inj hget')
      obtain rfl := Option.some.inj hm
      rw [List.length_append, List.length_append, ih hprev]
      rfl

/-- The handlers of a trail are distinct, so it is shorter than `parent`. -/
theorem Trail.length_lt (h : g.Trail seeds parent n seed root hops) :
    hops.length < parent.keys.length := by
  have hgen : ∃ nodes : List Handler, nodes.length = hops.length + 1 ∧ nodes.Nodup
      ∧ ∀ x ∈ nodes, ∃ hops', g.Trail seeds parent x seed root hops'
        ∧ hops'.length ≤ hops.length := by
    induction h with
    | @seed first _ _ hmem hb hget =>
      refine ⟨[first], rfl, List.nodup_singleton _, fun x hx => ?_⟩
      obtain rfl := List.mem_singleton.mp hx
      exact ⟨[], .seed hmem hb hget, le_rfl⟩
    | @hop _ next _ _ _ _ hprev hhop hk ht hget ih =>
      obtain ⟨nodes, hlen, hnodup, hall⟩ := ih
      have htrail := Trail.hop hprev hhop hk ht hget
      refine ⟨next :: nodes, ?_, List.nodup_cons.mpr ⟨fun hmem => ?_, hnodup⟩, fun x hx => ?_⟩
      · rw [List.length_cons, hlen, List.length_append]
        rfl
      · -- it is one hop longer than the trail of any handler before it
        obtain ⟨hops', htrail', hle⟩ := hall _ hmem
        have hsame := htrail.length_eq htrail'
        rw [List.length_append, List.length_singleton] at hsame
        omega
      · rcases List.mem_cons.mp hx with rfl | hx
        · exact ⟨_, htrail, le_rfl⟩
        · obtain ⟨hops', htrail', hle⟩ := hall x hx
          refine ⟨hops', htrail', ?_⟩
          rw [List.length_append]
          omega
  obtain ⟨nodes, hlen, hnodup, hall⟩ := hgen
  have hsub : nodes ⊆ parent.keys := fun x hx => by
    obtain ⟨_, htrail, _⟩ := hall x hx
    exact htrail.mem_keys
  have hle := List.Nodup.length_le_of_subset hnodup hsub
  omega

/-- Walking `parent` upwards reads the trail off. -/
theorem Trail.labelsUp (queue : List Handler) (h : g.Trail seeds parent n seed root hops) :
    ∀ fuel, hops.length < fuel → CallPathSearch.labelsUp ⟨parent, queue⟩ fuel (some n)
      = (seed.str ++ " [origin]") :: hops.map OutwardHop.label := by
  induction h with
  | seed _ _ hget =>
    intro fuel hfuel
    obtain ⟨fuel, rfl⟩ := Nat.exists_eq_succ_of_ne_zero (Nat.ne_of_gt hfuel)
    rw [CallPathSearch.labelsUp]
    simp only [hget]
    cases fuel <;> rfl
  | hop _ _ _ _ hget ih =>
    intro fuel hfuel
    rw [List.length_append, List.length_singleton] at hfuel
    obtain ⟨fuel, rfl⟩ := Nat.exists_eq_succ_of_ne_zero (Nat.ne_of_gt (Nat.zero_lt_of_lt hfuel))
    rw [CallPathSearch.labelsUp]
    simp only [hget]
    rw [ih fuel (by omega)]
    simp

end Trails

/-! ## What entering handlers does -/

/-- The search has met some more handlers: each is new, waits at the end of
the queue, and was entered as `Entry` says. -/
structure Grows (Entry : Handler → Option Handler × String → Prop)
    (search search' : CallPathSearch) (new : List Handler) : Prop where
  queue : search'.queue = search.queue ++ new
  keys : ∀ n, n ∈ search'.parent.keys ↔ n ∈ search.parent.keys ∨ n ∈ new
  old : ∀ n v, search.parent.get? n = some v → search'.parent.get? n = some v
  nodup : new.Nodup
  fresh : ∀ n ∈ new, n ∉ search.parent.keys ∧ ∃ v, search'.parent.get? n = some v ∧ Entry n v

namespace Grows

variable {Entry : Handler → Option Handler × String → Prop} {search search' search'' : CallPathSearch}
  {new new' : List Handler}

theorem refl (search : CallPathSearch) : Grows Entry search search [] :=
  ⟨(List.append_nil _).symm, by simp, fun _ _ h => h, List.nodup_nil, by simp⟩

theorem trans (h : Grows Entry search search' new) (h' : Grows Entry search' search'' new') :
    Grows Entry search search'' (new ++ new') where
  queue := by rw [h'.queue, h.queue, List.append_assoc]
  keys n := by rw [h'.keys, h.keys, List.mem_append, or_assoc]
  old n v hget := h'.old n v (h.old n v hget)
  nodup := List.Nodup.append h.nodup h'.nodup fun n hn hn' =>
    (h'.fresh n hn').1 ((h.keys n).mpr (.inr hn))
  fresh n hn := by
    rcases List.mem_append.mp hn with hn | hn
    · obtain ⟨hout, v, hget, hentry⟩ := h.fresh n hn
      exact ⟨hout, v, h'.old n v hget, hentry⟩
    · obtain ⟨hout, hrest⟩ := h'.fresh n hn
      exact ⟨fun hmem => hout ((h.keys n).mpr (.inl hmem)), hrest⟩

theorem mono {Entry' : Handler → Option Handler × String → Prop}
    (himp : ∀ n v, Entry n v → Entry' n v) (h : Grows Entry search search' new) :
    Grows Entry' search search' new :=
  ⟨h.queue, h.keys, h.old, h.nodup, fun n hn => by
    obtain ⟨hout, v, hget, hentry⟩ := h.fresh n hn
    exact ⟨hout, v, hget, himp n v hentry⟩⟩

theorem mem_keys (h : Grows Entry search search' new) {n : Handler}
    (hn : n ∈ search.parent.keys) : n ∈ search'.parent.keys :=
  (h.keys n).mpr (.inl hn)

/-- Entering one handler. -/
theorem enter (search : CallPathSearch) (n : Handler) (prev : Option Handler) (label : String)
    (hentry : Entry n (prev, label)) :
    ∃ new, Grows Entry search (search.enter n prev label) new
      ∧ n ∈ (search.enter n prev label).parent.keys := by
  unfold CallPathSearch.enter
  by_cases hmem : n ∈ search.parent.keys
  · rw [if_pos hmem]
    exact ⟨[], refl search, hmem⟩
  · rw [if_neg hmem]
    have hself := Dict.get?_set_self search.parent n (prev, label)
    refine ⟨[n], ⟨rfl, fun m => ?_, fun m v hget => ?_, List.nodup_singleton n, fun m hm => ?_⟩,
      Dict.mem_keys_of_get? hself⟩
    · rw [Dict.mem_keys_set, List.mem_singleton, or_comm]
    · have hne : m ≠ n := fun h => hmem (h ▸ Dict.mem_keys_of_get? hget)
      rw [Dict.get?_set, if_neg hne]
      exact hget
    · obtain rfl := List.mem_singleton.mp hm
      exact ⟨hmem, (prev, label), hself, hentry⟩

/-- A loop whose body enters the handlers it covers enters all of them. -/
theorem foldl {β : Type} {step : CallPathSearch → β → CallPathSearch} {Covers : β → Handler → Prop} :
    ∀ (xs : List β), (∀ x ∈ xs, ∀ search, ∃ new, Grows Entry search (step search x) new
        ∧ ∀ n, Covers x n → n ∈ (step search x).parent.keys) →
      ∀ search, ∃ new, Grows Entry search (xs.foldl step search) new
        ∧ ∀ x ∈ xs, ∀ n, Covers x n → n ∈ (xs.foldl step search).parent.keys
  | [], _, search => ⟨[], refl search, by simp⟩
  | x :: xs, hstep, search => by
      obtain ⟨new, hgrow, hcover⟩ := hstep x (List.mem_cons_self ..) search
      obtain ⟨new', hgrow', hcover'⟩ := Grows.foldl xs
        (fun y hy => hstep y (List.mem_cons_of_mem _ hy)) (step search x)
      refine ⟨new ++ new', hgrow.trans hgrow', fun y hy n hn => ?_⟩
      rcases List.mem_cons.mp hy with rfl | hy
      · exact hgrow'.mem_keys (hcover n hn)
      · exact hcover' y hy n hn

end Grows

/-- A handler entered from `node` along one of `hops`. -/
def EnteredBy (node : Handler) (hops : List OutwardHop) (n : Handler)
    (v : Option Handler × String) : Prop :=
  ∃ hop ∈ hops, hop.kind ≠ .async ∧ n ∈ hop.targets ∧ v = (some node, hop.label)

/-- The hops of one handler: one of them lands on `entry`, or none does and
what they run has been entered. -/
theorem scanHops_spec (entry : PortKey) (node : Handler) :
    ∀ (hops : List OutwardHop) (search : CallPathSearch),
      (∃ hop ∈ hops, hop.kind ≠ .async ∧ hop.dest = entry
        ∧ scanHops entry node hops search = .inl hop.label)
      ∨ ∃ search' new, scanHops entry node hops search = .inr search'
        ∧ Grows (EnteredBy node hops) search search' new
        ∧ ∀ hop ∈ hops, hop.kind ≠ .async →
          hop.dest ≠ entry ∧ ∀ n ∈ hop.targets, n ∈ search'.parent.keys
  | [], search => .inr ⟨search, [], rfl, .refl search, by simp⟩
  | hop :: hops, search => by
      have hmono : ∀ n v, EnteredBy node hops n v → EnteredBy node (hop :: hops) n v :=
        fun n v ⟨x, hx, hrest⟩ => ⟨x, List.mem_cons_of_mem _ hx, hrest⟩
      rw [scanHops]
      by_cases hk : hop.kind = .async
      · rw [if_pos hk]
        rcases scanHops_spec entry node hops search with
          ⟨x, hx, hrest⟩ | ⟨search', new, heq, hgrow, hall⟩
        · exact .inl ⟨x, List.mem_cons_of_mem _ hx, hrest⟩
        · exact .inr ⟨search', new, heq, hgrow.mono hmono,
            List.forall_mem_cons.mpr ⟨fun hne => absurd hk hne, hall⟩⟩
      · rw [if_neg hk]
        by_cases hd : hop.dest = entry
        · rw [if_pos hd]
          exact .inl ⟨hop, List.mem_cons_self .., hk, hd, rfl⟩
        · rw [if_neg hd]
          -- the handlers this hop runs are entered from `node`
          obtain ⟨new₁, hgrow₁, hcover₁⟩ := @Grows.foldl (EnteredBy node (hop :: hops)) _
            (fun search next => search.enter next (some node) hop.label)
            (fun next n => n = next) hop.targets (fun next hnext s => by
              obtain ⟨new, hgrow, hmem⟩ := @Grows.enter (EnteredBy node (hop :: hops)) s next
                (some node) hop.label ⟨hop, List.mem_cons_self .., hk, hnext, rfl⟩
              exact ⟨new, hgrow, fun n hn => hn ▸ hmem⟩) search
          rcases scanHops_spec entry node hops _ with
            ⟨x, hx, hrest⟩ | ⟨search', new, heq, hgrow, hall⟩
          · exact .inl ⟨x, List.mem_cons_of_mem _ hx, hrest⟩
          · refine .inr ⟨search', new₁ ++ new, heq, hgrow₁.trans (hgrow.mono hmono),
              List.forall_mem_cons.mpr ⟨fun _ => ⟨hd, fun n hn => ?_⟩, hall⟩⟩
            exact hgrow.mem_keys (hcover₁ n hn n rfl)

/-! ## The search -/

/-- The handlers that have not been met, and those that wait. -/
def todo (g : TopologyGraph) (search : CallPathSearch) : Nat :=
  (g.handlers.toFinset \ search.parent.keys.toFinset).card + search.queue.length

/-- Entering handlers moves them from the one to the other. -/
theorem Grows.todo_eq {Entry : Handler → Option Handler × String → Prop}
    {search search' : CallPathSearch} {new : List Handler} (h : Grows Entry search search' new)
    (hnew : ∀ n ∈ new, n ∈ g.handlers) : g.todo search' = g.todo search := by
  have hkeys : search'.parent.keys.toFinset = search.parent.keys.toFinset ∪ new.toFinset := by
    ext n
    simp [h.keys]
  have hsub : new.toFinset ⊆ g.handlers.toFinset \ search.parent.keys.toFinset := by
    intro n hn
    rw [List.mem_toFinset] at hn
    simp [hnew n hn, (h.fresh n hn).1]
  have hcard : new.toFinset.card = new.length := List.toFinset_card_of_nodup h.nodup
  have hle := Finset.card_le_card hsub
  unfold todo
  rw [hkeys, Finset.sdiff_union_distrib, ← Finset.sdiff_sdiff_left', Finset.card_sdiff_of_subset hsub,
    h.queue, List.length_append]
  omega

/-- The invariant of the search: the levels of a breadth-first search, a
trail as long as its level for each handler met, and no handler expanded
that calls `entry`. -/
structure Searching (g : TopologyGraph) (seeds : List (PortKey × SyncKind)) (entry : PortKey)
    (search : CallPathSearch) (level : Handler → Nat) : Prop where
  levels : Levels g.Calls (g.SeedRoot seeds) level (· ∈ search.parent.keys) search.queue
  trails : ∀ n ∈ search.parent.keys, ∃ seed root hops,
    g.Trail seeds search.parent n seed root hops ∧ hops.length = level n
  missed : ∀ n ∈ search.parent.keys, n ∉ search.queue → ¬ g.CallsPort n entry

/-- A chain of hops, cut before its last one. -/
theorem HopChain.reachedIn {seeds : List (PortKey × SyncKind)} {h : Handler}
    {hops : List OutwardHop} {p : PortKey} (hchain : g.HopChain h hops p) :
    ∀ {k : Nat}, ReachedIn g.Calls (g.SeedRoot seeds) k h →
      ∃ j m, ReachedIn g.Calls (g.SeedRoot seeds) j m ∧ g.CallsPort m p ∧ j + 1 = k + hops.length := by
  induction hchain with
  | last hhop hk => exact fun {k} hreach => ⟨k, _, hreach, ⟨_, hhop, hk, rfl⟩, rfl⟩
  | cons hhop hk ht _ ih =>
    intro k hreach
    obtain ⟨j, m, hm, hcall, hlen⟩ := ih (hreach.step ⟨_, hhop, hk, ht⟩)
    refine ⟨j, m, hm, hcall, ?_⟩
    rw [List.length_cons]
    omega

section Searches

variable {seeds : List (PortKey × SyncKind)} {entry : PortKey} {search : CallPathSearch}
  {level : Handler → Nat} {node : Handler} {queue : List Handler}

/-- The head of the queue is expanded, and none of its hops lands on
`entry`. -/
theorem Searching.expand (h : g.Searching seeds entry search level)
    (hqueue : search.queue = node :: queue) {hops : List OutwardHop}
    (hhops : g.outwardHops node.1 node.2 = .ok hops) {search' : CallPathSearch} {new : List Handler}
    (hgrow : Grows (EnteredBy node hops) { search with queue := queue } search' new)
    (hall : ∀ hop ∈ hops, hop.kind ≠ .async →
      hop.dest ≠ entry ∧ ∀ n ∈ hop.targets, n ∈ search'.parent.keys) :
    g.Searching seeds entry search' fun x => if x ∈ new then level node + 1 else level x := by
  have hlevels := h.levels
  rw [hqueue] at hlevels
  have hnode : node ∈ search.parent.keys := hlevels.queued node (List.mem_cons_self ..)
  have hsame : ∀ {hop : OutwardHop}, g.HopOut node hop → hop ∈ hops := by
    rintro hop ⟨hops', hok, hmem⟩
    obtain rfl : hops' = hops := by simpa using hok.symm.trans hhops
    exact hmem
  have hkeys : (fun x => x ∈ search'.parent.keys) = fun x => x ∈ search.parent.keys ∨ x ∈ new :=
    funext fun x => propext (hgrow.keys x)
  refine ⟨?_, fun n hn => ?_, fun n hn hout hcall => ?_⟩
  · rw [hgrow.queue, hkeys]
    refine hlevels.expand (fun m hm => ?_)
      (fun m hm => if_neg fun hmem => (hgrow.fresh m hmem).1 hm) fun m hm => if_pos hm
    obtain ⟨hop, hhop, hk, ht⟩ := hm
    exact (hgrow.keys m).mp ((hall hop (hsame hhop) hk).2 m ht)
  · by_cases hnew : n ∈ new
    · -- its trail is that of `node` and one hop
      obtain ⟨_, v, hget, hop, hhop, hk, ht, rfl⟩ := hgrow.fresh n hnew
      obtain ⟨seed, root, path, htrail, hlen⟩ := h.trails node hnode
      refine ⟨seed, root, path ++ [hop],
        .hop (htrail.mono hgrow.old) ⟨hops, hhops, hhop⟩ hk ht hget, ?_⟩
      rw [if_pos hnew, List.length_append, List.length_singleton, hlen]
    · obtain ⟨seed, root, path, htrail, hlen⟩ := h.trails n (((hgrow.keys n).mp hn).resolve_right hnew)
      exact ⟨seed, root, path, htrail.mono hgrow.old, by rw [if_neg hnew]; exact hlen⟩
  · rw [hgrow.queue, List.mem_append, not_or] at hout
    have hold := ((hgrow.keys n).mp hn).resolve_right hout.2
    by_cases hn' : n = node
    · subst hn'
      obtain ⟨hop, hhop, hk, hd⟩ := hcall
      exact (hall hop (hsame hhop) hk).1 hd
    · refine h.missed n hold (fun hmem => ?_) hcall
      rw [hqueue] at hmem
      exact hout.1 ((List.mem_cons.mp hmem).resolve_left hn')

/-- `labels` spells a chain of hops from a seed to `entry`, and no chain
from any seed is shorter. -/
def ShortestFrom (g : TopologyGraph) (seeds : List (PortKey × SyncKind)) (entry : PortKey)
    (labels : List String) : Prop :=
  ∃ seed kind root hops, (seed, kind) ∈ seeds ∧ g.Behind seed kind root
    ∧ g.HopChain root hops entry
    ∧ labels = (seed.str ++ " [origin]") :: hops.map OutwardHop.label
    ∧ ∀ root' hops', g.SeedRoot seeds root' → g.HopChain root' hops' entry →
      hops.length ≤ hops'.length

/-- The head of the queue calls `entry`: the trail and that hop are a
shortest chain. -/
theorem Searching.found (h : g.Searching seeds entry search level)
    (hqueue : search.queue = node :: queue) {hop : OutwardHop} (hhop : g.HopOut node hop)
    (hk : hop.kind ≠ .async) (hd : hop.dest = entry) :
    g.ShortestFrom seeds entry
      (search.labelsUp search.parent.keys.length (some node) ++ [hop.label]) := by
  have hlevels := h.levels
  rw [hqueue] at hlevels
  obtain ⟨seed, root, path, htrail, hlen⟩ :=
    h.trails node (hlevels.queued node (List.mem_cons_self ..))
  obtain ⟨kind, hmem, hb⟩ := htrail.seedRoot
  have hlabels := htrail.labelsUp search.queue _ htrail.length_lt
  refine ⟨seed, kind, root, path ++ [hop], hmem, hb, ?_, ?_, fun root' hops' hroot hchain => ?_⟩
  · subst hd
    exact htrail.hopChain (.last hhop hk)
  · show CallPathSearch.labelsUp ⟨search.parent, search.queue⟩ _ _ ++ _ = _
    rw [hlabels]
    simp
  · obtain ⟨j, m, hreach, hcall, hj⟩ := hchain.reachedIn (.root hroot)
    have hle := hlevels.head_le hreach fun hmet => by
      by_contra hout
      exact h.missed m hmet (hqueue ▸ hout) hcall
    rw [List.length_append, List.length_singleton]
    omega

/-- **The search is exact**: it ends without a path when no chain leads
from a seed to `entry`, and with a shortest one otherwise. -/
theorem callPathLoop_spec (hres : ∀ root n, g.SeedRoot seeds root →
    Relation.ReflTransGen g.Calls root n → g.Resolves n) : ∀ (fuel : Nat) (search : CallPathSearch)
    (level : Handler → Nat), g.Searching seeds entry search level → g.todo search < fuel →
    (g.callPathLoop entry fuel search = .ok none
        ∧ ∀ root hops, g.SeedRoot seeds root → ¬ g.HopChain root hops entry)
      ∨ ∃ labels, g.callPathLoop entry fuel search = .ok (some labels)
        ∧ g.ShortestFrom seeds entry labels := by
  intro fuel
  induction fuel with
  | zero => exact fun _ _ _ hfuel => absurd hfuel (Nat.not_lt_zero _)
  | succ fuel ih =>
    intro search level h hfuel
    rw [callPathLoop]
    cases hqueue : search.queue with
    | nil =>
      refine .inl ⟨rfl, fun root hops hroot hchain => ?_⟩
      have hlevels := h.levels
      rw [hqueue] at hlevels
      obtain ⟨j, m, hreach, hcall, _⟩ := hchain.reachedIn (.root hroot)
      exact h.missed m (hlevels.exhausted hreach) (by simp [hqueue]) hcall
    | cons node queue =>
      dsimp only
      have hnode : node ∈ search.parent.keys := h.levels.queued node (by simp [hqueue])
      obtain ⟨seed, root, _, htrail, _⟩ := h.trails node hnode
      obtain ⟨kind, hmem, hb⟩ := htrail.seedRoot
      obtain ⟨hops, hhops⟩ := hres root node ⟨seed, kind, hmem, hb⟩ htrail.calls
      rw [hhops]
      dsimp only
      rcases scanHops_spec entry node hops { search with queue := queue } with
        ⟨hop, hmem, hk, hd, heq⟩ | ⟨search', new, heq, hgrow, hall⟩
      · rw [heq]
        exact .inr ⟨_, rfl, h.found hqueue ⟨hops, hhops, hmem⟩ hk hd⟩
      · rw [heq]
        refine ih search' _ (h.expand hqueue hhops hgrow hall) ?_
        have htodo := hgrow.todo_eq fun n hn => by
          obtain ⟨_, _, _, hop, hhop, hk, ht, _⟩ := hgrow.fresh n hn
          exact Calls.mem_handlers ⟨hop, ⟨hops, hhops, hhop⟩, hk, ht⟩
        have hone : g.todo { search with queue := queue } + 1 = g.todo search := by
          simp only [todo, hqueue, List.length_cons]
          omega
        omega

end Searches

/-! ## Call paths -/

/-- A handler entered as one behind a seed. -/
def EnteredSeed (g : TopologyGraph) (seeds : List (PortKey × SyncKind)) (n : Handler)
    (v : Option Handler × String) : Prop :=
  ∃ seed kind, (seed, kind) ∈ seeds ∧ g.Behind seed kind n ∧ v = (none, seed.str ++ " [origin]")

/-- Every seed names an input port and one of its kinds. -/
def SeedPorts (g : TopologyGraph) (seeds : List (PortKey × SyncKind)) : Prop :=
  ∀ x ∈ seeds, ∃ info, g.instances.get? x.1.inst = some info ∧ x.2 ∈ info.kindsOf x.1.port

/-- What one seed adds to the search. -/
def enterSeed (g : TopologyGraph) (search : CallPathSearch) (seed : PortKey × SyncKind) :
    CallPathSearch :=
  match g.instances.get? seed.1.inst with
  | none => search
  | some info =>
    (info.flowEntries seed.1.port seed.2).foldl (fun search entry =>
      search.enter (seed.1.inst, entry) none (seed.1.str ++ " [origin]")) search

theorem seedSearch_eq (seeds : List (PortKey × SyncKind)) :
    g.seedSearch seeds = seeds.foldl g.enterSeed ⟨∅, []⟩ := rfl

/-- A seed enters the handlers behind it. -/
theorem enterSeed_grows {seeds : List (PortKey × SyncKind)} (hports : g.SeedPorts seeds)
    {seed : PortKey × SyncKind} (hmem : seed ∈ seeds) (search : CallPathSearch) :
    ∃ new, Grows (g.EnteredSeed seeds) search (g.enterSeed search seed) new
      ∧ ∀ n, g.Behind seed.1 seed.2 n → n ∈ (g.enterSeed search seed).parent.keys := by
  obtain ⟨info, hget, hk⟩ := hports seed hmem
  have henter : ∀ entry ∈ info.flowEntries seed.1.port seed.2, ∀ s : CallPathSearch,
      ∃ new, Grows (g.EnteredSeed seeds) s
          (s.enter (seed.1.inst, entry) none (seed.1.str ++ " [origin]")) new
        ∧ ∀ n, n = (seed.1.inst, entry) →
          n ∈ (s.enter (seed.1.inst, entry) none (seed.1.str ++ " [origin]")).parent.keys := by
    intro entry hentry s
    have hbehind : g.Behind seed.1 seed.2 (seed.1.inst, entry) := ⟨info, hget, hk, entry, hentry, rfl⟩
    obtain ⟨new, hgrow, hin⟩ := @Grows.enter (g.EnteredSeed seeds) s (seed.1.inst, entry) none
      (seed.1.str ++ " [origin]") ⟨seed.1, seed.2, hmem, hbehind, rfl⟩
    exact ⟨new, hgrow, fun n hn => hn ▸ hin⟩
  obtain ⟨new, hgrow, hcover⟩ := Grows.foldl (info.flowEntries seed.1.port seed.2) henter search
  have hstep : g.enterSeed search seed
      = (info.flowEntries seed.1.port seed.2).foldl (fun search entry =>
          search.enter (seed.1.inst, entry) none (seed.1.str ++ " [origin]")) search := by
    simp only [enterSeed, hget]
  rw [hstep]
  refine ⟨new, hgrow, ?_⟩
  rintro n ⟨info', hget', -, entry, hentry, hn⟩
  obtain rfl : info = info' := Option.some.inj (hget.symm.trans hget')
  exact hcover entry hentry n hn

/-- The search starts with the handlers behind the seeds. -/
theorem seedSearch_grows {seeds : List (PortKey × SyncKind)} (hports : g.SeedPorts seeds) :
    ∃ new, Grows (g.EnteredSeed seeds) ⟨∅, []⟩ (g.seedSearch seeds) new
      ∧ ∀ n, g.SeedRoot seeds n → n ∈ (g.seedSearch seeds).parent.keys := by
  obtain ⟨new, hgrow, hcover⟩ := Grows.foldl seeds
    (fun seed hmem search => enterSeed_grows hports hmem search) ⟨∅, []⟩
  rw [seedSearch_eq]
  exact ⟨new, hgrow, fun n ⟨seed, kind, hmem, hb⟩ => hcover (seed, kind) hmem n hb⟩

theorem searching_seedSearch {seeds : List (PortKey × SyncKind)} (hports : g.SeedPorts seeds)
    (entry : PortKey) : g.Searching seeds entry (g.seedSearch seeds) fun _ => 0 := by
  obtain ⟨new, hgrow, hroots⟩ := seedSearch_grows hports
  have hqueue : (g.seedSearch seeds).queue = new := hgrow.queue
  have hkeys : ∀ n, n ∈ (g.seedSearch seeds).parent.keys ↔ n ∈ (g.seedSearch seeds).queue := by
    intro n
    rw [hgrow.keys, hqueue]
    simp [Dict.keys, EmptyCollection.emptyCollection, Dict.empty]
  refine ⟨.start hkeys fun n hn => (hkeys n).mp (hroots n hn), fun n hn => ?_,
    fun n hn hout => absurd ((hkeys n).mp hn) hout⟩
  obtain ⟨_, v, hget, seed, kind, hmem, hb, rfl⟩ := hgrow.fresh n (hqueue ▸ (hkeys n).mp hn)
  exact ⟨seed, n, [], .seed hmem hb hget, rfl⟩

/-- There is budget for every handler there is. -/
theorem todo_seedSearch_lt {seeds : List (PortKey × SyncKind)} (hports : g.SeedPorts seeds) :
    g.todo (g.seedSearch seeds) < g.handlers.length + 1 := by
  obtain ⟨new, hgrow, _⟩ := seedSearch_grows hports
  rw [hgrow.todo_eq fun n hn => by
    obtain ⟨_, _, _, seed, kind, _, hb, _⟩ := hgrow.fresh n hn
    exact TopologyGraph.mem_handlers.mpr ⟨seed, kind, hb⟩]
  have hle := (Finset.card_le_card Finset.sdiff_subset).trans
    (List.toFinset_card_le g.handlers) (a := (g.handlers.toFinset
      \ (∅ : Dict Handler (Option Handler × String)).keys.toFinset).card)
  exact Nat.lt_succ_of_le hle

/-- `origin_call_path`, from the seeds on. -/
def callPathFrom (g : TopologyGraph) (seeds : List (PortKey × SyncKind)) (entry : PortKey) :
    Except UnresolvedFlowError (Option (List String)) :=
  if seeds = [] then .ok none
  else if entry ∈ seeds.map Prod.fst then .ok (some [entry.str ++ " [origin]"])
  else g.callPathLoop entry (g.handlers.length + 1) (g.seedSearch seeds)

/-- The method is that, on the seeds its token names and once the
propagation has run. -/
theorem originCallPath_eq (o : Origin) (entry : PortKey) :
    g.originCallPath o entry = (do
      g.ensureThreadOrigins
      OriginM.ofExcept (g.callPathFrom (g.seedsOfToken o.str) entry)) := by
  unfold originCallPath callPathFrom
  rw [seedsOfToken_str]
  congr 1
  funext _
  dsimp only
  split
  · rfl
  · split
    · rfl
    · rfl

/-- `labels` is the path to be reported: the seed alone where `p` is one,
otherwise a shortest chain of hops from one of the seeds. -/
def IsCallPath (g : TopologyGraph) (o : Origin) (p : PortKey) (labels : List String) : Prop :=
  ((∃ kind, g.Seeds o p kind) ∧ labels = [p.str ++ " [origin]"])
    ∨ ((∀ kind, ¬ g.Seeds o p kind) ∧ ∃ seed kind root hops, g.Seeds o seed kind
      ∧ g.Behind seed kind root ∧ g.HopChain root hops p
      ∧ labels = (seed.str ++ " [origin]") :: hops.map OutwardHop.label
      ∧ ∀ seed' kind' root' hops', g.Seeds o seed' kind' → g.Behind seed' kind' root' →
        g.HopChain root' hops' p → hops.length ≤ hops'.length)

/-- The search, from all seeds of an origin in whatever order. -/
theorem callPathFrom_spec {o : Origin} (hruns : ∀ h, g.Runs o h → g.Resolves h)
    (hsome : ∃ p kind, g.Seeds o p kind) {seeds : List (PortKey × SyncKind)}
    (hseeds : ∀ p kind, (p, kind) ∈ seeds ↔ g.Seeds o p kind) (p : PortKey) :
    ∃ path, g.callPathFrom seeds p = .ok path ∧ (path.isSome ↔ g.Carries o p)
      ∧ ∀ labels, path = some labels → g.IsCallPath o p labels := by
  have hports : g.SeedPorts seeds := by
    rintro ⟨q, kind⟩ hmem
    obtain ⟨info, hget, hk, _⟩ := (hseeds q kind).mp hmem
    exact ⟨info, hget, hk⟩
  have hne : seeds ≠ [] := by
    obtain ⟨q, kind, hq⟩ := hsome
    exact List.ne_nil_of_mem ((hseeds q kind).mpr hq)
  have hroot : ∀ root, g.SeedRoot seeds root ↔
      ∃ seed kind, g.Seeds o seed kind ∧ g.Behind seed kind root := by
    intro root
    simp only [SeedRoot, hseeds]
  unfold callPathFrom
  rw [if_neg hne]
  by_cases hentry : p ∈ seeds.map Prod.fst
  · rw [if_pos hentry]
    obtain ⟨⟨q, kind⟩, hmem, rfl⟩ := List.mem_map.mp hentry
    have hseed := (hseeds q kind).mp hmem
    refine ⟨_, rfl, ?_, fun labels hlabels => .inl ⟨⟨kind, hseed⟩, (Option.some.inj hlabels).symm⟩⟩
    simp only [Option.isSome_some, true_iff]
    exact .inl ⟨kind, hseed⟩
  · rw [if_neg hentry]
    have hnoseed : ∀ kind, ¬ g.Seeds o p kind := fun kind hseed =>
      hentry (List.mem_map.mpr ⟨(p, kind), (hseeds p kind).mpr hseed, rfl⟩)
    have hresolve : ∀ root n, g.SeedRoot seeds root → Relation.ReflTransGen g.Calls root n →
        g.Resolves n := by
      intro root n hr hcalls
      obtain ⟨seed, kind, hseed, hb⟩ := (hroot root).mp hr
      exact hruns n ⟨seed, kind, hseed, root, hb, hcalls⟩
    rcases callPathLoop_spec hresolve _ _ _ (searching_seedSearch hports p)
        (todo_seedSearch_lt hports) with
      ⟨heq, hnone⟩ | ⟨labels, heq, seed, kind, root, hops, hmem, hb, hchain, rfl, hleast⟩
    · refine ⟨none, heq, ?_, by simp⟩
      simp only [Option.isSome_none, Bool.false_eq_true, false_iff]
      rintro (⟨kind, hseed⟩ | ⟨seed, kind, root, hops, hseed, hb, hchain⟩)
      · exact hnoseed kind hseed
      · exact hnone root hops ((hroot root).mpr ⟨seed, kind, hseed, hb⟩) hchain
    · have hseed := (hseeds seed kind).mp hmem
      refine ⟨_, heq, ?_, fun labels hlabels => .inr ⟨hnoseed, ?_⟩⟩
      · simp only [Option.isSome_some, true_iff]
        exact .inr ⟨seed, kind, root, hops, hseed, hb, hchain⟩
      · obtain rfl := Option.some.inj hlabels
        exact ⟨seed, kind, root, hops, hseed, hb, hchain, rfl, fun seed' kind' root' hops' hs hb' =>
          hleast root' hops' ((hroot root').mpr ⟨seed', kind', hs, hb'⟩)⟩

/-- What `_origin_seeds` answers for an origin that has a seed. It does not
ask for an instance's own thread nor for an undriven port; the other seed
has settled that. -/
theorem mem_originSeeds_iff {o : Origin} (ho : ∃ q kind, g.Seeds o q kind) (p : PortKey)
    (kind : SyncKind) : (p, kind) ∈ g.originSeeds o ↔ g.Seeds o p kind := by
  obtain ⟨q, k, info, hget, hk, hcase⟩ := ho
  rcases hcase with ⟨rfl, hown, rfl⟩ | ⟨hsync, hconn, rfl⟩
  · simp only [originSeeds, hget, List.mem_map, List.mem_filter, decide_eq_true_eq]
    constructor
    · rintro ⟨⟨port, kinds⟩, ⟨hport, hasync⟩, heq⟩
      obtain ⟨rfl, rfl⟩ := Prod.mk.inj heq
      exact ⟨info, hget, InstanceInfo.mem_kindsOf_iff.mpr ⟨kinds, hport, hasync⟩,
        .inl ⟨rfl, hown, rfl⟩⟩
    · rintro ⟨info', hget', hk', ⟨rfl, _, hthread⟩ | ⟨_, _, hother⟩⟩
      · have hinst : q.inst = p.inst := Origin.thread.inj hthread
        obtain rfl : info = info' := Option.some.inj (hget.symm.trans (hinst ▸ hget'))
        obtain ⟨kinds, hport, hasync⟩ := InstanceInfo.mem_kindsOf_iff.mp hk'
        refine ⟨(p.port, kinds), ⟨hport, hasync⟩, ?_⟩
        rw [hinst]
      · cases hother
  · simp only [originSeeds, hget, List.mem_map, List.mem_filter, KindOrder.mem_iterate,
      decide_eq_true_eq]
    constructor
    · rintro ⟨kind', ⟨hk', hsync'⟩, heq⟩
      obtain ⟨rfl, rfl⟩ := Prod.mk.inj heq
      exact ⟨info, hget, hk', .inr ⟨hsync', hconn, rfl⟩⟩
    · rintro ⟨info', hget', hk', ⟨_, _, hother⟩ | ⟨hsync', _, hext⟩⟩
      · cases hother
      · obtain rfl : q = p := Origin.external.inj hext
        obtain rfl : info = info' := Option.some.inj (hget.symm.trans hget')
        exact ⟨kind, ⟨hk', hsync'⟩, rfl⟩

/-- An origin that can invoke some port has a seed. -/
theorem LandsOn.seeds {o : Origin} {q : PortKey} (h : g.LandsOn o q) : ∃ p kind, g.Seeds o p kind := by
  rcases h with ⟨kind, hseed⟩ | ⟨_, ⟨port, kind, hseed, _⟩, _⟩
  · exact ⟨q, kind, hseed⟩
  · exact ⟨port, kind, hseed⟩

/-- An origin with a seed is not the unknown one. -/
theorem Seeds.reaching_iff {o : Origin} {p q : PortKey} {kind : SyncKind} (h : g.Seeds o q kind) :
    g.Reaching o p ↔ g.Carries o p := by
  rw [← landsOn_iff_carries]
  refine or_iff_left fun hunknown => ?_
  obtain ⟨_, _, _, ⟨_, _, rfl⟩ | ⟨_, _, rfl⟩⟩ := h
  · cases hunknown.1
  · cases hunknown.1

/-- The seeds of an origin in the table, tried in any order. -/
theorem CompleteOrigins.callPathFrom {s : OriginState} (hs : g.CompleteOrigins s) {o : Origin}
    {q : PortKey} (hq : o ∈ s.threadsAt q) (p : PortKey) {seeds : List (PortKey × SyncKind)}
    (hperm : seeds.Perm (g.seedsOfToken o.str)) :
    ∃ path, g.callPathFrom seeds p = .ok path ∧ (path.isSome ↔ o ∈ s.reachingAt p)
      ∧ ∀ labels, path = some labels → g.IsCallPath o p labels := by
  obtain ⟨q', kind', hseed⟩ := LandsOn.seeds ((mem_portThreads_iff hs o q).mp hq)
  rw [mem_reachingAt_iff hs, hseed.reaching_iff]
  refine callPathFrom_spec (completeOrigins_iff_runs_resolve.mp ⟨s, hs⟩ o) ⟨q', kind', hseed⟩
    (fun p' kind => ?_) p
  rw [hperm.mem_iff, seedsOfToken_str]
  exact mem_originSeeds_iff ⟨q', kind', hseed⟩ p' kind

/-- What `origin_call_path` answers once the propagation has run. -/
theorem CompleteOrigins.originCallPath {s : OriginState} (hs : g.CompleteOrigins s) {o : Origin}
    {q : PortKey} (hq : o ∈ s.threadsAt q) (p : PortKey) :
    ∃ path, g.originCallPath o p s = (.ok path, s) ∧ (path.isSome ↔ o ∈ s.reachingAt p)
      ∧ ∀ labels, path = some labels → g.IsCallPath o p labels := by
  obtain ⟨path, hpath, hrest⟩ := hs.callPathFrom hq p (List.Perm.refl _)
  refine ⟨path, ?_, hrest⟩
  rw [originCallPath_eq, OriginM.bind_apply, ensure_complete hs]
  exact Prod.ext hpath rfl

/-- **Call paths agree with origin sets.** On a graph whose handlers all
resolve, for every origin in the table and every port, `origin_call_path`
finds a path exactly when the origin is among the port's threads, and a
path it finds is the one to be reported. The order in which the seeds are
tried decides neither. -/
theorem originCallPath_exact (g : TopologyGraph) (hres : g.AllResolve) :
    ∃ s, g.ensureThreadOrigins .fresh = (.ok (), s) ∧ ∀ o p, (∃ q, o ∈ s.threadsAt q) →
      ∃ path ts, g.originCallPath o p s = (.ok path, s) ∧ g.threadsReaching p s = (.ok ts, s)
        ∧ (path.isSome ↔ o ∈ ts) ∧ (∀ labels, path = some labels → g.IsCallPath o p labels)
        ∧ ∀ seeds, seeds.Perm (g.seedsOfToken o.str) → ∃ path', g.callPathFrom seeds p = .ok path'
          ∧ (path'.isSome ↔ o ∈ ts) ∧ ∀ labels, path' = some labels → g.IsCallPath o p labels := by
  obtain ⟨s, hs⟩ := hres.completeOrigins
  refine ⟨s, ensure_fresh hs, fun o p ⟨q, hq⟩ => ?_⟩
  obtain ⟨path, hpath, hsome, hall⟩ := hs.originCallPath hq p
  exact ⟨path, s.reachingAt p, hpath, Coherent.threadsReaching hs (.inr hs) p, hsome, hall,
    fun seeds hperm => hs.callPathFrom hq p hperm⟩

/-- The thread has a shortest path to `y`, which it reaches, and none to `z`,
which it does not. -/
theorem originCallPath_exact_cycle :
    ∃ s, cycleTopology.ensureThreadOrigins .fresh = (.ok (), s)
      ∧ cycleTopology.IsCallPath (.thread "t") ⟨"y", .gIn⟩
        ["t.go [origin]", "t.out -> x.gIn [guarded]", "x.out -> y.gIn [guarded]"]
      ∧ (∃ ts, cycleTopology.threadsReaching ⟨"y", .gIn⟩ s = (.ok ts, s) ∧ .thread "t" ∈ ts)
      ∧ ∃ ts, cycleTopology.threadsReaching ⟨"z", .go⟩ s = (.ok ts, s) ∧ .thread "t" ∉ ts := by
  obtain ⟨s, hs, hall⟩ := originCallPath_exact cycleTopology (by decide)
  have hstate : s = (cycleTopology.ensureThreadOrigins .fresh).2 := by rw [hs]
  have hthread : .thread "t" ∈ s.threadsAt ⟨"y", .gIn⟩ := by
    rw [hstate]
    decide +kernel
  obtain ⟨path, ts, hpath, hts, hiff, hlabels, -⟩ := hall (.thread "t") ⟨"y", .gIn⟩ ⟨_, hthread⟩
  obtain ⟨nowhere, ts', hnowhere, hts', hiff', -⟩ := hall (.thread "t") ⟨"z", .go⟩ ⟨_, hthread⟩
  have hfound : (cycleTopology.originCallPath (.thread "t") ⟨"y", .gIn⟩ s).1
      = .ok (some ["t.go [origin]", "t.out -> x.gIn [guarded]", "x.out -> y.gIn [guarded]"]) := by
    rw [hstate]
    decide +kernel
  have hnone : (cycleTopology.originCallPath (.thread "t") ⟨"z", .go⟩ s).1 = .ok none := by
    rw [hstate]
    decide +kernel
  rw [hpath] at hfound
  rw [hnowhere] at hnone
  obtain rfl := Except.ok.inj hfound
  obtain rfl := Except.ok.inj hnone
  exact ⟨s, hs, hlabels _ rfl, ⟨ts, hts, hiff.mp rfl⟩, ts', hts',
    fun hmem => absurd (hiff'.mpr hmem) (by simp)⟩

end TopologyGraph

end FprimeTopologyAnalysis
