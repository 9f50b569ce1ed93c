/-
FprimeTopologyAnalysis.ThreadOrigins — which threads can invoke an input
port (`_compute_thread_origins`, `_propagate_origin`,
`ensure_thread_origins`, `threads_reaching`, `_origin_seeds`,
`origin_call_path` of `topology_graph.py`).

The graph object carries two mutable fields: the table filled by the
propagation and the flag that says it has run. They are `OriginState`
here, and every method that touches them runs in `OriginM`, which keeps
the state when an exception leaves a method.

Over the code stands what the table is for: `Runs o h`, the handlers that
run on origin `o`, and `LandsOn o p`, the ports it calls. A propagation
from the fresh state ends well exactly when every handler some origin runs
resolves (`computeThreadOrigins_ok_iff`), and then its table is `LandsOn`
(`mem_portThreads_iff`).
-/
import FprimeTopologyAnalysis.TopologyGraph
import FprimeTopologyAnalysis.Library.Worklist

namespace FprimeTopologyAnalysis

open Library

/-! ## Origins and the mutable state -/

/-- A thread of control: an instance that runs its own queue, the
hand-written caller of an undriven input port, or `UNKNOWN_THREAD`. -/
inductive Origin where
  | thread (name : String)
  | external (port : PortKey)
  | unknown
  deriving DecidableEq

/-- The token the source uses for an origin. -/
def Origin.str : Origin → String
  | .thread name => "<thread:" ++ name ++ ">"
  | .external port => "<external:" ++ port.str ++ ">"
  | .unknown => "<unknown>"

/-- `origin.startswith(THREAD_ORIGIN_PREFIX)`. -/
def Origin.isThread : Origin → Bool
  | .thread _ => true
  | .external _ => false
  | .unknown => false

/-- The tokens of two origins differ. -/
theorem Origin.str_injective : Function.Injective Origin.str := by
  intro a b h
  have hchars := congrArg String.toList h
  cases a with
  | thread x =>
    cases b with
    | thread y =>
      simp only [Origin.str, String.toList_append, List.append_assoc] at hchars
      have hxy := List.append_cancel_right (List.append_cancel_left hchars)
      rw [String.toList_injective hxy]
    | external p => simp [Origin.str] at hchars
    | unknown => simp [Origin.str] at hchars
  | external p =>
    cases b with
    | thread y => simp [Origin.str] at hchars
    | external q =>
      simp only [Origin.str, String.toList_append, List.append_assoc] at hchars
      have hpq := List.append_cancel_right (List.append_cancel_left hchars)
      rw [PortKey.str_injective (String.toList_injective hpq)]
    | unknown => simp [Origin.str] at hchars
  | unknown =>
    cases b with
    | thread y => simp [Origin.str] at hchars
    | external q => simp [Origin.str] at hchars
    | unknown => rfl

/-- `port_threads` and `_origins_computed`. -/
structure OriginState where
  portThreads : Dict PortKey (Finset Origin)
  originsComputed : Bool
  deriving DecidableEq

namespace OriginState

/-- The state `__init__` leaves. -/
def fresh : OriginState := ⟨∅, false⟩

/-- `port_threads.get(str(port), set())`. -/
def threadsAt (s : OriginState) (port : PortKey) : Finset Origin :=
  (s.portThreads.get? port).getD ∅

/-- The answer of `threads_reaching`: never empty. -/
def reachingAt (s : OriginState) (port : PortKey) : Finset Origin :=
  if s.threadsAt port = ∅ then {.unknown} else s.threadsAt port

/-- `port_threads.setdefault(str(port), set()).add(origin)`. -/
def addOrigin (s : OriginState) (port : PortKey) (origin : Origin) : OriginState :=
  { s with portThreads := s.portThreads.set port (insert origin (s.threadsAt port)) }

theorem mem_threadsAt_addOrigin (s : OriginState) (port p : PortKey) (origin o : Origin) :
    o ∈ (s.addOrigin port origin).threadsAt p
      ↔ (o = origin ∧ p = port) ∨ o ∈ s.threadsAt p := by
  simp only [threadsAt, addOrigin, Dict.get?_set]
  by_cases hp : p = port
  · simp [hp]
  · simp [hp]

end OriginState

/-- A method of the graph object: it may raise, and what it did to the
state before that stays. -/
def OriginM (α : Type) : Type := OriginState → Except UnresolvedFlowError α × OriginState

namespace OriginM

variable {α β : Type}

/-- Sequencing: an exception skips the rest. -/
def bind (m : OriginM α) (f : α → OriginM β) : OriginM β := fun s =>
  match m s with
  | (.error e, s') => (.error e, s')
  | (.ok a, s') => f a s'

instance : Monad OriginM where
  pure a := fun s => (.ok a, s)
  bind := bind

/-- A method that reads nothing of the state. -/
def ofExcept (r : Except UnresolvedFlowError α) : OriginM α := fun s => (r, s)

/-- A method that reads the state and leaves it. -/
def reads (f : OriginState → α) : OriginM α := fun s => (.ok (f s), s)

/-- `for x in xs: body(x)`. -/
def forEach (body : α → OriginM Unit) : List α → OriginM Unit
  | [] => pure ()
  | x :: xs => do
    body x
    forEach body xs

/-- `for x in xs: out.extend(body(x))`. -/
def collect (body : α → OriginM (List β)) : List α → OriginM (List β)
  | [] => pure []
  | x :: xs => do
    let head ← body x
    let rest ← collect body xs
    pure (head ++ rest)

theorem pure_apply (a : α) (s : OriginState) : (pure a : OriginM α) s = (.ok a, s) := rfl

theorem bind_apply (m : OriginM α) (f : α → OriginM β) (s : OriginState) :
    (m >>= f) s = match m s with
      | (.error e, s') => (.error e, s')
      | (.ok a, s') => f a s' := rfl

/-- A loop ends well when each body does, wherever it starts. -/
theorem forEach_ok_iff {body : α → OriginM Unit} (good : α → Prop) :
    ∀ (xs : List α), (∀ x ∈ xs, ∀ s, (body x s).1 = .ok () ↔ good x) →
      ∀ s, (forEach body xs s).1 = .ok () ↔ ∀ x ∈ xs, good x
  | [], _, s => by simp [forEach, pure_apply]
  | x :: xs, hbody, s => by
      have hx := hbody x (List.mem_cons_self ..) s
      have ih := forEach_ok_iff good xs fun y hy => hbody y (List.mem_cons_of_mem _ hy)
      rw [forEach, bind_apply, List.forall_mem_cons, ← hx]
      cases hrun : body x s with
      | mk r s' =>
        cases r with
        | error e => simp
        | ok u => simp [ih s']

/-- What every body preserves, raising ones included, a loop preserves. -/
theorem forEach_inv {body : α → OriginM Unit} (I : OriginState → Prop) :
    ∀ (xs : List α), (∀ x ∈ xs, ∀ s, I s → I (body x s).2) →
      ∀ s, I s → I (forEach body xs s).2
  | [], _, s, hs => hs
  | x :: xs, hbody, s, hs => by
      have hx := hbody x (List.mem_cons_self ..) s hs
      rw [forEach, bind_apply]
      cases hrun : body x s with
      | mk r s' =>
        rw [hrun] at hx
        cases r with
        | error e => exact hx
        | ok u => exact forEach_inv I xs (fun y hy => hbody y (List.mem_cons_of_mem _ hy)) s' hx

/-- A loop that ends well collects what its bodies collect. -/
theorem forEach_collects {κ : Type} {body : α → OriginM Unit} (P : OriginState → κ → Prop)
    (Q : α → κ → Prop) :
    ∀ (xs : List α), (∀ x ∈ xs, ∀ s s', body x s = (.ok (), s') → ∀ k, P s' k ↔ P s k ∨ Q x k) →
      ∀ s s', forEach body xs s = (.ok (), s') → ∀ k, P s' k ↔ P s k ∨ ∃ x ∈ xs, Q x k
  | [], _, s, s', h, k => by
      simp only [forEach, pure_apply, Prod.mk.injEq, true_and] at h
      simp [h]
  | x :: xs, hbody, s, s', h, k => by
      rw [forEach, bind_apply] at h
      cases hx : body x s with
      | mk r s₁ =>
        rw [hx] at h
        cases r with
        | error e => simp at h
        | ok u =>
          have hhead := hbody x (List.mem_cons_self ..) s s₁ hx k
          have htail := forEach_collects P Q xs (fun y hy => hbody y (List.mem_cons_of_mem _ hy))
            s₁ s' h k
          simp only [htail, hhead, List.exists_mem_cons_iff, or_assoc]

end OriginM

/-! ## The propagation -/

namespace TopologyGraph

variable (g : TopologyGraph)

/-- The origins of `_compute_thread_origins`: first every async input of
an instance with its own queue, then every undriven input under its other
kinds. -/
def origins : List (Origin × PortKey × SyncKind) :=
  (g.instances.entries.flatMap fun e =>
    if e.2.isOwnThread then
      (e.2.inputPorts.entries.filter fun port => .async ∈ port.2).map fun port =>
        (.thread e.1, ⟨e.1, port.1⟩, .async)
    else [])
  ++ g.instances.entries.flatMap fun e =>
    e.2.inputPorts.entries.flatMap fun port =>
      if ⟨e.1, port.1⟩ ∈ g.connectedInputs then []
      else ((e.2.kindOrder.iterate port.2).filter fun kind => kind ≠ .async).map fun kind =>
        (.external ⟨e.1, port.1⟩, ⟨e.1, port.1⟩, kind)

/-- The hops a flood follows out of one handler's hops. -/
def syncHops (hops : List OutwardHop) : List OutwardHop :=
  hops.filter fun hop => hop.kind ≠ .async

/-- The body of the loop of `_propagate_origin`: label the ports the
handler calls on its own thread, and go on with the handlers behind them. -/
def floodExpand (origin : Origin) : Worklist.Expand Handler UnresolvedFlowError OriginState :=
  fun h =>
    match g.outwardHops h.1 h.2 with
    | .error e => .error e
    | .ok hops =>
      .ok ((syncHops hops).flatMap OutwardHop.targets,
        fun s => (syncHops hops).foldl (fun t hop => t.addOrigin hop.dest origin) s)

/-- The stack `_propagate_origin` starts with; its top is the last entry. -/
def floodRoots (info : InstanceInfo) (port : PortKey) (kind : SyncKind) : List Handler :=
  ((info.flowEntries port.port kind).map fun entry => (port.inst, entry)).reverse

/-- `_propagate_origin`. -/
def propagateOrigin (origin : Origin) (startPort : PortKey) (startKind : SyncKind) :
    OriginM Unit := fun s =>
  match g.instances.get? startPort.inst with
  | none => (.ok (), s)
  | some startInfo =>
    Worklist.run (g.floodExpand origin)
      (Worklist.fuelFor (g.floodExpand origin) g.handlers
        (floodRoots startInfo startPort startKind))
      (floodRoots startInfo startPort startKind) ∅ (s.addOrigin startPort origin)

/-- `_compute_thread_origins`. -/
def computeThreadOrigins : OriginM Unit :=
  OriginM.forEach (fun o => g.propagateOrigin o.1 o.2.1 o.2.2) g.origins

/-- `ensure_thread_origins`. The flag is set before the propagation runs. -/
def ensureThreadOrigins : OriginM Unit := fun s =>
  if s.originsComputed then (.ok (), s)
  else g.computeThreadOrigins { s with originsComputed := true }

/-- `threads_reaching`. -/
def threadsReaching (port : PortKey) : OriginM (Finset Origin) := do
  g.ensureThreadOrigins
  OriginM.reads fun s => s.reachingAt port

/-! ## What the table is for -/

/-- `o` is seeded at input `port` under `kind`. -/
def Seeds (o : Origin) (port : PortKey) (kind : SyncKind) : Prop :=
  ∃ info, g.instances.get? port.inst = some info ∧ kind ∈ info.kindsOf port.port
    ∧ ((kind = .async ∧ info.isOwnThread ∧ o = .thread port.inst)
      ∨ (kind ≠ .async ∧ port ∉ g.connectedInputs ∧ o = .external port))

/-- Handler `h` runs when `port` is entered under `kind`: it is behind the
port, or called from a handler that is. -/
def EnteredFrom (port : PortKey) (kind : SyncKind) (h : Handler) : Prop :=
  ∃ h₀, g.Behind port kind h₀ ∧ Relation.ReflTransGen g.Calls h₀ h

/-- Handler `h` runs on origin `o`. -/
def Runs (o : Origin) (h : Handler) : Prop :=
  ∃ port kind, g.Seeds o port kind ∧ g.EnteredFrom port kind h

/-- Handler `h` calls input port `p` on its own thread. -/
def CallsPort (h : Handler) (p : PortKey) : Prop :=
  ∃ hop, g.HopOut h hop ∧ hop.kind ≠ .async ∧ hop.dest = p

/-- Origin `o` can invoke input port `p`: it is seeded there, or runs a
handler that calls it. -/
def LandsOn (o : Origin) (p : PortKey) : Prop :=
  (∃ kind, g.Seeds o p kind) ∨ ∃ h, g.Runs o h ∧ g.CallsPort h p

variable {g}

theorem mem_origins_iff {o : Origin} {port : PortKey} {kind : SyncKind} :
    (o, port, kind) ∈ g.origins ↔ g.Seeds o port kind := by
  simp only [origins, List.mem_append, List.mem_flatMap, Seeds]
  constructor
  · rintro (⟨⟨name, info⟩, hinst, hmem⟩ | ⟨⟨name, info⟩, hinst, ⟨p, kinds⟩, hport, hmem⟩)
    · have hget := (g.instances.get?_eq_some_iff name info).mpr hinst
      split at hmem
      · rename_i hown
        obtain ⟨⟨p, kinds⟩, hport, heq⟩ := List.mem_map.mp hmem
        rw [List.mem_filter, decide_eq_true_eq] at hport
        obtain ⟨rfl, rfl, rfl⟩ : Origin.thread name = o ∧ (⟨name, p⟩ : PortKey) = port
            ∧ SyncKind.async = kind := by simpa using heq
        exact ⟨info, hget, InstanceInfo.mem_kindsOf_iff.mpr ⟨kinds, hport.1, hport.2⟩,
          .inl ⟨rfl, hown, rfl⟩⟩
      · simp at hmem
    · have hget := (g.instances.get?_eq_some_iff name info).mpr hinst
      split at hmem
      · simp at hmem
      · rename_i hconn
        obtain ⟨k, hk, heq⟩ := List.mem_map.mp hmem
        rw [List.mem_filter, KindOrder.mem_iterate, decide_eq_true_eq] at hk
        obtain ⟨rfl, rfl, rfl⟩ : Origin.external ⟨name, p⟩ = o ∧ (⟨name, p⟩ : PortKey) = port
            ∧ k = kind := by simpa using heq
        exact ⟨info, hget, InstanceInfo.mem_kindsOf_iff.mpr ⟨kinds, hport, hk.1⟩,
          .inr ⟨hk.2, hconn, rfl⟩⟩
  · rintro ⟨info, hget, hk, hcase⟩
    have hinst := (g.instances.get?_eq_some_iff _ _).mp hget
    obtain ⟨kinds, hport, hmem⟩ := InstanceInfo.mem_kindsOf_iff.mp hk
    rcases hcase with ⟨rfl, hown, rfl⟩ | ⟨hne, hconn, rfl⟩
    · refine .inl ⟨(port.inst, info), hinst, ?_⟩
      rw [if_pos hown]
      exact List.mem_map.mpr ⟨(port.port, kinds), List.mem_filter.mpr ⟨hport, by simpa using hmem⟩,
        rfl⟩
    · refine .inr ⟨(port.inst, info), hinst, (port.port, kinds), hport, ?_⟩
      rw [if_neg hconn]
      exact List.mem_map.mpr ⟨kind, List.mem_filter.mpr
        ⟨(KindOrder.mem_iterate _ _ _).mpr hmem, by simpa using hne⟩, rfl⟩

/-! ## One flood -/

theorem EnteredFrom.calls {port : PortKey} {kind : SyncKind} {h h' : Handler}
    (hh : g.EnteredFrom port kind h) (hc : g.Calls h h') : g.EnteredFrom port kind h' := by
  obtain ⟨h₀, hbehind, hreach⟩ := hh
  exact ⟨h₀, hbehind, hreach.tail hc⟩

theorem EnteredFrom.mem_handlers {port : PortKey} {kind : SyncKind} {h : Handler}
    (hh : g.EnteredFrom port kind h) : h ∈ g.handlers := by
  obtain ⟨h₀, hbehind, hreach⟩ := hh
  rcases hreach.cases_tail with rfl | ⟨_, _, hc⟩
  · exact TopologyGraph.mem_handlers.mpr ⟨port, kind, hbehind⟩
  · exact hc.mem_handlers

theorem floodExpand_ok_iff {o : Origin} {h : Handler} :
    (∃ r, g.floodExpand o h = .ok r) ↔ g.Resolves h := by
  unfold floodExpand Resolves
  cases g.outwardHops h.1 h.2 with
  | error e => simp
  | ok hops => simp

theorem floodStep_iff {o : Origin} {h h' : Handler} :
    Worklist.Step (g.floodExpand o) h h' ↔ g.Calls h h' := by
  unfold Worklist.Step floodExpand Calls HopOut
  cases g.outwardHops h.1 h.2 with
  | error e => simp
  | ok hops =>
    simp only [syncHops, ne_eq, Except.ok.injEq, exists_eq_left', List.mem_flatMap,
      List.mem_filter, decide_not, Bool.not_eq_eq_eq_not, Bool.not_true, decide_eq_false_iff_not]
    constructor
    · rintro ⟨hop, ⟨hmem, hk⟩, ht⟩
      exact ⟨hop, ⟨hmem, hk, ht⟩⟩
    · rintro ⟨hop, hmem, hk, ht⟩
      exact ⟨hop, ⟨hmem, hk⟩, ht⟩

theorem mem_floodRoots {info : InstanceInfo} {port : PortKey} {kind : SyncKind} {h : Handler}
    (hget : g.instances.get? port.inst = some info) (hk : kind ∈ info.kindsOf port.port) :
    h ∈ floodRoots info port kind ↔ g.Behind port kind h := by
  simp only [floodRoots, List.mem_reverse, List.mem_map, Behind, hget, Option.some.injEq]
  constructor
  · rintro ⟨entry, hentry, rfl⟩
    exact ⟨info, rfl, hk, entry, hentry, rfl⟩
  · rintro ⟨_, rfl, _, entry, hentry, rfl⟩
    exact ⟨entry, hentry, rfl⟩

theorem floodReach_iff {o : Origin} {info : InstanceInfo} {port : PortKey} {kind : SyncKind}
    {h : Handler} (hget : g.instances.get? port.inst = some info)
    (hk : kind ∈ info.kindsOf port.port) :
    Worklist.Reach (g.floodExpand o) (floodRoots info port kind) h
      ↔ g.EnteredFrom port kind h := by
  have hstep : Worklist.Step (g.floodExpand o) = g.Calls :=
    funext fun _ => funext fun _ => propext floodStep_iff
  simp only [Worklist.Reach, EnteredFrom, mem_floodRoots hget hk, hstep]

/-- Labelling the ports of a list of hops. -/
theorem mem_threadsAt_addHops (o o' : Origin) (p : PortKey) :
    ∀ (hops : List OutwardHop) (s : OriginState),
      o' ∈ (hops.foldl (fun t hop => t.addOrigin hop.dest o) s).threadsAt p
        ↔ (o' = o ∧ ∃ hop ∈ hops, hop.dest = p) ∨ o' ∈ s.threadsAt p
  | [], s => by simp
  | hop :: hops, s => by
      rw [List.foldl_cons, mem_threadsAt_addHops o o' p hops,
        OriginState.mem_threadsAt_addOrigin, List.exists_mem_cons_iff]
      constructor
      · rintro (⟨ho, hop', hmem, hp⟩ | ⟨ho, hp⟩ | hold)
        · exact .inl ⟨ho, .inr ⟨hop', hmem, hp⟩⟩
        · exact .inl ⟨ho, .inl hp.symm⟩
        · exact .inr hold
      · rintro (⟨ho, hp | hex⟩ | hold)
        · exact .inr (.inl ⟨ho, hp.symm⟩)
        · exact .inl ⟨ho, hex⟩
        · exact .inr (.inr hold)

theorem addHops_computed (o : Origin) :
    ∀ (hops : List OutwardHop) (s : OriginState),
      (hops.foldl (fun t hop => t.addOrigin hop.dest o) s).originsComputed = s.originsComputed
  | [], _ => rfl
  | hop :: hops, s => by rw [List.foldl_cons, addHops_computed o hops]; rfl

/-- The labels one expansion adds. -/
theorem mem_threadsAt_floodExpand {o o' : Origin} {h : Handler} {p : PortKey} {s : OriginState}
    {r : List Handler × (OriginState → OriginState)} (hr : g.floodExpand o h = .ok r) :
    o' ∈ (r.2 s).threadsAt p ↔ (o' = o ∧ g.CallsPort h p) ∨ o' ∈ s.threadsAt p := by
  unfold floodExpand at hr
  cases hops : g.outwardHops h.1 h.2 with
  | error e => rw [hops] at hr; cases hr
  | ok hs =>
    rw [hops] at hr
    cases hr
    rw [mem_threadsAt_addHops]
    simp only [CallsPort, HopOut, hops, Except.ok.injEq, exists_eq_left', syncHops,
      List.mem_filter, ne_eq, decide_not, Bool.not_eq_eq_eq_not, Bool.not_true,
      decide_eq_false_iff_not, and_assoc]

theorem propagateOrigin_eq {o : Origin} {port : PortKey} {kind : SyncKind} {info : InstanceInfo}
    (hget : g.instances.get? port.inst = some info) (s : OriginState) :
    g.propagateOrigin o port kind s = Worklist.run (g.floodExpand o)
      (Worklist.fuelFor (g.floodExpand o) g.handlers (floodRoots info port kind))
      (floodRoots info port kind) ∅ (s.addOrigin port o) := by
  unfold propagateOrigin
  rw [hget]

/-- A flood ends well exactly when every handler it enters resolves. -/
theorem propagateOrigin_ok_iff {o : Origin} {port : PortKey} {kind : SyncKind}
    (hseed : g.Seeds o port kind) (s : OriginState) :
    (g.propagateOrigin o port kind s).1 = .ok ()
      ↔ ∀ h, g.EnteredFrom port kind h → g.Resolves h := by
  obtain ⟨info, hget, hk, _⟩ := hseed
  rw [propagateOrigin_eq hget, Worklist.run_ok_iff g.handlers _
    (fun h hh => ((floodReach_iff hget hk).mp hh).mem_handlers)]
  simp only [floodReach_iff hget hk, floodExpand_ok_iff]

/-- What a flood from `port` has added to the table when it has come to the
handlers `seen`: its origin, at `port` and at every port they call. -/
def Labelled (g : TopologyGraph) (o : Origin) (port : PortKey) (seen : Handler → Prop)
    (s s' : OriginState) : Prop :=
  ∀ o' p, o' ∈ s'.threadsAt p ↔ o' ∈ s.threadsAt p
    ∨ (o' = o ∧ (p = port ∨ ∃ h, seen h ∧ g.CallsPort h p))

theorem labelled_start (o : Origin) (port : PortKey) (s : OriginState) :
    g.Labelled o port (· ∈ (∅ : Finset Handler)) s (s.addOrigin port o) := by
  intro o' p
  rw [OriginState.mem_threadsAt_addOrigin]
  simp [or_comm]

/-- One handler more. -/
theorem Labelled.expand {o : Origin} {port : PortKey} {seen : Finset Handler} {s t : OriginState}
    {h : Handler} {r : List Handler × (OriginState → OriginState)}
    (hr : g.floodExpand o h = .ok r) (ht : g.Labelled o port (· ∈ seen) s t) :
    g.Labelled o port (· ∈ insert h seen) s (r.2 t) := by
  intro o' p
  rw [mem_threadsAt_floodExpand hr, ht o' p]
  simp only [Finset.mem_insert, or_and_right, exists_or, exists_eq_left]
  tauto

/-- In whatever order its entries are taken, a flood that is over has
labelled its start port and every port its handlers call, and nothing else. -/
theorem takes_labelled {o : Origin} {port : PortKey} {kind : SyncKind} {info : InstanceInfo}
    (hget : g.instances.get? port.inst = some info) (hk : kind ∈ info.kindsOf port.port)
    {s s' : OriginState} {seen : Finset Handler}
    (h : Worklist.Takes (g.floodExpand o)
      (Worklist.start (floodRoots info port kind) (s.addOrigin port o)) (0, seen, s')) :
    g.Labelled o port (g.EnteredFrom port kind) s s' := by
  obtain ⟨hseen, hlabelled⟩ := Worklist.takes_spec
    (fun seen t => g.Labelled o port (· ∈ seen) s t)
    (fun _ _ _ _ _ _ hr ht => ht.expand hr) (labelled_start o port s) h
  have hentered : ∀ h, h ∈ seen ↔ g.EnteredFrom port kind h :=
    fun h => (hseen h).trans (floodReach_iff hget hk)
  intro o' p
  simpa only [hentered] using hlabelled o' p

/-- A flood that ends well labels its start port and every port its
handlers call, and nothing else. -/
theorem propagateOrigin_spec {o : Origin} {port : PortKey} {kind : SyncKind}
    (hseed : g.Seeds o port kind) {s s' : OriginState}
    (hrun : g.propagateOrigin o port kind s = (.ok (), s')) :
    g.Labelled o port (g.EnteredFrom port kind) s s' := by
  obtain ⟨info, hget, hk, _⟩ := hseed
  rw [propagateOrigin_eq hget] at hrun
  obtain ⟨seen, htakes⟩ := Worklist.run_takes
    (fun h hh => ((floodReach_iff hget hk).mp hh).mem_handlers) hrun
  exact takes_labelled hget hk htakes

theorem propagateOrigin_computed {o : Origin} {port : PortKey} {kind : SyncKind}
    (s : OriginState) :
    (g.propagateOrigin o port kind s).2.originsComputed = s.originsComputed := by
  unfold propagateOrigin
  cases g.instances.get? port.inst with
  | none => rfl
  | some info =>
    refine Worklist.run_inv (floodRoots info port kind)
      (fun (t : OriginState) => t.originsComputed = s.originsComputed) ?_ _ _ _ _
      (fun h hh => .root hh) rfl
    intro h r t _ hr ht
    unfold floodExpand at hr
    cases hops : g.outwardHops h.1 h.2 with
    | error e => rw [hops] at hr; cases hr
    | ok hs =>
      rw [hops] at hr
      cases hr
      rw [addHops_computed, ht]

/-! ## The whole table -/

/-- The propagation ends well exactly when every handler that some origin
runs resolves. -/
theorem computeThreadOrigins_ok_iff (s : OriginState) :
    (g.computeThreadOrigins s).1 = .ok () ↔ ∀ o h, g.Runs o h → g.Resolves h := by
  unfold computeThreadOrigins
  rw [OriginM.forEach_ok_iff (fun x => ∀ h, g.EnteredFrom x.2.1 x.2.2 h → g.Resolves h)
    g.origins fun x hx s => propagateOrigin_ok_iff (mem_origins_iff.mp hx) s]
  constructor
  · rintro hall o h ⟨port, kind, hseed, hentered⟩
    exact hall (o, port, kind) (mem_origins_iff.mpr hseed) h hentered
  · intro hall x hx h hentered
    exact hall x.1 h ⟨x.2.1, x.2.2, mem_origins_iff.mp hx, hentered⟩

theorem landsOn_iff_exists_seed {o : Origin} {p : PortKey} :
    g.LandsOn o p ↔ ∃ x ∈ g.origins, o = x.1
      ∧ (p = x.2.1 ∨ ∃ h, g.EnteredFrom x.2.1 x.2.2 h ∧ g.CallsPort h p) := by
  constructor
  · rintro (⟨kind, hseed⟩ | ⟨h, ⟨port, kind, hseed, hentered⟩, hcall⟩)
    · exact ⟨(o, p, kind), mem_origins_iff.mpr hseed, rfl, .inl rfl⟩
    · exact ⟨(o, port, kind), mem_origins_iff.mpr hseed, rfl, .inr ⟨h, hentered, hcall⟩⟩
  · rintro ⟨⟨o', port, kind⟩, hx, rfl, rfl | ⟨h, hentered, hcall⟩⟩
    · exact .inl ⟨kind, mem_origins_iff.mp hx⟩
    · exact .inr ⟨h, ⟨port, kind, mem_origins_iff.mp hx, hentered⟩, hcall⟩

/-- **The table is exact**: after a propagation that ends well, a port
carries the labels of the origins that can invoke it. -/
theorem mem_portThreads_iff {s : OriginState}
    (hrun : g.computeThreadOrigins ⟨∅, true⟩ = (.ok (), s)) (o : Origin) (p : PortKey) :
    o ∈ s.threadsAt p ↔ g.LandsOn o p := by
  have hcollect := OriginM.forEach_collects
    (fun (s : OriginState) (k : Origin × PortKey) => k.1 ∈ s.threadsAt k.2)
    (fun x k => k.1 = x.1
      ∧ (k.2 = x.2.1 ∨ ∃ h, g.EnteredFrom x.2.1 x.2.2 h ∧ g.CallsPort h k.2))
    g.origins (fun x hx s s' h k => propagateOrigin_spec (mem_origins_iff.mp hx) h k.1 k.2)
    ⟨∅, true⟩ s hrun (o, p)
  rw [landsOn_iff_exists_seed, hcollect]
  simp [OriginState.threadsAt]

theorem computeThreadOrigins_computed (s : OriginState) :
    (g.computeThreadOrigins s).2.originsComputed = s.originsComputed :=
  OriginM.forEach_inv (fun t => t.originsComputed = s.originsComputed) g.origins
    (fun _ _ t ht => (propagateOrigin_computed t).trans ht) s rfl

/-! ## Queries -/

variable (g)

/-- `_origin_seeds`: the ports and kinds an origin is seeded from. -/
def originSeeds : Origin → List (PortKey × SyncKind)
  | .thread name =>
    match g.instances.get? name with
    | none => []
    | some info =>
      (info.inputPorts.entries.filter fun port => .async ∈ port.2).map fun port =>
        (⟨name, port.1⟩, .async)
  | .external port =>
    match g.instances.get? port.inst with
    | none => []
    | some info =>
      ((info.kindOrder.iterate (info.kindsOf port.port)).filter fun kind => kind ≠ .async).map
        fun kind => (port, kind)
  | .unknown => []

/-- `parent` and `queue` of `origin_call_path`: how each handler met was
first reached, and the handlers still to expand. -/
structure CallPathSearch where
  parent : Dict Handler (Option Handler × String)
  queue : List Handler

/-- Enter a handler, unless it has been met. -/
def CallPathSearch.enter (search : CallPathSearch) (node : Handler) (prev : Option Handler)
    (label : String) : CallPathSearch :=
  if node ∈ search.parent.keys then search
  else ⟨search.parent.set node (prev, label), search.queue ++ [node]⟩

/-- The labels from the seed down to `node`, walking `parent` upwards. -/
def CallPathSearch.labelsUp (search : CallPathSearch) : Nat → Option Handler → List String
  | 0, _ => []
  | _ + 1, none => []
  | fuel + 1, some node =>
    match search.parent.get? node with
    | none => []
    | some (prev, label) => search.labelsUp fuel prev ++ [label]

/-- The inner loop of `origin_call_path`: the label of the first hop that
lands on `entry`, or the search with the hops' handlers entered. -/
def scanHops (entry : PortKey) (node : Handler) :
    List OutwardHop → CallPathSearch → String ⊕ CallPathSearch
  | [], search => .inr search
  | hop :: hops, search =>
    if hop.kind = .async then scanHops entry node hops search
    else if hop.dest = entry then .inl hop.label
    else scanHops entry node hops
      (hop.targets.foldl (fun search next => search.enter next (some node) hop.label) search)

/-- The outer loop of `origin_call_path`. Every handler is queued at most
once, so the number of handlers bounds the rounds. -/
def callPathLoop (entry : PortKey) :
    Nat → CallPathSearch → Except UnresolvedFlowError (Option (List String))
  | 0, _ => .ok none
  | fuel + 1, search =>
    match search.queue with
    | [] => .ok none
    | node :: queue =>
      match g.outwardHops node.1 node.2 with
      | .error e => .error e
      | .ok hops =>
        match scanHops entry node hops { search with queue := queue } with
        | .inl label =>
          .ok (some (search.labelsUp search.parent.keys.length (some node) ++ [label]))
        | .inr search => callPathLoop entry fuel search

/-- The search `origin_call_path` starts with. -/
def seedSearch (seeds : List (PortKey × SyncKind)) : CallPathSearch :=
  seeds.foldl (fun search seed =>
    match g.instances.get? seed.1.inst with
    | none => search
    | some info =>
      (info.flowEntries seed.1.port seed.2).foldl (fun search entry =>
        search.enter (seed.1.inst, entry) none (seed.1.str ++ " [origin]")) search) ⟨∅, []⟩

/-- `origin_call_path`. -/
def originCallPath (origin : Origin) (entry : PortKey) : OriginM (Option (List String)) := do
  g.ensureThreadOrigins
  let seeds := g.originSeeds origin
  if seeds = [] then pure none
  else if entry ∈ seeds.map Prod.fst then pure (some [entry.str ++ " [origin]"])
  else OriginM.ofExcept (g.callPathLoop entry (g.handlers.length + 1) (g.seedSearch seeds))

/-- The state after a complete propagation on the fresh graph. -/
def CompleteOrigins (s : OriginState) : Prop :=
  g.computeThreadOrigins ⟨∅, true⟩ = (.ok (), s)

variable {g}

theorem completeOrigins_iff_runs_resolve :
    (∃ s, g.CompleteOrigins s) ↔ ∀ o h, g.Runs o h → g.Resolves h := by
  rw [← computeThreadOrigins_ok_iff ⟨∅, true⟩]
  unfold CompleteOrigins
  constructor
  · rintro ⟨s, hs⟩
    rw [hs]
  · intro hok
    exact ⟨_, Prod.ext hok rfl⟩

theorem Runs.mem_handlers {o : Origin} {h : Handler} (hr : g.Runs o h) : h ∈ g.handlers := by
  obtain ⟨_, _, _, hentered⟩ := hr
  exact hentered.mem_handlers

/-- Where every handler resolves the propagation ends well. -/
theorem AllResolve.completeOrigins (hres : g.AllResolve) : ∃ s, g.CompleteOrigins s :=
  completeOrigins_iff_runs_resolve.mpr fun _ h hr => hres h hr.mem_handlers

theorem CompleteOrigins.computed {s : OriginState} (hs : g.CompleteOrigins s) :
    s.originsComputed = true := by
  have h := computeThreadOrigins_computed (g := g) ⟨∅, true⟩
  rw [hs] at h
  exact h

theorem ensure_fresh {s : OriginState} (hs : g.CompleteOrigins s) :
    g.ensureThreadOrigins .fresh = (.ok (), s) := hs

theorem ensure_complete {s : OriginState} (hs : g.CompleteOrigins s) :
    g.ensureThreadOrigins s = (.ok (), s) := by
  unfold ensureThreadOrigins
  rw [if_pos hs.computed]

/-- Origin `o` is among the answers of `threads_reaching`. -/
def Reaching (g : TopologyGraph) (o : Origin) (p : PortKey) : Prop :=
  g.LandsOn o p ∨ (o = .unknown ∧ ∀ o', ¬ g.LandsOn o' p)

/-- The answer on a complete table: the origins that can invoke the port,
or the unknown one. -/
theorem mem_reachingAt_iff {s : OriginState} (hs : g.CompleteOrigins s) {p : PortKey}
    {o : Origin} :
    o ∈ s.reachingAt p ↔ g.Reaching o p := by
  unfold OriginState.reachingAt Reaching
  split
  · rename_i hempty
    have hnone : ∀ o', ¬ g.LandsOn o' p := by
      intro o' ho'
      have hmem := (mem_portThreads_iff hs o' p).mpr ho'
      rw [hempty] at hmem
      simp at hmem
    simp [hnone]
  · rename_i hne
    obtain ⟨o', ho'⟩ := Finset.nonempty_iff_ne_empty.mpr hne
    rw [mem_portThreads_iff hs]
    exact ⟨.inl, fun h => h.resolve_right fun hn => hn.2 o' ((mem_portThreads_iff hs o' p).mp ho')⟩

theorem exists_reaching (g : TopologyGraph) (p : PortKey) : ∃ o, g.Reaching o p := by
  by_cases h : ∃ o, g.LandsOn o p
  · obtain ⟨o, ho⟩ := h
    exact ⟨o, .inl ho⟩
  · exact ⟨.unknown, .inr ⟨rfl, fun o' ho' => h ⟨o', ho'⟩⟩⟩

end TopologyGraph

/-- The states a graph whose propagation ends well can be in. -/
def Coherent (g : TopologyGraph) (s : OriginState) : Prop :=
  s = .fresh ∨ g.CompleteOrigins s

/-- A coherent state answers from the complete table. -/
theorem Coherent.ensure {g : TopologyGraph} {complete s : OriginState}
    (hc : g.CompleteOrigins complete) (hs : Coherent g s) :
    g.ensureThreadOrigins s = (.ok (), complete) := by
  rcases hs with rfl | hs
  · exact TopologyGraph.ensure_fresh hc
  · obtain rfl : s = complete := by
      have h := hs.symm.trans hc
      simpa using h
    exact TopologyGraph.ensure_complete hs

theorem Coherent.threadsReaching {g : TopologyGraph} {complete s : OriginState}
    (hc : g.CompleteOrigins complete) (hs : Coherent g s) (p : PortKey) :
    g.threadsReaching p s = (.ok (complete.reachingAt p), complete) := by
  unfold TopologyGraph.threadsReaching
  rw [OriginM.bind_apply, hs.ensure hc]
  rfl

/-- A query that is answered is answered from the complete table. -/
theorem Coherent.of_threadsReaching {g : TopologyGraph} {s s' : OriginState} {p : PortKey}
    {ts : Finset Origin} (hs : Coherent g s) (h : g.threadsReaching p s = (.ok ts, s')) :
    g.CompleteOrigins s' ∧ ts = s'.reachingAt p := by
  have hcomplete : ∃ complete, g.CompleteOrigins complete := by
    rcases hs with rfl | hs
    · unfold TopologyGraph.threadsReaching at h
      rw [OriginM.bind_apply] at h
      have hfresh : g.ensureThreadOrigins .fresh = g.computeThreadOrigins ⟨∅, true⟩ := rfl
      rw [hfresh] at h
      cases hrun : g.computeThreadOrigins ⟨∅, true⟩ with
      | mk r t =>
        rw [hrun] at h
        cases r with
        | error e => cases h
        | ok u => exact ⟨t, hrun⟩
    · exact ⟨s, hs⟩
  obtain ⟨complete, hc⟩ := hcomplete
  rw [hs.threadsReaching hc p] at h
  cases h
  exact ⟨hc, rfl⟩

end FprimeTopologyAnalysis
