/-
FprimeTopologyAnalysis.ThreadRuns — the threads of a topology, hand-written
callers included.

`threads g` is what runs: the queue of every instance with a thread of its
own, and a caller outside the topology for every undriven input. It tells
more of a frame than the machine of the deadlock analysis does: the port
that was entered and the kind it was entered under. So a frame says which
mutex it holds, and what every frame of a run satisfies (`InPlace`) is
stated in the terms the checks use: the thread lands on the port, and it
runs the handler.
-/
import FprimeTopologyAnalysis.DeadlockMachine

namespace FprimeTopologyAnalysis

open Library TopologyGraph

/-! ## The machine -/

/-- What a thread is doing: it is about to call an undriven input from
outside, or it has entered a port under a kind and runs a handler there. -/
inductive Activity where
  | outside (port : PortKey)
  | entered (port : PortKey) (kind : SyncKind) (handler : Option String)
  deriving DecidableEq

/-- What entering a port under a kind runs: one of its handlers, or nothing
if it has none. -/
inductive Entering (g : TopologyGraph) (port : PortKey) (kind : SyncKind) : Activity → Prop
  | handler {info : InstanceInfo} {entry : String} : g.instances.get? port.inst = some info →
      kind ∈ info.kindsOf port.port → entry ∈ info.flowEntries port.port kind →
      Entering g port kind (.entered port kind (some entry))
  | nothing {info : InstanceInfo} : g.instances.get? port.inst = some info →
      kind ∈ info.kindsOf port.port → info.flowEntries port.port kind = [] →
      Entering g port kind (.entered port kind none)

/-- The mutex that a call into `inst` takes. -/
def SyncKind.mutex (kind : SyncKind) (inst : String) : Option String :=
  if kind = .guarded then some inst else none

/-- The calls that stay on the thread: those of an outside caller into its
port, and the hops of a handler that are not async. -/
inductive StaysOn (g : TopologyGraph) : Activity → PortKey → SyncKind → Prop
  | outside {port : PortKey} {kind : SyncKind} : kind ≠ .async →
      StaysOn g (.outside port) port kind
  | hop {port : PortKey} {kind : SyncKind} {entry : String} {hop : OutwardHop} :
      g.HopOut (port.inst, entry) hop → hop.kind ≠ .async →
      StaysOn g (.entered port kind (some entry)) hop.dest hop.kind

/-- The threads of a topology. -/
def threads (g : TopologyGraph) : LockMachine.System Origin Activity String where
  starts o a := ∃ port kind, g.Seeds o port kind
    ∧ ((kind = .async ∧ Entering g port kind a) ∨ (kind ≠ .async ∧ a = .outside port))
  calls a m a' := ∃ port kind, StaysOn g a port kind ∧ Entering g port kind a'
    ∧ m = kind.mutex port.inst

/-- Every interleaving: nothing bounds the mutexes a thread may hold. -/
def Unbounded : List String → Prop := fun _ => True

/-- A state that some run of the topology reaches. -/
def RunState (g : TopologyGraph) (s : LockMachine.State Origin Activity String) : Prop :=
  LockMachine.Reachable (threads g) Unbounded s

/-! ## What the frames of a run satisfy -/

/-- Origin `o` enters `port` under `kind`: it dispatches the message, or
calls the port. -/
def EntersUnder (g : TopologyGraph) (o : Origin) (port : PortKey) (kind : SyncKind) : Prop :=
  (∃ info, g.instances.get? port.inst = some info ∧ kind ∈ info.kindsOf port.port)
    ∧ (kind = .async → o = .thread port.inst) ∧ g.LandsOn o port

/-- A frame is where its thread can be. -/
inductive InPlace (g : TopologyGraph) (o : Origin) : LockMachine.Frame Activity String → Prop
  | outside {port : PortKey} {kind : SyncKind} : g.Seeds o port kind → kind ≠ .async →
      InPlace g o (.outside port, none)
  | entered {port : PortKey} {kind : SyncKind} {handler : Option String} :
      EntersUnder g o port kind → (∀ entry, handler = some entry → g.Runs o (port.inst, entry)) →
      (∀ entry, handler = some entry → g.Behind port kind (port.inst, entry)) →
      InPlace g o (.entered port kind handler, kind.mutex port.inst)

section Frames

variable {g : TopologyGraph} {o : Origin}

theorem Entering.known {port : PortKey} {kind : SyncKind} {a : Activity}
    (h : Entering g port kind a) :
    ∃ info, g.instances.get? port.inst = some info ∧ kind ∈ info.kindsOf port.port := by
  cases h with
  | handler hget hk _ => exact ⟨_, hget, hk⟩
  | nothing hget hk _ => exact ⟨_, hget, hk⟩

/-- A port that the thread lands on is entered in its place, when the thread
runs the handlers behind it. -/
theorem Entering.inPlace {port : PortKey} {kind : SyncKind} {a : Activity}
    (h : Entering g port kind a) (hown : kind = .async → o = .thread port.inst)
    (hlands : g.LandsOn o port) (hruns : ∀ h, g.Behind port kind h → g.Runs o h) :
    InPlace g o (a, kind.mutex port.inst) := by
  have hunder : EntersUnder g o port kind := ⟨h.known, hown, hlands⟩
  cases h with
  | @handler info entry hget hk hentry =>
    have hbehind : g.Behind port kind (port.inst, entry) := ⟨info, hget, hk, entry, hentry, rfl⟩
    refine .entered hunder (fun e he => ?_) fun e he => ?_
    · obtain rfl := Option.some.inj he
      exact hruns _ hbehind
    · obtain rfl := Option.some.inj he
      exact hbehind
  | nothing _ _ _ => exact .entered hunder (fun _ he => by cases he) fun _ he => by cases he

/-- A call that stays on the thread lands where it goes, and runs what is
behind it. -/
theorem StaysOn.lands {a : Activity} {m : Option String} {port : PortKey} {kind : SyncKind}
    (h : StaysOn g a port kind) (hplace : InPlace g o (a, m))
    (hknown : ∃ info, g.instances.get? port.inst = some info ∧ kind ∈ info.kindsOf port.port) :
    kind ≠ .async ∧ g.LandsOn o port ∧ ∀ h', g.Behind port kind h' → g.Runs o h' := by
  cases h with
  | outside hsync =>
    cases hplace with
    | @outside _ kind' hseed hsync' =>
      -- an outside caller may call its port under any kind but async
      obtain ⟨info, hget, hk⟩ := hknown
      obtain ⟨_, _, _, ⟨hasync, _⟩ | ⟨_, hundriven, ho⟩⟩ := hseed
      · exact absurd hasync hsync'
      · have hseed : g.Seeds o port kind := ⟨info, hget, hk, .inr ⟨hsync, hundriven, ho⟩⟩
        exact ⟨hsync, .inl ⟨kind, hseed⟩, fun h' hb => ⟨port, kind, hseed, h', hb, .refl⟩⟩
  | @hop port₀ kind₀ entry hop hhop hsync =>
    cases hplace with
    | entered _ hruns _ =>
      have hrun := hruns entry rfl
      refine ⟨hsync, .inr ⟨_, hrun, hop, hhop, hsync, rfl⟩, fun h' hb => ?_⟩
      obtain ⟨info, hget, _, entry', hentry', rfl⟩ := hb
      obtain rfl : hop.destInfo = info := Option.some.inj (hhop.dest_spec.1.symm.trans hget)
      exact Runs.calls hrun ⟨hop, hhop, hsync, List.mem_map.mpr ⟨entry', hentry', rfl⟩⟩

/-- A frame that a call pushes is in place when its caller is. -/
theorem InPlace.calls {a a' : Activity} {m m' : Option String} (hplace : InPlace g o (a, m))
    (hcall : (threads g).calls a m' a') : InPlace g o (a', m') := by
  obtain ⟨port, kind, hstays, hentering, rfl⟩ := hcall
  obtain ⟨hsync, hlands, hruns⟩ := hstays.lands hplace hentering.known
  exact hentering.inPlace (fun hasync => absurd hasync hsync) hlands hruns

/-- The first frame of a thread is in place. -/
theorem inPlace_of_starts {a : Activity} (h : (threads g).starts o a) : InPlace g o (a, none) := by
  obtain ⟨port, kind, hseed, ⟨rfl, hentering⟩ | ⟨hsync, rfl⟩⟩ := h
  · obtain ⟨_, _, _, ⟨_, _, ho⟩ | ⟨hne, _⟩⟩ := id hseed
    · have hplace := hentering.inPlace (fun _ => ho) (.inl ⟨_, hseed⟩)
        fun h' hb => ⟨port, .async, hseed, h', hb, .refl⟩
      exact hplace
    · exact absurd rfl hne
  · exact .outside hseed hsync

/-- **Every frame of a run is in place.** -/
theorem inPlace_of_callPath {stack : List (LockMachine.Frame Activity String)}
    (hp : LockMachine.CallPath (threads g) Unbounded o stack) :
    ∀ frame ∈ stack, InPlace g o frame := by
  induction hp with
  | nil => simp
  | start hs => simpa using inPlace_of_starts hs
  | call _ hcall ih =>
    refine List.forall_mem_cons.mpr ⟨?_, ih⟩
    exact (ih _ (List.mem_cons_self ..)).calls hcall
  | acquire _ hcall _ _ ih =>
    refine List.forall_mem_cons.mpr ⟨?_, ih⟩
    exact (ih _ (List.mem_cons_self ..)).calls hcall

end Frames

/-! ## Holding and waiting -/

/-- Origin `o` calls a guarded port of instance `x`. -/
def LocksPort (g : TopologyGraph) (o : Origin) (x : String) (info : InstanceInfo) : Prop :=
  ∃ port, .guarded ∈ info.kindsOf port ∧ g.LandsOn o ⟨x, port⟩

section Mutexes

variable {g : TopologyGraph} {o : Origin} {s : LockMachine.State Origin Activity String} {x : String}

theorem SyncKind.mutex_eq_some {kind : SyncKind} {inst x : String} :
    kind.mutex inst = some x ↔ kind = .guarded ∧ inst = x := by
  unfold SyncKind.mutex
  by_cases h : kind = .guarded
  · simp [h]
  · simp [h]

/-- A frame that holds a mutex has entered a guarded port of its instance. -/
theorem InPlace.locksPort {a : Activity} {m : Option String} (h : InPlace g o (a, m))
    (hm : m = some x) : ∃ info, g.instances.get? x = some info ∧ LocksPort g o x info := by
  cases h with
  | outside _ _ => cases hm
  | @entered port kind _ hunder _ _ =>
    obtain ⟨rfl, rfl⟩ := SyncKind.mutex_eq_some.mp hm
    obtain ⟨⟨info, hget, hk⟩, _, hlands⟩ := hunder
    exact ⟨info, hget, port.port, hk, hlands⟩

/-- What a thread holds, it has locked through a guarded port. -/
theorem RunState.holds (hs : RunState g s) (h : LockMachine.Holds s o x) :
    ∃ info, g.instances.get? x = some info ∧ LocksPort g o x info := by
  obtain ⟨frame, hframe, hm⟩ := List.mem_filterMap.mp h
  exact (inPlace_of_callPath (hs.inv.path o) frame hframe).locksPort hm

/-- What a thread waits for, it is about to lock through a guarded port. -/
theorem RunState.waits (hs : RunState g s) (h : LockMachine.Waits s o x) :
    ∃ info, g.instances.get? x = some info ∧ LocksPort g o x info := by
  obtain ⟨a', hwait⟩ := h
  obtain ⟨a, m, rest, hstack, hcall⟩ := hs.inv.blocked o a' x hwait
  have hpath := hs.inv.path o
  rw [hstack] at hpath
  have hplace := inPlace_of_callPath hpath _ (List.mem_cons_self ..)
  exact (hplace.calls hcall).locksPort rfl

end Mutexes

end FprimeTopologyAnalysis
