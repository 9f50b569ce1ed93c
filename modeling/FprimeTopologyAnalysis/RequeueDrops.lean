/-
FprimeTopologyAnalysis.RequeueDrops — `find_requeue_drops` of
`async_queue_analyzer.py`: work that a handler puts back onto its own
instance's queue at a lower priority.

The function walks the chains of every async input port and compares the
priority of the port with that of the port a message comes back to. Both
are looked up per port. A command port stands for many messages, each with
the priority its command declares, and those the lookup does not see
(`Loses` does).

What is reported is therefore exact up to two things: the budget of the
walk, which is no matter for any but the largest topologies
(`meets_of_few`), and the commands. Of those it is the highest priority that
leads back somewhere and the lowest that can be come back to which the
command port's own has to agree with (`exactDrops_iff`).
-/
import FprimeTopologyAnalysis.Checks
import FprimeTopologyAnalysis.ChainWalk
import FprimeTopologyAnalysis.Library.SimplePaths
import Mathlib.Data.Set.Finite.Basic
import Mathlib.Data.Set.Finite.Lemmas

namespace FprimeTopologyAnalysis

open Library

/-- `DEFAULT_PORT_PRIORITY`. -/
def defaultPortPriority : Int := 0

/-- `DEFAULT_MAX_STATES`. -/
def defaultMaxStates : Int := 500000

/-- `RequeueDrop`: work re-queued onto its own component's queue at a lower
priority. -/
structure RequeueDrop where
  inst : String
  fromPort : PortName
  toPort : PortName
  fromPriority : Int
  toPriority : Int
  witness : List String
  deriving DecidableEq

/-- The key a drop is recorded under. -/
def RequeueDrop.key (d : RequeueDrop) : String × PortName × PortName :=
  (d.inst, d.fromPort, d.toPort)

namespace InstanceInfo

/-- `port_priorities.get(port, DEFAULT_PORT_PRIORITY)`. -/
def portPriority (info : InstanceInfo) (port : PortName) : Int :=
  (info.portPriorities.get? port).getD defaultPortPriority

/-- The mnemonics of the async commands. -/
def asyncCommands (info : InstanceInfo) : List String :=
  ((info.commandKinds.entries.filter fun e => .async ∈ e.2).map Prod.fst).insertionSort (· ≤ ·)

/-- The messages of an async port, each with the flow entry that handles it
and its queue priority: a command port has one per async command. -/
def messages (info : InstanceInfo) (port : PortName) : List (String × Int) :=
  if info.cmdPort ≠ some port then [(port.str, info.portPriority port)]
  else info.asyncCommands.map fun mnemonic =>
    ("cmd:" ++ mnemonic, (info.commandPriorities.get? mnemonic).getD defaultPortPriority)

/-- The priorities at which a message can be queued through a port: a command
port without async commands queues at its own. -/
def queuedAt (info : InstanceInfo) (port : PortName) : List Int :=
  if info.messages port = [] then [info.portPriority port]
  else (info.messages port).map Prod.snd

/-- The entries behind an async port handle its messages. -/
theorem map_fst_messages (info : InstanceInfo) (port : PortName) :
    (info.messages port).map Prod.fst = info.flowEntries port .async := by
  unfold messages flowEntries
  by_cases hcmd : info.cmdPort ≠ some port
  · rw [if_pos hcmd, if_pos hcmd]
    rfl
  · rw [if_neg hcmd, if_neg hcmd, List.map_map]
    rfl

/-- Away from the command port a port's priority is that of its messages. -/
theorem messages_of_ne {info : InstanceInfo} {port : PortName} (h : info.cmdPort ≠ some port) :
    info.messages port = [(port.str, info.portPriority port)]
      ∧ info.queuedAt port = [info.portPriority port] := by
  have hmessages : info.messages port = [(port.str, info.portPriority port)] := if_pos h
  exact ⟨hmessages, by simp [queuedAt, hmessages]⟩

theorem queuedAt_ne_nil (info : InstanceInfo) (port : PortName) : info.queuedAt port ≠ [] := by
  unfold queuedAt
  split
  · exact List.cons_ne_nil _ _
  · simpa

end InstanceInfo

namespace RequeueDrops

/-! ## The function -/

/-- `drops`. -/
abbrev Drops := Dict (String × PortName × PortName) RequeueDrop

/-- The branch of `on_hop` for a hop onto the entry's own instance. -/
def recordDrop (g : TopologyGraph) (entry : PortKey) (priority : Int) (hop : Hop Unit)
    (drops : Drops) : Drops :=
  match g.instances.get? hop.dest.inst with
  | none => drops
  | some destInfo =>
    let destPriority := destInfo.portPriority hop.dest.port
    let key := (entry.inst, entry.port, hop.dest.port)
    if destPriority < priority ∧ key ∉ drops.keys then
      drops.set key
        ⟨entry.inst, entry.port, hop.dest.port, priority, destPriority, hop.path⟩
    else drops

/-- `on_hop`. -/
def onHop (g : TopologyGraph) (entry : PortKey) (priority : Int) (hop : Hop Unit)
    (drops : Drops) : Option Unit × Drops :=
  if hop.kind ≠ .async then (some hop.state, drops)
  else if hop.dest.inst = entry.inst then (none, recordDrop g entry priority hop drops)
  else (none, drops)

/-- What a walk has accumulated. Whether it was cut short is ignored. -/
def accumulated {κ α : Type} (r : Except UnresolvedFlowError Bool × WalkState κ α) :
    Except UnresolvedFlowError α :=
  r.1.map fun _ => r.2.acc

/-- The walk of one async entry port. -/
def walkEntry (g : TopologyGraph) (name : String) (info : InstanceInfo) (drops : Drops)
    (port : PortName) : Except UnresolvedFlowError Drops :=
  accumulated (g.walkChains ⟨name, port⟩ .async
    (onHop g ⟨name, port⟩ (info.portPriority port)) () id ⟨defaultMaxStates, drops, []⟩)

/-- `key=lambda d: (d.instance, d.from_port)`. -/
def sortsBefore (a b : RequeueDrop) : Prop :=
  a.inst < b.inst ∨ (a.inst = b.inst ∧ a.fromPort ≤ b.fromPort)

instance : DecidableRel sortsBefore := fun _ _ => inferInstanceAs (Decidable (_ ∨ _))

/-- `find_requeue_drops`. -/
def findRequeueDrops (g : TopologyGraph) : Except UnresolvedFlowError (List RequeueDrop) :=
  ((Check.sortedInstances g).foldlM (fun drops (e : String × InstanceInfo) =>
    e.2.asyncEntries.foldlM (walkEntry g e.1 e.2) drops) ∅).map fun drops =>
      drops.values.insertionSort sortsBefore

/-! ## What is to be found -/

/-- A message that enters `I` through `from` is handled by code that can put
one of lower priority back through `to`. -/
def Loses (g : TopologyGraph) (inst : String) (source target : PortName) : Prop :=
  ∃ info, g.instances.get? inst = some info ∧ .async ∈ info.kindsOf source
    ∧ ∃ message ∈ info.messages source, ∃ h hop,
      Relation.ReflTransGen g.Calls (inst, message.1) h ∧ g.HopOut h hop ∧ hop.kind = .async
        ∧ hop.dest = ⟨inst, target⟩ ∧ ∃ q ∈ info.queuedAt target, q < message.2

/-- The answer lists the losses, each once, and nothing else. -/
def ExactDrops (g : TopologyGraph) : Prop :=
  ∃ drops, findRequeueDrops g = .ok drops ∧ (drops.map RequeueDrop.key).Nodup
    ∧ ∀ inst source target,
      (∃ d ∈ drops, d.key = (inst, source, target)) ↔ Loses g inst source target

/-! ## The walks as recordings -/

/-- What `on_hop` answers. -/
def policy : Policy Unit := fun _ _ kind s => if kind = .async then none else some s

/-- The budgeted walk of an entry port, recording what it is passed. -/
def recording (g : TopologyGraph) (entry : PortKey) :
    Except UnresolvedFlowError Bool × WalkState Unit (List (Hop Unit)) :=
  g.walkChains entry .async (TopologyGraph.recordHops policy) () id ⟨defaultMaxStates, [], []⟩

/-- The hops the budgeted walk of an entry port meets. -/
def metHops (g : TopologyGraph) (entry : PortKey) : Except UnresolvedFlowError (List (Hop Unit)) :=
  accumulated (recording g entry)

/-- The budgeted walk meets a message back onto its own instance. -/
def Meets (g : TopologyGraph) (inst : String) (source target : PortName) : Prop :=
  ∃ hops, metHops g ⟨inst, source⟩ = .ok hops
    ∧ ∃ hop ∈ hops, hop.kind = .async ∧ hop.dest = ⟨inst, target⟩

/-- The entry ports with their priorities, in order. -/
def starts (g : TopologyGraph) : List (PortKey × Int) :=
  (Check.sortedInstances g).flatMap fun e =>
    e.2.asyncEntries.map fun port => (⟨e.1, port⟩, e.2.portPriority port)

/-- What `on_hop` does to the drops at a hop of a walk. -/
def note (g : TopologyGraph) (drops : Drops) (x : (PortKey × Int) × Hop Unit) : Drops :=
  (onHop g x.1.1 x.1.2 x.2 drops).2

/-- The hops one walk meets, with where it started. -/
def metFrom (g : TopologyGraph) (st : PortKey × Int) :
    Except UnresolvedFlowError (List ((PortKey × Int) × Hop Unit)) :=
  (metHops g st.1).map fun hops => hops.map fun hop => (st, hop)

/-- One walk folds over the hops it meets. -/
theorem walk_eq (g : TopologyGraph) (st : PortKey × Int) (drops : Drops) :
    accumulated (g.walkChains st.1 .async (onHop g st.1 st.2) () id ⟨defaultMaxStates, drops, []⟩)
      = (metFrom g st).map fun xs => xs.foldl (note g) drops := by
  let fold := fun hops : List (Hop Unit) => hops.foldl (fun d hop => note g d (st, hop)) drops
  have hmap : g.walkChains st.1 .async (onHop g st.1 st.2) () id ⟨defaultMaxStates, drops, []⟩
      = ((recording g st.1).1, (recording g st.1).2.mapAcc fold) := by
    refine TopologyGraph.walkChains_map fold (fun hop seen => ?_) ⟨defaultMaxStates, [], []⟩
    refine Prod.ext ?_ (by simp [fold, note, TopologyGraph.recordHops])
    by_cases hk : hop.kind = .async
    · by_cases hd : hop.dest.inst = st.1.inst
      · simp [onHop, policy, TopologyGraph.recordHops, hk, hd]
      · simp [onHop, policy, TopologyGraph.recordHops, hk, hd]
    · simp [onHop, policy, TopologyGraph.recordHops, hk]
  rw [hmap]
  show (recording g st.1).1.map (fun _ => fold (recording g st.1).2.acc)
    = (((recording g st.1).1.map fun _ => (recording g st.1).2.acc).map fun hops =>
        hops.map fun hop => (st, hop)).map fun xs => xs.foldl (note g) drops
  cases (recording g st.1).1 with
  | error e => rfl
  | ok b => exact congrArg Except.ok List.foldl_map.symm

/-- The hops all walks meet, in order. -/
def allMet (g : TopologyGraph) :
    Except UnresolvedFlowError (List ((PortKey × Int) × Hop Unit)) :=
  SimplePaths.collect (metFrom g) (starts g)

/-- The function folds over the hops all walks meet. -/
theorem findRequeueDrops_eq (g : TopologyGraph) :
    findRequeueDrops g = (allMet g).map fun xs =>
      (xs.foldl (note g) ∅).values.insertionSort sortsBefore := by
  have hwalk : ∀ st ∈ starts g, ∀ drops,
      accumulated (g.walkChains st.1 .async (onHop g st.1 st.2) () id
          ⟨defaultMaxStates, drops, []⟩)
        = (metFrom g st).map fun xs => xs.foldl (note g) drops :=
    fun st _ drops => walk_eq g st drops
  have hloops : ∀ drops : Drops, (Check.sortedInstances g).foldlM (fun (drops : Drops) e =>
        e.2.asyncEntries.foldlM (walkEntry g e.1 e.2) drops) drops
      = (starts g).foldlM (fun drops st => accumulated (g.walkChains st.1 .async
          (onHop g st.1 st.2) () id ⟨defaultMaxStates, drops, []⟩)) drops := by
    intro drops
    rw [starts, SimplePaths.foldlM_flatMap]
    simp only [List.foldlM_map]
    rfl
  rw [findRequeueDrops, hloops, SimplePaths.foldlM_collect _ hwalk, ← allMet]
  cases allMet g with
  | error e => rfl
  | ok xs => rfl

/-! ## What the fold has recorded -/

section Fold

variable {g : TopologyGraph}

/-- The hop comes back to its queue at a lower port priority. -/
def IsDrop (g : TopologyGraph) (x : (PortKey × Int) × Hop Unit) : Prop :=
  x.2.kind = .async ∧ x.2.dest.inst = x.1.1.inst
    ∧ ∃ info, g.instances.get? x.2.dest.inst = some info ∧ info.portPriority x.2.dest.port < x.1.2

/-- The key the hop is recorded under. -/
def keyOf (x : (PortKey × Int) × Hop Unit) : String × PortName × PortName :=
  (x.1.1.inst, x.1.1.port, x.2.dest.port)

/-- A hop records its drop under its key, unless the key is taken. -/
theorem note_cases (g : TopologyGraph) (drops : Drops) (x : (PortKey × Int) × Hop Unit) :
    (IsDrop g x ∧ ∃ d : RequeueDrop, d.key = keyOf x ∧ note g drops x = drops.set (keyOf x) d)
      ∨ (note g drops x = drops ∧ (IsDrop g x → keyOf x ∈ drops.keys)) := by
  by_cases hk : x.2.kind = .async
  · by_cases hd : x.2.dest.inst = x.1.1.inst
    · have hnote : note g drops x = recordDrop g x.1.1 x.1.2 x.2 drops := by
        simp [note, onHop, hk, hd]
      rw [hnote, recordDrop]
      cases hinfo : g.instances.get? x.2.dest.inst with
      | none => exact .inr ⟨rfl, fun h => by simp [IsDrop, hinfo] at h⟩
      | some info =>
        dsimp only
        split
        · rename_i hnew
          exact .inl ⟨⟨hk, hd, info, hinfo, hnew.1⟩, _, rfl, rfl⟩
        · rename_i hold
          refine .inr ⟨rfl, ?_⟩
          intro hdrop
          obtain ⟨_, _, info', hinfo', hlt⟩ := hdrop
          obtain rfl := Option.some.inj (hinfo.symm.trans hinfo')
          by_contra hkey
          exact hold ⟨hlt, hkey⟩
    · refine .inr ⟨by simp [note, onHop, hk, hd], fun h => absurd h.2.1 hd⟩
  · exact .inr ⟨by simp [note, onHop, hk], fun h => absurd h.1 hk⟩

/-- The keys recorded are those of the drops met. -/
theorem mem_keys_foldl (xs : List ((PortKey × Int) × Hop Unit)) (k : String × PortName × PortName) :
    ∀ drops : Drops, k ∈ (xs.foldl (note g) drops).keys
      ↔ k ∈ drops.keys ∨ ∃ x ∈ xs, IsDrop g x ∧ keyOf x = k := by
  induction xs with
  | nil => simp
  | cons x xs ih =>
    intro drops
    rw [List.foldl_cons, ih, List.exists_mem_cons_iff]
    rcases note_cases g drops x with ⟨hdrop, d, _, hnote⟩ | ⟨hnote, htaken⟩
    · rw [hnote, Dict.mem_keys_set]
      simp only [hdrop, true_and]
      tauto
    · rw [hnote]
      constructor
      · tauto
      · rintro (hk | ⟨hdrop, rfl⟩ | hrest)
        · exact .inl hk
        · exact .inl (htaken hdrop)
        · exact .inr hrest

/-- Every drop is recorded under its own key. -/
def Labelled (drops : Drops) : Prop := ∀ k d, drops.get? k = some d → d.key = k

theorem labelled_foldl (xs : List ((PortKey × Int) × Hop Unit)) :
    ∀ drops : Drops, Labelled drops → Labelled (xs.foldl (note g) drops) := by
  induction xs with
  | nil => exact fun drops h => h
  | cons x xs ih =>
    intro drops h
    rw [List.foldl_cons]
    refine ih _ ?_
    rcases note_cases g drops x with ⟨_, d, hd, hnote⟩ | ⟨hnote, _⟩
    · rw [hnote]
      intro k d' hget
      rw [Dict.get?_set] at hget
      split at hget
      · rename_i hk
        obtain rfl := Option.some.inj hget
        rw [hd, hk]
      · exact h k d' hget
    · rwa [hnote]

theorem Labelled.map_key {drops : Drops} (h : Labelled drops) :
    drops.values.map RequeueDrop.key = drops.keys := by
  rw [Dict.values, Dict.keys, List.map_map]
  exact List.map_congr_left fun e he => h e.1 e.2 ((drops.get?_eq_some_iff _ _).mpr he)

end Fold

/-- What is reported, once and under its own key. -/
theorem findRequeueDrops_spec {g : TopologyGraph} {xs : List ((PortKey × Int) × Hop Unit)}
    (h : allMet g = .ok xs) :
    ∃ drops, findRequeueDrops g = .ok drops ∧ (drops.map RequeueDrop.key).Nodup
      ∧ ∀ k, (∃ d ∈ drops, d.key = k) ↔ ∃ x ∈ xs, IsDrop g x ∧ keyOf x = k := by
  let recorded := xs.foldl (note g) (∅ : Drops)
  have hlabelled : Labelled recorded := labelled_foldl xs ∅ (by simp [Labelled])
  have hperm :
      ((recorded.values.insertionSort sortsBefore).map RequeueDrop.key).Perm recorded.keys := by
    rw [← hlabelled.map_key]
    exact (List.perm_insertionSort _ _).map _
  refine ⟨recorded.values.insertionSort sortsBefore, ?_, ?_, fun k => ?_⟩
  · rw [findRequeueDrops_eq, h]
    rfl
  · rw [hperm.nodup_iff]
    exact recorded.nodupKeys
  · have hkeys := mem_keys_foldl (g := g) xs k ∅
    have hempty : k ∉ (∅ : Drops).keys := List.not_mem_nil
    rw [← List.mem_map, hperm.mem_iff, hkeys]
    tauto

/-! ## The chains behind the hops -/

section Chains

variable {g : TopologyGraph} {entry : PortKey} {flowEntry : String}

/-- A chain the policy does not stop is a chain of calls. -/
theorem calls_of_chain {h : Handler} {s : Unit} {path : List String}
    (hchain : Chain g policy entry .async () flowEntry h s path) :
    Relation.ReflTransGen g.Calls (entry.inst, flowEntry) h := by
  induction hchain with
  | start => exact .refl
  | step _ hhop hpol htarget ih =>
    refine ih.tail ⟨_, hhop, fun hk => ?_, htarget⟩
    simp [policy, hk] at hpol

theorem chain_of_calls {h : Handler}
    (hcalls : Relation.ReflTransGen g.Calls (entry.inst, flowEntry) h) :
    ∃ path, Chain g policy entry .async () flowEntry h () path := by
  induction hcalls with
  | refl => exact ⟨_, .start⟩
  | tail _ hstep ih =>
    obtain ⟨path, hchain⟩ := ih
    obtain ⟨hop, hhop, hk, htarget⟩ := hstep
    exact ⟨_, .step hchain hhop (by simp [policy, hk]) htarget⟩

theorem mem_handlers_of_calls {h h' : Handler} (hh : h ∈ g.handlers)
    (hcalls : Relation.ReflTransGen g.Calls h h') : h' ∈ g.handlers := by
  rcases hcalls.cases_tail with heq | ⟨_, _, hlast⟩
  · exact heq ▸ hh
  · exact hlast.mem_handlers

/-- The handlers a walk starts from. -/
theorem mem_handlers_of_entryFlows {info : InstanceInfo}
    (hinfo : g.instances.get? entry.inst = some info) (hk : .async ∈ info.kindsOf entry.port)
    (hflow : flowEntry ∈ g.entryFlows entry .async) : (entry.inst, flowEntry) ∈ g.handlers := by
  rw [TopologyGraph.entryFlows, hinfo] at hflow
  exact TopologyGraph.mem_handlers.mpr ⟨entry, .async, info, hinfo, hk, flowEntry, hflow, rfl⟩

/-- Every hop a walk meets ends a chain of calls from the entry port. -/
theorem metHops_sound {hops : List (Hop Unit)} (h : metHops g entry = .ok hops) :
    ∀ hop ∈ hops, ∃ flowEntry ∈ g.entryFlows entry .async, ∃ h' out,
      Relation.ReflTransGen g.Calls (entry.inst, flowEntry) h' ∧ g.HopOut h' out
        ∧ out.kind = hop.kind ∧ out.dest = hop.dest := by
  obtain ⟨_, _, rfl⟩ := SimplePaths.map_eq_ok_iff.mp h
  intro hop hhop
  obtain ⟨_, hflow, h', path, out, hchain, hout, _, hdest, hkind, _⟩ :=
    TopologyGraph.recordHops_sound ⟨defaultMaxStates, [], []⟩ rfl hop hhop
  exact ⟨hop.entryFlow, hflow, h', out, calls_of_chain hchain, hout, hkind.symm, hdest.symm⟩

theorem decides_policy : Decides (TopologyGraph.recordHops policy) policy := fun _ _ => rfl

/-- Where every handler resolves the walks end well. -/
theorem metHops_ok (hres : g.AllResolve) {info : InstanceInfo}
    (hinfo : g.instances.get? entry.inst = some info) (hk : .async ∈ info.kindsOf entry.port) :
    ∃ hops, metHops g entry = .ok hops := by
  have hrun : ∃ b s', recording g entry = (.ok b, s') := by
    refine TopologyGraph.walkChains_ok decides_policy ?_ 0 _
    intro flowEntry hflow h st path hchain
    exact hres h (mem_handlers_of_calls (mem_handlers_of_entryFlows hinfo hk hflow)
      (calls_of_chain hchain))
  obtain ⟨b, s', hrun⟩ := hrun
  exact ⟨s'.acc, by rw [metHops, hrun]; rfl⟩

/-- A walk that is not cut short meets every hop that ends a chain. -/
theorem metHops_complete {s : WalkState Unit (List (Hop Unit))}
    (hrun : recording g entry = (.ok false, s))
    (hflow : flowEntry ∈ g.entryFlows entry .async) {h : Handler} {out : OutwardHop}
    (hcalls : Relation.ReflTransGen g.Calls (entry.inst, flowEntry) h) (hout : g.HopOut h out) :
    ∃ hop ∈ s.acc, hop.kind = out.kind ∧ hop.dest = out.dest := by
  obtain ⟨path, hchain⟩ := chain_of_calls hcalls
  obtain ⟨_, hall⟩ := TopologyGraph.recordHops_complete (fun _ _ _ _ _ _ => by simp [policy]) hrun
    flowEntry hflow
  obtain ⟨path', st', _, hmem⟩ := (hall h () path hchain).2 out hout
  exact ⟨_, hmem, rfl, rfl⟩

/-- The handlers one walk expands are at most its flow entries times the
handlers of the topology. -/
theorem expansions_le {info : InstanceInfo} (hinfo : g.instances.get? entry.inst = some info)
    (hk : .async ∈ info.kindsOf entry.port) :
    (recording g entry).2.expansions
      ≤ (g.entryFlows entry .async).length * g.handlers.toFinset.card := by
  have hsearches : ((recording g entry).2.expanded.map Prod.fst).IsPrefix
      (g.entryFlows entry .async) :=
    TopologyGraph.walkChains_expanded_keys 0 ⟨defaultMaxStates, [], []⟩ rfl
  have hcard : ∀ e ∈ (recording g entry).2.expanded, e.2.card ≤ g.handlers.toFinset.card := by
    intro e he
    have hflow := hsearches.subset (List.mem_map_of_mem he)
    -- a marker is a handler: the state says nothing
    refine Finset.card_le_card_of_injOn (fun k => (k.1, k.2.1)) (fun k hmark => ?_) ?_
    · obtain ⟨h, st, path, rfl, hchain⟩ := (TopologyGraph.walkChains_expanded_sound decides_policy 0
        ⟨defaultMaxStates, [], []⟩ rfl e he).2 k hmark
      exact List.mem_toFinset.mpr (mem_handlers_of_calls
        (mem_handlers_of_entryFlows hinfo hk hflow) (calls_of_chain hchain))
    · rintro ⟨i, f, u⟩ _ ⟨i', f', u'⟩ _ heq
      simpa using heq
  have hsum : (recording g entry).2.expansions
      ≤ ((recording g entry).2.expanded.map fun e => e.2.card).length * g.handlers.toFinset.card :=
    List.sum_le_card_nsmul _ _ (List.forall_mem_map.mpr hcard)
  have hlen := hsearches.length_le
  rw [List.length_map] at hsum hlen
  exact hsum.trans (Nat.mul_le_mul_right _ hlen)

/-- Expansions and budget balance. -/
theorem recording_count (g : TopologyGraph) (entry : PortKey) :
    ((recording g entry).2.expansions : Int) + (recording g entry).2.budget = defaultMaxStates := by
  have hcount : ((recording g entry).2.expansions : Int) + (recording g entry).2.budget
      = ((⟨defaultMaxStates, [], []⟩ : WalkState Unit (List (Hop Unit))).expansions : Int)
        + defaultMaxStates :=
    (TopologyGraph.walkChains_count decides_policy 0 ⟨defaultMaxStates, [], []⟩).1
  rw [hcount]
  simp [WalkState.expansions]

/-- What the entry runs can put a message back through `target`. -/
def LeadsBack (g : TopologyGraph) (inst entry : String) (target : PortName) : Prop :=
  ∃ h hop, Relation.ReflTransGen g.Calls (inst, entry) h ∧ g.HopOut h hop ∧ hop.kind = .async
    ∧ hop.dest = ⟨inst, target⟩

/-- The flow entries of an async port times the handlers of the topology are
fewer than the budget. -/
def Few (g : TopologyGraph) : Prop :=
  ∀ inst info port, g.instances.get? inst = some info → .async ∈ info.kindsOf port →
    ((info.flowEntries port .async).length * g.handlers.toFinset.card : Nat) < defaultMaxStates

instance : Decidable (Few g) :=
  decidable_of_iff (∀ e ∈ g.instances.entries, ∀ port ∈ e.2.asyncEntries,
      ((e.2.flowEntries port .async).length * g.handlers.toFinset.card : Nat) < defaultMaxStates) <| by
    simp only [Few, Prod.forall, Dict.get?_eq_some_iff, InstanceInfo.mem_asyncEntries]
    exact ⟨fun h inst info port he => h inst info he port, fun h inst info he port => h inst info port he⟩

/-- A walk with budget to spare meets whatever leads back. -/
theorem meets_of_few (hres : g.AllResolve) (hfew : Few g) {inst : String} {source target : PortName}
    {info : InstanceInfo} (hinfo : g.instances.get? inst = some info)
    (hk : .async ∈ info.kindsOf source) (hflow : flowEntry ∈ info.flowEntries source .async)
    (hback : LeadsBack g inst flowEntry target) : Meets g inst source target := by
  obtain ⟨h, out, hcalls, hout, hkind, hdest⟩ := hback
  have hflows : g.entryFlows ⟨inst, source⟩ .async = info.flowEntries source .async := by
    rw [TopologyGraph.entryFlows, hinfo]
  obtain ⟨hops, hhops⟩ : ∃ hops, metHops g ⟨inst, source⟩ = .ok hops := metHops_ok hres hinfo hk
  have hcount := recording_count g ⟨inst, source⟩
  have hle : (recording g ⟨inst, source⟩).2.expansions
      ≤ (g.entryFlows ⟨inst, source⟩ .async).length * g.handlers.toFinset.card :=
    expansions_le hinfo hk
  have hbound := hfew inst info source hinfo hk
  cases hrun : recording g ⟨inst, source⟩ with
  | mk r s =>
    rw [hrun] at hcount hle
    rw [metHops, hrun] at hhops
    obtain ⟨b, rfl, rfl⟩ := SimplePaths.map_eq_ok_iff.mp hhops
    cases b with
    | false =>
      obtain ⟨hop, hhop, hkind', hdest'⟩ :=
        metHops_complete hrun (hflows.symm ▸ hflow) hcalls hout
      exact ⟨s.acc, by rw [metHops, hrun]; rfl, hop, hhop, hkind'.trans hkind, hdest'.trans hdest⟩
    | true =>
      -- a walk cut short has spent the whole budget on handlers there are not
      have hspent := TopologyGraph.walkChains_truncated decides_policy hrun
      rw [hflows] at hle
      dsimp only at hcount hle
      omega

end Chains

/-! ## When the answer is exact -/

section Exact

variable {g : TopologyGraph} {inst : String} {info : InstanceInfo} {source target cmd : PortName}

theorem mem_starts_iff {st : PortKey × Int} :
    st ∈ starts g ↔ ∃ info, g.instances.get? st.1.inst = some info
      ∧ .async ∈ info.kindsOf st.1.port ∧ st.2 = info.portPriority st.1.port := by
  simp only [starts, List.mem_flatMap, Check.mem_sortedInstances, List.mem_map,
    InstanceInfo.mem_asyncEntries]
  constructor
  · rintro ⟨e, he, port, hk, rfl⟩
    exact ⟨e.2, he, hk, rfl⟩
  · rintro ⟨info, hinfo, hk, hp⟩
    exact ⟨(st.1.inst, info), hinfo, st.1.port, hk, Prod.ext rfl hp.symm⟩

/-- What is reported: the hops the walks meet, judged by port priorities. -/
theorem reported_iff (hres : g.AllResolve) :
    ∃ drops, findRequeueDrops g = .ok drops ∧ (drops.map RequeueDrop.key).Nodup
      ∧ ∀ inst source target, (∃ d ∈ drops, d.key = (inst, source, target))
        ↔ ∃ info, g.instances.get? inst = some info ∧ .async ∈ info.kindsOf source
          ∧ Meets g inst source target ∧ info.portPriority target < info.portPriority source := by
  have hall : ∃ xs, allMet g = .ok xs := by
    refine (SimplePaths.collect_ok_iff _).mpr fun st hst => ?_
    obtain ⟨info, hinfo, hk, _⟩ := mem_starts_iff.mp hst
    obtain ⟨hops, hhops⟩ := metHops_ok hres hinfo hk
    exact ⟨_, SimplePaths.map_eq_ok_iff.mpr ⟨hops, hhops, rfl⟩⟩
  obtain ⟨xs, hxs⟩ := hall
  obtain ⟨drops, hdrops, hnodup, hmem⟩ := findRequeueDrops_spec hxs
  refine ⟨drops, hdrops, hnodup, fun inst source target => ?_⟩
  rw [hmem]
  constructor
  · rintro ⟨x, hx, ⟨hkind, hsame, info, hinfo, hlt⟩, hkey⟩
    obtain ⟨st, hst, ys, hys, hxy⟩ := (SimplePaths.mem_collect_iff hxs).mp hx
    obtain ⟨hops, hhops, rfl⟩ := SimplePaths.map_eq_ok_iff.mp hys
    obtain ⟨hop, hhop, rfl⟩ := List.mem_map.mp hxy
    obtain ⟨info', hinfo', hk, hp⟩ := mem_starts_iff.mp hst
    obtain ⟨rfl, rfl, rfl⟩ : st.1.inst = inst ∧ st.1.port = source ∧ hop.dest.port = target := by
      simpa [keyOf] using hkey
    dsimp only at hsame hinfo hlt hkind
    rw [hsame] at hinfo
    obtain rfl := Option.some.inj (hinfo.symm.trans hinfo')
    refine ⟨info, hinfo, hk, ⟨hops, hhops, hop, hhop, hkind, ?_⟩, hp ▸ hlt⟩
    rw [← hsame]
  · rintro ⟨info, hinfo, hk, ⟨hops, hhops, hop, hhop, hkind, hdest⟩, hlt⟩
    refine ⟨((⟨inst, source⟩, info.portPriority source), hop), ?_, ⟨hkind, ?_, info, ?_, ?_⟩, ?_⟩
    · refine (SimplePaths.mem_collect_iff hxs).mpr
        ⟨(⟨inst, source⟩, info.portPriority source), mem_starts_iff.mpr ⟨info, hinfo, hk, rfl⟩, _,
          SimplePaths.map_eq_ok_iff.mpr ⟨hops, hhops, rfl⟩, List.mem_map_of_mem hhop⟩
    · rw [hdest]
    · rw [hdest]
      exact hinfo
    · rw [hdest]
      exact hlt
    · rw [keyOf, hdest]

variable (g inst info source target) in
/-- The priorities of the messages of a port that lead back to another. -/
def Returning : Set Int :=
  {p | ∃ message ∈ info.messages source, LeadsBack g inst message.1 target ∧ message.2 = p}

theorem exists_greatest (h : (Returning g inst info source target).Nonempty) :
    ∃ top, IsGreatest (Returning g inst info source target) top := by
  have hfinite : (Returning g inst info source target).Finite := by
    refine (List.finite_toSet ((info.messages source).map Prod.snd)).subset ?_
    rintro p ⟨message, hmessage, _, rfl⟩
    exact List.mem_map_of_mem hmessage
  obtain ⟨top, htop, hmax⟩ := Set.exists_max_image _ id hfinite h
  exact ⟨top, htop, hmax⟩

theorem exists_least (info : InstanceInfo) (port : PortName) :
    ∃ low, IsLeast {q | q ∈ info.queuedAt port} low := by
  have hfinite : {q | q ∈ info.queuedAt port}.Finite := List.finite_toSet _
  obtain ⟨low, hlow, hmin⟩ :=
    Set.exists_min_image _ id hfinite (List.exists_mem_of_ne_nil _ (info.queuedAt_ne_nil port))
  exact ⟨low, hlow, hmin⟩

/-- A message is met on its way back when one leads there. -/
theorem meets_iff_returning (hres : g.AllResolve) (hfew : Few g)
    (hinfo : g.instances.get? inst = some info) (hk : .async ∈ info.kindsOf source) :
    Meets g inst source target ↔ (Returning g inst info source target).Nonempty := by
  constructor
  · rintro ⟨hops, hhops, hop, hhop, hkind, hdest⟩
    obtain ⟨flowEntry, hflow, h, out, hcalls, hout, hokind, hodest⟩ := metHops_sound hhops hop hhop
    rw [TopologyGraph.entryFlows, hinfo] at hflow
    have hentry : flowEntry ∈ info.flowEntries source .async := hflow
    rw [← InstanceInfo.map_fst_messages] at hentry
    obtain ⟨message, hmessage, rfl⟩ := List.mem_map.mp hentry
    exact ⟨message.2, message, hmessage,
      ⟨h, out, hcalls, hout, hokind.trans hkind, hodest.trans hdest⟩, rfl⟩
  · rintro ⟨_, message, hmessage, hback, rfl⟩
    have hflow := List.mem_map_of_mem (f := Prod.fst) hmessage
    rw [InstanceInfo.map_fst_messages] at hflow
    exact meets_of_few hres hfew hinfo hk hflow hback

/-- Something is lost when the highest priority that leads back is above the
lowest there. -/
theorem loses_iff (hinfo : g.instances.get? inst = some info) (hk : .async ∈ info.kindsOf source)
    {top low : Int} (htop : IsGreatest (Returning g inst info source target) top)
    (hlow : IsLeast {q | q ∈ info.queuedAt target} low) :
    Loses g inst source target ↔ low < top := by
  constructor
  · rintro ⟨info', hinfo', _, message, hmessage, h, hop, hcalls, hhop, hkind, hdest, q, hq, hlt⟩
    obtain rfl := Option.some.inj (hinfo.symm.trans hinfo')
    have hle := htop.2 ⟨message, hmessage, ⟨h, hop, hcalls, hhop, hkind, hdest⟩, rfl⟩
    exact (hlow.2 hq).trans_lt (hlt.trans_le hle)
  · intro hlt
    obtain ⟨message, hmessage, ⟨h, hop, hcalls, hhop, hkind, hdest⟩, rfl⟩ := htop.1
    exact ⟨info, hinfo, hk, message, hmessage, h, hop, hcalls, hhop, hkind, hdest, low, hlow.1, hlt⟩

theorem Loses.returning (h : Loses g inst source target)
    (hinfo : g.instances.get? inst = some info) : .async ∈ info.kindsOf source
      ∧ (Returning g inst info source target).Nonempty := by
  obtain ⟨info', hinfo', hk, message, hmessage, h, hop, hcalls, hhop, hkind, hdest, _⟩ := h
  obtain rfl := Option.some.inj (hinfo.symm.trans hinfo')
  exact ⟨hk, message.2, message, hmessage, ⟨h, hop, hcalls, hhop, hkind, hdest⟩, rfl⟩

variable (g inst info source target) in
/-- The ports' own priorities say of the way from `source` back to `target` what
the messages' priorities say. -/
def PortsAgree : Prop :=
  .async ∈ info.kindsOf source → ∀ top low, IsGreatest (Returning g inst info source target) top →
    IsLeast {q | q ∈ info.queuedAt target} low →
    (info.portPriority target < info.portPriority source ↔ low < top)

/-- The drops are exact when the ports agree on every way back. -/
theorem exactDrops_iff_ports (hres : g.AllResolve) (hfew : Few g) :
    ExactDrops g ↔ ∀ inst info source target, g.instances.get? inst = some info →
      PortsAgree g inst info source target := by
  obtain ⟨drops, hdrops, hnodup, hreported⟩ := reported_iff hres
  constructor
  · rintro ⟨drops', hdrops', _, hexact⟩ inst info source target hinfo hk top low htop hlow
    obtain rfl := Except.ok.inj (hdrops.symm.trans hdrops')
    rw [← loses_iff hinfo hk htop hlow, ← hexact, hreported]
    constructor
    · exact fun hlt => ⟨info, hinfo, hk,
        (meets_iff_returning hres hfew hinfo hk).mpr ⟨top, htop.1⟩, hlt⟩
    · rintro ⟨info', hinfo', _, _, hlt⟩
      rwa [Option.some.inj (hinfo.symm.trans hinfo')]
  · intro hagree
    refine ⟨drops, hdrops, hnodup, fun inst source target => ?_⟩
    rw [hreported]
    constructor
    · rintro ⟨info, hinfo, hk, hmeets, hlt⟩
      obtain ⟨top, htop⟩ := exists_greatest ((meets_iff_returning hres hfew hinfo hk).mp hmeets)
      obtain ⟨low, hlow⟩ := exists_least info target
      exact (loses_iff hinfo hk htop hlow).mpr
        ((hagree inst info source target hinfo hk top low htop hlow).mp hlt)
    · intro hloses
      obtain ⟨info, hinfo, _⟩ := id hloses
      obtain ⟨hk, hreturning⟩ := hloses.returning hinfo
      obtain ⟨top, htop⟩ := exists_greatest hreturning
      obtain ⟨low, hlow⟩ := exists_least info target
      exact ⟨info, hinfo, hk, (meets_iff_returning hres hfew hinfo hk).mpr hreturning,
        (hagree inst info source target hinfo hk top low htop hlow).mpr
          ((loses_iff hinfo hk htop hlow).mp hloses)⟩

/-- Away from the command port, what comes back has the port's priority. -/
theorem eq_of_greatest (hsource : info.cmdPort ≠ some source) {top : Int}
    (htop : IsGreatest (Returning g inst info source target) top) :
    top = info.portPriority source := by
  obtain ⟨message, hmessage, _, rfl⟩ := htop.1
  rw [(InstanceInfo.messages_of_ne hsource).1, List.mem_singleton] at hmessage
  rw [hmessage]

theorem eq_of_least (htarget : info.cmdPort ≠ some target) {low : Int}
    (hlow : IsLeast {q | q ∈ info.queuedAt target} low) : low = info.portPriority target := by
  have hmem : low ∈ info.queuedAt target := hlow.1
  rw [(InstanceInfo.messages_of_ne htarget).2, List.mem_singleton] at hmem
  exact hmem

variable (g inst info cmd) in
/-- The priority of the command port agrees with those of its commands. -/
structure CommandsAgree : Prop where
  /-- On the way to another port: with the highest of the commands that lead
  there, on which side of that port's priority it is. -/
  toPort : ∀ target top, target ≠ cmd → .async ∈ info.kindsOf cmd →
    IsGreatest (Returning g inst info cmd target) top →
    (info.portPriority target < info.portPriority cmd ↔ info.portPriority target < top)
  /-- On the way from another port: with the lowest of the async commands, on
  which side of that port's priority it is. -/
  toCommands : ∀ source low, source ≠ cmd → .async ∈ info.kindsOf source →
    LeadsBack g inst source.str cmd → IsLeast {q | q ∈ info.queuedAt cmd} low →
    (info.portPriority cmd < info.portPriority source ↔ low < info.portPriority source)
  /-- From command to command: no command that leads to the command port is
  above the lowest of the async commands. -/
  among : ∀ top low, .async ∈ info.kindsOf cmd → IsGreatest (Returning g inst info cmd cmd) top →
    IsLeast {q | q ∈ info.queuedAt cmd} low → top ≤ low

/-- Commands that all have the priority of their port agree with it. -/
theorem CommandsAgree.of_same (h : ∀ message ∈ info.messages cmd, message.2 = info.portPriority cmd) :
    CommandsAgree g inst info cmd := by
  have htop : ∀ {target top}, IsGreatest (Returning g inst info cmd target) top →
      top = info.portPriority cmd := by
    rintro target top ⟨⟨message, hmessage, _, rfl⟩, _⟩
    exact h message hmessage
  have hlow : ∀ {low}, IsLeast {q | q ∈ info.queuedAt cmd} low → low = info.portPriority cmd := by
    rintro low ⟨hmem, _⟩
    rw [Set.mem_ofPred_eq, InstanceInfo.queuedAt] at hmem
    split at hmem
    · exact List.mem_singleton.mp hmem
    · obtain ⟨message, hmessage, rfl⟩ := List.mem_map.mp hmem
      exact h message hmessage
  refine ⟨fun target top _ _ h => by rw [htop h], fun source low _ _ _ h => by rw [hlow h],
    fun top low _ h h' => by rw [htop h, hlow h']⟩

/-- Away from its own command port an instance's ports agree, so the commands
decide. -/
theorem portsAgree_iff :
    (∀ source target, PortsAgree g inst info source target)
      ↔ ∀ cmd, info.cmdPort = some cmd → CommandsAgree g inst info cmd := by
  constructor
  · intro h cmd hcmd
    have hplain : ∀ {port}, port ≠ cmd → info.cmdPort ≠ some port := fun hne hport =>
      hne (Option.some.inj (hport.symm.trans hcmd))
    refine ⟨fun target top hne hk htop => ?_, fun source low hne hk hback hlow => ?_,
      fun top low hk htop hlow => ?_⟩
    · obtain ⟨low, hlow⟩ := exists_least info target
      rw [h cmd target hk top low htop hlow, eq_of_least (hplain hne) hlow]
    · have hmessage := (InstanceInfo.messages_of_ne (hplain hne)).1
      obtain ⟨top, htop⟩ : ∃ top, IsGreatest (Returning g inst info source cmd) top :=
        exists_greatest ⟨_, _, by rw [hmessage]; exact List.mem_singleton_self _, hback, rfl⟩
      rw [h source cmd hk top low htop hlow, eq_of_greatest (hplain hne) htop]
    · have hlt := h cmd cmd hk top low htop hlow
      exact not_lt.mp fun hlow => lt_irrefl _ (hlt.mpr hlow)
  · intro h source target hk top low htop hlow
    by_cases hsource : info.cmdPort = some source
    · have hagree := h source hsource
      by_cases htarget : target = source
      · subst htarget
        have hle := hagree.among top low hk htop hlow
        omega
      · have hplain : info.cmdPort ≠ some target := fun hcmd =>
          htarget (Option.some.inj (hcmd.symm.trans hsource))
        rw [hagree.toPort target top htarget hk htop, eq_of_least hplain hlow]
    · by_cases htarget : info.cmdPort = some target
      · have hne : source ≠ target := fun heq => hsource (heq ▸ htarget)
        have hback : LeadsBack g inst source.str target := by
          obtain ⟨message, hmessage, hback, _⟩ := htop.1
          rw [(InstanceInfo.messages_of_ne hsource).1, List.mem_singleton] at hmessage
          rwa [hmessage] at hback
        rw [(h target htarget).toCommands source low hne hk hback hlow, eq_of_greatest hsource htop]
      · rw [eq_of_greatest hsource htop, eq_of_least htarget hlow]

/-- **The drops are exactly the priority losses when** the priority of every
command port agrees with those of its commands. -/
theorem exactDrops_iff (g : TopologyGraph) (hres : g.AllResolve) (hfew : Few g) :
    ExactDrops g ↔ ∀ inst info cmd, g.instances.get? inst = some info → info.cmdPort = some cmd →
      CommandsAgree g inst info cmd := by
  rw [exactDrops_iff_ports hres hfew]
  constructor
  · exact fun h inst info cmd hinfo =>
      portsAgree_iff.mp (fun source target => h inst info source target hinfo) cmd
  · exact fun h inst info source target hinfo =>
      portsAgree_iff.mpr (fun cmd => h inst info cmd hinfo) source target

end Exact

/-! An instance with a command of priority 9 whose handler posts to a port of
priority 5 on the same queue. The command port itself declares nothing. -/

def commandInstance : InstanceInfo where
  kind := .active
  componentName := "C"
  inputPorts := .ofList [(.gIn, {.async}), (.go, {.async})]
  outputPorts := [.out]
  cmdPort := some .gIn
  commandKinds := .ofList [("URGENT", {.async})]
  portPriorities := .ofList [(.go, 5)]
  commandPriorities := .ofList [("URGENT", 9)]

def commandTopology : TopologyGraph where
  instances := .ofList [("x", commandInstance)]
  connections := .ofList [(⟨"x", .out⟩, [⟨"x", .go⟩])]
  flow := ⟨.ofList [("C", ⟨.ofList [("cmd:URGENT", ⟨.ofList [("ports", ["out"])], some false⟩),
    ("go", ⟨∅, some false⟩)]⟩)], true⟩

/-- The command is put behind everything above priority 5, and nothing is
reported. -/
theorem command_drop_missed :
    commandTopology.AllResolve ∧ Loses commandTopology "x" .gIn .go
      ∧ findRequeueDrops commandTopology = .ok [] ∧ ¬ ExactDrops commandTopology := by
  have hnone : findRequeueDrops commandTopology = .ok [] := by decide +kernel
  have hloses : Loses commandTopology "x" .gIn .go := by
    refine ⟨commandInstance, by decide, by decide, ("cmd:URGENT", 9), by decide, ("x", "cmd:URGENT"),
      ⟨⟨"x", .out⟩, ⟨"x", .go⟩, commandInstance, .async⟩, .refl, by decide, rfl, rfl, 5, by decide,
      by decide⟩
  refine ⟨by decide, hloses, hnone, ?_⟩
  rintro ⟨drops, hdrops, _, hexact⟩
  obtain rfl := Except.ok.inj (hnone.symm.trans hdrops)
  obtain ⟨d, hd, _⟩ := (hexact "x" .gIn .go).mpr hloses
  cases hd

/-- The same instance, with its command port declared as its command. -/
def declaredInstance : InstanceInfo :=
  { commandInstance with portPriorities := .ofList [(.gIn, 9), (.go, 5)] }

def declaredTopology : TopologyGraph :=
  { commandTopology with instances := .ofList [("x", declaredInstance)] }

/-- Now the drop is reported, and nothing else is. -/
theorem exactDrops_iff_declared :
    ExactDrops declaredTopology ∧ Loses declaredTopology "x" .gIn .go
      ∧ (ExactDrops commandTopology ↔ ∀ inst info cmd,
        commandTopology.instances.get? inst = some info → info.cmdPort = some cmd →
        CommandsAgree commandTopology inst info cmd) := by
  refine ⟨(exactDrops_iff declaredTopology (by decide) (by decide)).mpr ?_, ?_,
    exactDrops_iff commandTopology (by decide) (by decide)⟩
  · intro inst info cmd hinfo hcmd
    have hentries : declaredTopology.instances.entries = [("x", declaredInstance)] := by decide
    rw [Dict.get?_eq_some_iff, hentries, List.mem_singleton, Prod.mk.injEq] at hinfo
    obtain ⟨rfl, rfl⟩ := hinfo
    obtain rfl : PortName.gIn = cmd := Option.some.inj hcmd
    exact .of_same (by decide)
  · exact ⟨declaredInstance, by decide, by decide, ("cmd:URGENT", 9), by decide, ("x", "cmd:URGENT"),
      ⟨⟨"x", .out⟩, ⟨"x", .go⟩, declaredInstance, .async⟩, .refl, by decide, rfl, rfl, 5, by decide,
      by decide⟩

end RequeueDrops

end FprimeTopologyAnalysis
