/-
FprimeTopologyAnalysis.RateGroups — rates from rate-group members
(`_propagate_member_rates` in `rate_groups.py`).

Every member output of a rate group whose frequency is known is a root: it
is called once a tick. The propagation carries each root's frequency from
the port it is wired to through handlers and wired calls, and does not
follow a call into an async input. Frequencies are exact rationals.

The source keys contributions by `str(end)` and `str(port)`; these texts
determine the end and the port (`ConnectionEnd.str_injective`,
`PortKey.str_injective`), so the tables here are keyed by the ends and the
ports themselves. The rate model that comes in and goes out is keyed by
text, since its keys come from elsewhere too.

The loop is a flood with a queue (`Library.WorkQueue`). It does not
remember the entries it has met but the handlers it has entered, per root
and kind, and that comes to the same: a handler's flow entry tells the
port it stands behind (`simulates`).
-/
import FprimeTopologyAnalysis.TopologyModel
import FprimeTopologyAnalysis.Library.WorkQueue
import FprimeTopologyAnalysis.Library.Contributions
import FprimeTopologyAnalysis.Library.SimplePaths
import Mathlib.Algebra.Field.Rat

namespace FprimeTopologyAnalysis

open Library

/-! ## The propagation -/

/-- `RATE_GROUP_MEMBER_PORT`. -/
def rateGroupMemberPort : String := "RateGroupMemberOut"

/-- An entry of the queue: `entry` is entered under `kind` on the ticks
that `root` calls out, `hz` times a second. -/
structure WorkItem where
  root : ConnectionEnd
  entry : PortKey
  kind : SyncKind
  hz : ℚ
  deriving DecidableEq

/-- `state`: what is remembered of a handler that was entered. -/
def WorkItem.state (item : WorkItem) (flowEntry : String) :
    ConnectionEnd × String × String × SyncKind :=
  (item.root, item.entry.inst, flowEntry, item.kind)

/-- Why the propagation raises: `graph.instances[...]` of an instance it
does not have, or a handler that is not resolved. -/
inductive PropagateError where
  | keyError (inst : String)
  | unresolved (e : UnresolvedFlowError)
  deriving DecidableEq

/-- What contributes to each port, by root. -/
abbrev PortRates := Contributions PortKey ConnectionEnd ℚ

/-- The handlers entered so far, per root and kind, and the contributions. -/
structure Propagation where
  seen : Finset (ConnectionEnd × String × String × SyncKind)
  entryContributions : PortRates
  outputContributions : PortRates

/-- The outputs of a handler are called as often as it is entered. -/
def WorkItem.noteOutputs (item : WorkItem) (outs : List PortName) (d : PortRates) : PortRates :=
  outs.foldl (fun d output => Contributions.note d ⟨item.entry.inst, output⟩ item.root item.hz) d

namespace LoadedTopology

variable (g : LoadedTopology)

/-- The body of the first loop: a member output's frequency, and an entry
for each kind of the port it is wired to. -/
def addMember (groupHz : Dict String ℚ) (acc : Dict String ℚ × List WorkItem) (c : Connection) :
    Except PropagateError (Dict String ℚ × List WorkItem) :=
  match groupHz.get? c.source.port.inst with
  | none => .ok acc
  | some hz =>
    if c.source.port.port.str ≠ rateGroupMemberPort then
      .ok acc
    else
      match g.instances.get? c.dest.port.inst with
      | none => .error (.keyError c.dest.port.inst)
      | some info =>
        .ok (acc.1.set c.source.str hz,
          acc.2 ++ (info.kindOrder.iterate (info.kindsOf c.dest.port.port)).map fun kind =>
            ⟨c.source, c.dest.port, kind, hz⟩)

/-- The entries that a call out of `output` leads to. -/
def fanOut (item : WorkItem) (output : PortName) : List WorkItem :=
  (g.destinations item.entry.inst output).flatMap fun destination =>
    match g.instances.get? destination.inst with
    | none => []
    | some destInfo =>
      -- the execution rate behind an async input is not known
      ((destInfo.kindOrder.iterate (destInfo.kindsOf destination.port)).filter
        fun destKind => destKind ≠ .async).map fun destKind =>
          ⟨item.root, destination, destKind, item.hz⟩

/-- The body of the loop over the handlers behind an entry. -/
def enterHandler (item : WorkItem) (info : InstanceInfo) (acc : List WorkItem × Propagation)
    (flowEntry : String) : Except PropagateError (List WorkItem × Propagation) :=
  if item.state flowEntry ∈ acc.2.seen then
    .ok acc
  else
    match g.outputsFor info flowEntry with
    | .error e => .error (.unresolved e)
    | .ok outs =>
      .ok (acc.1 ++ outs.flatMap (g.fanOut item),
        { acc.2 with
          seen := insert (item.state flowEntry) acc.2.seen
          outputContributions := item.noteOutputs outs acc.2.outputContributions })

/-- The body of the queue's loop. -/
def visit : Worklist.Body WorkItem PropagateError Propagation := fun item st =>
  match g.instances.get? item.entry.inst with
  | none => .ok ([], st)
  | some info =>
    (info.flowEntries item.entry.port item.kind).foldlM (g.enterHandler item info)
      ([], { st with entryContributions :=
        Contributions.note st.entryContributions item.entry item.root item.hz })

/-- The same, for an entry met for the first time: all of its handlers are
entered. -/
def expand : Worklist.Expand WorkItem PropagateError (PortRates × PortRates) := fun item =>
  match g.instances.get? item.entry.inst with
  | none => .ok ([], id)
  | some info =>
    match SimplePaths.collect (g.outputsFor info) (info.flowEntries item.entry.port item.kind) with
    | .error e => .error (.unresolved e)
    | .ok outs =>
      .ok (outs.flatMap (g.fanOut item), fun s =>
        (Contributions.note s.1 item.entry item.root item.hz, item.noteOutputs outs s.2))

/-- Every entry that the roots of a queue could lead to. -/
def allItems (work : List WorkItem) : List WorkItem :=
  work.flatMap fun item =>
    g.instances.entries.flatMap fun e =>
      e.2.inputPorts.entries.flatMap fun port =>
        (SyncKind.sorted port.2).map fun kind => ⟨item.root, ⟨e.1, port.1⟩, kind, item.hz⟩

/-- The queue's loop, with fuel for as many rounds as it can take. -/
def propagate (work : List WorkItem) : Except PropagateError Propagation :=
  Worklist.loop g.visit (Worklist.fuelFor g.expand (g.allItems work) work) work ⟨∅, ∅, ∅⟩

/-- `_propagate_member_rates`: the rates of the input ports, and the rate
model with those of the output ports, in exact rationals. -/
def propagateMemberRates (groupHz production : Dict String ℚ) :
    Except PropagateError (Dict PortKey ℚ × Dict String ℚ) :=
  match g.connectionList.foldlM (g.addMember groupHz) (production, []) with
  | .error e => .error e
  | .ok (production, work) =>
    match g.propagate work with
    | .error e => .error e
    | .ok st =>
      .ok (Contributions.totals st.entryContributions,
        (Contributions.totals st.outputContributions).entries.foldl
          (fun production e => production.set e.1.str e.2) production)

/-! ## A handler tells its port -/

variable {g}

theorem flowEntries_nodup (info : InstanceInfo) (port : PortName) (kind : SyncKind) :
    (info.flowEntries port kind).Nodup := by
  unfold InstanceInfo.flowEntries
  split
  · simp
  · refine List.Nodup.map ?_ ?_
    · intro a b h
      exact String.toList_injective (by simpa using congrArg String.toList h)
    · rw [(List.perm_insertionSort _ _).nodup_iff]
      exact (List.filter_sublist.map _).nodup info.commandKinds.nodupKeys

/-- A handler stands behind one port of its instance. -/
theorem port_of_mem_flowEntries {info : InstanceInfo} {port port' : PortName}
    {kind kind' : SyncKind} {flowEntry : String} (h : flowEntry ∈ info.flowEntries port kind)
    (h' : flowEntry ∈ info.flowEntries port' kind') : port = port' := by
  -- a command's flow entry has a colon in it, a port's name has none
  have hcommand : ∀ (p : PortName) (mnemonic : String), p.str ≠ "cmd:" ++ mnemonic := by
    intro p mnemonic heq
    have hcolon : ':' ∈ p.str.toList := by simp [heq, String.toList_append]
    exact p.property.notMem (by decide) hcolon
  unfold InstanceInfo.flowEntries at h h'
  split at h
  · split at h'
    · exact PortName.str_injective ((List.mem_singleton.mp h).symm.trans (List.mem_singleton.mp h'))
    · obtain ⟨mnemonic, _, heq⟩ := List.mem_map.mp h'
      exact absurd ((List.mem_singleton.mp h).symm.trans heq.symm) (hcommand _ _)
  · rename_i hport
    split at h'
    · obtain ⟨mnemonic, _, heq⟩ := List.mem_map.mp h
      exact absurd ((List.mem_singleton.mp h').symm.trans heq.symm) (hcommand _ _)
    · rename_i hport'
      rw [not_not] at hport hport'
      exact Option.some.inj (hport.symm.trans hport')

/-! ## Where a call leads -/

theorem mem_fanOut {item m : WorkItem} {output : PortName} :
    m ∈ g.fanOut item output ↔ m.root = item.root ∧ m.hz = item.hz ∧ m.kind ≠ .async
      ∧ m.entry ∈ g.destinations item.entry.inst output
      ∧ ∃ destInfo, g.instances.get? m.entry.inst = some destInfo
        ∧ m.kind ∈ destInfo.kindsOf m.entry.port := by
  rw [fanOut, List.mem_flatMap]
  constructor
  · rintro ⟨destination, hdest, hm⟩
    cases hget : g.instances.get? destination.inst with
    | none => simp [hget] at hm
    | some destInfo =>
      rw [hget] at hm
      obtain ⟨destKind, hkind, rfl⟩ := List.mem_map.mp hm
      simp only [List.mem_filter, KindOrder.mem_iterate, decide_eq_true_eq] at hkind
      exact ⟨rfl, rfl, hkind.2, hdest, destInfo, hget, hkind.1⟩
  · rintro ⟨hroot, hhz, hasync, hdest, destInfo, hget, hkind⟩
    refine ⟨m.entry, hdest, ?_⟩
    rw [hget]
    refine List.mem_map.mpr ⟨m.kind, ?_, ?_⟩
    · simp [hkind, hasync]
    · rw [← hroot, ← hhz]

/-- What is expanded of an entry of a known instance. -/
theorem expand_eq_ok {item : WorkItem} {info : InstanceInfo}
    (hget : g.instances.get? item.entry.inst = some info)
    {r : List WorkItem × (PortRates × PortRates → PortRates × PortRates)} :
    g.expand item = .ok r ↔ ∃ outs,
      SimplePaths.collect (g.outputsFor info) (info.flowEntries item.entry.port item.kind) = .ok outs
        ∧ r = (outs.flatMap (g.fanOut item), fun s =>
          (Contributions.note s.1 item.entry item.root item.hz, item.noteOutputs outs s.2)) := by
  rw [expand, hget]
  dsimp only
  cases SimplePaths.collect (g.outputsFor info) (info.flowEntries item.entry.port item.kind) with
  | error e => simp
  | ok outs => simp only [Except.ok.injEq, exists_eq_left', eq_comm]

theorem step_expand {item m : WorkItem} (h : Worklist.Step g.expand item m) :
    ∃ info outs, g.instances.get? item.entry.inst = some info
      ∧ SimplePaths.collect (g.outputsFor info) (info.flowEntries item.entry.port item.kind) = .ok outs
      ∧ ∃ output ∈ outs, m ∈ g.fanOut item output := by
  obtain ⟨r, hr, hm⟩ := h
  cases hget : g.instances.get? item.entry.inst with
  | none =>
    rw [expand, hget] at hr
    cases hr
    simp at hm
  | some info =>
    obtain ⟨outs, houts, rfl⟩ := (expand_eq_ok hget).mp hr
    exact ⟨info, outs, rfl, houts, List.mem_flatMap.mp hm⟩

/-- What is reached runs at the frequency of its root. -/
theorem reach_rated {work : List WorkItem} {rate : ConnectionEnd → ℚ}
    (hwork : ∀ item ∈ work, item.hz = rate item.root) {item : WorkItem}
    (h : Worklist.Reach g.expand work item) : item.hz = rate item.root := by
  obtain ⟨start, hstart, hreach⟩ := h
  induction hreach with
  | refl => exact hwork _ hstart
  | tail _ hstep ih =>
    obtain ⟨_, _, _, _, _, _, hm⟩ := step_expand hstep
    obtain ⟨hroot, hhz, _⟩ := mem_fanOut.mp hm
    rw [hroot, hhz, ih]

/-- Only ports of the graph are entered, each under a kind of its own. -/
theorem reach_mem_allItems {work : List WorkItem}
    (hwork : ∀ item ∈ work, ∃ info, g.instances.get? item.entry.inst = some info
      ∧ item.kind ∈ info.kindsOf item.entry.port)
    {item : WorkItem} (h : Worklist.Reach g.expand work item) : item ∈ g.allItems work := by
  suffices hgen : (∃ start ∈ work, item.root = start.root ∧ item.hz = start.hz)
      ∧ ∃ info, g.instances.get? item.entry.inst = some info
        ∧ item.kind ∈ info.kindsOf item.entry.port by
    obtain ⟨⟨start, hstart, hroot, hhz⟩, info, hget, hkind⟩ := hgen
    obtain ⟨kinds, hport, hmem⟩ := InstanceInfo.mem_kindsOf_iff.mp hkind
    refine List.mem_flatMap.mpr ⟨start, hstart, List.mem_flatMap.mpr
      ⟨(item.entry.inst, info), (g.instances.get?_eq_some_iff _ _).mp hget, List.mem_flatMap.mpr
        ⟨(item.entry.port, kinds), hport, List.mem_map.mpr
          ⟨item.kind, (SyncKind.mem_sorted _ _).mpr hmem, ?_⟩⟩⟩⟩
    rw [← hroot, ← hhz]
  obtain ⟨start, hstart, hreach⟩ := h
  induction hreach with
  | refl => exact ⟨⟨_, hstart, rfl, rfl⟩, hwork _ hstart⟩
  | tail _ hstep ih =>
    obtain ⟨_, _, _, _, _, _, hm⟩ := step_expand hstep
    obtain ⟨hroot, hhz, _, _, hdest⟩ := mem_fanOut.mp hm
    obtain ⟨⟨first, hfirst, hroot', hhz'⟩, _⟩ := ih
    exact ⟨⟨first, hfirst, hroot.trans hroot', hhz.trans hhz'⟩, hdest⟩

/-! ## The loop is a flood -/

theorem WorkItem_state_injective (item : WorkItem) : Function.Injective item.state :=
  fun _ _ h => (Prod.mk.inj (Prod.mk.inj (Prod.mk.inj h).2).2).1

/-- The handlers of an entry that is new are entered in order. -/
theorem foldlM_enterHandler_new (item : WorkItem) (info : InstanceInfo) :
    ∀ (flowEntries : List String) (acc : List WorkItem × Propagation), flowEntries.Nodup →
      (∀ flowEntry ∈ flowEntries, item.state flowEntry ∉ acc.2.seen) →
      flowEntries.foldlM (g.enterHandler item info) acc
        = match SimplePaths.collect (g.outputsFor info) flowEntries with
          | .error e => .error (.unresolved e)
          | .ok outs =>
            .ok (acc.1 ++ outs.flatMap (g.fanOut item),
              { acc.2 with
                seen := acc.2.seen ∪ (flowEntries.map item.state).toFinset
                outputContributions := item.noteOutputs outs acc.2.outputContributions })
  | [], acc, _, _ => by
      simp [SimplePaths.collect, WorkItem.noteOutputs]
      rfl
  | flowEntry :: rest, acc, hnd, hnew => by
      rw [List.nodup_cons] at hnd
      rw [List.foldlM_cons, enterHandler, if_neg (hnew flowEntry (List.mem_cons_self ..)),
        SimplePaths.collect]
      cases g.outputsFor info flowEntry with
      | error e => rfl
      | ok outs =>
        have hrest : ∀ other ∈ rest,
            item.state other ∉ insert (item.state flowEntry) acc.2.seen := by
          intro other hother hmem
          rcases Finset.mem_insert.mp hmem with heq | hold
          · exact hnd.1 (WorkItem_state_injective item heq ▸ hother)
          · exact hnew other (List.mem_cons_of_mem _ hother) hold
        refine (foldlM_enterHandler_new item info rest _ hnd.2 hrest).trans ?_
        cases SimplePaths.collect (g.outputsFor info) rest with
        | error e => rfl
        | ok outs' =>
          simp [WorkItem.noteOutputs, Finset.insert_union, Finset.union_insert]

/-- Nothing happens at an entry whose handlers have all been entered. -/
theorem foldlM_enterHandler_old (item : WorkItem) (info : InstanceInfo) :
    ∀ (flowEntries : List String) (acc : List WorkItem × Propagation),
      (∀ flowEntry ∈ flowEntries, item.state flowEntry ∈ acc.2.seen) →
      flowEntries.foldlM (g.enterHandler item info) acc = .ok acc
  | [], acc, _ => rfl
  | flowEntry :: rest, acc, hold => by
      rw [List.foldlM_cons, enterHandler, if_pos (hold flowEntry (List.mem_cons_self ..))]
      exact foldlM_enterHandler_old item info rest acc
        fun other hother => hold other (List.mem_cons_of_mem _ hother)

/-- What the loop has written down once the entries `seen` were met. -/
structure Remembers (g : LoadedTopology) (rate : ConnectionEnd → ℚ) (st : Propagation)
    (seen : Finset WorkItem) (s : PortRates × PortRates) : Prop where
  contributions : s = (st.entryContributions, st.outputContributions)
  handlers : ∀ state, state ∈ st.seen ↔
    ∃ met ∈ seen, ∃ info, g.instances.get? met.entry.inst = some info
      ∧ ∃ flowEntry ∈ info.flowEntries met.entry.port met.kind, met.state flowEntry = state
  rated : ∀ item ∈ seen, item.hz = rate item.root
  noted : ∀ item ∈ seen, ∀ info, g.instances.get? item.entry.inst = some info →
    Contributions.contribution? s.1 item.entry item.root = some item.hz

theorem Remembers.start (rate : ConnectionEnd → ℚ) :
    Remembers g rate ⟨∅, ∅, ∅⟩ ∅ (∅, ∅) where
  contributions := rfl
  handlers state := by simp
  rated item h := by simp at h
  noted item h := by simp at h

/-- An entry is remembered by its handlers, if it has any. -/
theorem Remembers.mem_of_state {rate : ConnectionEnd → ℚ} {st : Propagation}
    {seen : Finset WorkItem} {s : PortRates × PortRates} (h : Remembers g rate st seen s)
    {item : WorkItem} {info : InstanceInfo} (hget : g.instances.get? item.entry.inst = some info)
    (hhz : item.hz = rate item.root) {flowEntry : String}
    (hflow : flowEntry ∈ info.flowEntries item.entry.port item.kind)
    (hmem : item.state flowEntry ∈ st.seen) : item ∈ seen := by
  obtain ⟨met, hmet, info', hget', flowEntry', hflow', heq⟩ := (h.handlers _).mp hmem
  have hmetHz := h.rated met hmet
  obtain ⟨root, ⟨inst, port⟩, kind, hz⟩ := item
  obtain ⟨root', ⟨inst', port'⟩, kind', hz'⟩ := met
  simp only [WorkItem.state, Prod.mk.injEq] at heq
  obtain ⟨rfl, rfl, rfl, rfl⟩ := heq
  obtain rfl := Option.some.inj (hget.symm.trans hget')
  obtain rfl := port_of_mem_flowEntries hflow hflow'
  have hzz : hz' = hz := hmetHz.trans hhz.symm
  exact hzz ▸ hmet

/-- Nothing is left to do at an entry that was met before. -/
theorem visit_old {rate : ConnectionEnd → ℚ} {st : Propagation} {seen : Finset WorkItem}
    {s : PortRates × PortRates} (h : Remembers g rate st seen s) {item : WorkItem}
    (hmem : item ∈ seen) : g.visit item st = .ok ([], st) := by
  rw [visit]
  cases hget : g.instances.get? item.entry.inst with
  | none => rfl
  | some info =>
    have hnoted := h.noted item hmem info hget
    rw [h.contributions] at hnoted
    show List.foldlM _ ([], { st with entryContributions := Contributions.note .. }) _ = _
    rw [Contributions.note_eq_self hnoted]
    refine foldlM_enterHandler_old item info _ _ fun flowEntry hflow => ?_
    exact (h.handlers _).mpr ⟨item, hmem, info, hget, flowEntry, hflow, rfl⟩

/-- All handlers of an entry that is new are entered. -/
theorem visit_new {rate : ConnectionEnd → ℚ} {st : Propagation} {seen : Finset WorkItem}
    {s : PortRates × PortRates} (h : Remembers g rate st seen s) {item : WorkItem}
    (hhz : item.hz = rate item.root) (hnew : item ∉ seen) {info : InstanceInfo}
    (hget : g.instances.get? item.entry.inst = some info) :
    g.visit item st
      = match SimplePaths.collect (g.outputsFor info)
          (info.flowEntries item.entry.port item.kind) with
        | .error e => .error (.unresolved e)
        | .ok outs =>
          .ok (outs.flatMap (g.fanOut item),
            ⟨st.seen ∪ ((info.flowEntries item.entry.port item.kind).map item.state).toFinset,
              Contributions.note st.entryContributions item.entry item.root item.hz,
              item.noteOutputs outs st.outputContributions⟩) := by
  rw [visit, hget]
  exact foldlM_enterHandler_new item info _ _ (flowEntries_nodup ..)
    fun flowEntry hflow hmem => hnew (h.mem_of_state hget hhz hflow hmem)

/-- Meeting a new entry of an instance. -/
theorem Remembers.meet {rate : ConnectionEnd → ℚ} {st : Propagation} {seen : Finset WorkItem}
    {s : PortRates × PortRates} (h : Remembers g rate st seen s) {item : WorkItem}
    (hhz : item.hz = rate item.root) {info : InstanceInfo}
    (hget : g.instances.get? item.entry.inst = some info) (outs : List PortName) :
    Remembers g rate
      ⟨st.seen ∪ ((info.flowEntries item.entry.port item.kind).map item.state).toFinset,
        Contributions.note st.entryContributions item.entry item.root item.hz,
        item.noteOutputs outs st.outputContributions⟩
      (insert item seen)
      (Contributions.note s.1 item.entry item.root item.hz, item.noteOutputs outs s.2) where
  contributions := by rw [h.contributions]
  handlers state := by
    simp only [Finset.mem_union, h.handlers, List.mem_toFinset, List.mem_map, Finset.mem_insert]
    constructor
    · rintro (⟨met, hmet, hrest⟩ | ⟨flowEntry, hflow, heq⟩)
      · exact ⟨met, .inr hmet, hrest⟩
      · exact ⟨item, .inl rfl, info, hget, flowEntry, hflow, heq⟩
    · rintro ⟨met, rfl | hmet, info', hget', flowEntry, hflow, heq⟩
      · obtain rfl := Option.some.inj (hget.symm.trans hget')
        exact .inr ⟨flowEntry, hflow, heq⟩
      · exact .inl ⟨met, hmet, info', hget', flowEntry, hflow, heq⟩
  rated met hmet := by
    rcases Finset.mem_insert.mp hmet with rfl | hmet
    · exact hhz
    · exact h.rated met hmet
  noted met hmet info' hget' := by
    rw [Contributions.contribution?_note]
    rcases Finset.mem_insert.mp hmet with rfl | hmet
    · simp
    · split
      · rename_i hsame
        rw [hhz, h.rated met hmet, hsame.2]
      · exact h.noted met hmet info' hget'

/-- Meeting an entry of no instance. -/
theorem Remembers.meet_unknown {rate : ConnectionEnd → ℚ} {st : Propagation}
    {seen : Finset WorkItem} {s : PortRates × PortRates} (h : Remembers g rate st seen s)
    {item : WorkItem} (hhz : item.hz = rate item.root)
    (hget : g.instances.get? item.entry.inst = none) : Remembers g rate st (insert item seen) s where
  contributions := h.contributions
  handlers state := by simp [h.handlers, hget]
  rated met hmet := by
    rcases Finset.mem_insert.mp hmet with rfl | hmet
    · exact hhz
    · exact h.rated met hmet
  noted met hmet info hinfo := by
    rcases Finset.mem_insert.mp hmet with rfl | hmet
    · simp [hget] at hinfo
    · exact h.noted met hmet info hinfo

/-- **The loop is the flood**: that it remembers handlers and not entries
makes no difference. -/
theorem simulates {work : List WorkItem} {rate : ConnectionEnd → ℚ}
    (hwork : ∀ item ∈ work, item.hz = rate item.root) :
    Worklist.Simulates g.expand work g.visit (Remembers g rate) where
  old _ hR hmem := ⟨_, visit_old hR hmem, hR⟩
  new {item r st seen s} hreach hR hnew hexp := by
    have hhz := reach_rated hwork hreach
    cases hget : g.instances.get? item.entry.inst with
    | none =>
      rw [expand, hget] at hexp
      cases hexp
      exact ⟨st, by rw [visit, hget], hR.meet_unknown hhz hget⟩
    | some info =>
      have hvisit := visit_new hR hhz hnew hget
      obtain ⟨outs, houts, rfl⟩ := (expand_eq_ok hget).mp hexp
      rw [houts] at hvisit
      exact ⟨_, hvisit, hR.meet hhz hget outs⟩
  error {item e st seen s} hreach hR hnew hexp := by
    have hhz := reach_rated hwork hreach
    rw [expand] at hexp
    cases hget : g.instances.get? item.entry.inst with
    | none => simp [hget] at hexp
    | some info =>
      rw [visit_new hR hhz hnew hget]
      rw [hget] at hexp
      dsimp only at hexp
      cases houts : SimplePaths.collect (g.outputsFor info)
          (info.flowEntries item.entry.port item.kind) with
      | error e' =>
        rw [houts] at hexp
        cases hexp
        rfl
      | ok outs => simp [houts] at hexp

end LoadedTopology

end FprimeTopologyAnalysis
