/-
FprimeTopologyAnalysis.RatesExact — what the propagated rates are.

`Arrives` says, without a queue, which ports the ticks of a root enter:
the port the root is wired to under any of its kinds, and from there every
port that sync and guarded calls lead to. A root feeds an output port when
a handler it enters may invoke that port (`Feeds`).

The rates are then sums over roots (`ExactRates`). No path is counted: a
root feeds a port or does not, however many ways lead there, and cycles in
the wiring add nothing.
-/
import FprimeTopologyAnalysis.RateGroups

namespace FprimeTopologyAnalysis

open Library

/-! ## Which ticks enter which ports -/

/-- A connection out of a member output of a group with a known frequency. -/
def Connection.IsMember (groupHz : Dict String ℚ) (c : Connection) : Prop :=
  (groupHz.get? c.source.port.inst).isSome = true ∧ c.source.port.port.str = rateGroupMemberPort

instance (groupHz : Dict String ℚ) : DecidablePred (Connection.IsMember groupHz) := fun _ =>
  inferInstanceAs (Decidable (_ ∧ _))

/-- The frequency of a root. -/
def rateOf (groupHz : Dict String ℚ) (root : ConnectionEnd) : ℚ :=
  (groupHz.get? root.port.inst).getD 0

namespace LoadedTopology

variable (g : LoadedTopology) (groupHz : Dict String ℚ)

/-- The roots: `G.RateGroupMemberOut[i]` with `G` in `group_hz`. -/
def memberEnds : Finset ConnectionEnd :=
  ((g.connectionList.filter fun c => c.IsMember groupHz).map Connection.source).toFinset

/-- The ticks of `root` enter a port under a kind: from the root's
destination, entered under `first`, by sync and guarded calls. -/
inductive Arrives (root : ConnectionEnd) (first : SyncKind) : PortKey → SyncKind → Prop
  | member {c : Connection} {info : InstanceInfo} :
      c ∈ g.connectionList → c.IsMember groupHz → c.source = root →
      g.instances.get? c.dest.port.inst = some info → first ∈ info.kindsOf c.dest.port.port →
      Arrives root first c.dest.port first
  | call {entry : PortKey} {kind : SyncKind} {h : Handler} {hop : OutwardHop} :
      Arrives root first entry kind → g.Behind entry kind h → g.HopOut h hop → hop.kind ≠ .async →
      Arrives root first hop.dest hop.kind

/-- The ticks of `root` enter handler `h`. -/
def Enters (root : ConnectionEnd) (first : SyncKind) (h : Handler) : Prop :=
  ∃ entry kind, g.Arrives groupHz root first entry kind ∧ g.Behind entry kind h

/-- A handler that the ticks of `root` enter may invoke `s`. -/
def Feeds (root : ConnectionEnd) (s : PortKey) : Prop :=
  ∃ first h, g.Enters groupHz root first h ∧ g.Invokes h s

/-- The ticks of `root` enter the input port `e`. -/
def EntersPort (root : ConnectionEnd) (e : PortKey) : Prop :=
  ∃ first kind, g.Arrives groupHz root first e kind

open Classical in
/-- The roots that feed an output port. -/
noncomputable def feeding (s : PortKey) : Finset ConnectionEnd :=
  (g.memberEnds groupHz).filter fun root => g.Feeds groupHz root s

open Classical in
/-- The roots whose ticks enter an input port. -/
noncomputable def entering (e : PortKey) : Finset ConnectionEnd :=
  (g.memberEnds groupHz).filter fun root => g.EntersPort groupHz root e

variable {g groupHz}

theorem mem_memberEnds {root : ConnectionEnd} :
    root ∈ g.memberEnds groupHz
      ↔ ∃ c ∈ g.connectionList, c.IsMember groupHz ∧ c.source = root := by
  simp [memberEnds, and_assoc]

theorem Arrives.root_mem {root : ConnectionEnd} {first : SyncKind} {e : PortKey} {kind : SyncKind}
    (h : g.Arrives groupHz root first e kind) : root ∈ g.memberEnds groupHz := by
  induction h with
  | member hc hmember hroot _ _ => exact mem_memberEnds.mpr ⟨_, hc, hmember, hroot⟩
  | call _ _ _ _ ih => exact ih

theorem mem_feeding {root : ConnectionEnd} {s : PortKey} :
    root ∈ g.feeding groupHz s ↔ g.Feeds groupHz root s := by
  classical
  unfold feeding
  rw [Finset.mem_filter]
  refine ⟨And.right, fun h => ⟨?_, h⟩⟩
  obtain ⟨first, h, ⟨entry, kind, harrives, _⟩, _⟩ := h
  exact harrives.root_mem

theorem mem_entering {root : ConnectionEnd} {e : PortKey} :
    root ∈ g.entering groupHz e ↔ g.EntersPort groupHz root e := by
  classical
  unfold entering
  rw [Finset.mem_filter]
  refine ⟨And.right, fun h => ⟨?_, h⟩⟩
  obtain ⟨first, kind, harrives⟩ := h
  exact harrives.root_mem

/-- What arrives at a port of an instance runs the handlers behind it. -/
theorem Arrives.known {root : ConnectionEnd} {first : SyncKind} {e : PortKey} {kind : SyncKind}
    (h : g.Arrives groupHz root first e kind) :
    ∃ info, g.instances.get? e.inst = some info ∧ kind ∈ info.kindsOf e.port := by
  cases h with
  | member _ _ _ hget hkind => exact ⟨_, hget, hkind⟩
  | call _ _ hhop _ => exact ⟨_, hhop.dest_spec.1, hhop.dest_spec.2⟩

/-- Entering is what `Calls` says: a handler behind the root's destination,
and any number of sync or guarded calls. -/
theorem enters_iff {root : ConnectionEnd} {first : SyncKind} {h : Handler} :
    g.Enters groupHz root first h ↔ ∃ c ∈ g.connectionList, c.IsMember groupHz ∧ c.source = root
      ∧ ∃ start, g.Behind c.dest.port first start ∧ Relation.ReflTransGen g.Calls start h := by
  constructor
  · rintro ⟨entry, kind, harrives, hbehind⟩
    induction harrives generalizing h with
    | member hc hmember hroot hget hkind => exact ⟨_, hc, hmember, hroot, h, hbehind, .refl⟩
    | call _ hbehind' hhop hkind ih =>
      obtain ⟨c, hc, hmember, hroot, start, hstart, hreach⟩ := ih hbehind'
      refine ⟨c, hc, hmember, hroot, start, hstart, hreach.tail ⟨_, hhop, hkind, ?_⟩⟩
      obtain ⟨info, hget, _, flowEntry, hflow, rfl⟩ := hbehind
      obtain rfl := Option.some.inj (hget.symm.trans hhop.dest_spec.1)
      exact List.mem_map.mpr ⟨flowEntry, hflow, rfl⟩
  · rintro ⟨c, hc, hmember, hroot, start, hstart, hreach⟩
    induction hreach with
    | refl =>
      obtain ⟨info, hget, hkind, _⟩ := id hstart
      exact ⟨_, _, .member hc hmember hroot hget hkind, hstart⟩
    | tail _ hcall ih =>
      obtain ⟨entry, kind, harrives, hbehind⟩ := ih
      obtain ⟨hop, hhop, hasync, htarget⟩ := hcall
      exact ⟨_, _, .call harrives hbehind hhop hasync, hhop.behind_of_mem_targets htarget⟩

/-! ## The roots' own entries -/

/-- `item` is put in the queue for a member connection. -/
def Starts (g : LoadedTopology) (groupHz : Dict String ℚ) (c : Connection) (item : WorkItem) :
    Prop :=
  c.IsMember groupHz ∧ item.root = c.source ∧ item.entry = c.dest.port
    ∧ item.hz = rateOf groupHz c.source
    ∧ ∃ info, g.instances.get? c.dest.port.inst = some info
      ∧ item.kind ∈ info.kindsOf c.dest.port.port

theorem addMember_skip {acc : Dict String ℚ × List WorkItem} {c : Connection}
    (h : ¬ c.IsMember groupHz) : g.addMember groupHz acc c = .ok acc := by
  unfold addMember
  split
  · rfl
  · rename_i hz hget
    have hport : c.source.port.port.str ≠ rateGroupMemberPort := by
      intro hport
      exact h ⟨by simp [hget], hport⟩
    rw [if_pos hport]

theorem addMember_member {acc : Dict String ℚ × List WorkItem} {c : Connection}
    (h : c.IsMember groupHz) :
    g.addMember groupHz acc c = match g.instances.get? c.dest.port.inst with
      | none => .error (.keyError c.dest.port.inst)
      | some info =>
        .ok (acc.1.set c.source.str (rateOf groupHz c.source),
          acc.2 ++ (info.kindOrder.iterate (info.kindsOf c.dest.port.port)).map fun kind =>
            ⟨c.source, c.dest.port, kind, rateOf groupHz c.source⟩) := by
  obtain ⟨hz, hget⟩ := Option.isSome_iff_exists.mp h.1
  rw [addMember, hget, rateOf, hget]
  dsimp only
  rw [if_neg (not_not.mpr h.2)]
  rfl

/-- Every member connection leads to an instance of the graph. -/
def MembersKnown (g : LoadedTopology) (groupHz : Dict String ℚ) : Prop :=
  ∀ c ∈ g.connectionList, c.IsMember groupHz → ∃ info, g.instances.get? c.dest.port.inst = some info

/-- What the first loop leaves of a list of connections. -/
structure Started (g : LoadedTopology) (groupHz : Dict String ℚ) (cs : List Connection)
    (acc r : Dict String ℚ × List WorkItem) : Prop where
  work : ∀ item, item ∈ r.2 ↔ item ∈ acc.2 ∨ ∃ c ∈ cs, g.Starts groupHz c item
  member : ∀ c ∈ cs, c.IsMember groupHz → r.1.get? c.source.str = some (rateOf groupHz c.source)
  other : ∀ key, (∀ c ∈ cs, c.IsMember groupHz → c.source.str ≠ key) → r.1.get? key = acc.1.get? key

theorem foldlM_addMember_ok_iff :
    ∀ (cs : List Connection) (acc : Dict String ℚ × List WorkItem),
      (∃ r, cs.foldlM (g.addMember groupHz) acc = .ok r)
        ↔ ∀ c ∈ cs, c.IsMember groupHz → ∃ info, g.instances.get? c.dest.port.inst = some info
  | [], acc => by simp [pure, Except.pure]
  | c :: cs, acc => by
      rw [List.foldlM_cons, List.forall_mem_cons]
      by_cases hmember : c.IsMember groupHz
      · rw [addMember_member hmember]
        cases hget : g.instances.get? c.dest.port.inst with
        | none => simp [hmember, bind, Except.bind]
        | some info =>
          have hrest := foldlM_addMember_ok_iff cs
          simp only [bind, Except.bind, hrest]
          simp
      · rw [addMember_skip hmember]
        have hrest := foldlM_addMember_ok_iff cs acc
        simpa [bind, Except.bind, hmember] using hrest

theorem started_foldlM :
    ∀ (cs : List Connection) (acc r : Dict String ℚ × List WorkItem),
      cs.foldlM (g.addMember groupHz) acc = .ok r → g.Started groupHz cs acc r
  | [], acc, r, h => by
      obtain rfl : acc = r := by simpa [pure, Except.pure] using h
      exact ⟨by simp, by simp, by simp⟩
  | c :: cs, acc, r, h => by
      rw [List.foldlM_cons] at h
      by_cases hmember : c.IsMember groupHz
      · rw [addMember_member hmember] at h
        cases hget : g.instances.get? c.dest.port.inst with
        | none => simp [hget, bind, Except.bind] at h
        | some info =>
          rw [hget] at h
          have hrest := started_foldlM cs _ r h
          refine ⟨fun item => ?_, fun c' hc' hmember' => ?_, fun key hkey => ?_⟩
          · have hstart : (∃ kind ∈ info.kindsOf c.dest.port.port,
                ⟨c.source, c.dest.port, kind, rateOf groupHz c.source⟩ = item)
                ↔ g.Starts groupHz c item := by
              constructor
              · rintro ⟨kind, hkind, rfl⟩
                exact ⟨hmember, rfl, rfl, rfl, info, hget, hkind⟩
              · obtain ⟨root, entry, kind, hz⟩ := item
                rintro ⟨_, rfl, rfl, rfl, info', hget', hkind⟩
                obtain rfl := Option.some.inj (hget.symm.trans hget')
                exact ⟨kind, hkind, rfl⟩
            rw [hrest.work, List.mem_append, List.exists_mem_cons_iff, ← hstart, or_assoc]
            simp
          · rcases List.mem_cons.mp hc' with rfl | hc'
            · -- the rest may set the same key, to the same frequency
              by_cases hagain : ∃ other ∈ cs, other.IsMember groupHz
                  ∧ other.source.str = c'.source.str
              · obtain ⟨other, hother, hotherMember, hstr⟩ := hagain
                have hvalue := hrest.member other hother hotherMember
                rwa [ConnectionEnd.str_injective hstr] at hvalue
              · rw [hrest.other c'.source.str fun other hother hotherMember hstr =>
                  hagain ⟨other, hother, hotherMember, hstr⟩]
                exact Dict.get?_set_self _ _ _
            · exact hrest.member c' hc' hmember'
          · rw [hrest.other key fun other hother => hkey other (List.mem_cons_of_mem _ hother),
              Dict.get?_set, if_neg fun heq => hkey c (List.mem_cons_self ..) hmember heq.symm]
      · rw [addMember_skip hmember] at h
        have hrest := started_foldlM cs acc r h
        refine ⟨fun item => ?_, fun c' hc' hmember' => ?_, fun key hkey => ?_⟩
        · have hno : ¬ g.Starts groupHz c item := fun hstart => hmember hstart.1
          rw [hrest.work, List.exists_mem_cons_iff]
          simp [hno]
        · rcases List.mem_cons.mp hc' with rfl | hc'
          · exact absurd hmember' hmember
          · exact hrest.member c' hc' hmember'
        · exact hrest.other key fun other hother => hkey other (List.mem_cons_of_mem _ hother)

/-! ## What the queue comes to -/

/-- The queue that the first loop leaves. -/
def StartsFrom (g : LoadedTopology) (groupHz : Dict String ℚ) (work : List WorkItem) : Prop :=
  ∀ item, item ∈ work ↔ ∃ c ∈ g.connectionList, g.Starts groupHz c item

variable {work : List WorkItem}

theorem StartsFrom.rated (hwork : g.StartsFrom groupHz work) :
    ∀ item ∈ work, item.hz = rateOf groupHz item.root := by
  intro item hitem
  obtain ⟨c, _, _, hroot, _, hhz, _⟩ := (hwork item).mp hitem
  rw [hhz, hroot]

theorem StartsFrom.known (hwork : g.StartsFrom groupHz work) :
    ∀ item ∈ work, ∃ info, g.instances.get? item.entry.inst = some info
      ∧ item.kind ∈ info.kindsOf item.entry.port := by
  intro item hitem
  obtain ⟨c, _, _, _, hentry, _, hknown⟩ := (hwork item).mp hitem
  rw [hentry]
  exact hknown

/-- An expanded entry has run its handlers. -/
theorem mem_collect_outputs {entry : PortKey} {kind : SyncKind} {info : InstanceInfo}
    {outs : List PortName} (hget : g.instances.get? entry.inst = some info)
    (hkind : kind ∈ info.kindsOf entry.port)
    (houts : SimplePaths.collect (g.outputsFor info) (info.flowEntries entry.port kind) = .ok outs)
    (s : PortKey) :
    (s.inst = entry.inst ∧ s.port ∈ outs) ↔ ∃ h, g.Behind entry kind h ∧ g.Invokes h s := by
  rw [SimplePaths.mem_collect_iff houts]
  constructor
  · rintro ⟨hinst, flowEntry, hflow, ys, hys, hport⟩
    exact ⟨(entry.inst, flowEntry), ⟨info, hget, hkind, flowEntry, hflow, rfl⟩,
      hinst, info, ys, hget, hys, hport⟩
  · rintro ⟨h, ⟨info', hget', _, flowEntry, hflow, rfl⟩, hinst, info'', ys, hget'', hys, hport⟩
    obtain rfl := Option.some.inj (hget.symm.trans hget')
    obtain rfl := Option.some.inj (hget.symm.trans hget'')
    exact ⟨hinst, flowEntry, hflow, ys, hys, hport⟩

/-- What waits in the queue arrives. -/
theorem StartsFrom.arrives (hwork : g.StartsFrom groupHz work) {item : WorkItem}
    (h : Worklist.Reach g.expand work item) :
    ∃ first, g.Arrives groupHz item.root first item.entry item.kind := by
  obtain ⟨start, hstart, hreach⟩ := h
  induction hreach with
  | refl =>
    obtain ⟨c, hc, hmember, hroot, hentry, _, info, hget, hkind⟩ := (hwork _).mp hstart
    rw [hroot, hentry]
    exact ⟨_, .member hc hmember rfl hget hkind⟩
  | @tail item m _ hstep ih =>
    obtain ⟨first, harrives⟩ := ih
    obtain ⟨info, outs, hget, houts, output, houtput, hm⟩ := step_expand hstep
    obtain ⟨hroot, _, hasync, hdest, destInfo, hdestInfo, hdestKind⟩ := mem_fanOut.mp hm
    obtain ⟨info', hget', hkind⟩ := harrives.known
    obtain rfl := Option.some.inj (hget.symm.trans hget')
    obtain ⟨h, hbehind, hinvokes⟩ := (mem_collect_outputs hget hkind houts
      ⟨item.entry.inst, output⟩).mp ⟨rfl, houtput⟩
    have hhop : g.HopOut h ⟨⟨item.entry.inst, output⟩, m.entry, destInfo, m.kind⟩ :=
      TopologyGraph.hopOut_iff.mpr ⟨hinvokes, hdest, hdestInfo, hdestKind⟩
    rw [hroot]
    exact ⟨first, .call harrives hbehind hhop hasync⟩

/-- What arrives waits in the queue at some time, if nothing raises. -/
theorem Arrives.reach (hwork : g.StartsFrom groupHz work)
    (hok : ∀ item, Worklist.Reach g.expand work item → ∃ r, g.expand item = .ok r)
    {root : ConnectionEnd} {first : SyncKind} {e : PortKey} {kind : SyncKind}
    (h : g.Arrives groupHz root first e kind) :
    Worklist.Reach g.expand work ⟨root, e, kind, rateOf groupHz root⟩ := by
  induction h with
  | member hc hmember hroot hget hkind =>
    refine .root ((hwork _).mpr ⟨_, hc, hmember, hroot.symm, rfl, ?_, _, hget, hkind⟩)
    rw [hroot]
  | @call entry kind h hop harrives hbehind hhop hasync ih =>
    obtain ⟨r, hr⟩ := hok _ ih
    refine ih.step ⟨r, hr, ?_⟩
    obtain ⟨info, hget, hkind⟩ := harrives.known
    obtain ⟨hinvokes, hdest, hdestInfo, hdestKind⟩ := TopologyGraph.hopOut_iff.mp hhop
    obtain ⟨outs, houts, rfl⟩ := (expand_eq_ok hget).mp hr
    have hmem := (mem_collect_outputs hget hkind houts hop.source).mpr ⟨h, hbehind, hinvokes⟩
    refine List.mem_flatMap.mpr ⟨hop.source.port, hmem.2, mem_fanOut.mpr ⟨rfl, rfl, hasync, ?_, ?_⟩⟩
    · rw [← hmem.1]
      exact hdest
    · exact ⟨_, hdestInfo, hdestKind⟩

/-! ## What is contributed -/

/-- The contributions after the entries `seen` were met: to each of them,
and to what the handlers behind them may invoke. -/
structure Contributed (g : LoadedTopology) (groupHz : Dict String ℚ) (seen : Finset WorkItem)
    (s : PortRates × PortRates) : Prop where
  entries : Contributions.Records (rateOf groupHz) s.1 fun e root =>
    ∃ item ∈ seen, item.entry = e ∧ item.root = root
  outputs : Contributions.Records (rateOf groupHz) s.2 fun output root =>
    ∃ item ∈ seen, item.root = root ∧ ∃ h, g.Behind item.entry item.kind h ∧ g.Invokes h output

theorem Contributed.start : Contributed g groupHz ∅ (∅, ∅) where
  entries := Contributions.Records.empty.congr (by simp)
  outputs := Contributions.Records.empty.congr (by simp)

/-- Expanding a new entry adds what it contributes. -/
theorem Contributed.expand (hwork : g.StartsFrom groupHz work) {item : WorkItem}
    {r : List WorkItem × (PortRates × PortRates → PortRates × PortRates)} {seen : Finset WorkItem}
    {s : PortRates × PortRates} (hreach : Worklist.Reach g.expand work item)
    (hexp : g.expand item = .ok r) (h : Contributed g groupHz seen s) :
    Contributed g groupHz (insert item seen) (r.2 s) := by
  have hhz := reach_rated hwork.rated hreach
  obtain ⟨first, harrives⟩ := hwork.arrives hreach
  obtain ⟨info, hget, hkind⟩ := harrives.known
  obtain ⟨outs, houts, rfl⟩ := (expand_eq_ok hget).mp hexp
  refine ⟨?_, ?_⟩
  · show Contributions.Records _ (Contributions.note s.1 item.entry item.root item.hz) _
    rw [hhz]
    refine (h.entries.note item.entry item.root).congr fun e root => ?_
    rw [Finset.exists_mem_insert, or_comm, @eq_comm _ e, @eq_comm _ root]
  · have hfold : item.noteOutputs outs s.2
        = (outs.map (PortKey.mk item.entry.inst)).foldl
          (fun d output => Contributions.note d output item.root (rateOf groupHz item.root)) s.2 := by
      rw [List.foldl_map, ← hhz]
      rfl
    show Contributions.Records _ (item.noteOutputs outs s.2) _
    rw [hfold]
    refine (h.outputs.foldl_note item.root _).congr fun output root => ?_
    rw [Finset.exists_mem_insert, or_comm, ← mem_collect_outputs hget hkind houts output]
    refine or_congr_right ?_
    rw [List.mem_map, @eq_comm _ root, and_comm]
    refine and_congr_left fun _ => ?_
    constructor
    · rintro ⟨hinst, hport⟩
      exact ⟨output.port, hport, by rw [← hinst]⟩
    · rintro ⟨port, hport, rfl⟩
      exact ⟨rfl, hport⟩

/-- The totals per port are the sums over the roots. -/
structure ExactTotals (g : LoadedTopology) (groupHz : Dict String ℚ)
    (totals : Dict PortKey ℚ × Dict PortKey ℚ) : Prop where
  entries : ∀ e, totals.1.get? e = if g.entering groupHz e = ∅ then none
    else some (∑ root ∈ g.entering groupHz e, rateOf groupHz root)
  outputs : ∀ s, totals.2.get? s = if g.feeding groupHz s = ∅ then none
    else some (∑ root ∈ g.feeding groupHz s, rateOf groupHz root)

/-- Once everything reachable was met the totals are exact. -/
theorem Contributed.exactTotals (hwork : g.StartsFrom groupHz work)
    (hok : ∀ item, Worklist.Reach g.expand work item → ∃ r, g.expand item = .ok r)
    {seen : Finset WorkItem} (hseen : ∀ item, item ∈ seen ↔ Worklist.Reach g.expand work item)
    {s : PortRates × PortRates} (h : Contributed g groupHz seen s) :
    ExactTotals g groupHz (Contributions.totals s.1, Contributions.totals s.2) where
  entries e := by
    refine h.entries.get?_totals (g.entering groupHz) (fun e root => ?_) e
    rw [mem_entering]
    constructor
    · rintro ⟨first, kind, harrives⟩
      exact ⟨_, (hseen _).mpr (harrives.reach hwork hok), rfl, rfl⟩
    · rintro ⟨item, hitem, rfl, rfl⟩
      obtain ⟨first, harrives⟩ := hwork.arrives ((hseen _).mp hitem)
      exact ⟨first, _, harrives⟩
  outputs s := by
    refine h.outputs.get?_totals (g.feeding groupHz) (fun s root => ?_) s
    rw [mem_feeding]
    constructor
    · rintro ⟨first, h, ⟨entry, kind, harrives, hbehind⟩, hinvokes⟩
      exact ⟨_, (hseen _).mpr (harrives.reach hwork hok), rfl, h, hbehind, hinvokes⟩
    · rintro ⟨item, hitem, rfl, h, hbehind, hinvokes⟩
      obtain ⟨first, harrives⟩ := hwork.arrives ((hseen _).mp hitem)
      exact ⟨first, h, ⟨_, _, harrives, hbehind⟩, hinvokes⟩

/-! ## When the propagation answers -/

/-- Every handler that a tick enters is resolved. -/
def EnteredResolve (g : LoadedTopology) (groupHz : Dict String ℚ) : Prop :=
  ∀ root first h, g.Enters groupHz root first h → g.Resolves h

theorem resolves_iff {info : InstanceInfo} {h : Handler} (hget : g.instances.get? h.1 = some info) :
    g.Resolves h ↔ ∃ outs, g.outputsFor info h.2 = .ok outs := by
  unfold TopologyGraph.Resolves TopologyGraph.outwardHops
  rw [hget]
  dsimp only
  cases g.outputsFor info h.2 <;> simp

theorem expand_ok_iff (item : WorkItem) {info : InstanceInfo}
    (hget : g.instances.get? item.entry.inst = some info)
    (hkind : item.kind ∈ info.kindsOf item.entry.port) :
    (∃ r, g.expand item = .ok r) ↔ ∀ h, g.Behind item.entry item.kind h → g.Resolves h := by
  have hexpand : (∃ r, g.expand item = .ok r) ↔ ∃ outs, SimplePaths.collect (g.outputsFor info)
      (info.flowEntries item.entry.port item.kind) = .ok outs := by
    simp only [expand_eq_ok hget]
    constructor
    · rintro ⟨_, outs, houts, _⟩
      exact ⟨outs, houts⟩
    · rintro ⟨outs, houts⟩
      exact ⟨_, outs, houts, rfl⟩
  rw [hexpand, SimplePaths.collect_ok_iff]
  constructor
  · rintro hok h ⟨info', hget', _, flowEntry, hflow, rfl⟩
    obtain rfl := Option.some.inj (hget.symm.trans hget')
    exact (resolves_iff hget).mpr (hok flowEntry hflow)
  · intro hok flowEntry hflow
    have hresolves := hok (item.entry.inst, flowEntry) ⟨info, hget, hkind, flowEntry, hflow, rfl⟩
    exact (resolves_iff hget).mp hresolves

/-- No entry raises exactly when the handlers entered are resolved. -/
theorem reach_ok_iff (hwork : g.StartsFrom groupHz work) :
    (∀ item, Worklist.Reach g.expand work item → ∃ r, g.expand item = .ok r)
      ↔ g.EnteredResolve groupHz := by
  constructor
  · rintro hok root first h ⟨entry, kind, harrives, hbehind⟩
    obtain ⟨info, hget, hkind⟩ := harrives.known
    have hexpand := hok _ (harrives.reach hwork hok)
    exact (expand_ok_iff ⟨root, entry, kind, rateOf groupHz root⟩ hget hkind).mp hexpand h hbehind
  · intro hresolve item hreach
    obtain ⟨first, harrives⟩ := hwork.arrives hreach
    obtain ⟨info, hget, hkind⟩ := harrives.known
    exact (expand_ok_iff item hget hkind).mpr fun h hbehind =>
      hresolve item.root first h ⟨_, _, harrives, hbehind⟩

theorem propagate_ok_iff (hwork : g.StartsFrom groupHz work) :
    (∃ st, g.propagate work = .ok st) ↔ g.EnteredResolve groupHz := by
  have hstart : Remembers g (rateOf groupHz) ⟨∅, ∅, ∅⟩ ∅ (∅, ∅) := Remembers.start _
  rw [← reach_ok_iff hwork]
  exact Worklist.loop_ok_iff (simulates hwork.rated) (fun _ => reach_mem_allItems hwork.known) hstart

/-- **The queue's loop computes the sums.** -/
theorem propagate_exact (hwork : g.StartsFrom groupHz work) {st : Propagation}
    (h : g.propagate work = .ok st) :
    ExactTotals g groupHz
      (Contributions.totals st.entryContributions, Contributions.totals st.outputContributions) := by
  have hok := (reach_ok_iff hwork).mpr ((propagate_ok_iff hwork).mp ⟨st, h⟩)
  have hstart : Remembers g (rateOf groupHz) ⟨∅, ∅, ∅⟩ ∅ (∅, ∅) := Remembers.start _
  obtain ⟨seen, s, htakes, hend⟩ := Worklist.loop_takes (simulates hwork.rated)
    (fun _ => reach_mem_allItems hwork.known) hstart h
  obtain ⟨hseen, hcontributed⟩ := Worklist.takes_spec (Contributed g groupHz)
    (fun item r seen s hreach _ hexp hold => hold.expand hwork hreach hexp)
    Contributed.start htakes
  have hexact := hcontributed.exactTotals hwork hok hseen
  rw [hend.contributions] at hexact
  exact hexact

/-- And so does every other way to work the queue off. -/
theorem endsIn_exact (hwork : g.StartsFrom groupHz work) (hresolve : g.EnteredResolve groupHz) :
    Worklist.EndsIn g.expand work (∅, ∅) fun s =>
      ExactTotals g groupHz (Contributions.totals s.1, Contributions.totals s.2) := by
  have hok := (reach_ok_iff hwork).mpr hresolve
  exact Worklist.endsIn_of_spec (Contributed g groupHz) (fun _ => reach_mem_allItems hwork.known) hok
    (fun item r seen s hreach _ hexp hold => hold.expand hwork hreach hexp)
    Contributed.start fun seen s hseen h => h.exactTotals hwork hok hseen

/-! ## The rate model -/

theorem get?_writeTotals (totals : Dict PortKey ℚ) (production : Dict String ℚ) :
    (∀ s, (totals.entries.foldl (fun production e => production.set e.1.str e.2) production).get? s.str
        = (totals.get? s).or (production.get? s.str))
      ∧ ∀ key, (∀ s, totals.get? s ≠ none → s.str ≠ key) →
        (totals.entries.foldl (fun production e => production.set e.1.str e.2) production).get? key
          = production.get? key := by
  let texts : Dict String ℚ := ⟨totals.entries.map fun e => (e.1.str, e.2), by
    rw [List.map_map]
    have hkeys : (Prod.fst ∘ fun e : PortKey × ℚ => (e.1.str, e.2)) = PortKey.str ∘ Prod.fst := rfl
    rw [hkeys, ← List.map_map]
    exact totals.nodupKeys.map PortKey.str_injective⟩
  have hfold : totals.entries.foldl (fun production e => production.set e.1.str e.2) production
      = production.update texts := by
    rw [Dict.update, List.foldl_map]
  have htexts : ∀ key a, texts.get? key = some a ↔ ∃ s, totals.get? s = some a ∧ s.str = key := by
    intro key a
    rw [Dict.get?_eq_some_iff]
    simp only [texts, List.mem_map, Prod.mk.injEq, Prod.exists, Dict.get?_eq_some_iff]
    constructor
    · rintro ⟨s, b, hmem, hstr, rfl⟩
      exact ⟨s, hmem, hstr⟩
    · rintro ⟨s, hmem, hstr⟩
      exact ⟨s, a, hmem, hstr, rfl⟩
  rw [hfold]
  refine ⟨fun s => ?_, fun key hkey => ?_⟩
  · have hsame : texts.get? s.str = totals.get? s := by
      ext a
      rw [htexts]
      constructor
      · rintro ⟨s', hget, hstr⟩
        rwa [PortKey.str_injective hstr] at hget
      · exact fun hget => ⟨s, hget, rfl⟩
    rw [Dict.get?_update, hsame]
  · have hnone : texts.get? key = none := by
      by_contra hsome
      obtain ⟨a, ha⟩ := Option.ne_none_iff_exists'.mp hsome
      obtain ⟨s, hget, hstr⟩ := (htexts key a).mp ha
      exact hkey s (by simp [hget]) hstr
    rw [Dict.get?_update, hnone, Option.none_or]

/-- The rates are exact. An output port that no root feeds gets none; a
member end keeps its group's frequency, unless it has no index and its port
is fed as well. -/
structure ExactRates (g : LoadedTopology) (groupHz production : Dict String ℚ)
    (rates : Dict PortKey ℚ × Dict String ℚ) : Prop where
  entry : ∀ e, rates.1.get? e = if g.entering groupHz e = ∅ then none
    else some (∑ root ∈ g.entering groupHz e, rateOf groupHz root)
  output : ∀ s, g.feeding groupHz s ≠ ∅ →
    rates.2.get? s.str = some (∑ root ∈ g.feeding groupHz s, rateOf groupHz root)
  member : ∀ root ∈ g.memberEnds groupHz, (∀ s, g.feeding groupHz s ≠ ∅ → s.str ≠ root.str) →
    rates.2.get? root.str = some (rateOf groupHz root)
  other : ∀ key, (∀ s, g.feeding groupHz s ≠ ∅ → s.str ≠ key) →
    (∀ root ∈ g.memberEnds groupHz, root.str ≠ key) → rates.2.get? key = production.get? key

/-- The first loop puts in the queue what the members start. -/
theorem Started.startsFrom {acc : Dict String ℚ} {r : Dict String ℚ × List WorkItem}
    (h : g.Started groupHz g.connectionList (acc, []) r) : g.StartsFrom groupHz r.2 := by
  intro item
  simp [h.work item]

theorem propagateMemberRates_ok_iff {production : Dict String ℚ} :
    (∃ rates, g.propagateMemberRates groupHz production = .ok rates)
      ↔ g.MembersKnown groupHz ∧ g.EnteredResolve groupHz := by
  unfold MembersKnown
  rw [← foldlM_addMember_ok_iff g.connectionList (production, []), propagateMemberRates]
  cases hfold : g.connectionList.foldlM (g.addMember groupHz) (production, []) with
  | error e => simp
  | ok r =>
    have hwork := (started_foldlM _ _ _ hfold).startsFrom
    rw [← propagate_ok_iff hwork]
    dsimp only
    cases g.propagate r.2 <;> simp

theorem exactRates {production : Dict String ℚ} {rates : Dict PortKey ℚ × Dict String ℚ}
    (h : g.propagateMemberRates groupHz production = .ok rates) :
    g.ExactRates groupHz production rates := by
  rw [propagateMemberRates] at h
  cases hfold : g.connectionList.foldlM (g.addMember groupHz) (production, []) with
  | error e => simp [hfold] at h
  | ok r =>
    have hstarted := started_foldlM _ _ _ hfold
    cases hpropagate : g.propagate r.2 with
    | error e => simp [hfold, hpropagate] at h
    | ok st =>
      have htotals := propagate_exact hstarted.startsFrom hpropagate
      obtain ⟨hwritten, hkept⟩ :=
        get?_writeTotals (Contributions.totals st.outputContributions) r.1
      have hfed : ∀ s, (Contributions.totals st.outputContributions).get? s ≠ none
          ↔ g.feeding groupHz s ≠ ∅ := by
        intro s
        rw [htotals.outputs]
        by_cases hs : g.feeding groupHz s = ∅ <;> simp [hs]
      rw [hfold] at h
      dsimp only at h
      rw [hpropagate] at h
      obtain rfl := Except.ok.inj h
      refine ⟨htotals.entries, fun s hs => ?_, fun root hroot hunfed => ?_,
        fun key hunfed hno => ?_⟩
      · rw [hwritten, htotals.outputs, if_neg hs, Option.some_or]
      · obtain ⟨c, hc, hmember, rfl⟩ := mem_memberEnds.mp hroot
        rw [hkept _ fun s hs => hunfed s ((hfed s).mp hs)]
        exact hstarted.member c hc hmember
      · rw [hkept _ fun s hs => hunfed s ((hfed s).mp hs)]
        refine hstarted.other key fun c hc hmember => ?_
        exact hno c.source (mem_memberEnds.mpr ⟨c, hc, hmember, rfl⟩)

/-! ## Order -/

end LoadedTopology

/-- The instance without the order its sets of kinds are iterated in. -/
def InstanceInfo.unordered (info : InstanceInfo) : InstanceInfo := { info with kindOrder := .byText }

/-- That order shows in no set of kinds and in no handler. -/
theorem InstanceInfo.same_of_unordered {info info' : InstanceInfo}
    (h : info'.unordered = info.unordered) (port : PortName) (kind : SyncKind) :
    info'.kindsOf port = info.kindsOf port
      ∧ info'.flowEntries port kind = info.flowEntries port kind := by
  show info'.unordered.kindsOf port = info.unordered.kindsOf port
    ∧ info'.unordered.flowEntries port kind = info.unordered.flowEntries port kind
  rw [h]
  exact ⟨rfl, rfl⟩

namespace LoadedTopology

/-- Two graphs with the same instances and connections, whatever the order
of the connections, of the destinations and of each set of kinds. -/
structure SameWiring (g g' : LoadedTopology) : Prop where
  instances : ∀ name, (g.instances.get? name).map InstanceInfo.unordered
    = (g'.instances.get? name).map InstanceInfo.unordered
  destinations : ∀ inst port dest, dest ∈ g.destinations inst port ↔ dest ∈ g'.destinations inst port
  flow : g.flow = g'.flow
  connectionList : ∀ c, c ∈ g.connectionList ↔ c ∈ g'.connectionList

/-- Two answers that say the same by lookup: neither is one, or both are and
give every port the same rates. -/
structure SameRates (x y : Except PropagateError (Dict PortKey ℚ × Dict String ℚ)) : Prop where
  answers : (∃ rates, x = .ok rates) ↔ ∃ rates, y = .ok rates
  entry : ∀ rates rates', x = .ok rates → y = .ok rates' → ∀ e, rates.1.get? e = rates'.1.get? e
  production : ∀ rates rates', x = .ok rates → y = .ok rates' →
    ∀ key, rates.2.get? key = rates'.2.get? key

variable {g g' : LoadedTopology} {groupHz : Dict String ℚ}

theorem SameWiring.symm (h : SameWiring g g') : SameWiring g' g where
  instances name := (h.instances name).symm
  destinations inst port dest := (h.destinations inst port dest).symm
  flow := h.flow.symm
  connectionList c := (h.connectionList c).symm

theorem SameWiring.get? (h : SameWiring g g') {name : String} {info : InstanceInfo}
    (hget : g.instances.get? name = some info) :
    ∃ info', g'.instances.get? name = some info' ∧ info'.unordered = info.unordered := by
  have hsame := h.instances name
  rw [hget, Option.map_some] at hsame
  exact Option.map_eq_some_iff.mp hsame.symm

theorem SameWiring.behind (h : SameWiring g g') {entry : PortKey} {kind : SyncKind} {x : Handler}
    (hb : g.Behind entry kind x) : g'.Behind entry kind x := by
  obtain ⟨info, hget, hkind, flowEntry, hflow, hx⟩ := hb
  obtain ⟨info', hget', hinfo⟩ := h.get? hget
  obtain ⟨hkinds, hentries⟩ := InstanceInfo.same_of_unordered hinfo entry.port kind
  exact ⟨info', hget', hkinds ▸ hkind, flowEntry, hentries ▸ hflow, hx⟩

theorem SameWiring.outputsFor (h : SameWiring g g') {info info' : InstanceInfo}
    (hinfo : info'.unordered = info.unordered) (flowEntry : String) :
    g'.outputsFor info' flowEntry = g.outputsFor info flowEntry := by
  have hinvariant := congrArg (fun i : InstanceInfo => g.outputsFor i flowEntry) hinfo
  have hflow : g'.outputsFor info' flowEntry = g.outputsFor info' flowEntry := by
    simp only [TopologyGraph.outputsFor, h.flow]
  exact hflow.trans hinvariant

theorem SameWiring.invokes (h : SameWiring g g') {x : Handler} {s : PortKey}
    (hi : g.Invokes x s) : g'.Invokes x s := by
  obtain ⟨hinst, info, outs, hget, houts, hport⟩ := hi
  obtain ⟨info', hget', hinfo⟩ := h.get? hget
  exact ⟨hinst, info', outs, hget', (h.outputsFor hinfo x.2).trans houts, hport⟩

theorem SameWiring.hopOut (h : SameWiring g g') {x : Handler} {hop : OutwardHop}
    (hh : g.HopOut x hop) :
    ∃ hop', g'.HopOut x hop' ∧ hop'.dest = hop.dest ∧ hop'.kind = hop.kind := by
  obtain ⟨hinvokes, hdest, hget, hkind⟩ := TopologyGraph.hopOut_iff.mp hh
  obtain ⟨info', hget', hinfo⟩ := h.get? hget
  obtain ⟨hkinds, _⟩ := InstanceInfo.same_of_unordered hinfo hop.dest.port hop.kind
  refine ⟨{ hop with destInfo := info' }, TopologyGraph.hopOut_iff.mpr ?_, rfl, rfl⟩
  exact ⟨h.invokes hinvokes, (h.destinations _ _ _).mp hdest, hget', hkinds ▸ hkind⟩

theorem SameWiring.arrives (h : SameWiring g g') {root : ConnectionEnd} {first : SyncKind}
    {e : PortKey} {kind : SyncKind} (ha : g.Arrives groupHz root first e kind) :
    g'.Arrives groupHz root first e kind := by
  induction ha with
  | @member c info hc hmember hroot hget hkind =>
    obtain ⟨info', hget', hinfo⟩ := h.get? hget
    obtain ⟨hkinds, _⟩ := InstanceInfo.same_of_unordered hinfo c.dest.port.port first
    exact .member ((h.connectionList c).mp hc) hmember hroot hget' (hkinds ▸ hkind)
  | call _ hbehind hhop hasync ih =>
    obtain ⟨hop', hhop', hdest, hkind⟩ := h.hopOut hhop
    rw [← hdest, ← hkind]
    exact .call ih (h.behind hbehind) hhop' (hkind ▸ hasync)

theorem SameWiring.enters (h : SameWiring g g') {root : ConnectionEnd} {first : SyncKind}
    {x : Handler} (he : g.Enters groupHz root first x) : g'.Enters groupHz root first x := by
  obtain ⟨entry, kind, harrives, hbehind⟩ := he
  exact ⟨entry, kind, h.arrives harrives, h.behind hbehind⟩

theorem SameWiring.memberEnds (h : SameWiring g g') :
    g.memberEnds groupHz = g'.memberEnds groupHz := by
  ext root
  simp only [mem_memberEnds, h.connectionList]

theorem SameWiring.entering (h : SameWiring g g') (e : PortKey) :
    g.entering groupHz e = g'.entering groupHz e := by
  ext root
  rw [mem_entering, mem_entering]
  constructor
  · exact fun ⟨first, kind, ha⟩ => ⟨first, kind, h.arrives ha⟩
  · exact fun ⟨first, kind, ha⟩ => ⟨first, kind, h.symm.arrives ha⟩

theorem SameWiring.feeding (h : SameWiring g g') (s : PortKey) :
    g.feeding groupHz s = g'.feeding groupHz s := by
  ext root
  rw [mem_feeding, mem_feeding]
  constructor
  · exact fun ⟨first, x, he, hi⟩ => ⟨first, x, h.enters he, h.invokes hi⟩
  · exact fun ⟨first, x, he, hi⟩ => ⟨first, x, h.symm.enters he, h.symm.invokes hi⟩

theorem SameWiring.resolves (h : SameWiring g g') {x : Handler} (hr : g.Resolves x) :
    g'.Resolves x := by
  cases hget : g'.instances.get? x.1 with
  | none => exact ⟨[], by simp only [TopologyGraph.outwardHops, hget]⟩
  | some info' =>
    obtain ⟨info, hinfo, hsame⟩ := h.symm.get? hget
    obtain ⟨outs, houts⟩ := (resolves_iff hinfo).mp hr
    exact (resolves_iff hget).mpr ⟨outs, (h.symm.outputsFor hsame x.2).symm.trans houts⟩

theorem SameWiring.conditions (h : SameWiring g g')
    (hg : g.MembersKnown groupHz ∧ g.EnteredResolve groupHz) :
    g'.MembersKnown groupHz ∧ g'.EnteredResolve groupHz := by
  refine ⟨fun c hc hmember => ?_, fun root first x he => ?_⟩
  · obtain ⟨info, hget⟩ := hg.1 c ((h.connectionList c).mpr hc) hmember
    obtain ⟨info', hget', _⟩ := h.get? hget
    exact ⟨info', hget'⟩
  · exact h.resolves (hg.2 root first x (h.symm.enters he))

/-- **No order matters.** -/
theorem SameWiring.sameRates (h : SameWiring g g') (production : Dict String ℚ) :
    SameRates (g.propagateMemberRates groupHz production)
      (g'.propagateMemberRates groupHz production) where
  answers := by
    rw [propagateMemberRates_ok_iff, propagateMemberRates_ok_iff]
    exact ⟨h.conditions, h.symm.conditions⟩
  entry rates rates' hrates hrates' e := by
    rw [(exactRates hrates).entry, (exactRates hrates').entry, h.entering]
  production rates rates' hrates hrates' key := by
    have hexact := exactRates hrates
    have hexact' := exactRates hrates'
    by_cases hfed : ∃ s, g.feeding groupHz s ≠ ∅ ∧ s.str = key
    · obtain ⟨s, hs, rfl⟩ := hfed
      rw [hexact.output s hs, hexact'.output s (h.feeding s ▸ hs), h.feeding]
    · have hunfed : ∀ s, g.feeding groupHz s ≠ ∅ → s.str ≠ key := fun s hs hstr => hfed ⟨s, hs, hstr⟩
      have hunfed' : ∀ s, g'.feeding groupHz s ≠ ∅ → s.str ≠ key :=
        fun s hs => hunfed s (h.feeding s ▸ hs)
      by_cases hmember : ∃ root ∈ g.memberEnds groupHz, root.str = key
      · obtain ⟨root, hroot, rfl⟩ := hmember
        rw [hexact.member root hroot hunfed,
          hexact'.member root (h.memberEnds ▸ hroot) hunfed']
      · have hno : ∀ root ∈ g.memberEnds groupHz, root.str ≠ key :=
          fun root hroot hstr => hmember ⟨root, hroot, hstr⟩
        rw [hexact.other key hunfed hno, hexact'.other key hunfed' (h.memberEnds ▸ hno)]

/-- **Rates are exact sums over ticks**: the propagation answers when every
member is wired to an instance of the graph and every handler entered is
resolved; its answer is exact; any order of working off the queue comes to
the same sums; and so does any order of the connections and kinds. -/
theorem memberRates_exact (g : LoadedTopology) (groupHz production : Dict String ℚ) :
    ((∃ rates, g.propagateMemberRates groupHz production = .ok rates)
      ↔ g.MembersKnown groupHz ∧ g.EnteredResolve groupHz)
    ∧ (∀ rates, g.propagateMemberRates groupHz production = .ok rates →
      g.ExactRates groupHz production rates)
    ∧ (∀ queued, g.connectionList.foldlM (g.addMember groupHz) (production, []) = .ok queued →
      g.EnteredResolve groupHz → Worklist.EndsIn g.expand queued.2 (∅, ∅) fun s =>
        ExactTotals g groupHz (Contributions.totals s.1, Contributions.totals s.2))
    ∧ ∀ g', SameWiring g g' → SameRates (g.propagateMemberRates groupHz production)
      (g'.propagateMemberRates groupHz production) := by
  refine ⟨propagateMemberRates_ok_iff, fun rates => exactRates, fun queued hqueued hresolve => ?_,
    fun g' h => h.sameRates production⟩
  exact endsIn_exact (started_foldlM _ _ _ hqueued).startsFrom hresolve

end LoadedTopology

end FprimeTopologyAnalysis
