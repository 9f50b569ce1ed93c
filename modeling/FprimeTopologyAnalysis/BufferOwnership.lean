/-
FprimeTopologyAnalysis.BufferOwnership — the buffer ownership check of
`checks.py`.

A buffer must go back to the manager it came from. The check knows a manager
by its `Fw.BufferGet` port, and forgets to look which way the port goes: a
peer that itself only allocates has one too, as an output. Handing a buffer
on to such a peer is reported as a return to another pool
(`reportsError_exact_iff`). And it looks the peer up without asking whether
the graph knows it, so a connection to an instance that is none of the
topology's components ends the check.
-/
import FprimeTopologyAnalysis.Checks
import FprimeTopologyAnalysis.Library.SimplePaths

namespace FprimeTopologyAnalysis

open Library

namespace BufferOwnership

/-! ## The check -/

/-- `BUFFER_SEND_TYPE`. -/
def bufferSendType : String := "Fw.BufferSend"

/-- `BUFFER_GET_TYPE`. -/
def bufferGetType : String := "Fw.BufferGet"

/-- A key that is not in the dictionary it is looked up in. -/
inductive KeyError where
  | notAnInstance (name : String)

/-- `", ".join(sorted(names))`. -/
def listed (names : Finset String) : String := ", ".intercalate (sortNames names)

/-- `allocators`: where an instance allocates from. -/
def allocators (g : TopologyGraph) (name : String) (info : InstanceInfo) : Finset String :=
  Check.reachedByType g name info bufferGetType

/-- The instances it sends buffers to. -/
def sentTo (g : TopologyGraph) (name : String) (info : InstanceInfo) : Finset String :=
  Check.reachedByType g name info bufferSendType

/-- The test of a peer: `self.ports_of_type(graph.instances[dest], ...)`. -/
def isManager (g : TopologyGraph) (dest : String) : Except KeyError Bool :=
  match g.instances.get? dest with
  | none => .error (.notAnInstance dest)
  | some info => .ok (Check.portsOfType info bufferGetType ≠ [])

/-- `returns`: the managers it hands buffers back to. The peers are taken in the
order of their names; the source leaves it open. -/
def returns (g : TopologyGraph) (name : String) (info : InstanceInfo) :
    Except KeyError (List String) :=
  SimplePaths.collect
    (fun dest => (isManager g dest).map fun manager => if manager then [dest] else [])
    (sortNames (sentTo g name info))

/-- The round of the first loop for one instance. -/
def poolFindings (g : TopologyGraph) (e : String × InstanceInfo) :
    Except KeyError (List RawFinding) :=
  let allocators := allocators g e.1 e.2
  if allocators = ∅ then .ok []
  else
    (returns g e.1 e.2).map fun returns =>
      let crossed := returns.toFinset \ allocators
      if crossed = ∅ then []
      else
        [⟨.error, e.1,
          e.1 ++ " allocates from " ++ listed allocators ++ " but returns buffers to " ++
            listed crossed ++ ". A buffer manager asserts on a buffer it did not hand out.",
          ["allocates from: " ++ listed allocators, "returns to: " ++ listed returns.toFinset]⟩]

/-- The round of the second loop: an instance that receives buffers and can
never pass one on. -/
def sinkFindings (g : TopologyGraph) (e : String × InstanceInfo) : List RawFinding :=
  let receives := (Check.inputsOfType e.2 bufferSendType).filter fun port =>
    ⟨e.1, port⟩ ∈ g.connectedInputs
  if receives ≠ [] ∧ Check.outputsOfType e.2 bufferSendType = [] then
    [⟨.warning, e.1,
      e.1 ++ " receives buffers on " ++ ", ".intercalate (receives.map PortName.str) ++
        " but declares no " ++ bufferSendType ++ " output. A buffer that arrives here cannot leave.",
      ["inbound: " ++ ", ".intercalate (receives.map PortName.str)]⟩]
  else []

/-- `BufferOwnership.run`. -/
def run (g : TopologyGraph) : Except KeyError (List RawFinding) :=
  (SimplePaths.collect (poolFindings g) (Check.sortedInstances g)).map fun findings =>
    findings ++ (Check.sortedInstances g).flatMap (sinkFindings g)

/-! ## What the check is about -/

/-- The instance serves buffers: it has an `Fw.BufferGet` input. -/
def Serves (g : TopologyGraph) (dest : String) : Prop :=
  ∃ info, g.instances.get? dest = some info ∧ Check.inputsOfType info bufferGetType ≠ []

/-- The instance only allocates buffers: it has an `Fw.BufferGet` port and no
such input. -/
def OnlyAllocates (g : TopologyGraph) (dest : String) : Prop :=
  ∃ info, g.instances.get? dest = some info ∧ Check.portsOfType info bufferGetType ≠ []
    ∧ Check.inputsOfType info bufferGetType = []

/-- `name` allocates buffers, and sends some to an instance that serves buffers
and is none of those it allocates from. -/
def CrossesPools (g : TopologyGraph) (name : String) (info : InstanceInfo) : Prop :=
  allocators g name info ≠ ∅
    ∧ ∃ dest ∈ sentTo g name info, Serves g dest ∧ dest ∉ allocators g name info

/-- `name` allocates buffers, and hands some on to an instance that only
allocates and is none of those it allocates from. -/
def HandsOn (g : TopologyGraph) (name : String) (info : InstanceInfo) : Prop :=
  allocators g name info ≠ ∅
    ∧ ∃ dest ∈ sentTo g name info, OnlyAllocates g dest ∧ dest ∉ allocators g name info

/-- Some instance that allocates buffers sends some to one the graph does not
know. -/
def Strays (g : TopologyGraph) : Prop :=
  ∃ name info, g.instances.get? name = some info ∧ allocators g name info ≠ ∅
    ∧ ∃ dest ∈ sentTo g name info, g.instances.get? dest = none

/-- The check reports an error for `name`. -/
def ReportsError (g : TopologyGraph) (name : String) : Prop :=
  ∃ findings, run g = .ok findings ∧ ∃ f ∈ findings, f.subject = name ∧ f.severity = .error

/-! ## When it reports an error -/

section Errors

variable {g : TopologyGraph} {name : String} {info : InstanceInfo}

/-- The peers are looked up unless one of them is unknown. -/
theorem returns_ok_iff :
    (∃ rs, returns g name info = .ok rs)
      ↔ ∀ dest ∈ sentTo g name info, g.instances.get? dest ≠ none := by
  rw [returns, SimplePaths.collect_ok_iff]
  refine forall_congr' fun dest => imp_congr mem_sortNames ?_
  unfold isManager
  cases g.instances.get? dest with
  | none => simp [Except.map]
  | some info => simp [Except.map]

/-- What counts as a manager: a peer with an `Fw.BufferGet` port, whichever way
it goes. -/
theorem mem_returns {rs : List String} (h : returns g name info = .ok rs) {dest : String} :
    dest ∈ rs ↔ dest ∈ sentTo g name info ∧ (Serves g dest ∨ OnlyAllocates g dest) := by
  rw [SimplePaths.mem_collect_iff h]
  simp only [mem_sortNames]
  constructor
  · rintro ⟨peer, hpeer, ys, hys, hdest⟩
    obtain ⟨manager, hmanager, rfl⟩ := SimplePaths.map_eq_ok_iff.mp hys
    unfold isManager at hmanager
    cases hget : g.instances.get? peer with
    | none => simp [hget] at hmanager
    | some info =>
      rw [hget] at hmanager
      obtain rfl := Except.ok.inj hmanager
      by_cases hports : Check.portsOfType info bufferGetType = []
      · simp [hports] at hdest
      · obtain rfl : dest = peer := by simpa [hports] using hdest
        by_cases hinputs : Check.inputsOfType info bufferGetType = []
        · exact ⟨hpeer, .inr ⟨info, hget, hports, hinputs⟩⟩
        · exact ⟨hpeer, .inl ⟨info, hget, hinputs⟩⟩
  · rintro ⟨hpeer, hrole⟩
    have hports : ∃ info, g.instances.get? dest = some info
        ∧ Check.portsOfType info bufferGetType ≠ [] := by
      rcases hrole with ⟨info, hget, hinputs⟩ | ⟨info, hget, hports, _⟩
      · refine ⟨info, hget, fun hnil => hinputs ?_⟩
        rw [Check.inputsOfType, hnil]
        rfl
      · exact ⟨info, hget, hports⟩
    obtain ⟨info, hget, hports⟩ := hports
    refine ⟨dest, hpeer, [dest], ?_, List.mem_singleton_self _⟩
    simp [isManager, hget, hports, Except.map]

/-- The round of one instance ends unless it allocates and has an unknown
peer. -/
theorem poolFindings_ok_iff :
    (∃ fs, poolFindings g (name, info) = .ok fs)
      ↔ (allocators g name info ≠ ∅ →
        ∀ dest ∈ sentTo g name info, g.instances.get? dest ≠ none) := by
  rw [← returns_ok_iff, poolFindings]
  by_cases hempty : allocators g name info = ∅
  · simp [hempty]
  · simp only [hempty, if_false, ne_eq, not_false_eq_true, true_imp_iff, SimplePaths.map_eq_ok_iff]
    constructor
    · rintro ⟨_, rs, hrs, _⟩
      exact ⟨rs, hrs⟩
    · rintro ⟨rs, hrs⟩
      exact ⟨_, rs, hrs, rfl⟩

/-- The findings of one round: an error about the instance, if it returns
buffers to a manager it does not allocate from. -/
theorem mem_poolFindings {fs : List RawFinding} (h : poolFindings g (name, info) = .ok fs) :
    (∀ f ∈ fs, f.subject = name ∧ f.severity = .error)
      ∧ (fs ≠ [] ↔ CrossesPools g name info ∨ HandsOn g name info) := by
  have hsplit : CrossesPools g name info ∨ HandsOn g name info
      ↔ allocators g name info ≠ ∅ ∧ ∃ dest ∈ sentTo g name info,
        (Serves g dest ∨ OnlyAllocates g dest) ∧ dest ∉ allocators g name info := by
    unfold CrossesPools HandsOn
    simp only [or_and_right, and_or_left, exists_or]
  rw [hsplit]
  unfold poolFindings at h
  by_cases hempty : allocators g name info = ∅
  · obtain rfl : [] = fs := by simpa [hempty] using h
    simp [hempty]
  · simp only [hempty, if_false] at h
    obtain ⟨rs, hrs, rfl⟩ := SimplePaths.map_eq_ok_iff.mp h
    have hcrossed : rs.toFinset \ allocators g name info ≠ ∅
        ↔ ∃ dest ∈ sentTo g name info,
          (Serves g dest ∨ OnlyAllocates g dest) ∧ dest ∉ allocators g name info := by
      rw [← Finset.nonempty_iff_ne_empty]
      simp only [Finset.Nonempty, Finset.mem_sdiff, List.mem_toFinset, mem_returns hrs, and_assoc]
    rw [← hcrossed]
    by_cases hnone : rs.toFinset \ allocators g name info = ∅
    · simp [hnone]
    · simp [hnone, hempty]

theorem run_ok_iff : (∃ findings, run g = .ok findings) ↔ ¬ Strays g := by
  have hrounds : (∃ findings, run g = .ok findings)
      ↔ ∀ e ∈ Check.sortedInstances g, ∃ fs, poolFindings g e = .ok fs := by
    rw [← SimplePaths.collect_ok_iff]
    simp only [run, SimplePaths.map_eq_ok_iff]
    constructor
    · rintro ⟨_, fs, hfs, _⟩
      exact ⟨fs, hfs⟩
    · rintro ⟨fs, hfs⟩
      exact ⟨_, fs, hfs, rfl⟩
  rw [hrounds]
  unfold Strays
  constructor
  · rintro hall ⟨name, info, hget, hallocates, dest, hdest, hnone⟩
    exact poolFindings_ok_iff.mp (hall (name, info) (Check.mem_sortedInstances.mpr hget)) hallocates
      dest hdest hnone
  · intro hno e he
    refine poolFindings_ok_iff.mpr fun hallocates dest hdest hnone => ?_
    exact hno ⟨e.1, e.2, Check.mem_sortedInstances.mp he, hallocates, dest, hdest, hnone⟩

/-- **When the check reports an error**: for an instance that crosses pools and
for one that hands buffers on to an instance that only allocates, unless an
unknown peer has ended the check. -/
theorem reportsError_iff (hinfo : g.instances.get? name = some info) :
    ReportsError g name ↔ ¬ Strays g ∧ (CrossesPools g name info ∨ HandsOn g name info) := by
  constructor
  · rintro ⟨findings, hrun, f, hf, hname, herror⟩
    refine ⟨run_ok_iff.mp ⟨findings, hrun⟩, ?_⟩
    obtain ⟨pools, hpools, rfl⟩ := SimplePaths.map_eq_ok_iff.mp hrun
    rcases List.mem_append.mp hf with hf | hf
    · obtain ⟨e, he, fs, hfs, hf⟩ := (SimplePaths.mem_collect_iff hpools).mp hf
      obtain ⟨hsubject, hne⟩ := mem_poolFindings hfs
      obtain rfl : e.1 = name := (hsubject f hf).1.symm.trans hname
      obtain rfl := Option.some.inj ((Check.mem_sortedInstances.mp he).symm.trans hinfo)
      exact hne.mp (List.ne_nil_of_mem hf)
    · obtain ⟨e, _, hf⟩ := List.mem_flatMap.mp hf
      unfold sinkFindings at hf
      dsimp only at hf
      split at hf
      · rw [List.mem_singleton.mp hf] at herror
        cases herror
      · simp at hf
  · rintro ⟨hno, hcrosses⟩
    obtain ⟨findings, hrun⟩ := run_ok_iff.mpr hno
    obtain ⟨pools, hpools, rfl⟩ := SimplePaths.map_eq_ok_iff.mp hrun
    have he : (name, info) ∈ Check.sortedInstances g := Check.mem_sortedInstances.mpr hinfo
    obtain ⟨fs, hfs⟩ := (SimplePaths.collect_ok_iff _).mp ⟨pools, hpools⟩ (name, info) he
    obtain ⟨hsubject, hne⟩ := mem_poolFindings hfs
    obtain ⟨f, hf⟩ := List.exists_mem_of_ne_nil fs (hne.mpr hcrosses)
    exact ⟨_, hrun, f, List.mem_append_left _ ((SimplePaths.mem_collect_iff hpools).mpr
      ⟨_, he, fs, hfs, hf⟩), hsubject f hf⟩

/-- **When the errors name real pools**: unless the instance hands buffers on to
one that only allocates, without crossing pools besides, or an unknown peer has ended
the check while the instance crosses pools. -/
theorem reportsError_exact_iff (g : TopologyGraph) (name : String) (info : InstanceInfo)
    (hinfo : g.instances.get? name = some info) :
    (ReportsError g name ↔ CrossesPools g name info)
      ↔ (CrossesPools g name info → ¬ Strays g)
        ∧ (HandsOn g name info → CrossesPools g name info ∨ Strays g) := by
  rw [reportsError_iff hinfo]
  tauto

end Errors

/-! `a` allocates from `pool` and hands its buffers to `b`, which allocates
from `pool` too. -/

/-- The port a buffer is asked for at. -/
def getPort : PortName := ⟨"get", by decide⟩

/-- The component of `pool`. -/
def poolInstance : InstanceInfo where
  kind := .passive
  inputPorts := .ofList [(getPort, {.guarded})]
  portTypes := .ofList [(getPort, bufferGetType)]

/-- The component of `a` and `b`: it allocates, takes buffers and passes them on. -/
def userInstance : InstanceInfo where
  kind := .active
  inputPorts := .ofList [(.go, {.async})]
  outputPorts := [getPort, .out]
  portTypes := .ofList [(.go, bufferSendType), (getPort, bufferGetType), (.out, bufferSendType)]

def handoffTopology : TopologyGraph where
  instances := .ofList [("pool", poolInstance), ("a", userInstance), ("b", userInstance)]
  connections := .ofList [(⟨"a", getPort⟩, [⟨"pool", getPort⟩]),
    (⟨"b", getPort⟩, [⟨"pool", getPort⟩]), (⟨"a", .out⟩, [⟨"b", .go⟩])]
  flow := .permissive ∅

/-- The handoff is reported as a return to another pool. -/
theorem reports_handoff :
    ReportsError handoffTopology "a" ∧ ¬ CrossesPools handoffTopology "a" userInstance
      ∧ OnlyAllocates handoffTopology "b"
      ∧ ¬ (ReportsError handoffTopology "a"
        ↔ CrossesPools handoffTopology "a" userInstance) := by
  have hb : OnlyAllocates handoffTopology "b" := ⟨userInstance, by decide, by decide, by decide⟩
  have ha : handoffTopology.instances.get? "a" = some userInstance := by decide
  have hknown : ∀ e ∈ handoffTopology.instances.entries, ∀ dest ∈ sentTo handoffTopology e.1 e.2,
      handoffTopology.instances.get? dest ≠ none := by
    decide
  have hstrays : ¬ Strays handoffTopology := by
    rintro ⟨name, info, hget, _, dest, hdest, hnone⟩
    exact hknown (name, info) ((Dict.get?_eq_some_iff _ _ _).mp hget) dest hdest hnone
  have hreports : ReportsError handoffTopology "a" :=
    (reportsError_iff ha).mpr ⟨hstrays, .inr ⟨by decide, "b", by decide, hb, by decide⟩⟩
  have hno : ¬ CrossesPools handoffTopology "a" userInstance := by
    rintro ⟨_, dest, hdest, ⟨info, hget, hserves⟩, _⟩
    have hsent : sentTo handoffTopology "a" userInstance = {"b"} := by decide
    obtain rfl : dest = "b" := by simpa [hsent] using hdest
    obtain ⟨info', hget', _, hno⟩ := hb
    obtain rfl := Option.some.inj (hget.symm.trans hget')
    exact hserves hno
  exact ⟨hreports, hno, hb, fun h => hno (h.mp hreports)⟩

theorem reportsError_exact_iff_handoff :
    (ReportsError handoffTopology "a" ↔ CrossesPools handoffTopology "a" userInstance)
      ↔ (CrossesPools handoffTopology "a" userInstance → ¬ Strays handoffTopology)
        ∧ (HandsOn handoffTopology "a" userInstance →
          CrossesPools handoffTopology "a" userInstance ∨ Strays handoffTopology) :=
  reportsError_exact_iff handoffTopology "a" userInstance (by decide)

end BufferOwnership

end FprimeTopologyAnalysis
