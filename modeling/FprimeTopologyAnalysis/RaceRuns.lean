/-
FprimeTopologyAnalysis.RaceRuns — the data race check against the threads
of the topology.

`Conflicts` is a state of the running topology in which two threads are
inside handlers of one instance that touch the same member, one of them
writing, and no C++ lock is taken by both. `race_reported`: whatever the
threads did to get there, the check has a finding on the member, or it has
raised, or every access to the member is guarded or takes some lock of its
own, which is where its verdict is known not to be sound.
-/
import FprimeTopologyAnalysis.Contention
import FprimeTopologyAnalysis.ThreadAttribution

namespace FprimeTopologyAnalysis

open Library TopologyGraph

/-! ## Conflicting accesses in a state -/

/-- Thread `o` is inside a handler of instance `name` that it entered at
`port` under `kind`. -/
def Inside (s : LockMachine.State Origin Activity String) (o : Origin) (name : String)
    (port : PortName) (kind : SyncKind) (entry : String) : Prop :=
  ∃ m, (Activity.entered ⟨name, port⟩ kind (some entry), m) ∈ (s o).stack

/-- Two threads are inside handlers of instance `name` that touch `member`,
one of them writes it, and they have no lock in common. -/
def Conflicts (g : TopologyGraph) (s : LockMachine.State Origin Activity String) (name : String)
    (info : InstanceInfo) (member : String) : Prop :=
  ∃ o u, o ≠ u ∧ ∃ port kind entry w locks port' kind' entry' w' locks',
    Inside s o name port kind entry ∧ DataRace.Touches g info entry member w locks
      ∧ Inside s u name port' kind' entry' ∧ DataRace.Touches g info entry' member w' locks'
      ∧ (w ∨ w') ∧ ∀ lock, lock ∈ locks → lock ∉ locks'

/-- Every handler of the instance that touches `member` is guarded or takes
some lock. -/
def EachHoldsSomething (g : TopologyGraph) (info : InstanceInfo) (member : String) : Prop :=
  ∀ port entry kind w locks, kind ∈ info.kindsOf port → entry ∈ info.flowEntries port kind →
    DataRace.Touches g info entry member w locks → kind = .guarded ∨ locks ≠ []

namespace DataRace

section Accesses

variable {g : TopologyGraph} {s : LockMachine.State Origin Activity String} {name : String}
  {info : InstanceInfo}

/-- A handler that a thread is inside of stands behind its port. -/
theorem behind_of_inside (hs : RunState g s) {o : Origin} {port : PortName} {kind : SyncKind}
    {entry : String} (hin : Inside s o name port kind entry)
    (hget : g.instances.get? name = some info) :
    kind ∈ info.kindsOf port ∧ entry ∈ info.flowEntries port kind := by
  obtain ⟨m, hframe⟩ := hin
  cases inPlace_of_callPath (hs.inv.path o) _ hframe with
  | entered _ _ hbehind =>
    obtain ⟨info', hget', hk, entry', hentry, heq⟩ := hbehind entry rfl
    obtain rfl := Option.some.inj (hget'.symm.trans hget)
    obtain rfl : entry = entry' := (Prod.mk.inj heq).2
    exact ⟨hk, hentry⟩

/-- The threads told of a handler include every thread that is inside of it. -/
theorem threads_of_inside (hs : RunState g s) {o : Origin} {port : PortName} {kind : SyncKind}
    {entry : String} (hin : Inside s o name port kind entry) {ts : Finset Origin}
    (hts : HandlerThreads g name port kind ts) : o ∈ ts := by
  obtain ⟨m, hframe⟩ := hin
  cases inPlace_of_callPath (hs.inv.path o) _ hframe with
  | entered hunder _ _ =>
    obtain ⟨_, hown, hlands⟩ := hunder
    unfold HandlerThreads at hts
    split at hts
    · rename_i hasync
      rw [hts, hown hasync]
      exact Finset.mem_singleton_self _
    · obtain ⟨complete, hc, rfl⟩ := hts
      exact (mem_reachingAt_iff hc).mpr (.inl hlands)

/-- Two threads inside handlers of one instance: not both are guarded, and
not both come from the queue. -/
theorem not_both_of_inside (hs : RunState g s) {o u : Origin} (hne : o ≠ u)
    {port port' : PortName} {kind kind' : SyncKind} {entry entry' : String}
    (ho : Inside s o name port kind entry) (hu : Inside s u name port' kind' entry') :
    ¬ (kind = .guarded ∧ kind' = .guarded) ∧ ¬ (kind = .async ∧ kind' = .async) := by
  obtain ⟨m, hframe⟩ := ho
  obtain ⟨m', hframe'⟩ := hu
  have hplace := inPlace_of_callPath (hs.inv.path o) _ hframe
  have hplace' := inPlace_of_callPath (hs.inv.path u) _ hframe'
  cases hplace with
  | entered hunder _ _ =>
    cases hplace' with
    | entered hunder' _ _ =>
      constructor
      · rintro ⟨rfl, rfl⟩
        -- both would hold the mutex of the instance
        have hheld : LockMachine.Holds s o name := List.mem_filterMap.mpr ⟨_, hframe, rfl⟩
        have hheld' : LockMachine.Holds s u name := List.mem_filterMap.mpr ⟨_, hframe', rfl⟩
        exact hne (hs.inv.exclusive o u name hheld hheld')
      · rintro ⟨rfl, rfl⟩
        exact hne ((hunder.2.1 rfl).trans (hunder'.2.1 rfl).symm)

/-- A race that gets no finding is one among accesses that each hold
something. -/
theorem eachGuardedOrLocked_of_silent {member : String} {accesses : List MemberAccess}
    (hrace : Races accesses) (hsilent : classify name member accesses = none) :
    EachGuardedOrLocked accesses := by
  rcases classify_eq_none_iff.mp hsilent with rfl | hone | hread | hsync
  · obtain ⟨_, ha, _⟩ := hrace
    simp at ha
  · exact absurd hrace (not_races_of_card_lt hone.1)
  · exact absurd hrace (not_races_of_no_write hread)
  · rcases isSynchronized_iff.mp hsync with hcommon | hall | hasync
    · exact absurd hrace (not_races_of_commonLocks hcommon)
    · exact hall
    · exact absurd hrace (not_races_of_all_async hasync)

/-- A verdict is about the member it was asked for. -/
theorem subject_of_classify {member : String} {accesses : List MemberAccess} {f : RawFinding}
    (h : classify name member accesses = some f) : f.subject = name ++ "." ++ shortName member := by
  dsimp only [classify] at h
  split at h
  · cases h
  · split at h
    · cases h
    · split at h
      · cases h
      · split at h
        · cases h
        · rw [← Option.some.inj h]

/-- A loop that ends well has told the threads of every handler it records. -/
theorem threads_of_accessLoop : ∀ (hs : List (PortName × String × SyncKind))
    (access r : Dict String (List MemberAccess)) (t t' : OriginState), Coherent g t →
      accessLoop g name info hs access t = (.ok r, t') →
      ∀ port entry kind member w locks, (port, entry, kind) ∈ hs →
        Touches g info entry member w locks → ∃ ts, HandlerThreads g name port kind ts := by
  intro hs
  induction hs with
  | nil => simp
  | cons h hs ih =>
    intro access r t t' hco hrun port entry kind member w locks hmem htouch
    obtain ⟨port₀, entry₀, kind₀⟩ := h
    simp only [accessLoop] at hrun
    split at hrun
    · rename_i hnone
      rcases List.mem_cons.mp hmem with heq | hmem
      · -- a handler that touches something is not passed over
        cases heq
        have hin := htouch.1
        cases w
        · simp [hnone.1] at hin
        · simp [hnone.2] at hin
      · exact ih access r t t' hco hrun port entry kind member w locks hmem htouch
    · obtain ⟨ts, t₁, hthreads, hrest⟩ := OriginM.bind_eq_ok hrun
      obtain ⟨hco', hts⟩ := handlerThreads_ok hco hthreads
      rcases List.mem_cons.mp hmem with heq | hmem
      · cases heq
        exact ⟨ts, hts⟩
      · exact ih _ r t₁ t' hco' hrest port entry kind member w locks hmem htouch

/-- The accesses behind a conflict race. -/
theorem Conflicts.races {member : String} (hs : RunState g s)
    (hget : g.instances.get? name = some info) (hconflict : Conflicts g s name info member)
    {access : Dict String (List MemberAccess)} {t t' : OriginState} (hco : Coherent g t)
    (hrun : accessMap g name info t = (.ok access, t')) :
    Races ((access.get? member).getD []) := by
  obtain ⟨o, u, hne, port, kind, entry, w, locks, port', kind', entry', w', locks', hin, htouch,
    hin', htouch', hwrites, hapart⟩ := hconflict
  obtain ⟨hguarded, hasync⟩ := not_both_of_inside hs hne hin hin'
  obtain ⟨hk, hentry⟩ := behind_of_inside hs hin hget
  obtain ⟨hk', hentry'⟩ := behind_of_inside hs hin' hget
  have hhandler := Check.mem_handlers.mpr ⟨hk, hentry⟩
  have hhandler' := Check.mem_handlers.mpr ⟨hk', hentry'⟩
  obtain ⟨ts, hts⟩ := threads_of_accessLoop _ _ _ _ _ hco hrun port entry kind member w locks
    hhandler htouch
  obtain ⟨ts', hts'⟩ := threads_of_accessLoop _ _ _ _ _ hco hrun port' entry' kind' member w' locks'
    hhandler' htouch'
  have hrecords := accessLoop_records _ _ _ _ _ hco hrun member
  have ha := (hrecords _).mpr (.inr ⟨port, entry, kind, hhandler, ts, w, locks, hts, htouch, rfl⟩)
  have hb := (hrecords _).mpr
    (.inr ⟨port', entry', kind', hhandler', ts', w', locks', hts', htouch', rfl⟩)
  refine ⟨_, ha, _, hb, hwrites,
    ⟨o, threads_of_inside hs hin hts, u, threads_of_inside hs hin' hts', hne⟩, ?_⟩
  rintro (⟨lock, hl, hl'⟩ | hboth | hboth)
  · exact hapart lock hl hl'
  · exact hguarded hboth
  · exact hasync hboth

end Accesses

end DataRace

/-- **No conflict goes unreported.** In every state that the threads of a
topology can reach: where two threads are inside handlers that touch one
member of an instance, with a write and no lock in common, the check has a
finding on that member, or has raised, or every handler that touches the
member is guarded or takes some lock. -/
theorem race_reported (g : TopologyGraph) (s : LockMachine.State Origin Activity String)
    (hs : RunState g s) (name : String) (info : InstanceInfo)
    (hget : g.instances.get? name = some info) (member : String)
    (hconflict : Conflicts g s name info member) :
    Raises dataRace g
      ∨ (∃ f, Reports dataRace g f ∧ f.subject = name ++ "." ++ DataRace.shortName member)
      ∨ EachHoldsSomething g info member := by
  cases hrun : dataRace.run g .fresh with
  | mk r t =>
    cases r with
    | error e => exact .inl ⟨e, t, hrun⟩
    | ok findings =>
      obtain ⟨raws, t₁, hraws, hpure⟩ := OriginM.bind_eq_ok hrun
      obtain rfl : raws.map dataRace.finding = findings := Except.ok.inj (congrArg Prod.fst hpure)
      -- the round of the instance
      have hqueries : ∀ e : String × InstanceInfo, QueriesOnly g (do
          let access ← DataRace.accessMap g e.1 e.2
          pure ((access.entries.insertionSort fun a b => a.1 ≤ b.1).filterMap fun m =>
            DataRace.classify e.1 m.1 m.2)) := fun e =>
        .bind (DataRace.accessLoop_queries g e.1 e.2 (Check.handlers e.2) ∅) fun _ => .pure _
      obtain ⟨t₂, t₃, zs, ht₂, hround, hzs⟩ := Contention.Coherent.collect_ok hqueries (.inl rfl)
        hraws (name, info) (Check.mem_sortedInstances.mpr hget)
      obtain ⟨access, t₄, haccess, hclassify⟩ := OriginM.bind_eq_ok hround
      obtain rfl := Except.ok.inj (congrArg Prod.fst hclassify)
      have hrace := DataRace.Conflicts.races hs hget hconflict ht₂ haccess
      cases hverdict : DataRace.classify name member ((access.get? member).getD []) with
      | none =>
        -- the accesses each hold something, so the handlers do
        refine .inr (.inr fun port entry kind w locks hk hentry htouch => ?_)
        have heach := DataRace.eachGuardedOrLocked_of_silent hrace hverdict
        have hhandler := Check.mem_handlers.mpr ⟨hk, hentry⟩
        obtain ⟨ts, hts⟩ := DataRace.threads_of_accessLoop _ _ _ _ _ ht₂ haccess port entry kind
          member w locks hhandler htouch
        exact heach _ ((DataRace.accessLoop_records _ _ _ _ _ ht₂ haccess member _).mpr
          (.inr ⟨port, entry, kind, hhandler, ts, w, locks, hts, htouch, rfl⟩))
      | some f =>
        refine .inr (.inl ⟨f, ⟨_, t, hrun, List.mem_map_of_mem (hzs f ?_)⟩,
          DataRace.subject_of_classify hverdict⟩)
        cases haccesses : access.get? member with
        | none =>
          rw [haccesses] at hverdict
          cases hverdict
        | some accesses =>
          rw [haccesses, Option.getD_some] at hverdict
          refine List.mem_filterMap.mpr ⟨(member, accesses), ?_, hverdict⟩
          exact (List.mem_insertionSort _).mpr ((access.get?_eq_some_iff _ _).mp haccesses)

/-! Two callers from outside write one member of `c`. -/

/-- A handler that writes the member. -/
def writingRecord : HandlerRecord := ⟨.ofList [("fields_written", ["C::m_count"])], some false⟩

def writtenInstance : InstanceInfo where
  kind := .passive
  componentName := "C"
  inputPorts := .ofList [(.go, {.sync}), (.run, {.sync})]

def writtenTopology : TopologyGraph where
  instances := .ofList [("c", writtenInstance)]
  connections := ∅
  flow := .permissive (.ofList [("C", ⟨.ofList [("go", writingRecord), ("run", writingRecord)]⟩)])

/-- A caller from outside, inside the handler of its port. -/
def callerInside (port : PortName) : LockMachine.Thread Activity String :=
  ⟨[(.entered ⟨"c", port⟩ .sync (some port.str), none), (.outside ⟨"c", port⟩, none)], none⟩

/-- The caller of an undriven port enters its handler. -/
theorem written_enters {s : LockMachine.State Origin Activity String} {port : PortName}
    (hs : RunState writtenTopology s) (hidle : s (.external ⟨"c", port⟩) = ⟨[], none⟩)
    (hk : .sync ∈ writtenInstance.kindsOf port)
    (hentry : port.str ∈ writtenInstance.flowEntries port .sync)
    (hundriven : ⟨"c", port⟩ ∉ writtenTopology.connectedInputs) :
    RunState writtenTopology
      (LockMachine.setThread s (.external ⟨"c", port⟩) (callerInside port)) := by
  have hget : writtenTopology.instances.get? "c" = some writtenInstance := by decide
  have hstart : LockMachine.Step (threads writtenTopology) Unbounded s _ :=
    .start (t := .external ⟨"c", port⟩) (by rw [hidle])
      ⟨⟨"c", port⟩, .sync, ⟨writtenInstance, hget, hk, .inr ⟨by decide, hundriven, rfl⟩⟩,
        .inr ⟨by decide, rfl⟩⟩
  have hcall : LockMachine.Step (threads writtenTopology) Unbounded _ _ :=
    .call (s := LockMachine.setThread s (.external ⟨"c", port⟩)
      ⟨[(.outside ⟨"c", port⟩, none)], none⟩) (t := .external ⟨"c", port⟩)
      (by rw [LockMachine.setThread_self]) (by rw [LockMachine.setThread_self])
      ⟨⟨"c", port⟩, .sync, .outside (by decide), .handler hget hk hentry, rfl⟩
  rw [LockMachine.setThread_setThread] at hcall
  exact (hs.tail hstart).tail hcall

/-- Both callers are inside. -/
def writtenState : LockMachine.State Origin Activity String :=
  LockMachine.setThread (LockMachine.setThread LockMachine.init (.external ⟨"c", .go⟩)
    (callerInside .go)) (.external ⟨"c", .run⟩) (callerInside .run)

theorem writtenState_reachable : RunState writtenTopology writtenState := by
  have hgo : RunState writtenTopology (LockMachine.setThread LockMachine.init
      (.external ⟨"c", .go⟩) (callerInside .go)) :=
    written_enters .refl rfl (by decide) (by decide) (by decide)
  exact written_enters hgo (LockMachine.setThread_ne _ _ (by decide)) (by decide) (by decide)
    (by decide)

theorem race_reported_written :
    Raises dataRace writtenTopology
      ∨ (∃ f, Reports dataRace writtenTopology f
        ∧ f.subject = "c" ++ "." ++ DataRace.shortName "C::m_count")
      ∨ EachHoldsSomething writtenTopology writtenInstance "C::m_count" :=
  race_reported writtenTopology writtenState writtenState_reachable "c" writtenInstance (by decide)
    "C::m_count"
    ⟨.external ⟨"c", .go⟩, .external ⟨"c", .run⟩, by decide, .go, .sync, "go", true, [], .run, .sync,
      "run", true, [],
      ⟨none, by
        have hgo : writtenState (.external ⟨"c", .go⟩) = callerInside .go := by
          rw [writtenState, LockMachine.setThread_ne _ _ (by decide), LockMachine.setThread_self]
        rw [hgo]
        exact List.mem_cons_self ..⟩,
      by unfold DataRace.Touches; decide,
      ⟨none, by
        rw [writtenState, LockMachine.setThread_self]
        exact List.mem_cons_self ..⟩,
      by unfold DataRace.Touches; decide, .inl rfl, by simp⟩

end FprimeTopologyAnalysis
