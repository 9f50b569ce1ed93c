/-
FprimeTopologyAnalysis.DataRace — the member data race check of
`checks.py`: which threads reach each member of an instance
(`_access_map`), and the verdict on one member (`classify`).

The specification is `Races`: two accesses on two different threads, one
of them a write, with nothing that keeps them apart. A verdict of `None`
rules that out except through one branch of `_is_synchronized`: accesses
that are each guarded or each hold some lock count as synchronized even
when what they hold is not the same thing (`classify_sound_iff`).
-/
import FprimeTopologyAnalysis.Checks

namespace FprimeTopologyAnalysis

open Library

/-- `MemberAccess`: one handler's touch of one component member. -/
structure MemberAccess where
  handler : String
  kind : SyncKind
  threads : Finset Origin
  writes : Bool
  locks : List String := []
  deriving DecidableEq

namespace DataRace

/-! ## The access map -/

/-- `access.setdefault(member, []).append(a)`. -/
def record (access : Dict String (List MemberAccess)) (member : String) (a : MemberAccess) :
    Dict String (List MemberAccess) :=
  access.set member ((access.get? member).getD [] ++ [a])

/-- The accesses one handler makes: its reads, then its writes. -/
def recordHandler (access : Dict String (List MemberAccess)) (handler : String) (kind : SyncKind)
    (threads : Finset Origin) (reads writes locks : List String) :
    Dict String (List MemberAccess) :=
  (reads.map (·, false) ++ writes.map (·, true)).foldl (fun access touch =>
    record access touch.1 ⟨handler, kind, threads, touch.2, locks.insertionSort (· ≤ ·)⟩) access

/-- The threads `_access_map` attributes to a handler: an async handler
runs on the instance's own thread, any other on its caller's. -/
def handlerThreads (g : TopologyGraph) (name : String) (port : PortName) (kind : SyncKind) :
    OriginM (Finset Origin) :=
  if kind = .async then pure {.thread name} else g.threadsReaching ⟨name, port⟩

/-- The loop of `_access_map`. -/
def accessLoop (g : TopologyGraph) (name : String) (info : InstanceInfo) :
    List (PortName × String × SyncKind) → Dict String (List MemberAccess) →
      OriginM (Dict String (List MemberAccess))
  | [], access => pure access
  | (port, entry, kind) :: rest, access =>
    let reads := g.flow.facet info.componentName entry "fields_read"
    let writes := g.flow.facet info.componentName entry "fields_written"
    let locks := g.flow.facet info.componentName entry "locks_taken"
    if reads = [] ∧ writes = [] then accessLoop g name info rest access
    else do
      let threads ← handlerThreads g name port kind
      accessLoop g name info rest
        (recordHandler access (port.str ++ ":" ++ entry) kind threads reads writes locks)

/-- `_access_map`. -/
def accessMap (g : TopologyGraph) (name : String) (info : InstanceInfo) :
    OriginM (Dict String (List MemberAccess)) :=
  accessLoop g name info (Check.handlers info) ∅

/-! ## The verdict -/

/-- `common` of `_is_synchronized`: the locks every access holds. -/
def commonLocks : List MemberAccess → Finset String
  | [] => ∅
  | a :: rest => rest.foldl (fun common e => common ∩ e.locks.toFinset) a.locks.toFinset

/-- `_is_synchronized`. -/
def isSynchronized (accesses : List MemberAccess) : Bool :=
  if commonLocks accesses ≠ ∅ then true
  else if accesses.all fun e => e.kind = .guarded ∨ e.locks ≠ [] then true
  else accesses.all fun e => e.kind = .async

/-- `set().union(*(e.threads for e in accesses))`. -/
def allThreads (accesses : List MemberAccess) : Finset Origin :=
  accesses.foldr (fun e threads => e.threads ∪ threads) ∅

/-- `_summarize`. -/
def summarize (unguarded : List MemberAccess) : Severity × String :=
  let writing := unguarded.filter MemberAccess.writes
  let writers := (writing.map MemberAccess.handler).insertionSort (· ≤ ·)
  let writerThreads := allThreads writing
  if writers = [] then
    (.info, "is written only under synchronization, but read outside it")
  else if 2 ≤ writing.length ∧ 2 ≤ writerThreads.card then
    (.warning, "is written from " ++ toString writerThreads.card ++
      " threads with no synchronization, by " ++ ", ".intercalate writers)
  else
    (.info, "is written without synchronization by " ++ ", ".intercalate writers ++
      " while other threads read it")

/-- The member's name without its class. -/
def shortName (member : String) : String :=
  String.ofList (Text.afterColons member.toList)

/-- One line of the evidence. -/
def accessLine (e : MemberAccess) : String :=
  "  " ++ e.handler ++ " [" ++ e.kind.str ++ "] " ++ (if e.writes then "writes" else "reads") ++
    " - " ++ UnconnectedPortInvoked.originsText e.threads

/-- `classify`. -/
def classify (name member : String) (accesses : List MemberAccess) : Option RawFinding :=
  let threads := allThreads accesses
  if accesses = [] then none
  else if threads.card < 2 ∧ Origin.unknown ∉ threads then none
  else if !accesses.any MemberAccess.writes then none
  else if isSynchronized accesses then none
  else
    let unguarded := accesses.filter fun e => e.kind ≠ .guarded ∧ e.locks = []
    let (severity, summary) := summarize unguarded
    let short := shortName member
    let reach :=
      if threads = {Origin.unknown} then "is reached from a caller no thread origin accounts for"
      else "is reached by " ++ toString threads.card ++ " threads"
    some ⟨severity, name ++ "." ++ short,
      short ++ " " ++ reach ++ " and " ++ summary ++ ". Concurrent access to it is unsynchronized.",
      ("threads reaching this member: " ++ UnconnectedPortInvoked.originsText threads) ::
        (accesses.insertionSort fun a b => a.handler ≤ b.handler).map accessLine⟩

/-- `DataRace.run`. -/
def body (g : TopologyGraph) : OriginM (List RawFinding) :=
  OriginM.collect (fun e => do
    let access ← accessMap g e.1 e.2
    pure ((access.entries.insertionSort fun a b => a.1 ≤ b.1).filterMap fun m =>
      classify e.1 m.1 m.2)) (Check.sortedInstances g)

theorem accessLoop_queries (g : TopologyGraph) (name : String) (info : InstanceInfo) :
    ∀ hs access, QueriesOnly g (accessLoop g name info hs access) := by
  intro hs
  induction hs with
  | nil => exact fun access => .pure access
  | cons h hs ih =>
    intro access
    obtain ⟨port, entry, kind⟩ := h
    unfold accessLoop
    dsimp only
    split
    · exact ih access
    · refine .bind ?_ fun threads => ih _
      unfold handlerThreads
      split
      · exact .pure _
      · exact .threadsReaching _

theorem body_queries (g : TopologyGraph) : QueriesOnly g (body g) := by
  refine QueriesOnly.collect (fun e => ?_) _
  exact .bind (accessLoop_queries g e.1 e.2 (Check.handlers e.2) ∅) fun _ => .pure _

end DataRace

/-- `DataRace`: members reached by more than one thread, with at least one
writer. -/
def dataRace : Check where
  id := "data-race"
  requiresFlow := true
  body := DataRace.body
  queries := DataRace.body_queries

namespace DataRace

/-! ## When a verdict of no race is sound -/

/-- Something keeps the two accesses apart: a lock both hold, the
component's mutex, or the instance's queue. -/
def Excluded (a b : MemberAccess) : Prop :=
  (∃ lock, lock ∈ a.locks ∧ lock ∈ b.locks) ∨ (a.kind = .guarded ∧ b.kind = .guarded)
    ∨ (a.kind = .async ∧ b.kind = .async)

/-- The two accesses can run on two different threads. -/
def OnTwoThreads (a b : MemberAccess) : Prop :=
  ∃ t₁ ∈ a.threads, ∃ t₂ ∈ b.threads, t₁ ≠ t₂

/-- Two accesses, possibly the same one, race. -/
def Races (accesses : List MemberAccess) : Prop :=
  ∃ a ∈ accesses, ∃ b ∈ accesses, (a.writes ∨ b.writes) ∧ OnTwoThreads a b ∧ ¬ Excluded a b

theorem mem_allThreads {accesses : List MemberAccess} {t : Origin} :
    t ∈ allThreads accesses ↔ ∃ e ∈ accesses, t ∈ e.threads := by
  induction accesses with
  | nil => simp [allThreads]
  | cons e rest ih =>
    have hcons : allThreads (e :: rest) = e.threads ∪ allThreads rest := rfl
    rw [hcons, Finset.mem_union, ih, List.exists_mem_cons_iff]

theorem mem_commonLocks {accesses : List MemberAccess} (hne : accesses ≠ []) {lock : String} :
    lock ∈ commonLocks accesses ↔ ∀ e ∈ accesses, lock ∈ e.locks := by
  have hfold : ∀ (rest : List MemberAccess) (common : Finset String),
      lock ∈ rest.foldl (fun common e => common ∩ e.locks.toFinset) common
        ↔ lock ∈ common ∧ ∀ e ∈ rest, lock ∈ e.locks := by
    intro rest
    induction rest with
    | nil => simp
    | cons e rest ih =>
      intro common
      rw [List.foldl_cons, ih, Finset.mem_inter, List.mem_toFinset, List.forall_mem_cons, and_assoc]
  cases accesses with
  | nil => exact absurd rfl hne
  | cons a rest =>
    rw [commonLocks, hfold, List.mem_toFinset, List.forall_mem_cons]

/-- One thread cannot race with itself. -/
theorem not_races_of_card_lt {accesses : List MemberAccess} (h : (allThreads accesses).card < 2) :
    ¬ Races accesses := by
  rintro ⟨a, ha, b, hb, _, ⟨t₁, ht₁, t₂, ht₂, hne⟩, _⟩
  have hone := Finset.card_le_one.mp (Nat.lt_succ_iff.mp h)
  exact hne (hone t₁ (mem_allThreads.mpr ⟨a, ha, ht₁⟩) t₂ (mem_allThreads.mpr ⟨b, hb, ht₂⟩))

/-- Shared reads are safe. -/
theorem not_races_of_no_write {accesses : List MemberAccess}
    (h : accesses.any MemberAccess.writes = false) : ¬ Races accesses := by
  rintro ⟨a, ha, b, hb, hw, _, _⟩
  rw [List.any_eq_false] at h
  rcases hw with hw | hw
  · exact h a ha hw
  · exact h b hb hw

/-- A lock every access holds keeps them apart. -/
theorem not_races_of_commonLocks {accesses : List MemberAccess} (h : commonLocks accesses ≠ ∅) :
    ¬ Races accesses := by
  rintro ⟨a, ha, b, hb, _, _, hexcl⟩
  obtain ⟨lock, hlock⟩ := Finset.nonempty_iff_ne_empty.mpr h
  have hall := (mem_commonLocks (List.ne_nil_of_mem ha)).mp hlock
  exact hexcl (.inl ⟨lock, hall a ha, hall b hb⟩)

/-- The queue keeps async accesses apart. -/
theorem not_races_of_all_async {accesses : List MemberAccess}
    (h : ∀ e ∈ accesses, e.kind = .async) : ¬ Races accesses := by
  rintro ⟨a, ha, b, hb, _, _, hexcl⟩
  exact hexcl (.inr (.inr ⟨h a ha, h b hb⟩))

/-- Every access is guarded or holds some lock, be it its own. -/
def EachGuardedOrLocked (accesses : List MemberAccess) : Prop :=
  ∀ e ∈ accesses, e.kind = .guarded ∨ e.locks ≠ []

theorem isSynchronized_iff {accesses : List MemberAccess} :
    isSynchronized accesses = true ↔ commonLocks accesses ≠ ∅ ∨ EachGuardedOrLocked accesses
      ∨ ∀ e ∈ accesses, e.kind = .async := by
  unfold isSynchronized EachGuardedOrLocked
  by_cases hcommon : commonLocks accesses = ∅
  · by_cases hall : ∀ e ∈ accesses, e.kind = .guarded ∨ e.locks ≠ []
    · simp [hcommon]
    · simp [hcommon, hall]
  · simp [hcommon]

theorem classify_eq_none_iff {name member : String} {accesses : List MemberAccess} :
    classify name member accesses = none ↔ accesses = []
      ∨ ((allThreads accesses).card < 2 ∧ Origin.unknown ∉ allThreads accesses)
      ∨ accesses.any MemberAccess.writes = false ∨ isSynchronized accesses = true := by
  unfold classify
  by_cases hnil : accesses = []
  · simp [hnil]
  · cases hw : accesses.any MemberAccess.writes with
    | false => simp [hnil]
    | true =>
      cases hs : isSynchronized accesses with
      | true => simp [hnil]
      | false => simp [hnil]

/-- **A verdict of no race is sound exactly when accesses that are each
guarded or locked do not race.** Every other way to that verdict is sound. -/
theorem classify_sound_iff (name member : String) (accesses : List MemberAccess) :
    (classify name member accesses = none → ¬ Races accesses)
      ↔ (EachGuardedOrLocked accesses → ¬ Races accesses) := by
  constructor
  · intro hsound heach
    have hsync := isSynchronized_iff.mpr (.inr (.inl heach))
    exact hsound (classify_eq_none_iff.mpr (.inr (.inr (.inr hsync))))
  · intro heach hnone
    rcases classify_eq_none_iff.mp hnone with rfl | hone | hread | hsync
    · rintro ⟨a, ha, _⟩
      simp at ha
    · exact not_races_of_card_lt hone.1
    · exact not_races_of_no_write hread
    · rcases isSynchronized_iff.mp hsync with hcommon | hall | hasync
      · exact not_races_of_commonLocks hcommon
      · exact heach hall
      · exact not_races_of_all_async hasync

/-- Two sync handlers on two threads, each writing under a lock of its own,
pass as synchronized. -/
theorem classify_unsound_two_locks :
    classify "inst" "C::m_v"
        [⟨"a:a", .sync, {.thread "x"}, true, ["m_lockA"]⟩,
          ⟨"b:b", .sync, {.thread "y"}, true, ["m_lockB"]⟩] = none
      ∧ Races [⟨"a:a", .sync, {.thread "x"}, true, ["m_lockA"]⟩,
          ⟨"b:b", .sync, {.thread "y"}, true, ["m_lockB"]⟩] := by
  refine ⟨by decide, _, List.mem_cons_self .., _, List.mem_cons_of_mem _ (List.mem_cons_self ..),
    .inl rfl, ⟨_, Finset.mem_singleton_self _, _, Finset.mem_singleton_self _, by decide⟩, ?_⟩
  rintro (⟨lock, ha, hb⟩ | ⟨ha, _⟩ | ⟨ha, _⟩)
  · obtain rfl := List.mem_singleton.mp ha
    revert hb
    decide
  · revert ha
    decide
  · revert ha
    decide

end DataRace

end FprimeTopologyAnalysis
