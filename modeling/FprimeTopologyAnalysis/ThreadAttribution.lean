/-
FprimeTopologyAnalysis.ThreadAttribution — the threads the two analyses
attribute to a handler (`_entry_threads` of `guarded_port_analyzer.py`,
`_access_map` of `checks.py`), and when they really run it.

The origin table is keyed by port while dispatch is per command. A port
that carries ASYNC commands next to sync or guarded ones is labelled with
its instance's own thread, because the queue services the ASYNC ones, and
the label is then read back for the others as well. `attribution_genuine_iff`
says that this is the only way a thread is attributed without a chain of
its own (`ThreadChain`).
-/
import FprimeTopologyAnalysis.DataRace

namespace FprimeTopologyAnalysis

open Library TopologyGraph

variable {g : TopologyGraph}

/-! ## What the access map records -/

namespace DataRace

/-- The threads `_access_map` attributes under a kind, once they can be
told. -/
def HandlerThreads (g : TopologyGraph) (name : String) (port : PortName) (kind : SyncKind)
    (ts : Finset Origin) : Prop :=
  if kind = .async then ts = {.thread name}
  else ∃ complete, g.CompleteOrigins complete ∧ ts = complete.reachingAt ⟨name, port⟩

/-- Handler `entry` reads or writes `member`, under the locks it takes. -/
def Touches (g : TopologyGraph) (info : InstanceInfo) (entry member : String) (writes : Bool)
    (locks : List String) : Prop :=
  member ∈ g.flow.facet info.componentName entry (if writes then "fields_written" else "fields_read")
    ∧ locks = (g.flow.facet info.componentName entry "locks_taken").insertionSort (· ≤ ·)

theorem mem_record {access : Dict String (List MemberAccess)} {member m : String}
    {a b : MemberAccess} :
    b ∈ ((record access member a).get? m).getD []
      ↔ b ∈ (access.get? m).getD [] ∨ (m = member ∧ b = a) := by
  unfold record
  rw [Dict.get?_set]
  by_cases h : m = member
  · simp [h]
  · simp [h]

theorem mem_recordHandler {access : Dict String (List MemberAccess)} {handler m : String}
    {kind : SyncKind} {threads : Finset Origin} {reads writes locks : List String}
    {b : MemberAccess} :
    b ∈ ((recordHandler access handler kind threads reads writes locks).get? m).getD []
      ↔ b ∈ (access.get? m).getD [] ∨ ∃ w, m ∈ (if w then writes else reads)
        ∧ b = ⟨handler, kind, threads, w, locks.insertionSort (· ≤ ·)⟩ := by
  have hgen : ∀ (touches : List (String × Bool)) (access : Dict String (List MemberAccess)),
      b ∈ ((touches.foldl (fun access touch => record access touch.1
          ⟨handler, kind, threads, touch.2, locks.insertionSort (· ≤ ·)⟩) access).get? m).getD []
        ↔ b ∈ (access.get? m).getD [] ∨ ∃ w, (m, w) ∈ touches
          ∧ b = ⟨handler, kind, threads, w, locks.insertionSort (· ≤ ·)⟩ := by
    intro touches
    induction touches with
    | nil => simp
    | cons touch touches ih =>
      intro access
      obtain ⟨member, w⟩ := touch
      rw [List.foldl_cons, ih, mem_record]
      constructor
      · rintro ((hold | ⟨rfl, hb⟩) | ⟨w', hw', hb⟩)
        · exact .inl hold
        · exact .inr ⟨w, List.mem_cons_self .., hb⟩
        · exact .inr ⟨w', List.mem_cons_of_mem _ hw', hb⟩
      · rintro (hold | ⟨w', hw', hb⟩)
        · exact .inl (.inl hold)
        · rcases List.mem_cons.mp hw' with heq | hw'
          · cases heq
            exact .inl (.inr ⟨rfl, hb⟩)
          · exact .inr ⟨w', hw', hb⟩
  unfold recordHandler
  rw [hgen]
  have htouch : ∀ w, (m, w) ∈ reads.map (·, false) ++ writes.map (·, true)
      ↔ m ∈ (if w then writes else reads) := by
    intro w
    cases w <;> simp
  simp only [htouch]

theorem handlerThreads_ok {name : String} {port : PortName} {kind : SyncKind} {s s' : OriginState}
    {ts : Finset Origin} (hs : Coherent g s)
    (h : handlerThreads g name port kind s = (.ok ts, s')) :
    Coherent g s' ∧ HandlerThreads g name port kind ts := by
  unfold handlerThreads at h
  unfold HandlerThreads
  by_cases hk : kind = .async
  · rw [if_pos hk] at h ⊢
    cases h
    exact ⟨hs, rfl⟩
  · rw [if_neg hk] at h ⊢
    obtain ⟨hc, rfl⟩ := hs.of_threadsReaching h
    exact ⟨.inr hc, s', hc, rfl⟩

theorem HandlerThreads.unique {name : String} {port : PortName} {kind : SyncKind}
    {ts ts' : Finset Origin} (h : HandlerThreads g name port kind ts)
    (h' : HandlerThreads g name port kind ts') : ts = ts' := by
  unfold HandlerThreads at h h'
  split at h
  · rw [if_pos (by assumption)] at h'
    rw [h, h']
  · rw [if_neg (by assumption)] at h'
    obtain ⟨c, hc, rfl⟩ := h
    obtain ⟨c', hc', rfl⟩ := h'
    have heq : c = c' := by simpa using hc.symm.trans hc'
    rw [heq]

/-- What the loop has recorded when it ends well. -/
theorem accessLoop_records {name : String} {info : InstanceInfo} :
    ∀ (hs : List (PortName × String × SyncKind)) (access r : Dict String (List MemberAccess))
      (s s' : OriginState), Coherent g s → accessLoop g name info hs access s = (.ok r, s') →
      ∀ m b, b ∈ (r.get? m).getD [] ↔ b ∈ (access.get? m).getD []
        ∨ ∃ port entry kind, (port, entry, kind) ∈ hs ∧ ∃ ts w locks,
          HandlerThreads g name port kind ts ∧ Touches g info entry m w locks
            ∧ b = ⟨port.str ++ ":" ++ entry, kind, ts, w, locks⟩ := by
  intro hs
  induction hs with
  | nil =>
    intro access r s s' _ hrun m b
    cases hrun
    simp
  | cons h hs ih =>
    intro access r s s' hco hrun m b
    obtain ⟨port, entry, kind⟩ := h
    simp only [accessLoop] at hrun
    split at hrun
    · -- a handler without accesses is passed over
      rename_i hnone
      rw [ih access r s s' hco hrun m b]
      refine or_congr_right ?_
      constructor
      · rintro ⟨port', entry', kind', hmem, hrest⟩
        exact ⟨port', entry', kind', List.mem_cons_of_mem _ hmem, hrest⟩
      · rintro ⟨port', entry', kind', hmem, ts, w, locks, hts, htouch, hb⟩
        rcases List.mem_cons.mp hmem with heq | hmem
        · cases heq
          have hin := htouch.1
          cases w
          · simp [hnone.1] at hin
          · simp [hnone.2] at hin
        · exact ⟨port', entry', kind', hmem, ts, w, locks, hts, htouch, hb⟩
    · rw [OriginM.bind_apply] at hrun
      cases hthreads : handlerThreads g name port kind s with
      | mk res t =>
        rw [hthreads] at hrun
        cases res with
        | error e => cases hrun
        | ok threads =>
          obtain ⟨hco', hts⟩ := handlerThreads_ok hco hthreads
          rw [ih _ r t s' hco' hrun m b, mem_recordHandler]
          constructor
          · rintro ((hold | ⟨w, hw, hb⟩) | ⟨port', entry', kind', hmem, hrest⟩)
            · exact .inl hold
            · refine .inr ⟨port, entry, kind, List.mem_cons_self .., threads, w, _, hts, ⟨?_, rfl⟩, hb⟩
              cases w <;> exact hw
            · exact .inr ⟨port', entry', kind', List.mem_cons_of_mem _ hmem, hrest⟩
          · rintro (hold | ⟨port', entry', kind', hmem, ts, w, locks, hts', ⟨hin, rfl⟩, hb⟩)
            · exact .inl (.inl hold)
            · rcases List.mem_cons.mp hmem with heq | hmem
              · cases heq
                obtain rfl := hts.unique hts'
                refine .inl (.inr ⟨w, ?_, hb⟩)
                cases w <;> exact hin
              · exact .inr ⟨port', entry', kind', hmem, ts, w, _, hts', ⟨hin, rfl⟩, hb⟩

/-- Where the origins can be computed the loop ends well. -/
theorem accessLoop_ok {complete : OriginState} (hc : g.CompleteOrigins complete) (name : String)
    (info : InstanceInfo) : ∀ (hs : List (PortName × String × SyncKind))
      (access : Dict String (List MemberAccess)) (s : OriginState), Coherent g s →
      ∃ r s', accessLoop g name info hs access s = (.ok r, s') := by
  intro hs
  induction hs with
  | nil => exact fun access s _ => ⟨access, s, rfl⟩
  | cons h hs ih =>
    intro access s hco
    obtain ⟨port, entry, kind⟩ := h
    simp only [accessLoop]
    split
    · exact ih access s hco
    · rw [OriginM.bind_apply]
      have hthreads : ∃ ts s', handlerThreads g name port kind s = (.ok ts, s') := by
        unfold handlerThreads
        split
        · exact ⟨_, s, rfl⟩
        · exact ⟨_, _, hco.threadsReaching hc _⟩
      obtain ⟨ts, s', hthreads⟩ := hthreads
      rw [hthreads]
      exact ih _ s' (handlerThreads_ok hco hthreads).1

/-- A record names the port it was entered at, and the handler. -/
theorem handler_label_inj {p q : PortName} {e f : String}
    (h : p.str ++ ":" ++ e = q.str ++ ":" ++ f) : p = q ∧ e = f := by
  have hgen : ∀ a b c d : List Char, ':' ∉ a → ':' ∉ b → a ++ ':' :: c = b ++ ':' :: d →
      a = b ∧ c = d := by
    intro a
    induction a with
    | nil =>
      intro b c d _ hb h
      cases b with
      | nil => simpa using h
      | cons y b =>
        rw [List.nil_append, List.cons_append, List.cons.injEq] at h
        exact absurd (h.1 ▸ List.mem_cons_self ..) hb
    | cons x a ih =>
      intro b c d ha hb h
      cases b with
      | nil =>
        rw [List.nil_append, List.cons_append, List.cons.injEq] at h
        exact absurd (h.1 ▸ List.mem_cons_self ..) ha
      | cons y b =>
        rw [List.cons_append, List.cons_append, List.cons.injEq] at h
        obtain ⟨hab, hcd⟩ := ih b c d (fun hm => ha (List.mem_cons_of_mem _ hm))
          (fun hm => hb (List.mem_cons_of_mem _ hm)) h.2
        exact ⟨by rw [h.1, hab], hcd⟩
  have hchars := congrArg String.toList h
  simp only [String.toList_append, List.append_assoc] at hchars
  obtain ⟨hpq, hef⟩ := hgen _ _ _ _ (p.property.notMem (by decide))
    (q.property.notMem (by decide)) hchars
  exact ⟨PortName.str_injective (String.toList_injective hpq), String.toList_injective hef⟩

end DataRace

/-! ## Attribution -/

/-- `_entry_threads` attributes origin `o` to the guarded entry. -/
def GuardedAttributes (g : TopologyGraph) (entry : PortKey) (o : Origin) : Prop :=
  ∃ ts s, g.threadsReaching entry .fresh = (.ok ts, s) ∧ o ∈ ts

/-- `_access_map` attributes origin `o` to a handler entered at `p` under
`kind`. -/
def AccessAttributes (g : TopologyGraph) (p : PortKey) (kind : SyncKind) (o : Origin) : Prop :=
  ∃ info access s entry member a, g.instances.get? p.inst = some info
    ∧ DataRace.accessMap g p.inst info .fresh = (.ok access, s)
    ∧ entry ∈ info.flowEntries p.port kind ∧ a ∈ (access.get? member).getD []
    ∧ a.handler = p.port.str ++ ":" ++ entry ∧ a.kind = kind ∧ o ∈ a.threads

/-- One of the two analyses attributes `o` to port `p` under `kind`. -/
def Attributed (g : TopologyGraph) (p : PortKey) (kind : SyncKind) (o : Origin) : Prop :=
  (kind = .guarded ∧ GuardedAttributes g p o) ∨ AccessAttributes g p kind o

/-- One of the two analyses asks for the threads of port `p` under `kind`:
it is a guarded entry, or a handler behind it touches a member. -/
def AsksFor (g : TopologyGraph) (p : PortKey) (kind : SyncKind) : Prop :=
  kind = .guarded ∨ ∃ info entry member w locks, g.instances.get? p.inst = some info
    ∧ entry ∈ info.flowEntries p.port kind ∧ DataRace.Touches g info entry member w locks

/-- A chain of sync and guarded hops from a handler behind an async input
of `x`, whose last hop enters `p` under exactly `kind`. -/
def ThreadChain (g : TopologyGraph) (x : String) (p : PortKey) (kind : SyncKind) : Prop :=
  ∃ h hop, g.Runs (.thread x) h ∧ g.HopOut h hop ∧ hop.kind = kind ∧ hop.dest = p

section Attribution

variable {p : PortKey} {kind : SyncKind} {info : InstanceInfo}

/-- A port with several kinds is entered under each of them. -/
theorem threadChain_iff (hget : g.instances.get? p.inst = some info)
    (hk : kind ∈ info.kindsOf p.port) (hsync : kind ≠ .async) {x : String} :
    ThreadChain g x p kind ↔ ∃ h, g.Runs (.thread x) h ∧ g.CallsPort h p := by
  constructor
  · rintro ⟨h, hop, hruns, hhop, rfl, hdest⟩
    exact ⟨h, hruns, hop, hhop, hsync, hdest⟩
  · rintro ⟨h, hruns, hop, hhop, _, rfl⟩
    obtain rfl : hop.destInfo = info := Option.some.inj (hhop.dest_spec.1.symm.trans hget)
    exact ⟨h, { hop with kind := kind }, hruns, hhop.withKind hk, rfl, rfl⟩

theorem guardedAttributes_iff {o : Origin} :
    GuardedAttributes g p o ↔ (∃ complete, g.CompleteOrigins complete) ∧ g.Reaching o p := by
  constructor
  · rintro ⟨ts, s, hrun, ho⟩
    obtain ⟨hc, rfl⟩ := Coherent.of_threadsReaching (.inl rfl) hrun
    exact ⟨⟨s, hc⟩, (mem_reachingAt_iff hc).mp ho⟩
  · rintro ⟨⟨complete, hc⟩, ho⟩
    exact ⟨_, complete, Coherent.threadsReaching hc (.inl rfl) p, (mem_reachingAt_iff hc).mpr ho⟩

theorem accessAttributes_iff (hget : g.instances.get? p.inst = some info)
    (hk : kind ∈ info.kindsOf p.port) (hsync : kind ≠ .async) {o : Origin} :
    AccessAttributes g p kind o ↔ (∃ complete, g.CompleteOrigins complete) ∧ g.Reaching o p
      ∧ ∃ entry member w locks, entry ∈ info.flowEntries p.port kind
        ∧ DataRace.Touches g info entry member w locks := by
  constructor
  · rintro ⟨info', access, s, entry, member, a, hget', hrun, hentry, ha, hlabel, hkind, ho⟩
    obtain rfl : info' = info := Option.some.inj (hget'.symm.trans hget)
    rcases (DataRace.accessLoop_records _ _ _ _ _ (.inl rfl) hrun member a).mp ha with hold |
      ⟨port, entry', kind', _, ts, w, locks, hts, htouch, rfl⟩
    · simp at hold
    · obtain ⟨rfl, rfl⟩ := DataRace.handler_label_inj hlabel
      obtain rfl : kind' = kind := hkind
      unfold DataRace.HandlerThreads at hts
      rw [if_neg hsync] at hts
      obtain ⟨complete, hc, rfl⟩ := hts
      exact ⟨⟨complete, hc⟩, (mem_reachingAt_iff hc).mp ho, entry', member, w, locks, hentry, htouch⟩
  · rintro ⟨⟨complete, hc⟩, ho, entry, member, w, locks, hentry, htouch⟩
    obtain ⟨access, s, hrun⟩ := DataRace.accessLoop_ok hc p.inst info (Check.handlers info) ∅ .fresh
      (.inl rfl)
    refine ⟨info, access, s, entry, member,
      ⟨p.port.str ++ ":" ++ entry, kind, complete.reachingAt p, w, locks⟩, hget, hrun, hentry, ?_,
      rfl, rfl, (mem_reachingAt_iff hc).mpr ho⟩
    refine (DataRace.accessLoop_records _ _ _ _ _ (.inl rfl) hrun member _).mpr (.inr ?_)
    refine ⟨p.port, entry, kind, Check.mem_handlers.mpr ⟨hk, hentry⟩, _, w, locks, ?_, htouch, rfl⟩
    unfold DataRace.HandlerThreads
    rw [if_neg hsync]
    exact ⟨complete, hc, rfl⟩

/-- What is attributed: every origin that reaches the port, under any kind. -/
theorem attributed_iff (hget : g.instances.get? p.inst = some info)
    (hk : kind ∈ info.kindsOf p.port) (hsync : kind ≠ .async) {o : Origin} :
    Attributed g p kind o
      ↔ (∃ complete, g.CompleteOrigins complete) ∧ AsksFor g p kind ∧ g.Reaching o p := by
  unfold Attributed AsksFor
  rw [guardedAttributes_iff, accessAttributes_iff hget hk hsync]
  constructor
  · rintro (⟨hguarded, hc, ho⟩ | ⟨hc, ho, entry, member, w, locks, htouch⟩)
    · exact ⟨hc, .inl hguarded, ho⟩
    · exact ⟨hc, .inr ⟨info, entry, member, w, locks, hget, htouch⟩, ho⟩
  · rintro ⟨hc, hguarded | ⟨info', entry, member, w, locks, hget', htouch⟩, ho⟩
    · exact .inl ⟨hguarded, hc, ho⟩
    · obtain rfl : info' = info := Option.some.inj (hget'.symm.trans hget)
      exact .inr ⟨hc, ho, entry, member, w, locks, htouch⟩

end Attribution

/-- **When attributed threads are genuine.** Every thread attributed to port
`p` under a sync or guarded kind has a chain that enters `p` under that
kind, iff the instance's own thread has one whenever the port also carries
async commands that this thread services (and its threads are asked for,
and can be told). -/
theorem attribution_genuine_iff (g : TopologyGraph) (p : PortKey) (kind : SyncKind)
    (info : InstanceInfo) (hget : g.instances.get? p.inst = some info)
    (hk : kind ∈ info.kindsOf p.port) (hsync : kind ≠ .async) :
    (∀ x, Attributed g p kind (.thread x) → ThreadChain g x p kind)
      ↔ (info.isOwnThread ∧ .async ∈ info.kindsOf p.port ∧ AsksFor g p kind
          ∧ (∀ o h, g.Runs o h → g.Resolves h) → ThreadChain g p.inst p kind) := by
  simp only [attributed_iff hget hk hsync, ← completeOrigins_iff_runs_resolve]
  constructor
  · rintro hall ⟨hown, hasync, hasks, hc⟩
    exact hall p.inst ⟨hc, hasks, .inl (.inl ⟨.async, info, hget, hasync, .inl ⟨rfl, hown, rfl⟩⟩)⟩
  · rintro hcond x ⟨hc, hasks, hreach⟩
    rcases hreach with (⟨_, info', hget', hk', hseed⟩ | hchain) | ⟨hunknown, _⟩
    · -- a seed at the port itself: the instance's own thread
      obtain rfl : info' = info := Option.some.inj (hget'.symm.trans hget)
      rcases hseed with ⟨rfl, hown, heq⟩ | ⟨_, _, heq⟩
      · obtain rfl : x = p.inst := Origin.thread.inj heq
        exact hcond ⟨hown, hk', hasks, hc⟩
      · cases heq
    · exact (threadChain_iff hget hk hsync).mpr hchain
    · cases hunknown

/-! ## A mixed command port -/

/-- A component with one async and one guarded command. -/
def mixedInstance : InstanceInfo where
  kind := .active
  componentName := "C"
  inputPorts := .ofList [(.cmdIn, {.async, .guarded})]
  cmdPort := some .cmdIn
  commandKinds := .ofList [("RUN", {.async}), ("SET", {.guarded})]

/-- A dispatcher whose own thread sends the commands. -/
def mixedTopology : TopologyGraph where
  instances := .ofList [("c", mixedInstance), ("d",
    { kind := .active
      componentName := "D"
      inputPorts := .ofList [(.seqIn, {.async})]
      outputPorts := [.cmdOut] })]
  connections := .ofList
    [(⟨"d", .cmdOut⟩, [⟨"c", .cmdIn⟩])]
  flow := .permissive ∅

/-- The command port of `c`. -/
def mixedPort : PortKey := ⟨"c", .cmdIn⟩

theorem mixed_no_hop (entry : String) (hop : OutwardHop) :
    ¬ mixedTopology.HopOut ("c", entry) hop := by
  rintro ⟨hops, hok, hmem⟩
  have hget : mixedTopology.instances.get? "c" = some mixedInstance := by decide
  have houts : mixedTopology.outputsFor mixedInstance entry = .ok [] :=
    PortFlowMap.outputsFor_permissive_empty ..
  have hnone : mixedTopology.outwardHops "c" entry = .ok [] := by
    unfold outwardHops
    rw [hget]
    dsimp only
    rw [houts]
    rfl
  rw [hnone] at hok
  cases hok
  simp at hmem

/-- The thread of `c` is attributed to its guarded command, which only the
dispatcher's thread runs. -/
theorem attribution_phantom_mixed :
    mixedTopology.instances.get? mixedPort.inst = some mixedInstance
      ∧ .guarded ∈ mixedInstance.kindsOf mixedPort.port
      ∧ Attributed mixedTopology mixedPort .guarded (.thread "c")
      ∧ ¬ ThreadChain mixedTopology "c" mixedPort .guarded := by
  refine ⟨by decide, by decide, .inl ⟨rfl, _, _, Prod.ext (by decide) rfl, by decide⟩, ?_⟩
  rintro ⟨h, hop, ⟨port, kind, ⟨_, _, _, hseed⟩, h₀, ⟨_, _, _, entry, _, rfl⟩, hreach⟩, hhop, _⟩
  have hinst : port.inst = "c" := by
    rcases hseed with ⟨_, _, heq⟩ | ⟨_, _, heq⟩
    · exact (Origin.thread.inj heq).symm
    · cases heq
  rw [hinst] at hreach
  rcases hreach.cases_head with rfl | ⟨_, ⟨hop', hhop', _⟩, _⟩
  · exact mixed_no_hop _ _ hhop
  · exact mixed_no_hop _ _ hhop'

/-- The command port of `c` does not meet the condition. -/
theorem attribution_genuine_iff_mixed :
    (∀ x, Attributed mixedTopology mixedPort .guarded (.thread x) →
      ThreadChain mixedTopology x mixedPort .guarded)
      ↔ (mixedInstance.isOwnThread ∧ .async ∈ mixedInstance.kindsOf mixedPort.port
          ∧ AsksFor mixedTopology mixedPort .guarded
          ∧ (∀ o h, mixedTopology.Runs o h → mixedTopology.Resolves h) →
          ThreadChain mixedTopology mixedPort.inst mixedPort .guarded) :=
  attribution_genuine_iff mixedTopology mixedPort .guarded mixedInstance (by decide) (by decide)
    (by decide)

end FprimeTopologyAnalysis
