/-
FprimeTopologyAnalysis.Checks — the check registry (`checks.py`): what a
check is, the helpers several checks share, and `run_checks`.

A check reads the graph's tables and asks the graph which threads reach a
port. The second is the only way it meets mutable state, so a `Check`
carries that as a field: its body is built from the graph's own queries
(`QueriesOnly`). `run_checks` catches what a check raises and goes on with
the next one, on the graph as the raising check left it.
-/
import FprimeTopologyAnalysis.ThreadOrigins

namespace FprimeTopologyAnalysis

open Library

/-! ## Queries on the mutable graph -/

/-- Programs that touch the graph's mutable state only through its queries. -/
inductive QueriesOnly (g : TopologyGraph) : {α : Type} → OriginM α → Prop
  | ofExcept {α : Type} (r : Except UnresolvedFlowError α) :
      QueriesOnly g (OriginM.ofExcept r)
  | ensure : QueriesOnly g g.ensureThreadOrigins
  | threadsReaching (port : PortKey) : QueriesOnly g (g.threadsReaching port)
  | originCallPath (origin : Origin) (entry : PortKey) :
      QueriesOnly g (g.originCallPath origin entry)
  | bind {α β : Type} {m : OriginM α} {f : α → OriginM β} :
      QueriesOnly g m → (∀ a, QueriesOnly g (f a)) → QueriesOnly g (m >>= f)

theorem QueriesOnly.pure {g : TopologyGraph} {α : Type} (a : α) :
    QueriesOnly g (Pure.pure a : OriginM α) :=
  .ofExcept (.ok a)

theorem QueriesOnly.collect {g : TopologyGraph} {α β : Type} {body : α → OriginM (List β)}
    (hbody : ∀ x, QueriesOnly g (body x)) : ∀ xs, QueriesOnly g (OriginM.collect body xs)
  | [] => .pure []
  | x :: xs => (hbody x).bind fun _ => (QueriesOnly.collect hbody xs).bind fun _ => .pure _

/-- `m` answers alike on every coherent state, and keeps it coherent. -/
def Steady (g : TopologyGraph) {α : Type} (m : OriginM α) : Prop :=
  ∀ s, Coherent g s → (m s).1 = (m .fresh).1 ∧ Coherent g (m s).2

section Steady

variable {g : TopologyGraph} {α β : Type} {complete : OriginState}

theorem Steady.bind {m : OriginM α} {f : α → OriginM β} (hm : Steady g m)
    (hf : ∀ a, Steady g (f a)) : Steady g (m >>= f) := by
  intro s hs
  obtain ⟨heq, hco⟩ := hm s hs
  obtain ⟨_, hco'⟩ := hm .fresh (.inl rfl)
  rw [OriginM.bind_apply, OriginM.bind_apply]
  cases hrun : m s with
  | mk r s₁ =>
    cases hrun' : m .fresh with
    | mk r' s₂ =>
      rw [hrun, hrun'] at heq
      rw [hrun] at hco
      rw [hrun'] at hco'
      obtain rfl : r = r' := heq
      cases r with
      | error e => exact ⟨rfl, hco⟩
      | ok a =>
        obtain ⟨h₁, hend⟩ := hf a s₁ hco
        obtain ⟨h₂, _⟩ := hf a s₂ hco'
        exact ⟨h₁.trans h₂.symm, hend⟩

theorem steady_ofExcept (r : Except UnresolvedFlowError α) :
    Steady g (OriginM.ofExcept r) :=
  fun _ hs => ⟨rfl, hs⟩

theorem steady_ensure (hc : g.CompleteOrigins complete) : Steady g g.ensureThreadOrigins := by
  intro s hs
  rw [hs.ensure hc, Coherent.ensure hc (.inl rfl)]
  exact ⟨rfl, .inr hc⟩

/-- What follows `ensure_thread_origins` reads the complete table. -/
theorem steady_ensure_bind (hc : g.CompleteOrigins complete) {m : OriginM α}
    (hm : (m complete).2 = complete) :
    Steady g (g.ensureThreadOrigins >>= fun _ => m) := by
  intro s hs
  rw [OriginM.bind_apply, OriginM.bind_apply, hs.ensure hc, Coherent.ensure hc (.inl rfl)]
  exact ⟨rfl, .inr (by rw [hm]; exact hc)⟩

theorem steady_originCallPath (hc : g.CompleteOrigins complete) (origin : Origin)
    (entry : PortKey) : Steady g (g.originCallPath origin entry) := by
  refine steady_ensure_bind hc ?_
  by_cases hseeds : g.originSeeds origin = []
  · rw [if_pos hseeds]
    rfl
  · rw [if_neg hseeds]
    by_cases hentry : entry ∈ (g.originSeeds origin).map Prod.fst
    · rw [if_pos hentry]
      rfl
    · rw [if_neg hentry]
      rfl

/-- Every program of queries is steady once the propagation ends well. -/
theorem QueriesOnly.steady (hc : g.CompleteOrigins complete) {m : OriginM α}
    (hm : QueriesOnly g m) : Steady g m := by
  induction hm with
  | ofExcept r => exact steady_ofExcept r
  | ensure => exact steady_ensure hc
  | threadsReaching port => exact steady_ensure_bind hc rfl
  | originCallPath origin entry => exact steady_originCallPath hc origin entry
  | bind _ _ ihm ihf => exact ihm.bind ihf

end Steady

section Answers

variable {g : TopologyGraph} {α β : Type} {complete : OriginState}

/-- `m` answers `a` on every coherent state, and keeps it coherent. -/
def Answers (g : TopologyGraph) (m : OriginM α) (a : α) : Prop :=
  ∀ s, Coherent g s → ∃ s', m s = (.ok a, s') ∧ Coherent g s'

theorem Answers.pure (a : α) : Answers g (Pure.pure a : OriginM α) a :=
  fun s hs => ⟨s, rfl, hs⟩

theorem Answers.threadsReaching (hc : g.CompleteOrigins complete) (port : PortKey) :
    Answers g (g.threadsReaching port) (complete.reachingAt port) :=
  fun _ hs => ⟨complete, hs.threadsReaching hc port, .inr hc⟩

theorem Answers.bind {m : OriginM α} {f : α → OriginM β} {a : α} {b : β} (hm : Answers g m a)
    (hf : Answers g (f a) b) : Answers g (m >>= f) b := by
  intro s hs
  obtain ⟨s₁, hrun, hs₁⟩ := hm s hs
  rw [OriginM.bind_apply, hrun]
  exact hf s₁ hs₁

theorem Answers.collect {body : α → OriginM (List β)} {f : α → List β}
    (hbody : ∀ x, Answers g (body x) (f x)) :
    ∀ xs, Answers g (OriginM.collect body xs) (xs.flatMap f)
  | [] => .pure []
  | x :: xs => (hbody x).bind <| (Answers.collect hbody xs).bind <| .pure _

/-- A sequence ends well when both its parts do. -/
theorem OriginM.bind_eq_ok {m : OriginM α} {f : α → OriginM β} {s s' : OriginState} {b : β}
    (h : (m >>= f) s = (.ok b, s')) : ∃ a s₁, m s = (.ok a, s₁) ∧ f a s₁ = (.ok b, s') := by
  rw [OriginM.bind_apply] at h
  cases hrun : m s with
  | mk r s₁ =>
    rw [hrun] at h
    cases r with
    | error e => cases h
    | ok a => exact ⟨a, s₁, rfl, h⟩

/-- A propagation that ends well from a coherent state leaves the complete table. -/
theorem Coherent.of_ensure {s s' : OriginState} (hs : Coherent g s)
    (h : g.ensureThreadOrigins s = (.ok (), s')) : g.CompleteOrigins s' := by
  rcases hs with rfl | hs
  · exact h
  · rw [TopologyGraph.ensure_complete hs] at h
    cases h
    exact hs

/-- What queries answer on a coherent state leaves it coherent. -/
theorem QueriesOnly.coherent {m : OriginM α} (hm : QueriesOnly g m) :
    ∀ {s s' : OriginState} {a : α}, Coherent g s → m s = (.ok a, s') → Coherent g s' := by
  induction hm with
  | ofExcept r =>
    intro s s' a hs h
    obtain rfl : s = s' := congrArg Prod.snd h
    exact hs
  | ensure => exact fun hs h => .inr (hs.of_ensure h)
  | threadsReaching port => exact fun hs h => .inr (hs.of_threadsReaching h).1
  | originCallPath origin entry =>
    intro s s' a hs h
    obtain ⟨_, _, hens, _⟩ := OriginM.bind_eq_ok h
    have hkeep := (steady_originCallPath (hs.of_ensure hens) origin entry s hs).2
    rw [h] at hkeep
    exact hkeep
  | bind _ _ ihm ihf =>
    intro s s' a hs h
    obtain ⟨_, s₁, hrun, hrest⟩ := OriginM.bind_eq_ok h
    exact ihf _ (ihm hs hrun) hrest

/-- What a loop of queries collects comes from one of its rounds. -/
theorem Coherent.mem_collect {body : α → OriginM (List β)} (hbody : ∀ x, QueriesOnly g (body x))
    {y : β} : ∀ {xs : List α} {s s' : OriginState} {ys : List β}, Coherent g s →
      OriginM.collect body xs s = (.ok ys, s') → y ∈ ys →
      ∃ x ∈ xs, ∃ s₁ s₂ zs, Coherent g s₁ ∧ body x s₁ = (.ok zs, s₂) ∧ y ∈ zs
  | [], s, s', ys, _, h, hy => by
      obtain rfl : [] = ys := Except.ok.inj (congrArg Prod.fst h)
      simp at hy
  | x :: xs, s, s', ys, hs, h, hy => by
      obtain ⟨head, s₁, hhead, h⟩ := OriginM.bind_eq_ok h
      obtain ⟨rest, s₂, hrest, h⟩ := OriginM.bind_eq_ok h
      obtain rfl : head ++ rest = ys := Except.ok.inj (congrArg Prod.fst h)
      rcases List.mem_append.mp hy with hy | hy
      · exact ⟨x, List.mem_cons_self .., s, s₁, head, hs, hhead, hy⟩
      · obtain ⟨x', hx', hround⟩ :=
          Coherent.mem_collect hbody ((hbody x).coherent hs hhead) hrest hy
        exact ⟨x', List.mem_cons_of_mem _ hx', hround⟩

end Answers

/-! ## Checks -/

/-- `Finding`: one result from one check. -/
structure CheckFinding where
  check : String
  severity : Severity
  subject : String
  message : String
  evidence : List String
  deriving DecidableEq

/-- What a check's body produces, before `self.finding` stamps its id. -/
structure RawFinding where
  severity : Severity
  subject : String
  message : String
  evidence : List String
  deriving DecidableEq

/-- `Check`: an analysis over the graph. -/
structure Check where
  id : String
  requiresFlow : Bool
  body : TopologyGraph → OriginM (List RawFinding)
  queries : ∀ g, QueriesOnly g (body g)

namespace Check

/-- `finding`: a finding stamped with the check's id. -/
def finding (check : Check) (raw : RawFinding) : CheckFinding :=
  ⟨check.id, raw.severity, raw.subject, raw.message, raw.evidence⟩

/-- `run`. -/
def run (check : Check) (g : TopologyGraph) : OriginM (List CheckFinding) := do
  let raws ← check.body g
  pure (raws.map check.finding)

/-- `handlers`: every (port, flow entry, kind) triple on an instance. -/
def handlers (info : InstanceInfo) : List (PortName × String × SyncKind) :=
  (info.inputPorts.entries.insertionSort fun a b => a.1 ≤ b.1).flatMap fun port =>
    (SyncKind.sorted port.2).flatMap fun kind =>
      (info.flowEntries port.1 kind).map fun entry => (port.1, entry, kind)

/-- `sorted(graph.instances.items())`. -/
def sortedInstances (g : TopologyGraph) : List (String × InstanceInfo) :=
  g.instances.entries.insertionSort fun a b => a.1 ≤ b.1

theorem mem_sortedInstances {g : TopologyGraph} {e : String × InstanceInfo} :
    e ∈ sortedInstances g ↔ g.instances.get? e.1 = some e.2 := by
  rw [sortedInstances, List.mem_insertionSort, Dict.get?_eq_some_iff]

/-- `ports_of_type`: every port of one FPP port type, input or output. -/
def portsOfType (info : InstanceInfo) (typeName : String) : List PortName :=
  ((info.portTypes.entries.filter fun e => e.2 = typeName).map Prod.fst).insertionSort (· ≤ ·)

/-- `outputs_of_type`. -/
def outputsOfType (info : InstanceInfo) (typeName : String) : List PortName :=
  (portsOfType info typeName).filter fun port => port ∈ info.outputPorts

/-- `inputs_of_type`. -/
def inputsOfType (info : InstanceInfo) (typeName : String) : List PortName :=
  (portsOfType info typeName).filter fun port => port ∈ info.inputPorts.keys

/-- `reached_by_type`: the instances wired to this one's output ports of a
given port type. -/
def reachedByType (g : TopologyGraph) (inst : String) (info : InstanceInfo) (typeName : String) :
    Finset String :=
  ((outputsOfType info typeName).flatMap fun port =>
    (g.destinations inst port).map PortKey.inst).toFinset

/-- The handlers of an instance. -/
theorem mem_handlers {info : InstanceInfo} {port : PortName} {entry : String} {kind : SyncKind} :
    (port, entry, kind) ∈ handlers info
      ↔ kind ∈ info.kindsOf port ∧ entry ∈ info.flowEntries port kind := by
  simp only [handlers, List.mem_flatMap, List.mem_insertionSort, List.mem_map,
    SyncKind.mem_sorted, InstanceInfo.kindsOf]
  constructor
  · rintro ⟨⟨p, kinds⟩, hport, k, hk, e, he, heq⟩
    cases heq
    rw [(info.inputPorts.get?_eq_some_iff _ _).mpr hport]
    exact ⟨hk, he⟩
  · rintro ⟨hk, he⟩
    cases hget : info.inputPorts.get? port with
    | none => rw [hget] at hk; simp at hk
    | some kinds =>
      rw [hget] at hk
      exact ⟨(port, kinds), (info.inputPorts.get?_eq_some_iff _ _).mp hget, kind, hk, entry, he,
        rfl⟩

theorem run_steady (check : Check) {g : TopologyGraph} {complete : OriginState}
    (hc : g.CompleteOrigins complete) : Steady g (check.run g) :=
  ((check.queries g).steady hc).bind fun _ => (QueriesOnly.pure _).steady hc

/-- Every finding of a check carries its id. -/
theorem check_of_mem_run (check : Check) {g : TopologyGraph} {s s' : OriginState}
    {findings : List CheckFinding} (h : check.run g s = (.ok findings, s')) :
    ∀ f ∈ findings, f.check = check.id := by
  unfold run at h
  rw [OriginM.bind_apply] at h
  cases hbody : check.body g s with
  | mk r s₁ =>
    rw [hbody] at h
    cases r with
    | error e => simp at h
    | ok raws =>
      simp only [OriginM.pure_apply, Prod.mk.injEq, Except.ok.injEq] at h
      intro f hf
      rw [← h.1] at hf
      obtain ⟨raw, _, rfl⟩ := List.mem_map.mp hf
      rfl

end Check

/-! ## `run_checks` -/

/-- A note about a check that was skipped. -/
structure SkipNote where
  check : String
  reason : String
  deriving DecidableEq

/-- The note as reported. -/
def SkipNote.str (note : SkipNote) : String := note.check ++ ": " ++ note.reason

/-- What `run_checks` returns. -/
structure CheckReport where
  findings : List CheckFinding
  skipped : List SkipNote
  deriving DecidableEq

/-- `if selected and check.id not in selected`, the other way round. No
selection selects everything. -/
def selects (selected : Finset String) (check : Check) : Bool :=
  selected = ∅ ∨ check.id ∈ selected

/-- One round of the loop of `run_checks`. -/
def runCheck (g : TopologyGraph) (check : Check) (s : OriginState) : CheckReport × OriginState :=
  if check.requiresFlow ∧ g.flow.isEmpty ∧ g.flow.strict then
    (⟨[], [⟨check.id, "needs C++ call-flow analysis " ++
      "(or --permissive to accept the over-approximation)"⟩]⟩, s)
  else
    match check.run g s with
    | (.ok findings, s') => (⟨findings, []⟩, s')
    | (.error e, s') =>
      (⟨[], [⟨check.id, "failed with UnresolvedFlowError: " ++ e.str⟩]⟩, s')

/-- `run_checks`, over the checks of a registry in order. -/
def runChecks (g : TopologyGraph) (selected : Finset String) :
    List Check → OriginState → CheckReport × OriginState
  | [], s => (⟨[], []⟩, s)
  | check :: checks, s =>
    if selects selected check then
      let r := runCheck g check s
      let rest := runChecks g selected checks r.2
      (⟨r.1.findings ++ rest.1.findings, r.1.skipped ++ rest.1.skipped⟩, rest.2)
    else runChecks g selected checks s

/-- What a report says about one check. -/
def CheckReport.about (report : CheckReport) (id : String) : CheckReport :=
  ⟨report.findings.filter fun f => f.check = id, report.skipped.filter fun n => n.check = id⟩

section Reports

variable {g : TopologyGraph} {complete : OriginState}

/-- One round reports on its own check only. -/
theorem runCheck_about (check : Check) (s : OriginState) (id : String) :
    (runCheck g check s).1.about id
      = if check.id = id then (runCheck g check s).1 else ⟨[], []⟩ := by
  unfold runCheck
  split
  · by_cases hid : check.id = id
    · simp [CheckReport.about, hid]
    · simp [CheckReport.about, hid]
  · cases hrun : check.run g s with
    | mk r s' =>
      cases r with
      | error e =>
        by_cases hid : check.id = id
        · simp [CheckReport.about, hid]
        · simp [CheckReport.about, hid]
      | ok findings =>
        have hstamp := check.check_of_mem_run hrun
        by_cases hid : check.id = id
        · have hall : findings.filter (fun f => f.check = id) = findings :=
            List.filter_eq_self.mpr fun f hf => decide_eq_true ((hstamp f hf).trans hid)
          simp [CheckReport.about, hid, hall]
        · have hnone : findings.filter (fun f => f.check = id) = [] :=
            List.filter_eq_nil_iff.mpr fun f hf hf' =>
              hid ((hstamp f hf).symm.trans (of_decide_eq_true hf'))
          simp [CheckReport.about, hid, hnone]

/-- One round reports alike on every coherent state. -/
theorem runCheck_steady (hc : g.CompleteOrigins complete) (check : Check) {s : OriginState}
    (hs : Coherent g s) :
    (runCheck g check s).1 = (runCheck g check .fresh).1 ∧ Coherent g (runCheck g check s).2 := by
  unfold runCheck
  split
  · exact ⟨rfl, hs⟩
  · obtain ⟨heq, hco⟩ := check.run_steady hc s hs
    cases hrun : check.run g s with
    | mk r s₁ =>
      cases hrun' : check.run g .fresh with
      | mk r' s₂ =>
        rw [hrun, hrun'] at heq
        rw [hrun] at hco
        obtain rfl : r = r' := heq
        cases r with
        | error e => exact ⟨rfl, hco⟩
        | ok findings => exact ⟨rfl, hco⟩

theorem runChecks_about_none (selected : Finset String) (id : String) :
    ∀ (checks : List Check) (s : OriginState),
      (∀ check ∈ checks, selects selected check → check.id ≠ id) →
      (runChecks g selected checks s).1.about id = ⟨[], []⟩
  | [], _, _ => rfl
  | check :: checks, s, hne => by
      have hrest := fun s => runChecks_about_none selected id checks s
        fun c hc => hne c (List.mem_cons_of_mem _ hc)
      rw [runChecks]
      split
      · rename_i hsel
        have hhead := runCheck_about (g := g) check s id
        rw [if_neg (hne check (List.mem_cons_self ..) hsel)] at hhead
        have htail := hrest (runCheck g check s).2
        simp only [CheckReport.about, CheckReport.mk.injEq] at hhead htail ⊢
        simp only [List.filter_append, hhead, htail, List.append_nil, and_self]
      · exact hrest s

/-- On a graph whose propagation ends well, what is reported about a
selected check is what it reports on the fresh graph. -/
theorem runChecks_about (hc : g.CompleteOrigins complete) (selected : Finset String)
    {c : Check} (hsel : selects selected c) :
    ∀ (checks : List Check) (s : OriginState), Coherent g s → c ∈ checks →
      (checks.map Check.id).Nodup →
      (runChecks g selected checks s).1.about c.id = (runCheck g c .fresh).1
  | [], _, _, hmem, _ => by simp at hmem
  | check :: checks, s, hs, hmem, hnd => by
      rw [List.map_cons, List.nodup_cons] at hnd
      rw [runChecks]
      rcases List.mem_cons.mp hmem with rfl | hmem
      · -- the check itself; nothing after it has its id
        rw [if_pos hsel]
        have hhead := runCheck_about (g := g) c s c.id
        rw [if_pos rfl, (runCheck_steady hc c hs).1] at hhead
        have htail := runChecks_about_none (g := g) selected c.id checks (runCheck g c s).2
          fun c' hc' _ hid => hnd.1 (hid ▸ List.mem_map_of_mem hc')
        simp only [CheckReport.about, CheckReport.mk.injEq] at htail
        simp only [CheckReport.about] at hhead
        simp only [CheckReport.about, List.filter_append, htail, List.append_nil]
        rw [← hhead, (runCheck_steady hc c hs).1]
      · have hne : check.id ≠ c.id := fun hid => hnd.1 (hid ▸ List.mem_map_of_mem hmem)
        split
        · have hhead := runCheck_about (g := g) check s c.id
          rw [if_neg hne] at hhead
          have htail := runChecks_about hc selected hsel checks (runCheck g check s).2
            (runCheck_steady hc check hs).2 hmem hnd.2
          simp only [CheckReport.about, CheckReport.mk.injEq] at hhead
          rw [← htail]
          simp only [CheckReport.about, List.filter_append, hhead, List.nil_append]
        · exact runChecks_about hc selected hsel checks s hs hmem hnd.2

end Reports

/-! ## Unconnected output port actually invoked -/

namespace UnconnectedPortInvoked

/-- `", ".join(sorted(origins))`. -/
def originsText (origins : Finset Origin) : String :=
  ", ".intercalate (sortNames (origins.image Origin.str))

/-- The output ports of an instance nothing is wired to. -/
def unconnected (g : TopologyGraph) (name : String) (info : InstanceInfo) : List PortName :=
  info.outputPorts.filter fun port => g.destinations name port = []

/-- `sorted((invoked & unconnected) - guarded)`. -/
def offending (invoked unconnected : List PortName) (guarded : List String) : List PortName :=
  ((invoked.dedup.filter fun port => port ∈ unconnected).filter fun port =>
    port.str ∉ guarded).insertionSort (· ≤ ·)

/-- The body of the inner loop: one handler of one instance. -/
def handlerFindings (g : TopologyGraph) (name : String) (info : InstanceInfo)
    (h : PortName × String × SyncKind) : OriginM (List RawFinding) := do
  let invoked ← OriginM.ofExcept (g.outputsFor info h.2.1)
  let bad := offending invoked (unconnected g name info)
    (g.flow.facet info.componentName h.2.1 "guarded_ports")
  if bad = [] then pure []
  else do
    let reachable ← g.threadsReaching ⟨name, h.1⟩
    pure [⟨.warning, name ++ "." ++ h.1.str,
      "Handler " ++ h.2.1 ++ " can reach " ++ ", ".intercalate (bad.map PortName.str) ++
        ", which nothing is connected to and which it does not guard with isConnected. " ++
        "Calling an unconnected output port asserts. This is call-graph reachability, not " ++
        "proof of execution: a data-condition guard - a flag only set when the feature is " ++
        "wired - is a common and legitimate reason for the path never to be taken.",
      ["reachable from: " ++ originsText reachable]⟩]

/-- `UnconnectedPortInvoked.run`. -/
def body (g : TopologyGraph) : OriginM (List RawFinding) :=
  OriginM.collect (fun e =>
    if unconnected g e.1 e.2 = [] then pure []
    else OriginM.collect (handlerFindings g e.1 e.2) (Check.handlers e.2))
    (Check.sortedInstances g)

theorem body_queries (g : TopologyGraph) : QueriesOnly g (body g) := by
  refine QueriesOnly.collect (fun e => ?_) _
  split
  · exact .pure []
  · refine QueriesOnly.collect (fun h => ?_) _
    refine .bind (.ofExcept _) fun invoked => ?_
    dsimp only
    split
    · exact .pure []
    · exact .bind (.threadsReaching _) fun reachable => .pure _

end UnconnectedPortInvoked

/-- `UnconnectedPortInvoked`: a handler invokes an output port nothing is
wired to. -/
def unconnectedPortInvoked : Check where
  id := "unconnected-port-invoked"
  requiresFlow := true
  body := UnconnectedPortInvoked.body
  queries := UnconnectedPortInvoked.body_queries

end FprimeTopologyAnalysis
