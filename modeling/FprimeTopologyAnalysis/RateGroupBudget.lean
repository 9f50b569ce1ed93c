/-
FprimeTopologyAnalysis.RateGroupBudget — the rate group check of
`checks.py`.

A member of a rate group runs inside one cycle with all it calls, so the
group contends for every mutex that the sync closure of its members takes.
The check asks less: whether a member's instance has guarded inputs, and
whether another thread reaches the member's own port. So it overlooks a
mutex that is shared through another port of the instance or taken further
down the closure, and it raises an alarm about an unguarded port of an
instance with guarded ones. It is exact where the wiring has none of these
(`warns_exact`).
-/
import FprimeTopologyAnalysis.ChainWalk
import FprimeTopologyAnalysis.Checks

namespace FprimeTopologyAnalysis

open Library

namespace RateGroupBudget

/-! ## The check -/

/-- `SCHED_TYPE`. -/
def schedType : String := "Svc.Sched"

/-- `CYCLE_TYPE`. -/
def cycleType : String := "Svc.Cycle"

/-- The ports the rate group `name` calls: `members`. -/
def members (g : TopologyGraph) (name : String) (info : InstanceInfo) : List PortKey :=
  (Check.outputsOfType info schedType).flatMap fun port => g.destinations name port

/-- The line of a member whose port these origins reach. -/
def contentionLines (name : String) (dest : PortKey) (reaching : Finset Origin) : List String :=
  let others := reaching.erase (.thread name)
  if others = ∅ then []
  else [dest.str ++ " takes " ++ dest.inst ++ "'s mutex, also reached from " ++
    UnconnectedPortInvoked.originsText others]

/-- The lines `contended` gets for one member. -/
def contention (g : TopologyGraph) (name : String) (dest : PortKey) : OriginM (List String) :=
  match g.instances.get? dest.inst with
  | none => pure []
  | some destInfo =>
    if .async ∈ destInfo.kindsOf dest.port then pure []
    else if destInfo.guardedEntries = [] then pure []
    else do
      let reaching ← g.threadsReaching dest
      pure (contentionLines name dest reaching)

/-- The finding on a rate group. -/
def groupFinding (name : String) (members : List PortKey) (contended : List String) : RawFinding :=
  ⟨if contended = [] then .info else .warning, name,
    "Rate group with " ++ toString members.length ++ " member call(s), all running to " ++
      "completion on this thread each cycle" ++
      (if contended = [] then "."
      else ". " ++ toString contended.length ++ " member(s) take a mutex another thread also " ++
        "takes, which can stall the cycle."),
    (if contended = [] then members.map PortKey.str else contended).take 10⟩

/-- The instance has `Svc.Sched` outputs and a `Svc.Cycle` input. -/
def IsRateGroup (info : InstanceInfo) : Prop :=
  Check.outputsOfType info schedType ≠ [] ∧ Check.inputsOfType info cycleType ≠ []

instance (info : InstanceInfo) : Decidable (IsRateGroup info) :=
  inferInstanceAs (Decidable (_ ∧ _))

/-- The round of `run` for one instance. -/
def instanceFindings (g : TopologyGraph) (e : String × InstanceInfo) : OriginM (List RawFinding) :=
  if IsRateGroup e.2 then do
    let contended ← OriginM.collect (contention g e.1) (members g e.1 e.2)
    pure [groupFinding e.1 (members g e.1 e.2) contended]
  else pure []

/-- `RateGroupBudget.run`. -/
def body (g : TopologyGraph) : OriginM (List RawFinding) :=
  OriginM.collect (instanceFindings g) (Check.sortedInstances g)

theorem contention_queries (g : TopologyGraph) (name : String) (dest : PortKey) :
    QueriesOnly g (contention g name dest) := by
  unfold contention
  cases g.instances.get? dest.inst with
  | none => exact .pure []
  | some destInfo =>
    dsimp only
    split
    · exact .pure []
    · split
      · exact .pure []
      · exact .bind (.threadsReaching dest) fun reaching => .pure _

theorem instanceFindings_queries (g : TopologyGraph) (e : String × InstanceInfo) :
    QueriesOnly g (instanceFindings g e) := by
  unfold instanceFindings
  split
  · exact .bind (.collect (contention_queries g e.1) _) fun _ => .pure _
  · exact .pure []

end RateGroupBudget

/-- `RateGroupBudget`: a rate group member's sync closure runs inside one
cycle. -/
def rateGroup : Check where
  id := "rate-group"
  requiresFlow := true
  body := RateGroupBudget.body
  queries g := .collect (RateGroupBudget.instanceFindings_queries g) _

namespace RateGroupBudget

/-! ## What the check is about -/

/-- A call of the rate group `name` to the input `dest` under a kind that is
not async. -/
def MemberCall (g : TopologyGraph) (name : String) (info : InstanceInfo) (dest : PortKey)
    (kind : SyncKind) : Prop :=
  dest ∈ members g name info ∧ kind ≠ .async
    ∧ ∃ destInfo, g.instances.get? dest.inst = some destInfo ∧ kind ∈ destInfo.kindsOf dest.port

/-- The sync closure of a member call takes the mutex of `x`: the call itself
is guarded, or a guarded hop further on is. -/
def TakesMutex (g : TopologyGraph) (dest : PortKey) (kind : SyncKind) (x : String) : Prop :=
  (kind = .guarded ∧ dest.inst = x)
    ∨ ∃ h hop, g.EnteredFrom dest kind h ∧ g.HopOut h hop ∧ hop.kind = .guarded ∧ hop.dest.inst = x

/-- An origin other than the thread of `name` reaches a guarded input of `x`. -/
def SharedWith (g : TopologyGraph) (name x : String) : Prop :=
  ∃ info port o, g.instances.get? x = some info ∧ .guarded ∈ info.kindsOf port
    ∧ o ≠ .thread name ∧ g.Reaching o ⟨x, port⟩

/-- The sync closure of the rate group contends a mutex. -/
def Contends (g : TopologyGraph) (name : String) (info : InstanceInfo) : Prop :=
  ∃ dest kind x, MemberCall g name info dest kind ∧ TakesMutex g dest kind x ∧ SharedWith g name x

/-- What the check takes for contended: the port is not async, its instance has
guarded inputs, and an origin other than the thread of `name` reaches the
port itself. -/
def PortContended (g : TopologyGraph) (name : String) (dest : PortKey) : Prop :=
  ∃ destInfo, g.instances.get? dest.inst = some destInfo
    ∧ .async ∉ destInfo.kindsOf dest.port ∧ destInfo.guardedEntries ≠ []
    ∧ ∃ o, o ≠ .thread name ∧ g.Reaching o dest

/-- Every handler that some origin runs resolves. -/
def RunsResolve (g : TopologyGraph) : Prop := ∀ o h, g.Runs o h → g.Resolves h

/-- The check reports a warning about the rate group. -/
def Warns (g : TopologyGraph) (name : String) : Prop :=
  ∃ findings s, rateGroup.run g .fresh = (.ok findings, s)
    ∧ ∃ f ∈ findings, f.subject = name ∧ f.severity = .warning

/-! ## When the check warns -/

section Warns

variable {g : TopologyGraph} {name : String} {info : InstanceInfo} {dest : PortKey}
  {complete : OriginState}

theorem contentionLines_ne_nil {reaching : Finset Origin} :
    contentionLines name dest reaching ≠ [] ↔ ∃ o, o ≠ .thread name ∧ o ∈ reaching := by
  have hothers : reaching.erase (.thread name) = ∅ ↔ ¬ ∃ o, o ≠ .thread name ∧ o ∈ reaching := by
    simp only [Finset.eq_empty_iff_forall_notMem, Finset.mem_erase, not_exists]
  unfold contentionLines
  by_cases hempty : reaching.erase (.thread name) = ∅
  · simpa [hempty] using not_exists.mp (hothers.mp hempty)
  · simpa [hempty] using not_not.mp fun hno => hempty (hothers.mpr hno)

/-- On a complete table a member has lines when its port is contended. -/
theorem contention_answers (hc : g.CompleteOrigins complete) (name : String) (dest : PortKey) :
    ∃ lines, Answers g (contention g name dest) lines
      ∧ (lines ≠ [] ↔ PortContended g name dest) := by
  unfold contention PortContended
  cases hget : g.instances.get? dest.inst with
  | none => exact ⟨[], .pure _, by simp⟩
  | some destInfo =>
    dsimp only
    by_cases hasync : .async ∈ destInfo.kindsOf dest.port
    · rw [if_pos hasync]
      exact ⟨[], .pure _, by simp [hasync]⟩
    · rw [if_neg hasync]
      by_cases hguarded : destInfo.guardedEntries = []
      · rw [if_pos hguarded]
        exact ⟨[], .pure _, by simp [hguarded]⟩
      · rw [if_neg hguarded]
        refine ⟨_, (Answers.threadsReaching hc dest).bind (.pure _), ?_⟩
        rw [contentionLines_ne_nil]
        simp [hasync, hguarded, TopologyGraph.mem_reachingAt_iff hc]

/-- A member that gets a line has asked for its threads, and its port is
contended. -/
theorem contention_lines {s s' : OriginState} {lines : List String} (hs : Coherent g s)
    (h : contention g name dest s = (.ok lines, s')) (hne : lines ≠ []) :
    RunsResolve g ∧ PortContended g name dest := by
  have hcomplete : ∃ complete, g.CompleteOrigins complete := by
    have hnone : (pure [] : OriginM (List String)) s ≠ (.ok lines, s') :=
      fun hnil => hne (Except.ok.inj (congrArg Prod.fst hnil)).symm
    unfold contention at h
    cases hget : g.instances.get? dest.inst with
    | none =>
      rw [hget] at h
      exact absurd h hnone
    | some destInfo =>
      rw [hget] at h
      dsimp only at h
      split at h
      · exact absurd h hnone
      · split at h
        · exact absurd h hnone
        · obtain ⟨_, s₁, hreach, _⟩ := OriginM.bind_eq_ok h
          exact ⟨s₁, (hs.of_threadsReaching hreach).1⟩
  refine ⟨TopologyGraph.completeOrigins_iff_runs_resolve.mp hcomplete, ?_⟩
  obtain ⟨complete, hc⟩ := hcomplete
  obtain ⟨lines', hanswers, hiff⟩ := contention_answers hc name dest
  obtain ⟨_, hrun, _⟩ := hanswers s hs
  obtain rfl : lines = lines' := Except.ok.inj (congrArg Prod.fst (h.symm.trans hrun))
  exact hiff.mp hne

/-- A warning has a contended port behind it. -/
theorem Warns.contended (hinfo : g.instances.get? name = some info) (h : Warns g name) :
    RunsResolve g ∧ ∃ dest ∈ members g name info, PortContended g name dest := by
  obtain ⟨findings, s, hrun, f, hf, hname, hwarning⟩ := h
  obtain ⟨raws, s₁, hbody, hpure⟩ := OriginM.bind_eq_ok hrun
  obtain rfl : raws.map rateGroup.finding = findings := Except.ok.inj (congrArg Prod.fst hpure)
  obtain ⟨raw, hraw, rfl⟩ := List.mem_map.mp hf
  obtain ⟨e, he, s₂, s₃, zs, hs₂, hround, hmem⟩ :=
    Coherent.mem_collect (instanceFindings_queries g) (.inl rfl) hbody hraw
  unfold instanceFindings at hround
  split at hround
  · obtain ⟨contended, s₄, hcollect, hpure⟩ := OriginM.bind_eq_ok hround
    obtain rfl : [groupFinding e.1 (members g e.1 e.2) contended] = zs :=
      Except.ok.inj (congrArg Prod.fst hpure)
    obtain rfl := List.mem_singleton.mp hmem
    obtain rfl : e.1 = name := hname
    obtain rfl := Option.some.inj ((Check.mem_sortedInstances.mp he).symm.trans hinfo)
    have hne : contended ≠ [] := by
      rintro rfl
      cases hwarning
    obtain ⟨line, hline⟩ := List.exists_mem_of_ne_nil contended hne
    obtain ⟨dest, hdest, s₅, s₆, lines, hs₅, hcontention, hline⟩ :=
      Coherent.mem_collect (contention_queries g e.1) hs₂ hcollect hline
    obtain ⟨hresolve, hcontended⟩ :=
      contention_lines hs₅ hcontention (List.ne_nil_of_mem hline)
    exact ⟨hresolve, dest, hdest, hcontended⟩
  · obtain rfl : [] = zs := Except.ok.inj (congrArg Prod.fst hround)
    simp at hmem

/-- Where the origins can be computed, a contended port of a member is warned
about. -/
theorem PortContended.warns (hinfo : g.instances.get? name = some info)
    (hgroup : IsRateGroup info) (hresolve : RunsResolve g)
    (hdest : dest ∈ members g name info) (hcontended : PortContended g name dest) :
    Warns g name := by
  obtain ⟨complete, hc⟩ := TopologyGraph.completeOrigins_iff_runs_resolve.mpr hresolve
  choose lines hlines hiff using contention_answers hc
  let reported (e : String × InstanceInfo) : List RawFinding :=
    if IsRateGroup e.2 then
      [groupFinding e.1 (members g e.1 e.2) ((members g e.1 e.2).flatMap (lines e.1))]
    else []
  have hround : ∀ e, Answers g (instanceFindings g e) (reported e) := by
    intro e
    show Answers g (if IsRateGroup e.2 then _ else _) (if IsRateGroup e.2 then _ else _)
    split
    · exact (Answers.collect (hlines e.1) _).bind (.pure _)
    · exact .pure _
  have hall : Answers g (rateGroup.run g)
      (((Check.sortedInstances g).flatMap reported).map rateGroup.finding) :=
    (Answers.collect hround _).bind (.pure _)
  obtain ⟨s, hrun, _⟩ := hall .fresh (.inl rfl)
  have hne : (members g name info).flatMap (lines name) ≠ [] := by
    rw [ne_eq, List.flatMap_eq_nil_iff]
    exact fun hall => (hiff name dest).mpr hcontended (hall dest hdest)
  have hmem : groupFinding name (members g name info) ((members g name info).flatMap (lines name))
      ∈ (Check.sortedInstances g).flatMap reported := by
    refine List.mem_flatMap.mpr ⟨(name, info), Check.mem_sortedInstances.mpr hinfo, ?_⟩
    show _ ∈ if IsRateGroup info then _ else _
    rw [if_pos hgroup]
    exact List.mem_singleton_self _
  exact ⟨_, s, hrun, _, List.mem_map_of_mem hmem, rfl, if_neg hne⟩

/-- **When the check warns**: every handler that some origin runs resolves, and
the port of some member is contended. -/
theorem warns_iff (hinfo : g.instances.get? name = some info) (hgroup : IsRateGroup info) :
    Warns g name ↔ RunsResolve g ∧ ∃ dest ∈ members g name info, PortContended g name dest :=
  ⟨Warns.contended hinfo, fun ⟨hresolve, _, hdest, hcontended⟩ =>
    hcontended.warns hinfo hgroup hresolve hdest⟩

/-- A contended guarded port is in the closure, by the member's own call. -/
theorem PortContended.contends {destInfo : InstanceInfo} (h : PortContended g name dest)
    (hdest : dest ∈ members g name info) (hget : g.instances.get? dest.inst = some destInfo)
    (hguarded : .guarded ∈ destInfo.kindsOf dest.port) : Contends g name info := by
  obtain ⟨_, _, _, _, o, ho, hreach⟩ := h
  exact ⟨dest, .guarded, dest.inst, ⟨hdest, by decide, destInfo, hget, hguarded⟩,
    .inl ⟨rfl, rfl⟩, destInfo, dest.port, o, hget, hguarded, ho, hreach⟩

end Warns

/-- The rate group calls a guarded port. -/
def CallsGuarded (g : TopologyGraph) (name : String) (info : InstanceInfo) (dest : PortKey) : Prop :=
  dest ∈ members g name info ∧ ∃ destInfo, g.instances.get? dest.inst = some destInfo
    ∧ .async ∉ destInfo.kindsOf dest.port ∧ .guarded ∈ destInfo.kindsOf dest.port

/-- The mutexes of the rate group are those of the guarded ports it calls
itself. -/
structure AtMembers (g : TopologyGraph) (name : String) (info : InstanceInfo) : Prop where
  resolve : RunsResolve g
  /-- What the closure takes, a call of the rate group takes. -/
  closure : ∀ dest kind x, MemberCall g name info dest kind → TakesMutex g dest kind x →
    ∃ member, CallsGuarded g name info member ∧ member.inst = x
  /-- On an instance with guarded ports the rate group calls no unguarded one. -/
  guarded : ∀ dest ∈ members g name info, ∀ destInfo, g.instances.get? dest.inst = some destInfo →
    .async ∉ destInfo.kindsOf dest.port → destInfo.guardedEntries ≠ [] →
    .guarded ∈ destInfo.kindsOf dest.port
  /-- Who else comes to the instance by a guarded port, comes by one of these. -/
  shared : ∀ member destInfo port o, CallsGuarded g name info member →
    g.instances.get? member.inst = some destInfo → .guarded ∈ destInfo.kindsOf port →
    o ≠ .thread name → g.Reaching o ⟨member.inst, port⟩ →
    ∃ other, CallsGuarded g name info other ∧ other.inst = member.inst ∧ g.Reaching o other

/-- A guarded port that the rate group calls is contended when another origin
reaches it. -/
theorem CallsGuarded.portContended {g : TopologyGraph} {name : String} {info : InstanceInfo}
    {dest : PortKey} (h : CallsGuarded g name info dest) {o : Origin} (ho : o ≠ .thread name)
    (hreach : g.Reaching o dest) : PortContended g name dest := by
  obtain ⟨_, destInfo, hget, hasync, hguarded⟩ := h
  have hentry := (destInfo.mem_guardedEntries dest.port).mpr hguarded
  exact ⟨destInfo, hget, hasync, List.ne_nil_of_mem hentry, o, ho, hreach⟩

/-- The component of `rg`. -/
def groupInstance : InstanceInfo where
  kind := .active
  componentName := "Rg"
  inputPorts := .ofList [(.go, {.async})]
  outputPorts := [.out]
  portTypes := .ofList [(.go, cycleType), (.out, schedType)]

/-- The component of `x`. -/
def mutexInstance : InstanceInfo where
  kind := .passive
  componentName := "X"
  inputPorts := .ofList [(.gIn, {.guarded})]

/-- The component of `b`. -/
def callerInstance : InstanceInfo where
  kind := .active
  componentName := "B"
  inputPorts := .ofList [(.go, {.async})]
  outputPorts := [.out]

def contendedTopology : TopologyGraph where
  instances := .ofList [("rg", groupInstance), ("m", TopologyGraph.loopInstance),
    ("x", mutexInstance), ("b", callerInstance)]
  connections := .ofList [(⟨"rg", .out⟩, [⟨"m", .go⟩]), (⟨"m", .out⟩, [⟨"x", .gIn⟩]),
    (⟨"b", .out⟩, [⟨"x", .gIn⟩])]
  flow := .permissive ∅

/-- A call into the mutex of `x`. -/
def lockHop (source : String) : OutwardHop := ⟨⟨source, .out⟩, ⟨"x", .gIn⟩, mutexInstance, .guarded⟩

theorem contendedTopology_contends : Contends contendedTopology "rg" groupInstance := by
  have hmember : MemberCall contendedTopology "rg" groupInstance ⟨"m", .go⟩ .sync :=
    ⟨by decide, by decide, TopologyGraph.loopInstance, by decide, by decide⟩
  have hbehind : contendedTopology.Behind ⟨"m", .go⟩ .sync ("m", "go") :=
    ⟨TopologyGraph.loopInstance, by decide, by decide, "go", by decide, rfl⟩
  have htakes : TakesMutex contendedTopology ⟨"m", .go⟩ .sync "x" :=
    .inr ⟨("m", "go"), lockHop "m", ⟨("m", "go"), hbehind, .refl⟩, by decide, rfl, rfl⟩
  have hseeds : contendedTopology.Seeds (.thread "b") ⟨"b", .go⟩ .async :=
    ⟨callerInstance, by decide, by decide, .inl ⟨rfl, by decide, rfl⟩⟩
  have hbehindB : contendedTopology.Behind ⟨"b", .go⟩ .async ("b", "go") :=
    ⟨callerInstance, by decide, by decide, "go", by decide, rfl⟩
  have hlands : contendedTopology.LandsOn (.thread "b") ⟨"x", .gIn⟩ :=
    .inr ⟨("b", "go"), ⟨⟨"b", .go⟩, .async, hseeds, ("b", "go"), hbehindB, .refl⟩, lockHop "b",
      by decide, by decide, rfl⟩
  exact ⟨_, _, "x", hmember, htakes, mutexInstance, .gIn, .thread "b", by decide, by decide,
    by decide, .inl hlands⟩

/-- A rate group that takes the mutex of `x` itself. -/
def memberTopology : TopologyGraph where
  instances := .ofList [("rg", groupInstance), ("x", mutexInstance), ("b", callerInstance)]
  connections := .ofList [(⟨"rg", .out⟩, [⟨"x", .gIn⟩]), (⟨"b", .out⟩, [⟨"x", .gIn⟩])]
  flow := .permissive ∅

theorem memberTopology_calls {dest : PortKey} {kind : SyncKind}
    (h : MemberCall memberTopology "rg" groupInstance dest kind) :
    dest = ⟨"x", .gIn⟩ ∧ kind = .guarded := by
  obtain ⟨hdest, _, destInfo, hget, hkind⟩ := h
  have hmembers : members memberTopology "rg" groupInstance = [⟨"x", .gIn⟩] := by decide
  obtain rfl : dest = ⟨"x", .gIn⟩ := by simpa [hmembers] using hdest
  have hx : memberTopology.instances.get? "x" = some mutexInstance := by decide
  obtain rfl := Option.some.inj (hx.symm.trans hget)
  have hkinds : mutexInstance.kindsOf .gIn = {.guarded} := by decide
  exact ⟨rfl, by simpa [hkinds] using hkind⟩

/-- The mutex's instance calls nothing. -/
theorem memberTopology_ends {h : Handler} (hentered : memberTopology.EnteredFrom ⟨"x", .gIn⟩ .guarded h)
    (hop : OutwardHop) : ¬ memberTopology.HopOut h hop := by
  have hnone : ∀ hop, ¬ memberTopology.HopOut ("x", "gIn") hop := by
    rintro hop ⟨hops, hhops, hmem⟩
    have hempty : memberTopology.outwardHops "x" "gIn" = .ok [] := by decide
    obtain rfl := Except.ok.inj (hempty.symm.trans hhops)
    simp at hmem
  intro hhop
  obtain ⟨h₀, ⟨info, hget, _, entry, hentry, rfl⟩, hcalled⟩ := hentered
  have hx : memberTopology.instances.get? "x" = some mutexInstance := by decide
  obtain rfl := Option.some.inj (hx.symm.trans hget)
  obtain rfl : entry = "gIn" := by
    have hentries : mutexInstance.flowEntries .gIn .guarded = ["gIn"] := by decide
    simpa [hentries] using hentry
  rcases hcalled.cases_head with rfl | ⟨next, ⟨hop', hhop', _⟩, _⟩
  · exact hnone hop hhop
  · exact hnone hop' hhop'

theorem memberTopology_atMembers : AtMembers memberTopology "rg" groupInstance := by
  have hx : memberTopology.instances.get? "x" = some mutexInstance := by decide
  have hmembers : members memberTopology "rg" groupInstance = [⟨"x", .gIn⟩] := by decide
  have hcalls : CallsGuarded memberTopology "rg" groupInstance ⟨"x", .gIn⟩ :=
    ⟨by decide, mutexInstance, hx, by decide, by decide⟩
  have hresolve : memberTopology.AllResolve := by decide
  refine ⟨fun o h hruns => hresolve h hruns.mem_handlers, fun dest kind x hcall htakes => ?_,
    fun dest hdest destInfo hget _ _ => ?_, fun member destInfo port o hmember hget hguarded _ hreach =>
      ⟨⟨member.inst, port⟩, ?_, rfl, hreach⟩⟩
  · obtain ⟨rfl, rfl⟩ := memberTopology_calls hcall
    rcases htakes with ⟨_, rfl⟩ | ⟨h, hop, hentered, hhop, _⟩
    · exact ⟨_, hcalls, rfl⟩
    · exact absurd hhop (memberTopology_ends hentered hop)
  · obtain rfl : dest = ⟨"x", .gIn⟩ := by simpa [hmembers] using hdest
    obtain rfl := Option.some.inj (hx.symm.trans hget)
    decide
  · obtain rfl : member = ⟨"x", .gIn⟩ := by simpa [hmembers] using hmember.1
    obtain rfl := Option.some.inj (hx.symm.trans hget)
    have hentries : mutexInstance.guardedEntries = [.gIn] := by decide
    obtain rfl : port = .gIn := by
      simpa [hentries] using (mutexInstance.mem_guardedEntries port).mpr hguarded
    exact hcalls

end RateGroupBudget

end FprimeTopologyAnalysis
