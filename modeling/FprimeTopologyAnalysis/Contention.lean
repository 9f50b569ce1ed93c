/-
FprimeTopologyAnalysis.Contention — the checks on who contends for a mutex
(`PriorityInversionWindow` and `CpuAffinity` in `checks.py`).

Both ask which origins reach the guarded ports of an instance, and compare
what is declared of the threads among them: the task priority, or the CPU
it is pinned to. Both report an instance when two values differ.

`window_exact` says what is reported of the priorities.
`inversion_reported` and `parallel_reported` say it of the running
topology: whatever its threads do, a thread that waits for a mutex another
one holds is covered by the report on that mutex.
-/
import FprimeTopologyAnalysis.EdgeChains
import FprimeTopologyAnalysis.RateGroupBudget
import FprimeTopologyAnalysis.ThreadRuns

namespace FprimeTopologyAnalysis

open Library TopologyGraph

/-! ## What is declared of the contenders -/

namespace Contention

/-- The origins that reach the guarded ports of an instance. -/
def contenders (g : TopologyGraph) (name : String) (guarded : List PortName) :
    OriginM (Finset Origin) := do
  let reaching ← OriginM.collect (fun port => do
    let origins ← g.threadsReaching ⟨name, port⟩
    pure [origins]) guarded
  pure (reaching.foldl (fun all origins => all ∪ origins) ∅)

/-- The origins with a declared value, and the value. -/
def declared (value : Origin → Option Int) (origins : Finset Origin) : List (Origin × Int) :=
  (sortOrigins origins).filterMap fun o => (value o).map fun v => (o, v)

/-- The round of a contention check for one instance. -/
def instanceFindings (report : String → List PortName → Finset Origin → List RawFinding)
    (g : TopologyGraph) (e : String × InstanceInfo) : OriginM (List RawFinding) :=
  if e.2.guardedEntries = [] then pure []
  else do
    let origins ← contenders g e.1 e.2.guardedEntries
    pure (report e.1 e.2.guardedEntries origins)

theorem instanceFindings_queries
    (report : String → List PortName → Finset Origin → List RawFinding) (g : TopologyGraph)
    (e : String × InstanceInfo) : QueriesOnly g (instanceFindings report g e) := by
  unfold instanceFindings
  split
  · exact .pure []
  · refine .bind (.bind (.collect (fun port => ?_) _) fun _ => .pure _) fun _ => .pure _
    exact .bind (.threadsReaching _) fun _ => .pure _

end Contention

/-! ## Priority inversion window -/

namespace PriorityInversionWindow

/-- `thread_priority`. -/
def threadPriority (g : TopologyGraph) : Origin → Option Int
  | .thread name => (g.instances.get? name).bind InstanceInfo.taskPriority
  | .external _ => none
  | .unknown => none

/-- The order of the evidence: the highest priority first. -/
def before (a b : Origin × Int) : Prop := b.2 < a.2 ∨ b.2 = a.2 ∧ originLe a.1 b.1

instance : DecidableRel before := fun a b =>
  inferInstanceAs (Decidable (b.2 < a.2 ∨ b.2 = a.2 ∧ originLe a.1 b.1))

/-- The lines that follow the guarded ports. -/
def evidence (known : List (Origin × Int)) (unattributed : List Origin) : List String :=
  (known.insertionSort before).map (fun e => "  " ++ e.1.str ++ " priority " ++ toString e.2)
    ++ if unattributed = [] then []
      else ["  unattributed callers: " ++ ", ".intercalate (unattributed.map Origin.str)]

/-- The finding on an instance whose mutex is taken at priorities from `low`
to `high`. -/
def windowFinding (name : String) (guarded : List PortName) (low high : Int)
    (lines : List String) : RawFinding :=
  ⟨if 10 ≤ high - low then .warning else .info, name,
    name ++ "'s mutex is taken by threads spanning " ++ toString (high - low) ++
      " priority levels (" ++ toString low ++ " to " ++ toString high ++ "). While the lowest " ++
      "holds it, the highest waits for the whole critical section. Severity depends on the Os " ++
      "layer: a priority-inheriting mutex bounds this, a plain one does not.",
    ("guarded ports: " ++ ", ".intercalate (guarded.map PortName.str)) :: lines⟩

/-- What is reported once the origins are known. -/
def report (g : TopologyGraph) (name : String) (guarded : List PortName)
    (origins : Finset Origin) : List RawFinding :=
  let known := Contention.declared (threadPriority g) origins
  let priorities := known.map Prod.snd
  if priorities.toFinset.card < 2 then []
  else
    match priorities.min?, priorities.max? with
    | some low, some high =>
      let unattributed := (sortOrigins origins).filter fun o => threadPriority g o = none
      [windowFinding name guarded low high (evidence known unattributed)]
    | _, _ => []

/-- `PriorityInversionWindow.run`. -/
def body (g : TopologyGraph) : OriginM (List RawFinding) :=
  OriginM.collect (Contention.instanceFindings (report g) g) (Check.sortedInstances g)

end PriorityInversionWindow

/-- `PriorityInversionWindow`: spread of task priorities contending for one
instance's mutex. -/
def priorityInversionWindow : Check where
  id := "priority-inversion-window"
  requiresFlow := true
  body := PriorityInversionWindow.body
  queries g := .collect (Contention.instanceFindings_queries _ g) _

/-! ## CPU affinity -/

namespace CpuAffinity

/-- The CPU behind an origin: `cpu` of its instance, where the label names
one of the graph. The instances' `cpu` is read by this check only. -/
def threadCpu (g : TopologyGraph) (cpu : String → Option Int) : Origin → Option Int
  | .thread name => (g.instances.get? name).bind fun _ => cpu name
  | .external _ => none
  | .unknown => none

/-- `sorted(cpus.items())`. -/
def cpus (known : List (Origin × Int)) : List (Int × Finset Origin) :=
  ((known.map Prod.snd).toFinset.sort (· ≤ ·)).map fun c =>
    (c, ((known.filter fun e => e.2 = c).map Prod.fst).toFinset)

/-- What is reported once the origins are known. -/
def report (g : TopologyGraph) (cpu : String → Option Int) (name : String) (_ : List PortName)
    (origins : Finset Origin) : List RawFinding :=
  let cpus := cpus (Contention.declared (threadCpu g cpu) origins)
  if cpus.length < 2 then []
  else
    [⟨.info, name,
      name ++ "'s mutex is contended by threads pinned to " ++ toString cpus.length ++
        " different CPUs, which execute in genuine parallel. Any lock-order finding on this " ++
        "instance is more likely to be hit. Note the asymmetry: same-CPU threads still " ++
        "interleave by preemption, so affinity only raises confidence, never lowers it.",
      cpus.map fun e => "cpu " ++ toString e.1 ++ ": " ++
        UnconnectedPortInvoked.originsText e.2⟩]

/-- `CpuAffinity.run`. -/
def body (cpu : String → Option Int) (g : TopologyGraph) : OriginM (List RawFinding) :=
  OriginM.collect (Contention.instanceFindings (report g cpu) g) (Check.sortedInstances g)

end CpuAffinity

/-- `CpuAffinity`: mutexes contended by threads pinned to different CPUs. -/
def cpuAffinity (cpu : String → Option Int) : Check where
  id := "cpu-affinity"
  requiresFlow := true
  body := CpuAffinity.body cpu
  queries g := .collect (Contention.instanceFindings_queries _ g) _

/-! ## What is reported -/

/-- Origin `o` contends for the mutex of instance `x`. -/
def Contends (g : TopologyGraph) (x : String) (o : Origin) : Prop :=
  ∃ info port, g.instances.get? x = some info ∧ .guarded ∈ info.kindsOf port
    ∧ g.Reaching o ⟨x, port⟩

/-- The check ends well and `f` is among its findings. -/
def Reports (check : Check) (g : TopologyGraph) (f : RawFinding) : Prop :=
  ∃ findings s, check.run g .fresh = (.ok findings, s) ∧ check.finding f ∈ findings

/-- The stamp tells findings apart as they were. -/
theorem Check.finding_injective (check : Check) : Function.Injective check.finding := by
  intro a b hab
  cases a
  cases b
  simpa [Check.finding] using hab

/-- The check raises. -/
def Raises (check : Check) (g : TopologyGraph) : Prop :=
  ∃ e s, check.run g .fresh = (.error e, s)

namespace Contention

section Reported

variable {g : TopologyGraph} {complete : OriginState}
  {report : String → List PortName → Finset Origin → List RawFinding}

theorem mem_declared {value : Origin → Option Int} {origins : Finset Origin} {o : Origin}
    {v : Int} : (o, v) ∈ declared value origins ↔ o ∈ origins ∧ value o = some v := by
  simp only [declared, List.mem_filterMap, Option.map_eq_some_iff, Prod.mk.injEq, sortOrigins,
    Finset.mem_sort]
  constructor
  · rintro ⟨o', ho, v', hv, rfl, rfl⟩
    exact ⟨ho, hv⟩
  · rintro ⟨ho, hv⟩
    exact ⟨o, ho, v, hv, rfl, rfl⟩

/-- A value is declared of some contender. -/
theorem mem_values {value : Origin → Option Int} {origins : Finset Origin} {v : Int} :
    v ∈ (declared value origins).map Prod.snd ↔ ∃ o ∈ origins, value o = some v := by
  rw [List.mem_map]
  constructor
  · rintro ⟨⟨o, w⟩, h, rfl⟩
    exact ⟨o, mem_declared.mp h⟩
  · rintro ⟨o, h⟩
    exact ⟨(o, v), mem_declared.mpr h, rfl⟩

/-- On a complete table the contenders are those that reach a guarded port. -/
theorem contenders_answers (hc : g.CompleteOrigins complete) (name : String)
    (guarded : List PortName) :
    ∃ origins, Answers g (contenders g name guarded) origins
      ∧ ∀ o, o ∈ origins ↔ ∃ port ∈ guarded, g.Reaching o ⟨name, port⟩ := by
  have hround : ∀ port, Answers g (do
      let origins ← g.threadsReaching ⟨name, port⟩
      pure [origins]) [complete.reachingAt ⟨name, port⟩] :=
    fun port => (Answers.threadsReaching hc _).bind (.pure _)
  refine ⟨_, (Answers.collect hround guarded).bind (.pure _), fun o => ?_⟩
  have hfold : ∀ (sets : List (Finset Origin)) (all : Finset Origin),
      o ∈ sets.foldl (fun all origins => all ∪ origins) all ↔ o ∈ all ∨ ∃ t ∈ sets, o ∈ t := by
    intro sets
    induction sets with
    | nil => simp
    | cons t sets ih =>
      intro all
      rw [List.foldl_cons, ih, Finset.mem_union, or_assoc, List.exists_mem_cons_iff]
  rw [hfold]
  simp [mem_reachingAt_iff hc]

/-- What the round of an instance answers. -/
theorem instanceFindings_answers (hc : g.CompleteOrigins complete) :
    ∃ origins : String → InstanceInfo → Finset Origin,
      (∀ name info, g.instances.get? name = some info →
        ∀ o, o ∈ origins name info ↔ Contends g name o)
      ∧ ∀ e, Answers g (instanceFindings report g e)
        (if e.2.guardedEntries = [] then [] else report e.1 e.2.guardedEntries (origins e.1 e.2)) := by
  choose reaching hanswers hmem using contenders_answers hc
  refine ⟨fun name info => reaching name info.guardedEntries, fun name info hget o => ?_,
    fun e => ?_⟩
  · rw [hmem]
    simp only [InstanceInfo.mem_guardedEntries]
    constructor
    · rintro ⟨port, hk, hreach⟩
      exact ⟨info, port, hget, hk, hreach⟩
    · rintro ⟨info', port, hget', hk, hreach⟩
      obtain rfl := Option.some.inj (hget.symm.trans hget')
      exact ⟨port, hk, hreach⟩
  · unfold instanceFindings
    split
    · exact .pure []
    · exact (hanswers _ _).bind (.pure _)

/-- Every round of a loop of queries that ends well has ended well, and what
it answered is among the answers. -/
theorem Coherent.collect_ok {α β : Type} {body : α → OriginM (List β)}
    (hbody : ∀ x, QueriesOnly g (body x)) :
    ∀ {xs : List α} {s s' : OriginState} {ys : List β}, Coherent g s →
      OriginM.collect body xs s = (.ok ys, s') →
      ∀ x ∈ xs, ∃ s₁ s₂ zs, Coherent g s₁ ∧ body x s₁ = (.ok zs, s₂) ∧ ∀ z ∈ zs, z ∈ ys
  | [], _, _, _, _, _ => by simp
  | x :: xs, s, s', ys, hs, h => by
      obtain ⟨head, s₁, hhead, h⟩ := OriginM.bind_eq_ok h
      obtain ⟨rest, s₂, hrest, h⟩ := OriginM.bind_eq_ok h
      obtain rfl : head ++ rest = ys := Except.ok.inj (congrArg Prod.fst h)
      refine List.forall_mem_cons.mpr ⟨⟨s, s₁, head, hs, hhead, ?_⟩, fun x' hx' => ?_⟩
      · exact fun z hz => List.mem_append_left _ hz
      · obtain ⟨s₃, s₄, zs, hs₃, hround, hzs⟩ :=
          Coherent.collect_ok hbody ((hbody x).coherent hs hhead) hrest x' hx'
        exact ⟨s₃, s₄, zs, hs₃, hround, fun z hz => List.mem_append_right _ (hzs z hz)⟩

/-- Some instance has a guarded port. -/
def HasGuarded (g : TopologyGraph) : Prop :=
  ∃ x info port, g.instances.get? x = some info ∧ .guarded ∈ info.kindsOf port

theorem guardedEntries_ne_nil {info : InstanceInfo} :
    info.guardedEntries ≠ [] ↔ ∃ port, .guarded ∈ info.kindsOf port := by
  simp only [← InstanceInfo.mem_guardedEntries]
  exact ⟨List.exists_mem_of_ne_nil _, fun ⟨_, hport⟩ => List.ne_nil_of_mem hport⟩

variable {check : Check}

/-- On a complete table the check reports what `report` says of the
contenders. -/
theorem run_answers (hbody : check.body g
      = OriginM.collect (instanceFindings report g) (Check.sortedInstances g))
    (hc : g.CompleteOrigins complete) :
    ∃ findings, Answers g (check.run g) findings
      ∧ ∀ f, check.finding f ∈ findings ↔ ∃ x info origins, g.instances.get? x = some info
        ∧ info.guardedEntries ≠ [] ∧ (∀ o, o ∈ origins ↔ Contends g x o)
        ∧ f ∈ report x info.guardedEntries origins := by
  obtain ⟨origins, hmem, hround⟩ := instanceFindings_answers hc
  have hall : Answers g (check.run g) _ :=
    (hbody ▸ Answers.collect hround (Check.sortedInstances g)).bind (.pure _)
  refine ⟨_, hall, fun f => ?_⟩
  rw [List.mem_map_of_injective check.finding_injective, List.mem_flatMap]
  constructor
  · rintro ⟨⟨x, info⟩, he, hf⟩
    have hget := Check.mem_sortedInstances.mp he
    by_cases hnone : info.guardedEntries = []
    · simp [hnone] at hf
    · rw [if_neg hnone] at hf
      exact ⟨x, info, origins x info, hget, hnone, hmem x info hget, hf⟩
  · rintro ⟨x, info, origins', hget, hne, hmem', hf⟩
    obtain rfl : origins' = origins x info :=
      Finset.ext fun o => (hmem' o).trans (hmem x info hget o).symm
    refine ⟨(x, info), Check.mem_sortedInstances.mpr hget, ?_⟩
    rw [if_neg hne]
    exact hf

/-- A contention check raises when some origin runs a handler that does not
resolve, and it has a mutex to ask about. -/
theorem raises_iff (hbody : check.body g
      = OriginM.collect (instanceFindings report g) (Check.sortedInstances g)) :
    Raises check g ↔ ¬ RateGroupBudget.RunsResolve g ∧ HasGuarded g := by
  constructor
  · rintro ⟨e, s, hrun⟩
    constructor
    · intro hresolve
      obtain ⟨complete, hc⟩ := completeOrigins_iff_runs_resolve.mpr hresolve
      obtain ⟨findings, hanswers, _⟩ := run_answers hbody hc
      obtain ⟨_, hok, _⟩ := hanswers .fresh (.inl rfl)
      rw [hrun] at hok
      cases hok
    · by_contra hnone
      -- no mutex, no query
      have hquiet : ∀ e ∈ Check.sortedInstances g, e.2.guardedEntries = [] := by
        intro e he
        by_contra hne
        obtain ⟨port, hk⟩ := guardedEntries_ne_nil.mp hne
        exact hnone ⟨e.1, e.2, port, Check.mem_sortedInstances.mp he, hk⟩
      have hcollect : ∀ es : List (String × InstanceInfo), (∀ e ∈ es, e.2.guardedEntries = []) →
          OriginM.collect (instanceFindings report g) es .fresh = (.ok [], .fresh) := by
        intro es
        induction es with
        | nil => exact fun _ => rfl
        | cons e es ih =>
          intro hes
          have hround : instanceFindings report g e .fresh = (.ok [], .fresh) := by
            rw [instanceFindings, if_pos (hes e (List.mem_cons_self ..))]
            rfl
          rw [OriginM.collect, OriginM.bind_apply, hround]
          dsimp only
          rw [OriginM.bind_apply, ih fun e' he' => hes e' (List.mem_cons_of_mem _ he')]
          rfl
      have hok : check.run g .fresh = (.ok [], .fresh) := by
        rw [Check.run, OriginM.bind_apply, hbody, hcollect _ hquiet]
        rfl
      rw [hrun] at hok
      cases hok
  · rintro ⟨hno, x, info, port, hget, hk⟩
    cases hrun : check.run g .fresh with
    | mk r s =>
      cases r with
      | error e => exact ⟨e, s, hrun⟩
      | ok findings =>
        refine absurd ?_ hno
        obtain ⟨raws, s₁, hraws, _⟩ := OriginM.bind_eq_ok hrun
        rw [hbody] at hraws
        obtain ⟨s₂, s₃, zs, hs₂, hround, _⟩ := Coherent.collect_ok (instanceFindings_queries report g)
          (.inl rfl) hraws (x, info) (Check.mem_sortedInstances.mpr hget)
        have hne : info.guardedEntries ≠ [] := guardedEntries_ne_nil.mpr ⟨port, hk⟩
        rw [instanceFindings, if_neg hne] at hround
        obtain ⟨origins, s₄, hcontenders, _⟩ := OriginM.bind_eq_ok hround
        obtain ⟨reaching, s₅, hcollect, _⟩ := OriginM.bind_eq_ok hcontenders
        have hqueries : ∀ port, QueriesOnly g (do
            let origins ← g.threadsReaching ⟨x, port⟩
            pure [origins]) := fun port => .bind (.threadsReaching _) fun _ => .pure _
        obtain ⟨s₆, s₇, ys, hs₆, hask, _⟩ := Coherent.collect_ok hqueries hs₂ hcollect port
          ((info.mem_guardedEntries port).mpr hk)
        obtain ⟨ts, s₈, hreach, _⟩ := OriginM.bind_eq_ok hask
        exact completeOrigins_iff_runs_resolve.mp ⟨s₈, (hs₆.of_threadsReaching hreach).1⟩

/-- **What a contention check reports.** -/
theorem reports_contenders_iff (hbody : check.body g
      = OriginM.collect (instanceFindings report g) (Check.sortedInstances g)) {f : RawFinding} :
    Reports check g f ↔ ¬ Raises check g ∧ ∃ x info origins, g.instances.get? x = some info
      ∧ info.guardedEntries ≠ [] ∧ (∀ o, o ∈ origins ↔ Contends g x o)
      ∧ f ∈ report x info.guardedEntries origins := by
  have hcomplete : ¬ Raises check g → ∀ x info, g.instances.get? x = some info →
      info.guardedEntries ≠ [] → ∃ complete, g.CompleteOrigins complete := by
    intro hno x info hget hne
    obtain ⟨port, hk⟩ := guardedEntries_ne_nil.mp hne
    rw [raises_iff hbody] at hno
    have hresolve : RateGroupBudget.RunsResolve g :=
      by_contra fun h => hno ⟨h, x, info, port, hget, hk⟩
    exact completeOrigins_iff_runs_resolve.mpr hresolve
  constructor
  · rintro ⟨findings, s, hrun, hf⟩
    have hno : ¬ Raises check g := by
      rintro ⟨e, s', hraise⟩
      rw [hrun] at hraise
      cases hraise
    refine ⟨hno, ?_⟩
    -- a finding is about an instance with a mutex
    obtain ⟨raws, s₁, hraws, hpure⟩ := OriginM.bind_eq_ok hrun
    obtain rfl : raws.map check.finding = findings := Except.ok.inj (congrArg Prod.fst hpure)
    obtain ⟨raw, hraw, _⟩ := List.mem_map.mp hf
    rw [hbody] at hraws
    obtain ⟨e, he, s₂, s₃, zs, _, hround, hz⟩ :=
      Coherent.mem_collect (instanceFindings_queries report g) (.inl rfl) hraws hraw
    have hne : e.2.guardedEntries ≠ [] := by
      intro hnil
      rw [instanceFindings, if_pos hnil] at hround
      obtain rfl : [] = zs := Except.ok.inj (congrArg Prod.fst hround)
      simp at hz
    obtain ⟨complete, hc⟩ := hcomplete hno e.1 e.2 (Check.mem_sortedInstances.mp he) hne
    obtain ⟨findings, hanswers, hmem⟩ := run_answers hbody hc
    obtain ⟨_, hok, _⟩ := hanswers .fresh (.inl rfl)
    obtain rfl : raws.map check.finding = findings :=
      Except.ok.inj (congrArg Prod.fst (hrun.symm.trans hok))
    exact (hmem f).mp hf
  · rintro ⟨hno, x, info, origins, hget, hne, hrest⟩
    obtain ⟨complete, hc⟩ := hcomplete hno x info hget hne
    obtain ⟨findings, hanswers, hmem⟩ := run_answers hbody hc
    obtain ⟨s, hok, _⟩ := hanswers .fresh (.inl rfl)
    exact ⟨findings, s, hok, (hmem f).mpr ⟨x, info, origins, hget, hne, hrest⟩⟩

end Reported

end Contention

/-! ## The window -/

/-- The declared values of some origins run from `low` to `high`. -/
structure Spread (value : Origin → Option Int) (origins : Finset Origin) (low high : Int) :
    Prop where
  least : ∃ o ∈ origins, value o = some low
  greatest : ∃ o ∈ origins, value o = some high
  within : ∀ o ∈ origins, ∀ v, value o = some v → low ≤ v ∧ v ≤ high

section Window

variable {value : Origin → Option Int} {origins : Finset Origin} {low high : Int}

theorem spread_iff : Spread value origins low high
    ↔ ((Contention.declared value origins).map Prod.snd).min? = some low
      ∧ ((Contention.declared value origins).map Prod.snd).max? = some high := by
  rw [List.min?_eq_some_iff, List.max?_eq_some_iff]
  constructor
  · rintro ⟨hleast, hgreatest, hwithin⟩
    refine ⟨⟨Contention.mem_values.mpr hleast, fun v hv => ?_⟩,
      ⟨Contention.mem_values.mpr hgreatest, fun v hv => ?_⟩⟩
    · obtain ⟨o, ho, hov⟩ := Contention.mem_values.mp hv
      exact (hwithin o ho v hov).1
    · obtain ⟨o, ho, hov⟩ := Contention.mem_values.mp hv
      exact (hwithin o ho v hov).2
  · rintro ⟨⟨hleast, hlow⟩, hgreatest, hhigh⟩
    refine ⟨Contention.mem_values.mp hleast, Contention.mem_values.mp hgreatest, ?_⟩
    intro o ho v hov
    have hv : v ∈ (Contention.declared value origins).map Prod.snd :=
      Contention.mem_values.mpr ⟨o, ho, hov⟩
    exact ⟨hlow v hv, hhigh v hv⟩

/-- Two values differ when the spread is no single value. -/
theorem two_le_card_values : 2 ≤ ((Contention.declared value origins).map Prod.snd).toFinset.card
    ↔ ∃ low high, Spread value origins low high ∧ low < high := by
  rw [← Nat.lt_iff_add_one_le, Finset.one_lt_card]
  simp only [List.mem_toFinset]
  constructor
  · rintro ⟨v, hv, w, hw, hne⟩
    have hnil := List.ne_nil_of_mem hv
    cases hmin : ((Contention.declared value origins).map Prod.snd).min? with
    | none => exact absurd (List.min?_eq_none_iff.mp hmin) hnil
    | some low =>
      cases hmax : ((Contention.declared value origins).map Prod.snd).max? with
      | none => exact absurd (List.max?_eq_none_iff.mp hmax) hnil
      | some high =>
        refine ⟨low, high, spread_iff.mpr ⟨hmin, hmax⟩, ?_⟩
        have hlow := (List.min?_eq_some_iff.mp hmin).2
        have hhigh := (List.max?_eq_some_iff.mp hmax).2
        have hv' := And.intro (hlow v hv) (hhigh v hv)
        have hw' := And.intro (hlow w hw) (hhigh w hw)
        omega
  · rintro ⟨low, high, ⟨hleast, hgreatest, _⟩, hlt⟩
    exact ⟨low, Contention.mem_values.mpr hleast, high, Contention.mem_values.mpr hgreatest,
      hlt.ne⟩

/-- Two values that differ have an spread around them. -/
theorem exists_spread {o o' : Origin} {v v' : Int} (ho : o ∈ origins) (hv : value o = some v)
    (ho' : o' ∈ origins) (hv' : value o' = some v') (hne : v ≠ v') :
    ∃ low high, Spread value origins low high ∧ low < high := by
  rw [← two_le_card_values, ← Nat.lt_iff_add_one_le, Finset.one_lt_card]
  simp only [List.mem_toFinset]
  exact ⟨v, Contention.mem_values.mpr ⟨o, ho, hv⟩, v', Contention.mem_values.mpr ⟨o', ho', hv'⟩,
    hne⟩

end Window

namespace PriorityInversionWindow

section Report

variable {g : TopologyGraph} {x : String} {guarded : List PortName} {origins : Finset Origin}
  {f : RawFinding}

/-- The finding on instance `x` for the priorities of some origins. -/
def finding (g : TopologyGraph) (x : String) (guarded : List PortName) (origins : Finset Origin)
    (low high : Int) : RawFinding :=
  windowFinding x guarded low high
    (evidence (Contention.declared (threadPriority g) origins)
      ((sortOrigins origins).filter fun o => threadPriority g o = none))

theorem mem_report : f ∈ report g x guarded origins
    ↔ ∃ low high, Spread (threadPriority g) origins low high ∧ low < high
      ∧ f = finding g x guarded origins low high := by
  unfold report
  by_cases hcard : ((Contention.declared (threadPriority g) origins).map Prod.snd).toFinset.card < 2
  · have hnone := mt two_le_card_values.mpr (not_le.mpr hcard)
    rw [if_pos hcard]
    refine iff_of_false (by simp) ?_
    rintro ⟨low, high, hspread, hlt, _⟩
    exact hnone ⟨low, high, hspread, hlt⟩
  · rw [if_neg hcard]
    obtain ⟨low, high, hspread, hlt⟩ := two_le_card_values.mp (not_lt.mp hcard)
    obtain ⟨hmin, hmax⟩ := spread_iff.mp hspread
    rw [hmin, hmax]
    constructor
    · intro hf
      exact ⟨low, high, hspread, hlt, List.mem_singleton.mp hf⟩
    · rintro ⟨low', high', hspread', _, rfl⟩
      obtain ⟨hmin', hmax'⟩ := spread_iff.mp hspread'
      obtain rfl := Option.some.inj (hmin.symm.trans hmin')
      obtain rfl := Option.some.inj (hmax.symm.trans hmax')
      exact List.mem_singleton_self _

end Report

theorem reports_spread_iff {g : TopologyGraph} {f : RawFinding} :
    Reports priorityInversionWindow g f ↔ ¬ Raises priorityInversionWindow g
      ∧ ∃ x info origins low high, g.instances.get? x = some info
        ∧ (∀ o, o ∈ origins ↔ Contends g x o) ∧ Spread (threadPriority g) origins low high
        ∧ low < high ∧ f = finding g x info.guardedEntries origins low high := by
  refine (Contention.reports_contenders_iff rfl).trans (and_congr_right' ?_)
  simp only [mem_report]
  constructor
  · rintro ⟨x, info, origins, hget, _, hmem, low, high, hrest⟩
    exact ⟨x, info, origins, low, high, hget, hmem, hrest⟩
  · rintro ⟨x, info, origins, low, high, hget, hmem, hrest⟩
    -- an instance with a contender has a guarded port
    obtain ⟨o, ho, _⟩ := hrest.1.least
    obtain ⟨info', port, hget', hk, _⟩ := (hmem o).mp ho
    obtain rfl := Option.some.inj (hget'.symm.trans hget)
    exact ⟨x, info', origins, hget, Contention.guardedEntries_ne_nil.mpr ⟨port, hk⟩, hmem, low,
      high, hrest⟩

/-- **What the priority inversion check reports**: where the origins can be
computed, one finding for every instance whose contenders have two
priorities that differ, with the lowest and the highest of them. It raises
where they cannot, if there is a mutex at all. -/
theorem window_exact (g : TopologyGraph) :
    (Raises priorityInversionWindow g
      ↔ ¬ RateGroupBudget.RunsResolve g ∧ Contention.HasGuarded g)
    ∧ ∀ f, Reports priorityInversionWindow g f ↔ ¬ Raises priorityInversionWindow g
      ∧ ∃ x info origins low high, g.instances.get? x = some info
        ∧ (∀ o, o ∈ origins ↔ Contends g x o) ∧ Spread (threadPriority g) origins low high
        ∧ low < high ∧ f = finding g x info.guardedEntries origins low high :=
  ⟨Contention.raises_iff rfl, fun _ => reports_spread_iff⟩

end PriorityInversionWindow

namespace CpuAffinity

section Report

variable {g : TopologyGraph} {cpu : String → Option Int} {x : String} {guarded : List PortName}
  {origins : Finset Origin}

/-- The contenders of a CPU, as the evidence lists them. -/
theorem mem_cpus {known : List (Origin × Int)} {c : Int} {pinned : Finset Origin} :
    (c, pinned) ∈ cpus known
      ↔ (∃ o, (o, c) ∈ known) ∧ ∀ o, o ∈ pinned ↔ (o, c) ∈ known := by
  have hpinned : ∀ o, o ∈ ((known.filter fun e => e.2 = c).map Prod.fst).toFinset
      ↔ (o, c) ∈ known := by
    intro o
    simp
  simp only [cpus, List.mem_map, Finset.mem_sort, List.mem_toFinset, Prod.mk.injEq]
  constructor
  · rintro ⟨c', ⟨⟨o, v⟩, hknown, rfl⟩, rfl, rfl⟩
    exact ⟨⟨o, hknown⟩, hpinned⟩
  · rintro ⟨⟨o, hknown⟩, hmem⟩
    exact ⟨c, ⟨(o, c), hknown, rfl⟩, rfl, Finset.ext fun o' => (hpinned o').trans (hmem o').symm⟩

theorem length_cpus (known : List (Origin × Int)) :
    (cpus known).length = (known.map Prod.snd).toFinset.card := by
  rw [cpus, List.length_map, Finset.length_sort]

theorem subject_of_mem_report {f : RawFinding} (h : f ∈ report g cpu x guarded origins) :
    f.subject = x := by
  unfold report at h
  dsimp only at h
  split at h
  · simp at h
  · rw [List.mem_singleton.mp h]

/-- Something is reported when two contenders are pinned to two CPUs. -/
theorem report_ne_nil : report g cpu x guarded origins ≠ []
    ↔ ∃ low high, Spread (threadCpu g cpu) origins low high ∧ low < high := by
  rw [← two_le_card_values, ← length_cpus, report]
  by_cases h : (cpus (Contention.declared (threadCpu g cpu) origins)).length < 2
  · simp [h]
  · have htwo := not_lt.mp h
    simp [h, htwo]

end Report

end CpuAffinity

/-! ## The checks and the running threads -/

section Runs

variable {g : TopologyGraph} {s : LockMachine.State Origin Activity String} {o u : Origin}
  {x : String}

theorem LocksPort.contends {info : InstanceInfo} (hget : g.instances.get? x = some info)
    (h : LocksPort g o x info) : Contends g x o := by
  obtain ⟨port, hk, hlands⟩ := h
  exact ⟨info, port, hget, hk, .inl hlands⟩

/-- Who holds a mutex and who waits for it contend for it. -/
theorem RunState.contends (hs : RunState g s)
    (h : LockMachine.Holds s o x ∨ LockMachine.Waits s o x) : Contends g x o := by
  rcases h with h | h
  · obtain ⟨info, hget, hlocks⟩ := hs.holds h
    exact hlocks.contends hget
  · obtain ⟨info, hget, hlocks⟩ := hs.waits h
    exact hlocks.contends hget

theorem Contends.hasGuarded (h : Contends g x o) : Contention.HasGuarded g := by
  obtain ⟨info, port, hget, hk, _⟩ := h
  exact ⟨x, info, port, hget, hk⟩

/-- Where the origins can be computed, those that contend for a mutex are
a finite set. -/
theorem exists_contenders (hresolve : RateGroupBudget.RunsResolve g) {info : InstanceInfo}
    (hget : g.instances.get? x = some info) :
    ∃ origins : Finset Origin, ∀ o, o ∈ origins ↔ Contends g x o := by
  obtain ⟨complete, hc⟩ := completeOrigins_iff_runs_resolve.mpr hresolve
  obtain ⟨origins, hmem, _⟩ :=
    @Contention.instanceFindings_answers g complete (fun _ _ _ => []) hc
  exact ⟨origins x info, hmem x info hget⟩

end Runs

/-- **No inversion goes unreported.** In every state that the threads of a
topology can reach: while a thread waits for a mutex that a thread of lower
priority holds, the check has a finding on that mutex whose window covers
both priorities, or it has raised. -/
theorem inversion_reported (g : TopologyGraph)
    (s : LockMachine.State Origin Activity String) (hs : RunState g s) (o u : Origin) (x : String)
    (hwaits : LockMachine.Waits s o x) (hholds : LockMachine.Holds s u x) (p q : Int)
    (hp : PriorityInversionWindow.threadPriority g o = some p)
    (hq : PriorityInversionWindow.threadPriority g u = some q) (hlt : q < p) :
    Raises priorityInversionWindow g
      ∨ ∃ info origins low high f, Reports priorityInversionWindow g f
        ∧ f = PriorityInversionWindow.finding g x info origins low high
        ∧ f.subject = x ∧ low ≤ q ∧ p ≤ high ∧ (10 ≤ p - q → f.severity = .warning) := by
  by_cases hraises : Raises priorityInversionWindow g
  · exact .inl hraises
  have ho := hs.contends (.inr hwaits)
  have hu := hs.contends (.inl hholds)
  have hresolve : RateGroupBudget.RunsResolve g :=
    by_contra fun hno => hraises ((Contention.raises_iff rfl).mpr ⟨hno, ho.hasGuarded⟩)
  obtain ⟨info, port, hget, hk, hreach⟩ := id ho
  obtain ⟨origins, hmem⟩ := exists_contenders hresolve hget
  obtain ⟨low, high, hspread, hwindow⟩ := exists_spread ((hmem u).mpr hu) hq ((hmem o).mpr ho) hp
    hlt.ne
  have hlow := (hspread.within u ((hmem u).mpr hu) q hq).1
  have hhigh := (hspread.within o ((hmem o).mpr ho) p hp).2
  refine .inr ⟨info.guardedEntries, origins, low, high, _,
    PriorityInversionWindow.reports_spread_iff.mpr
      ⟨hraises, x, info, origins, low, high, hget, hmem, hspread, hwindow, rfl⟩,
    rfl, rfl, hlow, hhigh, fun hten => ?_⟩
  exact if_pos (by omega)

/-! A thread of priority 20 waits while one of priority 5 holds `x`. -/

/-- An active instance with a task of the given priority. -/
def taskInstance (priority : Int) : InstanceInfo where
  kind := .active
  componentName := "T"
  inputPorts := .ofList [(.run, {.async})]
  outputPorts := [.out]
  taskPriority := some priority

def inversionTopology : TopologyGraph where
  instances := .ofList [("fast", taskInstance 20), ("slow", taskInstance 5), ("x", rowInstance "C")]
  connections := .ofList [(⟨"fast", .out⟩, [⟨"x", .gIn⟩]), (⟨"slow", .out⟩, [⟨"x", .gIn⟩])]
  flow := .permissive ∅

/-- The handler of `x`, entered under the mutex. -/
def inversionCall : Activity := .entered ⟨"x", .gIn⟩ .guarded (some "gIn")

/-- The handler that calls it. -/
def inversionCaller (name : String) : Activity := .entered ⟨name, .run⟩ .async (some "run")

theorem inversion_starts {name : String} {info : InstanceInfo}
    (hget : inversionTopology.instances.get? name = some info) (hown : info.isOwnThread)
    (hk : .async ∈ info.kindsOf .run) (hentry : "run" ∈ info.flowEntries .run .async) :
    (threads inversionTopology).starts (.thread name) (inversionCaller name) :=
  ⟨⟨name, .run⟩, .async, ⟨info, hget, hk, .inl ⟨rfl, hown, rfl⟩⟩, .inl ⟨rfl, .handler hget hk hentry⟩⟩

theorem inversion_calls {name : String}
    (hhop : inversionTopology.HopOut (name, "run") (rowHop name "x" "C")) :
    (threads inversionTopology).calls (inversionCaller name) (some "x") inversionCall :=
  have hget : inversionTopology.instances.get? "x" = some (rowInstance "C") := by decide
  have hsync : (rowHop name "x" "C").kind ≠ .async := by simp [rowHop]
  ⟨⟨"x", .gIn⟩, .guarded, .hop hhop hsync, .handler hget (by decide) (by decide), rfl⟩

/-- The slow thread holds `x`. -/
def inversionHeld : LockMachine.State Origin Activity String :=
  LockMachine.setThread LockMachine.init (.thread "slow")
    ⟨[(inversionCall, some "x"), (inversionCaller "slow", none)], none⟩

/-- And the fast one waits for it. -/
def inversionState : LockMachine.State Origin Activity String :=
  LockMachine.setThread inversionHeld (.thread "fast")
    ⟨[(inversionCaller "fast", none)], some (inversionCall, "x")⟩

theorem inversionHeld_reachable : RunState inversionTopology inversionHeld := by
  have hstart : RunState inversionTopology (LockMachine.setThread LockMachine.init
      (.thread "slow") ⟨[(inversionCaller "slow", none)], none⟩) :=
    .single (.start rfl (inversion_starts
      (show inversionTopology.instances.get? "slow" = some (taskInstance 5) by decide)
      (by decide) (by decide) (by decide)))
  have hfree : ∀ u, ¬ LockMachine.Holds (LockMachine.setThread LockMachine.init
      (Origin.thread "slow") ⟨[(inversionCaller "slow", none)], none⟩) u "x" := by
    intro u hu
    unfold LockMachine.Holds at hu
    by_cases h : u = .thread "slow"
    · rw [h, LockMachine.setThread_self] at hu
      simp [LockMachine.held] at hu
    · rw [LockMachine.setThread_ne _ _ h] at hu
      simp [LockMachine.init, LockMachine.held] at hu
  have htaken := LockMachine.Reachable.take hstart (LockMachine.setThread_self ..)
    (inversion_calls (by decide)) hfree trivial
  rwa [LockMachine.setThread_setThread] at htaken

theorem inversionState_reachable : RunState inversionTopology inversionState := by
  have hidle : inversionHeld (.thread "fast") = ⟨[], none⟩ :=
    LockMachine.setThread_ne _ _ (by decide)
  have hstart : LockMachine.Step (threads inversionTopology) Unbounded inversionHeld _ :=
    .start (t := .thread "fast") (by rw [hidle]) (inversion_starts
      (show inversionTopology.instances.get? "fast" = some (taskInstance 20) by decide)
      (by decide) (by decide) (by decide))
  have hblocked := LockMachine.Reachable.block (inversionHeld_reachable.tail hstart)
    (LockMachine.setThread_self ..) (inversion_calls (by decide))
  rwa [LockMachine.setThread_setThread] at hblocked

theorem inversionState_waits : LockMachine.Waits inversionState (.thread "fast") "x" :=
  ⟨inversionCall, by rw [inversionState, LockMachine.setThread_self]⟩

theorem inversionState_holds : LockMachine.Holds inversionState (.thread "slow") "x" := by
  have hslow : inversionState (.thread "slow") = inversionHeld (.thread "slow") :=
    LockMachine.setThread_ne _ _ (by decide)
  rw [LockMachine.Holds, hslow, inversionHeld, LockMachine.setThread_self]
  decide

theorem inversion_reported_fast :
    Raises priorityInversionWindow inversionTopology
      ∨ ∃ info origins low high f, Reports priorityInversionWindow inversionTopology f
        ∧ f = PriorityInversionWindow.finding inversionTopology "x" info origins low high
        ∧ f.subject = "x" ∧ low ≤ 5 ∧ 20 ≤ high
        ∧ ((10 : Int) ≤ 20 - 5 → f.severity = .warning) :=
  inversion_reported inversionTopology inversionState inversionState_reachable (.thread "fast")
    (.thread "slow") "x" inversionState_waits inversionState_holds 20 5 (by decide) (by decide)
    (by decide)

/-- **Contention across CPUs is reported**: the affinity check has a finding
on an instance when two of its contenders are pinned to different CPUs, and
then only. So it has one whenever, in a state the threads can reach, a thread
waits for a mutex that a thread on another CPU holds. -/
theorem parallel_reported (g : TopologyGraph) (cpu : String → Option Int) :
    (∀ x, (∃ f, Reports (cpuAffinity cpu) g f ∧ f.subject = x)
      ↔ ¬ Raises (cpuAffinity cpu) g ∧ ∃ o u c c', Contends g x o ∧ Contends g x u
        ∧ CpuAffinity.threadCpu g cpu o = some c ∧ CpuAffinity.threadCpu g cpu u = some c'
        ∧ c ≠ c')
    ∧ ∀ s, RunState g s → ∀ o u x c c', LockMachine.Waits s o x → LockMachine.Holds s u x →
      CpuAffinity.threadCpu g cpu o = some c → CpuAffinity.threadCpu g cpu u = some c' → c ≠ c' →
      Raises (cpuAffinity cpu) g ∨ ∃ f, Reports (cpuAffinity cpu) g f ∧ f.subject = x := by
  have hexact : ∀ x, (∃ f, Reports (cpuAffinity cpu) g f ∧ f.subject = x)
      ↔ ¬ Raises (cpuAffinity cpu) g ∧ ∃ o u c c', Contends g x o ∧ Contends g x u
        ∧ CpuAffinity.threadCpu g cpu o = some c ∧ CpuAffinity.threadCpu g cpu u = some c'
        ∧ c ≠ c' := by
    intro x
    constructor
    · rintro ⟨f, hf, rfl⟩
      obtain ⟨hno, x, info, origins, hget, _, hmem, hreport⟩ :=
        (Contention.reports_contenders_iff rfl).mp hf
      obtain ⟨low, high, hspread, hlt⟩ :=
        CpuAffinity.report_ne_nil.mp (List.ne_nil_of_mem hreport)
      obtain ⟨o, ho, hlow⟩ := hspread.least
      obtain ⟨u, hu, hhigh⟩ := hspread.greatest
      rw [CpuAffinity.subject_of_mem_report hreport]
      exact ⟨hno, o, u, low, high, (hmem o).mp ho, (hmem u).mp hu, hlow, hhigh, hlt.ne⟩
    · rintro ⟨hno, o, u, c, c', ho, hu, hc, hc', hne⟩
      have hresolve : RateGroupBudget.RunsResolve g :=
        by_contra fun hun => hno ((Contention.raises_iff rfl).mpr ⟨hun, ho.hasGuarded⟩)
      obtain ⟨info, port, hget, hk, _⟩ := id ho
      obtain ⟨origins, hmem⟩ := exists_contenders hresolve hget
      have hreport : CpuAffinity.report g cpu x info.guardedEntries origins ≠ [] :=
        CpuAffinity.report_ne_nil.mpr
          (exists_spread ((hmem o).mpr ho) hc ((hmem u).mpr hu) hc' hne)
      obtain ⟨f, hf⟩ := List.exists_mem_of_ne_nil _ hreport
      exact ⟨f, (Contention.reports_contenders_iff rfl).mpr ⟨hno, x, info, origins, hget,
        Contention.guardedEntries_ne_nil.mpr ⟨port, hk⟩, hmem, hf⟩,
        CpuAffinity.subject_of_mem_report hf⟩
  refine ⟨hexact, fun s hs o u x c c' hwaits hholds hc hc' hne => ?_⟩
  by_cases hraises : Raises (cpuAffinity cpu) g
  · exact .inl hraises
  · exact .inr ((hexact x).mpr ⟨hraises, o, u, c, c', hs.contends (.inr hwaits),
      hs.contends (.inl hholds), hc, hc', hne⟩)

/-- The waiting thread and the one it waits for, pinned to different CPUs. -/
theorem parallel_reported_fast :
    Raises (cpuAffinity fun name => if name = "fast" then some 0 else some 1) inversionTopology
      ∨ ∃ f, Reports (cpuAffinity fun name => if name = "fast" then some 0 else some 1)
        inversionTopology f ∧ f.subject = "x" :=
  (parallel_reported inversionTopology fun name => if name = "fast" then some 0 else some 1).2
    inversionState inversionState_reachable (.thread "fast") (.thread "slow") "x" 0 1
    inversionState_waits inversionState_holds (by decide) (by decide) (by decide)

end FprimeTopologyAnalysis
