/-
FprimeTopologyAnalysis.DrainCache — the cache of the drain inference
(`infer_instance_thread_info` and `analyze` of `async_queue_analyzer.py`).

`analyze` asks for the thread of one instance after another and shares one
cache. A call that meets an instance being visited answers with a cycle, but
that answer is never stored: the instances on the cycle store their own,
which say what a fresh call would say. So a cache holds nothing but plain answers
(`Sound`), and no order of queries shows (`shared_cache`).

The induction is on the evaluation of a call (`Infers`), which every call
has: no instance is visited twice.
-/
import FprimeTopologyAnalysis.DrainThread

namespace FprimeTopologyAnalysis

open Library

namespace LoadedTopology

variable (g : LoadedTopology)

/-! ## Queries -/

/-- The answer with an empty cache. -/
def plainInfo (name : Option String) : InstanceThreadInfo := (g.inferInstanceThreadInfo name ∅).1

/-- The answers to one query after another, sharing `cache`. -/
def sharedInfos : List (Option String) → ThreadCache → List InstanceThreadInfo
  | [], _ => []
  | name :: names, cache =>
    let r := g.inferInstanceThreadInfo name cache
    r.1 :: sharedInfos names r.2

/-! ## Evaluations -/

/-- A call of `infer_instance_thread_info` with the instances being visited,
the instance asked for and the cache, and what it returns and leaves: the
calls it makes have returned. -/
inductive Infers : Finset String → Option String → ThreadCache →
    InstanceThreadInfo × ThreadCache → Prop
  | noName {visiting : Finset String} {cache : ThreadCache} :
      Infers visiting none cache (.unknown "thread context unknown", cache)
  | notFound {visiting : Finset String} {name : String} {cache : ThreadCache} :
      g.instances.get? name = none →
      Infers visiting (some name) cache (.unknown "thread context unknown", cache)
  | cached {visiting : Finset String} {name : String} {info : InstanceInfo} {cache : ThreadCache}
      {result : InstanceThreadInfo} :
      g.instances.get? name = some info → cache.get? name = some result →
      Infers visiting (some name) cache (result, cache)
  | cycle {visiting : Finset String} {name : String} {info : InstanceInfo} {cache : ThreadCache} :
      g.instances.get? name = some info → cache.get? name = none → name ∈ visiting →
      Infers visiting (some name) cache (.unknown "drain context cycle detected", cache)
  | active {visiting : Finset String} {name : String} {info : InstanceInfo} {cache : ThreadCache} :
      g.instances.get? name = some info → cache.get? name = none → name ∉ visiting →
      info.kind = .active →
      Infers visiting (some name) cache
        (.active info.taskPriority, cache.set name (.active info.taskPriority))
  | passive {visiting : Finset String} {name : String} {info : InstanceInfo} {cache : ThreadCache} :
      g.instances.get? name = some info → cache.get? name = none → name ∉ visiting →
      info.kind = .passive →
      Infers visiting (some name) cache
        (⟨.passive, "passive component context", none, none⟩,
          cache.set name ⟨.passive, "passive component context", none, none⟩)
  | undrained {visiting : Finset String} {name : String} {info : InstanceInfo}
      {cache : ThreadCache} :
      g.instances.get? name = some info → cache.get? name = none → name ∉ visiting →
      info.kind = .queued → g.drainSource name = none →
      Infers visiting (some name) cache
        (⟨.queued, "queued drain context unknown", none, none⟩,
          cache.set name ⟨.queued, "queued drain context unknown", none, none⟩)
  | drained {visiting : Finset String} {name : String} {info : InstanceInfo} {source : ConnectionEnd}
      {cache cache' : ThreadCache} {caller : InstanceThreadInfo} :
      g.instances.get? name = some info → cache.get? name = none → name ∉ visiting →
      info.kind = .queued → g.drainSource name = some source →
      Infers (insert name visiting) (some source.port.inst) cache (caller, cache') →
      Infers visiting (some name) cache
        (.queued source caller.priority, cache'.set name (.queued source caller.priority))

/-- **Every call returns**, and no call made on the way is cut off by the
depth: what `inferWithin` computes has an evaluation. -/
theorem infers_inferWithin : ∀ (fuel : Nat) (visiting : Finset String) (name : Option String)
    (cache : ThreadCache), (g.unvisited visiting).card < fuel →
    g.Infers visiting name cache (g.inferWithin fuel visiting name cache)
  | 0, _, _, _, h => by omega
  | _ + 1, _, none, _, _ => .noName
  | fuel + 1, visiting, some name, cache, h => by
      rw [inferWithin]
      cases hget : g.instances.get? name with
      | none => exact .notFound hget
      | some info =>
        dsimp only
        cases hcache : cache.get? name with
        | some result => exact .cached hget hcache
        | none =>
          dsimp only
          by_cases hmem : name ∈ visiting
          · rw [if_pos hmem]
            exact .cycle hget hcache hmem
          · rw [if_neg hmem]
            cases hk : info.kind with
            | active => exact .active hget hcache hmem hk
            | passive => exact .passive hget hcache hmem hk
            | queued =>
              dsimp only [queuedDrainInfo]
              cases hdrain : g.drainSource name with
              | none => exact .undrained hget hcache hmem hk hdrain
              | some source =>
                have hlt := card_unvisited_insert hget hmem
                exact .drained hget hcache hmem hk hdrain
                  (infers_inferWithin fuel _ _ cache (by omega))

theorem infers_inferInstanceThreadInfo (name : Option String) (cache : ThreadCache) :
    g.Infers ∅ name cache (g.inferInstanceThreadInfo name cache) := by
  refine g.infers_inferWithin _ ∅ name cache ?_
  have hcard : (g.unvisited ∅).card ≤ g.instances.keys.length := by
    unfold unvisited
    rw [Finset.sdiff_empty]
    exact List.toFinset_card_le _
  omega

/-! ## What a query answers -/

/-- The drain chain of an instance ends without a task: at a passive or
unknown instance, or at a queued one that nobody drains. -/
inductive EndsUntasked : String → Prop
  | notFound {name : String} : g.instances.get? name = none → EndsUntasked name
  | passive {name : String} {info : InstanceInfo} :
      g.instances.get? name = some info → info.kind = .passive → EndsUntasked name
  | undrained {name : String} {info : InstanceInfo} :
      g.instances.get? name = some info → info.kind = .queued → g.drainSource name = none →
      EndsUntasked name
  | drained {name : String} {info : InstanceInfo} {source : ConnectionEnd} :
      g.instances.get? name = some info → info.kind = .queued → g.drainSource name = some source →
      EndsUntasked source.port.inst → EndsUntasked name

/-- The drain chain of an instance runs into a cycle. -/
def RunsIntoCycle (name : String) : Prop :=
  ∃ x, Relation.ReflTransGen g.DrainedBy name x ∧ Relation.TransGen g.DrainedBy x x

open Classical in
/-- The priority of the servicing task, if there is one. -/
noncomputable def drainPriority (name : String) : Option Int :=
  if h : ∃ task, g.ServicedBy name task then
    (g.instances.get? h.choose).bind InstanceInfo.taskPriority
  else none

/-- The plain answer about an instance, with the priority as the drain chain
gives it. -/
noncomputable def settledInfo (name : String) : InstanceThreadInfo :=
  match g.instances.get? name with
  | none => .unknown "thread context unknown"
  | some info =>
    match info.kind with
    | .active => .active info.taskPriority
    | .passive => ⟨.passive, "passive component context", none, none⟩
    | .queued =>
      match g.drainSource name with
      | none => ⟨.queued, "queued drain context unknown", none, none⟩
      | some source => .queued source (g.drainPriority source.port.inst)

/-- The cache holds nothing but plain answers. -/
def Sound (cache : ThreadCache) : Prop :=
  ∀ name result, cache.get? name = some result → result = g.settledInfo name

variable {g}

theorem Sound.empty : g.Sound ∅ := by
  intro name result h
  simp at h

theorem Sound.set {cache : ThreadCache} (h : g.Sound cache) (name : String) :
    g.Sound (cache.set name (g.settledInfo name)) := by
  intro other result hget
  rw [Dict.get?_set] at hget
  split at hget
  · rename_i heq
    rw [← Option.some.inj hget, heq]
  · exact h other result hget

/-- Whoever drains an instance is serviced by the same task. -/
theorem ServicedBy.of_drainedBy {name caller task : String} (h : g.ServicedBy name task)
    (hdrained : g.DrainedBy name caller) : g.ServicedBy caller task := by
  obtain ⟨info, source, hget, hk, hdrain, rfl⟩ := hdrained
  cases h with
  | active hget' hk' =>
    obtain rfl := Option.some.inj (hget.symm.trans hget')
    rw [hk] at hk'
    cases hk'
  | queued _ _ hdrain' hrest =>
    obtain rfl := Option.some.inj (hdrain.symm.trans hdrain')
    exact hrest

theorem ServicedBy.of_reached {name x task : String} (h : g.ServicedBy name task)
    (hreach : Relation.ReflTransGen g.DrainedBy name x) : g.ServicedBy x task := by
  induction hreach with
  | refl => exact h
  | tail _ hstep ih => exact ih.of_drainedBy hstep

theorem RunsIntoCycle.not_servicedBy {name task : String} (h : g.RunsIntoCycle name) :
    ¬ g.ServicedBy name task := by
  obtain ⟨x, hreach, hloop⟩ := h
  exact fun hserviced => (hserviced.of_reached hreach).acyclic hloop

theorem EndsUntasked.not_servicedBy {name task : String} (h : g.EndsUntasked name) :
    ¬ g.ServicedBy name task := by
  induction h with
  | notFound hget =>
    intro hserviced
    cases hserviced with
    | active hget' _ => cases hget.symm.trans hget'
    | queued hget' _ _ _ => cases hget.symm.trans hget'
  | passive hget hk =>
    intro hserviced
    cases hserviced with
    | active hget' hk' =>
      obtain rfl := Option.some.inj (hget.symm.trans hget')
      cases hk.symm.trans hk'
    | queued hget' hk' _ _ =>
      obtain rfl := Option.some.inj (hget.symm.trans hget')
      cases hk.symm.trans hk'
  | undrained hget hk hdrain =>
    intro hserviced
    cases hserviced with
    | active hget' hk' =>
      obtain rfl := Option.some.inj (hget.symm.trans hget')
      cases hk.symm.trans hk'
    | queued _ _ hdrain' _ => cases hdrain.symm.trans hdrain'
  | drained hget hk hdrain _ ih =>
    exact fun hserviced => ih (hserviced.of_drainedBy ⟨_, _, hget, hk, hdrain, rfl⟩)

theorem drainPriority_of_servicedBy {name task : String} {info : InstanceInfo}
    (h : g.ServicedBy name task) (hget : g.instances.get? task = some info) :
    g.drainPriority name = info.taskPriority := by
  have hex : ∃ task, g.ServicedBy name task := ⟨task, h⟩
  rw [drainPriority, dif_pos hex, hex.choose_spec.unique h, hget]
  rfl

theorem drainPriority_of_not {name : String} (h : ¬ ∃ task, g.ServicedBy name task) :
    g.drainPriority name = none :=
  dif_neg h

/-- An active instance at the end of a drain chain is known. -/
theorem ServicedBy.exists_info {name task : String} (h : g.ServicedBy name task) :
    ∃ info, g.instances.get? task = some info := by
  induction h with
  | active hget _ => exact ⟨_, hget⟩
  | queued _ _ _ _ ih => exact ih

/-- A queued instance has the priority of whoever drains it. -/
theorem drainPriority_drained {name : String} {info : InstanceInfo} {source : ConnectionEnd}
    (hget : g.instances.get? name = some info) (hk : info.kind = .queued)
    (hdrain : g.drainSource name = some source) :
    g.drainPriority name = g.drainPriority source.port.inst := by
  by_cases h : ∃ task, g.ServicedBy source.port.inst task
  · obtain ⟨task, h⟩ := h
    obtain ⟨taskInfo, htask⟩ := h.exists_info
    rw [drainPriority_of_servicedBy h htask,
      drainPriority_of_servicedBy (.queued hget hk hdrain h) htask]
  · rw [drainPriority_of_not h, drainPriority_of_not]
    rintro ⟨task, hserviced⟩
    exact h ⟨task, hserviced.of_drainedBy ⟨info, source, hget, hk, hdrain, rfl⟩⟩

/-- The priority in a plain answer is the drain chain's. -/
theorem settledInfo_priority (name : String) :
    (g.settledInfo name).priority = g.drainPriority name := by
  unfold settledInfo
  cases hget : g.instances.get? name with
  | none =>
    refine (drainPriority_of_not ?_).symm
    rintro ⟨task, hserviced⟩
    exact (EndsUntasked.notFound hget).not_servicedBy hserviced
  | some info =>
    dsimp only
    cases hk : info.kind with
    | active => exact (drainPriority_of_servicedBy (.active hget hk) hget).symm
    | passive =>
      refine (drainPriority_of_not ?_).symm
      rintro ⟨task, hserviced⟩
      exact (EndsUntasked.passive hget hk).not_servicedBy hserviced
    | queued =>
      dsimp only
      cases hdrain : g.drainSource name with
      | none =>
        refine (drainPriority_of_not ?_).symm
        rintro ⟨task, hserviced⟩
        exact (EndsUntasked.undrained hget hk hdrain).not_servicedBy hserviced
      | some source => exact (drainPriority_drained hget hk hdrain).symm

/-- The instances being visited stay on the drain chain. -/
theorem visited_drained {visiting : Finset String} {name caller : String}
    (hstep : g.DrainedBy name caller)
    (hvisiting : ∀ n ∈ some name, ∀ v ∈ visiting, Relation.TransGen g.DrainedBy v n) :
    ∀ n ∈ some caller, ∀ v ∈ insert name visiting, Relation.TransGen g.DrainedBy v n := by
  intro n hn v hv
  obtain rfl := Option.some.inj hn
  rcases Finset.mem_insert.mp hv with rfl | hv
  · exact .single hstep
  · exact (hvisiting name rfl v hv).tail hstep

/-- **A call answers plainly.** With a sound cache, and with nothing being
visited but the chain that led here, a call leaves the cache sound; its
answer has the priority of the drain chain, and is the plain one unless the
call has come back to an instance being visited. -/
theorem Infers.settled {visiting : Finset String} {name : Option String} {cache : ThreadCache}
    {r : InstanceThreadInfo × ThreadCache} (h : g.Infers visiting name cache r)
    (hsound : g.Sound cache)
    (hvisiting : ∀ n ∈ name, ∀ v ∈ visiting, Relation.TransGen g.DrainedBy v n) :
    g.Sound r.2 ∧ ∀ n ∈ name, r.1.priority = g.drainPriority n
      ∧ (n ∉ visiting → r.1 = g.settledInfo n) := by
  -- where the answer is the plain one and it is stored
  have hstored : ∀ {cache : ThreadCache} {n : String} {result : InstanceThreadInfo}
      {visiting : Finset String}, g.Sound cache → result = g.settledInfo n →
      g.Sound (cache.set n result) ∧ ∀ n' ∈ some n, result.priority = g.drainPriority n'
        ∧ (n' ∉ visiting → result = g.settledInfo n') := by
    rintro cache n result visiting hsound rfl
    refine ⟨hsound.set n, ?_⟩
    rintro n' hn'
    obtain rfl := Option.some.inj hn'
    exact ⟨settledInfo_priority n, fun _ => rfl⟩
  induction h with
  | noName => exact ⟨hsound, by simp⟩
  | @notFound _ n _ hget =>
    refine ⟨hsound, fun n' hn' => ?_⟩
    obtain rfl := Option.some.inj hn'
    have hplain : g.settledInfo n = .unknown "thread context unknown" := by
      simp only [settledInfo, hget]
    exact ⟨by rw [← settledInfo_priority, hplain], fun _ => hplain.symm⟩
  | @cached _ n _ _ result _ hcache =>
    refine ⟨hsound, fun n' hn' => ?_⟩
    obtain rfl := Option.some.inj hn'
    have hplain := hsound n result hcache
    exact ⟨by rw [← settledInfo_priority, hplain], fun _ => hplain⟩
  | @cycle _ n _ _ _ _ hmem =>
    refine ⟨hsound, fun n' hn' => ?_⟩
    obtain rfl := Option.some.inj hn'
    -- the instance is on a cycle of drains, so no task services it
    have hloop : g.RunsIntoCycle n := ⟨n, .refl, hvisiting n rfl n hmem⟩
    refine ⟨(drainPriority_of_not ?_).symm, fun hnot => absurd hmem hnot⟩
    rintro ⟨task, hserviced⟩
    exact hloop.not_servicedBy hserviced
  | active hget _ _ hk => exact hstored hsound (by simp only [settledInfo, hget, hk])
  | passive hget _ _ hk => exact hstored hsound (by simp only [settledInfo, hget, hk])
  | undrained hget _ _ hk hdrain =>
    exact hstored hsound (by simp only [settledInfo, hget, hk, hdrain])
  | @drained _ n _ source _ _ caller hget _ _ hk hdrain _ ih =>
    have hstep : g.DrainedBy n source.port.inst := ⟨_, source, hget, hk, hdrain, rfl⟩
    obtain ⟨hsound', hcaller⟩ := ih hsound (visited_drained hstep hvisiting)
    have hpriority := (hcaller _ rfl).1
    refine hstored hsound' ?_
    simp only [settledInfo, hget, hk, hdrain]
    exact congrArg (InstanceThreadInfo.queued source) hpriority

/-- Where a drain chain comes to: what a call on it finds. -/
theorem Infers.chain_ends {visiting : Finset String} {name : Option String}
    {r : InstanceThreadInfo × ThreadCache} (h : g.Infers visiting name ∅ r)
    (hvisiting : ∀ n ∈ name, ∀ v ∈ visiting, Relation.TransGen g.DrainedBy v n) :
    ∀ n ∈ name, (∃ task, g.ServicedBy n task) ∨ g.EndsUntasked n ∨ g.RunsIntoCycle n := by
  generalize hempty : (∅ : ThreadCache) = cache at h
  induction h with
  | noName => simp
  | @notFound _ n _ hget =>
    intro n' hn'
    obtain rfl := Option.some.inj hn'
    exact .inr (.inl (.notFound hget))
  | cached _ hcache =>
    rw [← hempty] at hcache
    simp at hcache
  | @cycle _ n _ _ _ _ hmem =>
    intro n' hn'
    obtain rfl := Option.some.inj hn'
    exact .inr (.inr ⟨n, .refl, hvisiting n rfl n hmem⟩)
  | @active _ n _ _ hget _ _ hk =>
    intro n' hn'
    obtain rfl := Option.some.inj hn'
    exact .inl ⟨n, .active hget hk⟩
  | @passive _ n _ _ hget _ _ hk =>
    intro n' hn'
    obtain rfl := Option.some.inj hn'
    exact .inr (.inl (.passive hget hk))
  | @undrained _ n _ _ hget _ _ hk hdrain =>
    intro n' hn'
    obtain rfl := Option.some.inj hn'
    exact .inr (.inl (.undrained hget hk hdrain))
  | @drained _ n _ source _ _ _ hget _ _ hk hdrain _ ih =>
    intro n' hn'
    obtain rfl := Option.some.inj hn'
    have hstep : g.DrainedBy n source.port.inst := ⟨_, source, hget, hk, hdrain, rfl⟩
    rcases ih (visited_drained hstep hvisiting) hempty _ rfl with ⟨task, h⟩ | h | ⟨x, hreach, hloop⟩
    · exact .inl ⟨task, .queued hget hk hdrain h⟩
    · exact .inr (.inl (.drained hget hk hdrain h))
    · exact .inr (.inr ⟨x, .head hstep hreach, hloop⟩)

/-! ## Shared caches -/

theorem settled_query {cache : ThreadCache} (hsound : g.Sound cache) (name : Option String) :
    g.Sound (g.inferInstanceThreadInfo name cache).2
      ∧ (g.inferInstanceThreadInfo name cache).1 = g.plainInfo name := by
  have hcall : ∀ {cache : ThreadCache}, g.Sound cache → _ := fun hsound =>
    (g.infers_inferInstanceThreadInfo name _).settled hsound (by simp)
  refine ⟨(hcall hsound).1, ?_⟩
  cases name with
  | none => rfl
  | some n =>
    rw [plainInfo, ((hcall hsound).2 n rfl).2 (Finset.notMem_empty n),
      ((hcall Sound.empty).2 n rfl).2 (Finset.notMem_empty n)]

theorem sharedInfos_eq : ∀ (names : List (Option String)) {cache : ThreadCache}, g.Sound cache →
    g.sharedInfos names cache = names.map g.plainInfo
  | [], _, _ => rfl
  | name :: names, cache, hsound => by
      obtain ⟨hsound', hplain⟩ := settled_query hsound name
      rw [sharedInfos, List.map_cons, ← sharedInfos_eq names hsound', hplain]

theorem plainInfo_eq (name : String) : g.plainInfo (some name) = g.settledInfo name :=
  (((g.infers_inferInstanceThreadInfo (some name) ∅).settled Sound.empty (by simp)).2 name rfl).2
    (Finset.notMem_empty name)

/-- **A shared cache does not show.** Whatever the graph and the queries, in
any order, each answer is the one an empty cache gives, and every call
returns. A queued instance has the priority of the active one its drain chain
ends at, and none where the chain ends without a task or runs into a cycle;
there is no other way for it to end. -/
theorem shared_cache (g : LoadedTopology) :
    (∀ names, g.sharedInfos names ∅ = names.map g.plainInfo)
      ∧ (∀ name cache, g.Infers ∅ name cache (g.inferInstanceThreadInfo name cache))
      ∧ ∀ name info, g.instances.get? name = some info → info.kind = .queued →
        (g.plainInfo (some name)).kind = .queued
          ∧ (∀ task taskInfo, g.ServicedBy name task → g.instances.get? task = some taskInfo →
            (g.plainInfo (some name)).priority = taskInfo.taskPriority)
          ∧ (g.EndsUntasked name ∨ g.RunsIntoCycle name →
            (g.plainInfo (some name)).priority = none)
          ∧ ((∃ task, g.ServicedBy name task) ∨ g.EndsUntasked name ∨ g.RunsIntoCycle name) := by
  refine ⟨fun names => sharedInfos_eq names Sound.empty, g.infers_inferInstanceThreadInfo,
    fun name info hget hk => ?_⟩
  rw [plainInfo_eq, settledInfo_priority]
  refine ⟨?_, fun task taskInfo h htask => drainPriority_of_servicedBy h htask, fun h => ?_,
    (g.infers_inferInstanceThreadInfo (some name) ∅).chain_ends (by simp) name rfl⟩
  · simp only [settledInfo, hget, hk]
    cases g.drainSource name <;> rfl
  · refine drainPriority_of_not ?_
    rintro ⟨task, hserviced⟩
    rcases h with h | h
    · exact h.not_servicedBy hserviced
    · exact h.not_servicedBy hserviced

end LoadedTopology

/-- The queued instance asked for before and after the one that drains it. -/
theorem shared_cache_drained :
    drainedGraph.sharedInfos [some "q", some "a", none, some "q"] ∅
        = [some "q", some "a", none, some "q"].map drainedGraph.plainInfo
      ∧ (drainedGraph.plainInfo (some "q")).priority = drainingComponent.info.taskPriority :=
  ⟨(LoadedTopology.shared_cache drainedGraph).1 _,
    ((LoadedTopology.shared_cache drainedGraph).2.2 "q" drainedComponent.info (by decide +kernel)
      rfl).2.1 "a" drainingComponent.info drainedGraph_servicedBy.2 (by decide +kernel)⟩

end FprimeTopologyAnalysis
