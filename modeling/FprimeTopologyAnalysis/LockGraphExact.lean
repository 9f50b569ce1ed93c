/-
FprimeTopologyAnalysis.LockGraphExact — the lock-order graph against its
lock chains.

`Sound` says every recorded edge and finding comes from a lock chain
within the depth bound; every step of the analyzer keeps it, whatever the
bounds. `RecordedFrom` says every such chain out of an entry has been
recorded; a walk without truncation establishes it and nothing undoes it.
Together they make the analyzer exact on the chains within the depth
(`buildLockGraph_spec`), and exact on all lock chains exactly when the
deeper ones add nothing (`lockGraphExact_iff`).
-/
import FprimeTopologyAnalysis.LockGraph

namespace FprimeTopologyAnalysis

open Library

variable {g : TopologyGraph} {cfg : AnalyzerSettings}

/-! ## Edges and findings come from chains -/

/-- An edge recorded under `key` comes from chains that nest its mutexes. -/
structure EdgeSound (g : TopologyGraph) (cfg : AnalyzerSettings) (key : String × String)
    (edge : LockEdge) : Prop where
  unsuppressed : key ∉ cfg.suppressions
  key_eq : (edge.holder, edge.acquired) = key
  witness : Nests g (Fits cfg) edge.entry key.1 key.2 edge.witness
  threads : ∀ o ∈ edge.threads, ∃ e w, Nests g (Fits cfg) e key.1 key.2 w ∧ g.Reaching o e

/-- A self-deadlock finding comes from chains that re-enter its mutex. -/
structure SelfSound (g : TopologyGraph) (cfg : AnalyzerSettings) (f : Finding) (x : String)
    (edge : LockEdge) : Prop where
  kind : f.kind = .selfDeadlock
  severity : f.severity = .error
  cycle : f.cycle = [x]
  edges : f.edges = [edge]
  unsuppressed : (x, x) ∉ cfg.suppressions
  key_eq : (edge.holder, edge.acquired) = (x, x)
  witness : ReEnters g (Fits cfg) edge.entry x edge.witness
  threads : ∀ o ∈ edge.threads, ∃ e w, ReEnters g (Fits cfg) e x w ∧ g.Reaching o e

/-- Everything recorded comes from a lock chain within the depth, and no
instance has two self-deadlock findings. -/
structure Sound (g : TopologyGraph) (cfg : AnalyzerSettings) (a : AnalyzerState) : Prop where
  edges : ∀ key edge, a.lockEdges.get? key = some edge → EdgeSound g cfg key edge
  findings : ∀ f ∈ a.findings, ∃ x edge, SelfSound g cfg f x edge
  nodup : (a.findings.map Finding.cycle).Nodup

theorem sound_init : Sound g cfg .init where
  edges key edge h := by simp [AnalyzerState.init] at h
  findings f hf := by simp [AnalyzerState.init] at hf
  nodup := by simp [AnalyzerState.init]

/-- Only the edges and the findings matter. -/
theorem Sound.of_eq {a b : AnalyzerState} (h : Sound g cfg a) (he : b.lockEdges = a.lockEdges)
    (hf : b.findings = a.findings) : Sound g cfg b :=
  ⟨he ▸ h.edges, hf ▸ h.findings, hf ▸ h.nodup⟩

theorem sound_recordEdge {entry : PortKey} {path : List String} {threads : Finset Origin}
    {a : AnalyzerState} {holder acquired : String} (h : Sound g cfg a)
    (hnest : Nests g (Fits cfg) entry holder acquired path)
    (hthreads : ∀ o ∈ threads, g.Reaching o entry) :
    Sound g cfg (recordEdge cfg acquired entry path threads a holder) := by
  unfold recordEdge
  split
  · exact h
  · rename_i hsupp
    refine ⟨?_, h.findings, h.nodup⟩
    intro key edge hget
    simp only [Dict.get?_set] at hget
    split at hget
    · rename_i hkey
      subst hkey
      obtain rfl := Option.some.inj hget
      have hnew : ∀ o ∈ threads, ∃ e w, Nests g (Fits cfg) e holder acquired w ∧ g.Reaching o e :=
        fun o ho => ⟨entry, path, hnest, hthreads o ho⟩
      cases hold : a.lockEdges.get? (holder, acquired) with
      | none => exact ⟨hsupp, rfl, hnest, hnew⟩
      | some existing =>
        have hex := h.edges _ _ hold
        have hboth : ∀ o ∈ existing.threads ∪ threads, ∃ e w,
            Nests g (Fits cfg) e holder acquired w ∧ g.Reaching o e := by
          intro o ho
          rcases Finset.mem_union.mp ho with ho | ho
          · exact hex.threads o ho
          · exact hnew o ho
        simp only [mergeEdge]
        split
        · exact ⟨hsupp, hex.key_eq, hnest, hboth⟩
        · exact ⟨hsupp, hex.key_eq, hex.witness, hboth⟩
    · exact h.edges key edge hget

theorem cycle_addThreads (f : Finding) (threads : Finset Origin) :
    (f.addThreads threads).cycle = f.cycle := by
  unfold Finding.addThreads
  cases f.edges <;> rfl

theorem kind_addThreads (f : Finding) (threads : Finset Origin) :
    (f.addThreads threads).kind = f.kind := by
  unfold Finding.addThreads
  cases f.edges <;> rfl

/-- The cycles after one self-deadlock record. -/
theorem map_cycle_recordSelf (fresh : Finding) (threads : Finset Origin) :
    ∀ {fs : List Finding}, (∀ f ∈ fs, f.kind = .selfDeadlock) →
      (recordSelf fresh threads fs).map Finding.cycle
        = if fresh.cycle ∈ fs.map Finding.cycle then fs.map Finding.cycle
          else fs.map Finding.cycle ++ [fresh.cycle]
  | [], _ => rfl
  | f :: rest, hkind => by
      have hf := hkind f (List.mem_cons_self ..)
      have ih := map_cycle_recordSelf fresh threads
        fun x hx => hkind x (List.mem_cons_of_mem _ hx)
      rw [recordSelf]
      by_cases hcycle : f.cycle = fresh.cycle
      · rw [if_pos ⟨hf, hcycle⟩]
        simp [cycle_addThreads, hcycle]
      · rw [if_neg fun h => hcycle h.2, List.map_cons, ih]
        have hcycle' : ¬ fresh.cycle = f.cycle := fun h => hcycle h.symm
        by_cases hmem : fresh.cycle ∈ rest.map Finding.cycle
        · rw [if_pos hmem, if_pos (by simpa using Or.inr (List.mem_map.mp hmem))]
          rfl
        · rw [if_neg hmem, List.map_cons, if_neg]
          · rfl
          · rw [List.mem_cons]
            exact fun h => h.elim hcycle' hmem

theorem mem_recordSelf {fresh f : Finding} {threads : Finset Origin} :
    ∀ {fs : List Finding}, f ∈ recordSelf fresh threads fs →
      f = fresh ∨ f ∈ fs ∨ ∃ f₀ ∈ fs, f₀.cycle = fresh.cycle ∧ f = f₀.addThreads threads
  | [], h => .inl (List.mem_singleton.mp h)
  | f₀ :: rest, h => by
      rw [recordSelf] at h
      split at h
      · rename_i hmatch
        rcases List.mem_cons.mp h with rfl | h
        · exact .inr (.inr ⟨f₀, List.mem_cons_self .., hmatch.2, rfl⟩)
        · exact .inr (.inl (List.mem_cons_of_mem _ h))
      · rcases List.mem_cons.mp h with rfl | h
        · exact .inr (.inl (List.mem_cons_self ..))
        · rcases mem_recordSelf h with rfl | hold | ⟨f₁, hf₁, hcycle, rfl⟩
          · exact .inl rfl
          · exact .inr (.inl (List.mem_cons_of_mem _ hold))
          · exact .inr (.inr ⟨f₁, List.mem_cons_of_mem _ hf₁, hcycle, rfl⟩)

theorem sound_recordSelfDeadlock {entry dest : PortKey} {held path : List String}
    {threads : Finset Origin} {a : AnalyzerState} (h : Sound g cfg a)
    (hre : ReEnters g (Fits cfg) entry dest.inst path)
    (hthreads : ∀ o ∈ threads, g.Reaching o entry) :
    Sound g cfg (recordSelfDeadlock cfg entry dest held path threads a) := by
  unfold recordSelfDeadlock
  split
  · exact h
  · rename_i hsupp
    have hkind : ∀ f ∈ a.findings, f.kind = .selfDeadlock := by
      intro f hf
      obtain ⟨x, edge, hs⟩ := h.findings f hf
      exact hs.kind
    have hnew : ∀ o ∈ threads, ∃ e w, ReEnters g (Fits cfg) e dest.inst w ∧ g.Reaching o e :=
      fun o ho => ⟨entry, path, hre, hthreads o ho⟩
    refine ⟨h.edges, ?_, ?_⟩
    · intro f hf
      rcases mem_recordSelf hf with rfl | hold | ⟨f₀, hf₀, hcycle, rfl⟩
      · exact ⟨dest.inst, _, ⟨rfl, rfl, rfl, rfl, hsupp, rfl, hre, hnew⟩⟩
      · exact h.findings f hold
      · obtain ⟨x, edge, hs⟩ := h.findings f₀ hf₀
        obtain rfl : x = dest.inst := by
          have hx := hs.cycle.symm.trans hcycle
          simpa [selfDeadlockFinding] using hx
        refine ⟨dest.inst, { edge with threads := edge.threads ∪ threads }, ?_⟩
        unfold Finding.addThreads
        rw [hs.edges]
        refine ⟨hs.kind, hs.severity, hs.cycle, rfl, hsupp, hs.key_eq, hs.witness, ?_⟩
        intro o ho
        rcases Finset.mem_union.mp ho with ho | ho
        · exact hs.threads o ho
        · exact hnew o ho
    · show ((recordSelf _ threads a.findings).map Finding.cycle).Nodup
      rw [map_cycle_recordSelf _ _ hkind]
      split
      · exact h.nodup
      · rename_i hnot
        exact List.Nodup.append h.nodup (by simp) (by simpa using hnot)

/-- The callback keeps soundness on every hop of a chain. -/
theorem sound_onHop {e : PortKey} {flowEntry : String} {threads : Finset Origin} {h : Handler}
    {held path : List String} {out : OutwardHop} {a : AnalyzerState}
    (hchain : LockChainWithin g (Fits cfg) e h held path) (hout : g.HopOut h out)
    (hthreads : ∀ o ∈ threads, g.Reaching o e) (ha : Sound g cfg a) :
    Sound g cfg (onHop cfg e threads
      ⟨e, flowEntry, out.source, out.dest, out.kind, path ++ [out.label], held⟩ a).2 := by
  unfold onHop
  dsimp only
  cases hkind : out.kind with
  | async => exact ha
  | sync => exact ha
  | guarded =>
    dsimp only
    split
    · rename_i hmem
      exact sound_recordSelfDeadlock ha
        ⟨h, held, path, out, hchain, hout, hkind, rfl, hmem, rfl⟩ hthreads
    · rename_i hnot
      have hfold : ∀ (holders : List String) (a : AnalyzerState), (∀ x ∈ holders, x ∈ held) →
          Sound g cfg a → Sound g cfg (holders.foldl
            (recordEdge cfg out.dest.inst e (path ++ [out.label]) threads) a) := by
        intro holders
        induction holders with
        | nil => exact fun a _ ha => ha
        | cons x xs ih =>
          intro a hsub ha
          exact ih _ (fun y hy => hsub y (List.mem_cons_of_mem _ hy))
            (sound_recordEdge ha ⟨h, held, path, out, hchain, hout, hkind, rfl, hnot,
              hsub x (List.mem_cons_self ..), rfl⟩ hthreads)
      have hsound := hfold held a (fun _ hx => hx) ha
      split
      · exact hsound.of_eq rfl rfl
      · exact hsound

/-! ## What has been recorded stays -/

/-- `key` has an edge that carries the threads. -/
def HasEdge (a : AnalyzerState) (key : String × String) (threads : Finset Origin) : Prop :=
  ∃ edge, a.lockEdges.get? key = some edge ∧ threads ⊆ edge.threads

/-- There is a self-deadlock finding about `x`. -/
def HasSelf (a : AnalyzerState) (x : String) : Prop :=
  ∃ f ∈ a.findings, f.kind = .selfDeadlock ∧ f.cycle = [x]

theorem mergeEdge_threads (holder acquired : String) (entry : PortKey) (path : List String)
    (threads : Finset Origin) (old : Option LockEdge) :
    threads ⊆ (mergeEdge holder acquired entry path threads old).threads
      ∧ ∀ edge, old = some edge →
        edge.threads ⊆ (mergeEdge holder acquired entry path threads old).threads := by
  cases old with
  | none => exact ⟨Finset.Subset.refl _, fun edge h => by cases h⟩
  | some existing =>
    simp only [mergeEdge]
    refine ⟨?_, fun edge h => ?_⟩
    · split
      · exact Finset.subset_union_right
      · exact Finset.subset_union_right
    · obtain rfl := Option.some.inj h
      split
      · exact Finset.subset_union_left
      · exact Finset.subset_union_left

theorem hasEdge_recordEdge (acquired : String) (entry : PortKey) (path : List String)
    (threads : Finset Origin) (a : AnalyzerState) (holder : String) {key : String × String}
    {old : Finset Origin} (h : HasEdge a key old) :
    HasEdge (recordEdge cfg acquired entry path threads a holder) key old := by
  unfold recordEdge
  split
  · exact h
  · obtain ⟨edge, hget, hsub⟩ := h
    unfold HasEdge
    simp only [Dict.get?_set]
    split
    · rename_i hkey
      subst hkey
      rw [hget]
      exact ⟨_, rfl, hsub.trans ((mergeEdge_threads _ _ _ _ _ _).2 edge rfl)⟩
    · exact ⟨edge, hget, hsub⟩

theorem recordEdge_hasEdge (acquired : String) (entry : PortKey) (path : List String)
    (threads : Finset Origin) (a : AnalyzerState) (holder : String)
    (hsupp : (holder, acquired) ∉ cfg.suppressions) :
    HasEdge (recordEdge cfg acquired entry path threads a holder) (holder, acquired) threads := by
  unfold recordEdge
  rw [if_neg hsupp]
  exact ⟨_, Dict.get?_set_self _ _ _, (mergeEdge_threads _ _ _ _ _ _).1⟩

theorem recordEdge_findings (acquired : String) (entry : PortKey) (path : List String)
    (threads : Finset Origin) (a : AnalyzerState) (holder : String) :
    (recordEdge cfg acquired entry path threads a holder).findings = a.findings := by
  unfold recordEdge
  split <;> rfl

/-- Recording the holders of one hop. -/
theorem recordEdges_spec (cfg : AnalyzerSettings) (acquired : String) (entry : PortKey)
    (path : List String)
    (threads : Finset Origin) : ∀ (holders : List String) (a : AnalyzerState),
      (∀ key old, HasEdge a key old →
        HasEdge (holders.foldl (recordEdge cfg acquired entry path threads) a) key old)
      ∧ (∀ x ∈ holders, (x, acquired) ∉ cfg.suppressions →
        HasEdge (holders.foldl (recordEdge cfg acquired entry path threads) a)
          (x, acquired) threads)
      ∧ (holders.foldl (recordEdge cfg acquired entry path threads) a).findings = a.findings
  | [], a => ⟨fun _ _ h => h, by simp, rfl⟩
  | x :: xs, a => by
      obtain ⟨hkeep, hnew, hfind⟩ := recordEdges_spec cfg acquired entry path threads xs
        (recordEdge cfg acquired entry path threads a x)
      refine ⟨fun key old h => hkeep key old (hasEdge_recordEdge _ _ _ _ _ _ h), ?_, ?_⟩
      · intro y hy hsupp
        rcases List.mem_cons.mp hy with rfl | hy
        · exact hkeep _ _ (recordEdge_hasEdge _ _ _ _ _ _ hsupp)
        · exact hnew y hy hsupp
      · exact hfind.trans (recordEdge_findings _ _ _ _ _ _)

theorem hasSelf_recordSelf {fresh : Finding} {threads : Finset Origin} {x : String}
    (hfresh : fresh.kind = .selfDeadlock) : ∀ {fs : List Finding},
      (∃ f ∈ fs, f.kind = .selfDeadlock ∧ f.cycle = [x]) ∨ fresh.cycle = [x] →
      ∃ f ∈ recordSelf fresh threads fs, f.kind = .selfDeadlock ∧ f.cycle = [x]
  | [], h => by
      rcases h with ⟨f, hf, _⟩ | hcycle
      · simp at hf
      · exact ⟨fresh, List.mem_singleton_self _, hfresh, hcycle⟩
  | f₀ :: rest, h => by
      rw [recordSelf]
      split
      · rename_i hmatch
        have hhead : fresh.cycle = [x] → ∃ f ∈ f₀.addThreads threads :: rest,
            f.kind = .selfDeadlock ∧ f.cycle = [x] := fun hcycle =>
          ⟨_, List.mem_cons_self .., (kind_addThreads ..).trans hmatch.1,
            (cycle_addThreads ..).trans (hmatch.2.trans hcycle)⟩
        rcases h with ⟨f, hf, hk, hcycle⟩ | hcycle
        · rcases List.mem_cons.mp hf with rfl | hf
          · exact hhead (hmatch.2.symm.trans hcycle)
          · exact ⟨f, List.mem_cons_of_mem _ hf, hk, hcycle⟩
        · exact hhead hcycle
      · have hrest : (∃ f ∈ rest, f.kind = .selfDeadlock ∧ f.cycle = [x]) ∨ fresh.cycle = [x] →
            ∃ f ∈ f₀ :: recordSelf fresh threads rest, f.kind = .selfDeadlock ∧ f.cycle = [x] := by
          intro h'
          obtain ⟨f, hf, hspec⟩ := hasSelf_recordSelf hfresh h'
          exact ⟨f, List.mem_cons_of_mem _ hf, hspec⟩
        rcases h with ⟨f, hf, hk, hcycle⟩ | hcycle
        · rcases List.mem_cons.mp hf with rfl | hf
          · exact ⟨f, List.mem_cons_self .., hk, hcycle⟩
          · exact hrest (.inl ⟨f, hf, hk, hcycle⟩)
        · exact hrest (.inr hcycle)

/-- What the callback must have recorded once it has been shown a hop. -/
def RecordedHop (cfg : AnalyzerSettings) (threads : Finset Origin) (hop : Hop (List String))
    (a : AnalyzerState) : Prop :=
  hop.kind = .guarded →
    (hop.dest.inst ∈ hop.state → (hop.dest.inst, hop.dest.inst) ∉ cfg.suppressions →
      HasSelf a hop.dest.inst)
    ∧ (hop.dest.inst ∉ hop.state → ∀ x ∈ hop.state, (x, hop.dest.inst) ∉ cfg.suppressions →
      HasEdge a (x, hop.dest.inst) threads)

/-- The callback keeps every edge with its threads and every finding. -/
theorem onHop_keeps (cfg : AnalyzerSettings) (entry : PortKey) (threads : Finset Origin)
    (hop : Hop (List String))
    (a : AnalyzerState) :
    (∀ key old, HasEdge a key old → HasEdge (onHop cfg entry threads hop a).2 key old)
      ∧ ∀ x, HasSelf a x → HasSelf (onHop cfg entry threads hop a).2 x := by
  unfold onHop
  cases hop.kind with
  | async => exact ⟨fun _ _ h => h, fun _ h => h⟩
  | sync => exact ⟨fun _ _ h => h, fun _ h => h⟩
  | guarded =>
    dsimp only
    split
    · unfold recordSelfDeadlock
      split
      · exact ⟨fun _ _ h => h, fun _ h => h⟩
      · exact ⟨fun _ _ h => h, fun x h => hasSelf_recordSelf rfl (.inl h)⟩
    · obtain ⟨hkeep, _, hfind⟩ := recordEdges_spec cfg hop.dest.inst entry hop.path
        threads hop.state a
      split
      · exact ⟨hkeep, fun x h => by unfold HasSelf; rw [hfind]; exact h⟩
      · exact ⟨hkeep, fun x h => by unfold HasSelf; rw [hfind]; exact h⟩

theorem recordedHop_onHop (entry : PortKey) (threads : Finset Origin) (hop : Hop (List String))
    (a : AnalyzerState) : RecordedHop cfg threads hop (onHop cfg entry threads hop a).2 := by
  intro hkind
  unfold onHop
  rw [hkind]
  dsimp only
  split
  · rename_i hmem
    refine ⟨fun _ hsupp => ?_, fun hnot => absurd hmem hnot⟩
    unfold recordSelfDeadlock
    rw [if_neg hsupp]
    exact hasSelf_recordSelf rfl (.inr rfl)
  · rename_i hnot
    refine ⟨fun hmem => absurd hmem hnot, fun _ x hx hsupp => ?_⟩
    have hnew := (recordEdges_spec cfg hop.dest.inst entry hop.path threads
      hop.state a).2.1 x hx hsupp
    split
    · exact hnew
    · exact hnew

theorem recordedHop_keeps {entry : PortKey} {threads threads' : Finset Origin}
    {hop hop' : Hop (List String)} {a : AnalyzerState} (h : RecordedHop cfg threads' hop a) :
    RecordedHop cfg threads' hop (onHop cfg entry threads hop' a).2 := by
  intro hkind
  obtain ⟨hself, hedge⟩ := h hkind
  obtain ⟨hkeep, hkeepSelf⟩ := onHop_keeps cfg entry threads hop' a
  exact ⟨fun hmem hsupp => hkeepSelf _ (hself hmem hsupp),
    fun hnot x hx hsupp => hkeep _ _ (hedge hnot x hx hsupp)⟩

/-! ## One entry -/

/-- Equal sets of held mutexes have the same future: the stacks of a chain
have no repetition, so they are of one length. -/
theorem lockPolicy_respects (maxLockDepth : Int) {held held' : List String} (hnd : held.Nodup)
    (hnd' : held'.Nodup) (hset : held.toFinset = held'.toFinset) (source dest : PortKey)
    (kind : SyncKind) :
    (lockPolicy maxLockDepth source dest kind held).map List.toFinset
      = (lockPolicy maxLockDepth source dest kind held').map List.toFinset := by
  have hmem : dest.inst ∈ held ↔ dest.inst ∈ held' := by
    rw [← List.mem_toFinset, hset, List.mem_toFinset]
  have hlen : held.length = held'.length := by
    rw [← List.toFinset_card_of_nodup hnd, hset, List.toFinset_card_of_nodup hnd']
  cases kind with
  | async => rfl
  | sync => simp [lockPolicy, hset]
  | guarded =>
    simp only [lockPolicy, hmem, hlen]
    split
    · rfl
    · split
      · rfl
      · simp [hset]

/-- Everything the chains of entry `e` within the depth do is recorded. -/
structure RecordedFrom (g : TopologyGraph) (cfg : AnalyzerSettings) (e : PortKey)
    (threads : Finset Origin) (a : AnalyzerState) : Prop where
  nests : ∀ holder acquired w, Nests g (Fits cfg) e holder acquired w →
    (holder, acquired) ∉ cfg.suppressions → HasEdge a (holder, acquired) threads
  reenters : ∀ x w, ReEnters g (Fits cfg) e x w → (x, x) ∉ cfg.suppressions → HasSelf a x

theorem onHop_decides (cfg : AnalyzerSettings) (entry : PortKey) (threads : Finset Origin) :
    Decides (onHop cfg entry threads) (lockPolicy cfg.maxLockDepth) := by
  intro hop a
  unfold onHop lockPolicy
  cases hop.kind with
  | async => rfl
  | sync => rfl
  | guarded =>
    dsimp only
    split
    · rfl
    · split
      · rfl
      · rfl

/-- The walk of one entry keeps everything recorded before. -/
theorem walk_keeps (cfg : AnalyzerSettings) (e : PortKey) (threads : Finset Origin)
    (w : WalkState (Finset String) AnalyzerState) :
    (∀ key old, HasEdge w.acc key old → HasEdge
        (g.walkChains e .guarded (onHop cfg e threads) [e.inst] List.toFinset w).2.acc key old)
      ∧ ∀ x, HasSelf w.acc x → HasSelf
        (g.walkChains e .guarded (onHop cfg e threads) [e.inst] List.toFinset w).2.acc x := by
  refine ⟨fun key old h => ?_, fun x h => ?_⟩
  · exact TopologyGraph.walkChains_inv (onHop_decides cfg e threads)
      (fun a => HasEdge a key old)
      (fun _ _ _ _ _ _ a _ _ ha => (onHop_keeps cfg e threads _ a).1 key old ha) 0 w h
  · exact TopologyGraph.walkChains_inv (onHop_decides cfg e threads)
      (fun a => HasSelf a x)
      (fun _ _ _ _ _ _ a _ _ ha => (onHop_keeps cfg e threads _ a).2 x ha) 0 w h

theorem walk_sound (cfg : AnalyzerSettings) {e : PortKey} (he : e ∈ guardedInputs g)
    {threads : Finset Origin}
    (hthreads : ∀ o ∈ threads, g.Reaching o e) (w : WalkState (Finset String) AnalyzerState)
    (hw : Sound g cfg w.acc) :
    Sound g cfg
      (g.walkChains e .guarded (onHop cfg e threads) [e.inst] List.toFinset w).2.acc := by
  refine TopologyGraph.walkChains_inv (onHop_decides cfg e threads) (Sound g cfg) ?_ 0 w hw
  intro flowEntry hflow h held path out a hchain hout ha
  exact sound_onHop ((chain_iff_lockChainWithin he).mp ⟨flowEntry, hflow, hchain⟩) hout hthreads ha

/-- A walk of one entry without truncation records everything its chains
within the depth do. -/
theorem walk_recorded {e : PortKey} (he : e ∈ guardedInputs g) {threads : Finset Origin}
    {w w' : WalkState (Finset String) AnalyzerState}
    (hrun : g.walkChains e .guarded (onHop cfg e threads) [e.inst] List.toFinset w
      = (.ok false, w')) : RecordedFrom g cfg e threads w'.acc := by
  have hshown : ∀ h held path out, LockChainWithin g (Fits cfg) e h held path →
      g.HopOut h out → ∃ path' held', held'.toFinset = held.toFinset ∧ ∃ flowEntry,
        RecordedHop cfg threads
          ⟨e, flowEntry, out.source, out.dest, out.kind, path', held'⟩ w'.acc := by
    intro h held path out hchain hout
    obtain ⟨flowEntry, hflow, hwalk⟩ := (chain_iff_lockChainWithin he).mpr hchain
    have hkey : ∀ flowEntry ∈ g.entryFlows e .guarded, TopologyGraph.RespectsKey g
        (lockPolicy cfg.maxLockDepth) e .guarded [e.inst] List.toFinset flowEntry := by
      intro flowEntry hflow h held path h' held' path' hc hc' hset source dest kind
      exact lockPolicy_respects cfg.maxLockDepth
        ((chain_iff_lockChainWithin he).mp ⟨flowEntry, hflow, hc⟩).nodup
        ((chain_iff_lockChainWithin he).mp ⟨flowEntry, hflow, hc'⟩).nodup hset source dest kind
    obtain ⟨_, hall⟩ := TopologyGraph.walkChains_complete (onHop_decides cfg e threads) hkey
      (RecordedHop cfg threads) (fun hop a => recordedHop_onHop e threads hop a)
      (fun hop hop' a ha => recordedHop_keeps ha) hrun flowEntry hflow
    obtain ⟨path', held', hset, hrec⟩ := (hall h held path hwalk).2 out hout
    exact ⟨path', held', hset, flowEntry, hrec⟩
  refine ⟨?_, ?_⟩
  · rintro holder acquired witness ⟨h, held, path, out, hchain, hout, hkind, rfl, hnot, hmem, _⟩
      hsupp
    obtain ⟨path', held', hset, _, hrec⟩ := hshown h held path out hchain hout
    refine (hrec hkind).2 ?_ holder ?_ hsupp
    · show out.dest.inst ∉ held'
      rw [← List.mem_toFinset, hset, List.mem_toFinset]
      exact hnot
    · show holder ∈ held'
      rw [← List.mem_toFinset, hset, List.mem_toFinset]
      exact hmem
  · rintro x witness ⟨h, held, path, out, hchain, hout, hkind, rfl, hmem, _⟩ hsupp
    obtain ⟨path', held', hset, _, hrec⟩ := hshown h held path out hchain hout
    refine (hrec hkind).1 ?_ hsupp
    show out.dest.inst ∈ held'
    rw [← List.mem_toFinset, hset, List.mem_toFinset]
    exact hmem

/-! ## All entries -/

theorem hasEdge_of_lockEdges {a b : AnalyzerState} (h : b.lockEdges = a.lockEdges)
    {key : String × String} {threads : Finset Origin} :
    HasEdge b key threads ↔ HasEdge a key threads := by
  unfold HasEdge
  rw [h]

theorem hasSelf_of_findings {a b : AnalyzerState} (h : b.findings = a.findings) {x : String} :
    HasSelf b x ↔ HasSelf a x := by
  unfold HasSelf
  rw [h]

/-- What one round of `build_lock_graph` does where every handler resolves. -/
structure RoundSpec (g : TopologyGraph) (cfg : AnalyzerSettings) (complete : OriginState)
    (e : PortKey) (s s' : BuildState) : Prop where
  origins : s'.origins = complete
  sound : Sound g cfg s.analyzer → Sound g cfg s'.analyzer
  keepsEdge : ∀ key old, HasEdge s.analyzer key old → HasEdge s'.analyzer key old
  keepsSelf : ∀ x, HasSelf s.analyzer x → HasSelf s'.analyzer x
  truncated : s'.analyzer.truncated = false → s.analyzer.truncated = false
    ∧ RecordedFrom g cfg e (complete.reachingAt e) s'.analyzer

theorem walkGuardedEntry_spec (cfg : AnalyzerSettings) {complete : OriginState}
    (hc : g.CompleteOrigins complete)
    (hres : g.AllResolve) {e : PortKey} (he : e ∈ guardedInputs g) {s : BuildState}
    (hs : Coherent g s.origins) :
    ∃ s', walkGuardedEntry g cfg e s = (.ok (), s') ∧ RoundSpec g cfg complete e s s' := by
  have hthreads : ∀ o ∈ complete.reachingAt e, g.Reaching o e :=
    fun o ho => (TopologyGraph.mem_reachingAt_iff hc).mp ho
  have hok : ∃ cut w, g.walkChains e .guarded (onHop cfg e (complete.reachingAt e)) [e.inst]
      List.toFinset ⟨s.budget, s.analyzer, []⟩ = (.ok cut, w) :=
    TopologyGraph.walkChains_ok (onHop_decides cfg e (complete.reachingAt e))
      (fun flowEntry hflow h held path hchain =>
        hres h ((chain_iff_lockChainWithin he).mp ⟨flowEntry, hflow, hchain⟩).mem_handlers) 0 _
  obtain ⟨cut, w, hwalk⟩ := hok
  obtain ⟨hkeep, hkeepSelf⟩ := walk_keeps (g := g) cfg e (complete.reachingAt e)
    ⟨s.budget, s.analyzer, []⟩
  have hsound := walk_sound cfg he hthreads ⟨s.budget, s.analyzer, []⟩
  rw [hwalk] at hkeep hkeepSelf hsound
  refine ⟨⟨{ w.acc with truncated := s.analyzer.truncated || cut }, w.budget, complete⟩, ?_,
    ⟨rfl, ?_, ?_, ?_, ?_⟩⟩
  · unfold walkGuardedEntry
    rw [hs.threadsReaching hc]
    dsimp only
    rw [hwalk]
  · exact fun h => (hsound h).of_eq rfl rfl
  · exact fun key old h => (hasEdge_of_lockEdges rfl).mpr (hkeep key old h)
  · exact fun x h => (hasSelf_of_findings rfl).mpr (hkeepSelf x h)
  · intro htrunc
    simp only [Bool.or_eq_false_iff] at htrunc
    obtain ⟨hold, rfl⟩ := htrunc
    have hrec := walk_recorded he hwalk
    exact ⟨hold, ⟨hrec.nests, hrec.reenters⟩⟩

/-- **The analyzer is exact on the chains within its depth**: where every
handler resolves it ends well, everything it records is genuine whatever
its bounds, and without truncation it has recorded all there is. -/
theorem buildLockGraph_spec {complete : OriginState} (hc : g.CompleteOrigins complete)
    (hres : g.AllResolve) (cfg : AnalyzerSettings) :
    ∃ s, buildLockGraph g cfg = (.ok (), s) ∧ Coherent g s.origins ∧ Sound g cfg s.analyzer
      ∧ (s.analyzer.truncated = false → ∀ e ∈ guardedInputs g,
        RecordedFrom g cfg e (complete.reachingAt e) s.analyzer) := by
  have hgen : ∀ (entries : List PortKey) (s : BuildState), (∀ e ∈ entries, e ∈ guardedInputs g) →
      Coherent g s.origins → Sound g cfg s.analyzer →
      ∃ s', walkEntries g cfg entries s = (.ok (), s') ∧ Coherent g s'.origins
        ∧ Sound g cfg s'.analyzer
        ∧ (∀ key old, HasEdge s.analyzer key old → HasEdge s'.analyzer key old)
        ∧ (∀ x, HasSelf s.analyzer x → HasSelf s'.analyzer x)
        ∧ (s'.analyzer.truncated = false → s.analyzer.truncated = false ∧ ∀ e ∈ entries,
          RecordedFrom g cfg e (complete.reachingAt e) s'.analyzer) := by
    intro entries
    induction entries with
    | nil =>
      intro s _ hco hsound
      exact ⟨s, rfl, hco, hsound, fun _ _ h => h, fun _ h => h, fun h => ⟨h, by simp⟩⟩
    | cons e entries ih =>
      intro s hsub hco hsound
      obtain ⟨s₁, hround, hspec⟩ := walkGuardedEntry_spec cfg hc hres
        (hsub e (List.mem_cons_self ..)) hco
      obtain ⟨s', hrest, hco', hsound', hkeep, hkeepSelf, htrunc⟩ := ih s₁
        (fun e' he' => hsub e' (List.mem_cons_of_mem _ he')) (by rw [hspec.origins]; exact .inr hc)
        (hspec.sound hsound)
      refine ⟨s', ?_, hco', hsound', fun key old h => hkeep key old (hspec.keepsEdge key old h),
        fun x h => hkeepSelf x (hspec.keepsSelf x h), ?_⟩
      · rw [walkEntries, hround]
        exact hrest
      · intro hfalse
        obtain ⟨hfalse₁, hall⟩ := htrunc hfalse
        obtain ⟨hfalse₀, hrec⟩ := hspec.truncated hfalse₁
        refine ⟨hfalse₀, fun e' he' => ?_⟩
        rcases List.mem_cons.mp he' with rfl | he'
        · exact ⟨fun holder acquired w hn hsupp => hkeep _ _ (hrec.nests holder acquired w hn hsupp),
            fun x w hr hsupp => hkeepSelf x (hrec.reenters x w hr hsupp)⟩
        · exact hall e' he'
  obtain ⟨s', hrun, hco, hsound, _, _, htrunc⟩ := hgen (guardedInputs g)
    ⟨.init, cfg.maxStates, .fresh⟩ (fun _ h => h) (.inl rfl) sound_init
  exact ⟨s', hrun, hco, hsound, fun hfalse => (htrunc hfalse).2⟩

/-! ## Exactness on lock chains of any depth -/

/-- The lock graph is exact: its edges, their threads and witnesses, and
its self-deadlock findings are those of the lock chains. -/
structure LockGraphExact (g : TopologyGraph) (cfg : AnalyzerSettings) (a : AnalyzerState) :
    Prop where
  edge_iff : ∀ holder acquired, (∃ edge, a.lockEdges.get? (holder, acquired) = some edge)
    ↔ (holder, acquired) ∉ cfg.suppressions ∧ ∃ e w, Nests g (fun _ => True) e holder acquired w
  threads_iff : ∀ holder acquired edge, a.lockEdges.get? (holder, acquired) = some edge →
    ∀ o, o ∈ edge.threads
      ↔ ∃ e w, Nests g (fun _ => True) e holder acquired w ∧ g.Reaching o e
  witness : ∀ holder acquired edge, a.lockEdges.get? (holder, acquired) = some edge →
    (edge.holder, edge.acquired) = (holder, acquired)
      ∧ Nests g (fun _ => True) edge.entry holder acquired edge.witness
  self_iff : ∀ x, HasSelf a x
    ↔ (x, x) ∉ cfg.suppressions ∧ ∃ e w, ReEnters g (fun _ => True) e x w
  self_once : ∀ x, a.findings.countP (fun f => f.kind = .selfDeadlock ∧ f.cycle = [x]) ≤ 1

/-- The chains within the depth do all that lock chains do: every nesting
of mutexes, from an entry each of its threads can invoke, and every
re-entry. -/
structure DepthCovers (g : TopologyGraph) (cfg : AnalyzerSettings) : Prop where
  nests : ∀ e holder acquired w, Nests g (fun _ => True) e holder acquired w →
    (holder, acquired) ∉ cfg.suppressions → ∀ o, g.Reaching o e →
      ∃ e' w', Nests g (Fits cfg) e' holder acquired w' ∧ g.Reaching o e'
  reenters : ∀ e x w, ReEnters g (fun _ => True) e x w → (x, x) ∉ cfg.suppressions →
    ∃ e' w', ReEnters g (Fits cfg) e' x w'

theorem Nests.mono {fits : List String → Prop} {e : PortKey} {holder acquired : String}
    {w : List String} (h : Nests g fits e holder acquired w) :
    Nests g (fun _ => True) e holder acquired w := by
  obtain ⟨h, held, path, hop, hchain, hrest⟩ := h
  exact ⟨h, held, path, hop, hchain.mono fun _ _ => trivial, hrest⟩

theorem ReEnters.mono {fits : List String → Prop} {e : PortKey} {x : String} {w : List String}
    (h : ReEnters g fits e x w) : ReEnters g (fun _ => True) e x w := by
  obtain ⟨h, held, path, hop, hchain, hrest⟩ := h
  exact ⟨h, held, path, hop, hchain.mono fun _ _ => trivial, hrest⟩

theorem LockChainWithin.mem_guardedInputs {fits : List String → Prop} {e : PortKey} {h : Handler}
    {held path : List String} (hc : LockChainWithin g fits e h held path) :
    e ∈ guardedInputs g := by
  induction hc with
  | start hb => exact behind_guarded_mem_guardedInputs hb
  | sync _ _ _ _ ih => exact ih
  | guarded _ _ _ _ _ _ ih => exact ih

theorem Nests.mem_guardedInputs {fits : List String → Prop} {e : PortKey}
    {holder acquired : String} {w : List String} (h : Nests g fits e holder acquired w) :
    e ∈ guardedInputs g := by
  obtain ⟨_, _, _, _, hchain, _⟩ := h
  exact hchain.mem_guardedInputs

theorem ReEnters.mem_guardedInputs {fits : List String → Prop} {e : PortKey} {x : String}
    {w : List String} (h : ReEnters g fits e x w) : e ∈ guardedInputs g := by
  obtain ⟨_, _, _, _, hchain, _⟩ := h
  exact hchain.mem_guardedInputs

theorem countP_self_le_one {a : AnalyzerState} (hnd : (a.findings.map Finding.cycle).Nodup)
    (x : String) :
    a.findings.countP (fun f => f.kind = .selfDeadlock ∧ f.cycle = [x]) ≤ 1 := by
  have hle : a.findings.countP (fun f => f.kind = .selfDeadlock ∧ f.cycle = [x])
      ≤ a.findings.countP (fun f => f.cycle = [x]) := by
    refine List.countP_mono_left fun f _ h => ?_
    simp only [decide_eq_true_eq] at h ⊢
    exact h.2
  have hcount : a.findings.countP (fun f => f.cycle = [x])
      = (a.findings.map Finding.cycle).count [x] := by
    rw [List.count, List.countP_map]
    congr 1
    funext f
    exact Bool.eq_iff_iff.mpr (by simp)
  have hone := List.nodup_iff_count_le_one.mp hnd [x]
  omega

/-- With enough depth for every instance at once, the depth covers. -/
theorem depthCovers_of_instances (hdepth : (g.instances.keys.length : Int) ≤ cfg.maxLockDepth) :
    DepthCovers g cfg := by
  have hwithin : ∀ {e : PortKey} {h : Handler} {held path : List String},
      LockChain g e h held path → LockChainWithin g (Fits cfg) e h held path := by
    intro e h held path hc
    induction hc with
    | start hb => exact .start hb
    | sync _ hhop hk ht ih => exact .sync ih hhop hk ht
    | guarded hprev hhop hk hnot _ ht ih =>
      refine .guarded ih hhop hk hnot ?_ ht
      -- the held mutexes and the one taken are distinct instances
      have hnext := LockChainWithin.guarded hprev hhop hk hnot trivial ht
      have hsub := List.Nodup.length_le_of_subset hnext.nodup fun x hx => hnext.mem_instances x hx
      rw [List.length_append, List.length_singleton] at hsub
      unfold Fits
      omega
  refine ⟨?_, ?_⟩
  · rintro e holder acquired w ⟨h, held, path, hop, hchain, hrest⟩ _ o ho
    exact ⟨e, w, ⟨h, held, path, hop, hwithin hchain, hrest⟩, ho⟩
  · rintro e x w ⟨h, held, path, hop, hchain, hrest⟩ _
    exact ⟨e, w, h, held, path, hop, hwithin hchain, hrest⟩

/-- Where everything is recorded, nothing is missing that the depth covers. -/
theorem LockGraphExact.depthCovers {a : AnalyzerState} (hexact : LockGraphExact g cfg a)
    (hsound : Sound g cfg a) : DepthCovers g cfg where
  nests := by
    intro e holder acquired w hnest hsupp o ho
    obtain ⟨edge, hget⟩ := (hexact.edge_iff holder acquired).mpr ⟨hsupp, e, w, hnest⟩
    have hmem := (hexact.threads_iff holder acquired edge hget o).mpr ⟨e, w, hnest, ho⟩
    exact (hsound.edges _ edge hget).threads o hmem
  reenters := by
    intro e x w hre hsupp
    obtain ⟨f, hf, _, hcycle⟩ := (hexact.self_iff x).mpr ⟨hsupp, e, w, hre⟩
    obtain ⟨x', edge, hs⟩ := hsound.findings f hf
    obtain rfl : x' = x := by simpa using hs.cycle.symm.trans hcycle
    exact ⟨edge.entry, edge.witness, hs.witness⟩

/-- A nesting that the depth covers has an edge, with each of its threads. -/
theorem DepthCovers.edge {complete : OriginState} {a : AnalyzerState}
    (hcov : DepthCovers g cfg) (hc : g.CompleteOrigins complete)
    (hall : ∀ e ∈ guardedInputs g, RecordedFrom g cfg e (complete.reachingAt e) a)
    {e : PortKey} {holder acquired : String} {w : List String}
    (hnest : Nests g (fun _ => True) e holder acquired w)
    (hsupp : (holder, acquired) ∉ cfg.suppressions) {o : Origin} (ho : g.Reaching o e) :
    ∃ edge, a.lockEdges.get? (holder, acquired) = some edge ∧ o ∈ edge.threads := by
  obtain ⟨e', w', hnest', ho'⟩ := hcov.nests e holder acquired w hnest hsupp o ho
  obtain ⟨edge, hget, hsub⟩ :=
    (hall e' hnest'.mem_guardedInputs).nests holder acquired w' hnest' hsupp
  exact ⟨edge, hget, hsub ((TopologyGraph.mem_reachingAt_iff hc).mpr ho')⟩

/-- What the depth covers is recorded exactly. -/
theorem DepthCovers.lockGraphExact {complete : OriginState} {a : AnalyzerState}
    (hcov : DepthCovers g cfg) (hc : g.CompleteOrigins complete) (hsound : Sound g cfg a)
    (hall : ∀ e ∈ guardedInputs g, RecordedFrom g cfg e (complete.reachingAt e) a) :
    LockGraphExact g cfg a where
  edge_iff := by
    intro holder acquired
    constructor
    · rintro ⟨edge, hget⟩
      have hs := hsound.edges _ edge hget
      exact ⟨hs.unsuppressed, edge.entry, edge.witness, hs.witness.mono⟩
    · rintro ⟨hsupp, e, w, hnest⟩
      obtain ⟨o, ho⟩ := TopologyGraph.exists_reaching g e
      obtain ⟨edge, hget, _⟩ := hcov.edge hc hall hnest hsupp ho
      exact ⟨edge, hget⟩
  threads_iff := by
    intro holder acquired edge hget o
    have hs := hsound.edges _ edge hget
    constructor
    · intro ho
      obtain ⟨e, w, hnest, hreach⟩ := hs.threads o ho
      exact ⟨e, w, hnest.mono, hreach⟩
    · rintro ⟨e, w, hnest, hreach⟩
      obtain ⟨edge', hget', ho⟩ := hcov.edge hc hall hnest hs.unsuppressed hreach
      obtain rfl : edge' = edge := Option.some.inj (hget'.symm.trans hget)
      exact ho
  witness := by
    intro holder acquired edge hget
    have hs := hsound.edges _ edge hget
    exact ⟨hs.key_eq, hs.witness.mono⟩
  self_iff := by
    intro x
    constructor
    · rintro ⟨f, hf, _, hcycle⟩
      obtain ⟨x', edge, hs⟩ := hsound.findings f hf
      obtain rfl : x' = x := by simpa using hs.cycle.symm.trans hcycle
      exact ⟨hs.unsuppressed, edge.entry, edge.witness, hs.witness.mono⟩
    · rintro ⟨hsupp, e, w, hre⟩
      obtain ⟨e', w', hre'⟩ := hcov.reenters e x w hre hsupp
      exact (hall e' hre'.mem_guardedInputs).reenters x w' hre' hsupp
  self_once := countP_self_le_one hsound.nodup

/-- **When the lock graph is exact.** On every topology whose handlers all
resolve the graph is built, and whatever the bounds all of it is genuine.
If no truncation is reported, it is exact iff the chains within the depth
bound do all that lock chains do: hitting the depth bound is not reported. -/
theorem lockGraphExact_iff (g : TopologyGraph) (cfg : AnalyzerSettings) (hres : g.AllResolve) :
    ∃ s, buildLockGraph g cfg = (.ok (), s) ∧ Sound g cfg s.analyzer
      ∧ (s.analyzer.truncated = false →
        (LockGraphExact g cfg s.analyzer ↔ DepthCovers g cfg)) := by
  obtain ⟨complete, hc⟩ := hres.completeOrigins
  obtain ⟨s, hrun, _, hsound, hrec⟩ := buildLockGraph_spec hc hres cfg
  refine ⟨s, hrun, hsound, fun htrunc => ⟨fun hexact => ?_, fun hcov => ?_⟩⟩
  · exact hexact.depthCovers hsound
  · exact hcov.lockGraphExact hc hsound (hrec htrunc)

/-! Three guarded ports in a row, each calling the next while its own mutex
is held. -/

/-- `gIn` of a component `C` invokes `out`; that of `Z` invokes nothing. -/
def rowFlow : PortFlowMap :=
  ⟨.ofList [("C", ⟨.ofList [("gIn", ⟨.ofList [("ports", ["out"])], some false⟩)]⟩),
    ("Z", ⟨.ofList [("gIn", ⟨∅, some false⟩)]⟩)], true⟩

/-- A passive component with one guarded input. -/
def rowInstance (component : String) : InstanceInfo where
  kind := .passive
  componentName := component
  inputPorts := .ofList [(.gIn, {.guarded})]
  outputPorts := [.out]

def rowTopology : TopologyGraph where
  instances := .ofList [("x", rowInstance "C"), ("y", rowInstance "C"), ("z", rowInstance "Z")]
  connections := .ofList [(⟨"x", .out⟩, [⟨"y", .gIn⟩]),
    (⟨"y", .out⟩, [⟨"z", .gIn⟩])]
  flow := rowFlow

def rowHop (source dest : String) (component : String) : OutwardHop :=
  ⟨⟨source, .out⟩, ⟨dest, .gIn⟩, rowInstance component, .guarded⟩

/-- The row nests `z` inside `x`. -/
theorem row_nests : Nests rowTopology (fun _ => True) ⟨"x", .gIn⟩ "x" "z"
    ["x.gIn [guarded entry]", "x.out -> y.gIn [guarded]", "y.out -> z.gIn [guarded]"] := by
  have hstart : LockChain rowTopology ⟨"x", .gIn⟩ ("x", "gIn") ["x"]
      ["x.gIn [guarded entry]"] :=
    .start ⟨rowInstance "C", by decide, by decide, "gIn", by decide, rfl⟩
  have hnext : LockChain rowTopology ⟨"x", .gIn⟩ ("y", "gIn") ["x", "y"]
      ["x.gIn [guarded entry]", "x.out -> y.gIn [guarded]"] :=
    .guarded hstart (show rowTopology.HopOut ("x", "gIn") (rowHop "x" "y" "C") by decide) rfl
      (by decide) trivial (by decide)
  exact ⟨("y", "gIn"), ["x", "y"], _, rowHop "y" "z" "Z", hnext, by decide, rfl, rfl, by decide,
    by decide, by decide⟩

/-- With a depth bound of one the analyzer misses that nesting, and reports
no truncation. -/
theorem lockGraph_inexact_row :
    rowTopology.AllResolve
      ∧ (buildLockGraph rowTopology { maxLockDepth := 1 }).1 = .ok ()
      ∧ (buildLockGraph rowTopology { maxLockDepth := 1 }).2.analyzer.truncated = false
      ∧ ¬ LockGraphExact rowTopology { maxLockDepth := 1 }
        (buildLockGraph rowTopology { maxLockDepth := 1 }).2.analyzer := by
  refine ⟨by decide, by decide, by decide, fun hexact => ?_⟩
  obtain ⟨edge, hget⟩ := (hexact.edge_iff "x" "z").mpr ⟨by decide, _, _, row_nests⟩
  have hnone : (buildLockGraph rowTopology { maxLockDepth := 1 }).2.analyzer.lockEdges.get?
      ("x", "z") = none := by decide
  rw [hnone] at hget
  cases hget

/-- With the default bounds the row is covered, so its lock graph is exact. -/
theorem lockGraphExact_iff_row :
    rowTopology.AllResolve ∧ ∃ s, buildLockGraph rowTopology {} = (.ok (), s)
      ∧ Sound rowTopology {} s.analyzer ∧ (s.analyzer.truncated = false →
        (LockGraphExact rowTopology {} s.analyzer ↔ DepthCovers rowTopology {})) :=
  ⟨by decide, lockGraphExact_iff rowTopology {} (by decide)⟩

/-! Two threads that take the mutexes of `x` and `y` in opposite orders. -/

/-- `run` of a thread and `gIn` of a component `C` invoke `out`. -/
def crossFlow : PortFlowMap :=
  ⟨.ofList [("C", ⟨.ofList [("gIn", ⟨.ofList [("ports", ["out"])], some false⟩)]⟩),
    ("T", ⟨.ofList [("run", ⟨.ofList [("ports", ["out"])], some false⟩)]⟩)], true⟩

/-- An active component with one async input. -/
def crossThread : InstanceInfo where
  kind := .active
  componentName := "T"
  inputPorts := .ofList [(.run, {.async})]
  outputPorts := [.out]

def crossTopology : TopologyGraph where
  instances := .ofList [("t", crossThread), ("u", crossThread), ("x", rowInstance "C"),
    ("y", rowInstance "C")]
  connections := .ofList [(⟨"t", .out⟩, [⟨"x", .gIn⟩]), (⟨"u", .out⟩, [⟨"y", .gIn⟩]),
    (⟨"x", .out⟩, [⟨"y", .gIn⟩]), (⟨"y", .out⟩, [⟨"x", .gIn⟩])]
  flow := crossFlow

end FprimeTopologyAnalysis
