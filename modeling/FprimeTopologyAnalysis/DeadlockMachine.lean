/-
FprimeTopologyAnalysis.DeadlockMachine — the analyzer against the threads
of the topology.

`machine g` is what the topology runs: every instance with a queue of its
own repeatedly runs a handler behind one of its async inputs, a handler
takes any of its hops, and a guarded hop takes the destination's mutex. It
instantiates `Library.LockMachine`, whose call paths are lock chains out of
the first mutex a thread took (`lockChain_of_callPath`). So a thread that
waits is an edge the analyzer has recorded, as far as the chain stays
within its depth bound (`no_missed_deadlock`). A chain beyond the bound is
lost without a word (`missed_self_deadlock`).
-/
import FprimeTopologyAnalysis.AnalyzerRun
import FprimeTopologyAnalysis.Library.LockMachine

namespace FprimeTopologyAnalysis

open Library TopologyGraph

/-! ## The machine of a topology -/

/-- Taking a hop enters one of its handlers; a port without handlers is
entered all the same and returns at once. -/
def Enters (hop : OutwardHop) : Option Handler → Prop
  | some h => h ∈ hop.targets
  | none => hop.targets = []

/-- The threads of a topology. A frame is the handler it runs; an async hop
does nothing to the caller and is no call. -/
def machine (g : TopologyGraph) : LockMachine.System String (Option Handler) String where
  starts t f := ∃ info port entry, g.instances.get? t = some info ∧ info.isOwnThread
    ∧ .async ∈ info.kindsOf port ∧ entry ∈ info.flowEntries port .async ∧ f = some (t, entry)
  calls f m f' := ∃ h hop, f = some h ∧ g.HopOut h hop ∧ Enters hop f'
    ∧ ((hop.kind = .sync ∧ m = none) ∨ (hop.kind = .guarded ∧ m = some hop.dest.inst))

/-- A further mutex is only taken while fewer than `max_lock_depth` are
held. -/
def WithinDepth (cfg : AnalyzerSettings) (held : List String) : Prop := held = [] ∨ Fits cfg held

section Machine

variable {g : TopologyGraph} {cfg : AnalyzerSettings} {t : String}

theorem Runs.calls {o : Origin} {h h' : Handler} (hr : g.Runs o h) (hc : g.Calls h h') :
    g.Runs o h' := by
  obtain ⟨port, kind, hseed, hentered⟩ := hr
  exact ⟨port, kind, hseed, hentered.calls hc⟩

theorem runs_of_starts {h : Handler} (hs : (machine g).starts t (some h)) :
    g.Runs (.thread t) h := by
  obtain ⟨info, port, entry, hget, hown, hasync, hentry, heq⟩ := hs
  cases heq
  exact ⟨⟨t, port⟩, .async, ⟨info, hget, hasync, .inl ⟨rfl, hown, rfl⟩⟩,
    (t, entry), ⟨info, hget, hasync, entry, hentry, rfl⟩, .refl⟩

/-- The stack of a thread is a lock chain out of the entry where it took
its first mutex, and it can invoke that entry. -/
theorem lockChain_of_callPath {stack : List (LockMachine.Frame (Option Handler) String)}
    (hp : LockMachine.CallPath (machine g) (WithinDepth cfg) t stack) :
    ∀ h m rest, stack = (some h, m) :: rest → g.Runs (.thread t) h
      ∧ (LockMachine.held stack = [] ∨ ∃ e path,
        LockChainWithin g (Fits cfg) e h (LockMachine.held stack).reverse path
          ∧ g.LandsOn (.thread t) e) := by
  induction hp with
  | nil => intro h m rest heq; cases heq
  | start hs =>
    intro h m rest heq
    cases heq
    exact ⟨runs_of_starts hs, .inl rfl⟩
  | call _ hcall ih =>
    intro h m rest heq
    cases heq
    obtain ⟨h₀, hop, rfl, hhop, hent, ⟨hk, _⟩ | ⟨_, hm⟩⟩ := hcall
    · obtain ⟨hruns, hchain⟩ := ih h₀ _ _ rfl
      refine ⟨Runs.calls hruns ⟨hop, hhop, by rw [hk]; decide, hent⟩, ?_⟩
      rcases hchain with hnone | ⟨e, path, hchain, hlands⟩
      · exact .inl hnone
      · exact .inr ⟨e, _, .sync hchain hhop hk hent, hlands⟩
    · cases hm
  | @acquire f f' m' n rest' _ hcall hnot hmay ih =>
    intro h m rest heq
    cases heq
    obtain ⟨h₀, hop, rfl, hhop, hent, ⟨_, hm⟩ | ⟨hk, hm⟩⟩ := hcall
    · cases hm
    · cases hm
      obtain ⟨hruns, hchain⟩ := ih h₀ _ _ rfl
      have hsync : hop.kind ≠ .async := by rw [hk]; decide
      have hheld : (LockMachine.held ((some h, some hop.dest.inst) :: (some h₀, m') :: rest')).reverse
          = (LockMachine.held ((some h₀, m') :: rest')).reverse ++ [hop.dest.inst] :=
        List.reverse_cons
      refine ⟨Runs.calls hruns ⟨hop, hhop, hsync, hent⟩, .inr ?_⟩
      rw [hheld]
      by_cases hnone : LockMachine.held ((some h₀, m') :: rest') = []
      · -- the first mutex: the chain starts at the port it is taken for
        have hbehind := hhop.behind_of_mem_targets hent
        rw [hk] at hbehind
        rw [hnone]
        exact ⟨hop.dest, _, .start hbehind, .inr ⟨h₀, hruns, hop, hhop, hsync, rfl⟩⟩
      · obtain ⟨e, path, hchain, hlands⟩ := hchain.resolve_left hnone
        refine ⟨e, _, .guarded hchain hhop hk ?_ ?_ hent, hlands⟩
        · rw [List.mem_reverse]
          exact hnot
        · have hfits := hmay.resolve_left hnone
          unfold Fits at hfits ⊢
          rw [List.length_reverse]
          exact hfits

/-- A thread that holds a mutex and waits for one is a chain of its own
that nests them, or takes the mutex again. -/
theorem chain_of_waits {s : LockMachine.State String (Option Handler) String}
    (hi : LockMachine.Inv (machine g) (WithinDepth cfg) s) {x y : String}
    (hholds : LockMachine.Holds s t x) (hwaits : LockMachine.Waits s t y) :
    ∃ e w, g.LandsOn (.thread t) e
      ∧ (LockMachine.Holds s t y → ReEnters g (Fits cfg) e y w)
      ∧ (¬ LockMachine.Holds s t y → Nests g (Fits cfg) e x y w) := by
  obtain ⟨f, hwait⟩ := hwaits
  obtain ⟨f₀, m, rest, hstack, h, hop, rfl, hhop, _, ⟨_, hm⟩ | ⟨hk, hm⟩⟩ := hi.blocked t f y hwait
  · cases hm
  · obtain rfl : y = hop.dest.inst := Option.some.inj hm
    obtain ⟨_, hchain⟩ := lockChain_of_callPath (hi.path t) h m rest hstack
    have hiff : ∀ z, LockMachine.Holds s t z ↔ z ∈ (LockMachine.held (s t).stack).reverse :=
      fun z => List.mem_reverse.symm
    rcases hchain with hnone | ⟨e, path, hchain, hlands⟩
    · rw [LockMachine.Holds, hnone] at hholds
      simp at hholds
    · exact ⟨e, _, hlands,
        fun hin => ⟨h, _, path, hop, hchain, hhop, hk, rfl, (hiff _).mp hin, rfl⟩,
        fun hnot => ⟨h, _, path, hop, hchain, hhop, hk, rfl, fun hin => hnot ((hiff _).mpr hin),
          (hiff x).mp hholds, rfl⟩⟩

/-- A circle of waits whose every wait is an edge that its thread drives is
a live cycle of the table. -/
theorem liveCycle_of_circle {s : LockMachine.State String (Option Handler) String}
    (hi : LockMachine.Inv (machine g) (WithinDepth cfg) s) {circle : List (String × String)}
    (hcircle : LockMachine.Circle s circle) {edges : LockEdges}
    (hedge : ∀ p ∈ ElementaryCycles.pairs circle, ∃ edge,
      edges.get? (p.1.2, p.2.2) = some edge ∧ Origin.thread p.1.1 ∈ edge.threads) :
    IsLockCycle edges (circle.map Prod.snd) ∧ DrivenByTwo edges (circle.map Prod.snd) := by
  have hmem : ∀ p ∈ ElementaryCycles.pairs circle,
      (p.1.2, p.2.2) ∈ ElementaryCycles.pairs (circle.map Prod.snd) := by
    intro p hp
    rw [ElementaryCycles.pairs_map]
    exact List.mem_map_of_mem hp
  have hlock : IsLockCycle edges (circle.map Prod.snd) := by
    refine ⟨hcircle.nodup_mutexes hi, by rw [List.length_map]; exact hcircle.two, ?_⟩
    rw [ElementaryCycles.pairs_map]
    intro p' hp'
    obtain ⟨p, hp, rfl⟩ := List.mem_map.mp hp'
    obtain ⟨edge, hget, _⟩ := hedge p hp
    exact Dict.mem_keys_of_get? hget
  refine ⟨hlock, ?_⟩
  -- two neighbours of the circle
  obtain ⟨p, hp⟩ : ∃ p, p ∈ ElementaryCycles.pairs circle := by
    refine List.exists_mem_of_length_pos ?_
    rw [ElementaryCycles.length_pairs]
    have := hcircle.two
    omega
  obtain ⟨q, hq, hpq⟩ := ElementaryCycles.exists_next hp
  obtain ⟨edge, hget, ht⟩ := hedge p hp
  obtain ⟨edge', hget', ht'⟩ := hedge q hq
  refine ⟨_, hmem p hp, _, hmem q hq, ?_, edge, edge', hget, hget', _, _, ht, ht', ?_⟩
  · rw [hpq]
    exact fun heq => ElementaryCycles.ne_of_mem_pairs hlock.nodup hlock.two (hmem p hp)
      (Prod.mk.inj heq).1
  · rw [hpq]
    exact hcircle.ne hp

/-- **No missed deadlock, within the depth bound.** When the analyzer ends
without truncation and suppresses nothing, then in every run that takes no
further mutex while `max_lock_depth` are held: a thread that waits for a
mutex it holds has a self-deadlock finding, and a circle of waiting threads
an ABBA finding. -/
theorem no_missed_deadlock (g : TopologyGraph) (cfg : AnalyzerSettings) (hres : g.AllResolve)
    (hsupp : cfg.suppressions = ∅) (htrunc : (run g cfg).2.analyzer.truncated = false)
    (s : LockMachine.State String (Option Handler) String)
    (hs : LockMachine.Reachable (machine g) (WithinDepth cfg) s) :
    (run g cfg).1 = .ok ()
      ∧ (∀ t x, LockMachine.Holds s t x → LockMachine.Waits s t x →
        HasSelf (run g cfg).2.analyzer x)
      ∧ ∀ circle, LockMachine.Circle s circle →
        ∃ cycle, circle.map Prod.snd ~r cycle ∧ HasAbba (run g cfg).2.analyzer cycle := by
  obtain ⟨complete, hc⟩ := hres.completeOrigins
  obtain ⟨built, hrun, ha⟩ := run_analyzed hres hc cfg
  rw [hrun] at htrunc ⊢
  have hi := hs.inv
  have hnone : ∀ key, key ∉ cfg.suppressions := by simp [hsupp]
  refine ⟨rfl, fun t x hholds hwaits => ?_, fun circle hcircle => ?_⟩
  · obtain ⟨e, w, _, hre, _⟩ := chain_of_waits hi hholds hwaits
    have hre := hre hholds
    exact (ha.recorded htrunc e hre.mem_guardedInputs).reenters x w hre (hnone _)
  · obtain ⟨hlock, hdriven⟩ := liveCycle_of_circle hi hcircle fun p hp => by
      obtain ⟨hholds, hwaits⟩ := hcircle.waits p hp
      obtain ⟨e, w, hlands, _, hnest⟩ := chain_of_waits hi hholds hwaits
      have hnext := hcircle.holds p.2 (ElementaryCycles.mem_of_mem_pairs hp).2
      have hnest := hnest (hi.fresh hnext _ (hcircle.ne hp))
      obtain ⟨edge, hget, hsub⟩ :=
        (ha.recorded htrunc e hnest.mem_guardedInputs).nests _ _ w hnest (hnone _)
      exact ⟨edge, hget, hsub ((mem_reachingAt_iff hc).mpr (.inl hlands))⟩
    obtain ⟨cycle, hrot, hfirst⟩ := hlock.exists_leastFirst
    exact ⟨cycle, hrot, ha.reported htrunc cycle (hlock.of_isRotated hrot) hfirst
      (hdriven.of_isRotated hrot)⟩

end Machine

/-! ## A thread that deadlocks with itself -/

/-- The thread of `t` calls `x`, `x` calls `y` and `y` calls `x`, all guarded. -/
def loopTopology : TopologyGraph where
  instances := .ofList [("t",
    { kind := .active
      componentName := "T"
      inputPorts := .ofList [(.run, {.async})]
      outputPorts := [.out] }),
    ("x", rowInstance "C"), ("y", rowInstance "C")]
  connections := .ofList [(⟨"t", .out⟩, [⟨"x", .gIn⟩]),
    (⟨"x", .out⟩, [⟨"y", .gIn⟩]),
    (⟨"y", .out⟩, [⟨"x", .gIn⟩])]
  flow := .permissive ∅

theorem loop_calls {i j f : String} (hhop : loopTopology.HopOut (i, f) (rowHop i j "C")) :
    (machine loopTopology).calls (some (i, f)) (some j) (some (j, "gIn")) := by
  have hentry : "gIn" ∈ (rowInstance "C").flowEntries .gIn .guarded := by decide
  exact ⟨(i, f), rowHop i j "C", rfl, hhop, List.mem_map.mpr ⟨"gIn", hentry, rfl⟩,
    .inr ⟨rfl, rfl⟩⟩

/-- Only thread `t` runs. -/
def loopState (stack : List (LockMachine.Frame (Option Handler) String))
    (waiting : Option (Option Handler × String)) :
    LockMachine.State String (Option Handler) String :=
  LockMachine.setThread LockMachine.init "t" ⟨stack, waiting⟩

theorem loopState_self (stack : List (LockMachine.Frame (Option Handler) String))
    (waiting : Option (Option Handler × String)) : loopState stack waiting "t" = ⟨stack, waiting⟩ :=
  LockMachine.setThread_self ..

/-- Thread `t` blocks on the next mutex. -/
theorem loop_block {may : List String → Prop} {i j f : String} {m : Option String}
    {rest : List (LockMachine.Frame (Option Handler) String)}
    (hhop : loopTopology.HopOut (i, f) (rowHop i j "C"))
    (h : LockMachine.Reachable (machine loopTopology) may
      (loopState ((some (i, f), m) :: rest) none)) :
    LockMachine.Reachable (machine loopTopology) may
      (loopState ((some (i, f), m) :: rest) (some (some (j, "gIn"), j))) := by
  have hblocked := h.block (loopState_self ..) (loop_calls hhop)
  rwa [loopState, LockMachine.setThread_setThread] at hblocked

/-- Thread `t` blocks on a mutex that nobody holds, and takes it. -/
theorem loop_take {may : List String → Prop} {i j f : String} {m : Option String}
    {rest : List (LockMachine.Frame (Option Handler) String)}
    (hhop : loopTopology.HopOut (i, f) (rowHop i j "C"))
    (hfree : j ∉ LockMachine.held ((some (i, f), m) :: rest))
    (hmay : may (LockMachine.held ((some (i, f), m) :: rest)))
    (h : LockMachine.Reachable (machine loopTopology) may
      (loopState ((some (i, f), m) :: rest) none)) :
    LockMachine.Reachable (machine loopTopology) may
      (loopState ((some (j, "gIn"), some j) :: (some (i, f), m) :: rest) none) := by
  have hnone : ∀ u, ¬ LockMachine.Holds (loopState ((some (i, f), m) :: rest) none) u j := by
    intro u hu
    by_cases hut : u = "t"
    · rw [hut, LockMachine.Holds, loopState_self] at hu
      exact hfree hu
    · rw [LockMachine.Holds, loopState, LockMachine.setThread_ne _ _ hut] at hu
      simp [LockMachine.init, LockMachine.held] at hu
  have htaken := h.take (loopState_self ..) (loop_calls hhop) hnone hmay
  rwa [loopState, LockMachine.setThread_setThread] at htaken

/-- The thread holds `x` and `y` and waits for `x`. -/
def loopDeadlock : LockMachine.State String (Option Handler) String :=
  loopState [(some ("y", "gIn"), some "y"), (some ("x", "gIn"), some "x"), (some ("t", "run"), none)]
    (some (some ("x", "gIn"), "x"))

theorem loopDeadlock_reachable {may : List String → Prop} (h0 : may []) (h1 : may ["x"]) :
    LockMachine.Reachable (machine loopTopology) may loopDeadlock := by
  have hstart : LockMachine.Reachable (machine loopTopology) may
      (loopState [(some ("t", "run"), none)] none) := by
    refine .single (.start rfl ⟨_, .run, "run", rfl, ?_, ?_, ?_, rfl⟩)
    · decide
    · decide
    · decide
  have hx := loop_take (show loopTopology.HopOut ("t", "run") (rowHop "t" "x" "C") by decide)
    (by decide) h0 hstart
  have hy := loop_take (show loopTopology.HopOut ("x", "gIn") (rowHop "x" "y" "C") by decide)
    (by decide) h1 hx
  exact loop_block (show loopTopology.HopOut ("y", "gIn") (rowHop "y" "x" "C") by decide) hy

theorem loopDeadlock_holds : LockMachine.Holds loopDeadlock "t" "x" := by
  rw [LockMachine.Holds, loopDeadlock, loopState_self]
  decide

theorem loopDeadlock_waits : LockMachine.Waits loopDeadlock "t" "x" :=
  ⟨some ("x", "gIn"), by rw [loopDeadlock, loopState_self]⟩

/-- With a depth bound of one the analyzer reports neither the deadlock nor
a truncation. -/
theorem missed_self_deadlock :
    loopTopology.AllResolve ∧ (run loopTopology { maxLockDepth := 1 }).1 = .ok ()
      ∧ (run loopTopology { maxLockDepth := 1 }).2.analyzer.truncated = false
      ∧ LockMachine.Reachable (machine loopTopology) (fun _ => True) loopDeadlock
      ∧ LockMachine.Holds loopDeadlock "t" "x" ∧ LockMachine.Waits loopDeadlock "t" "x"
      ∧ ¬ HasSelf (run loopTopology { maxLockDepth := 1 }).2.analyzer "x" := by
  refine ⟨by decide, by decide, by decide, loopDeadlock_reachable trivial trivial,
    loopDeadlock_holds, loopDeadlock_waits, ?_⟩
  unfold HasSelf
  decide

/-! ## Two threads that wait for each other -/

/-- Threads `t` and `u` run. -/
def crossState (a b : LockMachine.Thread (Option Handler) String) :
    LockMachine.State String (Option Handler) String :=
  LockMachine.setThread (LockMachine.setThread LockMachine.init "t" a) "u" b

section Cross

variable {a b a' b' : LockMachine.Thread (Option Handler) String}

theorem crossState_t : crossState a b "t" = a := by
  rw [crossState, LockMachine.setThread_ne _ _ (by decide), LockMachine.setThread_self]

theorem crossState_u : crossState a b "u" = b := LockMachine.setThread_self ..

theorem setThread_crossState_t : LockMachine.setThread (crossState a b) "t" a' = crossState a' b := by
  funext w
  by_cases hw : w = "t"
  · rw [hw, LockMachine.setThread_self, crossState_t]
  · rw [LockMachine.setThread_ne _ _ hw]
    simp only [crossState, LockMachine.setThread, if_neg hw]

theorem setThread_crossState_u : LockMachine.setThread (crossState a b) "u" b' = crossState a b' := by
  rw [crossState, LockMachine.setThread_setThread, crossState]

/-- Nobody else holds anything. -/
theorem holds_crossState {w n : String} (h : LockMachine.Holds (crossState a b) w n) :
    n ∈ LockMachine.held a.stack ∨ n ∈ LockMachine.held b.stack := by
  by_cases hu : w = "u"
  · rw [hu, LockMachine.Holds, crossState_u] at h
    exact .inr h
  · rw [LockMachine.Holds, crossState, LockMachine.setThread_ne _ _ hu] at h
    by_cases ht : w = "t"
    · rw [ht, LockMachine.setThread_self] at h
      exact .inl h
    · rw [LockMachine.setThread_ne _ _ ht] at h
      simp [LockMachine.init, LockMachine.held] at h

end Cross

theorem cross_calls {i j f : String} (hhop : crossTopology.HopOut (i, f) (rowHop i j "C")) :
    (machine crossTopology).calls (some (i, f)) (some j) (some (j, "gIn")) := by
  have hentry : "gIn" ∈ (rowInstance "C").flowEntries .gIn .guarded := by decide
  exact ⟨(i, f), rowHop i j "C", rfl, hhop, List.mem_map.mpr ⟨"gIn", hentry, rfl⟩,
    .inr ⟨rfl, rfl⟩⟩

/-- Thread `t` holds `x` and waits for `y`, thread `u` the other way round. -/
def crossDeadlock : LockMachine.State String (Option Handler) String :=
  crossState ⟨[(some ("x", "gIn"), some "x"), (some ("t", "run"), none)], some (some ("y", "gIn"), "y")⟩
    ⟨[(some ("y", "gIn"), some "y"), (some ("u", "run"), none)], some (some ("x", "gIn"), "x")⟩

theorem crossDeadlock_reachable {may : List String → Prop} (hmay : may []) :
    LockMachine.Reachable (machine crossTopology) may crossDeadlock := by
  have hstarts : ∀ t ∈ ["t", "u"], (machine crossTopology).starts t (some (t, "run")) := by
    intro t ht
    refine ⟨crossThread, .run, "run", ?_, by decide, by decide, by decide, rfl⟩
    revert t
    decide
  have hinit : (LockMachine.init : LockMachine.State String (Option Handler) String)
      = crossState ⟨[], none⟩ ⟨[], none⟩ := by
    funext w
    simp [crossState, LockMachine.setThread, LockMachine.init]
  -- both threads start
  have ht : LockMachine.Reachable (machine crossTopology) may
      (crossState ⟨[(some ("t", "run"), none)], none⟩ ⟨[], none⟩) := by
    have hstep : LockMachine.Step (machine crossTopology) may (crossState ⟨[], none⟩ ⟨[], none⟩) _ :=
      .start (by rw [crossState_t]) (hstarts "t" (by decide))
    rw [setThread_crossState_t] at hstep
    exact .single (hinit ▸ hstep)
  have hu : LockMachine.Reachable (machine crossTopology) may
      (crossState ⟨[(some ("t", "run"), none)], none⟩ ⟨[(some ("u", "run"), none)], none⟩) := by
    have hstep : LockMachine.Step (machine crossTopology) may
        (crossState ⟨[(some ("t", "run"), none)], none⟩ ⟨[], none⟩) _ :=
      .start (by rw [crossState_u]) (hstarts "u" (by decide))
    rw [setThread_crossState_u] at hstep
    exact ht.tail hstep
  -- each takes its first mutex
  have hx := hu.take crossState_t
    (cross_calls (show crossTopology.HopOut ("t", "run") (rowHop "t" "x" "C") by decide))
    (fun w hw => by simpa [LockMachine.held] using holds_crossState hw) hmay
  rw [setThread_crossState_t] at hx
  have hy := hx.take crossState_u
    (cross_calls (show crossTopology.HopOut ("u", "run") (rowHop "u" "y" "C") by decide))
    (fun w hw => by simpa [LockMachine.held] using holds_crossState hw) hmay
  rw [setThread_crossState_u] at hy
  -- and blocks on the other's
  have hblocked := (hy.block crossState_t
    (cross_calls (show crossTopology.HopOut ("x", "gIn") (rowHop "x" "y" "C") by decide)))
  rw [setThread_crossState_t] at hblocked
  have hboth := hblocked.block crossState_u
    (cross_calls (show crossTopology.HopOut ("y", "gIn") (rowHop "y" "x" "C") by decide))
  rw [setThread_crossState_u] at hboth
  exact hboth

theorem crossDeadlock_circle : LockMachine.Circle crossDeadlock [("t", "x"), ("u", "y")] where
  nodup := by decide
  two := le_rfl
  waits p hp := by
    have hpairs : ElementaryCycles.pairs [("t", "x"), ("u", "y")]
        = [(("t", "x"), ("u", "y")), (("u", "y"), ("t", "x"))] := rfl
    rw [hpairs] at hp
    rcases List.mem_pair.mp hp with rfl | rfl
    · exact ⟨by rw [LockMachine.Holds, crossDeadlock, crossState_t]; decide,
        some ("y", "gIn"), by rw [crossDeadlock, crossState_t]⟩
    · exact ⟨by rw [LockMachine.Holds, crossDeadlock, crossState_u]; decide,
        some ("x", "gIn"), by rw [crossDeadlock, crossState_u]⟩

/-- With the default bound both deadlocks are reported. -/
theorem no_missed_deadlock_loop :
    HasSelf (run loopTopology {}).2.analyzer "x"
      ∧ ∃ cycle, ["x", "y"] ~r cycle ∧ HasAbba (run crossTopology {}).2.analyzer cycle := by
  have hwithin : WithinDepth {} ["x"] := .inr (by unfold Fits; decide)
  exact ⟨(no_missed_deadlock loopTopology {} (by decide) rfl (by decide) loopDeadlock
      (loopDeadlock_reachable (.inl rfl) hwithin)).2.1 "t" "x" loopDeadlock_holds loopDeadlock_waits,
    (no_missed_deadlock crossTopology {} (by decide) rfl (by decide +kernel) crossDeadlock
      (crossDeadlock_reachable (.inl rfl))).2.2 _ crossDeadlock_circle⟩

end FprimeTopologyAnalysis
