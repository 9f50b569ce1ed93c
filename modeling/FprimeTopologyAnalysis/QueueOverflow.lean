/-
FprimeTopologyAnalysis.QueueOverflow — the queue overflow check of
`checks.py`.

From each async handler the check counts the messages its sync and guarded
calls put on each queue. More of them on the handler's own queue than it
holds is an error, unless the count went through a port array: only one
element of an array fires, so the count is then an upper bound.

The array marker goes to the instance a wide hop lands on, and the count to
the instance at the end of the path. The two agree on the last hop. A path
that is wide earlier marks only the instance in between, so an error can
rest on an array (`error_rests_on_array`). It does not where no array is on a
way back to the queue, or one ends on the instance itself (`error_exact`).
-/
import FprimeTopologyAnalysis.Checks
import FprimeTopologyAnalysis.ChainWalk
import FprimeTopologyAnalysis.Library.SimplePaths

namespace FprimeTopologyAnalysis

open Library

namespace QueueOverflow

/-! ## The check -/

/-- `ARRAY_FANOUT_CAVEAT`. -/
def arrayFanoutCaveat : String :=
  "Counts follow every wired connection. Where a port array is routed by " ++
    "opcode or index at run time, only one destination actually fires, so " ++
    "the count is an upper bound."

/-- `counts` and `via_array`. -/
structure Counted where
  counts : Dict String Int
  viaArray : Finset String

/-- `info.port_sizes.get(port, 1) > 1`. -/
def isWide (info : InstanceInfo) (port : PortName) : Bool :=
  1 < (info.portSizes.get? port).getD 1

/-- `if wide: via_array.add(dest.instance)`. -/
def markArray (info : InstanceInfo) (hop : OutwardHop) (s : Counted) : Counted :=
  if isWide info hop.source.port then ⟨s.counts, insert hop.dest.inst s.viaArray⟩ else s

/-- `counts[dest.instance] = counts.get(dest.instance, 0) + 1`. -/
def countMessage (hop : OutwardHop) (s : Counted) : Counted :=
  ⟨s.counts.set hop.dest.inst ((s.counts.get? hop.dest.inst).getD 0 + 1), s.viaArray⟩

/-- The handlers one path may expand: depths 0 to 12. -/
def depthBound : Nat := 13

/-- `_count`. The first argument is how far `depth` is from the bound. -/
def count (g : TopologyGraph) :
    Nat → Handler → Finset Handler → Counted → Except UnresolvedFlowError Counted
  | 0, _, _, s => .ok s
  | room + 1, node, seen, s =>
    if node ∈ seen then .ok s
    else
      match g.instances.get? node.1 with
      | none => .ok s
      | some info =>
        match g.outwardHops node.1 node.2 with
        | .error e => .error e
        | .ok hops =>
          hops.foldlM (fun s hop =>
            if hop.kind = .async then .ok (countMessage hop (markArray info hop s))
            else
              (hop.destInfo.flowEntries hop.dest.port hop.kind).foldlM (fun s nxt =>
                count g room (hop.dest.inst, nxt) (insert node seen) s) (markArray info hop s)) s

/-- The finding on one target of a handler's messages. -/
def targetFinding (g : TopologyGraph) (name : String) (port : PortName) (entry : String)
    (viaArray : Finset String) (target : String) (messages : Int) : Option RawFinding :=
  match g.instances.get? target with
  | none => none
  | some targetInfo =>
    match targetInfo.queueSize with
    | none => none
    | some size =>
      if messages ≤ size then none
      else
        let behavior := ((targetInfo.portQueueFull.get? port).map QueueFull.str).getD "assert"
        some <|
          if target = name ∧ target ∉ viaArray then
            ⟨.error, target,
              "One message on " ++ (PortKey.mk name port).str ++ " can enqueue " ++
                toString messages ++ " messages back onto " ++ name ++ "'s own queue, which holds " ++
                toString size ++ ". The thread is inside this handler, so nothing drains them " ++
                "meanwhile. Under the " ++ behavior ++ " policy an overflow is a FATAL. " ++
                arrayFanoutCaveat,
              ["stimulus: " ++ (PortKey.mk name port).str ++ " (handler " ++ entry ++ ")"]⟩
          else
            ⟨.info, target,
              "One message on " ++ (PortKey.mk name port).str ++ " fans out to " ++
                toString messages ++ " messages onto " ++ target ++ ", which holds " ++
                toString size ++ ". " ++ target ++ " drains on its own thread concurrently, so " ++
                "this is an amplification ratio to look at, not a proof of overflow.",
              ["stimulus: " ++ (PortKey.mk name port).str ++ " (handler " ++ entry ++ ")"]⟩

/-- The round of the loop of `run` for one handler. -/
def handlerFindings (g : TopologyGraph) (name : String) (h : PortName × String × SyncKind) :
    Except UnresolvedFlowError (List RawFinding) :=
  if h.2.2 ≠ .async then .ok []
  else
    (count g depthBound (name, h.2.1) ∅ ⟨∅, ∅⟩).map fun s =>
      (s.counts.entries.insertionSort fun a b => a.1 ≤ b.1).filterMap fun e =>
        targetFinding g name h.1 h.2.1 s.viaArray e.1 e.2

/-- `QueueOverflow.run`. -/
def run (g : TopologyGraph) : Except UnresolvedFlowError (List RawFinding) :=
  SimplePaths.collect (fun e => SimplePaths.collect (handlerFindings g e.1) (Check.handlers e.2))
    (Check.sortedInstances g)

end QueueOverflow

/-- `QueueOverflow`: one stimulus enqueuing more messages than a queue can
hold. -/
def queueOverflow : Check where
  id := "queue-overflow"
  requiresFlow := true
  body g := OriginM.ofExcept (QueueOverflow.run g)
  queries _ := .ofExcept _

namespace QueueOverflow

/-! ## The paths that are counted -/

/-- The calls the count follows. -/
def problem (g : TopologyGraph) : SimplePaths.Problem Handler OutwardHop UnresolvedFlowError where
  hops h := g.outwardHops h.1 h.2
  next hop := if hop.kind = .async then [] else hop.targets

/-- The calls of a path: sync and guarded hops with the handlers they enter,
then one async hop. -/
structure MessagePath where
  calls : List (OutwardHop × Handler)
  last : OutwardHop
  deriving DecidableEq

/-- The path that an event of the search adds to the count of a target. -/
def messagePath? (target : String) :
    SimplePaths.Event Handler OutwardHop → Option MessagePath
  | .hop p hop => if hop.kind = .async ∧ hop.dest.inst = target then some ⟨p.trail, hop⟩ else none
  | .closed _ => none

/-- The paths from a handler that put a message on a target's queue, each as
often as it is counted. -/
def messagePaths (g : TopologyGraph) (h : Handler) (target : String) :
    Except UnresolvedFlowError (List MessagePath) :=
  (SimplePaths.events (problem g) depthBound (.root h)).map fun es =>
    es.filterMap (messagePath? target)

/-- The hop leaves through an output port of declared size above one. -/
def Wide (g : TopologyGraph) (hop : OutwardHop) : Prop :=
  ∃ info, g.instances.get? hop.source.inst = some info ∧ isWide info hop.source.port

instance (g : TopologyGraph) (hop : OutwardHop) : Decidable (Wide g hop) :=
  decidable_of_iff
    ((g.instances.get? hop.source.inst).any (isWide · hop.source.port) = true) <| by
      simp [Wide, Option.any_eq_true]

/-- The path contributes to the messages counted for a target. -/
def Contributes (g : TopologyGraph) (h : Handler) (target : String) (path : MessagePath) : Prop :=
  ∃ q, SimplePaths.Trail (problem g) (.root h) q ∧ ¬ q.Closed ∧ q.trail.length < depthBound
    ∧ q.trail = path.calls ∧ g.HopOut q.node path.last ∧ path.last.kind = .async
    ∧ path.last.dest.inst = target

/-- The count takes the hop, sync, guarded or async. -/
def Takes (g : TopologyGraph) (h : Handler) (hop : OutwardHop) : Prop :=
  ∃ q, SimplePaths.Trail (problem g) (.root h) q ∧ ¬ q.Closed ∧ q.trail.length < depthBound
    ∧ g.HopOut q.node hop

/-! ## The count is the fold over the events -/

/-- What the count does at an event. -/
def note (g : TopologyGraph) (s : Counted) : SimplePaths.Event Handler OutwardHop → Counted
  | .hop p hop =>
    match g.instances.get? p.node.1 with
    | none => s
    | some info =>
      if hop.kind = .async then countMessage hop (markArray info hop s) else markArray info hop s
  | .closed _ => s

theorem count_eq (g : TopologyGraph) :
    ∀ (room : Nat) (p : SimplePaths.Point Handler OutwardHop) (s : Counted),
      count g room p.node p.passed.toFinset s
        = (SimplePaths.events (problem g) room p).map fun es => es.foldl (note g) s
  | 0, p, s => by
      by_cases hc : p.Closed
      · simp [count, SimplePaths.events, hc, Except.map, note]
      · simp [count, SimplePaths.events, hc, Except.map]
  | room + 1, p, s => by
      by_cases hc : p.Closed
      · have hmem : p.node ∈ p.passed := hc
        simp [count, SimplePaths.events, hc, hmem, Except.map, note]
      · have hmem : p.node ∉ p.passed := hc
        cases hinfo : g.instances.get? p.node.1 with
        | none =>
          have hnone : (problem g).hops p.node = .ok [] := by
            simp [problem, TopologyGraph.outwardHops, hinfo]
          rw [SimplePaths.events_open hc hnone]
          simp [count, hmem, hinfo, SimplePaths.collect, Except.map]
        | some info =>
          cases hout : g.outwardHops p.node.1 p.node.2 with
          | error e =>
            have herr : (problem g).hops p.node = .error e := hout
            simp [count, SimplePaths.events, hc, hmem, hinfo, hout, herr, Except.map]
          | ok hops =>
            have hok : (problem g).hops p.node = .ok hops := hout
            rw [SimplePaths.events_open hc hok]
            simp only [count, List.mem_toFinset, hmem, if_false, hinfo, hout]
            refine SimplePaths.foldlM_collect _ (fun hop _ s => ?_) s
            by_cases hk : hop.kind = .async
            · simp [hk, problem, SimplePaths.collect, Except.map, note, hinfo]
            · have hnote : note g s (.hop p hop) = markArray info hop s := by simp [note, hinfo, hk]
              have hnext : ∀ body : Counted → Handler → Except UnresolvedFlowError Counted,
                  (hop.destInfo.flowEntries hop.dest.port hop.kind).foldlM
                      (fun s nxt => body s (hop.dest.inst, nxt)) (markArray info hop s)
                    = ((problem g).next hop).foldlM body (note g s (.hop p hop)) := by
                intro body
                simp [problem, hk, OutwardHop.targets, hnote, List.foldlM_map]
              rw [if_neg hk, hnext fun s m => count g room m (insert p.node p.passed.toFinset) s]
              refine SimplePaths.foldlM_enter (fun m _ s => ?_) s
              rw [← count_eq g room (p.enter hop m) s]
              simp [SimplePaths.Point.enter]

/-! ## What the fold has counted and marked -/

section Fold

variable {g : TopologyGraph} {h : Handler} {es : List (SimplePaths.Event Handler OutwardHop)}

theorem hopOut_source {node : Handler} {hop : OutwardHop} (hh : g.HopOut node hop) :
    hop.source.inst = node.1 ∧ ∃ info, g.instances.get? node.1 = some info := by
  obtain ⟨hops, hok, hmem⟩ := hh
  unfold TopologyGraph.outwardHops at hok
  split at hok
  · cases hok
    simp at hmem
  · rename_i info hinfo
    split at hok
    · cases hok
    · cases hok
      obtain ⟨out, _, hout⟩ := List.mem_flatMap.mp hmem
      exact ⟨by rw [(TopologyGraph.mem_hopsFrom.mp hout).1], info, hinfo⟩

theorem counts_markArray (info : InstanceInfo) (hop : OutwardHop) (s : Counted) :
    (markArray info hop s).counts = s.counts := by
  unfold markArray
  split <;> rfl

/-- The hops among the events are those the count takes. -/
theorem hop_mem_events_iff (hes : SimplePaths.events (problem g) depthBound (.root h) = .ok es)
    (q : SimplePaths.Point Handler OutwardHop) (hop : OutwardHop) :
    .hop q hop ∈ es ↔ SimplePaths.Trail (problem g) (.root h) q ∧ ¬ q.Closed
      ∧ q.trail.length < depthBound ∧ g.HopOut q.node hop := by
  have hzero : (SimplePaths.Point.root h : SimplePaths.Point Handler OutwardHop).trail.length
      + depthBound = depthBound := Nat.zero_add _
  rw [SimplePaths.mem_events_iff hes]
  constructor
  · intro hocc
    cases hocc with
    | hop htrail hopen hlen hok hh => exact ⟨htrail, hopen, hzero ▸ hlen, _, hok, hh⟩
  · rintro ⟨htrail, hopen, hlen, hops, hok, hh⟩
    exact .hop htrail hopen (hzero.symm ▸ hlen) hok hh

/-- Every hop among the events leaves a known instance. -/
def Known (g : TopologyGraph) (es : List (SimplePaths.Event Handler OutwardHop)) : Prop :=
  ∀ q hop, .hop q hop ∈ es → hop.source.inst = q.node.1
    ∧ ∃ info, g.instances.get? q.node.1 = some info

theorem known_events (hes : SimplePaths.events (problem g) depthBound (.root h) = .ok es) :
    Known g es :=
  fun q hop hmem => hopOut_source ((hop_mem_events_iff hes q hop).mp hmem).2.2.2

/-- The count of a target is the number of paths that end on its queue. -/
theorem counts_foldl (target : String) (es : List (SimplePaths.Event Handler OutwardHop))
    (hknown : Known g es) :
    ∀ s, (((es.foldl (note g) s).counts.get? target).getD 0 : Int)
      = (s.counts.get? target).getD 0 + (es.filterMap (messagePath? target)).length := by
  induction es with
  | nil => simp
  | cons e es ih =>
    have ih := ih fun q hop hmem => hknown q hop (List.mem_cons_of_mem _ hmem)
    intro s
    rw [List.foldl_cons, ih]
    cases e with
    | closed q => rfl
    | hop q hop =>
      obtain ⟨_, info, hinfo⟩ := hknown q hop (List.mem_cons_self ..)
      by_cases hadds : hop.kind = .async ∧ hop.dest.inst = target
      · have hpath : messagePath? target (.hop q hop) = some ⟨q.trail, hop⟩ := if_pos hadds
        have hnote : (note g s (.hop q hop)).counts.get? target
            = some ((s.counts.get? target).getD 0 + 1) := by
          simp [note, hinfo, hadds, countMessage, counts_markArray]
        rw [List.filterMap_cons_some hpath, hnote, List.length_cons, Option.getD_some]
        omega
      · have hpath : messagePath? target (.hop q hop) = none := if_neg hadds
        have hnote : (note g s (.hop q hop)).counts.get? target = s.counts.get? target := by
          by_cases hk : hop.kind = .async
          · have ht : target ≠ hop.dest.inst := fun ht => hadds ⟨hk, ht.symm⟩
            simp [note, hinfo, hk, countMessage, counts_markArray, ht]
          · simp [note, hinfo, hk, counts_markArray]
        rw [List.filterMap_cons_none hpath, hnote]

/-- The array marker is on the instances wide hops land on. -/
theorem mem_viaArray_foldl (target : String) (es : List (SimplePaths.Event Handler OutwardHop))
    (hknown : Known g es) :
    ∀ s, target ∈ (es.foldl (note g) s).viaArray
      ↔ target ∈ s.viaArray ∨ ∃ q hop, .hop q hop ∈ es ∧ Wide g hop ∧ hop.dest.inst = target := by
  induction es with
  | nil => simp
  | cons e es ih =>
    have ih := ih fun q hop hmem => hknown q hop (List.mem_cons_of_mem _ hmem)
    intro s
    rw [List.foldl_cons, ih]
    cases e with
    | closed q => simp [note]
    | hop q hop =>
      obtain ⟨hsource, info, hinfo⟩ := hknown q hop (List.mem_cons_self ..)
      have hwide : Wide g hop ↔ isWide info hop.source.port = true := by
        simp [Wide, hsource, hinfo]
      have hmark : target ∈ (note g s (.hop q hop)).viaArray
          ↔ target ∈ s.viaArray ∨ (Wide g hop ∧ hop.dest.inst = target) := by
        rw [hwide]
        by_cases hw : isWide info hop.source.port = true
        · by_cases hk : hop.kind = .async
          · simp [note, hinfo, hk, countMessage, markArray, hw, or_comm, eq_comm]
          · simp [note, hinfo, hk, markArray, hw, or_comm, eq_comm]
        · by_cases hk : hop.kind = .async
          · simp [note, hinfo, hk, countMessage, markArray, hw]
          · simp [note, hinfo, hk, markArray, hw]
      rw [hmark, or_assoc]
      refine or_congr_right ?_
      constructor
      · rintro (hhop | ⟨q', hop', hmem, hrest⟩)
        · exact ⟨q, hop, List.mem_cons_self .., hhop⟩
        · exact ⟨q', hop', List.mem_cons_of_mem _ hmem, hrest⟩
      · rintro ⟨q', hop', hmem, hrest⟩
        rcases List.mem_cons.mp hmem with heq | hmem
        · cases heq
          exact .inl hrest
        · exact .inr ⟨q', hop', hmem, hrest⟩

/-- The paths listed are those that contribute. -/
theorem mem_messagePaths_iff {target : String} {paths : List MessagePath}
    (h' : messagePaths g h target = .ok paths) (path : MessagePath) :
    path ∈ paths ↔ Contributes g h target path := by
  obtain ⟨es, hes, rfl⟩ := SimplePaths.map_eq_ok_iff.mp h'
  rw [List.mem_filterMap]
  constructor
  · rintro ⟨e, he, hpath⟩
    cases e with
    | closed q => cases hpath
    | hop q hop =>
      obtain ⟨htrail, hopen, hlen, hout⟩ := (hop_mem_events_iff hes q hop).mp he
      rw [messagePath?] at hpath
      split at hpath
      · rename_i hadds
        obtain rfl := Option.some.inj hpath
        exact ⟨q, htrail, hopen, hlen, rfl, hout, hadds.1, hadds.2⟩
      · cases hpath
  · rintro ⟨q, htrail, hopen, hlen, hcalls, hout, hkind, hdest⟩
    refine ⟨.hop q path.last, (hop_mem_events_iff hes _ _).mpr ⟨htrail, hopen, hlen, hout⟩, ?_⟩
    rw [messagePath?, if_pos ⟨hkind, hdest⟩, hcalls]

end Fold

/-! ## The errors -/

section Errors

variable {g : TopologyGraph} {name entry : String} {port : PortName} {info : InstanceInfo}
  {findings : List RawFinding}

theorem targetFinding_error_iff {viaArray : Finset String} {target : String} {messages : Int} :
    (∃ f, targetFinding g name port entry viaArray target messages = some f ∧ f.severity = .error)
      ↔ target = name ∧ target ∉ viaArray ∧ ∃ info size, g.instances.get? target = some info
        ∧ info.queueSize = some size ∧ size < messages := by
  unfold targetFinding
  cases hinfo : g.instances.get? target with
  | none => simp
  | some info =>
    cases hsize : info.queueSize with
    | none => simp [hsize]
    | some size =>
      by_cases hfits : messages ≤ size
      · simp [hsize, hfits]
      · simp only [hsize, if_neg hfits]
        by_cases hprovable : target = name ∧ target ∉ viaArray
        · rw [if_pos hprovable]
          exact ⟨fun _ => ⟨hprovable.1, hprovable.2, info, size, rfl, hsize, not_le.mp hfits⟩,
            fun _ => ⟨_, rfl, rfl⟩⟩
        · rw [if_neg hprovable]
          constructor
          · rintro ⟨f, hf, herror⟩
            rw [← Option.some.inj hf] at herror
            cases herror
          · rintro ⟨hname, hvia, _⟩
            exact absurd ⟨hname, hvia⟩ hprovable

/-- A handler's findings come from the events of its count. -/
theorem handlerFindings_events
    (hrun : handlerFindings g name (port, entry, .async) = .ok findings) :
    ∃ es, SimplePaths.events (problem g) depthBound (.root (name, entry)) = .ok es
      ∧ ∀ f, f ∈ findings ↔ ∃ target messages,
        (es.foldl (note g) ⟨∅, ∅⟩).counts.get? target = some messages
        ∧ targetFinding g name port entry (es.foldl (note g) ⟨∅, ∅⟩).viaArray target messages
          = some f := by
  have hcount : count g depthBound (name, entry) ∅ ⟨∅, ∅⟩
      = (SimplePaths.events (problem g) depthBound (.root (name, entry))).map fun es =>
          es.foldl (note g) ⟨∅, ∅⟩ :=
    count_eq g depthBound (.root (name, entry)) ⟨∅, ∅⟩
  simp only [handlerFindings, ne_eq, not_true_eq_false, if_false, hcount] at hrun
  obtain ⟨s, hs, hfindings⟩ := SimplePaths.map_eq_ok_iff.mp hrun
  obtain ⟨es, hes, hfold⟩ := SimplePaths.map_eq_ok_iff.mp hs
  refine ⟨es, hes, fun f => ?_⟩
  rw [← hfindings, ← hfold]
  simp only [List.mem_filterMap, List.mem_insertionSort, Dict.get?_eq_some_iff, Prod.exists]

/-- Some hop the count takes is wide and lands on the instance itself. -/
def Marked (g : TopologyGraph) (h : Handler) : Prop :=
  ∃ hop, Takes g h hop ∧ Wide g hop ∧ hop.dest.inst = h.1

/-- A handler with paths onto its own queue reports an error when there are
more of them than the queue holds and the instance is not marked, and only
then. -/
theorem error_iff (hinfo : g.instances.get? name = some info)
    (hrun : handlerFindings g name (port, entry, .async) = .ok findings) :
    ∃ paths, messagePaths g (name, entry) name = .ok paths
      ∧ (paths ≠ [] → ((∃ f ∈ findings, f.severity = .error)
        ↔ (∃ size, info.queueSize = some size ∧ size < paths.length)
          ∧ ¬ Marked g (name, entry))) := by
  obtain ⟨es, hes, hmem⟩ := handlerFindings_events hrun
  have hknown := known_events hes
  refine ⟨_, SimplePaths.map_eq_ok_iff.mpr ⟨es, hes, rfl⟩, fun hne => ?_⟩
  have hcount := counts_foldl name es hknown ⟨∅, ∅⟩
  have hvia : name ∈ (es.foldl (note g) ⟨∅, ∅⟩).viaArray ↔ Marked g (name, entry) := by
    rw [mem_viaArray_foldl name es hknown]
    constructor
    · rintro (hnone | ⟨q, hop, he, hwide, hdest⟩)
      · simp at hnone
      · exact ⟨hop, ⟨q, (hop_mem_events_iff hes q hop).mp he⟩, hwide, hdest⟩
    · rintro ⟨hop, ⟨q, htakes⟩, hwide, hdest⟩
      exact .inr ⟨q, hop, (hop_mem_events_iff hes q hop).mpr htakes, hwide, hdest⟩
  rw [Dict.get?_empty, Option.getD_none, zero_add] at hcount
  rw [← hvia]
  constructor
  · rintro ⟨f, hf, herror⟩
    obtain ⟨target, messages, hget, htarget⟩ := (hmem f).mp hf
    obtain ⟨rfl, hnot, info', size, hinfo', hsize, hlt⟩ :=
      targetFinding_error_iff.mp ⟨f, htarget, herror⟩
    obtain rfl := Option.some.inj (hinfo.symm.trans hinfo')
    rw [hget, Option.getD_some] at hcount
    exact ⟨⟨size, hsize, hcount ▸ hlt⟩, hnot⟩
  · rintro ⟨⟨size, hsize, hlt⟩, hnot⟩
    have hpos := List.length_pos_iff.mpr hne
    cases hget : (es.foldl (note g) ⟨∅, ∅⟩).counts.get? name with
    | none =>
      rw [hget, Option.getD_none] at hcount
      omega
    | some messages =>
      rw [hget, Option.getD_some] at hcount
      obtain ⟨f, hf, herror⟩ := (targetFinding_error_iff (g := g)).mpr
        ⟨rfl, hnot, info, size, hinfo, hsize, hcount ▸ hlt⟩
      exact ⟨f, (hmem f).mpr ⟨name, messages, hget, hf⟩, herror⟩

/-- No array is on a way back to the queue: what a sync or guarded call through
a wide output enters, of a handler that `h` leads to, leads to no message on
`target`. -/
def ArraysLeadAway (g : TopologyGraph) (h : Handler) (target : String) : Prop :=
  ∀ caller hop entered poster last, Relation.ReflTransGen g.Calls h caller → g.HopOut caller hop →
    hop.kind ≠ .async → Wide g hop → entered ∈ hop.targets →
    Relation.ReflTransGen g.Calls entered poster → g.HopOut poster last → last.kind = .async →
    last.dest.inst ≠ target

/-- A handler that is fewer calls away from `h` than the bound has a wide output
onto the instance of `h`. -/
def ArrayEndsOn (g : TopologyGraph) (h : Handler) : Prop :=
  ∃ k < depthBound, ∃ caller hop, SimplePaths.Away (problem g) k h caller ∧ g.HopOut caller hop
    ∧ Wide g hop ∧ hop.dest.inst = h.1

/-- The calls the count follows are the sync and guarded ones. -/
theorem leads_iff_calls {h h' : Handler} : SimplePaths.Leads (problem g) h h' ↔ g.Calls h h' := by
  have hnext : ∀ hop : OutwardHop, h' ∈ (problem g).next hop ↔ hop.kind ≠ .async ∧ h' ∈ hop.targets := by
    intro hop
    by_cases hk : hop.kind = .async <;> simp [problem, hk]
  constructor
  · rintro ⟨hops, hok, hop, hmem, hentered⟩
    exact ⟨hop, ⟨hops, hok, hmem⟩, (hnext hop).mp hentered⟩
  · rintro ⟨hop, ⟨hops, hok, hmem⟩, hentered⟩
    exact ⟨hops, hok, hop, hmem, (hnext hop).mpr hentered⟩

theorem leads_eq_calls : SimplePaths.Leads (problem g) = g.Calls := by
  ext h h'
  exact leads_iff_calls

/-- An array that ends on the instance marks it. -/
theorem ArrayEndsOn.marked {h : Handler} (harray : ArrayEndsOn g h) : Marked g h := by
  obtain ⟨k, hk, caller, hop, haway, hhop, hwide, hdest⟩ := harray
  obtain ⟨q, htrail, hopen, rfl, hlen⟩ := haway.exists_trail
  exact ⟨hop, ⟨q, htrail, hopen, by omega, hhop⟩, hwide, hdest⟩

/-- Where arrays lead away, no path that contributes is wide before its last
hop. -/
theorem ArraysLeadAway.calls_narrow {h : Handler} {target : String} (haway : ArraysLeadAway g h target)
    {path : MessagePath} (hpath : Contributes g h target path) :
    ∀ call ∈ path.calls, ¬ Wide g call.1 := by
  obtain ⟨q, htrail, _, _, hcalls, hout, hkind, hdest⟩ := hpath
  intro call hcall hwide
  obtain ⟨caller, hops, hfrom, hok, hmem, hentered, hto⟩ :=
    htrail.leads_of_mem call (hcalls ▸ hcall)
  rw [leads_eq_calls] at hfrom hto
  have hhop : g.HopOut caller call.1 := ⟨hops, hok, hmem⟩
  by_cases hk : call.1.kind = .async
  · simp [problem, hk] at hentered
  · have htargets : call.2 ∈ call.1.targets := by simpa [problem, hk] using hentered
    exact haway caller call.1 call.2 q.node path.last hfrom hhop hk hwide htargets hto hout hkind hdest

/-- **An error never rests on a port array** where no array is on a way back to
the queue, or one ends on the instance itself, or the instance declares no
queue size. -/
theorem error_exact (g : TopologyGraph) (name entry : String) (port : PortName)
    (info : InstanceInfo) (findings : List RawFinding) (hinfo : g.instances.get? name = some info)
    (hrun : handlerFindings g name (port, entry, .async) = .ok findings)
    (hwiring : ArraysLeadAway g (name, entry) name ∨ ArrayEndsOn g (name, entry)
      ∨ info.queueSize = none) :
    (∃ f ∈ findings, f.severity = .error) → ∀ path, Contributes g (name, entry) name path →
      ¬ Wide g path.last ∧ ∀ call ∈ path.calls, ¬ Wide g call.1 := by
  obtain ⟨paths, hpaths, herror⟩ := error_iff hinfo hrun
  intro hreported path hpath
  have hne : paths ≠ [] := List.ne_nil_of_mem ((mem_messagePaths_iff hpaths path).mpr hpath)
  obtain ⟨⟨size, hsize, _⟩, hunmarked⟩ := (herror hne).mp hreported
  rcases hwiring with haway | hends | hnone
  · refine ⟨fun hwide => hunmarked ?_, haway.calls_narrow hpath⟩
    -- the last hop lands on the instance
    obtain ⟨q, htrail, hopen, hlen, _, hout, _, hdest⟩ := hpath
    exact ⟨path.last, ⟨q, htrail, hopen, hlen, hout⟩, hwide, hdest⟩
  · exact absurd hends.marked hunmarked
  · rw [hnone] at hsize
    cases hsize

end Errors

/-! `x` sends through an array of two to `y` and `z`, which both send back
onto its queue. -/

/-- The component of `x`: its queue holds one message. -/
def arrayInstance : InstanceInfo where
  kind := .active
  componentName := "C"
  inputPorts := .ofList [(.go, {.async})]
  outputPorts := [.out]
  queueSize := some 1
  portSizes := .ofList [(.out, 2)]

def arrayTopology : TopologyGraph where
  instances := .ofList [("x", arrayInstance), ("y", TopologyGraph.loopInstance),
    ("z", TopologyGraph.loopInstance)]
  connections := .ofList [(⟨"x", .out⟩, [⟨"y", .go⟩, ⟨"z", .go⟩]), (⟨"y", .out⟩, [⟨"x", .go⟩]),
    (⟨"z", .out⟩, [⟨"x", .go⟩])]
  flow := TopologyGraph.loopFlow

/-- The call of `x` through its array, and the message that comes back. -/
def arrayPath (via : String) : MessagePath :=
  ⟨[(⟨⟨"x", .out⟩, ⟨via, .go⟩, TopologyGraph.loopInstance, .sync⟩, (via, "go"))],
    ⟨⟨via, .out⟩, ⟨"x", .go⟩, arrayInstance, .async⟩⟩

/-- Two messages can come back onto the queue of one, and the error rests on
an array of which one element fires. -/
theorem error_rests_on_array :
    ∃ findings, handlerFindings arrayTopology "x" (.go, "go", .async) = .ok findings
      ∧ (∃ f ∈ findings, f.severity = .error)
      ∧ Contributes arrayTopology ("x", "go") "x" (arrayPath "y")
      ∧ ∃ call ∈ (arrayPath "y").calls, Wide arrayTopology call.1 := by
  have hseverity : (handlerFindings arrayTopology "x" (.go, "go", .async)).map
      (fun findings => findings.map RawFinding.severity) = .ok [.error] := by
    decide +kernel
  have hpaths : messagePaths arrayTopology ("x", "go") "x"
      = .ok [arrayPath "y", arrayPath "z"] := by
    decide +kernel
  obtain ⟨findings, hrun, hsev⟩ := SimplePaths.map_eq_ok_iff.mp hseverity
  have herror : Severity.error ∈ findings.map RawFinding.severity := by
    rw [hsev]
    exact List.mem_singleton_self _
  obtain ⟨f, hf, hfsev⟩ := List.mem_map.mp herror
  exact ⟨findings, hrun, ⟨f, hf, hfsev⟩,
    (mem_messagePaths_iff hpaths _).mp (List.mem_cons_self ..), _, List.mem_cons_self ..,
    arrayInstance, by decide, by decide⟩

/-! Here `x` sends to `y` and `z` through a port of one element, and through an
array to `w` only. -/

/-- The component of `x`. -/
def narrowInstance : InstanceInfo where
  kind := .active
  componentName := "C"
  inputPorts := .ofList [(.go, {.async})]
  outputPorts := [.out, .run]
  queueSize := some 1
  portSizes := .ofList [(.run, 2)]

def narrowTopology : TopologyGraph where
  instances := .ofList [("x", narrowInstance), ("y", TopologyGraph.loopInstance),
    ("z", TopologyGraph.loopInstance), ("w", TopologyGraph.loopInstance)]
  connections := .ofList [(⟨"x", .out⟩, [⟨"y", .go⟩, ⟨"z", .go⟩]), (⟨"x", .run⟩, [⟨"w", .go⟩]),
    (⟨"y", .out⟩, [⟨"x", .go⟩]), (⟨"z", .out⟩, [⟨"x", .go⟩])]
  flow := .permissive ∅

theorem narrowTopology_arrays : ArraysLeadAway narrowTopology ("x", "go") "x" := by
  intro caller hop entered poster last hcaller hhop hkind hwide hentered hposter hlast _ _
  have hcaller : caller ∈ [("x", "go"), ("y", "go"), ("z", "go"), ("w", "go")] :=
    narrowTopology.mem_of_calls (by decide) (by decide) hcaller
  have hw : ∀ h ∈ [("x", "go"), ("y", "go"), ("z", "go"), ("w", "go")],
      ∀ hop ∈ narrowTopology.hopsOut h, hop.kind ≠ .async → Wide narrowTopology hop →
        ∀ next ∈ hop.targets, next ∈ [("w", "go")] := by
    decide
  have hentered := hw caller hcaller hop (narrowTopology.hopOut_iff_mem.mp hhop) hkind hwide entered
    hentered
  have hposter : poster ∈ [("w", "go")] :=
    narrowTopology.mem_of_calls (by decide) hentered hposter
  obtain rfl := List.mem_singleton.mp hposter
  have hnone : narrowTopology.hopsOut ("w", "go") = [] := by decide
  rw [narrowTopology.hopOut_iff_mem, hnone] at hlast
  exact absurd hlast List.not_mem_nil

/-- The error on `x` rests on its two messages. -/
theorem error_exact_narrow :
    ∃ findings, handlerFindings narrowTopology "x" (.go, "go", .async) = .ok findings
      ∧ (∃ f ∈ findings, f.severity = .error)
      ∧ (∃ path, Contributes narrowTopology ("x", "go") "x" path)
      ∧ ∀ path, Contributes narrowTopology ("x", "go") "x" path →
        ¬ Wide narrowTopology path.last ∧ ∀ call ∈ path.calls, ¬ Wide narrowTopology call.1 := by
  have hseverity : (handlerFindings narrowTopology "x" (.go, "go", .async)).map
      (fun findings => findings.map RawFinding.severity) = .ok [.error] := by
    decide +kernel
  obtain ⟨findings, hrun, hsev⟩ := SimplePaths.map_eq_ok_iff.mp hseverity
  have herror : Severity.error ∈ findings.map RawFinding.severity := by
    rw [hsev]
    exact List.mem_singleton_self _
  obtain ⟨f, hf, hfsev⟩ := List.mem_map.mp herror
  have hcount : (messagePaths narrowTopology ("x", "go") "x").map List.length = .ok 2 := by
    decide +kernel
  obtain ⟨paths, hpaths, hlen⟩ := SimplePaths.map_eq_ok_iff.mp hcount
  obtain ⟨path, hpath⟩ := List.exists_mem_of_length_pos (by omega : 0 < paths.length)
  exact ⟨findings, hrun, ⟨f, hf, hfsev⟩, ⟨path, (mem_messagePaths_iff hpaths path).mp hpath⟩,
    error_exact narrowTopology "x" "go" .go narrowInstance findings (by decide) hrun
      (.inl narrowTopology_arrays) ⟨f, hf, hfsev⟩⟩

end QueueOverflow

end FprimeTopologyAnalysis
