/-
FprimeTopologyAnalysis.EmitContext — which handlers emit on a port, and
what the report makes of it (`_handler_label`, `emit_context_for_port`,
`classify_priority_relation`, `format_emit_context_for_display` and what
they call in `async_queue_analyzer.py`).

The emit context is a text: the labels of the emitting handlers, joined by
commas. The classification looks for markers in that text. No marker spans
a comma, so a marker is in the text exactly when it is in a label
(`hasContext_contextOf`), and severity asks no more of a context than that
(`severity_eq_iff`).

The renderer only splits two formats that wrap a list of call sites. The
emit context of a port is neither, so a list of labels is rendered as if it
were one label (`shortContextPart_append`).
-/
import FprimeTopologyAnalysis.DrainThread
import FprimeTopologyAnalysis.Library.Text

namespace FprimeTopologyAnalysis

open Library

/-! ## Labels -/

/-- The label of a handler without its name, by the kind it is told by. -/
def labelHead (command : Bool) (kind : Option SyncKind) : String :=
  match command, kind with
  | true, some .async => "async command handler "
  | true, some .guarded => "guarded command handler "
  | true, some .sync => "sync command handler "
  | true, none => "command handler (kind unknown) "
  | false, some .async => "async input handler "
  | false, some .guarded => "guarded input handler "
  | false, some .sync => "sync input handler "
  | false, none => "handler (unknown kind) "

/-- A handler is told by the first of these kinds that it has. -/
def labelKind (kinds : Finset SyncKind) : Option SyncKind :=
  if .async ∈ kinds then some .async
  else if .guarded ∈ kinds then some .guarded
  else if .sync ∈ kinds then some .sync
  else none

/-- The mnemonic of a command's flow entry. -/
def commandOf (entry : String) : Option String :=
  if Text.startsWith entry "cmd:" then some (Text.dropChars entry "cmd:".length) else none

namespace InstanceInfo

/-- `input_ports.get(name, set())`, of any text. -/
def kindsNamed (info : InstanceInfo) (name : String) : Finset SyncKind :=
  ((info.inputPorts.entries.find? fun e => e.1.str = name).map Prod.snd).getD ∅

/-- The kinds that a handler's label is chosen by. -/
def handlerKinds (info : InstanceInfo) (entry : String) : Finset SyncKind :=
  match commandOf entry with
  | some mnemonic => (info.commandKinds.get? mnemonic).getD ∅
  | none => info.kindsNamed entry

/-- `_handler_label`. -/
def handlerLabel (info : InstanceInfo) (entry : String) : String :=
  match commandOf entry with
  | some mnemonic => labelHead true (labelKind (info.handlerKinds entry)) ++ mnemonic
  | none => labelHead false (labelKind (info.handlerKinds entry)) ++ entry

/-- A label is told by the handler's kinds and name. -/
theorem handlerLabel_eq (info : InstanceInfo) (entry : String) :
    info.handlerLabel entry = labelHead (commandOf entry).isSome (labelKind (info.handlerKinds entry))
      ++ (commandOf entry).getD entry := by
  unfold handlerLabel
  cases commandOf entry <;> rfl

/-- The handlers of an instance, as `emit_context_for_port` goes through
them. -/
def emitOrder (info : InstanceInfo) : List String :=
  info.inputPorts.sortedEntries.flatMap fun e =>
    (SyncKind.sorted e.2).flatMap fun kind => info.flowEntries e.1 kind

end InstanceInfo

/-! ## The emit context -/

namespace TopologyGraph

variable (g : TopologyGraph)

/-- The body of the loop over an instance's handlers. -/
def addEmitter (info : InstanceInfo) (outPort : PortName) (emitters : List String)
    (entry : String) : Except UnresolvedFlowError (List String) :=
  match g.outputsFor info entry with
  | .error e => .error e
  | .ok outputs =>
    if outPort ∈ outputs ∧ info.handlerLabel entry ∉ emitters then
      .ok (emitters ++ [info.handlerLabel entry])
    else
      .ok emitters

end TopologyGraph

/-- The context that a list of labels makes. -/
def contextOf (emitters : List String) : String :=
  if emitters = [] then "cpp:external-entry"
  else if emitters.all fun label => Text.startsWith label "async " then "cpp:async-only"
  else ", ".intercalate emitters

/-- `emit_context_for_port`. -/
def TopologyGraph.emitContextForPort (g : TopologyGraph) (name : String) (outPort : PortName) :
    Except UnresolvedFlowError String :=
  match g.instances.get? name with
  | none => .ok "cpp:unknown-component"
  | some info => (info.emitOrder.foldlM (g.addEmitter info outPort) []).map contextOf

/-! ## The classification -/

/-- The markers of `has_sync_or_unknown_context`. -/
def contextMarkers : List String :=
  ["sync input handler ", "sync command handler ", "handler (unknown kind) ",
    "command handler (kind unknown) ", "non-handler method ", "unknown method",
    "cpp:external-entry", "cpp:unknown-component"]

/-- `has_sync_or_unknown_context`. -/
def hasSyncOrUnknownContext (context : String) : Bool :=
  if context = "" ∨ context = "cpp:async-only" ∨ context = "cpp:autocoded-base" then false
  else contextMarkers.any fun marker => Text.contains context marker

/-- What the priorities alone say. -/
def priorityRelation (sourceKind : ThreadKind) (sourcePriority sinkPriority : Option Int) :
    Nat × String :=
  match sourcePriority, sinkPriority with
  | some source, some sink =>
    if source > sink then
      match sourceKind with
      | .active => (3, "🔴")
      | .queued => (2, "🟡")
      | _ => (0, "")
    else if source < sink then (1, "🟢")
    else (0, "")
  | _, _ => (0, "")

/-- `classify_priority_relation`. -/
def classifyPriorityRelation (sourceKind : ThreadKind) (sourcePriority sinkPriority : Option Int)
    (emitContext : String) : Nat × String :=
  if sourceKind = .passive then
    if hasSyncOrUnknownContext emitContext then (2, "🟠") else (1, "🟢")
  else
    let relation := priorityRelation sourceKind sourcePriority sinkPriority
    if relation.1 < 3 ∧ hasSyncOrUnknownContext emitContext = true then (2, "🟠") else relation

/-! ## The renderer -/

/-- An entry of `CONTEXT_PREFIXES`: a label's head, its short form, whether
the tail names a port, and whether it survives non-verbose rendering. -/
structure ContextPrefix where
  head : String
  short : String
  namesPort : Bool
  always : Bool

/-- `CONTEXT_PREFIXES`. -/
def contextPrefixes : List ContextPrefix :=
  [⟨"sync input handler ", "sync in", true, true⟩,
    ⟨"async input handler ", "async in", true, false⟩,
    ⟨"sched input handler ", "sched in", true, false⟩,
    ⟨"guarded input handler ", "guarded in", true, false⟩,
    ⟨"sync command handler ", "sync cmd", false, true⟩,
    ⟨"async command handler ", "async cmd", false, false⟩,
    ⟨"handler (unknown kind) ", "unknown handler", false, true⟩,
    ⟨"command handler (kind unknown) ", "unknown cmd", false, true⟩]

/-- `_port_tail`. -/
def portTail (tail : String) : String :=
  match Text.splitFirst ":" tail with
  | some (portName, portType) => portType ++ " " ++ portName
  | none => tail

/-- The body of `_short_context_part`, where `short` renders a part of a via
list. -/
def shortPartWith (short : String → Option String) (includeAsync : Bool) (part : String) :
    Option String :=
  match contextPrefixes.find? fun p => Text.startsWith part p.head with
  | some p =>
    if p.always || includeAsync then
      let tail := Text.dropChars part p.head.length
      some (p.short ++ " " ++ if p.namesPort then portTail tail else tail)
    else
      none
  | none =>
    if Text.startsWith part "non-handler method " then
      let body := Text.dropChars part "non-handler method ".length
      match Text.splitFirst " via " body with
      | some (methodName, viaDetail) =>
        let viaParts := (Text.split ", " viaDetail).filter fun p => p ≠ ""
        let renderedVia := (viaParts.filterMap short).filter fun shortVia => shortVia ≠ ""
        if renderedVia ≠ [] then some (", ".intercalate renderedVia)
        else if includeAsync then some ("unknown path " ++ methodName) else none
      | none => some ("unknown path " ++ body)
    else if part = "unknown method" then
      if includeAsync then some "unknown method" else none
    else
      some part

/-- `_short_context_part`, to a depth of `fuel` nested via lists. -/
def shortWithin (includeAsync : Bool) : Nat → String → Option String
  | 0, part => some part
  | fuel + 1, part => shortPartWith (shortWithin includeAsync fuel) includeAsync part

/-- `_short_context_part`. A via list is shorter than the part it is in, so
its length is depth enough (`shortWithin_fuel`). -/
def shortContextPart (part : String) (includeAsync : Bool) : Option String :=
  shortWithin includeAsync (part.length + 1) part

/-- `_extract_context_parts`. -/
def extractContextParts (context : String) : List String :=
  if Text.startsWith context "cpp:passive via " then
    (Text.split ", " (Text.dropChars context "cpp:passive via ".length)).filter fun p => p ≠ ""
  else if Text.startsWith context "cpp:mixed (" ∧ context.toList.getLast? = some ')' then
    (Text.split ", " (String.ofList
      (Text.dropChars context "cpp:mixed (".length).toList.dropLast)).filter fun p => p ≠ ""
  else
    [context]

/-- The short forms of some parts; an empty one is left out. -/
def renderParts (parts : List String) (producerVerbose : Bool) : List String :=
  (parts.filterMap fun part => shortContextPart part producerVerbose).filter fun short => short ≠ ""

/-- `format_emit_context_for_display`. -/
def formatEmitContextForDisplay (context : String) (producerVerbose : Bool) : String :=
  if context = "cpp:autocoded-base" then ""
  else if context = "cpp:external-entry" then "external/lifecycle entry"
  else if context = "cpp:unknown-component" then "unknown component"
  else ", ".intercalate (renderParts (extractContextParts context) producerVerbose)

/-! ## The depth of the renderer -/

/-- Only parts shorter than the whole are rendered on the way. -/
theorem shortPartWith_congr {short short' : String → Option String} {includeAsync : Bool}
    {part : String} (h : ∀ p, p.length < part.length → short p = short' p) :
    shortPartWith short includeAsync part = shortPartWith short' includeAsync part := by
  have hvia : ∀ methodName viaDetail,
      Text.splitFirst " via " (Text.dropChars part "non-handler method ".length)
        = some (methodName, viaDetail) →
      ((Text.split ", " viaDetail).filter fun p => p ≠ "").filterMap short
        = ((Text.split ", " viaDetail).filter fun p => p ≠ "").filterMap short' := by
    intro methodName viaDetail hsplit
    have hlen := Text.length_splitFirst hsplit
    have hbody : (Text.dropChars part "non-handler method ".length).length ≤ part.length := by
      simp [Text.dropChars, ← String.length_toList]
    have hsep : " via ".length = 5 := by decide
    refine List.filterMap_congr fun p hp => h p ?_
    have hp' := Text.length_of_mem_split (List.mem_filter.mp hp).1
    dsimp only at hlen
    omega
  unfold shortPartWith
  split
  · rfl
  · split
    · dsimp only
      split
      · rename_i hsplit
        rw [hvia _ _ hsplit]
      · rfl
    · rfl

/-- **The depth is enough**: with more the renderer does the same. -/
theorem shortWithin_fuel (includeAsync : Bool) :
    ∀ (fuel fuel' : Nat) (part : String), part.length < fuel → part.length < fuel' →
      shortWithin includeAsync fuel part = shortWithin includeAsync fuel' part
  | 0, _, part, h, _ => absurd h (Nat.not_lt_zero _)
  | _ + 1, 0, part, _, h => absurd h (Nat.not_lt_zero _)
  | fuel + 1, fuel' + 1, part, h, h' => by
      rw [shortWithin, shortWithin]
      refine shortPartWith_congr fun p hp => ?_
      exact shortWithin_fuel includeAsync fuel fuel' p (by omega) (by omega)

/-! ## Markers -/

/-- None of the three contexts that are told apart first has a marker. -/
theorem hasSyncOrUnknownContext_eq (context : String) :
    hasSyncOrUnknownContext context
      = contextMarkers.any fun marker => Text.contains context marker := by
  unfold hasSyncOrUnknownContext
  split
  · rename_i hnone
    rcases hnone with rfl | rfl | rfl <;> decide +kernel
  · rfl

/-- **A joined context has the markers of its labels.** -/
theorem hasContext_join (labels : List String) :
    hasSyncOrUnknownContext (", ".intercalate labels) = true
      ↔ ∃ label ∈ labels, hasSyncOrUnknownContext label = true := by
  have hmarker : ∀ marker ∈ contextMarkers,
      ',' ∉ marker.toList ∧ marker.toList.head? ≠ some ' ' ∧ marker ≠ "" := by decide +kernel
  simp only [hasSyncOrUnknownContext_eq, List.any_eq_true]
  constructor
  · rintro ⟨marker, hmem, hin⟩
    obtain ⟨hcomma, hblank, hne⟩ := hmarker marker hmem
    obtain ⟨label, hlabel, hin⟩ := (Text.contains_join_iff hcomma hblank hne labels).mp hin
    exact ⟨label, hlabel, marker, hmem, hin⟩
  · rintro ⟨label, hlabel, marker, hmem, hin⟩
    obtain ⟨hcomma, hblank, hne⟩ := hmarker marker hmem
    exact ⟨marker, hmem, (Text.contains_join_iff hcomma hblank hne labels).mpr ⟨label, hlabel, hin⟩⟩

/-- The labels that `emit_context_for_port` counts as async. -/
def IsAsyncLabel (label : String) : Prop := Text.startsWith label "async " = true

theorem hasContext_contextOf (labels : List String) :
    hasSyncOrUnknownContext (contextOf labels) = true
      ↔ labels = [] ∨ (¬ (∀ label ∈ labels, IsAsyncLabel label)
        ∧ ∃ label ∈ labels, hasSyncOrUnknownContext label = true) := by
  unfold contextOf
  split
  · rename_i hnil
    have hentry : hasSyncOrUnknownContext "cpp:external-entry" = true := by decide +kernel
    simp [hnil, hentry]
  · rename_i hne
    split
    · rename_i hall
      have hasync : hasSyncOrUnknownContext "cpp:async-only" = false := by decide +kernel
      have hall' : ∀ label ∈ labels, IsAsyncLabel label := List.all_eq_true.mp hall
      simp only [hne, hasync, false_or, Bool.false_eq_true, false_iff, not_and]
      exact fun hno => absurd hall' hno
    · rename_i hall
      have hall' : ¬ ∀ label ∈ labels, IsAsyncLabel label := fun h => hall (List.all_eq_true.mpr h)
      rw [hasContext_join]
      simp [hne, hall']

/-! ## What the labels say -/

theorem isAsyncLabel_iff (command : Bool) (kind : Option SyncKind) (name : String) :
    IsAsyncLabel (labelHead command kind ++ name) ↔ kind = some .async := by
  have hlong : "async ".toList.length ≤ (labelHead command kind).toList.length := by
    cases command <;> rcases kind with _ | _ | _ | _ <;> decide +kernel
  rw [IsAsyncLabel, Text.startsWith_append _ _ _ hlong]
  cases command <;> rcases kind with _ | _ | _ | _ <;> decide +kernel

/-- Every label but a guarded handler's has a marker, an async one because
`async input handler` ends in `sync input handler`. -/
theorem hasContext_label (command : Bool) {kind : Option SyncKind} (h : kind ≠ some .guarded)
    (name : String) : hasSyncOrUnknownContext (labelHead command kind ++ name) = true := by
  have hhead : ∃ marker ∈ contextMarkers, Text.contains (labelHead command kind) marker = true := by
    revert h
    cases command <;> rcases kind with _ | _ | _ | _ <;> decide +kernel
  rw [hasSyncOrUnknownContext_eq, List.any_eq_true]
  obtain ⟨marker, hmem, hin⟩ := hhead
  exact ⟨marker, hmem, Text.contains_append hin name⟩

/-- A guarded handler's label has none, if its name is an identifier. -/
theorem hasContext_guarded (command : Bool) {name : String} (hname : IsIdentifier name) :
    hasSyncOrUnknownContext (labelHead command (some .guarded) ++ name) = false := by
  -- every marker has a blank or a colon that the name has not, and the marker
  -- up to there is not in the head
  have hall : (contextMarkers.all fun marker => (List.range 40).any fun n => [' ', ':'].any fun y =>
      marker.toList[n]? == some y && !Text.contains (labelHead command (some .guarded))
        (String.ofList (marker.toList.take (n + 1)))) = true := by
    cases command <;> decide +kernel
  have hcut : ∀ marker ∈ contextMarkers, ∃ n, ∃ y ∈ [' ', ':'],
      marker.toList[n]? = some y ∧ Text.contains (labelHead command (some .guarded))
        (String.ofList (marker.toList.take (n + 1))) = false := by
    intro marker hmarker
    obtain ⟨n, _, hn⟩ := List.any_eq_true.mp (List.all_eq_true.mp hall marker hmarker)
    obtain ⟨y, hy, hcut⟩ := List.any_eq_true.mp hn
    simp only [Bool.and_eq_true, beq_iff_eq, Bool.not_eq_true'] at hcut
    exact ⟨n, y, hy, hcut⟩
  rw [hasSyncOrUnknownContext_eq, List.any_eq_false]
  intro marker hmarker hin
  obtain ⟨n, y, hy, hget, hno⟩ := hcut marker hmarker
  have hynot : y ∉ name.toList := by
    rcases List.mem_cons.mp hy with rfl | hy
    · exact hname.notMem (by decide)
    · obtain rfl := List.mem_singleton.mp hy
      exact hname.notMem (by decide)
  obtain ⟨hlt, hgetn⟩ := List.getElem?_eq_some_iff.mp hget
  have htake : marker.toList.take (n + 1) = marker.toList.take n ++ [y] := by
    rw [← hgetn, List.take_append_getElem hlt]
  have hsplit : marker.toList = marker.toList.take n ++ y :: marker.toList.drop (n + 1) := by
    rw [← hgetn, List.cons_getElem_drop_succ, List.take_append_drop]
  rw [Text.contains_iff, String.toList_append, hsplit] at hin
  have hhead := Text.infix_of_infix_append hynot hin
  rw [← htake, ← String.toList_ofList (l := marker.toList.take (n + 1)), ← Text.contains_iff] at hhead
  exact absurd hhead (by simp [hno])

/-! ## Severity -/

/-- The source's thread is known to outrank the sink's. -/
def Outranks (sourceKind : ThreadKind) (sourcePriority sinkPriority : Option Int) : Prop :=
  (sourceKind = .active ∨ sourceKind = .queued)
    ∧ ∃ source sink, sourcePriority = some source ∧ sinkPriority = some sink ∧ sink < source

theorem priorityRelation_severity (sourceKind : ThreadKind) (sourcePriority sinkPriority : Option Int)
    (h : sourceKind ≠ .passive) :
    (priorityRelation sourceKind sourcePriority sinkPriority).1 ≤ 3
      ∧ (2 ≤ (priorityRelation sourceKind sourcePriority sinkPriority).1
        ↔ Outranks sourceKind sourcePriority sinkPriority) := by
  cases sourcePriority with
  | none => simp [priorityRelation, Outranks]
  | some source =>
    cases sinkPriority with
    | none => simp [priorityRelation, Outranks]
    | some sink =>
      by_cases hlt : sink < source
      · cases sourceKind <;> simp [priorityRelation, Outranks, hlt] at h ⊢
      · by_cases hgt : source < sink <;> simp [priorityRelation, Outranks, hlt, hgt]

/-- A marker in the context raises the severity to two. -/
theorem severity_eq (sourceKind : ThreadKind) (sourcePriority sinkPriority : Option Int)
    (context : String) (h : sourceKind ≠ .passive) :
    (classifyPriorityRelation sourceKind sourcePriority sinkPriority context).1
      = if hasSyncOrUnknownContext context = true
        then max 2 (priorityRelation sourceKind sourcePriority sinkPriority).1
        else (priorityRelation sourceKind sourcePriority sinkPriority).1 := by
  have hle := (priorityRelation_severity sourceKind sourcePriority sinkPriority h).1
  rw [classifyPriorityRelation, if_neg h]
  by_cases hcontext : hasSyncOrUnknownContext context = true
  · by_cases hsevere : (priorityRelation sourceKind sourcePriority sinkPriority).1 < 3
    · simp only [hcontext, hsevere, and_self, if_true]
      omega
    · simp only [hcontext, hsevere, and_true, if_false, if_true]
      omega
  · simp [hcontext]

/-- **Severity asks no more of the context** than whether it has a marker,
and not even that where the source outranks the sink. -/
theorem severity_eq_iff (sourceKind : ThreadKind) (sourcePriority sinkPriority : Option Int)
    (context context' : String) :
    (classifyPriorityRelation sourceKind sourcePriority sinkPriority context).1
        = (classifyPriorityRelation sourceKind sourcePriority sinkPriority context').1
      ↔ Outranks sourceKind sourcePriority sinkPriority
        ∨ (hasSyncOrUnknownContext context = true ↔ hasSyncOrUnknownContext context' = true) := by
  by_cases h : sourceKind = .passive
  · have hno : ¬ Outranks sourceKind sourcePriority sinkPriority := by simp [Outranks, h]
    simp only [classifyPriorityRelation, h, if_true]
    by_cases hc : hasSyncOrUnknownContext context = true
      <;> by_cases hc' : hasSyncOrUnknownContext context' = true
      <;> simp [hc, hc', h ▸ hno]
  · obtain ⟨hle, houtranks⟩ := priorityRelation_severity sourceKind sourcePriority sinkPriority h
    rw [severity_eq _ _ _ _ h, severity_eq _ _ _ _ h, ← houtranks]
    by_cases hc : hasSyncOrUnknownContext context = true
      <;> by_cases hc' : hasSyncOrUnknownContext context' = true
      <;> simp [hc, hc', eq_comm]

/-! ## The emitters of a port -/

namespace TopologyGraph

variable {g : TopologyGraph}

/-- The handler of the instance `info` that `entry` keys may emit on a
port. -/
def Emits (g : TopologyGraph) (info : InstanceInfo) (outPort : PortName) (entry : String) : Prop :=
  entry ∈ info.emitOrder ∧ ∃ outputs, g.outputsFor info entry = .ok outputs ∧ outPort ∈ outputs

theorem foldlM_addEmitter_ok_iff (info : InstanceInfo) (outPort : PortName) :
    ∀ (entries emitters : List String),
      (∃ labels, entries.foldlM (g.addEmitter info outPort) emitters = .ok labels)
        ↔ ∀ entry ∈ entries, ∃ outputs, g.outputsFor info entry = .ok outputs
  | [], emitters => by simp [pure, Except.pure]
  | entry :: entries, emitters => by
      rw [List.foldlM_cons, List.forall_mem_cons, addEmitter]
      cases g.outputsFor info entry with
      | error e => simp [bind, Except.bind]
      | ok outputs =>
        have hrest := foldlM_addEmitter_ok_iff info outPort entries
        dsimp only
        split <;> simp [bind, Except.bind, hrest]

theorem mem_foldlM_addEmitter {info : InstanceInfo} {outPort : PortName} (label : String) :
    ∀ (entries emitters labels : List String),
      entries.foldlM (g.addEmitter info outPort) emitters = .ok labels →
      (label ∈ labels ↔ label ∈ emitters ∨ ∃ entry ∈ entries,
        (∃ outputs, g.outputsFor info entry = .ok outputs ∧ outPort ∈ outputs)
          ∧ info.handlerLabel entry = label)
  | [], emitters, labels, h => by
      obtain rfl : emitters = labels := by simpa [pure, Except.pure] using h
      simp
  | entry :: entries, emitters, labels, h => by
      rw [List.foldlM_cons, addEmitter] at h
      cases houts : g.outputsFor info entry with
      | error e => simp [houts, bind, Except.bind] at h
      | ok outputs =>
        rw [houts] at h
        dsimp only at h
        have hentry : (∃ outputs', g.outputsFor info entry = .ok outputs' ∧ outPort ∈ outputs')
            ↔ outPort ∈ outputs := by simp [houts]
        rw [List.exists_mem_cons_iff, hentry]
        split at h
        · rename_i hnew
          have hrest := mem_foldlM_addEmitter label entries _ labels h
          rw [hrest, List.mem_append, List.mem_singleton, or_assoc]
          simp [hnew.1, eq_comm]
        · rename_i hold
          have hkeep : outPort ∈ outputs ∧ info.handlerLabel entry = label → label ∈ emitters := by
            rintro ⟨hout, rfl⟩
            by_contra hnot
            exact hold ⟨hout, hnot⟩
          have hrest := mem_foldlM_addEmitter label entries _ labels h
          rw [hrest, ← or_assoc, or_iff_left_of_imp hkeep]

/-- The labels of a port's emit context are those of its emitters. -/
theorem emitContext_spec {name : String} {outPort : PortName} {info : InstanceInfo}
    (hget : g.instances.get? name = some info) :
    ((∃ context, g.emitContextForPort name outPort = .ok context)
      ↔ ∀ entry ∈ info.emitOrder, ∃ outputs, g.outputsFor info entry = .ok outputs)
    ∧ ∀ context, g.emitContextForPort name outPort = .ok context → ∃ labels,
      context = contextOf labels ∧
        ∀ label, label ∈ labels ↔ ∃ entry, g.Emits info outPort entry
          ∧ info.handlerLabel entry = label := by
  have hemit : g.emitContextForPort name outPort
      = (info.emitOrder.foldlM (g.addEmitter info outPort) []).map contextOf := by
    rw [emitContextForPort, hget]
  rw [← foldlM_addEmitter_ok_iff info outPort info.emitOrder []]
  constructor
  · rw [hemit]
    cases info.emitOrder.foldlM (g.addEmitter info outPort) [] <;> simp [Except.map]
  · intro context hcontext
    rw [hemit] at hcontext
    cases hfold : info.emitOrder.foldlM (g.addEmitter info outPort) [] with
    | error e => simp [hfold, Except.map] at hcontext
    | ok labels =>
      rw [hfold] at hcontext
      obtain rfl := Except.ok.inj hcontext
      refine ⟨labels, rfl, fun label => ?_⟩
      rw [mem_foldlM_addEmitter label _ _ _ hfold]
      simp [Emits, and_assoc]

end TopologyGraph

end FprimeTopologyAnalysis
