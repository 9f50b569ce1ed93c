/-
FprimeTopologyAnalysis.QueueTable — the table of the async queues
(`render_markdown` of `async_queue_analyzer.py`) and what can be read off it.

A queue is a line of its own, then one line for each producer. What repeats
is left out: a port and its policy stand on the port's first line, a type
where it changes, and a producer that feeds the next port too is not written
again. `readTable` fills the blanks from the lines above. On rows whose
producers are told apart by their names it reads back all of them
(`readTable_renderMarkdown`).
-/
import FprimeTopologyAnalysis.AsyncQueue
import FprimeTopologyAnalysis.Library.NumberText
import FprimeTopologyAnalysis.Library.Table

namespace FprimeTopologyAnalysis

open Library

/-! ## The columns -/

/-- `COLUMNS`. -/
inductive Column where
  | destinationQueue
  | destinationComponentType
  | queueSize
  | drainThreadKind
  | drainThreadPriority
  | drainSchedSource
  | totalProdHz
  | consHz
  | fillTime
  | portType
  | destinationPort
  | overflowBehavior
  | asyncProducer
  | producerThreadKind
  | producerThreadPriority
  | producerSchedSource
  deriving DecidableEq

namespace Column

/-- The title of a column. -/
def title : Column → String
  | destinationQueue => "Destination Queue"
  | destinationComponentType => "Destination Component Type"
  | queueSize => "Queue Size"
  | drainThreadKind => "Drain Thread Kind"
  | drainThreadPriority => "Drain Thread Priority"
  | drainSchedSource => "Drain Sched Source"
  | totalProdHz => "Total Prod Hz"
  | consHz => "Cons Hz"
  | fillTime => "Fill Time (s)"
  | portType => "Port Type"
  | destinationPort => "Destination Port"
  | overflowBehavior => "Overflow Behavior"
  | asyncProducer => "Async Producer"
  | producerThreadKind => "Producer Thread Kind"
  | producerThreadPriority => "Producer Thread Priority"
  | producerSchedSource => "Producer Sched Source"

/-- `DEST_SCOPE`. -/
def destScope : List Column :=
  [destinationQueue, destinationComponentType, queueSize, drainThreadKind, drainThreadPriority,
    drainSchedSource, totalProdHz, consHz, fillTime]

/-- `RATE_COLUMNS`. -/
def rateColumns : List Column := [totalProdHz, consHz, fillTime]

/-- `COLUMNS`, in order. -/
def all : List Column :=
  destScope ++ [portType, destinationPort, overflowBehavior, asyncProducer, producerThreadKind,
    producerThreadPriority, producerSchedSource]

/-- The columns of a report. -/
def shown (includeRates : Bool) : List Column :=
  all.filter fun c => includeRates ∨ c ∉ rateColumns

end Column

/-- The cells of a line. -/
abbrev Cells := Column → String

/-! ## The cells -/

/-- `str(kind)`. -/
def ThreadKind.str : ThreadKind → String
  | .active => "active"
  | .queued => "queued"
  | .passive => "passive"
  | .unknown => "unknown"

/-- `_frequency_cell`, of the value of the frequency's float. -/
def frequencyCell (frequency : Option ℚ) : String :=
  match frequency with
  | none => "unknown"
  | some hz => NumberText.generalText hz

/-- `_fill_time_cell`. The fill time is rounded to a float before it is
formatted: of one message and 80 Hz the cell is `0.013`, not `0.012`. -/
def fillTimeCell (seconds : Option (WithTop ℚ)) : String :=
  match seconds with
  | none => "unknown"
  | some none => "stable (drain >= fill)"
  | some (some q) => NumberText.fixedText 3 q

/-- `_destination_cells`. -/
def destinationCells (row : QueueGroup) : Cells
  | .destinationQueue => row.destination
  | .destinationComponentType => row.destinationType
  | .queueSize => (row.queueSize.map toString).getD "unknown"
  | .drainThreadKind => row.drainThreadKind.str
  | .drainThreadPriority => (row.drainThreadPriority.map toString).getD "unknown"
  | .drainSchedSource => row.drainDrainSource.getD ""
  | .totalProdHz => frequencyCell row.totalProductionHz
  | .consHz => frequencyCell row.consumerRateHz
  | .fillTime => fillTimeCell row.queueFillTimeS
  | _ => ""

/-- The cells about a producer. -/
structure ProducerCells where
  source : String
  threadKind : String
  threadPriority : String
  schedSource : String
  deriving DecidableEq

/-- Nothing about a producer, or nothing new. -/
def ProducerCells.blank : ProducerCells := ⟨"", "", "", ""⟩

/-- The context of `_producer_cells`. -/
def producerContext (p : InboundProducer) (producerVerbose : Bool) : String :=
  let context :=
    if p.emitContext ≠ "" ∧ p.emitContext ∉ ["cpp:async-only", "cpp:autocoded-base"] then
      formatEmitContextForDisplay p.emitContext producerVerbose
    else ""
  if p.threadKind = .passive ∧ context = "" ∧ p.emitContext ≠ "cpp:autocoded-base" then
    "source unknown"
  else context

/-- The prefix of the priority cell. -/
def priorityPrefix (p : InboundProducer) : String :=
  match p.threadPriority with
  | some priority => toString priority ++ ":"
  | none => if p.threadKind = .passive then "N/A:" else ""

/-- `_producer_cells`. -/
def producerCells (p : InboundProducer) (priorityEmoji : String) (producerVerbose : Bool) :
    ProducerCells where
  source := p.source
  threadKind :=
    if producerContext p producerVerbose ≠ "" then
      p.threadKind.str ++ " (" ++ producerContext p producerVerbose ++ ")"
    else p.threadKind.str
  threadPriority :=
    if priorityPrefix p ≠ "" then Text.rstrip (Text.ljust 6 (priorityPrefix p) ++ " " ++ priorityEmoji)
    else priorityEmoji
  schedSource := p.drainSource.getD ""

/-! ## The statuses -/

/-- The emoji of a producer. -/
def producerEmoji (row : QueueGroup) (p : InboundProducer) : String :=
  (classifyPriorityRelation p.threadKind p.threadPriority row.drainThreadPriority p.emitContext).2

/-- `emoji_counts`. -/
def emojiCounts (row : QueueGroup) : Dict String Nat :=
  (row.inboundPorts.flatMap InboundAsyncPortGroup.producers).foldl
    (fun counts p =>
      if producerEmoji row p = "" then counts
      else
        counts.set (producerEmoji row p) ((counts.get? (producerEmoji row p)).getD 0 + 1)) ∅

/-- The order of the statuses. -/
def statusOrder : List String := ["🔴", "🟠", "🟡", "🟢"]

/-- `summarize_component_priority_status`. -/
def summarizeComponentPriorityStatus (row : QueueGroup) : List String :=
  statusOrder.filterMap fun emoji =>
    let count := ((emojiCounts row).get? emoji).getD 0
    if 0 < count then some (emoji ++ " " ++ toString count) else none

/-! ## The groups in order -/

/-- `group_max`. -/
def groupMax (group : InboundAsyncPortGroup) : Option Int :=
  (group.producers.filterMap InboundProducer.threadPriority).max?

/-- One round of the loop over the groups. -/
def noteMax (maxima : Dict String (Option Int)) (group : InboundAsyncPortGroup) :
    Dict String (Option Int) :=
  match (maxima.get? group.dataType).join with
  | none => maxima.set group.dataType (groupMax group)
  | some known =>
    match groupMax group with
    | none => maxima
    | some most => if known < most then maxima.set group.dataType (some most) else maxima

/-- `max_prio_by_type`. -/
def maxPrioByType (row : QueueGroup) : Dict String (Option Int) :=
  row.inboundPorts.foldl noteMax ∅

/-- `max_prio_by_type.get(data_type)`. -/
def typeMax (row : QueueGroup) (dataType : String) : Option Int :=
  ((maxPrioByType row).get? dataType).join

/-- The names of two groups in order. -/
def nameLe (a b : InboundAsyncPortGroup) : Prop :=
  a.dataType < b.dataType ∨ a.dataType = b.dataType ∧ a.destinationPort ≤ b.destinationPort

/-- The order by `_type_order_key` and port, for the highest priorities of the
types. -/
def groupLe (top : String → Option Int) (a b : InboundAsyncPortGroup) : Prop :=
  match top a.dataType, top b.dataType with
  | some x, some y => y < x ∨ x = y ∧ nameLe a b
  | some _, none => True
  | none, some _ => False
  | none, none => nameLe a b

instance : DecidableRel nameLe := fun a b =>
  inferInstanceAs (Decidable (a.dataType < b.dataType
    ∨ a.dataType = b.dataType ∧ a.destinationPort ≤ b.destinationPort))

instance (top : String → Option Int) : DecidableRel (groupLe top) := fun a b => by
  unfold groupLe
  split <;> infer_instance

/-- `_sorted_groups`; `none` is the placeholder of a row without groups. -/
def sortedGroups (row : QueueGroup) : List (Option InboundAsyncPortGroup) :=
  let groups := row.inboundPorts.insertionSort (groupLe (typeMax row))
  if groups = [] then [none] else groups.map some

/-- `_visible_producers`, each with its emoji; `none` is `InboundProducer()`. -/
def visibleProducers (row : QueueGroup) (group : Option InboundAsyncPortGroup)
    (hideGreenRows : Bool) : List (Option InboundProducer × String) :=
  let producers := (group.map InboundAsyncPortGroup.producers).getD []
  let shown : List (Option InboundProducer × String) :=
    if producers = [] then [(none, "")]
    else producers.map fun p => (some p, producerEmoji row p)
  shown.filter fun e => ¬ (hideGreenRows ∧ e.2 = "🟢")

/-! ## The lines -/

/-- The options of `render_markdown`. -/
structure RenderOptions where
  includeRates : Bool
  splitDestinationTables : Bool := false
  producerVerbose : Bool := false
  hideGreenRows : Bool := false
  rateGroups : Dict String ℚ := ∅

/-- What a line of a producer says about its port: the type, the port and the
policy. -/
structure PortCells where
  portType : String
  destinationPort : String
  overflowBehavior : String

def PortCells.blank : PortCells := ⟨"", "", ""⟩

/-- The line of a producer. -/
def producerLine (status : String) (port : PortCells) (producer : ProducerCells) : Cells
  | .drainThreadPriority => status
  | .portType => port.portType
  | .destinationPort => port.destinationPort
  | .overflowBehavior => port.overflowBehavior
  | .asyncProducer => producer.source
  | .producerThreadKind => producer.threadKind
  | .producerThreadPriority => producer.threadPriority
  | .producerSchedSource => producer.schedSource
  | _ => ""

/-- What the loop over a row's producers keeps: the producer written last,
and the statuses still to be written. -/
structure LineState where
  previousProducer : Option String
  drainStatuses : List String

/-- The cells of a producer, `InboundProducer()` included. -/
def cellsOf (p : Option InboundProducer) (emoji : String) (producerVerbose : Bool) :
    ProducerCells :=
  match p with
  | none => ⟨"", "", emoji, ""⟩
  | some p => producerCells p emoji producerVerbose

/-- The lines of a port's producers; `port` is what the first of them says
about it. -/
def producerLines (producerVerbose : Bool) : PortCells → LineState →
    List (Option InboundProducer × String) → List Cells × LineState
  | _, s, [] => ([], s)
  | port, s, (p, emoji) :: rest =>
    let cells := cellsOf p emoji producerVerbose
    let repeated : Bool := cells.source ≠ "" ∧ s.previousProducer = some cells.source
    let s' : LineState :=
      ⟨if repeated then s.previousProducer
        else if cells.source = "" then none else some cells.source, s.drainStatuses.tail⟩
    let line := producerLine (s.drainStatuses.head?.getD "") port
      (if repeated then .blank else cells)
    let (lines, s'') := producerLines producerVerbose .blank s' rest
    (line :: lines, s'')

/-- The cells of a port, its type left out where the last port had it. -/
def portCells (group : Option InboundAsyncPortGroup) (previousType : Option String) : PortCells :=
  match group with
  | none => ⟨"", "", ""⟩
  | some group =>
    ⟨if previousType = some group.dataType then "" else group.dataType, group.destinationPort,
      group.overflowBehavior.str⟩

/-- The lines of a row's ports. -/
def groupLines (producerVerbose : Bool) : Option String → LineState →
    List (Option InboundAsyncPortGroup × List (Option InboundProducer × String)) →
    List Cells × LineState
  | _, s, [] => ([], s)
  | previousType, s, (group, producers) :: rest =>
    let (lines, s') := producerLines producerVerbose (portCells group previousType) s producers
    let (lines', s'') := groupLines producerVerbose
      (some ((group.map InboundAsyncPortGroup.dataType).getD "")) s' rest
    (lines ++ lines', s'')

/-- The groups of a row with producers to be seen. -/
def visibleGroups (row : QueueGroup) (hideGreenRows : Bool) :
    List (Option InboundAsyncPortGroup × List (Option InboundProducer × String)) :=
  ((sortedGroups row).map fun group => (group, visibleProducers row group hideGreenRows)).filter
    fun e => e.2 ≠ []

/-- The lines of a row: its queue, its producers, and the statuses left. -/
def rowLines (opts : RenderOptions) (row : QueueGroup) : List Cells :=
  let (lines, s) := groupLines opts.producerVerbose none
    ⟨none, summarizeComponentPriorityStatus row⟩ (visibleGroups row opts.hideGreenRows)
  destinationCells row :: lines
    ++ s.drainStatuses.map fun status => producerLine status .blank .blank

/-- The header of a table. -/
def headerLine (opts : RenderOptions) : String :=
  Table.row ((Column.shown opts.includeRates).map Column.title)

/-- The rule under it. -/
def ruleLine (opts : RenderOptions) : String :=
  "|" ++ String.join (List.replicate (Column.shown opts.includeRates).length "---|")

/-- The line of some cells. -/
def cellLine (opts : RenderOptions) (cells : Cells) : String :=
  Table.row ((Column.shown opts.includeRates).map cells)

/-- The lines of the rows; `rendered` says whether one has been written. -/
def bodyLines (opts : RenderOptions) : Bool → List QueueGroup → List String
  | _, [] => []
  | rendered, row :: rows =>
    if visibleGroups row opts.hideGreenRows = [] then bodyLines opts rendered rows
    else
      (if opts.splitDestinationTables then
          (if rendered then [""] else []) ++ [headerLine opts, ruleLine opts]
        else if rendered then [Table.spacer (Column.shown opts.includeRates).length] else [])
        ++ (rowLines opts row).map (cellLine opts) ++ bodyLines opts true rows

/-- The line of the rate groups. -/
def rateGroupsLine (rateGroups : Dict String ℚ) : String :=
  "Rate groups: " ++ ", ".intercalate (rateGroups.sortedEntries.map fun e =>
    e.1 ++ "=" ++ NumberText.generalText e.2 ++ " Hz")

/-- The lines above the table. -/
def introLines (opts : RenderOptions) : List String :=
  ["# Async Queue Group Analysis", "", "Priority relation:", "",
    "- 🔴 active producer outranks the drain thread",
    "- 🟠 caller-thread priority is unresolved",
    "- 🟡 queued producer outranks the drain thread",
    "- 🟢 producer priority is below the drain thread", ""]
    ++ (if opts.rateGroups.entries = [] then [] else [rateGroupsLine opts.rateGroups, ""])
    ++ (if opts.splitDestinationTables then [] else [headerLine opts, ruleLine opts])

/-- `render_markdown`. -/
def renderMarkdown (opts : RenderOptions) (rows : List QueueGroup) : String :=
  "\n".intercalate (introLines opts ++ bodyLines opts false rows) ++ "\n"

/-! ## Reading the table -/

/-- A port of a row that is read. -/
structure TableGroup where
  portType : String
  destinationPort : String
  overflowBehavior : String
  producers : List ProducerCells
  deriving DecidableEq

/-- A row that is read: the cells of its queue, its ports, its statuses. -/
structure TableRow where
  destination : List String
  groups : List TableGroup
  statuses : List String
  deriving DecidableEq

/-- What has been read: the rows, and the type and the producer that a blank
stands for. -/
structure Reading where
  rows : List TableRow
  lastType : String
  lastProducer : ProducerCells

def Reading.start : Reading := ⟨[], "", .blank⟩

/-- The producer that a line is about. -/
def Reading.producer (s : Reading) (cells : Cells) : ProducerCells :=
  if cells .asyncProducer = "" then s.lastProducer
  else
    ⟨cells .asyncProducer, cells .producerThreadKind, cells .producerThreadPriority,
      cells .producerSchedSource⟩

/-- The statuses that a line adds. -/
def statusOf (cells : Cells) : List String :=
  if cells .drainThreadPriority = "" then [] else [cells .drainThreadPriority]

/-- One line is read. -/
def readLine (columns : List Column) (s : Reading) (cells : Cells) : Reading :=
  if cells .destinationQueue ≠ "" then
    ⟨s.rows ++ [⟨(columns.filter (· ∈ Column.destScope)).map cells, [], []⟩], "", .blank⟩
  else if cells .destinationPort ≠ "" then
    let portType := if cells .portType = "" then s.lastType else cells .portType
    let group : TableGroup :=
      ⟨portType, cells .destinationPort, cells .overflowBehavior, [s.producer cells]⟩
    ⟨s.rows.modifyLast fun row =>
        ⟨row.destination, row.groups ++ [group], row.statuses ++ statusOf cells⟩,
      portType, s.producer cells⟩
  else if cells .asyncProducer ≠ "" then
    ⟨s.rows.modifyLast fun row =>
        ⟨row.destination, row.groups.modifyLast fun group =>
            { group with producers := group.producers ++ [s.producer cells] },
          row.statuses ++ statusOf cells⟩,
      s.lastType, s.producer cells⟩
  else
    { s with rows := s.rows.modifyLast fun row =>
        ⟨row.destination, row.groups, row.statuses ++ statusOf cells⟩ }

/-- The cells of a line of the table. -/
def lineCells (columns : List Column) (line : String) : Cells := fun c =>
  (Table.cells line).getD (columns.idxOf c) ""

/-- The line is one of cells: no header, no rule. -/
def isCellLine (opts : RenderOptions) (line : String) : Bool :=
  Text.startsWith line "| " ∧ line ≠ headerLine opts

/-- The rows of a table. -/
def readTable (opts : RenderOptions) (text : String) : List TableRow :=
  (((Table.splitLines text).filter (isCellLine opts)).foldl
    (fun s line => readLine (Column.shown opts.includeRates) s
      (lineCells (Column.shown opts.includeRates) line)) .start).rows

end FprimeTopologyAnalysis
