/-
FprimeTopologyAnalysis.QueueTableRead — the table of the async queues reads
back.

A line of cells is read back as it was written (`lineCells_cellLine`). What a
row leaves out is a type or a producer that the lines above have, so a
reading that has gone through them fills it in: `Recalls` is what it must
remember, and the groups of a row keep it (`read_groups`). So a row is read
back whole when a name that repeats is the same producer (`Legible`).
-/
import FprimeTopologyAnalysis.QueueTable
import Mathlib.Data.List.GetD
import Mathlib.Data.List.ModifyLast

namespace FprimeTopologyAnalysis

open Library

/-! ## Lines of cells -/

/-- Neither a bar nor a line break. -/
def IsPlain (s : String) : Prop := '|' ∉ s.toList ∧ '\n' ∉ s.toList

instance (s : String) : Decidable (IsPlain s) := inferInstanceAs (Decidable (_ ∧ _))

theorem isPlain_empty : IsPlain "" := by decide

theorem IsPlain.append {s t : String} (hs : IsPlain s) (ht : IsPlain t) : IsPlain (s ++ t) := by
  simpa [IsPlain, not_or] using ⟨⟨hs.1, ht.1⟩, hs.2, ht.2⟩

theorem IsPlain.of_subset {s t : String} (ht : IsPlain t) (h : ∀ c ∈ s.toList, c ∈ t.toList) :
    IsPlain s :=
  ⟨fun hc => ht.1 (h _ hc), fun hc => ht.2 (h _ hc)⟩

theorem IsPlain.of_numeric {s : String} (h : NumberText.IsNumeric s) : IsPlain s := by
  constructor
  · intro hc
    rcases h _ hc with hd | hd
    · cases hd
    · simp at hd
  · intro hc
    rcases h _ hc with hd | hd
    · cases hd
    · simp at hd

theorem isPlain_int (n : Int) : IsPlain (toString n) := by
  constructor
  · intro hc
    rcases Text.mem_repr hc with hd | hd
    · cases hd
    · cases hd
  · intro hc
    rcases Text.mem_repr hc with hd | hd
    · cases hd
    · cases hd

theorem isPlain_nat (n : Nat) : IsPlain (toString n) :=
  .of_numeric (NumberText.isNumeric_repr n)

/-- The columns every report has. -/
theorem mem_shown {includeRates : Bool} {c : Column} (h : c ∉ Column.rateColumns) :
    c ∈ Column.shown includeRates := by
  rw [Column.shown, List.mem_filter]
  refine ⟨?_, by simp [h]⟩
  cases c <;> decide

theorem shown_ne_nil (includeRates : Bool) : Column.shown includeRates ≠ [] :=
  List.ne_nil_of_mem (mem_shown (c := .destinationQueue) (by decide))

/-- What a line of the columns shows of the cells. -/
def shownCells (columns : List Column) (cells : Cells) : Cells :=
  fun c => if c ∈ columns then cells c else ""

/-- **A line of cells is read back.** -/
theorem lineCells_row {columns : List Column} {cells : Cells} (hne : columns ≠ [])
    (h : ∀ c, '|' ∉ (cells c).toList) :
    lineCells columns (Table.row (columns.map cells)) = shownCells columns cells := by
  have hread : Table.cells (Table.row (columns.map cells)) = columns.map cells :=
    Table.cells_row (by simpa using hne) (by simpa using fun c _ => h c)
  funext c
  rw [lineCells, hread, shownCells]
  by_cases hc : c ∈ columns
  · have hlt := List.idxOf_lt_length_of_mem hc
    rw [if_pos hc, List.getD_eq_getElem _ _ (by simpa using hlt), List.getElem_map,
      List.getElem_idxOf]
  · rw [if_neg hc, List.idxOf_of_notMem hc]
    simp

/-- Only what is shown is read. -/
theorem readLine_shownCells (includeRates : Bool) (s : Reading) (cells : Cells) :
    readLine (Column.shown includeRates) s (shownCells (Column.shown includeRates) cells)
      = readLine (Column.shown includeRates) s cells := by
  have hsame : ∀ c, c ∉ Column.rateColumns →
      shownCells (Column.shown includeRates) cells c = cells c :=
    fun c hc => if_pos (mem_shown hc)
  have hdest : ((Column.shown includeRates).filter (· ∈ Column.destScope)).map
        (shownCells (Column.shown includeRates) cells)
      = ((Column.shown includeRates).filter (· ∈ Column.destScope)).map cells :=
    List.map_congr_left fun c hc => if_pos (List.mem_filter.mp hc).1
  unfold readLine Reading.producer statusOf
  rw [hdest]
  simp only [hsame .destinationQueue (by decide), hsame .destinationPort (by decide),
    hsame .portType (by decide), hsame .overflowBehavior (by decide),
    hsame .asyncProducer (by decide), hsame .producerThreadKind (by decide),
    hsame .producerThreadPriority (by decide), hsame .producerSchedSource (by decide),
    hsame .drainThreadPriority (by decide)]

/-- An empty line says nothing. -/
theorem readLine_empty (columns : List Column) (s : Reading) (rows : List TableRow) (row : TableRow)
    (hrows : s.rows = rows ++ [row]) : readLine columns s (fun _ => "") = s := by
  obtain ⟨all, lastType, lastProducer⟩ := s
  subst hrows
  simp [readLine, statusOf, List.modifyLast_concat]

/-! ## The lines of a row -/

section Rows

variable {row : QueueGroup} {producerVerbose : Bool} {columns : List Column}

/-- A row whose producers are told apart by their names. -/
structure QueueGroup.Legible (row : QueueGroup) : Prop where
  destination : row.destination ≠ ""
  fed : row.inboundPorts ≠ []
  ports : ∀ group ∈ row.inboundPorts, group.destinationPort ≠ "" ∧ group.dataType ≠ ""
    ∧ group.producers ≠ []
  sources : ∀ group ∈ row.inboundPorts, ∀ p ∈ group.producers, p.source ≠ ""
  apart : ∀ group ∈ row.inboundPorts, (group.producers.map InboundProducer.source).Nodup
  agree : ∀ group ∈ row.inboundPorts, ∀ group' ∈ row.inboundPorts, ∀ p ∈ group.producers,
    ∀ p' ∈ group'.producers, p.source = p'.source → p = p'

/-- The cells of a producer of the row. -/
def QueueGroup.cellsOf (row : QueueGroup) (producerVerbose : Bool) (p : InboundProducer) :
    ProducerCells :=
  producerCells p (producerEmoji row p) producerVerbose

/-- What a reading must remember of the lines above: the producer that was
written last. -/
structure Recalls (row : QueueGroup) (producerVerbose : Bool) (s : LineState)
    (lastProducer : ProducerCells) : Prop where
  producer : ∀ source, s.previousProducer = some source → ∃ group ∈ row.inboundPorts,
    ∃ p ∈ group.producers, p.source = source ∧ lastProducer = row.cellsOf producerVerbose p
  statuses : ∀ status ∈ s.drainStatuses, status ≠ ""

/-- The producers of a line, as the loop has them. -/
def withEmoji (row : QueueGroup) (ps : List InboundProducer) :
    List (Option InboundProducer × String) :=
  ps.map fun p => (some p, producerEmoji row p)

/-- The state after a producer. -/
def LineState.after (p : InboundProducer) (s : LineState) : LineState :=
  ⟨some p.source, s.drainStatuses.tail⟩

/-- What a producer's line shows of it. -/
def written (row : QueueGroup) (producerVerbose : Bool) (s : LineState) (p : InboundProducer) :
    ProducerCells :=
  if s.previousProducer = some p.source then .blank else row.cellsOf producerVerbose p

theorem producerLines_cons {port : PortCells} {s : LineState} {p : InboundProducer}
    {ps : List InboundProducer} (hsource : p.source ≠ "") :
    producerLines producerVerbose port s (withEmoji row (p :: ps))
      = (producerLine (s.drainStatuses.head?.getD "") port (written row producerVerbose s p)
            :: (producerLines producerVerbose .blank (s.after p) (withEmoji row ps)).1,
          (producerLines producerVerbose .blank (s.after p) (withEmoji row ps)).2) := by
  have hcells : (cellsOf (some p) (producerEmoji row p) producerVerbose).source = p.source := rfl
  by_cases hrepeated : s.previousProducer = some p.source
  · simp [withEmoji, producerLines, hcells, hsource, hrepeated, LineState.after, written]
  · simp [withEmoji, producerLines, hcells, hsource, hrepeated, LineState.after, written]
    rfl

/-- The producer of a line is read as it is. -/
theorem Recalls.read {s : LineState} {lastProducer : ProducerCells}
    (h : Recalls row producerVerbose s lastProducer) (hrow : row.Legible)
    {group : InboundAsyncPortGroup} (hgroup : group ∈ row.inboundPorts) {p : InboundProducer}
    (hp : p ∈ group.producers) (rows : List TableRow) (lastType : String) (status : String)
    (port : PortCells) :
    Reading.producer ⟨rows, lastType, lastProducer⟩
        (producerLine status port (written row producerVerbose s p))
      = row.cellsOf producerVerbose p := by
  have hsource := hrow.sources group hgroup p hp
  by_cases hrepeated : s.previousProducer = some p.source
  · obtain ⟨group', hgroup', p', hp', hname, rfl⟩ := h.producer _ hrepeated
    rw [written, if_pos hrepeated, hrow.agree group hgroup group' hgroup' p hp p' hp' hname.symm]
    simp [Reading.producer, producerLine, ProducerCells.blank]
  · rw [written, if_neg hrepeated]
    have hne : (row.cellsOf producerVerbose p).source ≠ "" := hsource
    simp [Reading.producer, producerLine, hne]

theorem Recalls.after {s : LineState} {lastProducer : ProducerCells}
    (h : Recalls row producerVerbose s lastProducer) {group : InboundAsyncPortGroup}
    (hgroup : group ∈ row.inboundPorts) {p : InboundProducer} (hp : p ∈ group.producers) :
    Recalls row producerVerbose (s.after p) (row.cellsOf producerVerbose p) where
  producer _ hsource := ⟨group, hgroup, p, hp, Option.some.inj hsource, rfl⟩
  statuses status hstatus := h.statuses status (List.mem_of_mem_tail hstatus)

/-- A line adds the status that is next. -/
theorem statusOf_producerLine {s : LineState} (h : ∀ status ∈ s.drainStatuses, status ≠ "")
    (port : PortCells) (producer : ProducerCells) :
    statusOf (producerLine (s.drainStatuses.head?.getD "") port producer)
      = s.drainStatuses.take 1 := by
  cases hs : s.drainStatuses with
  | nil => simp [statusOf, producerLine]
  | cons status rest =>
    have hne : status ≠ "" := h status (by simp [hs])
    simp [statusOf, producerLine, hne]

/-- The producers of a port after its first. -/
theorem read_rest (hrow : row.Legible) {group : InboundAsyncPortGroup}
    (hgroup : group ∈ row.inboundPorts) : ∀ (ps : List InboundProducer) {s : LineState}
    {lastProducer : ProducerCells}, Recalls row producerVerbose s lastProducer →
    (∀ p ∈ ps, p ∈ group.producers) → (∀ p ∈ ps, s.previousProducer ≠ some p.source) →
    (ps.map InboundProducer.source).Nodup →
    ∀ (rows : List TableRow) (dest : List String) (groups : List TableGroup) (g : TableGroup)
      (statuses : List String) (lastType : String),
    ∃ lastProducer',
      Recalls row producerVerbose
          (producerLines producerVerbose .blank s (withEmoji row ps)).2 lastProducer'
        ∧ (producerLines producerVerbose .blank s (withEmoji row ps)).2.drainStatuses
          = s.drainStatuses.drop ps.length
        ∧ (producerLines producerVerbose .blank s (withEmoji row ps)).1.foldl (readLine columns)
            ⟨rows ++ [⟨dest, groups ++ [g], statuses⟩], lastType, lastProducer⟩
          = ⟨rows ++ [⟨dest, groups ++ [{ g with
              producers := g.producers ++ ps.map (row.cellsOf producerVerbose) }],
                statuses ++ s.drainStatuses.take ps.length⟩], lastType, lastProducer'⟩
  | [], s, lastProducer, h, _, _, _, rows, dest, groups, g, statuses, lastType =>
      ⟨lastProducer, h, rfl, by simp [withEmoji, producerLines]⟩
  | p :: ps, s, lastProducer, h, hmem, hfresh, hnodup, rows, dest, groups, g, statuses, lastType => by
      obtain ⟨hp, hps⟩ := List.forall_mem_cons.mp hmem
      obtain ⟨hpfresh, _⟩ := List.forall_mem_cons.mp hfresh
      rw [List.map_cons, List.nodup_cons] at hnodup
      have hsource := hrow.sources group hgroup p hp
      have hwritten : written row producerVerbose s p = row.cellsOf producerVerbose p :=
        if_neg hpfresh
      have hread := h.read hrow hgroup hp (rows ++ [⟨dest, groups ++ [g], statuses⟩]) lastType
        (s.drainStatuses.head?.getD "") .blank
      have hline : readLine columns ⟨rows ++ [⟨dest, groups ++ [g], statuses⟩], lastType, lastProducer⟩
            (producerLine (s.drainStatuses.head?.getD "") .blank (written row producerVerbose s p))
          = ⟨rows ++ [⟨dest, groups ++ [{ g with
              producers := g.producers ++ [row.cellsOf producerVerbose p] }],
                statuses ++ s.drainStatuses.take 1⟩], lastType, row.cellsOf producerVerbose p⟩ := by
        have hne : (row.cellsOf producerVerbose p).source ≠ "" := hsource
        have hproducer : producerLine (s.drainStatuses.head?.getD "") .blank
            (written row producerVerbose s p) .asyncProducer ≠ "" := by
          rw [hwritten]
          exact hne
        unfold readLine
        rw [if_neg (by simp [producerLine]), if_neg (by simp [producerLine, PortCells.blank]),
          if_pos hproducer, hread, statusOf_producerLine h.statuses, List.modifyLast_concat,
          List.modifyLast_concat]
      obtain ⟨last, hrecalls, hdrop, hfold⟩ := read_rest hrow hgroup ps (h.after hgroup hp) hps
        (fun p' hp' heq => hnodup.1 (List.mem_map.mpr ⟨p', hp', (Option.some.inj heq).symm⟩))
        hnodup.2 rows dest groups { g with producers := g.producers ++ [row.cellsOf producerVerbose p] }
        (statuses ++ s.drainStatuses.take 1) lastType
      rw [producerLines_cons hsource]
      refine ⟨last, hrecalls, ?_, ?_⟩
      · rw [hdrop, LineState.after, List.length_cons, ← List.drop_one, List.drop_drop]
        congr 1
        omega
      · rw [List.foldl_cons, hline, hfold]
        have htake : s.drainStatuses.take 1 ++ (s.after p).drainStatuses.take ps.length
            = s.drainStatuses.take (ps.length + 1) := by
          cases hs : s.drainStatuses with
          | nil => simp [LineState.after, hs]
          | cons status rest => simp [LineState.after, hs]
        simp only [List.append_assoc, htake, List.length_cons, List.map_cons, List.cons_append,
          List.nil_append]

/-- What is read of a port. -/
def QueueGroup.tableGroup (row : QueueGroup) (producerVerbose : Bool)
    (e : InboundAsyncPortGroup × List InboundProducer) : TableGroup where
  portType := e.1.dataType
  destinationPort := e.1.destinationPort
  overflowBehavior := e.1.overflowBehavior.str
  producers := e.2.map (row.cellsOf producerVerbose)

/-- The lines of a port. -/
theorem read_group (hrow : row.Legible) {group : InboundAsyncPortGroup}
    (hgroup : group ∈ row.inboundPorts) {ps : List InboundProducer} (hps : ps ≠ [])
    (hsub : ps.Sublist group.producers) {s : LineState} {lastProducer : ProducerCells}
    (h : Recalls row producerVerbose s lastProducer) (rows : List TableRow) (dest : List String)
    (groups : List TableGroup) (statuses : List String) {previousType : Option String}
    {lastType : String} (htype : ∀ t, previousType = some t → lastType = t) :
    ∃ lastProducer',
      Recalls row producerVerbose
          (producerLines producerVerbose (portCells (some group) previousType) s
            (withEmoji row ps)).2 lastProducer'
        ∧ (producerLines producerVerbose (portCells (some group) previousType) s
            (withEmoji row ps)).2.drainStatuses = s.drainStatuses.drop ps.length
        ∧ (producerLines producerVerbose (portCells (some group) previousType) s
            (withEmoji row ps)).1.foldl (readLine columns)
            ⟨rows ++ [⟨dest, groups, statuses⟩], lastType, lastProducer⟩
          = ⟨rows ++ [⟨dest, groups ++ [row.tableGroup producerVerbose (group, ps)],
                statuses ++ s.drainStatuses.take ps.length⟩], group.dataType, lastProducer'⟩ := by
  obtain ⟨hport, hdata, _⟩ := hrow.ports group hgroup
  have hnodup : (ps.map InboundProducer.source).Nodup :=
    (hrow.apart group hgroup).sublist (hsub.map _)
  cases ps with
  | nil => exact absurd rfl hps
  | cons p ps =>
    obtain ⟨hp, hrest⟩ := List.forall_mem_cons.mp fun p hp => hsub.subset hp
    rw [List.map_cons, List.nodup_cons] at hnodup
    have hread := h.read hrow hgroup hp (rows ++ [⟨dest, groups, statuses⟩]) lastType
      (s.drainStatuses.head?.getD "") (portCells (some group) previousType)
    have hline : readLine columns ⟨rows ++ [⟨dest, groups, statuses⟩], lastType, lastProducer⟩
          (producerLine (s.drainStatuses.head?.getD "") (portCells (some group) previousType)
            (written row producerVerbose s p))
        = ⟨rows ++ [⟨dest, groups ++ [row.tableGroup producerVerbose (group, [p])],
              statuses ++ s.drainStatuses.take 1⟩], group.dataType,
            row.cellsOf producerVerbose p⟩ := by
      have hportType : (if producerLine (s.drainStatuses.head?.getD "")
              (portCells (some group) previousType) (written row producerVerbose s p) .portType = ""
            then lastType
            else producerLine (s.drainStatuses.head?.getD "") (portCells (some group) previousType)
              (written row producerVerbose s p) .portType) = group.dataType := by
        by_cases hprevious : previousType = some group.dataType
        · simp [producerLine, portCells, hprevious, htype _ hprevious]
        · simp [producerLine, portCells, hprevious, hdata]
      unfold readLine
      rw [if_neg (by simp [producerLine]), if_pos (by simpa [producerLine, portCells] using hport),
        hread, statusOf_producerLine h.statuses, hportType]
      dsimp only
      rw [List.modifyLast_concat]
      rfl
    obtain ⟨last, hrecalls, hdrop, hfold⟩ := read_rest hrow hgroup ps (h.after hgroup hp) hrest
      (fun p' hp' heq => hnodup.1 (List.mem_map.mpr ⟨p', hp', (Option.some.inj heq).symm⟩))
      hnodup.2 rows dest groups (row.tableGroup producerVerbose (group, [p]))
      (statuses ++ s.drainStatuses.take 1) group.dataType
    rw [producerLines_cons (hrow.sources group hgroup p hp)]
    refine ⟨last, hrecalls, ?_, ?_⟩
    · rw [hdrop, LineState.after, List.length_cons, ← List.drop_one, List.drop_drop]
      congr 1
      omega
    · rw [List.foldl_cons, hline, hfold, List.append_assoc]
      cases hs : s.drainStatuses with
      | nil => simp [LineState.after, hs, QueueGroup.tableGroup]
      | cons status rest => simp [LineState.after, hs, QueueGroup.tableGroup]

/-- The ports of a row with the producers to be seen. -/
def QueueGroup.visible (row : QueueGroup) (hideGreenRows : Bool) :
    List (InboundAsyncPortGroup × List InboundProducer) :=
  ((row.inboundPorts.insertionSort (groupLe (typeMax row))).map fun group =>
      (group, group.producers.filter fun p =>
        ¬ (hideGreenRows ∧ producerEmoji row p = "🟢"))).filter fun e => e.2 ≠ []

theorem groupLines_cons (previousType : Option String) (s : LineState)
    (group : InboundAsyncPortGroup) (producers : List (Option InboundProducer × String))
    (rest : List (Option InboundAsyncPortGroup × List (Option InboundProducer × String))) :
    groupLines producerVerbose previousType s ((some group, producers) :: rest)
      = ((producerLines producerVerbose (portCells (some group) previousType) s producers).1
            ++ (groupLines producerVerbose (some group.dataType)
              (producerLines producerVerbose (portCells (some group) previousType) s producers).2
              rest).1,
          (groupLines producerVerbose (some group.dataType)
            (producerLines producerVerbose (portCells (some group) previousType) s producers).2
            rest).2) := rfl

/-- All lines of a row's ports. -/
theorem read_groups (hrow : row.Legible) :
    ∀ (es : List (InboundAsyncPortGroup × List InboundProducer)) {s : LineState}
      {lastProducer : ProducerCells}, Recalls row producerVerbose s lastProducer →
    (∀ e ∈ es, e.1 ∈ row.inboundPorts ∧ e.2 ≠ [] ∧ e.2.Sublist e.1.producers) →
    ∀ (rows : List TableRow) (dest : List String) (groups : List TableGroup)
      (statuses : List String) {previousType : Option String} {lastType : String},
      (∀ t, previousType = some t → lastType = t) →
    ∃ last : String × ProducerCells,
      (∀ status ∈ (groupLines producerVerbose previousType s
          (es.map fun e => (some e.1, withEmoji row e.2))).2.drainStatuses, status ≠ "")
        ∧ (groupLines producerVerbose previousType s
            (es.map fun e => (some e.1, withEmoji row e.2))).1.foldl (readLine columns)
            ⟨rows ++ [⟨dest, groups, statuses⟩], lastType, lastProducer⟩
          = ⟨rows ++ [⟨dest, groups ++ es.map (row.tableGroup producerVerbose),
                statuses ++ s.drainStatuses.take (es.map fun e => e.2.length).sum⟩],
              last.1, last.2⟩
        ∧ (groupLines producerVerbose previousType s
            (es.map fun e => (some e.1, withEmoji row e.2))).2.drainStatuses
          = s.drainStatuses.drop (es.map fun e => e.2.length).sum
  | [], s, lastProducer, h, _, rows, dest, groups, statuses, previousType, lastType, _ =>
      ⟨(lastType, lastProducer), h.statuses, by simp [groupLines], rfl⟩
  | (group, ps) :: es, s, lastProducer, h, hes, rows, dest, groups, statuses, previousType,
      lastType, htype => by
      obtain ⟨⟨hgroup, hne, hsub⟩, hrest⟩ := List.forall_mem_cons.mp hes
      obtain ⟨last, hrecalls, hdrop, hfold⟩ :=
        @read_group _ _ columns hrow _ hgroup _ hne hsub _ _ h rows dest groups statuses _ _ htype
      have hnext : ∀ t, some group.dataType = some t → group.dataType = t :=
        fun t ht => Option.some.inj ht
      obtain ⟨last', hstatuses, hfold', hdrop'⟩ := read_groups hrow es hrecalls hrest rows dest
        (groups ++ [row.tableGroup producerVerbose (group, ps)])
        (statuses ++ s.drainStatuses.take ps.length) hnext
      rw [List.map_cons, List.map_cons, List.map_cons, List.sum_cons, groupLines_cons]
      refine ⟨last', hstatuses, ?_, ?_⟩
      · rw [List.foldl_append, hfold, hfold', hdrop, List.append_assoc, List.append_assoc,
          List.take_add]
        rfl
      · rw [hdrop', hdrop, List.drop_drop]

/-- The statuses of a row: how many of its producers have each emoji. -/
def QueueGroup.statuses (row : QueueGroup) : List String :=
  statusOrder.filterMap fun emoji =>
    let count := (row.inboundPorts.flatMap InboundAsyncPortGroup.producers).countP fun p =>
      producerEmoji row p = emoji
    if 0 < count then some (emoji ++ " " ++ toString count) else none

theorem emojiCounts_eq {emoji : String} (hne : emoji ≠ "") :
    ((emojiCounts row).get? emoji).getD 0
      = (row.inboundPorts.flatMap InboundAsyncPortGroup.producers).countP fun p =>
          producerEmoji row p = emoji := by
  have hfold : ∀ (ps : List InboundProducer) (counts : Dict String Nat),
      ((ps.foldl (fun counts p =>
          if producerEmoji row p = "" then counts
          else
            counts.set (producerEmoji row p) ((counts.get? (producerEmoji row p)).getD 0 + 1))
        counts).get? emoji).getD 0
        = (counts.get? emoji).getD 0 + ps.countP fun p => producerEmoji row p = emoji := by
    intro ps
    induction ps with
    | nil => simp
    | cons p ps ih =>
      intro counts
      rw [List.foldl_cons, ih, List.countP_cons]
      by_cases hsame : producerEmoji row p = emoji
      · simp [hsame, hne]
        omega
      · by_cases hnone : producerEmoji row p = ""
        · simp [hnone, Ne.symm hne]
        · simp [hsame, hnone, Ne.symm hsame]
  have h := hfold (row.inboundPorts.flatMap InboundAsyncPortGroup.producers) ∅
  rw [Dict.get?_empty, Option.getD_none, Nat.zero_add] at h
  exact h

theorem summarize_eq : summarizeComponentPriorityStatus row = row.statuses := by
  refine List.filterMap_congr fun emoji hemoji => ?_
  have hne : emoji ≠ "" := by
    rintro rfl
    simp [statusOrder] at hemoji
  simp only [emojiCounts_eq hne]

theorem ne_empty_of_mem_statuses {status : String} (h : status ∈ row.statuses) : status ≠ "" := by
  obtain ⟨emoji, _, hsome⟩ := List.mem_filterMap.mp h
  dsimp only at hsome
  split at hsome
  · rw [← Option.some.inj hsome]
    intro hempty
    have := congrArg String.toList hempty
    simp at this
  · cases hsome

/-- The lines of the statuses that are left. -/
theorem read_statuses : ∀ (left : List String), (∀ status ∈ left, status ≠ "") →
    ∀ (rows : List TableRow) (dest : List String) (groups : List TableGroup)
      (statuses : List String) (lastType : String) (lastProducer : ProducerCells),
    (left.map fun status => producerLine status .blank .blank).foldl (readLine columns)
        ⟨rows ++ [⟨dest, groups, statuses⟩], lastType, lastProducer⟩
      = ⟨rows ++ [⟨dest, groups, statuses ++ left⟩], lastType, lastProducer⟩
  | [], _, rows, dest, groups, statuses, lastType, lastProducer => by simp
  | status :: left, h, rows, dest, groups, statuses, lastType, lastProducer => by
      obtain ⟨hne, hrest⟩ := List.forall_mem_cons.mp h
      have hline : readLine columns ⟨rows ++ [⟨dest, groups, statuses⟩], lastType, lastProducer⟩
            (producerLine status .blank .blank)
          = ⟨rows ++ [⟨dest, groups, statuses ++ [status]⟩], lastType, lastProducer⟩ := by
        simp [readLine, producerLine, statusOf, hne, PortCells.blank, ProducerCells.blank,
          List.modifyLast_concat]
      rw [List.map_cons, List.foldl_cons, hline, read_statuses left hrest, List.append_assoc,
        List.singleton_append]

/-- What is read of a row. -/
def tableRow (opts : RenderOptions) (row : QueueGroup) : TableRow where
  destination := ((Column.shown opts.includeRates).filter (· ∈ Column.destScope)).map
    (destinationCells row)
  groups := (row.visible opts.hideGreenRows).map (row.tableGroup opts.producerVerbose)
  statuses := row.statuses

theorem mem_visible {hideGreenRows : Bool} {e : InboundAsyncPortGroup × List InboundProducer}
    (h : e ∈ row.visible hideGreenRows) :
    e.1 ∈ row.inboundPorts ∧ e.2 ≠ [] ∧ e.2.Sublist e.1.producers := by
  obtain ⟨hmem, hne⟩ := List.mem_filter.mp h
  obtain ⟨group, hgroup, rfl⟩ := List.mem_map.mp hmem
  exact ⟨(List.mem_insertionSort _).mp hgroup, by simpa using hne, List.filter_sublist⟩

theorem visibleGroups_eq (hrow : row.Legible) (hideGreenRows : Bool) :
    visibleGroups row hideGreenRows
      = (row.visible hideGreenRows).map fun e => (some e.1, withEmoji row e.2) := by
  have hsorted : sortedGroups row
      = (row.inboundPorts.insertionSort (groupLe (typeMax row))).map some := by
    have hne : row.inboundPorts.insertionSort (groupLe (typeMax row)) ≠ [] := by
      intro hnil
      have hlen := List.length_insertionSort (groupLe (typeMax row)) row.inboundPorts
      rw [hnil] at hlen
      exact hrow.fed (List.length_eq_zero_iff.mp hlen.symm)
    exact if_neg hne
  have hproducers : ∀ group ∈ row.inboundPorts.insertionSort (groupLe (typeMax row)),
      visibleProducers row (some group) hideGreenRows
        = withEmoji row (group.producers.filter fun p =>
            ¬ (hideGreenRows ∧ producerEmoji row p = "🟢")) := by
    intro group hgroup
    have hne := (hrow.ports group ((List.mem_insertionSort _).mp hgroup)).2.2
    simp only [visibleProducers, Option.map_some, Option.getD_some, hne, if_false, withEmoji,
      List.filter_map]
    rfl
  have hmap : (sortedGroups row).map (fun group => (group, visibleProducers row group hideGreenRows))
      = ((row.inboundPorts.insertionSort (groupLe (typeMax row))).map fun group =>
          (group, group.producers.filter fun p =>
            ¬ (hideGreenRows ∧ producerEmoji row p = "🟢"))).map
          fun e => (some e.1, withEmoji row e.2) := by
    rw [hsorted, List.map_map, List.map_map]
    exact List.map_congr_left fun group hgroup => by simp [hproducers group hgroup]
  rw [visibleGroups, hmap, List.filter_map, QueueGroup.visible]
  congr 1
  refine List.filter_congr fun e _ => ?_
  simp [withEmoji]

/-- **A row is read back.** -/
theorem read_row (opts : RenderOptions) (hrow : row.Legible) (s : Reading) :
    ∃ last : String × ProducerCells,
      (rowLines opts row).foldl (readLine (Column.shown opts.includeRates)) s
        = ⟨s.rows ++ [tableRow opts row], last.1, last.2⟩ := by
  have hdest : readLine (Column.shown opts.includeRates) s (destinationCells row)
      = ⟨s.rows ++ [⟨(tableRow opts row).destination, [], []⟩], "", .blank⟩ :=
    if_pos hrow.destination
  have hrecalls : Recalls row opts.producerVerbose ⟨none, row.statuses⟩ .blank :=
    ⟨fun _ h => absurd h (by simp), fun _ h => ne_empty_of_mem_statuses h⟩
  have hnone : ∀ t : String, none = some t → "" = t := fun _ h => by cases h
  obtain ⟨last, hstatuses, hfold, hleft⟩ := @read_groups row opts.producerVerbose
    (Column.shown opts.includeRates) hrow (row.visible opts.hideGreenRows) _ _ hrecalls
    (fun e he => mem_visible he) s.rows (tableRow opts row).destination [] [] _ _ hnone
  have hlines : rowLines opts row = destinationCells row
      :: (groupLines opts.producerVerbose none ⟨none, row.statuses⟩
          ((row.visible opts.hideGreenRows).map fun e => (some e.1, withEmoji row e.2))).1
      ++ (groupLines opts.producerVerbose none ⟨none, row.statuses⟩
          ((row.visible opts.hideGreenRows).map fun e =>
            (some e.1, withEmoji row e.2))).2.drainStatuses.map
          fun status => producerLine status .blank .blank := by
    rw [rowLines, visibleGroups_eq hrow, summarize_eq]
  refine ⟨last, ?_⟩
  rw [hlines, List.foldl_append, List.foldl_cons, hdest, hfold, read_statuses _ hstatuses, hleft]
  simp only [List.nil_append, List.take_append_drop]
  rfl

end Rows

/-! ## The text -/

section Texts

variable {row : QueueGroup} {opts : RenderOptions}

/-- The names in a row have no bar and no line break, and the queue and its
ports have one. -/
structure QueueGroup.Plain (row : QueueGroup) (producerVerbose : Bool) : Prop where
  named : row.destination ≠ ""
  destination : IsPlain row.destination
  destinationType : IsPlain row.destinationType
  drainSource : ∀ source ∈ row.drainDrainSource, IsPlain source
  groups : ∀ group ∈ row.inboundPorts, group.destinationPort ≠ "" ∧ IsPlain group.destinationPort
    ∧ IsPlain group.dataType
  producers : ∀ group ∈ row.inboundPorts, ∀ p ∈ group.producers, IsPlain p.source
    ∧ (∀ source ∈ p.drainSource, IsPlain source)
    ∧ IsPlain (formatEmitContextForDisplay p.emitContext producerVerbose)

theorem isPlain_getD {s : Option String} (h : ∀ source ∈ s, IsPlain source) :
    IsPlain (s.getD "") := by
  cases s with
  | none => exact isPlain_empty
  | some s => exact h s rfl

theorem isPlain_number (n : Option Int) : IsPlain ((n.map toString).getD "unknown") := by
  cases n with
  | none => decide
  | some n => exact isPlain_int n

theorem isPlain_frequencyCell (hz : Option ℚ) : IsPlain (frequencyCell hz) := by
  cases hz with
  | none => decide
  | some hz => exact .of_numeric (NumberText.isNumeric_generalText hz)

theorem isPlain_fillTimeCell (seconds : Option (WithTop ℚ)) : IsPlain (fillTimeCell seconds) := by
  cases seconds with
  | none => decide
  | some seconds =>
    cases seconds with
    | top => decide
    | coe q => exact .of_numeric (NumberText.isNumeric_fixedText 3 q)

theorem isPlain_kind (kind : ThreadKind) : IsPlain kind.str := by
  cases kind <;> decide

theorem isPlain_destinationCells {v : Bool} (h : row.Plain v) (c : Column) :
    IsPlain (destinationCells row c) := by
  cases c with
  | destinationQueue => exact h.destination
  | destinationComponentType => exact h.destinationType
  | queueSize => exact isPlain_number row.queueSize
  | drainThreadKind => exact isPlain_kind row.drainThreadKind
  | drainThreadPriority => exact isPlain_number row.drainThreadPriority
  | drainSchedSource => exact isPlain_getD h.drainSource
  | totalProdHz => exact isPlain_frequencyCell row.totalProductionHz
  | consHz => exact isPlain_frequencyCell row.consumerRateHz
  | fillTime => exact isPlain_fillTimeCell row.queueFillTimeS
  | _ => exact isPlain_empty

theorem isPlain_producerEmoji (p : InboundProducer) : IsPlain (producerEmoji row p) := by
  have hrelation : ∀ kind source sink, IsPlain (priorityRelation kind source sink).2 := by
    intro kind source sink
    unfold priorityRelation
    cases source with
    | none => exact isPlain_empty
    | some source =>
      cases sink with
      | none => exact isPlain_empty
      | some sink =>
        dsimp only
        by_cases hmore : source > sink
        · rw [if_pos hmore]
          cases kind <;> decide
        · rw [if_neg hmore]
          split <;> decide
  unfold producerEmoji classifyPriorityRelation
  by_cases hpassive : p.threadKind = .passive
  · rw [if_pos hpassive]
    split <;> decide
  · rw [if_neg hpassive]
    dsimp only
    split
    · decide
    · exact hrelation _ _ _

/-- The cells of a producer are plain. -/
structure ProducerCells.Plain (cells : ProducerCells) : Prop where
  source : IsPlain cells.source
  threadKind : IsPlain cells.threadKind
  threadPriority : IsPlain cells.threadPriority
  schedSource : IsPlain cells.schedSource

theorem plain_blank : ProducerCells.blank.Plain := ⟨by decide, by decide, by decide, by decide⟩

theorem isPlain_producerContext {v : Bool} {p : InboundProducer}
    (h : IsPlain (formatEmitContextForDisplay p.emitContext v)) :
    IsPlain (producerContext p v) := by
  have hcontext : ∀ (P Q : Prop) [Decidable P] [Decidable Q] (s : String), IsPlain s →
      IsPlain (if Q then "source unknown" else if P then s else "") := by
    intro P Q _ _ s hs
    split
    · decide
    · split
      · exact hs
      · exact isPlain_empty
  exact hcontext _ _ _ h

theorem isPlain_rstrip {s : String} (h : IsPlain s) : IsPlain (Text.rstrip s) := by
  refine h.of_subset fun c hc => ?_
  rw [Text.rstrip, String.toList_ofList, Text.rstripChars, List.mem_reverse] at hc
  exact List.mem_reverse.mp ((List.dropWhile_sublist _).subset hc)

theorem isPlain_ljust {s : String} (n : Nat) (h : IsPlain s) : IsPlain (Text.ljust n s) := by
  refine h.append ?_
  constructor <;> simp [List.mem_replicate]

theorem plain_cellsOf {v : Bool} (h : row.Plain v) {group : InboundAsyncPortGroup}
    (hgroup : group ∈ row.inboundPorts) {p : InboundProducer} (hp : p ∈ group.producers) :
    (row.cellsOf v p).Plain := by
  obtain ⟨hsource, hdrain, hcontext⟩ := h.producers group hgroup p hp
  have hprefix : IsPlain (priorityPrefix p) := by
    unfold priorityPrefix
    split
    · exact (isPlain_int _).append (by decide)
    · split <;> decide
  refine ⟨hsource, ?_, ?_, isPlain_getD hdrain⟩
  · simp only [QueueGroup.cellsOf, producerCells]
    split
    · exact (((isPlain_kind _).append (by decide)).append (isPlain_producerContext hcontext)).append
        (by decide)
    · exact isPlain_kind _
  · simp only [QueueGroup.cellsOf, producerCells]
    split
    · exact isPlain_rstrip (((isPlain_ljust 6 hprefix).append (by decide)).append
        (isPlain_producerEmoji p))
    · exact isPlain_producerEmoji p

/-- A line of a producer or a status. -/
inductive PlainLine : Cells → Prop
  | mk {status : String} {port : PortCells} {producer : ProducerCells} : IsPlain status →
      IsPlain port.portType → IsPlain port.destinationPort → IsPlain port.overflowBehavior →
      producer.Plain → PlainLine (producerLine status port producer)

theorem PlainLine.isPlain {cells : Cells} (h : PlainLine cells) (c : Column) :
    IsPlain (cells c) := by
  cases h with
  | mk hstatus htype hport hpolicy hproducer =>
    cases c with
    | drainThreadPriority => exact hstatus
    | portType => exact htype
    | destinationPort => exact hport
    | overflowBehavior => exact hpolicy
    | asyncProducer => exact hproducer.source
    | producerThreadKind => exact hproducer.threadKind
    | producerThreadPriority => exact hproducer.threadPriority
    | producerSchedSource => exact hproducer.schedSource
    | _ => exact isPlain_empty

theorem PlainLine.queueSize {cells : Cells} (h : PlainLine cells) : cells .queueSize = "" := by
  cases h
  rfl

theorem plain_producerLines {v : Bool} (h : row.Plain v) {group : InboundAsyncPortGroup}
    (hgroup : group ∈ row.inboundPorts) (hrow : row.Legible) :
    ∀ (ps : List InboundProducer) (port : PortCells) (s : LineState),
      (∀ p ∈ ps, p ∈ group.producers) → IsPlain port.portType → IsPlain port.destinationPort →
      IsPlain port.overflowBehavior → (∀ status ∈ s.drainStatuses, IsPlain status) →
      (∀ cells ∈ (producerLines v port s (withEmoji row ps)).1, PlainLine cells)
        ∧ ∀ status ∈ (producerLines v port s (withEmoji row ps)).2.drainStatuses, IsPlain status
  | [], port, s, _, _, _, _, hs => ⟨by simp [withEmoji, producerLines], hs⟩
  | p :: ps, port, s, hps, htype, hport, hpolicy, hs => by
      obtain ⟨hp, hrest⟩ := List.forall_mem_cons.mp hps
      have hwritten : (written row v s p).Plain := by
        unfold written
        split
        · exact plain_blank
        · exact plain_cellsOf h hgroup hp
      have hhead : IsPlain (s.drainStatuses.head?.getD "") :=
        isPlain_getD fun status hstatus => hs status (List.mem_of_head? hstatus)
      obtain ⟨hlines, hleft⟩ := plain_producerLines h hgroup hrow ps .blank (s.after p) hrest
        isPlain_empty isPlain_empty isPlain_empty
        fun status hstatus => hs status (List.mem_of_mem_tail hstatus)
      rw [producerLines_cons (hrow.sources group hgroup p hp)]
      exact ⟨List.forall_mem_cons.mpr ⟨.mk hhead htype hport hpolicy hwritten, hlines⟩, hleft⟩

theorem plain_groupLines {v : Bool} (h : row.Plain v) (hrow : row.Legible) :
    ∀ (es : List (InboundAsyncPortGroup × List InboundProducer)) (previousType : Option String)
      (s : LineState), (∀ e ∈ es, e.1 ∈ row.inboundPorts ∧ e.2.Sublist e.1.producers) →
      (∀ status ∈ s.drainStatuses, IsPlain status) →
      (∀ cells ∈ (groupLines v previousType s
          (es.map fun e => (some e.1, withEmoji row e.2))).1, PlainLine cells)
        ∧ ∀ status ∈ (groupLines v previousType s
            (es.map fun e => (some e.1, withEmoji row e.2))).2.drainStatuses, IsPlain status
  | [], previousType, s, _, hs => ⟨by simp [groupLines], hs⟩
  | (group, ps) :: es, previousType, s, hes, hs => by
      obtain ⟨⟨hgroup, hsub⟩, hrest⟩ := List.forall_mem_cons.mp hes
      obtain ⟨_, hport, htype⟩ := h.groups group hgroup
      have hportType : IsPlain (portCells (some group) previousType).portType := by
        simp only [portCells]
        split
        · exact isPlain_empty
        · exact htype
      have hpolicy : IsPlain (portCells (some group) previousType).overflowBehavior := by
        show IsPlain group.overflowBehavior.str
        cases group.overflowBehavior <;> decide
      obtain ⟨hlines, hleft⟩ := plain_producerLines h hgroup hrow ps
        (portCells (some group) previousType) s (fun p hp => hsub.subset hp) hportType hport hpolicy hs
      obtain ⟨hlines', hleft'⟩ := plain_groupLines h hrow es (some group.dataType) _ hrest hleft
      rw [List.map_cons, groupLines_cons]
      refine ⟨fun cells hcells => ?_, hleft'⟩
      rcases List.mem_append.mp hcells with hcells | hcells
      · exact hlines cells hcells
      · exact hlines' cells hcells

theorem isPlain_status {status : String} (h : status ∈ row.statuses) : IsPlain status := by
  obtain ⟨emoji, hemoji, hsome⟩ := List.mem_filterMap.mp h
  have hplain : ∀ emoji ∈ statusOrder, IsPlain emoji := by decide
  dsimp only at hsome
  split at hsome
  · rw [← Option.some.inj hsome]
    exact ((hplain emoji hemoji).append (by decide)).append (isPlain_nat _)
  · cases hsome

/-- The lines of a row are plain, and none of them is the header. -/
theorem plain_rowLines (h : row.Plain opts.producerVerbose) (hrow : row.Legible) :
    ∀ cells ∈ rowLines opts row, (∀ c, IsPlain (cells c)) ∧ cells .queueSize ≠ "Queue Size" := by
  have hline : ∀ cells, PlainLine cells →
      (∀ c, IsPlain (cells c)) ∧ cells .queueSize ≠ "Queue Size" :=
    fun cells hcells => ⟨hcells.isPlain, by rw [hcells.queueSize]; decide⟩
  obtain ⟨hlines, hleft⟩ := plain_groupLines h hrow (row.visible opts.hideGreenRows) none
    ⟨none, row.statuses⟩ (fun e he => ⟨(mem_visible he).1, (mem_visible he).2.2⟩)
    fun status hstatus => isPlain_status hstatus
  have hsize : destinationCells row .queueSize ≠ "Queue Size" := by
    show (row.queueSize.map toString).getD "unknown" ≠ "Queue Size"
    cases row.queueSize with
    | none => decide
    | some n =>
      intro heq
      have hq : 'Q' ∈ (toString n).toList := by
        rw [show toString n = "Queue Size" from heq]
        decide
      rcases Text.mem_repr hq with hd | hd <;> cases hd
  intro cells hcells
  rw [rowLines, visibleGroups_eq hrow, summarize_eq] at hcells
  rcases List.mem_append.mp hcells with hcells | hcells
  · rcases List.mem_cons.mp hcells with rfl | hcells
    · exact ⟨isPlain_destinationCells h, hsize⟩
    · exact hline cells (hlines cells hcells)
  · obtain ⟨status, hstatus, rfl⟩ := List.mem_map.mp hcells
    exact hline _ (.mk (hleft status hstatus) isPlain_empty isPlain_empty isPlain_empty plain_blank)

/-- A line of cells is told from the header by the size of the queue. -/
theorem isCellLine_cellLine {cells : Cells} (hplain : ∀ c, IsPlain (cells c))
    (hsize : cells .queueSize ≠ "Queue Size") : isCellLine opts (cellLine opts cells) = true := by
  have hstart : Text.startsWith (cellLine opts cells) "| " = true := by
    simp [Text.startsWith, cellLine, Table.row]
  have htitles : ∀ c, '|' ∉ (Column.title c).toList := by
    intro c
    cases c <;> decide
  have hne : cellLine opts cells ≠ headerLine opts := by
    intro heq
    have hread := congrArg (fun line => lineCells (Column.shown opts.includeRates) line .queueSize) heq
    simp only [cellLine, headerLine, lineCells_row (shown_ne_nil _) fun c => (hplain c).1,
      lineCells_row (shown_ne_nil _) htitles, shownCells,
      mem_shown (c := .queueSize) (by decide), if_true] at hread
    exact hsize hread
  simp [isCellLine, hstart, hne]

theorem isCellLine_header : isCellLine opts (headerLine opts) = false := by
  simp [isCellLine]

theorem isCellLine_rule : isCellLine opts (ruleLine opts) = false := by
  have hpos := List.length_pos_iff.mpr (shown_ne_nil opts.includeRates)
  obtain ⟨n, hn⟩ := Nat.exists_eq_succ_of_ne_zero (Nat.ne_of_gt hpos)
  have hstart : Text.startsWith (ruleLine opts) "| " = false := by
    simp [Text.startsWith, ruleLine, hn, List.replicate_succ, List.isPrefixOf]
  simp [isCellLine, hstart]

/-- A spacer is read as an empty line. -/
theorem isCellLine_spacer :
    isCellLine opts (Table.spacer (Column.shown opts.includeRates).length) = true
      ∧ lineCells (Column.shown opts.includeRates)
          (Table.spacer (Column.shown opts.includeRates).length) = fun _ => "" := by
  have hpos := List.length_pos_iff.mpr (shown_ne_nil opts.includeRates)
  obtain ⟨n, hn⟩ := Nat.exists_eq_succ_of_ne_zero (Nat.ne_of_gt hpos)
  have hread : lineCells (Column.shown opts.includeRates)
      (Table.spacer (Column.shown opts.includeRates).length) = fun _ => "" := by
    funext c
    rw [lineCells, Table.cells_spacer, List.getD_eq_getElem?_getD, List.getElem?_replicate]
    split <;> rfl
  have hstart : Text.startsWith (Table.spacer (Column.shown opts.includeRates).length) "| " = true := by
    simp [Text.startsWith, Table.spacer, hn, List.replicate_succ]
  have htitles : ∀ c, '|' ∉ (Column.title c).toList := by
    intro c
    cases c <;> decide
  have hne : Table.spacer (Column.shown opts.includeRates).length ≠ headerLine opts := by
    intro heq
    have hcell := congrArg (fun line => lineCells (Column.shown opts.includeRates) line .queueSize) heq
    simp only [hread, headerLine, lineCells_row (shown_ne_nil _) htitles, shownCells,
      mem_shown (c := .queueSize) (by decide), if_true] at hcell
    exact absurd hcell (by decide)
  exact ⟨by simp [isCellLine, hstart, hne], hread⟩

/-- A line of the table is read. -/
def readText (opts : RenderOptions) (s : Reading) (line : String) : Reading :=
  readLine (Column.shown opts.includeRates) s (lineCells (Column.shown opts.includeRates) line)

theorem readText_cellLine {cells : Cells} (hplain : ∀ c, IsPlain (cells c)) (s : Reading) :
    readText opts s (cellLine opts cells)
      = readLine (Column.shown opts.includeRates) s cells := by
  rw [readText, cellLine, lineCells_row (shown_ne_nil _) fun c => (hplain c).1,
    readLine_shownCells]

/-- The lines of a row, as texts. -/
theorem readText_row (h : row.Plain opts.producerVerbose) (hrow : row.Legible) (s : Reading) :
    ∃ last : String × ProducerCells,
      (((rowLines opts row).map (cellLine opts)).filter (isCellLine opts)).foldl (readText opts) s
        = ⟨s.rows ++ [tableRow opts row], last.1, last.2⟩ := by
  have hlines := plain_rowLines h hrow
  have hall : ((rowLines opts row).map (cellLine opts)).filter (isCellLine opts)
      = (rowLines opts row).map (cellLine opts) := by
    refine List.filter_eq_self.mpr fun line hline => ?_
    obtain ⟨cells, hcells, rfl⟩ := List.mem_map.mp hline
    exact isCellLine_cellLine (hlines cells hcells).1 (hlines cells hcells).2
  have hfold : ∀ (all : List Cells), (∀ cells ∈ all, ∀ c, IsPlain (cells c)) → ∀ s : Reading,
      (all.map (cellLine opts)).foldl (readText opts) s
        = all.foldl (readLine (Column.shown opts.includeRates)) s := by
    intro all
    induction all with
    | nil => exact fun _ _ => rfl
    | cons cells all ih =>
      intro hplain s
      obtain ⟨hcells, hrest⟩ := List.forall_mem_cons.mp hplain
      rw [List.map_cons, List.foldl_cons, List.foldl_cons, readText_cellLine hcells, ih hrest]
  rw [hall, hfold _ fun cells hcells => (hlines cells hcells).1]
  exact read_row opts hrow s

/-- The rows to be seen. -/
def visibleRows (opts : RenderOptions) (rows : List QueueGroup) : List QueueGroup :=
  rows.filter fun row => row.visible opts.hideGreenRows ≠ []

/-- **The lines of all rows.** -/
theorem read_body : ∀ (rows : List QueueGroup), (∀ row ∈ rows, row.Legible) →
    (∀ row ∈ rows, row.Plain opts.producerVerbose) →
    ∀ (rendered : Bool) (s : Reading),
      (rendered = true → ∃ above row, s.rows = above ++ [row]) →
      (((bodyLines opts rendered rows).filter (isCellLine opts)).foldl (readText opts) s).rows
        = s.rows ++ (visibleRows opts rows).map (tableRow opts)
  | [], _, _, _, s, _ => by simp [bodyLines, visibleRows]
  | row :: rows, hlegible, hplain, rendered, s, habove => by
      obtain ⟨hrow, hlegible⟩ := List.forall_mem_cons.mp hlegible
      obtain ⟨hrowPlain, hplain⟩ := List.forall_mem_cons.mp hplain
      have hempty : visibleGroups row opts.hideGreenRows = []
          ↔ row.visible opts.hideGreenRows = [] := by
        rw [visibleGroups_eq hrow, List.map_eq_nil_iff]
      rw [bodyLines]
      by_cases hnone : row.visible opts.hideGreenRows = []
      · rw [if_pos (hempty.mpr hnone), read_body rows hlegible hplain rendered s habove]
        simp [visibleRows, hnone]
      · rw [if_neg (mt hempty.mp hnone)]
        -- what stands between two rows says nothing
        have hbetween : (((if opts.splitDestinationTables then
              (if rendered then [""] else []) ++ [headerLine opts, ruleLine opts]
            else if rendered then [Table.spacer (Column.shown opts.includeRates).length]
            else []).filter (isCellLine opts)).foldl (readText opts) s) = s := by
          by_cases hsplit : opts.splitDestinationTables = true
          · have hblank : isCellLine opts "" = false := by simp [isCellLine, Text.startsWith]
            cases rendered <;> simp [hsplit, hblank, isCellLine_header, isCellLine_rule]
          · cases rendered with
            | false => simp [hsplit]
            | true =>
              obtain ⟨above, last, hrows⟩ := habove rfl
              have hspacer := @isCellLine_spacer opts
              simp [hsplit, hspacer.1, readText, hspacer.2, readLine_empty _ s above last hrows]
        obtain ⟨last, hread⟩ := readText_row hrowPlain hrow s
        rw [List.filter_append, List.filter_append, List.foldl_append, List.foldl_append, hbetween,
          hread, read_body rows hlegible hplain true _ fun _ => ⟨s.rows, tableRow opts row, rfl⟩]
        simp [visibleRows, hnone]

/-- No line of the report breaks. -/
theorem notMem_lines (hnames : ∀ e ∈ opts.rateGroups.entries, IsPlain e.1)
    {rows : List QueueGroup} (hlegible : ∀ row ∈ rows, row.Legible)
    (hplain : ∀ row ∈ rows, row.Plain opts.producerVerbose) :
    ∀ line ∈ introLines opts ++ bodyLines opts false rows, '\n' ∉ line.toList := by
  have htitles : ∀ s ∈ (Column.shown opts.includeRates).map Column.title, '\n' ∉ s.toList := by
    intro s hs
    obtain ⟨c, _, rfl⟩ := List.mem_map.mp hs
    cases c <;> decide
  have hheader : '\n' ∉ (headerLine opts).toList :=
    Table.notMem_row (by decide) (by decide) htitles
  have hrule : '\n' ∉ (ruleLine opts).toList := by simp [ruleLine, List.mem_replicate]
  have hspacer : ∀ n, '\n' ∉ (Table.spacer n).toList :=
    Table.notMem_spacer (by decide) (by decide)
  have hintro : ∀ line ∈ ["# Async Queue Group Analysis", "", "Priority relation:", "",
      "- 🔴 active producer outranks the drain thread",
      "- 🟠 caller-thread priority is unresolved",
      "- 🟡 queued producer outranks the drain thread",
      "- 🟢 producer priority is below the drain thread", ""], '\n' ∉ line.toList := by decide
  have hrates : '\n' ∉ (rateGroupsLine opts.rateGroups).toList := by
    have hjoined : '\n' ∉ (", ".intercalate (opts.rateGroups.sortedEntries.map fun e =>
        e.1 ++ "=" ++ NumberText.generalText e.2 ++ " Hz")).toList := by
      refine Table.notMem_intercalate (by decide) fun s hs => ?_
      obtain ⟨e, he, rfl⟩ := List.mem_map.mp hs
      have hname := hnames e ((List.mem_insertionSort _).mp he)
      have hnumber : IsPlain (NumberText.generalText e.2) :=
        .of_numeric (NumberText.isNumeric_generalText e.2)
      exact (((hname.append (by decide)).append hnumber).append (by decide)).2
    rw [rateGroupsLine, String.toList_append, List.mem_append, not_or]
    exact ⟨by decide, hjoined⟩
  have hbody : ∀ (rows : List QueueGroup), (∀ row ∈ rows, row.Legible) →
      (∀ row ∈ rows, row.Plain opts.producerVerbose) → ∀ rendered,
      ∀ line ∈ bodyLines opts rendered rows, '\n' ∉ line.toList := by
    intro rows
    induction rows with
    | nil => simp [bodyLines]
    | cons row rows ih =>
      intro hlegible hplain rendered line hline
      obtain ⟨hrow, hlegible⟩ := List.forall_mem_cons.mp hlegible
      obtain ⟨hrowPlain, hplain⟩ := List.forall_mem_cons.mp hplain
      rw [bodyLines] at hline
      split at hline
      · exact ih hlegible hplain rendered line hline
      · rcases List.mem_append.mp hline with hline | hline
        · rcases List.mem_append.mp hline with hline | hline
          · split at hline
            · rcases List.mem_append.mp hline with hline | hline
              · split at hline
                · rw [List.mem_singleton.mp hline]
                  decide
                · cases hline
              · rcases List.mem_pair.mp hline with rfl | rfl
                · exact hheader
                · exact hrule
            · split at hline
              · rw [List.mem_singleton.mp hline]
                exact hspacer _
              · cases hline
          · obtain ⟨cells, hcells, rfl⟩ := List.mem_map.mp hline
            refine Table.notMem_row (by decide) (by decide) fun s hs => ?_
            obtain ⟨c, _, rfl⟩ := List.mem_map.mp hs
            exact ((plain_rowLines hrowPlain hrow cells hcells).1 c).2
        · exact ih hlegible hplain true line hline
  intro line hline
  rcases List.mem_append.mp hline with hline | hline
  · simp only [introLines, List.mem_append] at hline
    rcases hline with (hline | hline) | hline
    · exact hintro line hline
    · split at hline
      · cases hline
      · rcases List.mem_pair.mp hline with rfl | rfl
        · exact hrates
        · decide
    · split at hline
      · cases hline
      · rcases List.mem_pair.mp hline with rfl | rfl
        · exact hheader
        · exact hrule
  · exact hbody rows hlegible hplain false line hline

/-- **The table is read back.** -/
theorem readTable_renderMarkdown (hnames : ∀ e ∈ opts.rateGroups.entries, IsPlain e.1)
    {rows : List QueueGroup} (hlegible : ∀ row ∈ rows, row.Legible)
    (hplain : ∀ row ∈ rows, row.Plain opts.producerVerbose) :
    readTable opts (renderMarkdown opts rows)
      = (visibleRows opts rows).map (tableRow opts) := by
  have hne : introLines opts ++ bodyLines opts false rows ≠ [] := by simp [introLines]
  have hsplit : Table.splitLines (renderMarkdown opts rows)
      = introLines opts ++ bodyLines opts false rows ++ [""] := by
    rw [renderMarkdown, Table.join_end hne]
    refine Table.splitLines_join (fun line hline => ?_) (by simp)
    rcases List.mem_append.mp hline with hline | hline
    · exact notMem_lines hnames hlegible hplain line hline
    · rw [List.mem_singleton.mp hline]
      decide
  have hblank : isCellLine opts "" = false := by simp [isCellLine, Text.startsWith]
  have hintro : (introLines opts).filter (isCellLine opts) = [] := by
    have hrates : isCellLine opts (rateGroupsLine opts.rateGroups) = false := by
      simp [isCellLine, Text.startsWith, rateGroupsLine]
    have hfirst : ∀ line ∈ ["# Async Queue Group Analysis", "", "Priority relation:", "",
        "- 🔴 active producer outranks the drain thread",
        "- 🟠 caller-thread priority is unresolved",
        "- 🟡 queued producer outranks the drain thread",
        "- 🟢 producer priority is below the drain thread", ""],
        Text.startsWith line "| " = false := by decide
    refine List.filter_eq_nil_iff.mpr fun line hline => ?_
    simp only [introLines, List.mem_append] at hline
    rcases hline with (hline | hline) | hline
    · simp [isCellLine, hfirst line hline]
    · split at hline
      · cases hline
      · rcases List.mem_pair.mp hline with rfl | rfl
        · simp [hrates]
        · simp [hblank]
    · split at hline
      · cases hline
      · rcases List.mem_pair.mp hline with rfl | rfl
        · simp [isCellLine_header]
        · simp [isCellLine_rule]
  have hread := read_body rows hlegible hplain false .start (fun h => by cases h)
  rw [readTable, hsplit, List.filter_append, List.filter_append, hintro, List.nil_append]
  simp only [List.filter_cons, hblank, List.filter_nil, Bool.false_eq_true, if_false,
    List.append_nil]
  exact hread

end Texts

end FprimeTopologyAnalysis
