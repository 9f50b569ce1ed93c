/-
FprimeTopologyAnalysis.GuardedEmitters — sync handlers re-declared guarded.

A guarded handler runs on its caller's thread as a sync one does, and the
report is documented to treat it so. The classification does not: the label
of a sync handler has a marker in it and that of a guarded handler has none.
Re-declaring the sync emitters of a port guarded leaves the severity alone
only where something else raises it, another emitter's marker or a source
that outranks the sink (`guarded_severity_iff`).
-/
import FprimeTopologyAnalysis.EmitContext

namespace FprimeTopologyAnalysis

open Library

/-! ## Re-declaring handlers -/

/-- `guarded` in place of `sync`. -/
def guardedFor (kinds : Finset SyncKind) : Finset SyncKind :=
  kinds.image fun kind => if kind = .sync then .guarded else kind

theorem mem_guardedFor {kinds : Finset SyncKind} {kind : SyncKind} :
    kind ∈ guardedFor kinds ↔ (kind ≠ .sync ∧ kind ∈ kinds) ∨ (kind = .guarded ∧ .sync ∈ kinds) := by
  rw [guardedFor, Finset.mem_image]
  constructor
  · rintro ⟨k, hk, rfl⟩
    by_cases hsync : k = .sync
    · exact .inr ⟨if_pos hsync, hsync ▸ hk⟩
    · rw [if_neg hsync]
      exact .inl ⟨hsync, hk⟩
  · rintro (⟨hne, hk⟩ | ⟨rfl, hk⟩)
    · exact ⟨kind, hk, if_neg hne⟩
    · exact ⟨.sync, hk, if_pos rfl⟩

/-- A handler that is re-declared is told by the same kind, unless it was
sync and nothing else. -/
theorem labelKind_guardedFor {kinds : Finset SyncKind} (h : .async ∈ kinds ∨ .guarded ∈ kinds) :
    labelKind (guardedFor kinds) = labelKind kinds := by
  by_cases hasync : SyncKind.async ∈ kinds
  · simp [labelKind, mem_guardedFor, hasync]
  · have hguarded := h.resolve_left hasync
    simp [labelKind, mem_guardedFor, hasync, hguarded]

theorem labelKind_eq_async {kinds : Finset SyncKind} :
    labelKind kinds = some .async ↔ .async ∈ kinds := by
  unfold labelKind
  by_cases hasync : SyncKind.async ∈ kinds
  · simp [hasync]
  · simp only [hasync, if_false, iff_false]
    split
    · simp
    · split <;> simp

namespace InstanceInfo

/-- The instance dispatches the handler `entry` under `kind`. -/
def EnteredAs (info : InstanceInfo) (entry : String) (kind : SyncKind) : Prop :=
  ∃ port, kind ∈ info.kindsOf port ∧ entry ∈ info.flowEntries port kind

/-- `info'` is `info` with the handlers in `redeclared` declared guarded
wherever they were sync. -/
structure Redeclares (info info' : InstanceInfo) (redeclared : Finset String) : Prop where
  componentName : info'.componentName = info.componentName
  outputPorts : info'.outputPorts = info.outputPorts
  kinds : ∀ entry ∈ info.emitOrder, info'.handlerKinds entry
    = if entry ∈ redeclared then guardedFor (info.handlerKinds entry) else info.handlerKinds entry
  entered : ∀ entry kind, info'.EnteredAs entry kind ↔
    if entry ∈ redeclared then
      (kind ≠ .sync ∧ info.EnteredAs entry kind) ∨ (kind = .guarded ∧ info.EnteredAs entry .sync)
    else info.EnteredAs entry kind

theorem mem_emitOrder {info : InstanceInfo} {entry : String} :
    entry ∈ info.emitOrder ↔ ∃ kind, info.EnteredAs entry kind := by
  simp only [emitOrder, Dict.sortedEntries, EnteredAs, List.mem_flatMap, List.mem_insertionSort,
    SyncKind.mem_sorted, mem_kindsOf_iff]
  constructor
  · rintro ⟨⟨port, kinds⟩, hport, kind, hkind, hentry⟩
    exact ⟨kind, port, ⟨kinds, hport, hkind⟩, hentry⟩
  · rintro ⟨kind, port, ⟨kinds, hport, hkind⟩, hentry⟩
    exact ⟨(port, kinds), hport, kind, hkind, hentry⟩

variable {info info' : InstanceInfo} {redeclared : Finset String}

theorem Redeclares.mem_emitOrder (h : info.Redeclares info' redeclared) (entry : String) :
    entry ∈ info'.emitOrder ↔ entry ∈ info.emitOrder := by
  rw [InstanceInfo.mem_emitOrder, InstanceInfo.mem_emitOrder]
  simp only [h.entered]
  split
  · constructor
    · rintro ⟨kind, ⟨_, hentered⟩ | ⟨_, hentered⟩⟩
      · exact ⟨kind, hentered⟩
      · exact ⟨.sync, hentered⟩
    · rintro ⟨kind, hentered⟩
      by_cases hsync : kind = .sync
      · exact ⟨.guarded, .inr ⟨rfl, hsync ▸ hentered⟩⟩
      · exact ⟨kind, .inl ⟨hsync, hentered⟩⟩
  · rfl

theorem Redeclares.async_iff (h : info.Redeclares info' redeclared) {entry : String}
    (hentry : entry ∈ info.emitOrder) :
    .async ∈ info'.handlerKinds entry ↔ .async ∈ info.handlerKinds entry := by
  rw [h.kinds entry hentry]
  split
  · simp [mem_guardedFor]
  · rfl

/-- Where every re-declared handler had another kind already, no label
changes. -/
theorem Redeclares.handlerLabel (h : info.Redeclares info' redeclared)
    (hmixed : ∀ entry ∈ redeclared,
      .async ∈ info.handlerKinds entry ∨ .guarded ∈ info.handlerKinds entry)
    {entry : String} (hentry : entry ∈ info.emitOrder) :
    info'.handlerLabel entry = info.handlerLabel entry := by
  rw [handlerLabel_eq, handlerLabel_eq, h.kinds entry hentry]
  split
  · rename_i hmem
    rw [labelKind_guardedFor (hmixed entry hmem)]
  · rfl

end InstanceInfo

/-! ## Severity after re-declaring -/

namespace TopologyGraph

variable {g : TopologyGraph}

/-- The graph with another instance under a name. -/
def withInstance (g : TopologyGraph) (name : String) (info : InstanceInfo) : TopologyGraph :=
  { g with instances := g.instances.set name info }

/-- A context has a marker when nothing of the instance emits on the port,
or when not all emitters are async and some label has one. -/
theorem hasContext_iff {name : String} {outPort : PortName} {info : InstanceInfo} {context : String}
    (hget : g.instances.get? name = some info)
    (hcontext : g.emitContextForPort name outPort = .ok context) :
    hasSyncOrUnknownContext context = true ↔ (∀ entry, ¬ g.Emits info outPort entry)
      ∨ (¬ (∀ entry, g.Emits info outPort entry → .async ∈ info.handlerKinds entry)
        ∧ ∃ entry, g.Emits info outPort entry
          ∧ hasSyncOrUnknownContext (info.handlerLabel entry) = true) := by
  obtain ⟨labels, rfl, hlabels⟩ := (emitContext_spec hget).2 context hcontext
  rw [hasContext_contextOf]
  have hnil : labels = [] ↔ ∀ entry, ¬ g.Emits info outPort entry := by
    rw [List.eq_nil_iff_forall_not_mem]
    constructor
    · exact fun h entry hemits => h _ ((hlabels _).mpr ⟨entry, hemits, rfl⟩)
    · intro h label hlabel
      obtain ⟨entry, hemits, _⟩ := (hlabels label).mp hlabel
      exact h entry hemits
  have hasync : (∀ label ∈ labels, IsAsyncLabel label)
      ↔ ∀ entry, g.Emits info outPort entry → .async ∈ info.handlerKinds entry := by
    have hlabel : ∀ entry, IsAsyncLabel (info.handlerLabel entry)
        ↔ .async ∈ info.handlerKinds entry := by
      intro entry
      rw [info.handlerLabel_eq, isAsyncLabel_iff, labelKind_eq_async]
    constructor
    · exact fun h entry hemits => (hlabel entry).mp (h _ ((hlabels _).mpr ⟨entry, hemits, rfl⟩))
    · intro h label hmem
      obtain ⟨entry, hemits, rfl⟩ := (hlabels label).mp hmem
      exact (hlabel entry).mpr (h entry hemits)
  have hmarked : (∃ label ∈ labels, hasSyncOrUnknownContext label = true)
      ↔ ∃ entry, g.Emits info outPort entry
        ∧ hasSyncOrUnknownContext (info.handlerLabel entry) = true := by
    constructor
    · rintro ⟨label, hmem, hcontext⟩
      obtain ⟨entry, hemits, rfl⟩ := (hlabels label).mp hmem
      exact ⟨entry, hemits, hcontext⟩
    · rintro ⟨entry, hemits, hcontext⟩
      exact ⟨_, (hlabels _).mpr ⟨entry, hemits, rfl⟩, hcontext⟩
  rw [hnil, hasync, hmarked]

/-- The label of a handler has a marker unless the handler is guarded and
not async. -/
theorem hasContext_handlerLabel_iff {info : InstanceInfo} {entry : String}
    (hname : IsIdentifier ((commandOf entry).getD entry)) :
    hasSyncOrUnknownContext (info.handlerLabel entry) = true
      ↔ labelKind (info.handlerKinds entry) ≠ some .guarded := by
  rw [info.handlerLabel_eq]
  constructor
  · intro hcontext hguarded
    rw [hguarded, hasContext_guarded _ hname] at hcontext
    cases hcontext
  · exact fun hguarded => hasContext_label _ hguarded _

theorem emits_withInstance {name : String} {info info' : InstanceInfo} {redeclared : Finset String}
    (h : info.Redeclares info' redeclared) (outPort : PortName) (entry : String) :
    (g.withInstance name info').Emits info' outPort entry ↔ g.Emits info outPort entry := by
  have houts : (g.withInstance name info').outputsFor info' entry = g.outputsFor info entry := by
    simp [outputsFor, withInstance, h.componentName, h.outputPorts]
  rw [Emits, Emits, houts, h.mem_emitOrder]

/-- The re-declared graph has a context for the port where the graph has. -/
theorem emitContext_withInstance {name : String} {outPort : PortName} {info info' : InstanceInfo}
    {redeclared : Finset String} {context : String} (hget : g.instances.get? name = some info)
    (h : info.Redeclares info' redeclared)
    (hcontext : g.emitContextForPort name outPort = .ok context) :
    ∃ context', (g.withInstance name info').emitContextForPort name outPort = .ok context' := by
  have hget' : (g.withInstance name info').instances.get? name = some info' :=
    Dict.get?_set_self _ _ _
  have hok := (emitContext_spec hget).1.mp ⟨context, hcontext⟩
  refine (emitContext_spec hget').1.mpr fun entry hentry => ?_
  obtain ⟨outputs, houts⟩ := hok entry ((h.mem_emitOrder entry).mp hentry)
  refine ⟨outputs, ?_⟩
  simpa [outputsFor, withInstance, h.componentName, h.outputPorts] using houts

/-- It has a marker when nothing emits on the port, or when not all emitters
were async and some label still has one. -/
theorem hasContext_withInstance {name : String} {outPort : PortName} {info info' : InstanceInfo}
    {redeclared : Finset String} {context' : String} (h : info.Redeclares info' redeclared)
    (hcontext' : (g.withInstance name info').emitContextForPort name outPort = .ok context') :
    hasSyncOrUnknownContext context' = true ↔ (∀ entry, ¬ g.Emits info outPort entry)
      ∨ (¬ (∀ entry, g.Emits info outPort entry → .async ∈ info.handlerKinds entry)
        ∧ ∃ entry, g.Emits info outPort entry
          ∧ hasSyncOrUnknownContext (info'.handlerLabel entry) = true) := by
  have hget' : (g.withInstance name info').instances.get? name = some info' :=
    Dict.get?_set_self _ _ _
  have hasync : (∀ entry, g.Emits info outPort entry → .async ∈ info'.handlerKinds entry)
      ↔ ∀ entry, g.Emits info outPort entry → .async ∈ info.handlerKinds entry :=
    forall₂_congr fun entry hemits => h.async_iff hemits.1
  have hafter := hasContext_iff hget' hcontext'
  simpa only [emits_withInstance h, hasync] using hafter

/-- A handler that is sync and nothing else has a marker. -/
theorem hasContext_of_sync_only {info : InstanceInfo} {entry : String}
    (hasync : .async ∉ info.handlerKinds entry) (hguarded : .guarded ∉ info.handlerKinds entry) :
    hasSyncOrUnknownContext (info.handlerLabel entry) = true := by
  rw [info.handlerLabel_eq]
  refine hasContext_label _ ?_ _
  simp only [labelKind, hasync, hguarded, if_false]
  split <;> simp

/-- **When re-declaring leaves the severity alone**: the source outranks the
sink, or every re-declared handler was told by another kind already, or some
emitter's label still has a marker. -/
theorem guarded_severity_iff {name : String} {outPort : PortName} {info info' : InstanceInfo}
    {redeclared : Finset String} {context : String}
    (hget : g.instances.get? name = some info)
    (hsync : ∀ entry ∈ redeclared, .sync ∈ info.handlerKinds entry ∧ g.Emits info outPort entry)
    (hredeclares : info.Redeclares info' redeclared)
    (hcontext : g.emitContextForPort name outPort = .ok context) :
    ∃ context', (g.withInstance name info').emitContextForPort name outPort = .ok context'
      ∧ ∀ sourceKind sourcePriority sinkPriority,
        (classifyPriorityRelation sourceKind sourcePriority sinkPriority context).1
            = (classifyPriorityRelation sourceKind sourcePriority sinkPriority context').1
          ↔ Outranks sourceKind sourcePriority sinkPriority
            ∨ (∀ entry ∈ redeclared,
              .async ∈ info.handlerKinds entry ∨ .guarded ∈ info.handlerKinds entry)
            ∨ ∃ entry, g.Emits info outPort entry
              ∧ hasSyncOrUnknownContext (info'.handlerLabel entry) = true := by
  obtain ⟨context', hcontext'⟩ := emitContext_withInstance hget hredeclares hcontext
  refine ⟨context', hcontext', fun sourceKind sourcePriority sinkPriority => ?_⟩
  rw [severity_eq_iff]
  refine or_congr_right ?_
  have hbefore := hasContext_iff hget hcontext
  have hafter := hasContext_withInstance hredeclares hcontext'
  by_cases hmixed : ∀ entry ∈ redeclared,
      .async ∈ info.handlerKinds entry ∨ .guarded ∈ info.handlerKinds entry
  · have hlabels : (∃ entry, g.Emits info outPort entry
          ∧ hasSyncOrUnknownContext (info'.handlerLabel entry) = true)
        ↔ ∃ entry, g.Emits info outPort entry
          ∧ hasSyncOrUnknownContext (info.handlerLabel entry) = true :=
      exists_congr fun entry => and_congr_right fun hemits => by
        rw [hredeclares.handlerLabel hmixed hemits.1]
    rw [hbefore, hafter, hlabels]
    exact iff_of_true Iff.rfl (.inl hmixed)
  · -- a handler that was sync and nothing else had a marker and was not async
    obtain ⟨entry, hentry, hpure⟩ : ∃ entry ∈ redeclared,
        .async ∉ info.handlerKinds entry ∧ .guarded ∉ info.handlerKinds entry := by
      simpa only [not_forall, not_or, exists_prop] using hmixed
    obtain ⟨_, hemits⟩ := hsync entry hentry
    have hsome : ¬ ∀ entry, ¬ g.Emits info outPort entry := fun h => h entry hemits
    have hnotAsync : ¬ ∀ entry, g.Emits info outPort entry → .async ∈ info.handlerKinds entry :=
      fun h => hpure.1 (h entry hemits)
    have hhas : hasSyncOrUnknownContext context = true :=
      hbefore.mpr (.inr ⟨hnotAsync, entry, hemits, hasContext_of_sync_only hpure.1 hpure.2⟩)
    simp only [hhas, true_iff, hafter, hsome, hnotAsync, hmixed, false_or, not_false_eq_true,
      true_and]

end TopologyGraph

/-! ## Re-declaring in the instance table -/

namespace InstanceInfo

/-- The instance with some handlers re-declared. A port keeps the other
kinds it has, and the command port is dispatched under the kinds of its
commands. -/
def redeclare (info : InstanceInfo) (redeclared : Finset String) : InstanceInfo :=
  let commandKinds := info.commandKinds.mapEntries fun mnemonic kinds =>
    if "cmd:" ++ mnemonic ∈ redeclared then guardedFor kinds else kinds
  { info with
    commandKinds := commandKinds
    inputPorts := info.inputPorts.mapEntries fun port kinds =>
      if info.cmdPort = some port then kinds ∪ commandKinds.values.foldr (· ∪ ·) ∅
      else if port.str ∈ redeclared then guardedFor kinds else kinds }

/-- The command port is dispatched under every kind that a command has. -/
def CommandsDispatched (info : InstanceInfo) : Prop :=
  ∀ port, info.cmdPort = some port → ∀ mnemonic kinds,
    info.commandKinds.get? mnemonic = some kinds → kinds ⊆ info.kindsOf port

theorem commandOf_cmd (mnemonic : String) : commandOf ("cmd:" ++ mnemonic) = some mnemonic := by
  have hhead : Text.startsWith ("cmd:" ++ mnemonic) "cmd:" = true := by
    rw [Text.startsWith_append _ _ _ le_rfl]
    decide +kernel
  have hdrop : Text.dropChars ("cmd:" ++ mnemonic) "cmd:".length = mnemonic := by
    rw [Text.dropChars, String.toList_append, ← String.length_toList, List.drop_left,
      String.ofList_toList]
  rw [commandOf, if_pos hhead, hdrop]

theorem commandOf_port (port : PortName) : commandOf port.str = none := by
  unfold commandOf
  rw [if_neg]
  intro hhead
  have hpre := List.isPrefixOf_iff_prefix.mp hhead
  have hcolon : ':' ∈ port.str.toList := hpre.subset (by decide +kernel)
  exact port.property.notMem (by decide) hcolon

theorem kindsNamed_port (info : InstanceInfo) (port : PortName) :
    info.kindsNamed port.str = info.kindsOf port := by
  have hsame : (fun e : PortName × Finset SyncKind => decide (e.1.str = port.str))
      = fun e => decide (e.1 = port) := by
    funext e
    simp [PortName.str_injective.eq_iff]
  rw [kindsNamed, kindsOf, Dict.get?, hsame]

/-- A handler is that of a port, or that of a command. -/
theorem enteredAs_iff {info : InstanceInfo} {entry : String} {kind : SyncKind} :
    info.EnteredAs entry kind
      ↔ (∃ port, info.cmdPort ≠ some port ∧ entry = port.str ∧ kind ∈ info.kindsOf port)
        ∨ ∃ port mnemonic kinds, info.cmdPort = some port ∧ entry = "cmd:" ++ mnemonic
          ∧ kind ∈ info.kindsOf port ∧ info.commandKinds.get? mnemonic = some kinds
          ∧ kind ∈ kinds := by
  unfold EnteredAs flowEntries
  constructor
  · rintro ⟨port, hkind, hentry⟩
    split at hentry
    · rename_i hport
      exact .inl ⟨port, hport, List.mem_singleton.mp hentry, hkind⟩
    · rename_i hport
      obtain ⟨mnemonic, hmem, rfl⟩ := List.mem_map.mp hentry
      obtain ⟨⟨_, kinds⟩, he, rfl⟩ := List.mem_map.mp ((List.mem_insertionSort _).mp hmem)
      obtain ⟨hentries, hk⟩ := List.mem_filter.mp he
      exact .inr ⟨port, _, kinds, not_not.mp hport, rfl, hkind,
        (info.commandKinds.get?_eq_some_iff _ _).mpr hentries, of_decide_eq_true hk⟩
  · rintro (⟨port, hport, rfl, hkind⟩ | ⟨port, mnemonic, kinds, hport, rfl, hkind, hget, hk⟩)
    · refine ⟨port, hkind, ?_⟩
      rw [if_pos hport]
      exact List.mem_singleton_self _
    · refine ⟨port, hkind, ?_⟩
      rw [if_neg (not_not.mpr hport)]
      refine List.mem_map.mpr ⟨mnemonic, (List.mem_insertionSort _).mpr (List.mem_map.mpr
        ⟨(mnemonic, kinds), List.mem_filter.mpr ⟨?_, decide_eq_true hk⟩, rfl⟩), rfl⟩
      exact (info.commandKinds.get?_eq_some_iff _ _).mp hget

theorem port_ne_command (port : PortName) (mnemonic : String) : port.str ≠ "cmd:" ++ mnemonic := by
  intro h
  have hcommand := commandOf_cmd mnemonic
  rw [← h, commandOf_port] at hcommand
  cases hcommand

theorem enteredAs_port {info : InstanceInfo} {port : PortName} {kind : SyncKind} :
    info.EnteredAs port.str kind ↔ info.cmdPort ≠ some port ∧ kind ∈ info.kindsOf port := by
  rw [enteredAs_iff]
  constructor
  · rintro (⟨port', hport, heq, hkind⟩ | ⟨_, mnemonic, _, _, heq, _⟩)
    · obtain rfl := PortName.str_injective heq
      exact ⟨hport, hkind⟩
    · exact absurd heq (port_ne_command port mnemonic)
  · exact fun ⟨hport, hkind⟩ => .inl ⟨port, hport, rfl, hkind⟩

theorem enteredAs_command {info : InstanceInfo} (hd : info.CommandsDispatched) {mnemonic : String}
    {kind : SyncKind} :
    info.EnteredAs ("cmd:" ++ mnemonic) kind ↔ info.cmdPort.isSome
      ∧ ∃ kinds, info.commandKinds.get? mnemonic = some kinds ∧ kind ∈ kinds := by
  rw [enteredAs_iff]
  constructor
  · rintro (⟨port, _, heq, _⟩ | ⟨port, mnemonic', kinds, hport, heq, _, hget, hk⟩)
    · exact absurd heq.symm (port_ne_command port mnemonic)
    · have hsame : mnemonic = mnemonic' :=
        Option.some.inj ((commandOf_cmd mnemonic).symm.trans (heq ▸ commandOf_cmd mnemonic'))
      subst hsame
      exact ⟨by simp [hport], kinds, hget, hk⟩
  · rintro ⟨hport, kinds, hget, hk⟩
    obtain ⟨port, hport⟩ := Option.isSome_iff_exists.mp hport
    exact .inr ⟨port, mnemonic, kinds, hport, rfl, hd port hport mnemonic kinds hget hk, hget, hk⟩

variable (info : InstanceInfo) (redeclared : Finset String)

theorem get?_redeclare (mnemonic : String) :
    (info.redeclare redeclared).commandKinds.get? mnemonic
      = (info.commandKinds.get? mnemonic).map fun kinds =>
        if "cmd:" ++ mnemonic ∈ redeclared then guardedFor kinds else kinds :=
  Dict.get?_mapEntries ..

theorem kindsOf_redeclare {port : PortName} (h : info.cmdPort ≠ some port) :
    (info.redeclare redeclared).kindsOf port
      = if port.str ∈ redeclared then guardedFor (info.kindsOf port) else info.kindsOf port := by
  rw [kindsOf, kindsOf, redeclare, Dict.get?_mapEntries]
  cases info.inputPorts.get? port with
  | none => simp [guardedFor]
  | some kinds => simp [h]

/-- The command port still dispatches what it did, and what its commands
now need. -/
theorem subset_kindsOf_redeclare {port : PortName} (h : info.cmdPort = some port)
    (hd : info.CommandsDispatched) {mnemonic : String} {kinds : Finset SyncKind}
    (hget : (info.redeclare redeclared).commandKinds.get? mnemonic = some kinds) :
    kinds ⊆ (info.redeclare redeclared).kindsOf port := by
  have hunion : ∀ (all : List (Finset SyncKind)), kinds ∈ all → kinds ⊆ all.foldr (· ∪ ·) ∅ := by
    intro all hmem
    induction all with
    | nil => simp at hmem
    | cons first rest ih =>
      rcases List.mem_cons.mp hmem with rfl | hrest
      · exact Finset.subset_union_left
      · exact (ih hrest).trans Finset.subset_union_right
  have hvalues : kinds ∈ (info.redeclare redeclared).commandKinds.values :=
    List.mem_map.mpr ⟨(mnemonic, kinds), (Dict.get?_eq_some_iff _ _ _).mp hget, rfl⟩
  cases hport : info.inputPorts.get? port with
  | some old =>
    have hkinds : (info.redeclare redeclared).kindsOf port
        = old ∪ (info.redeclare redeclared).commandKinds.values.foldr (· ∪ ·) ∅ := by
      simp [kindsOf, redeclare, Dict.get?_mapEntries, hport, h]
    rw [hkinds]
    exact (hunion _ hvalues).trans Finset.subset_union_right
  | none =>
    -- a port that is not dispatched at all has no commands with a kind
    rw [get?_redeclare] at hget
    obtain ⟨before, hbefore, rfl⟩ := Option.map_eq_some_iff.mp hget
    have hempty : before = ∅ := by
      have hsub := hd port h mnemonic before hbefore
      simpa [kindsOf, hport] using hsub
    simp [hempty, guardedFor]

/-- **Re-declaring in the table re-declares the handlers.** -/
theorem redeclares_redeclare (hd : info.CommandsDispatched) :
    info.Redeclares (info.redeclare redeclared) redeclared where
  componentName := rfl
  outputPorts := rfl
  kinds entry hentry := by
    obtain ⟨kind, hentered⟩ := mem_emitOrder.mp hentry
    rcases enteredAs_iff.mp hentered with
      ⟨port, hport, rfl, _⟩ | ⟨_, mnemonic, kinds, _, rfl, _, hget, _⟩
    · simp only [handlerKinds, commandOf_port, kindsNamed_port]
      exact info.kindsOf_redeclare redeclared hport
    · simp only [handlerKinds, commandOf_cmd, get?_redeclare, hget, Option.map_some,
        Option.getD_some]
  entered entry kind := by
    have hcmd : (info.redeclare redeclared).cmdPort = info.cmdPort := rfl
    have hd' : (info.redeclare redeclared).CommandsDispatched :=
      fun port hport mnemonic kinds hget =>
        info.subset_kindsOf_redeclare redeclared hport hd hget
    by_cases hcommand : ∃ mnemonic, entry = "cmd:" ++ mnemonic
    · obtain ⟨mnemonic, rfl⟩ := hcommand
      rw [enteredAs_command hd', enteredAs_command hd, enteredAs_command hd, hcmd, get?_redeclare]
      cases info.commandKinds.get? mnemonic with
      | none => simp
      | some kinds =>
        split
        · simp [mem_guardedFor]
          tauto
        · simp
    · by_cases hport : ∃ port : PortName, info.cmdPort ≠ some port ∧ entry = port.str
      · obtain ⟨port, hne, rfl⟩ := hport
        rw [enteredAs_port, enteredAs_port, enteredAs_port, hcmd,
          info.kindsOf_redeclare redeclared hne]
        split
        · rw [mem_guardedFor]
          simp [hne]
        · rfl
      · -- nothing else is a handler
        have hno : ∀ (i : InstanceInfo) kind', i.cmdPort = info.cmdPort →
            ¬ i.EnteredAs entry kind' := by
          intro i kind' hi hentered
          rcases enteredAs_iff.mp hentered with ⟨port, hne, heq, _⟩ | ⟨_, mnemonic, _, _, heq, _⟩
          · exact hport ⟨port, hi ▸ hne, heq⟩
          · exact hcommand ⟨mnemonic, heq⟩
        simp [hno _ _ hcmd, hno _ _ rfl]

end InstanceInfo

/-! ## A sync handler re-declared -/

/-- A passive component whose sync `run` emits on `out`. -/
def syncEmitter : InstanceInfo where
  kind := .passive
  inputPorts := .ofList [(.run, {.sync})]
  outputPorts := [.out]

/-- An instance of it. -/
def emitterTopology : TopologyGraph where
  instances := .ofList [("T.emitter", syncEmitter)]
  connections := ∅
  flow := .permissive ∅

theorem syncEmitter_redeclares :
    syncEmitter.Redeclares (syncEmitter.redeclare {"run"}) {"run"} :=
  syncEmitter.redeclares_redeclare _ fun _ h => by cases h

theorem syncEmitter_emits : ∀ entry ∈ ({"run"} : Finset String),
    .sync ∈ syncEmitter.handlerKinds entry ∧ emitterTopology.Emits syncEmitter .out entry := by
  intro entry hentry
  obtain rfl := Finset.mem_singleton.mp hentry
  exact ⟨by decide +kernel, by decide +kernel, [.out],
    PortFlowMap.outputsFor_permissive_empty .., by decide⟩

/-- Re-declared guarded, the emitter of a passive producer counts as safe. -/
theorem guarded_emitter_safe :
    syncEmitter.Redeclares (syncEmitter.redeclare {"run"}) {"run"}
      ∧ (∀ entry ∈ ({"run"} : Finset String),
        .sync ∈ syncEmitter.handlerKinds entry ∧ emitterTopology.Emits syncEmitter .out entry)
      ∧ emitterTopology.emitContextForPort "T.emitter" .out = .ok "sync input handler run"
      ∧ (emitterTopology.withInstance "T.emitter" (syncEmitter.redeclare {"run"})).emitContextForPort
        "T.emitter" .out = .ok "guarded input handler run"
      ∧ (classifyPriorityRelation .passive none none "sync input handler run").1 = 2
      ∧ (classifyPriorityRelation .passive none none "guarded input handler run").1 = 1 :=
  ⟨syncEmitter_redeclares, syncEmitter_emits, by decide +kernel, by decide +kernel,
    by decide +kernel, by decide +kernel⟩

/-- A producer that outranks the sink keeps its severity, a passive one does
not. -/
theorem guarded_severity_iff_emitter :
    ∃ context',
      (emitterTopology.withInstance "T.emitter" (syncEmitter.redeclare {"run"})).emitContextForPort
        "T.emitter" .out = .ok context'
      ∧ (classifyPriorityRelation .active (some 20) (some 5) "sync input handler run").1
        = (classifyPriorityRelation .active (some 20) (some 5) context').1
      ∧ (classifyPriorityRelation .passive none none "sync input handler run").1
        ≠ (classifyPriorityRelation .passive none none context').1 := by
  obtain ⟨context', hcontext', hiff⟩ := TopologyGraph.guarded_severity_iff (by decide +kernel)
    syncEmitter_emits syncEmitter_redeclares
    (show emitterTopology.emitContextForPort "T.emitter" .out = .ok "sync input handler run" by
      decide +kernel)
  refine ⟨context', hcontext', (hiff _ _ _).mpr (.inl ⟨.inl rfl, 20, 5, rfl, rfl, by decide⟩), ?_⟩
  intro hsame
  have hsafe : ∀ entry ∈ syncEmitter.emitOrder,
      hasSyncOrUnknownContext ((syncEmitter.redeclare {"run"}).handlerLabel entry) = false := by
    decide +kernel
  rcases (hiff _ _ _).mp hsame with ⟨hkind, -⟩ | hmixed | ⟨entry, ⟨hhandler, -⟩, hlabel⟩
  · simp at hkind
  · exact absurd (hmixed "run" (by decide)) (by decide +kernel)
  · exact absurd hlabel (by simp [hsafe entry hhandler])

end FprimeTopologyAnalysis
