/-
FprimeTopologyAnalysis.PortFlow — the intra-component flow map
(`port_flow.py`).

Given a component and the handler entered at one of its input ports, the
flow map answers which of the component's output ports that handler can
invoke. A lookup that cannot be answered exactly (no record, or a record
marked opaque) raises `UnresolvedFlowError` in strict mode and answers
every declared output in permissive mode.

The counters behind the report's summary line (`stats_precise`,
`stats_conservative`, `unresolved`) are not modelled: no analysis reads
them back.
-/
import FprimeTopologyAnalysis.Library.Dict
import Mathlib.Data.Finset.Sort
import Mathlib.Data.String.Basic

namespace FprimeTopologyAnalysis

open Library

/-! ## Names -/

/-- `sorted` of a set of names. -/
def sortNames (names : Finset String) : List String := names.sort (· ≤ ·)

theorem mem_sortNames {names : Finset String} {x : String} : x ∈ sortNames names ↔ x ∈ names :=
  Finset.mem_sort _

/-- An FPP identifier: letters, digits and underscores. Qualified names,
which have dots, only occur on instances and components. -/
def IsIdentifier (s : String) : Prop := ∀ c ∈ s.toList, c.isAlphanum ∨ c = '_'

instance (s : String) : Decidable (IsIdentifier s) :=
  List.decidableBAll _ s.toList

/-- No other character occurs in an identifier. -/
theorem IsIdentifier.notMem {s : String} (h : IsIdentifier s) {c : Char}
    (hc : ¬ (c.isAlphanum ∨ c = '_')) : c ∉ s.toList :=
  fun hmem => hc (h c hmem)

/-- An FPP port name. -/
def PortName : Type := {s : String // IsIdentifier s}

namespace PortName

instance : DecidableEq PortName := inferInstanceAs (DecidableEq {s : String // IsIdentifier s})

instance : LinearOrder PortName := inferInstanceAs (LinearOrder {s : String // IsIdentifier s})

/-- The name as text. -/
def str (p : PortName) : String := p.val

/-! Ports of the sample topologies. -/

def gIn : PortName := ⟨"gIn", by decide⟩

def go : PortName := ⟨"go", by decide⟩

def out : PortName := ⟨"out", by decide⟩

def run : PortName := ⟨"run", by decide⟩

def seqIn : PortName := ⟨"seqIn", by decide⟩

def cmdIn : PortName := ⟨"cmdIn", by decide⟩

def cmdOut : PortName := ⟨"cmdOut", by decide⟩

theorem str_injective : Function.Injective str := Subtype.val_injective

end PortName

/-! ## The flow map -/

/-- `UnresolvedFlowError`: the handler that could not be resolved, and why. -/
structure UnresolvedFlowError where
  component : String
  entry : String
  reason : String
  deriving DecidableEq, Repr

/-- `str(error)`. -/
def UnresolvedFlowError.str (e : UnresolvedFlowError) : String :=
  e.component ++ "." ++ e.entry ++ ": " ++ e.reason

/-- One handler's record: its list-valued facts by name (`ports`,
`guarded_ports`, `fields_read`, ...) and its `opaque` mark. Either may be
missing from the JSON. -/
structure HandlerRecord where
  lists : Dict String (List String)
  isOpaque : Option Bool

/-- One component's record: its handlers by flow entry. -/
structure ComponentRecord where
  handlers : Dict String HandlerRecord

/-- `PortFlowMap`. -/
structure PortFlowMap where
  components : Dict String ComponentRecord
  strict : Bool

/-- `IMPL_CLASS_SUFFIXES`. -/
def implClassSuffixes : List String := ["", "Impl", "ComponentImpl", "ComponentImp"]

namespace PortFlowMap

/-- `permissive(data)`. -/
def permissive (components : Dict String ComponentRecord) : PortFlowMap := ⟨components, false⟩

/-- `is_empty`. -/
def isEmpty (flow : PortFlowMap) : Bool := flow.components.entries.isEmpty

/-- `_cpp_name`: every `.` becomes `::`. -/
def cppName (componentQualifiedName : String) : String :=
  String.ofList (componentQualifiedName.toList.flatMap fun c =>
    if c = '.' then [':', ':'] else [c])

/-- `_candidate_names`. -/
def candidateNames (component : String) : List String :=
  implClassSuffixes.map fun suffix => cppName component ++ suffix

/-- `_component_record`: the first candidate name the map covers. -/
def componentRecord (flow : PortFlowMap) (component : String) : Option ComponentRecord :=
  (candidateNames component).findSome? flow.components.get?

/-- `_lookup`. -/
def lookup (flow : PortFlowMap) (component entry : String) : Option HandlerRecord :=
  (flow.componentRecord component).bind fun record => record.handlers.get? entry

/-- `has_component`. -/
def hasComponent (flow : PortFlowMap) (component : String) : Bool :=
  (flow.componentRecord component).isSome

/-- `_unresolved_reason`. -/
def unresolvedReason (flow : PortFlowMap) (component : String)
    (record : Option HandlerRecord) : String :=
  if flow.isEmpty then
    "no flow map was supplied; run component_call_graph.py first"
  else if !flow.hasComponent component then
    "component absent from the flow map; its source may not be in compile_commands.json"
  else if record.isNone then
    "handler absent from the flow map; it may not be implemented in C++"
  else
    "handler marked opaque: libclang could not resolve a call it makes " ++
      "(function pointer, delegate, or a parse error in that translation unit)"

/-- The record that answers a lookup exactly: present and not opaque. A
record without the mark counts as opaque. -/
def resolvedRecord (flow : PortFlowMap) (component entry : String) : Option HandlerRecord :=
  (flow.lookup component entry).filter fun record => !record.isOpaque.getD true

/-- `outputs_for`. The recorded ports are intersected with the declared
ones, so a stale map cannot invent ports the topology does not have. -/
def outputsFor (flow : PortFlowMap) (component entry : String) (allOutputs : List PortName) :
    Except UnresolvedFlowError (List PortName) :=
  match flow.resolvedRecord component entry with
  | none =>
    if flow.strict then
      .error ⟨component, entry,
        flow.unresolvedReason component (flow.lookup component entry)⟩
    else
      .ok allOutputs
  | some record =>
    .ok (((record.lists.get? "ports").getD []).filterMap fun port =>
      allOutputs.find? fun declared => declared.str = port)

/-- `facet`: one recorded list of a handler, empty when absent. -/
def facet (flow : PortFlowMap) (component entry name : String) : List String :=
  match flow.lookup component entry with
  | none => []
  | some record => (record.lists.get? name).getD []

/-! ## What a lookup answers -/

/-- Every answer is among the declared outputs. -/
theorem outputsFor_subset (flow : PortFlowMap) (component entry : String)
    (allOutputs outs : List PortName)
    (h : flow.outputsFor component entry allOutputs = .ok outs) : outs ⊆ allOutputs := by
  unfold outputsFor at h
  split at h
  · split at h
    · cases h
    · cases h
      exact List.Subset.refl _
  · cases h
    intro port hport
    obtain ⟨_, _, hfind⟩ := List.mem_filterMap.mp hport
    exact List.mem_of_find?_eq_some hfind

/-- A permissive map answers every lookup. -/
theorem outputsFor_permissive (flow : PortFlowMap) (hstrict : flow.strict = false)
    (component entry : String) (allOutputs : List PortName) :
    ∃ outs, flow.outputsFor component entry allOutputs = .ok outs := by
  unfold outputsFor
  split
  · simp [hstrict]
  · exact ⟨_, rfl⟩

/-- Without records it answers all outputs. -/
theorem outputsFor_permissive_empty (component entry : String) (allOutputs : List PortName) :
    (permissive ∅).outputsFor component entry allOutputs = .ok allOutputs := by
  have hnone : (permissive ∅).componentRecord component = none := by
    simp [componentRecord, permissive, List.findSome?_eq_none_iff]
  have hrecord : (permissive ∅).resolvedRecord component entry = none := by
    simp [resolvedRecord, lookup, hnone]
  simp only [outputsFor, hrecord]
  rfl

/-- A strict map answers exactly the lookups that resolve. -/
theorem outputsFor_strict_iff (flow : PortFlowMap) (hstrict : flow.strict = true)
    (component entry : String) (allOutputs : List PortName) :
    (∃ outs, flow.outputsFor component entry allOutputs = .ok outs)
      ↔ (flow.resolvedRecord component entry).isSome := by
  unfold outputsFor
  cases flow.resolvedRecord component entry <;> simp [hstrict]

/-- A raised error names the handler that was looked up. -/
theorem outputsFor_error (flow : PortFlowMap) (component entry : String)
    (allOutputs : List PortName) (e : UnresolvedFlowError)
    (h : flow.outputsFor component entry allOutputs = .error e) :
    e.component = component ∧ e.entry = entry ∧ flow.strict = true := by
  unfold outputsFor at h
  split at h
  · split at h
    · cases h
      exact ⟨rfl, rfl, by assumption⟩
    · cases h
  · cases h

end PortFlowMap

end FprimeTopologyAnalysis
