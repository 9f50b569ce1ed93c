/-
FprimeTopologyAnalysis.CallGraph — the C++ call graph and the flow map made
of it (`component_call_graph.py`).

What libclang makes of a translation unit is data here (`Parse`): the files
it included, the errors it reports and the definitions its AST offers.
`parseUnit` folds one unit into an extractor; `mergeUnitResult` merges the
result of another one; `buildFlowMap` resolves every handler.

Folding accumulates into what a method has recorded, merging overwrites it.
So merging loses what another unit recorded for a method, unless all units
that define it record the same (`merge_orderIndependent`).
-/
import FprimeTopologyAnalysis.Library.KeyedMerge
import FprimeTopologyAnalysis.Library.Worklist
import Mathlib.Data.Finset.Lattice.Basic
import Mathlib.Data.Finset.Sort
import Mathlib.Data.Prod.Lex
import Mathlib.Data.String.Basic

namespace FprimeTopologyAnalysis

open Library

/-! ## What a unit records -/

/-- A method's class and name. -/
abbrev MethodKey := String × String

/-- `MethodInfo`. Its class and name are the key it is stored under. -/
structure MethodInfo where
  calls : Finset MethodKey := ∅
  ports : Finset String := ∅
  guardedPorts : Finset String := ∅
  fieldsRead : Finset String := ∅
  fieldsWritten : Finset String := ∅
  eventSeverities : Finset String := ∅
  locksTouched : Finset String := ∅
  isOpaque : Bool := false
  deriving DecidableEq

namespace MethodInfo

/-- Everything both record. -/
def union (a b : MethodInfo) : MethodInfo where
  calls := a.calls ∪ b.calls
  ports := a.ports ∪ b.ports
  guardedPorts := a.guardedPorts ∪ b.guardedPorts
  fieldsRead := a.fieldsRead ∪ b.fieldsRead
  fieldsWritten := a.fieldsWritten ∪ b.fieldsWritten
  eventSeverities := a.eventSeverities ∪ b.eventSeverities
  locksTouched := a.locksTouched ∪ b.locksTouched
  isOpaque := a.isOpaque || b.isOpaque

instance : Max MethodInfo := ⟨union⟩

/-- Records are joined by union, and ordered by what they record. -/
instance : SemilatticeSup MethodInfo :=
  .mk'
    (fun a b => by simp [max, union, Finset.union_comm, Bool.or_comm])
    (fun a b c => by simp [max, union, Finset.union_assoc, Bool.or_assoc])
    (fun a => by simp [max, union])

end MethodInfo

/-- `_UnitResult`, and the mutable fields of the extractor it is detached
from. -/
structure UnitResult where
  methods : Dict MethodKey MethodInfo
  classComponent : Dict String String
  parsedFiles : Nat
  failedFiles : List String
  filesWithErrors : Finset String
  diagnosticCount : Nat
  notGenerated : List String
  missingAutocode : Finset String
  dependencies : Finset String
  deriving DecidableEq

/-- The fields `__init__` sets. -/
def UnitResult.empty : UnitResult := ⟨∅, ∅, 0, [], ∅, 0, [], ∅, ∅⟩

/-- `_merge_unit_result`. -/
def mergeUnitResult (x result : UnitResult) : UnitResult where
  methods := x.methods.update result.methods
  classComponent := x.classComponent.update result.classComponent
  parsedFiles := x.parsedFiles + result.parsedFiles
  failedFiles := x.failedFiles ++ result.failedFiles
  filesWithErrors := x.filesWithErrors ∪ result.filesWithErrors
  diagnosticCount := x.diagnosticCount + result.diagnosticCount
  notGenerated := x.notGenerated ++ result.notGenerated
  missingAutocode := x.missingAutocode ∪ result.missingAutocode
  dependencies := x.dependencies ∪ result.dependencies

/-! ## Parsing one unit -/

/-- A definition `_walk_methods` meets: a class that derives from a
generated base, with the component that base names, or a method with what
its body records. -/
inductive AstNode where
  | classDef (cls component : String)
  | methodDef (key : MethodKey) (body : MethodInfo)
  deriving DecidableEq

/-- What libclang makes of a unit: nothing, or a translation unit with the
files it included, its errors and its definitions in preorder. An error is
given by the generated header it says is missing, if it says so. -/
inductive Parse where
  | loadError
  | unit (includes : List String) (errors : List (Option String)) (nodes : List AstNode)
  deriving DecidableEq

/-- One node of `_walk_methods`. -/
def walkNode (x : UnitResult) : AstNode → UnitResult
  | .classDef cls component => { x with classComponent := x.classComponent.set cls component }
  | .methodDef key body => { x with methods := KeyedMerge.accumulate x.methods (key, body) }

/-- `_walk_methods`. -/
def walkMethods (nodes : List AstNode) (x : UnitResult) : UnitResult := nodes.foldl walkNode x

/-- `parse_unit`, on what libclang makes of the unit. -/
def parseUnit (source : String) (parse : Parse) (x : UnitResult) : UnitResult :=
  let x := { x with dependencies := insert source x.dependencies }
  match parse with
  | .loadError => { x with failedFiles := x.failedFiles ++ [source] }
  | .unit includes errors nodes =>
    let x := { x with dependencies := x.dependencies ∪ includes.toFinset }
    let missing := (errors.filterMap id).toFinset
    if missing ≠ ∅ then
      { x with
        missingAutocode := x.missingAutocode ∪ missing
        notGenerated := x.notGenerated ++ [source] }
    else
      let x := if errors = [] then x else
        { x with
          diagnosticCount := x.diagnosticCount + errors.length
          filesWithErrors := insert source x.filesWithErrors }
      walkMethods nodes { x with parsedFiles := x.parsedFiles + 1 }

/-- The definitions `parse_unit` walks. -/
def Parse.walked : Parse → List AstNode
  | .loadError => []
  | .unit _ errors nodes => if (errors.filterMap id).toFinset ≠ ∅ then [] else nodes

/-- The methods among some definitions. -/
def methodDefs (nodes : List AstNode) : List (MethodKey × MethodInfo) :=
  nodes.filterMap fun
    | .classDef _ _ => none
    | .methodDef key body => some (key, body)

/-- The classes among them. -/
def classDefs (nodes : List AstNode) : List (String × String) :=
  nodes.filterMap fun
    | .classDef cls component => some (cls, component)
    | .methodDef _ _ => none

/-- A walk adds methods and classes, and nothing else. -/
theorem walkMethods_eq (nodes : List AstNode) : ∀ x : UnitResult, walkMethods nodes x =
    { x with
      methods := KeyedMerge.accumulateAll x.methods (methodDefs nodes)
      classComponent :=
        (classDefs nodes).foldl (fun acc p => acc.set p.1 p.2) x.classComponent } := by
  induction nodes with
  | nil => exact fun x => rfl
  | cons node nodes ih =>
    intro x
    cases node with
    | classDef cls component => exact ih (walkNode x (.classDef cls component))
    | methodDef key body => exact ih (walkNode x (.methodDef key body))

/-- Of methods and classes a unit adds what its walk adds. -/
theorem parseUnit_walked (source : String) (parse : Parse) (x : UnitResult) :
    (parseUnit source parse x).methods = (walkMethods parse.walked x).methods
      ∧ (parseUnit source parse x).classComponent
        = (walkMethods parse.walked x).classComponent := by
  cases parse with
  | loadError => exact ⟨rfl, rfl⟩
  | unit includes errors nodes =>
    unfold parseUnit Parse.walked
    by_cases hmissing : (errors.filterMap id).toFinset ≠ ∅
    · simp only [if_pos hmissing]
      exact ⟨rfl, rfl⟩
    · simp only [if_neg hmissing, walkMethods_eq]
      split <;> exact ⟨rfl, rfl⟩

/-- Folding a unit into an extractor joins what it records to what is there. -/
theorem get?_parseUnit_methods (source : String) (parse : Parse) (x : UnitResult)
    (key : MethodKey) :
    (parseUnit source parse x).methods.get? key
      = KeyedMerge.joinOpt (x.methods.get? key)
          ((parseUnit source parse .empty).methods.get? key) := by
  rw [(parseUnit_walked ..).1, (parseUnit_walked ..).1, walkMethods_eq, walkMethods_eq]
  exact KeyedMerge.get?_accumulateAll ..

/-- A class it defines is overwritten. -/
theorem get?_parseUnit_classComponent (source : String) (parse : Parse) (x : UnitResult)
    (cls : String) :
    (parseUnit source parse x).classComponent.get? cls
      = ((parseUnit source parse .empty).classComponent.get? cls).or
          (x.classComponent.get? cls) := by
  rw [(parseUnit_walked ..).2, (parseUnit_walked ..).2, walkMethods_eq, walkMethods_eq]
  exact Dict.get?_foldl_set_or ..

/-! ## Resolving handlers -/

/-- A set of methods, sorted. -/
def sortKeys (keys : Finset MethodKey) : List MethodKey :=
  ((keys.image toLex).sort (· ≤ ·)).map ofLex

/-- The variables of `_resolve`. -/
structure Resolved where
  ports : Finset String
  guarded : Finset String
  reads : Finset String
  writes : Finset String
  locks : Finset String
  severities : Finset String
  isOpaque : Bool
  visited : Nat

/-- What one method adds to them. -/
def Resolved.add (r : Resolved) (info : MethodInfo) : Resolved where
  ports := r.ports ∪ info.ports
  guarded := r.guarded ∪ info.guardedPorts
  reads := r.reads ∪ info.fieldsRead
  writes := r.writes ∪ info.fieldsWritten
  locks := r.locks ∪ info.locksTouched
  severities := r.severities ∪ info.eventSeverities
  isOpaque := r.isOpaque || info.isOpaque
  visited := r.visited + 1

/-- The body of the loop of `_resolve`. A method no unit defines is a leaf. -/
def resolveExpand (methods : Dict MethodKey MethodInfo) : Worklist.Expand MethodKey Empty Resolved :=
  fun current =>
    match methods.get? current with
    | none => .ok ([], fun r => { r with visited := r.visited + 1 })
    | some info => .ok (sortKeys info.calls, fun r => r.add info)

/-- The methods `_resolve` can come to. -/
def resolveNodes (methods : Dict MethodKey MethodInfo) (key : MethodKey) : List MethodKey :=
  key :: methods.entries.flatMap fun e => e.1 :: sortKeys e.2.calls

/-- `_resolve`. -/
def resolve (methods : Dict MethodKey MethodInfo) (key : MethodKey) : Resolved :=
  (Worklist.run (resolveExpand methods)
    (Worklist.fuelFor (resolveExpand methods) (resolveNodes methods key) [key])
    [key] ∅ ⟨∅, ∅, ∅, ∅, ∅, ∅, false, 0⟩).2

/-! ## The flow map -/

/-- The text before a suffix. -/
def stem (suffix name : String) : Option String :=
  let front := String.ofList (name.toList.take (name.toList.length - suffix.toList.length))
  if front ++ suffix = name then some front else none

/-- `\w`, of the names FPP generates: those of a method are ASCII, and what else
Python's `\w` matches is left out. -/
def wordChar (c : Char) : Bool := c.isAlphanum || c = '_'

/-- A match of `^(\w+)<suffix>$`. -/
def matchSuffix (suffix name : String) : Option String :=
  (stem suffix name).filter fun front => front ≠ "" ∧ front.toList.all wordChar

/-- The flow entry a method is the handler of. -/
def flowEntry (name : String) : Option String :=
  match matchSuffix "_internalInterfaceHandler" name with
  | some port => some port
  | none =>
    match matchSuffix "_handler" name with
    | some port => some port
    | none => (matchSuffix "_cmdHandler" name).map fun cmd => "cmd:" ++ cmd

/-- `COMPONENT_BASE_SUFFIX`. -/
def componentBaseSuffix : String := "ComponentBase"

/-- The component a class implements. -/
def componentOf (classComponent : Dict String String) (cls : String) : String :=
  match stem componentBaseSuffix cls with
  | some component => component
  | none => (classComponent.get? cls).getD cls

/-- What stands before the last `::`, on the reversed characters. -/
def beforeLastColons : List Char → Option (List Char)
  | [] => none
  | ':' :: ':' :: rest => some rest
  | _ :: rest => beforeLastColons rest

/-- `name.rsplit("::", 1)[0]`. -/
def ownerOf (name : String) : String :=
  match beforeLastColons name.toList.reverse with
  | none => name
  | some rest => String.ofList rest.reverse

/-- One handler of the flow map. Its lists are the sets, sorted. -/
structure FlowHandler where
  ports : Finset String
  isOpaque : Bool
  functionsVisited : Nat
  guardedPorts : Finset String
  fieldsWritten : Finset String
  fieldsRead : Finset String
  locksTaken : Finset String
  eventSeverities : Finset String
  deriving DecidableEq

/-- The record of a resolved handler: reads that are no writes, and of the
fields and locks those of the component's own classes. -/
def Resolved.handler (r : Resolved) (owned : Finset String) : FlowHandler where
  ports := r.ports
  isOpaque := r.isOpaque
  functionsVisited := r.visited
  guardedPorts := r.guarded
  fieldsWritten := r.writes.filter fun name => ownerOf name ∈ owned
  fieldsRead := (r.reads \ r.writes).filter fun name => ownerOf name ∈ owned
  locksTaken := r.locks.filter fun name => ownerOf name ∈ owned
  eventSeverities := r.severities

/-- A handler defined in both the base and the implementation. -/
def FlowHandler.merge (existing h : FlowHandler) : FlowHandler where
  ports := existing.ports ∪ h.ports
  isOpaque := existing.isOpaque || h.isOpaque
  functionsVisited := existing.functionsVisited + h.functionsVisited
  guardedPorts := existing.guardedPorts ∪ h.guardedPorts
  fieldsWritten := existing.fieldsWritten ∪ h.fieldsWritten
  fieldsRead := existing.fieldsRead ∪ h.fieldsRead
  locksTaken := existing.locksTaken ∪ h.locksTaken
  eventSeverities := existing.eventSeverities ∪ h.eventSeverities

/-- One component of the flow map. -/
structure FlowComponent where
  cls : String
  handlers : Dict String FlowHandler
  deriving DecidableEq

/-- The loop body of `build_flow_map`. -/
def addHandler (methods : Dict MethodKey MethodInfo) (classComponent : Dict String String)
    (components : Dict String FlowComponent) (key : MethodKey) : Dict String FlowComponent :=
  match flowEntry key.2 with
  | none => components
  | some entry =>
    let component := componentOf classComponent key.1
    let h := (resolve methods key).handler {key.1, component ++ componentBaseSuffix}
    let record := (components.get? component).getD ⟨key.1, ∅⟩
    let merged := match record.handlers.get? entry with
      | none => h
      | some existing => existing.merge h
    components.set component { record with handlers := record.handlers.set entry merged }

/-- The `components` of `build_flow_map`. -/
def flowComponents (x : UnitResult) : Dict String FlowComponent :=
  (sortKeys x.methods.keys.toFinset).foldl (addHandler x.methods x.classComponent) ∅

/-- The flow map. -/
structure FlowMap where
  version : Nat
  implementedBy : List (String × String)
  compileCommands : String
  parsedFiles : Nat
  failedFiles : List String
  notGenerated : List String
  components : Dict String FlowComponent
  deriving DecidableEq

/-- `FLOW_FORMAT_VERSION`. -/
def flowFormatVersion : Nat := 1

/-- `build_flow_map`. -/
def buildFlowMap (compileCommands : String) (x : UnitResult) : FlowMap where
  version := flowFormatVersion
  implementedBy := x.classComponent.entries.insertionSort fun a b => a.1 ≤ b.1
  compileCommands := compileCommands
  parsedFiles := x.parsedFiles
  failedFiles := x.failedFiles
  notGenerated := x.notGenerated.insertionSort (· ≤ ·)
  components := flowComponents x

/-! ## The flow map depends on lookups only -/

/-- Extractors with the same methods, and the same components for the
classes of handlers. -/
structure SameAnswers (x y : UnitResult) : Prop where
  methods : ∀ key, x.methods.get? key = y.methods.get? key
  components : ∀ key ∈ x.methods.keys, flowEntry key.2 ≠ none →
    componentOf x.classComponent key.1 = componentOf y.classComponent key.1

theorem resolve_congr {methods methods' : Dict MethodKey MethodInfo}
    (h : ∀ key, methods.get? key = methods'.get? key) (key : MethodKey) :
    resolve methods key = resolve methods' key := by
  have hexpand : resolveExpand methods = resolveExpand methods' := by
    funext current
    rw [resolveExpand, resolveExpand, h]
  have hnodes : (resolveNodes methods key).Perm (resolveNodes methods' key) :=
    .cons _ ((Dict.entries_perm h).flatMap_right _)
  have hfuel : Worklist.fuelFor (resolveExpand methods) (resolveNodes methods key) [key]
      = Worklist.fuelFor (resolveExpand methods') (resolveNodes methods' key) [key] := by
    rw [Worklist.fuelFor, Worklist.fuelFor, hexpand, (hnodes.map _).sum_eq]
  rw [resolve, resolve, hfuel, hexpand]

/-- A class that does not name its component is looked up. -/
theorem componentOf_congr {classes classes' : Dict String String} {cls : String}
    (h : stem componentBaseSuffix cls = none → classes.get? cls = classes'.get? cls) :
    componentOf classes cls = componentOf classes' cls := by
  unfold componentOf
  cases hstem : stem componentBaseSuffix cls with
  | none => rw [h hstem]
  | some component => rfl

theorem mem_sortKeys {keys : Finset MethodKey} {key : MethodKey} :
    key ∈ sortKeys keys ↔ key ∈ keys := by
  simp only [sortKeys, List.mem_map, Finset.mem_sort, Finset.mem_image]
  constructor
  · rintro ⟨_, ⟨k, hk, rfl⟩, rfl⟩
    exact hk
  · exact fun h => ⟨toLex key, ⟨key, h, rfl⟩, rfl⟩

theorem SameAnswers.flowComponents_eq {x y : UnitResult} (h : SameAnswers x y) :
    flowComponents x = flowComponents y := by
  have hkeys : x.methods.keys.toFinset = y.methods.keys.toFinset := by
    ext key
    rw [List.mem_toFinset, List.mem_toFinset, Dict.mem_keys_iff, Dict.mem_keys_iff, h.methods]
  rw [flowComponents, flowComponents, ← hkeys]
  refine List.foldl_ext _ _ _ fun components key hkey => ?_
  have hmem : key ∈ x.methods.keys := List.mem_toFinset.mp (mem_sortKeys.mp hkey)
  unfold addHandler
  cases hentry : flowEntry key.2 with
  | none => rfl
  | some entry =>
    have hcomponent := h.components key hmem (by rw [hentry]; exact Option.some_ne_none entry)
    simp only [resolve_congr h.methods, hcomponent]

/-! ## Merging units -/

/-- A unit of the compilation database, and what libclang makes of it. -/
abbrev SourceUnit := String × Parse

/-- The unit parsed on its own. -/
def unitResult (u : SourceUnit) : UnitResult := parseUnit u.1 u.2 .empty

/-- The merge loop of `run`. -/
def mergeAll (results : List UnitResult) : UnitResult := results.foldl mergeUnitResult .empty

/-- All units walked into one extractor. -/
def walkAll (units : List SourceUnit) : UnitResult :=
  units.foldl (fun x u => parseUnit u.1 u.2 x) .empty

/-- The methods a unit records. -/
def methodsOf (u : SourceUnit) : Dict MethodKey MethodInfo := (unitResult u).methods

/-- The classes it records. -/
def classesOf (u : SourceUnit) : Dict String String := (unitResult u).classComponent

/-- A dictionary that every merge updates is overwritten unit by unit. -/
theorem mergeAll_dict {κ α : Type} [DecidableEq κ] (dict : UnitResult → Dict κ α)
    (hempty : dict .empty = ∅)
    (hmerge : ∀ x result, dict (mergeUnitResult x result) = (dict x).update (dict result))
    (units : List SourceUnit) :
    dict (mergeAll (units.map unitResult))
      = KeyedMerge.overwriteAll (units.map fun u => dict (unitResult u)) := by
  induction units using List.reverseRecOn with
  | nil => exact hempty
  | append_singleton units u ih =>
    rw [List.map_append, List.map_append, mergeAll, KeyedMerge.overwriteAll, List.foldl_append,
      List.foldl_append, ← mergeAll, ← KeyedMerge.overwriteAll, ← ih]
    exact hmerge _ _

theorem mergeAll_methods (units : List SourceUnit) :
    (mergeAll (units.map unitResult)).methods = KeyedMerge.overwriteAll (units.map methodsOf) :=
  mergeAll_dict UnitResult.methods rfl (fun _ _ => rfl) units

theorem mergeAll_classComponent (units : List SourceUnit) :
    (mergeAll (units.map unitResult)).classComponent
      = KeyedMerge.overwriteAll (units.map classesOf) :=
  mergeAll_dict UnitResult.classComponent rfl (fun _ _ => rfl) units

/-- Walking into one extractor records the join. -/
theorem get?_walkAll_methods (units : List SourceUnit) (key : MethodKey) :
    (walkAll units).methods.get? key = KeyedMerge.joinAt (units.map methodsOf) key := by
  induction units using List.reverseRecOn with
  | nil => rfl
  | append_singleton units u ih =>
    rw [walkAll, List.foldl_append, List.foldl_cons, List.foldl_nil, get?_parseUnit_methods,
      ← walkAll, ih, List.map_append, List.map_cons, List.map_nil, KeyedMerge.joinAt_append]
    rfl

theorem get?_walkAll_classComponent (units : List SourceUnit) (cls : String) :
    (walkAll units).classComponent.get? cls
      = (KeyedMerge.overwriteAll (units.map classesOf)).get? cls := by
  induction units using List.reverseRecOn with
  | nil => rfl
  | append_singleton units u ih =>
    rw [walkAll, List.foldl_append, List.foldl_cons, List.foldl_nil, get?_parseUnit_classComponent,
      ← walkAll, ih, List.map_append, List.map_cons, List.map_nil,
      KeyedMerge.get?_overwriteAll_append]
    rfl

/-- No two units disagree on what a method records. -/
def MethodsAgree (units : List SourceUnit) : Prop := KeyedMerge.Agree (units.map methodsOf)

instance (units : List SourceUnit) : Decidable (MethodsAgree units) :=
  inferInstanceAs (Decidable (KeyedMerge.Agree _))

/-- Some unit records a handler of this class, and the name of the class
does not tell its component. -/
def LooksUp (units : List SourceUnit) (cls : String) : Prop :=
  stem componentBaseSuffix cls = none
    ∧ ∃ u ∈ units, ∃ key ∈ (methodsOf u).keys, key.1 = cls ∧ flowEntry key.2 ≠ none

/-- No two units disagree on the component of a class that is looked up. -/
def ClassesAgree (units : List SourceUnit) : Prop :=
  ∀ cls, LooksUp units cls → KeyedMerge.AgreeAt (units.map classesOf) cls

/-- Merging the units loses nothing, and neither their order nor merging
rather than walking them shows in the flow map. -/
structure OrderIndependent (units : List SourceUnit) : Prop where
  lossless : ∀ units' : List SourceUnit, units'.Perm units → ∀ key,
    (mergeAll (units'.map unitResult)).methods.get? key
      = KeyedMerge.joinAt (units'.map methodsOf) key
  permuted : ∀ units' : List SourceUnit, units'.Perm units →
    flowComponents (mergeAll (units'.map unitResult))
      = flowComponents (mergeAll (units.map unitResult))
  walked : ∀ units' : List SourceUnit, units'.Perm units →
    flowComponents (mergeAll (units'.map unitResult)) = flowComponents (walkAll units')

/-- Where the merge loses nothing it is the walk. -/
theorem sameAnswers_walkAll {units : List SourceUnit}
    (h : ∀ key, (mergeAll (units.map unitResult)).methods.get? key
      = KeyedMerge.joinAt (units.map methodsOf) key) :
    SameAnswers (mergeAll (units.map unitResult)) (walkAll units) where
  methods key := by rw [h, get?_walkAll_methods]
  components key _ _ :=
    componentOf_congr fun _ => by rw [mergeAll_classComponent, get?_walkAll_classComponent]

theorem sameAnswers_perm {units units' : List SourceUnit} (hmethods : MethodsAgree units)
    (hclasses : ClassesAgree units) (h : units'.Perm units) :
    SameAnswers (mergeAll (units'.map unitResult)) (mergeAll (units.map unitResult)) where
  methods key := by
    rw [mergeAll_methods, mergeAll_methods]
    exact ((hmethods key).get?_overwriteAll (h.map methodsOf).symm).symm
  components key hkey hentry := by
    refine componentOf_congr fun hstem => ?_
    obtain ⟨info, hget⟩ := (Dict.mem_keys_iff _ _).mp hkey
    rw [mergeAll_methods] at hget
    obtain ⟨d, hd, hrecorded⟩ := (KeyedMerge.get?_overwriteAll _ key).1 info hget
    obtain ⟨u, hu, rfl⟩ := List.mem_map.mp hd
    have hlooks : LooksUp units key.1 :=
      ⟨hstem, u, h.mem_iff.mp hu, key, Dict.mem_keys_of_get? hrecorded, rfl, hentry⟩
    rw [mergeAll_classComponent, mergeAll_classComponent]
    exact ((hclasses _ hlooks).get?_overwriteAll (h.map classesOf).symm).symm

/-- The merge loses nothing in any order exactly when no two units disagree
on a method. -/
theorem lossless_iff (units : List SourceUnit) :
    (∀ units' : List SourceUnit, units'.Perm units → ∀ key,
      (mergeAll (units'.map unitResult)).methods.get? key
        = KeyedMerge.joinAt (units'.map methodsOf) key) ↔ MethodsAgree units := by
  simp only [mergeAll_methods]
  exact KeyedMerge.overwriteAll_eq_joinAt_iff methodsOf units

/-- **When merging units is order independent**: only if no two of them
disagree on a method; and, where none disagree on the class of a handler
either, then it is. -/
theorem merge_orderIndependent (units : List SourceUnit) :
    (OrderIndependent units → MethodsAgree units)
      ∧ (ClassesAgree units → (OrderIndependent units ↔ MethodsAgree units)) := by
  have honly : OrderIndependent units → MethodsAgree units :=
    fun h => (lossless_iff units).mp h.lossless
  refine ⟨honly, fun hclasses => ⟨honly, fun hmethods => ?_⟩⟩
  have hlossless := (lossless_iff units).mpr hmethods
  exact {
    lossless := hlossless
    permuted := fun units' h => (sameAnswers_perm hmethods hclasses h).flowComponents_eq
    walked := fun units' h => (sameAnswers_walkAll (hlossless units' h)).flowComponents_eq }

/-- A handler in `a.cpp` that calls an overloaded helper. Each of the two
files defines one overload. -/
def overloadUnits : List SourceUnit :=
  [("a.cpp", .unit [] [] [
      .methodDef ("B", "in_handler") { calls := {("B", "send")} },
      .methodDef ("B", "send") { ports := {"out"} }]),
    ("b.cpp", .unit [] [] [.methodDef ("B", "send") { ports := {"log"} }])]

/-- The merge keeps the last overload only, and the call of `out` is lost. -/
theorem overloads_not_orderIndependent : ¬ OrderIndependent overloadUnits := by
  intro h
  have hlog : (mergeAll (overloadUnits.map unitResult)).methods.get? ("B", "send")
      = some { ports := {"log"} } := by decide
  have hboth : KeyedMerge.joinAt (overloadUnits.map methodsOf) ("B", "send")
      = some { ports := {"out", "log"} } := by decide
  have hlossless := h.lossless overloadUnits (.refl _) ("B", "send")
  rw [hlog, hboth] at hlossless
  exact absurd hlossless (by decide)

/-- Two units that include one header, with a helper inline in it. -/
def inlineUnits : List SourceUnit :=
  [("a.cpp", .unit ["h.hpp"] [] [.methodDef ("B", "send") { ports := {"out"} }]),
    ("b.cpp", .unit ["h.hpp"] [] [.methodDef ("B", "send") { ports := {"out"} }])]

theorem merge_orderIndependent_inline : OrderIndependent inlineUnits :=
  have hclasses : KeyedMerge.Agree (inlineUnits.map classesOf) := by decide
  ((merge_orderIndependent inlineUnits).2 fun cls _ => hclasses cls).mpr (by decide)

end FprimeTopologyAnalysis
