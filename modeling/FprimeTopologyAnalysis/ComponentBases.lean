/-
FprimeTopologyAnalysis.ComponentBases — which component a class of handlers
implements (`_record_component_bases` of `component_call_graph.py`).

A class is recorded under the component whose generated base it names as a
direct base. What it inherits from further up is not followed, so the
handlers of a class below another implementation class are not those of its
component (`midUnits`). `handlersFollow_iff` says for which hierarchies all
handlers are.

A definition libclang offers is data here (`DeclNode`): a class with its
bases, or a method with what its body records.
-/
import FprimeTopologyAnalysis.CallClosure

namespace FprimeTopologyAnalysis

open Library

/-! ## Cursors -/

/-- The kinds of cursor that are told apart. -/
inductive CursorKind where
  | classDecl
  | structDecl
  | classTemplate
  | nameSpace
  | other
  deriving DecidableEq

/-- A declaration, with the kinds and spellings of what it is declared in,
innermost first, up to the translation unit. -/
structure DeclCursor where
  kind : CursorKind
  spelling : String
  parents : List (CursorKind × String)
  deriving DecidableEq

/-- `_qualified_class_name`. -/
def qualifiedClassName (cursor : DeclCursor) : Option String :=
  let parts := ((cursor.kind, cursor.spelling) :: cursor.parents).filter fun node =>
    node.2 ≠ "" ∧ node.1 ≠ .other
  if parts = [] then none else some ("::".intercalate (parts.map Prod.snd).reverse)

/-- A base specifier, by what libclang resolves it to: a class, another name
of a class, or nothing. -/
inductive BaseSpecifier where
  | toClass (base : DeclCursor)
  | toAlias (base : DeclCursor) (cls : String)
  | unresolved (spelling : String)
  deriving DecidableEq

namespace BaseSpecifier

/-- `base_name`. -/
def baseName : BaseSpecifier → String
  | .toClass base => (qualifiedClassName base).getD base.spelling
  | .toAlias base _ => (qualifiedClassName base).getD base.spelling
  | .unresolved spelling => spelling

/-- The class it makes a base. -/
def cls? : BaseSpecifier → Option String
  | .toClass base => qualifiedClassName base
  | .toAlias _ cls => some cls
  | .unresolved _ => none

end BaseSpecifier

/-- A class, and the base specifiers among its children. -/
structure ClassCursor where
  decl : DeclCursor
  isDefinition : Bool
  bases : List BaseSpecifier
  deriving DecidableEq

/-- `_record_component_bases`: the entry it makes. -/
def recordComponentBases (node : ClassCursor) : Option (String × String) :=
  match qualifiedClassName node.decl with
  | none => none
  | some cls =>
    (node.bases.findSome? fun base => stem componentBaseSuffix base.baseName).map fun component =>
      (cls, component)

/-- A node of `walk_preorder`: a class, or the definition of a method. -/
inductive DeclNode where
  | cls (node : ClassCursor)
  | method (key : MethodKey) (body : MethodInfo)
  deriving DecidableEq

/-- What `_walk_methods` does with a node, if anything. -/
def DeclNode.walked : DeclNode → Option AstNode
  | .cls node =>
    if node.decl.kind = .classDecl ∧ node.isDefinition then
      (recordComponentBases node).map fun p => .classDef p.1 p.2
    else none
  | .method key body => some (.methodDef key body)

/-- A translation unit, by the nodes of its AST. -/
inductive UnitAst where
  | loadError
  | unit (includes : List String) (errors : List (Option String)) (nodes : List DeclNode)
  deriving DecidableEq

/-- The same unit, by what its nodes record. -/
def UnitAst.parse : UnitAst → Parse
  | .loadError => .loadError
  | .unit includes errors nodes => .unit includes errors (nodes.filterMap DeclNode.walked)

/-- The nodes that are walked. -/
def UnitAst.nodes : UnitAst → List DeclNode
  | .loadError => []
  | .unit _ errors nodes => if (errors.filterMap id).toFinset ≠ ∅ then [] else nodes

/-- The units of a run, each with its source. -/
abbrev UnitAsts := List (String × UnitAst)

/-- What `run` has when it comes to build the flow map. -/
def extracted (units : UnitAsts) : UnitResult :=
  mergeAll (units.map fun u => unitResult (u.1, u.2.parse))

/-- The parsed nodes, unit by unit. -/
def parsedNodes (units : UnitAsts) : List DeclNode := units.flatMap fun u => u.2.nodes

/-! ## Hierarchies -/

/-- One class has another as a direct base, in some definition of it. -/
def HasBase (nodes : List DeclNode) (cls base : String) : Prop :=
  ∃ node, .cls node ∈ nodes ∧ node.isDefinition ∧ qualifiedClassName node.decl = some cls
    ∧ ∃ b ∈ node.bases, b.cls? = some base

/-- A class derives from the generated base of a component, directly or
through other classes. -/
def Implements (nodes : List DeclNode) (cls component : String) : Prop :=
  Relation.TransGen (HasBase nodes) cls (component ++ componentBaseSuffix)

/-- A class defines a handler. -/
def DefinesHandler (nodes : List DeclNode) (key : MethodKey) : Prop :=
  (∃ body, .method key body ∈ nodes) ∧ flowEntry key.2 ≠ none

/-- A handler is folded into the record of a component: what it resolves to
is merged there when `build_flow_map` comes to it, whatever is recorded so
far, and the flow map shows it there. -/
structure FoldedInto (x : UnitResult) (key : MethodKey) (component : String) : Prop where
  merged : ∃ entry, flowEntry key.2 = some entry ∧ ∀ components,
    recordAt (addHandler x.methods x.classComponent components key) component entry
      = some (mergedHandler (recordAt components component entry)
          ((resolve x.methods key).handler {key.1, component ++ componentBaseSuffix}))
  shown : ∀ entry, flowEntry key.2 = some entry → ∃ h,
    recordAt (flowComponents x) component entry = some h
      ∧ ∀ fact, ReachesFact x.methods key fact → fact.KeptFor key.1 component → h.Has fact

/-- Every handler of a class that implements a component is folded into the
record of that component. -/
def HandlersFollow (units : UnitAsts) : Prop :=
  ∀ cls component, Implements (parsedNodes units) cls component →
    ∀ name, DefinesHandler (parsedNodes units) (cls, name) →
      FoldedInto (extracted units) (cls, name) component

/-! ## When a class is found under its component -/

/-- A definition of the class with `class` names the generated base of the
component as a direct base, and that of no other before it. -/
def NamesBase (node : DeclNode) (cls component : String) : Prop :=
  ∃ c before base after, node = .cls c ∧ c.decl.kind = .classDecl ∧ c.isDefinition
    ∧ qualifiedClassName c.decl = some cls ∧ c.bases = before ++ base :: after
    ∧ base.baseName = component ++ componentBaseSuffix
    ∧ ∀ b ∈ before, ∀ other, b.baseName ≠ other ++ componentBaseSuffix

/-- The last definition of the class to name a generated base names that of
the component. -/
def LastNamesBase (nodes : List DeclNode) (cls component : String) : Prop :=
  ∃ before node after, nodes = before ++ node :: after ∧ NamesBase node cls component
    ∧ ∀ n ∈ after, ∀ other, ¬ NamesBase n cls other

/-- The class is found under the component: it is the generated base itself;
or it is none, and either its last definition to name one names that of the
component, or none does and the class has the component's name. -/
def FoundUnder (nodes : List DeclNode) (cls component : String) : Prop :=
  cls = component ++ componentBaseSuffix
    ∨ (∀ other, cls ≠ other ++ componentBaseSuffix)
      ∧ (LastNamesBase nodes cls component
        ∨ (∀ n ∈ nodes, ∀ other, ¬ NamesBase n cls other) ∧ cls = component)

/-! ## What is recorded -/

theorem stem_eq_some_iff {suffix name front : String} :
    stem suffix name = some front ↔ name = front ++ suffix := by
  constructor
  · intro h
    simp only [stem, Option.ite_none_right_eq_some, Option.some.injEq] at h
    obtain ⟨happend, rfl⟩ := h
    exact happend.symm
  · intro h
    subst h
    simp [stem]

theorem stem_eq_none_iff {suffix name : String} :
    stem suffix name = none ↔ ∀ front, name ≠ front ++ suffix := by
  rw [Option.eq_none_iff_forall_ne_some]
  simp only [ne_eq, stem_eq_some_iff]

/-- The component a node records for a class. -/
def DeclNode.componentFor (cls : String) (node : DeclNode) : Option String :=
  node.walked.bind fun
    | .classDef c component => if c = cls then some component else none
    | .methodDef _ _ => none

/-- A class is recorded under the first generated base it names. -/
theorem recordComponentBases_eq_some_iff {node : ClassCursor} {cls component : String} :
    recordComponentBases node = some (cls, component)
      ↔ qualifiedClassName node.decl = some cls
        ∧ ∃ before base after, node.bases = before ++ base :: after
          ∧ base.baseName = component ++ componentBaseSuffix
          ∧ ∀ b ∈ before, ∀ other, b.baseName ≠ other ++ componentBaseSuffix := by
  unfold recordComponentBases
  cases qualifiedClassName node.decl with
  | none => simp
  | some c =>
    simp only [Option.map_eq_some_iff, Prod.mk.injEq, Option.some.injEq, List.findSome?_eq_some_iff,
      stem_eq_some_iff, stem_eq_none_iff]
    constructor
    · rintro ⟨_, ⟨before, base, after, hbases, hbase, hbefore⟩, rfl, rfl⟩
      exact ⟨rfl, before, base, after, hbases, hbase, hbefore⟩
    · rintro ⟨rfl, before, base, after, hbases, hbase, hbefore⟩
      exact ⟨component, ⟨before, base, after, hbases, hbase, hbefore⟩, rfl, rfl⟩

theorem componentFor_eq_some_iff {node : DeclNode} {cls component : String} :
    node.componentFor cls = some component ↔ NamesBase node cls component := by
  cases node with
  | method key body => simp [DeclNode.componentFor, DeclNode.walked, NamesBase]
  | cls c =>
    have hrecord : (DeclNode.cls c).componentFor cls = some component
        ↔ (c.decl.kind = .classDecl ∧ c.isDefinition)
          ∧ recordComponentBases c = some (cls, component) := by
      simp only [DeclNode.componentFor, DeclNode.walked]
      split
      · rename_i h
        cases recordComponentBases c with
        | none => simp
        | some p => simp [h, Prod.ext_iff]
      · rename_i h
        simp [h]
    rw [hrecord, recordComponentBases_eq_some_iff]
    simp only [NamesBase, DeclNode.cls.injEq]
    constructor
    · rintro ⟨⟨hkind, hdefinition⟩, hname, before, base, after, h⟩
      exact ⟨c, before, base, after, rfl, hkind, hdefinition, hname, h⟩
    · rintro ⟨_, before, base, after, rfl, hkind, hdefinition, hname, h⟩
      exact ⟨⟨hkind, hdefinition⟩, hname, before, base, after, h⟩

theorem componentFor_eq_none_iff {node : DeclNode} {cls : String} :
    node.componentFor cls = none ↔ ∀ other, ¬ NamesBase node cls other := by
  rw [Option.eq_none_iff_forall_ne_some]
  simp only [ne_eq, componentFor_eq_some_iff]

/-- The nodes walked are the parsed nodes that record something. -/
theorem walked_parse (ast : UnitAst) : ast.parse.walked = ast.nodes.filterMap DeclNode.walked := by
  cases ast with
  | loadError => rfl
  | unit includes errors nodes =>
    simp only [UnitAst.parse, Parse.walked, UnitAst.nodes]
    split <;> rfl

/-- A unit records a class under what its last node to record it names. -/
theorem get?_classesOf (source : String) (ast : UnitAst) (cls : String) :
    (classesOf (source, ast.parse)).get? cls
      = ast.nodes.reverse.findSome? (DeclNode.componentFor cls) := by
  have hclasses : classesOf (source, ast.parse)
      = .ofList (classDefs (ast.nodes.filterMap DeclNode.walked)) := by
    rw [classesOf, unitResult, (parseUnit_walked ..).2, walkMethods_eq, walked_parse]
    rfl
  rw [hclasses, Dict.get?_ofList_reverse, classDefs, ← List.filterMap_reverse,
    ← List.filterMap_reverse, ← List.head?_filterMap, ← List.head?_filterMap,
    List.filterMap_filterMap, List.filterMap_filterMap]
  congr 2
  funext node
  unfold DeclNode.componentFor
  rcases node.walked with _ | ⟨c, component⟩ | ⟨key, body⟩ <;> rfl

/-- A run lets later units overwrite what earlier ones record. -/
theorem classComponent_extracted (units : UnitAsts) : (extracted units).classComponent
    = KeyedMerge.overwriteAll (units.map fun u => classesOf (u.1, u.2.parse)) := by
  have h := mergeAll_classComponent (units.map fun u => (u.1, u.2.parse))
  simpa [extracted, List.map_map, Function.comp_def] using h

/-- It records a class under what its last node to record it names. -/
theorem get?_extracted (units : UnitAsts) (cls : String) :
    (extracted units).classComponent.get? cls
      = (parsedNodes units).reverse.findSome? (DeclNode.componentFor cls) := by
  rw [classComponent_extracted]
  induction units using List.reverseRecOn with
  | nil => rfl
  | append_singleton units u ih =>
    have hnodes : parsedNodes (units ++ [u]) = parsedNodes units ++ u.2.nodes := by
      simp [parsedNodes]
    rw [List.map_append, List.map_singleton, KeyedMerge.get?_overwriteAll_append, get?_classesOf,
      ih, hnodes, List.reverse_append, List.findSome?_append]

theorem get?_extracted_eq_some_iff {units : UnitAsts} {cls component : String} :
    (extracted units).classComponent.get? cls = some component
      ↔ LastNamesBase (parsedNodes units) cls component := by
  rw [get?_extracted, List.findSome?_eq_some_iff]
  simp only [componentFor_eq_some_iff, componentFor_eq_none_iff, List.reverse_eq_append_iff,
    List.reverse_cons, List.append_assoc, List.singleton_append]
  constructor
  · rintro ⟨after, node, before, hnodes, hnode, hafter⟩
    exact ⟨before.reverse, node, after.reverse, hnodes, hnode,
      fun n hn => hafter n (List.mem_reverse.mp hn)⟩
  · rintro ⟨before, node, after, hnodes, hnode, hafter⟩
    exact ⟨after.reverse, node, before.reverse, by simpa using hnodes, hnode,
      fun n hn => hafter n (List.mem_reverse.mp hn)⟩

theorem get?_extracted_eq_none_iff {units : UnitAsts} {cls : String} :
    (extracted units).classComponent.get? cls = none
      ↔ ∀ n ∈ parsedNodes units, ∀ other, ¬ NamesBase n cls other := by
  rw [get?_extracted, List.findSome?_eq_none_iff]
  simp only [List.mem_reverse, componentFor_eq_none_iff]

/-- **The component of a class**, as `build_flow_map` finds it. -/
theorem componentOf_extracted_iff {units : UnitAsts} {cls component : String} :
    componentOf (extracted units).classComponent cls = component
      ↔ FoundUnder (parsedNodes units) cls component := by
  unfold componentOf FoundUnder
  cases hstem : stem componentBaseSuffix cls with
  | some own =>
    have hname := stem_eq_some_iff.mp hstem
    simp [hname]
  | none =>
    have hname := stem_eq_none_iff.mp hstem
    simp only [hname component, hname, false_or, ne_eq, not_false_eq_true, implies_true, true_and,
      ← get?_extracted_eq_some_iff, ← get?_extracted_eq_none_iff]
    cases (extracted units).classComponent.get? cls <;> simp

/-! ## Folding handlers -/

/-- A handler is folded into the record its class is found under, and no
other. -/
theorem foldedInto_iff {x : UnitResult} {key : MethodKey} {component : String}
    (hkey : key ∈ x.methods.keys) (hentry : flowEntry key.2 ≠ none) :
    FoldedInto x key component ↔ componentOf x.classComponent key.1 = component := by
  constructor
  · intro h
    obtain ⟨entry, hentry, hmerged⟩ := h.merged
    by_contra hother
    have hstays : recordAt (addHandler x.methods x.classComponent ∅ key) component entry
        = recordAt ∅ component entry :=
      recordAt_addHandler_other fun hmaps => hother hmaps.2
    rw [hmerged ∅] at hstays
    cases hstays
  · intro hcomponent
    refine ⟨?_, fun entry hentry => ?_⟩
    · obtain ⟨entry, hentry⟩ := Option.ne_none_iff_exists'.mp hentry
      exact ⟨entry, hentry, fun components => recordAt_addHandler_self ⟨hentry, hcomponent⟩⟩
    · have hmaps : MapsTo x.classComponent key component entry := ⟨hentry, hcomponent⟩
      have hexact : ExactFlow x.methods x.classComponent x.methods.keys (flowComponents x) :=
        (exactFlow_foldl (sortKeys x.methods.keys.toFinset)).perm (sortKeys_perm x.methods)
      obtain ⟨h, hrecord⟩ := Option.isSome_iff_exists.mp
        ((hexact.recorded component entry).mpr ⟨key, hkey, hmaps⟩)
      refine ⟨h, hrecord, fun fact hreaches hkept => ?_⟩
      exact (hexact.facts component entry h hrecord fact).mpr ⟨key, hkey, hmaps, hreaches, hkept⟩

/-- A method that a parsed unit defines is recorded. -/
theorem mem_keys_extracted {units : UnitAsts} {key : MethodKey} {body : MethodInfo}
    (h : .method key body ∈ parsedNodes units) : key ∈ (extracted units).methods.keys := by
  obtain ⟨⟨source, ast⟩, hunit, hnode⟩ := List.mem_flatMap.mp h
  have hdef : key ∈ (methodDefs ast.parse.walked).map Prod.fst := by
    rw [walked_parse]
    refine List.mem_map.mpr ⟨(key, body), ?_, rfl⟩
    exact List.mem_filterMap.mpr ⟨.methodDef key body, List.mem_filterMap.mpr ⟨_, hnode, rfl⟩, rfl⟩
  have hunits : (source, ast.parse) ∈ units.map fun u => (u.1, u.2.parse) :=
    List.mem_map.mpr ⟨_, hunit, rfl⟩
  have hmethods : (extracted units).methods
      = KeyedMerge.overwriteAll ((units.map fun u => (u.1, u.2.parse)).map methodsOf) := by
    rw [← mergeAll_methods, List.map_map]
    rfl
  have hrecorded : (methodsOf (source, ast.parse)).get? key ≠ none := by
    rw [methodsOf, unitResult, (parseUnit_walked ..).1, walkMethods_eq]
    exact KeyedMerge.get?_accumulateAll_ne_none hdef ∅
  obtain ⟨info, hinfo⟩ := Option.ne_none_iff_exists'.mp hrecorded
  by_contra hmissing
  rw [← Dict.get?_eq_none_iff, hmethods] at hmissing
  exact (KeyedMerge.get?_overwriteAll _ key).2 hmissing info ⟨_, List.mem_map_of_mem hunits, hinfo⟩

/-- **When handlers follow inheritance**: exactly when every class that
implements a component, and has a handler, is found under it. -/
theorem handlersFollow_iff (units : UnitAsts) : HandlersFollow units
    ↔ ∀ cls component, Implements (parsedNodes units) cls component →
      (∃ name, DefinesHandler (parsedNodes units) (cls, name)) →
        FoundUnder (parsedNodes units) cls component := by
  have hfolded : ∀ cls component name, DefinesHandler (parsedNodes units) (cls, name) →
      (FoldedInto (extracted units) (cls, name) component
        ↔ FoundUnder (parsedNodes units) cls component) := by
    intro cls component name hhandler
    obtain ⟨⟨body, hnode⟩, hentry⟩ := hhandler
    rw [foldedInto_iff (mem_keys_extracted hnode) hentry, componentOf_extracted_iff]
  constructor
  · rintro h cls component himplements ⟨name, hhandler⟩
    exact (hfolded cls component name hhandler).mp (h cls component himplements name hhandler)
  · intro h cls component himplements name hhandler
    exact (hfolded cls component name hhandler).mpr (h cls component himplements ⟨name, hhandler⟩)

/-- A class at the top of a unit. -/
def topClass (name : String) (bases : List String) : ClassCursor where
  decl := ⟨.classDecl, name, []⟩
  isDefinition := true
  bases := bases.map fun base => .toClass ⟨.classDecl, base, []⟩

/-- An implementation of `Log`, and a class below it with a handler. -/
def midUnits : UnitAsts :=
  [("a.cpp", .unit [] [] [
    .cls (topClass "LogComponentBase" []),
    .cls (topClass "LogImpl" ["LogComponentBase"]),
    .cls (topClass "FileLog" ["LogImpl"]),
    .method ("FileLog", "in_handler") {}])]

/-- Its handler is recorded for a component `FileLog`. -/
theorem handlersFollow_fails_below : ¬ HandlersFollow midUnits := by
  intro h
  have hlog : HasBase (parsedNodes midUnits) "LogImpl" ("Log" ++ componentBaseSuffix) :=
    ⟨topClass "LogImpl" ["LogComponentBase"], by decide, rfl, by decide,
      .toClass ⟨.classDecl, "LogComponentBase", []⟩, by decide, by decide⟩
  have hfile : HasBase (parsedNodes midUnits) "FileLog" "LogImpl" :=
    ⟨topClass "FileLog" ["LogImpl"], by decide, rfl, by decide,
      .toClass ⟨.classDecl, "LogImpl", []⟩, by decide, by decide⟩
  have hfolded := h "FileLog" "Log" (.head hfile (.single hlog)) "in_handler"
    ⟨⟨{}, by decide⟩, by decide⟩
  rw [foldedInto_iff (by decide) (by decide)] at hfolded
  exact absurd hfolded (by decide)

end FprimeTopologyAnalysis
