/-
FprimeTopologyAnalysis.ScanBody — what the body of a method is recorded for
(`_scan_body` of `component_call_graph.py`).

A member is recorded as written when a reference to it starts in the range
of the first operand of an expression that writes (`mem_fieldsWritten_iff`).
That is more than what the body mutates: it includes what only stands in a
subscript of the operand, or in an expression whose text contains `++`, and
what is selected from the result of the expression (`Stray`).
`onlyMutatedWritten_iff` says when none of these shows.

A body is a tree laid out in the text of its file, as libclang gives the
extents of its cursors.
-/
import FprimeTopologyAnalysis.CallGraph
import FprimeTopologyAnalysis.Library.Layout
import FprimeTopologyAnalysis.OperatorText

namespace FprimeTopologyAnalysis

open Library Library.Layout

/-! ## Cursors -/

/-- The operators of a unary expression. -/
inductive UnaryOp where
  | preIncrement
  | preDecrement
  | postIncrement
  | postDecrement
  | plus
  | minus
  | deref
  | addressOf
  | logicalNot
  | bitNot
  deriving DecidableEq

/-- The declaration of a field, by the class that owns it and its type. -/
structure FieldDecl where
  owner : Option String
  typeName : String
  deriving DecidableEq

/-- A member reference: its spelling, the field it refers to, if it refers to
a field, and whether it goes through a pointer. -/
structure MemberRef where
  spelling : String
  field : Option FieldDecl
  arrow : Bool
  deriving DecidableEq

/-- The kinds of function a call can refer to. -/
inductive CalleeKind where
  | cxxMethod (isConst : Bool)
  | functionTemplate
  | constructor
  | other
  deriving DecidableEq

/-- The function a call refers to, with its key, if a class has it. -/
structure Callee where
  kind : CalleeKind
  key : Option MethodKey
  spelling : String
  deriving DecidableEq

/-- A cursor of a body. -/
inductive ExprKind where
  | memberRef (ref : MemberRef)
  | binary (op : BinaryOp)
  | compoundAssign
  | unary (op : UnaryOp)
  | call (spelling : String) (referenced : Option Callee)
  | subscript (ofPointer : Bool)
  | paren
  | cast
  | conditional
  | other
  deriving DecidableEq

/-- The `extent` of a cursor. -/
def extentOf (node : Placed ExprKind) : Extent := ⟨node.start, node.stop⟩

/-! ## Scanning -/

/-- The text after a prefix. -/
def withoutPrefix (start name : String) : Option String :=
  if Text.startsWith name start then some (Text.dropChars name start.length) else none

/-- A match of `OUTPUT_PORT_MEMBER_RE`. -/
def outputPortMember (name : String) : Option String :=
  (withoutPrefix "m_" name).bind (matchSuffix "_OutputPort")

/-- A match of `OUTPUT_INVOKER_RE`. -/
def outputInvoker (name : String) : Option String := matchSuffix "_out" name

/-- A match of `IS_CONNECTED_RE`. -/
def isConnectedGuard (name : String) : Option String :=
  (withoutPrefix "isConnected_" name).bind (matchSuffix "_OutputPort")

/-- A severity as short as can be, with an event after it. -/
def severityOf (chars : List Char) : Option String :=
  (List.range chars.length).findSome? fun n =>
    let front := chars.take n
    match chars.drop n with
    | '_' :: event =>
      if front ≠ [] ∧ front.all (fun c => c.isUpper || c = '_') ∧ event ≠ []
          ∧ event.all wordChar then
        some (String.ofList front)
      else none
    | _ => none

/-- A match of `EVENT_HELPER_RE`. -/
def eventHelper (name : String) : Option String :=
  (withoutPrefix "log_" name).bind fun rest => severityOf rest.toList

/-- `LOCK_TYPE_MARKERS`. -/
def lockTypeMarkers : List String := ["Mutex", "ScopeLock", "Semaphore", "SpinLock"]

/-- `_scan_member_ref`: what it records, and the member it returns. -/
def scanMemberRef (ref : MemberRef) (info : MethodInfo) : MethodInfo × Option String :=
  match outputPortMember ref.spelling with
  | some port => ({ info with ports := insert port info.ports }, none)
  | none =>
    match ref.field with
    | some ⟨some owner, typeName⟩ =>
      if owner = "" then (info, none)
      else
        let qualified := owner ++ "::" ++ ref.spelling
        if lockTypeMarkers.any fun marker => Text.contains typeName marker then
          ({ info with locksTouched := insert qualified info.locksTouched }, none)
        else (info, some qualified)
    | _ => (info, none)

/-- The member a cursor refers to, when it is an ordinary field. -/
def memberOf (node : Placed ExprKind) : Option String :=
  match node.label with
  | .memberRef ref => (scanMemberRef ref {}).2
  | _ => none

/-- `_scan_call`. -/
def scanCall (spelling : String) (referenced : Option Callee) (info : MethodInfo) : MethodInfo :=
  match referenced with
  | none => if spelling = "" then info else { info with isOpaque := true }
  | some ⟨.other, _, _⟩ => info
  | some ⟨_, none, _⟩ => info
  | some ⟨_, some key, name⟩ =>
    { info with
      calls := insert key info.calls
      ports := info.ports ∪ (outputInvoker name).toFinset
      guardedPorts := info.guardedPorts ∪ (isConnectedGuard name).toFinset
      eventSeverities := info.eventSeverities ∪ (eventHelper name).toFinset }

/-- `_writes_first_operand`. -/
def writesFirstOperand (source : Option String) (node : Placed ExprKind) : Bool :=
  match node.label with
  | .compoundAssign => true
  | .binary _ => isAssignment source (node.children.map extentOf)
  | .unary _ => isIncrement source (extentOf node)
  | .call _ (some ⟨.cxxMethod isConst, _, _⟩) => !isConst
  | _ => false

/-- The range a node adds to `write_ranges`. -/
def writeRange (source : Option String) (node : Placed ExprKind) : Option Extent :=
  match node.children with
  | [] => none
  | first :: _ => if writesFirstOperand source node then some (extentOf first) else none

/-- The variables of `_scan_body`. -/
structure ScanState where
  info : MethodInfo
  writeRanges : List Extent
  memberRefs : List (Nat × String)

/-- The body of its first loop. -/
def scanNode (source : Option String) (s : ScanState) (node : Placed ExprKind) : ScanState :=
  let s := { s with writeRanges := s.writeRanges ++ (writeRange source node).toList }
  match node.label with
  | .memberRef ref =>
    let r := scanMemberRef ref s.info
    { s with
      info := r.1
      memberRefs := s.memberRefs ++ (r.2.map fun member => ((extentOf node).start, member)).toList }
  | .call spelling referenced => { s with info := scanCall spelling referenced s.info }
  | _ => s

/-- The offset falls inside one of the ranges. -/
def inRanges (ranges : List Extent) (offset : Nat) : Bool :=
  ranges.any fun range => range.start ≤ offset ∧ offset < range.stop

/-- The body of its second loop. -/
def recordRef (writeRanges : List Extent) (info : MethodInfo) (ref : Nat × String) : MethodInfo :=
  if inRanges writeRanges ref.1 then
    { info with fieldsWritten := insert ref.2 info.fieldsWritten }
  else { info with fieldsRead := insert ref.2 info.fieldsRead }

/-- `_scan_body`: what it adds to the record of the method. -/
def scanBody (source : Option String) (body : Placed ExprKind) : MethodInfo :=
  let s := body.preorder.foldl (scanNode source) ⟨{}, [], []⟩
  s.memberRefs.foldl (recordRef s.writeRanges) s.info

/-! ## What a body mutates -/

mutual

/-- The references on the way to the object that an expression names: to the
object itself, and to the objects that contain it. What a pointer leads to
is contained in nothing named. -/
def objectPath (before : String) : TextTree ExprKind → List (Placed ExprKind)
  | .node kind lead children =>
    let paths := objectPaths (before ++ lead) children
    let first := paths.head?.getD []
    match kind with
    | .memberRef ref => ⟨before, .node kind lead children⟩ :: if ref.arrow then [] else first
    | .subscript ofPointer => if ofPointer then [] else first
    | .paren => first
    | .cast => paths.getLast?.getD []
    | .conditional => paths.tail.flatten
    | .compoundAssign => first
    | .binary .assign => first
    | .binary .memberPointer => first
    | .binary .comma => paths.tail.flatten
    | .unary .preIncrement => first
    | .unary .preDecrement => first
    | _ => []

def objectPaths (before : String) : TextForest ExprKind → List (List (Placed ExprKind))
  | .nil => []
  | .cons child trail rest =>
    objectPath before child :: objectPaths (before ++ child.text ++ trail) rest

end

/-- The expression mutates the object its first operand names: it assigns,
increments or decrements, or calls a method that is not `const`. -/
def ExprKind.mutates : ExprKind → Bool
  | .compoundAssign => true
  | .binary op => op = .assign
  | .unary op => op ∈ [.preIncrement, .preDecrement, .postIncrement, .postDecrement]
  | .call _ (some ⟨.cxxMethod isConst, _, _⟩) => !isConst
  | _ => false

/-- The references on the way to what a node mutates. -/
def mutatedRefs (node : Placed ExprKind) : List (Placed ExprKind) :=
  match node.children with
  | [] => []
  | first :: _ => if node.label.mutates then objectPath first.before first.tree else []

/-- The body of a method in its file. A reference to a member is written
out. -/
structure BodyText where
  before : String
  tree : TextTree ExprKind
  after : String
  written : ∀ node ∈ tree.preorder before, (memberOf node).isSome → node.tree.text ≠ ""

namespace BodyText

/-- The file. -/
def content (b : BodyText) : String := b.before ++ b.tree.text ++ b.after

def source (b : BodyText) : Option String := some (sourceText (some b.content))

/-- The cursor of the method. -/
def root (b : BodyText) : Placed ExprKind := ⟨b.before, b.tree⟩

/-- `_scan_body` of the method. -/
def scanned (b : BodyText) : MethodInfo := scanBody b.source b.root

/-- The body refers to a member. -/
def Refers (b : BodyText) (member : String) : Prop :=
  ∃ node ∈ b.root.preorder, memberOf node = some member

/-- An expression of the body mutates the member, or what it contains. -/
def Mutates (b : BodyText) (member : String) : Prop :=
  ∃ node ∈ b.root.preorder, ∃ ref ∈ mutatedRefs node, memberOf ref = some member

instance (b : BodyText) (member : String) : Decidable (b.Mutates member) :=
  inferInstanceAs (Decidable (∃ node ∈ b.root.preorder, ∃ ref ∈ mutatedRefs node,
    memberOf ref = some member))

/-- Only what is mutated is recorded as written, and every other member that
the body refers to as read. -/
structure OnlyMutatedWritten (b : BodyText) : Prop where
  written : ∀ member ∈ b.scanned.fieldsWritten, b.Mutates member
  read : ∀ member, b.Refers member → ¬ b.Mutates member → member ∈ b.scanned.fieldsRead

/-- The text of the file from one offset to another, as it is read. -/
def textBetween (b : BodyText) (start stop : Nat) : String :=
  pySlice (sourceText (some b.content)) start stop

/-- An expression is taken to write to its first operand: by its kind, by the
text between its operands, or by its own text. -/
def TakenToWrite (b : BodyText) (node : Placed ExprKind) : Prop :=
  match node.label with
  | .compoundAssign => True
  | .binary _ => ∃ left right rest, node.children = left :: right :: rest
      ∧ readsAsAssignment (b.textBetween left.stop right.start) = true
  | .unary _ => ∃ token ∈ incrementTokens,
      Text.contains (b.textBetween node.start node.stop) token = true
  | .call _ referenced => ∃ callee ∈ referenced, callee.kind = .cxxMethod false
  | _ => False

/-- The tree alone tells that an expression is taken to write. -/
def WritesByText : TextTree ExprKind → Prop
  | .node .compoundAssign _ _ => True
  | .node (.binary _) _ (.cons _ between (.cons _ _ _)) => readsAsAssignment between = true
  | .node (.unary op) lead children => ∃ token ∈ incrementTokens,
      Text.contains (TextTree.node (.unary op) lead children).text token = true
  | .node (.call _ referenced) _ _ => ∃ callee ∈ referenced, callee.kind = .cxxMethod false
  | _ => False

/-- A member is referred to in the first operand of an expression that is
taken to write, off the way to what it mutates, if it does; or by an access
around that operand that starts where it starts. -/
def Stray (b : BodyText) (member : String) : Prop :=
  ∃ node ∈ b.root.preorder, ∃ first rest, node.children = first :: rest
    ∧ b.TakenToWrite node
    ∧ ∃ ref ∈ b.root.preorder, memberOf ref = some member
      ∧ (ref ∈ first.preorder ∧ ref ∉ mutatedRefs node
        ∨ first ∈ ref.preorder ∧ ref ∉ first.preorder ∧ ref.start = first.start
          ∧ first.tree.text ≠ "")

end BodyText

/-! ## What is recorded -/

/-- What `_scan_member_ref` returns does not depend on the record, and it
leaves the fields and the severities of the record as they are. -/
theorem scanMemberRef_spec (ref : MemberRef) (info : MethodInfo) :
    (scanMemberRef ref info).2 = (scanMemberRef ref {}).2
      ∧ (scanMemberRef ref info).1.fieldsWritten = info.fieldsWritten
      ∧ (scanMemberRef ref info).1.fieldsRead = info.fieldsRead
      ∧ (scanMemberRef ref info).1.eventSeverities = info.eventSeverities := by
  unfold scanMemberRef
  cases outputPortMember ref.spelling with
  | some port => simp
  | none =>
    rcases ref.field with _ | ⟨_ | owner, typeName⟩
    · simp
    · simp
    · dsimp only
      split
      · simp
      · split <;> simp

/-- So does `_scan_call`. -/
theorem scanCall_fields (spelling : String) (referenced : Option Callee) (info : MethodInfo) :
    (scanCall spelling referenced info).fieldsWritten = info.fieldsWritten
      ∧ (scanCall spelling referenced info).fieldsRead = info.fieldsRead := by
  unfold scanCall
  split
  · split <;> exact ⟨rfl, rfl⟩
  · exact ⟨rfl, rfl⟩
  · exact ⟨rfl, rfl⟩
  · exact ⟨rfl, rfl⟩

/-- A reference to a member, as it is stored. -/
def refAt (node : Placed ExprKind) : Option (Nat × String) :=
  (memberOf node).map fun member => (node.start, member)

/-- What one node adds. -/
theorem scanNode_spec (source : Option String) (s : ScanState) (node : Placed ExprKind) :
    (scanNode source s node).writeRanges = s.writeRanges ++ (writeRange source node).toList
      ∧ (scanNode source s node).memberRefs = s.memberRefs ++ (refAt node).toList
      ∧ (scanNode source s node).info.fieldsWritten = s.info.fieldsWritten
      ∧ (scanNode source s node).info.fieldsRead = s.info.fieldsRead := by
  unfold scanNode refAt memberOf
  cases node.label with
  | memberRef ref =>
    obtain ⟨hmember, hwritten, hread, _⟩ := scanMemberRef_spec ref s.info
    simp [hmember, extentOf, hwritten, hread]
  | call spelling referenced =>
    obtain ⟨hwritten, hread⟩ := scanCall_fields spelling referenced s.info
    simp [hwritten, hread]
  | _ => simp

/-- What the first loop collects. -/
theorem foldl_scanNode (source : Option String) (nodes : List (Placed ExprKind)) :
    ∀ s : ScanState,
      (nodes.foldl (scanNode source) s).writeRanges
          = s.writeRanges ++ nodes.filterMap (writeRange source)
        ∧ (nodes.foldl (scanNode source) s).memberRefs = s.memberRefs ++ nodes.filterMap refAt
        ∧ (nodes.foldl (scanNode source) s).info.fieldsWritten = s.info.fieldsWritten
        ∧ (nodes.foldl (scanNode source) s).info.fieldsRead = s.info.fieldsRead := by
  induction nodes with
  | nil => simp
  | cons node nodes ih =>
    intro s
    obtain ⟨hranges, hrefs, hwritten, hread⟩ := ih (scanNode source s node)
    obtain ⟨hranges', hrefs', hwritten', hread'⟩ := scanNode_spec source s node
    refine ⟨?_, ?_, hwritten.trans hwritten', hread.trans hread'⟩
    · rw [List.foldl_cons, hranges, hranges', List.append_assoc, List.filterMap_cons]
      cases writeRange source node <;> rfl
    · rw [List.foldl_cons, hrefs, hrefs', List.append_assoc, List.filterMap_cons]
      cases refAt node <;> rfl

/-- What the second loop makes of the references. -/
theorem foldl_recordRef (ranges : List Extent) (refs : List (Nat × String)) :
    ∀ info : MethodInfo,
      (refs.foldl (recordRef ranges) info).fieldsWritten
          = info.fieldsWritten
            ∪ ((refs.filter fun ref => inRanges ranges ref.1).map Prod.snd).toFinset
        ∧ (refs.foldl (recordRef ranges) info).fieldsRead
          = info.fieldsRead
            ∪ ((refs.filter fun ref => !inRanges ranges ref.1).map Prod.snd).toFinset := by
  induction refs with
  | nil => simp
  | cons ref refs ih =>
    intro info
    obtain ⟨hwritten, hread⟩ := ih (recordRef ranges info ref)
    rw [List.foldl_cons, hwritten, hread]
    unfold recordRef
    cases hrange : inRanges ranges ref.1 <;> simp [hrange]

namespace BodyText

/-- A reference starts in the first operand of an expression that is taken to
write: it is within the operand, or around it from the same start. -/
def Covered (b : BodyText) (ref : Placed ExprKind) : Prop :=
  ∃ node ∈ b.root.preorder, ∃ first rest, node.children = first :: rest
    ∧ b.TakenToWrite node
    ∧ (ref ∈ first.preorder
      ∨ first ∈ ref.preorder ∧ ref.start = first.start ∧ first.tree.text ≠ "")

/-- What `_writes_first_operand` tells is what is taken to write. -/
theorem writesFirstOperand_iff (b : BodyText) (node : Placed ExprKind) :
    writesFirstOperand b.source node = true ↔ b.TakenToWrite node := by
  unfold writesFirstOperand TakenToWrite
  cases node.label with
  | binary op =>
    dsimp only
    cases hchildren : node.children with
    | nil => simp [isAssignment, source]
    | cons left rest =>
      cases rest with
      | nil => simp [isAssignment, source]
      | cons right rest =>
        rw [List.map_cons, List.map_cons, source, isAssignment_operands]
        constructor
        · exact fun h => ⟨left, right, rest, rfl, h⟩
        · rintro ⟨_, _, _, heq, h⟩
          cases heq
          exact h
  | unary op =>
    dsimp only
    rw [source, isIncrement_text, List.any_eq_true]
    exact Iff.rfl
  | call spelling referenced =>
    rcases referenced with _ | ⟨_ | _ | _ | _, key, name⟩ <;> simp
  | _ => simp

/-- **In a file of ASCII without `\r` the tree tells** what is taken to write. -/
theorem takenToWrite_iff_writesByText (b : BodyText)
    (hascii : ∀ c ∈ b.content.toList, c.toNat < 128) (hcr : '\r' ∉ b.content.toList)
    {node : Placed ExprKind} (hnode : node ∈ b.root.preorder) :
    b.TakenToWrite node ↔ WritesByText node.tree := by
  have hslice : ∀ pre mid post : String, b.content = pre ++ mid ++ post →
      b.textBetween pre.utf8ByteSize (pre ++ mid).utf8ByteSize = mid := by
    intro pre mid post hcontent
    rw [textBetween, hcontent]
    rw [hcontent] at hascii hcr
    exact pySlice_sourceText hascii hcr
  obtain ⟨after, hafter⟩ := Placed.exists_after hnode
  have hcontent : b.content = node.before ++ node.tree.text ++ (after ++ b.after) := by
    rw [← String.append_assoc, ← hafter]
    rfl
  obtain ⟨before, kind, lead, children⟩ := node
  cases kind with
  | compoundAssign => exact Iff.rfl
  | call spelling referenced => exact Iff.rfl
  | unary op =>
    have htext := hslice before (TextTree.node (.unary op) lead children).text _ hcontent
    simp only [TakenToWrite, WritesByText, Placed.label]
    exact exists_congr fun token => and_congr_right fun _ => by rw [← htext]; rfl
  | binary op =>
    rcases children with _ | ⟨left, between, _ | ⟨right, trail, rest⟩⟩
    · simp [TakenToWrite, WritesByText, Placed.label, Placed.children, TextForest.placed]
    · simp [TakenToWrite, WritesByText, Placed.label, Placed.children, TextForest.placed]
    · have htext := hslice (before ++ lead ++ left.text) between
        (right.text ++ (trail ++ rest.text) ++ (after ++ b.after)) (by
          rw [hcontent]
          simp only [TextTree.text, TextForest.text, String.append_assoc])
      simp only [TakenToWrite, WritesByText, Placed.label, Placed.children, TextForest.placed,
        List.cons.injEq, exists_and_right]
      constructor
      · rintro ⟨_, _, ⟨_, rfl, rfl, _⟩, hreads⟩
        rwa [← htext]
      · intro hreads
        refine ⟨_, _, ⟨_, rfl, rfl, rfl⟩, ?_⟩
        rwa [← htext] at hreads
  | _ => exact Iff.rfl

/-- The ranges cover the references they should. -/
theorem inRanges_iff (b : BodyText) {ref : Placed ExprKind} (href : ref ∈ b.root.preorder)
    (hmember : (memberOf ref).isSome) :
    inRanges (b.root.preorder.filterMap (writeRange b.source)) ref.start = true
      ↔ b.Covered ref := by
  have hrange : ∀ node range, writeRange b.source node = some range ↔
      ∃ first rest, node.children = first :: rest ∧ b.TakenToWrite node
        ∧ extentOf first = range := by
    intro node range
    rw [← b.writesFirstOperand_iff]
    unfold writeRange
    cases node.children with
    | nil => simp
    | cons first rest =>
      simp only [Option.ite_none_right_eq_some, Option.some.injEq, List.cons.injEq]
      constructor
      · rintro ⟨hwrites, hextent⟩
        exact ⟨first, rest, ⟨rfl, rfl⟩, hwrites, hextent⟩
      · rintro ⟨_, _, ⟨rfl, rfl⟩, hwrites, hextent⟩
        exact ⟨hwrites, hextent⟩
  simp only [inRanges, List.any_eq_true, List.mem_filterMap, hrange, decide_eq_true_eq]
  constructor
  · rintro ⟨_, ⟨node, hnode, first, rest, hchildren, hwrites, rfl⟩, hstart⟩
    have hfirst : first ∈ b.root.preorder :=
      mem_preorder_of_mem_children hnode (hchildren ▸ List.mem_cons_self ..)
    exact ⟨node, hnode, first, rest, hchildren, hwrites,
      (start_mem_range_iff hfirst href (b.written ref href hmember)).mp hstart⟩
  · rintro ⟨node, hnode, first, rest, hchildren, hwrites, hcovered⟩
    have hfirst : first ∈ b.root.preorder :=
      mem_preorder_of_mem_children hnode (hchildren ▸ List.mem_cons_self ..)
    exact ⟨extentOf first, ⟨node, hnode, first, rest, hchildren, hwrites, rfl⟩,
      (start_mem_range_iff hfirst href (b.written ref href hmember)).mpr hcovered⟩

/-- **What is recorded as written**, and what as read. -/
theorem mem_fields_iff (b : BodyText) (member : String) :
    (member ∈ b.scanned.fieldsWritten
        ↔ ∃ ref ∈ b.root.preorder, memberOf ref = some member ∧ b.Covered ref)
      ∧ (member ∈ b.scanned.fieldsRead
        ↔ ∃ ref ∈ b.root.preorder, memberOf ref = some member ∧ ¬ b.Covered ref) := by
  obtain ⟨hranges, hrefs, hwritten, hread⟩ :=
    foldl_scanNode b.source b.root.preorder ⟨{}, [], []⟩
  have hstored : ∀ offset, (offset, member) ∈ b.root.preorder.filterMap refAt
      ↔ ∃ ref ∈ b.root.preorder, memberOf ref = some member ∧ ref.start = offset := by
    intro offset
    simp only [refAt, List.mem_filterMap, Option.map_eq_some_iff, Prod.mk.injEq]
    constructor
    · rintro ⟨ref, href, _, hmember, hstart, rfl⟩
      exact ⟨ref, href, hmember, hstart⟩
    · rintro ⟨ref, href, hmember, hstart⟩
      exact ⟨ref, href, member, hmember, hstart, rfl⟩
  unfold scanned scanBody
  rw [(foldl_recordRef _ _ _).1, (foldl_recordRef _ _ _).2, hranges, hrefs, hwritten, hread]
  simp only [List.nil_append, Finset.empty_union, List.mem_toFinset, List.mem_map,
    List.mem_filter, Prod.exists, exists_eq_right, hstored, Bool.not_eq_true']
  constructor
  · constructor
    · rintro ⟨_, ⟨ref, href, hmember, rfl⟩, hin⟩
      exact ⟨ref, href, hmember, (b.inRanges_iff href (by simp [hmember])).mp hin⟩
    · rintro ⟨ref, href, hmember, hcovered⟩
      exact ⟨ref.start, ⟨ref, href, hmember, rfl⟩,
        (b.inRanges_iff href (by simp [hmember])).mpr hcovered⟩
  · constructor
    · rintro ⟨_, ⟨ref, href, hmember, rfl⟩, hout⟩
      refine ⟨ref, href, hmember, fun hcovered => ?_⟩
      rw [(b.inRanges_iff href (by simp [hmember])).mpr hcovered] at hout
      cases hout
    · rintro ⟨ref, href, hmember, hcovered⟩
      refine ⟨ref.start, ⟨ref, href, hmember, rfl⟩, Bool.eq_false_iff.mpr fun hin => ?_⟩
      exact hcovered ((b.inRanges_iff href (by simp [hmember])).mp hin)

end BodyText

/-- **When only what is mutated is recorded as written**: exactly when every
stray member is mutated as well. -/
theorem onlyMutatedWritten_iff (b : BodyText) :
    b.OnlyMutatedWritten ↔ ∀ member, b.Stray member → b.Mutates member := by
  constructor
  · intro h member hstray
    obtain ⟨node, hnode, first, rest, hchildren, hwrites, ref, href, hmember, hwhere⟩ := hstray
    refine h.written member (((b.mem_fields_iff member).1).mpr ⟨ref, href, hmember, ?_⟩)
    rcases hwhere with ⟨hin, _⟩ | ⟨hout, _, hsame, htext⟩
    · exact ⟨node, hnode, first, rest, hchildren, hwrites, .inl hin⟩
    · exact ⟨node, hnode, first, rest, hchildren, hwrites, .inr ⟨hout, hsame, htext⟩⟩
  · intro h
    have hwritten : ∀ member ∈ b.scanned.fieldsWritten, b.Mutates member := by
      intro member hmem
      obtain ⟨ref, href, hmember, node, hnode, first, rest, hchildren, hwrites, hcovered⟩ :=
        ((b.mem_fields_iff member).1).mp hmem
      by_cases hmutated : ref ∈ mutatedRefs node
      · exact ⟨node, hnode, ref, hmutated, hmember⟩
      · refine h member ⟨node, hnode, first, rest, hchildren, hwrites, ref, href, hmember, ?_⟩
        by_cases hin : ref ∈ first.preorder
        · exact .inl ⟨hin, hmutated⟩
        · obtain ⟨hout, hsame, htext⟩ := hcovered.resolve_left hin
          exact .inr ⟨hout, hin, hsame, htext⟩
    refine ⟨hwritten, fun member hrefers hnot => ?_⟩
    obtain ⟨ref, href, hmember⟩ := hrefers
    refine ((b.mem_fields_iff member).2).mpr ⟨ref, href, hmember, fun hcovered => hnot ?_⟩
    exact hwritten member (((b.mem_fields_iff member).1).mpr ⟨ref, href, hmember, hcovered⟩)

/-- A reference to a field of the class `C` by its name alone. -/
def fieldRef (name : String) : TextTree ExprKind :=
  .node (.memberRef ⟨name, some ⟨some "C", "U32"⟩, false⟩) name .nil

/-- `m_log[m_next] = 1`. -/
def storeElement : TextTree ExprKind :=
  .node (.binary .assign) ""
    (.cons (.node (.subscript false) ""
        (.cons (fieldRef "m_log") "[" (.cons (fieldRef "m_next") "]" .nil))) " = "
      (.cons (.node .other "1" .nil) "" .nil))

/-- A body that stores at an index. -/
def storeBody : BodyText where
  before := "void C::in_handler() \x7b "
  tree := storeElement
  after := "; \x7d"
  written := by decide

/-- The index is recorded as written. -/
theorem onlyMutatedWritten_fails_store : ¬ storeBody.OnlyMutatedWritten := by
  intro h
  have hmutates := h.written "C::m_next" (by decide)
  exact absurd hmutates (by decide)

end FprimeTopologyAnalysis
