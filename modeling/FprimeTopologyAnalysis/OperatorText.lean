/-
FprimeTopologyAnalysis.OperatorText — telling an assignment by the text
between its operands (`_source_text`, `_is_assignment` and `_is_increment`
of `component_call_graph.py`).

libclang counts the bytes of the file and `_source_text` decodes it, so the
slice of a binary expression starts too far to the right by the surplus of
what precedes it (`isAssignment_displaced`), and ends too far by that of the
blanks around the operator as well. `isAssignment_right_iff` says for which
texts before the right operand the answer is right whatever follows: one
character more at its end never makes a comparison or an assignment, two may,
and the operator must not have been passed at its start.
-/
import FprimeTopologyAnalysis.Library.Decoding
import FprimeTopologyAnalysis.Library.Text

namespace FprimeTopologyAnalysis

open Library

/-! ## Reading operators -/

/-- `text[start:stop]`. -/
def pySlice (text : String) (start stop : Nat) : String :=
  String.ofList ((text.toList.drop start).take (stop - start))

/-- `_source_text`, of a file that may not be there to read. -/
def sourceText (file : Option String) : String :=
  match file with
  | none => ""
  | some content => String.ofList (Decoding.universalNewlines content.toList)

/-- A cursor's `extent`, in offsets. -/
structure Extent where
  start : Nat
  stop : Nat
  deriving DecidableEq

/-- `NON_ASSIGN_OPERATORS`. -/
def nonAssignOperators : List String := ["==", "!=", "<=", ">="]

/-- `ASSIGN_TOKEN`. -/
def assignToken : String := "="

/-- `INCREMENT_TOKENS`. -/
def incrementTokens : List String := ["++", "--"]

/-- The text between the operands assigns. -/
def readsAsAssignment (between : String) : Bool :=
  if nonAssignOperators.any fun op => Text.contains between op then false
  else Text.contains between assignToken

/-- `_is_assignment`, by the text of the file the cursor is in, if any, and
the extents of its children. -/
def isAssignment (source : Option String) (children : List Extent) : Bool :=
  match source, children with
  | some source, left :: right :: _ =>
    if source = "" then false else readsAsAssignment (pySlice source left.stop right.start)
  | _, _ => false

/-- `_is_increment`. -/
def isIncrement (source : Option String) (extent : Extent) : Bool :=
  match source with
  | some source =>
    if source = "" then false
    else incrementTokens.any fun token =>
      Text.contains (pySlice source extent.start extent.stop) token
  | none => false

theorem pySlice_empty (start stop : Nat) : pySlice "" start stop = "" := by
  simp [pySlice]

/-- The text between the operands decides; that of an empty file has none. -/
theorem isAssignment_operands (source : String) (left right : Extent) (rest : List Extent) :
    isAssignment (some source) (left :: right :: rest)
      = readsAsAssignment (pySlice source left.stop right.start) := by
  show (if source = "" then false else _) = _
  split
  · rename_i hempty
    rw [hempty, pySlice_empty]
    decide
  · rfl

theorem isIncrement_text (source : String) (extent : Extent) :
    isIncrement (some source) extent = incrementTokens.any fun token =>
      Text.contains (pySlice source extent.start extent.stop) token := by
  show (if source = "" then false else _) = _
  split
  · rename_i hempty
    rw [hempty, pySlice_empty]
    decide
  · rfl

/-- In ASCII without `\r` a slice at byte offsets is the text that stands
there. -/
theorem pySlice_sourceText {pre mid post : String}
    (hascii : ∀ c ∈ (pre ++ mid ++ post).toList, c.toNat < 128)
    (hcr : '\r' ∉ (pre ++ mid ++ post).toList) :
    pySlice (sourceText (some (pre ++ mid ++ post))) pre.utf8ByteSize (pre ++ mid).utf8ByteSize
      = mid := by
  have hbytes : ∀ s : String, s.toList ⊆ (pre ++ mid ++ post).toList →
      s.utf8ByteSize = s.toList.length := by
    intro s hs
    rw [← String.utf8Len_toList]
    exact Decoding.utf8Len_eq_length (fun c hc => hascii c (hs hc)) fun h => hcr (hs h)
  have hpre : pre.utf8ByteSize = pre.toList.length := hbytes pre fun c hc => by simp [hc]
  have hmid : mid.utf8ByteSize = mid.toList.length := hbytes mid fun c hc => by simp [hc]
  rw [pySlice, sourceText, String.toList_ofList, Decoding.universalNewlines_eq_self hcr,
    String.utf8ByteSize_append, Nat.add_sub_cancel_left, hpre, hmid, String.toList_append,
    String.toList_append, List.append_assoc, List.drop_left, List.take_left, String.ofList_toList]

/-! ## Binary expressions of a file -/

/-- The operators of a binary expression. -/
inductive BinaryOp where
  | assign
  | eq
  | ne
  | lt
  | gt
  | le
  | ge
  | compare
  | add
  | sub
  | mul
  | div
  | rem
  | shl
  | shr
  | bitAnd
  | bitOr
  | bitXor
  | logicalAnd
  | logicalOr
  | comma
  | memberPointer
  | arrowPointer
  deriving DecidableEq

def BinaryOp.text : BinaryOp → String
  | .assign => "="
  | .eq => "=="
  | .ne => "!="
  | .lt => "<"
  | .gt => ">"
  | .le => "<="
  | .ge => ">="
  | .compare => "<=>"
  | .add => "+"
  | .sub => "-"
  | .mul => "*"
  | .div => "/"
  | .rem => "%"
  | .shl => "<<"
  | .shr => ">>"
  | .bitAnd => "&"
  | .bitOr => "|"
  | .bitXor => "^"
  | .logicalAnd => "&&"
  | .logicalOr => "||"
  | .comma => ","
  | .memberPointer => ".*"
  | .arrowPointer => "->*"

/-- The blanks of C++. -/
def isBlank (c : Char) : Bool := c ∈ [' ', '\t', '\n', '\r', '\x0b', '\x0c']

/-- A text of blanks. -/
structure Blanks where
  text : String
  blank : text.toList.all isBlank = true

/-- The text of an operand: it starts and ends in a token, and no operand
starts in `=`. -/
structure Operand where
  text : String
  starts : text.toList.head?.any (fun c => !isBlank c && c ≠ '=') = true
  ends : text.toList.getLast?.any (fun c => !isBlank c) = true

/-- A binary expression of a file, with all that stands before and after it. -/
structure BinaryExpr where
  before : String
  left : Operand
  gapLeft : Blanks
  op : BinaryOp
  gapRight : Blanks
  right : Operand
  after : String

namespace BinaryExpr

/-- The text up to the end of the left operand. -/
def upToLeft (e : BinaryExpr) : String := e.before ++ e.left.text

/-- The text between the operands. -/
def between (e : BinaryExpr) : String := e.gapLeft.text ++ e.op.text ++ e.gapRight.text

/-- The text from the right operand on. -/
def fromRight (e : BinaryExpr) : String := e.right.text ++ e.after

/-- The file. -/
def content (e : BinaryExpr) : String := e.upToLeft ++ (e.between ++ e.fromRight)

/-- What libclang reports of the operands: the bytes before and up to them. -/
def children (e : BinaryExpr) : List Extent :=
  [⟨e.before.utf8ByteSize, e.upToLeft.utf8ByteSize⟩,
    ⟨(e.upToLeft ++ e.between).utf8ByteSize,
      (e.upToLeft ++ e.between ++ e.right.text).utf8ByteSize⟩]

/-- `_is_assignment` of the expression. -/
def isAssignment (e : BinaryExpr) : Bool :=
  FprimeTopologyAnalysis.isAssignment (some (sourceText (some e.content))) e.children

/-- What stands in the file after the left operand, further on by as many
characters as the bytes up to there are more than the characters; of it as
many characters as there are bytes between the operands. -/
def displaced (e : BinaryExpr) : String :=
  String.ofList (((Decoding.universalNewlines (e.between ++ e.fromRight).toList).drop
    (Decoding.surplus e.upToLeft.toList)).take e.between.utf8ByteSize)

end BinaryExpr

/-! ## What is read -/

theorem apart_of_blank_boundary {xs ys : List Char}
    (h : xs.getLast?.any (fun c => !isBlank c) = true ∨ ys.head?.any (fun c => !isBlank c) = true) :
    Decoding.Apart xs ys := by
  rintro ⟨hxs, hys⟩
  rw [hxs, hys] at h
  exact absurd h (by decide)

namespace BinaryExpr

variable (e : BinaryExpr)

theorem getLast?_upToLeft :
    e.upToLeft.toList.getLast?.any (fun c => !isBlank c) = true := by
  have hends := e.left.ends
  cases hlast : e.left.text.toList.getLast? with
  | none => simp [hlast] at hends
  | some c => simpa [upToLeft, String.toList_append, List.getLast?_append, hlast] using hends

theorem fromRight_eq_cons :
    ∃ c rest, e.fromRight.toList = c :: rest ∧ isBlank c = false ∧ c ≠ '=' := by
  have hstarts := e.right.starts
  cases htext : e.right.text.toList with
  | nil => simp [htext] at hstarts
  | cons c rest =>
    simp only [htext, List.head?_cons, Option.any_some, Bool.and_eq_true, Bool.not_eq_true',
      decide_eq_true_eq] at hstarts
    exact ⟨c, rest ++ e.after.toList, by simp [fromRight, String.toList_append, htext], hstarts⟩

theorem head?_fromRight : e.fromRight.toList.head?.any (fun c => !isBlank c) = true := by
  obtain ⟨c, rest, htext, hblank, -⟩ := e.fromRight_eq_cons
  simp [htext, hblank]

/-- **The slice is displaced** by the surplus of the text before it. -/
theorem isAssignment_displaced : e.isAssignment = readsAsAssignment e.displaced := by
  have happart : Decoding.Apart e.upToLeft.toList (e.between ++ e.fromRight).toList :=
    apart_of_blank_boundary (.inl e.getLast?_upToLeft)
  have hslice : pySlice (sourceText (some e.content)) e.upToLeft.utf8ByteSize
      (e.upToLeft ++ e.between).utf8ByteSize = e.displaced := by
    rw [pySlice, sourceText, String.toList_ofList, content, String.toList_append,
      ← String.utf8Len_toList e.upToLeft, Decoding.drop_universalNewlines happart,
      String.utf8Len_toList, String.utf8ByteSize_append, Nat.add_sub_cancel_left, displaced]
  rw [isAssignment, children, isAssignment_operands, hslice]

theorem apart_between : Decoding.Apart e.between.toList e.fromRight.toList :=
  apart_of_blank_boundary (.inr e.head?_fromRight)

/-- Decoded, a blank is a blank. -/
theorem isBlank_of_mem_universalNewlines (gap : Blanks) {c : Char}
    (hc : c ∈ Decoding.universalNewlines gap.text.toList) : isBlank c = true := by
  rcases Decoding.mem_universalNewlines hc with hmem | rfl
  · exact List.all_eq_true.mp gap.blank c hmem
  · decide

/-- The blanks before the operator and after it, decoded. -/
def gaps (e : BinaryExpr) : List Char × List Char :=
  (Decoding.universalNewlines e.gapLeft.text.toList,
    Decoding.universalNewlines e.gapRight.text.toList)

/-- The text between the operands, decoded, and its surplus. -/
theorem universalNewlines_between :
    Decoding.universalNewlines e.between.toList = e.gaps.1 ++ e.op.text.toList ++ e.gaps.2
      ∧ Decoding.surplus e.between.toList
        = Decoding.surplus e.gapLeft.text.toList + Decoding.surplus e.gapRight.text.toList := by
  have hop : e.op.text.toList.getLast?.any (fun c => !isBlank c) = true := by
    cases e.op <;> decide
  have hleft : Decoding.Apart e.gapLeft.text.toList e.op.text.toList :=
    apart_of_blank_boundary (.inr (by cases e.op <;> decide))
  have hlast : (e.gapLeft.text.toList ++ e.op.text.toList).getLast?.any (fun c => !isBlank c)
      = true := by
    cases hget : e.op.text.toList.getLast? with
    | none => simp [hget] at hop
    | some c => simpa [List.getLast?_append, hget] using hop
  have hself : Decoding.universalNewlines e.op.text.toList = e.op.text.toList := by
    cases e.op <;> decide
  have hnone : Decoding.surplus e.op.text.toList = 0 := by cases e.op <;> decide
  obtain ⟨htext, hsurplus⟩ := Decoding.universalNewlines_append _ e.gapRight.text.toList
    (apart_of_blank_boundary (.inl hlast))
  obtain ⟨htext', hsurplus'⟩ := Decoding.universalNewlines_append _ _ hleft
  rw [between, String.toList_append, String.toList_append, htext, hsurplus, htext', hsurplus', hself,
    hnone, gaps]
  exact ⟨rfl, by omega⟩

/-- By how many characters the slice starts too far. -/
def early (e : BinaryExpr) : Nat := Decoding.surplus e.upToLeft.toList

/-- By how many characters it ends too far. -/
def late (e : BinaryExpr) : Nat :=
  e.early + (Decoding.surplus e.gapLeft.text.toList + Decoding.surplus e.gapRight.text.toList)

/-- Where the operator is not passed, the slice starts before it and ends so
many characters into the right operand. -/
theorem displaced_eq (h : e.early ≤ e.gaps.1.length) :
    e.displaced.toList = e.gaps.1.drop e.early ++ e.op.text.toList ++ e.gaps.2
      ++ (Decoding.universalNewlines e.fromRight.toList).take e.late := by
  obtain ⟨htext, hsurplus⟩ := e.universalNewlines_between
  have hbytes : e.between.utf8ByteSize
      = (e.gaps.1.drop e.early ++ e.op.text.toList ++ e.gaps.2).length + e.late := by
    rw [← String.utf8Len_toList, ← Decoding.length_universalNewlines, htext, hsurplus, late]
    simp only [List.length_append, List.length_drop]
    omega
  have hdrop : (e.gaps.1 ++ e.op.text.toList ++ e.gaps.2
        ++ Decoding.universalNewlines e.fromRight.toList).drop e.early
      = (e.gaps.1.drop e.early ++ e.op.text.toList ++ e.gaps.2)
        ++ Decoding.universalNewlines e.fromRight.toList := by
    simp only [List.append_assoc, List.drop_append_of_le_length h]
  rw [displaced, String.toList_ofList, String.toList_append,
    (Decoding.universalNewlines_append _ _ e.apart_between).1, htext, ← early, hbytes, hdrop,
    List.take_length_add_append]

/-- Of blanks nothing is read. -/
theorem notMem_of_blanks {cs sub : List Char} (hcs : ∀ c ∈ cs, isBlank c = true)
    (hsub : sub.all (fun c => !isBlank c) = true) : ∀ c ∈ cs, c ∉ sub := by
  intro c hc hmem
  have hnot := List.all_eq_true.mp hsub c hmem
  simp [hcs c hc] at hnot

theorem blank_gaps (n : Nat) :
    (∀ c ∈ e.gaps.1.drop n, isBlank c = true) ∧ ∀ c ∈ e.gaps.2, isBlank c = true :=
  ⟨fun _ hc => isBlank_of_mem_universalNewlines e.gapLeft (List.mem_of_mem_drop hc),
    fun _ hc => isBlank_of_mem_universalNewlines e.gapRight hc⟩

/-- What `readsAsAssignment` looks for. -/
def IsToken (sub : String) : Prop := sub ∈ assignToken :: nonAssignOperators

theorem IsToken.facts {sub : String} (h : IsToken sub) :
    sub.toList ≠ [] ∧ sub.toList.all (fun c => !isBlank c) = true
      ∧ sub.toList.getLast? = some '=' ∧ '"' ∉ sub.toList := by
  simp only [IsToken, nonAssignOperators, assignToken, List.mem_cons, List.not_mem_nil,
    or_false] at h
  rcases h with rfl | rfl | rfl | rfl | rfl <;> decide

/-- Texts in which the same is found read the same. -/
theorem readsAsAssignment_congr {s t : String}
    (h : ∀ sub, IsToken sub → (sub.toList <:+: s.toList ↔ sub.toList <:+: t.toList)) :
    readsAsAssignment s = readsAsAssignment t := by
  have hcontains : ∀ sub, IsToken sub → Text.contains s sub = Text.contains t sub := by
    intro sub hsub
    rw [Bool.eq_iff_iff, Text.contains_iff, Text.contains_iff]
    exact h sub hsub
  have heq := hcontains "==" (by simp [IsToken, nonAssignOperators])
  have hne := hcontains "!=" (by simp [IsToken, nonAssignOperators])
  have hle := hcontains "<=" (by simp [IsToken, nonAssignOperators])
  have hge := hcontains ">=" (by simp [IsToken, nonAssignOperators])
  have hassign := hcontains "=" (by simp [IsToken, assignToken])
  simp [readsAsAssignment, nonAssignOperators, assignToken, heq, hne, hle, hge, hassign]

/-- A character that ends no token adds none. -/
theorem infix_concat_iff_of_ne {text sub : List Char} {c : Char} (hne : sub ≠ [])
    (hlast : sub.getLast? ≠ some c) : sub <:+: text ++ [c] ↔ sub <:+: text := by
  rw [List.infix_concat_iff, List.suffix_concat_iff]
  constructor
  · rintro ((hnil | ⟨t, rfl, -⟩) | h)
    · exact absurd hnil hne
    · exact absurd (by simp) hlast
    · exact h
  · exact .inr

/-- One character of the right operand at most is read, and not past the
operator: then the answer is that of the operator. -/
theorem reads_of_late_le_one (h : e.early ≤ e.gaps.1.length) (hlate : e.late ≤ 1) :
    readsAsAssignment e.displaced = true ↔ e.op = .assign := by
  obtain ⟨c, rest, hright, hblank, hassign⟩ := e.fromRight_eq_cons
  have hcr : c ≠ '\r' := fun hc => by simp [hc, isBlank] at hblank
  have hhead : ∃ more, Decoding.universalNewlines e.fromRight.toList = c :: more := by
    rw [hright, Decoding.universalNewlines.eq_3 c rest fun _ hc => absurd hc hcr, if_neg hcr]
    exact ⟨_, rfl⟩
  obtain ⟨more, hmore⟩ := hhead
  have hreads : readsAsAssignment e.displaced = readsAsAssignment e.op.text := by
    refine readsAsAssignment_congr fun sub hsub => ?_
    obtain ⟨hne, hnot, hlast, -⟩ := hsub.facts
    have hbetween := Text.infix_between_iff hne e.op.text.toList
      (notMem_of_blanks (e.blank_gaps e.early).1 hnot) (notMem_of_blanks (e.blank_gaps 0).2 hnot)
    rw [e.displaced_eq h, hmore]
    rcases Nat.le_one_iff_eq_zero_or_eq_one.mp hlate with hzero | hone
    · rw [hzero, List.take_zero, List.append_nil, hbetween]
    · have hends : sub.toList.getLast? ≠ some c := by
        rw [hlast]
        simpa using hassign.symm
      rw [hone, List.take_succ_cons, List.take_zero, infix_concat_iff_of_ne hne hends, hbetween]
  rw [hreads]
  cases e.op <;> decide

end BinaryExpr

/-! ## Which texts are safe -/

section Safe

variable (before : String) (left : Operand) (gapLeft gapRight : Blanks)

/-- What stands before the right operand shifts the slice by one character at
most, and where that is before the end of the left operand there is a blank
before the operator. -/
def SteadyBefore : Prop :=
  Decoding.surplus (before ++ left.text).toList
      + (Decoding.surplus gapLeft.text.toList + Decoding.surplus gapRight.text.toList) ≤ 1
    ∧ (Decoding.surplus (before ++ left.text).toList = 0 ∨ gapLeft.text ≠ "")

theorem length_gap_pos (gap : Blanks) :
    0 < (Decoding.universalNewlines gap.text.toList).length ↔ gap.text ≠ "" := by
  cases htext : gap.text.toList with
  | nil => simp [Decoding.universalNewlines, String.toList_eq_nil_iff.mp htext]
  | cons c rest =>
    have hne : gap.text ≠ "" := fun h => by simp [h] at htext
    have hlen := Decoding.length_universalNewlines (c :: rest)
    refine ⟨fun _ => hne, fun _ => List.length_pos_iff.mpr ?_⟩
    unfold Decoding.universalNewlines
    split <;> simp_all

/-- Past the operator an assignment is missed. -/
theorem exists_missed
    (h : (Decoding.universalNewlines gapLeft.text.toList).length
      < Decoding.surplus (before ++ left.text).toList) :
    (BinaryExpr.mk before left gapLeft .assign gapRight ⟨"y", by decide, by decide⟩ "").isAssignment
      = false := by
  let e : BinaryExpr := ⟨before, left, gapLeft, .assign, gapRight, ⟨"y", by decide, by decide⟩, ""⟩
  show e.isAssignment = false
  have htext : Decoding.universalNewlines (e.between ++ e.fromRight).toList
      = e.gaps.1 ++ '=' :: (e.gaps.2 ++ ['y']) := by
    rw [String.toList_append, (Decoding.universalNewlines_append _ _ e.apart_between).1,
      e.universalNewlines_between.1]
    simp [e, BinaryOp.text, BinaryExpr.fromRight, Decoding.universalNewlines]
  obtain ⟨n, hn⟩ : ∃ n, Decoding.surplus e.upToLeft.toList = e.gaps.1.length + (n + 1) :=
    Nat.exists_eq_add_of_lt h
  have hnone : ¬ ['='] <:+: e.displaced.toList := by
    rw [BinaryExpr.displaced, String.toList_ofList, htext, hn, ← List.drop_drop, List.drop_left,
      List.drop_succ_cons]
    intro hin
    have hmem := List.mem_of_mem_drop (List.mem_of_mem_take (hin.subset (List.mem_singleton_self _)))
    rcases List.mem_append.mp hmem with hgap | hy
    · exact absurd ((e.blank_gaps 0).2 _ hgap) (by decide)
    · simp at hy
  have hcontains : Text.contains e.displaced assignToken = false := by
    rw [Bool.eq_false_iff, Ne, Text.contains_iff]
    exact hnone
  rw [e.isAssignment_displaced, readsAsAssignment, hcontains]
  split <;> rfl

/-- Two characters of the right operand may be the start of a text in
quotes. -/
theorem exists_taken
    (h : Decoding.surplus (before ++ left.text).toList
      ≤ (Decoding.universalNewlines gapLeft.text.toList).length)
    (hlate : 2 ≤ Decoding.surplus (before ++ left.text).toList
      + (Decoding.surplus gapLeft.text.toList + Decoding.surplus gapRight.text.toList)) :
    (BinaryExpr.mk before left gapLeft .add gapRight ⟨"\"=\"", by decide, by decide⟩ "").isAssignment
      = true := by
  let e : BinaryExpr :=
    ⟨before, left, gapLeft, .add, gapRight, ⟨"\"=\"", by decide, by decide⟩, ""⟩
  show e.isAssignment = true
  obtain ⟨n, hn⟩ : ∃ n, e.late = n + 2 := ⟨e.late - 2, by have : 2 ≤ e.late := hlate; omega⟩
  have htail : (Decoding.universalNewlines e.fromRight.toList).take e.late
      = '"' :: '=' :: ['"'].take n := by
    have hquoted : Decoding.universalNewlines ("\"=\"" ++ "").toList = ['"', '=', '"'] := by decide
    show (Decoding.universalNewlines ("\"=\"" ++ "").toList).take e.late = _
    rw [hn, hquoted, List.take_succ_cons, List.take_succ_cons]
  have hop : e.op.text.toList = ['+'] := show BinaryOp.add.text.toList = ['+'] by decide
  have hplus : e.displaced.toList
      = (e.gaps.1.drop e.early ++ ['+'] ++ e.gaps.2) ++ '"' :: '=' :: ['"'].take n := by
    rw [e.displaced_eq h, htail, hop]
  have hreads : readsAsAssignment e.displaced = readsAsAssignment "=" := by
    refine BinaryExpr.readsAsAssignment_congr fun sub hsub => ?_
    obtain ⟨hne, hnot, hlast, hquote⟩ := hsub.facts
    have hbetween := Text.infix_between_iff hne ['+']
      (BinaryExpr.notMem_of_blanks (e.blank_gaps e.early).1 hnot)
      (BinaryExpr.notMem_of_blanks (e.blank_gaps 0).2 hnot)
    have hends : sub.toList.getLast? ≠ some '"' := by simp [hlast]
    have hplus' : ¬ sub.toList <:+: ['+'] := by
      intro hin
      have hmem := hin.subset (List.mem_of_getLast? hlast)
      simp at hmem
    rw [hplus, Text.infix_append_cons_iff hquote, hbetween, or_iff_right hplus']
    cases n with
    | zero => simp
    | succ n =>
      rw [List.take_succ_cons, List.take_nil]
      exact (BinaryExpr.infix_concat_iff_of_ne hne hends : sub.toList <:+: ['='] ++ ['"'] ↔ _)
  rw [e.isAssignment_displaced, hreads]
  decide

/-- **When an assignment is told**: after a text before the right operand that
is steady every operator is told, whatever follows, and after any other one
some is not. -/
theorem isAssignment_right_iff :
    (∀ op right after,
      (BinaryExpr.mk before left gapLeft op gapRight right after).isAssignment = true ↔ op = .assign)
      ↔ SteadyBefore before left gapLeft gapRight := by
  have hgap := length_gap_pos gapLeft
  constructor
  · intro hright
    have hpassed : Decoding.surplus (before ++ left.text).toList
        ≤ (Decoding.universalNewlines gapLeft.text.toList).length := by
      by_contra hlt
      have hmissed := exists_missed before left gapLeft gapRight (Nat.lt_of_not_le hlt)
      rw [(hright _ _ _).mpr rfl] at hmissed
      exact absurd hmissed (by decide)
    have hlate : Decoding.surplus (before ++ left.text).toList
        + (Decoding.surplus gapLeft.text.toList + Decoding.surplus gapRight.text.toList) ≤ 1 := by
      by_contra hmore
      have htaken := exists_taken before left gapLeft gapRight hpassed (by omega)
      exact absurd ((hright _ _ _).mp htaken) (by decide)
    exact ⟨hlate, by rw [← hgap]; omega⟩
  · rintro ⟨hlate, hearly⟩ op right after
    rw [BinaryExpr.isAssignment_displaced]
    refine BinaryExpr.reads_of_late_le_one _ ?_ hlate
    show Decoding.surplus (before ++ left.text).toList
      ≤ (Decoding.universalNewlines gapLeft.text.toList).length
    rw [← hgap] at hearly
    omega

end Safe

/-- An assignment after a comment with two letters outside ASCII. -/
def afterComment : BinaryExpr :=
  ⟨"// d\u00e9j\u00e0\n", ⟨"x", by decide, by decide⟩, ⟨" ", by decide⟩, .assign,
    ⟨" ", by decide⟩, ⟨"1", by decide, by decide⟩, ";"⟩

/-- It is read as none. -/
theorem isAssignment_wrong_afterComment :
    ¬ (afterComment.isAssignment = true ↔ afterComment.op = .assign) := by decide

end FprimeTopologyAnalysis
