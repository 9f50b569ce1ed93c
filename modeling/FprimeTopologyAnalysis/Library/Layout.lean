/-
FprimeTopologyAnalysis.Library.Layout — trees laid out in a text.

A node has its own text before, between and after its children, so its
range in the text is nested in that of its parent and apart from that of
its siblings. `laminar`: any two nodes of a tree are one within the other or
apart. So a node that starts in the range of another is within it, or
encloses it from the same start (`start_mem_range_iff`).
-/
import Mathlib.Data.String.Basic

universe u

namespace Library

namespace Layout

mutual

/-- A node: the text before its first child, and its children. -/
inductive TextTree (κ : Type u) where
  | node (label : κ) (lead : String) (children : TextForest κ)

/-- Children, each with the text after it. -/
inductive TextForest (κ : Type u) where
  | nil
  | cons (child : TextTree κ) (trail : String) (rest : TextForest κ)

end

variable {κ : Type u}

mutual

/-- The text of a tree. -/
def TextTree.text : TextTree κ → String
  | .node _ lead children => lead ++ children.text

/-- The text of children. -/
def TextForest.text : TextForest κ → String
  | .nil => ""
  | .cons child trail rest => child.text ++ (trail ++ rest.text)

end

/-- A tree in a text, by what comes before it. -/
structure Placed (κ : Type u) where
  before : String
  tree : TextTree κ

namespace Placed

def label (p : Placed κ) : κ :=
  match p.tree with
  | .node label _ _ => label

/-- The offset in bytes at which it starts. -/
def start (p : Placed κ) : Nat := p.before.utf8ByteSize

/-- The offset at which it ends. -/
def stop (p : Placed κ) : Nat := (p.before ++ p.tree.text).utf8ByteSize

end Placed

/-- Children in a text that starts with `before`. -/
def TextForest.placed (before : String) : TextForest κ → List (Placed κ)
  | .nil => []
  | .cons child trail rest => ⟨before, child⟩ :: rest.placed (before ++ child.text ++ trail)

/-- The children of a placed tree. -/
def Placed.children (p : Placed κ) : List (Placed κ) :=
  match p.tree with
  | .node _ lead children => children.placed (p.before ++ lead)

mutual

/-- The nodes of a tree, each before what it is made of. -/
def TextTree.preorder (before : String) : TextTree κ → List (Placed κ)
  | .node label lead children =>
    ⟨before, .node label lead children⟩ :: children.preorder (before ++ lead)

def TextForest.preorder (before : String) : TextForest κ → List (Placed κ)
  | .nil => []
  | .cons child trail rest =>
    child.preorder before ++ rest.preorder (before ++ child.text ++ trail)

end

/-- The nodes within a placed tree, itself included. -/
def Placed.preorder (p : Placed κ) : List (Placed κ) := p.tree.preorder p.before

theorem Placed.self_mem_preorder (p : Placed κ) : p ∈ p.preorder := by
  obtain ⟨before, label, lead, children⟩ := p
  exact List.mem_cons_self ..

mutual

/-- What is within a node of a tree is within the tree. -/
theorem TextTree.preorder_trans (before : String) : ∀ (t : TextTree κ) (p q : Placed κ),
    p ∈ t.preorder before → q ∈ p.preorder → q ∈ t.preorder before
  | .node label lead children, p, q, hp, hq => by
      rcases List.mem_cons.mp hp with rfl | hp
      · exact hq
      · exact List.mem_cons_of_mem _
          (TextForest.preorder_trans (before ++ lead) children p q hp hq)

theorem TextForest.preorder_trans (before : String) : ∀ (f : TextForest κ) (p q : Placed κ),
    p ∈ f.preorder before → q ∈ p.preorder → q ∈ f.preorder before
  | .nil, p, _, hp, _ => by simp [TextForest.preorder] at hp
  | .cons child trail rest, p, q, hp, hq => by
      rcases List.mem_append.mp hp with hp | hp
      · exact List.mem_append_left _ (TextTree.preorder_trans before child p q hp hq)
      · exact List.mem_append_right _ (TextForest.preorder_trans _ rest p q hp hq)

end

theorem TextForest.mem_preorder_of_mem_placed {p : Placed κ} :
    ∀ (f : TextForest κ) (before : String), p ∈ f.placed before → p ∈ f.preorder before
  | .nil, before, h => by simp [TextForest.placed] at h
  | .cons child trail rest, before, h => by
      rcases List.mem_cons.mp h with rfl | h
      · exact List.mem_append_left _ (Placed.self_mem_preorder ⟨before, child⟩)
      · exact List.mem_append_right _ (TextForest.mem_preorder_of_mem_placed rest _ h)

/-- The children of a node of a tree are nodes of the tree. -/
theorem mem_preorder_of_mem_children {root p child : Placed κ} (hp : p ∈ root.preorder)
    (h : child ∈ p.children) : child ∈ root.preorder := by
  refine root.tree.preorder_trans root.before p child hp ?_
  obtain ⟨before, label, lead, children⟩ := p
  exact List.mem_cons_of_mem _ (TextForest.mem_preorder_of_mem_placed children _ h)

mutual

/-- What is within a tree is in its range. -/
theorem TextTree.range_preorder (before : String) : ∀ (t : TextTree κ) (q : Placed κ),
    q ∈ t.preorder before →
      before.utf8ByteSize ≤ q.start ∧ q.stop ≤ (before ++ t.text).utf8ByteSize
  | .node label lead children, q, hq => by
      rcases List.mem_cons.mp hq with rfl | hq
      · exact ⟨Nat.le_refl _, Nat.le_refl _⟩
      · obtain ⟨hstart, hstop⟩ := TextForest.range_preorder (before ++ lead) children q hq
        simp only [String.utf8ByteSize_append, TextTree.text] at hstart hstop ⊢
        omega

theorem TextForest.range_preorder (before : String) : ∀ (f : TextForest κ) (q : Placed κ),
    q ∈ f.preorder before →
      before.utf8ByteSize ≤ q.start ∧ q.stop ≤ (before ++ f.text).utf8ByteSize
  | .nil, q, hq => by simp [TextForest.preorder] at hq
  | .cons child trail rest, q, hq => by
      rcases List.mem_append.mp hq with hq | hq
      · obtain ⟨hstart, hstop⟩ := TextTree.range_preorder before child q hq
        simp only [String.utf8ByteSize_append, TextForest.text] at hstart hstop ⊢
        omega
      · obtain ⟨hstart, hstop⟩ := TextForest.range_preorder _ rest q hq
        simp only [String.utf8ByteSize_append, TextForest.text] at hstart hstop ⊢
        omega

end

/-- What is within a node is in its range. -/
theorem Placed.range_preorder {p q : Placed κ} (h : q ∈ p.preorder) :
    p.start ≤ q.start ∧ q.stop ≤ p.stop :=
  p.tree.range_preorder p.before q h

mutual

/-- The text of a tree is what is before a node, its text and the rest. -/
theorem TextTree.exists_after (before : String) : ∀ (t : TextTree κ) (q : Placed κ),
    q ∈ t.preorder before → ∃ after, before ++ t.text = q.before ++ q.tree.text ++ after
  | .node label lead children, q, hq => by
      rcases List.mem_cons.mp hq with rfl | hq
      · exact ⟨"", by simp⟩
      · obtain ⟨after, hafter⟩ := TextForest.exists_after (before ++ lead) children q hq
        exact ⟨after, by rw [← hafter, TextTree.text, String.append_assoc]⟩

theorem TextForest.exists_after (before : String) : ∀ (f : TextForest κ) (q : Placed κ),
    q ∈ f.preorder before → ∃ after, before ++ f.text = q.before ++ q.tree.text ++ after
  | .nil, q, hq => by simp [TextForest.preorder] at hq
  | .cons child trail rest, q, hq => by
      rcases List.mem_append.mp hq with hq | hq
      · obtain ⟨after, hafter⟩ := TextTree.exists_after before child q hq
        refine ⟨after ++ (trail ++ rest.text), ?_⟩
        rw [TextForest.text, ← String.append_assoc, hafter, String.append_assoc]
      · obtain ⟨after, hafter⟩ := TextForest.exists_after _ rest q hq
        refine ⟨after, ?_⟩
        rw [← hafter, TextForest.text]
        simp only [String.append_assoc]

end

/-- The text of a node, with what is around it. -/
theorem Placed.exists_after {p q : Placed κ} (h : q ∈ p.preorder) :
    ∃ after, p.before ++ p.tree.text = q.before ++ q.tree.text ++ after :=
  p.tree.exists_after p.before q h

/-- One of two nodes is within the other, or they are apart. -/
def Nested (p q : Placed κ) : Prop :=
  q ∈ p.preorder ∨ p ∈ q.preorder ∨ p.stop ≤ q.start ∨ q.stop ≤ p.start

theorem Nested.symm {p q : Placed κ} (h : Nested p q) : Nested q p := by
  unfold Nested at h ⊢
  tauto

mutual

theorem TextTree.nested_preorder (before : String) : ∀ (t : TextTree κ) (p q : Placed κ),
    p ∈ t.preorder before → q ∈ t.preorder before → Nested p q
  | .node label lead children, p, q, hp, hq => by
      rcases List.mem_cons.mp hp with rfl | hp'
      · exact .inl hq
      · rcases List.mem_cons.mp hq with rfl | hq'
        · exact .inr (.inl hp)
        · exact TextForest.nested_preorder (before ++ lead) children p q hp' hq'

theorem TextForest.nested_preorder (before : String) : ∀ (f : TextForest κ) (p q : Placed κ),
    p ∈ f.preorder before → q ∈ f.preorder before → Nested p q
  | .nil, p, _, hp, _ => by simp [TextForest.preorder] at hp
  | .cons child trail rest, p, q, hp, hq => by
      -- a node of the first child ends before any of the others starts
      have hapart : ∀ x y : Placed κ, x ∈ child.preorder before →
          y ∈ rest.preorder (before ++ child.text ++ trail) → x.stop ≤ y.start := by
        intro x y hx hy
        have hxstop := (TextTree.range_preorder before child x hx).2
        have hystart := (TextForest.range_preorder _ rest y hy).1
        simp only [String.utf8ByteSize_append] at hxstop hystart
        omega
      rcases List.mem_append.mp hp with hp | hp <;> rcases List.mem_append.mp hq with hq | hq
      · exact TextTree.nested_preorder before child p q hp hq
      · exact .inr (.inr (.inl (hapart p q hp hq)))
      · exact .inr (.inr (.inr (hapart q p hq hp)))
      · exact TextForest.nested_preorder _ rest p q hp hq

end

/-- **Ranges are nested or apart.** -/
theorem laminar {root p q : Placed κ} (hp : p ∈ root.preorder) (hq : q ∈ root.preorder) :
    Nested p q :=
  root.tree.nested_preorder root.before p q hp hq

/-- Where a node starts tells whether it is within another, unless it has no
text, or the two start at the same place. -/
theorem start_mem_range_iff {root p q : Placed κ} (hp : p ∈ root.preorder)
    (hq : q ∈ root.preorder) (htext : q.tree.text ≠ "") :
    (p.start ≤ q.start ∧ q.start < p.stop)
      ↔ q ∈ p.preorder ∨ (p ∈ q.preorder ∧ q.start = p.start ∧ p.tree.text ≠ "") := by
  have hlong : ∀ x : Placed κ, x.tree.text ≠ "" ↔ x.start < x.stop := by
    intro x
    rw [ne_eq, ← String.utf8ByteSize_eq_zero_iff]
    simp only [Placed.start, Placed.stop, String.utf8ByteSize_append]
    omega
  rw [hlong] at htext ⊢
  constructor
  · rintro ⟨hstart, hstop⟩
    rcases laminar hp hq with hin | hout | hafter | hbefore
    · exact .inl hin
    · have hle := (Placed.range_preorder hout).1
      exact .inr ⟨hout, by omega, by omega⟩
    · omega
    · omega
  · rintro (hin | ⟨_, hsame, hpos⟩)
    · obtain ⟨hstart, hstop⟩ := Placed.range_preorder hin
      exact ⟨hstart, by omega⟩
    · exact ⟨by omega, by omega⟩

end Layout

end Library
