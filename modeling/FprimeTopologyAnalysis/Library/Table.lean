/-
FprimeTopologyAnalysis.Library.Table — texts of lines, and rows of cells
between bars.

A row is drawn with a bar and a blank around every cell, so a cell may be
anything without a bar. `splitLines_join` and `cells_row` read back what is
written.
-/
import Mathlib.Data.List.Basic

namespace Library

namespace Table

/-! ## Lines -/

/-- The parts of a text between separators. -/
def parts (sep : Char) (s : String) : List String := (s.toList.splitOn sep).map String.ofList

/-- The lines of a text. -/
def splitLines (s : String) : List String := parts '\n' s

/-- Parts without the separator are read back. -/
theorem parts_intercalate {sep : Char} {xs : List String} (h : ∀ x ∈ xs, sep ∉ x.toList)
    (hne : xs ≠ []) : parts sep ((String.singleton sep).intercalate xs) = xs := by
  have hchars : ∀ l ∈ xs.map String.toList, sep ∉ l := by simpa using h
  rw [parts, String.toList_intercalate, String.toList_singleton,
    List.splitOn_intercalate sep hchars (by simpa using hne), List.map_map]
  simp [Function.comp_def]

theorem splitLines_join {lines : List String} (h : ∀ l ∈ lines, '\n' ∉ l.toList)
    (hne : lines ≠ []) : splitLines ("\n".intercalate lines) = lines :=
  parts_intercalate h hne

/-- A joined text has the characters of its parts and of the separator. -/
theorem notMem_intercalate {x : Char} {sep : String} (hsep : x ∉ sep.toList) :
    ∀ {xs : List String}, (∀ s ∈ xs, x ∉ s.toList) → x ∉ (sep.intercalate xs).toList
  | [], _ => by simp
  | [s], h => by simpa using h s (List.mem_cons_self ..)
  | s :: t :: xs, h => by
      obtain ⟨hs, hrest⟩ := List.forall_mem_cons.mp h
      simp only [String.intercalate_cons_cons, String.toList_append, List.mem_append, not_or]
      exact ⟨⟨hs, hsep⟩, notMem_intercalate hsep hrest⟩

/-- A text that ends its last line. -/
theorem join_end {lines : List String} (hne : lines ≠ []) :
    "\n".intercalate lines ++ "\n" = "\n".intercalate (lines ++ [""]) := by
  rw [String.intercalate_append_of_ne_nil hne (List.cons_ne_nil _ _), String.intercalate_singleton,
    String.append_empty]

/-! ## Rows -/

/-- A row of cells. -/
def row (cells : List String) : String := "| " ++ " | ".intercalate cells ++ " |"

/-- A row of blanks, as wide as `n` cells. -/
def spacer (n : Nat) : String := "|" ++ String.join (List.replicate n " |")

theorem notMem_row {x : Char} (hbar : x ≠ '|') (hblank : x ≠ ' ') {cs : List String}
    (h : ∀ c ∈ cs, x ∉ c.toList) : x ∉ (row cs).toList := by
  have hsep : x ∉ " | ".toList := by simp [hbar, hblank]
  have hcells := notMem_intercalate hsep h
  rw [row, String.toList_append, String.toList_append, List.mem_append, List.mem_append]
  simp only [not_or]
  exact ⟨⟨by simp [hbar, hblank], hcells⟩, by simp [hbar, hblank]⟩

theorem notMem_spacer {x : Char} (hbar : x ≠ '|') (hblank : x ≠ ' ') (n : Nat) :
    x ∉ (spacer n).toList := by
  simp [spacer, hbar, hblank]

/-- Without the blanks at its ends. -/
def unpad (s : String) : String := String.ofList s.toList.tail.dropLast

/-- The cells of a row. -/
def cells (line : String) : List String := (parts '|' line).tail.dropLast.map unpad

theorem unpad_pad (c : String) : unpad (" " ++ c ++ " ") = c := by
  simp [unpad]

/-- A row, as what stands between its bars. -/
theorem row_eq (c : String) (cs : List String) :
    row (c :: cs)
      = "|".intercalate ("" :: ((c :: cs).map fun c => " " ++ c ++ " ") ++ [""]) := by
  have hrest : ∀ (cs : List String) (c : String),
      " " ++ " | ".intercalate (c :: cs) ++ " |"
        = "|".intercalate (((c :: cs).map fun c => " " ++ c ++ " ") ++ [""]) := by
    intro cs
    induction cs with
    | nil =>
      intro c
      apply String.toList_injective
      simp [String.intercalate_cons_cons]
    | cons d cs ih =>
      intro c
      have hd := congrArg String.toList (ih d)
      apply String.toList_injective
      simp only [List.map_cons, List.cons_append, String.intercalate_cons_cons,
        String.toList_append] at hd ⊢
      rw [← hd]
      simp
  have h := congrArg String.toList (hrest cs c)
  apply String.toList_injective
  rw [row]
  simp only [List.map_cons, List.cons_append, String.intercalate_cons_cons,
    String.toList_append] at h ⊢
  rw [← h]
  simp

theorem notMem_pad {c : String} (h : '|' ∉ c.toList) : '|' ∉ (" " ++ c ++ " ").toList := by
  simpa using h

/-- **A row is read back**, cell by cell. -/
theorem cells_row {cs : List String} (hne : cs ≠ []) (h : ∀ c ∈ cs, '|' ∉ c.toList) :
    cells (row cs) = cs := by
  cases cs with
  | nil => exact absurd rfl hne
  | cons c cs =>
    have hparts : ∀ x ∈ "" :: ((c :: cs).map fun c => " " ++ c ++ " ") ++ [""],
        '|' ∉ x.toList := by
      intro x hx
      rcases List.mem_append.mp hx with hx | hx
      · rcases List.mem_cons.mp hx with rfl | hx
        · simp
        · obtain ⟨c, hc, rfl⟩ := List.mem_map.mp hx
          exact notMem_pad (h c hc)
      · simp [List.mem_singleton.mp hx]
    have hread : parts '|' (row (c :: cs))
        = "" :: ((c :: cs).map fun c => " " ++ c ++ " ") ++ [""] := by
      rw [row_eq]
      exact parts_intercalate hparts (by simp)
    rw [cells, hread, List.cons_append, List.tail_cons, List.dropLast_concat, List.map_map]
    have hid : unpad ∘ (fun c : String => " " ++ c ++ " ") = id := funext unpad_pad
    rw [hid, List.map_id]

/-- A spacer reads as empty cells. -/
theorem cells_spacer (n : Nat) : cells (spacer n) = List.replicate n "" := by
  have hspacer : spacer n = "|".intercalate ("" :: List.replicate n " " ++ [""]) := by
    have hrest : ∀ n, "|".intercalate (List.replicate n " " ++ [""])
        = String.join (List.replicate n " |") := by
      intro n
      induction n with
      | zero => simp
      | succ n ih =>
        rw [List.replicate_succ, List.replicate_succ, List.cons_append,
          String.intercalate_cons_of_ne_nil (by simp), ih, String.join_cons]
        apply String.toList_injective
        simp
    rw [spacer, List.cons_append, String.intercalate_cons_of_ne_nil (by simp), hrest]
    simp
  have hread : parts '|' (spacer n) = "" :: List.replicate n " " ++ [""] := by
    rw [hspacer]
    refine parts_intercalate (fun x hx => ?_) (by simp)
    rcases List.mem_append.mp hx with hx | hx
    · rcases List.mem_cons.mp hx with rfl | hx
      · simp
      · rw [List.eq_of_mem_replicate hx]
        decide
    · simp [List.mem_singleton.mp hx]
  rw [cells, hread, List.cons_append, List.tail_cons, List.dropLast_concat, List.map_replicate]
  rfl

end Table

end Library
