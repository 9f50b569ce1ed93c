/-
FprimeTopologyAnalysis.Library.Decoding — a text file as Python reads it.

Decoding makes one character of the bytes of each, and universal newlines
make one of `\r\n`. So the characters of a text are fewer than its bytes
(`surplus`), and a byte offset taken for a character index points that much
too far to the right (`drop_universalNewlines`). `surplus_eq_zero_iff`: they
agree exactly where there is neither.
-/
import Mathlib.Data.List.Infix
import Mathlib.Data.String.Basic

namespace Library

namespace Decoding

/-- What a text file reads as: each line end is one `\n`. -/
def universalNewlines : List Char → List Char
  | [] => []
  | '\r' :: '\n' :: rest => '\n' :: universalNewlines rest
  | c :: rest => (if c = '\r' then '\n' else c) :: universalNewlines rest

/-- How many bytes more than characters. -/
def surplus : List Char → Nat
  | [] => 0
  | '\r' :: '\n' :: rest => surplus rest + 1
  | c :: rest => surplus rest + (c.utf8Size - 1)

/-- Two texts, the first of which does not end in the middle of a line end. -/
def Apart (xs ys : List Char) : Prop := ¬ (xs.getLast? = some '\r' ∧ ys.head? = some '\n')

theorem length_universalNewlines (cs : List Char) :
    (universalNewlines cs).length + surplus cs = String.utf8Len cs := by
  fun_induction universalNewlines cs with
  | case1 => rfl
  | case2 rest ih =>
    have hr : Char.utf8Size '\r' = 1 := rfl
    have hn : Char.utf8Size '\n' = 1 := rfl
    simp only [List.length_cons, surplus, String.utf8Len_cons, hr, hn]
    omega
  | case3 c rest hsplit ih =>
    have hpos := c.utf8Size_pos
    rw [surplus.eq_3 c rest hsplit, List.length_cons, String.utf8Len_cons]
    omega

/-- Decoding adds line ends only. -/
theorem mem_universalNewlines {cs : List Char} {c : Char} (h : c ∈ universalNewlines cs) :
    c ∈ cs ∨ c = '\n' := by
  fun_induction universalNewlines cs with
  | case1 => simp at h
  | case2 rest ih =>
    rcases List.mem_cons.mp h with rfl | h
    · simp
    · rcases ih h with h | h <;> simp [h]
  | case3 d rest hsplit ih =>
    rcases List.mem_cons.mp h with rfl | h
    · split <;> simp
    · rcases ih h with h | h <;> simp [h]

theorem Apart.tail {c : Char} {xs ys : List Char} (h : Apart (c :: xs) ys) : Apart xs ys := by
  cases xs with
  | nil => simp [Apart]
  | cons d xs => simpa [Apart] using h

/-- Without `\r` there is nothing to translate. -/
theorem universalNewlines_eq_self {cs : List Char} (h : '\r' ∉ cs) : universalNewlines cs = cs := by
  fun_induction universalNewlines cs with
  | case1 => rfl
  | case2 rest ih => simp at h
  | case3 c rest hsplit ih =>
    rw [ih fun hr => h (List.mem_cons_of_mem _ hr), if_neg fun hc => h (by simp [hc])]

/-- Texts that are apart are decoded apart. -/
theorem universalNewlines_append (xs ys : List Char) (h : Apart xs ys) :
    universalNewlines (xs ++ ys) = universalNewlines xs ++ universalNewlines ys
      ∧ surplus (xs ++ ys) = surplus xs + surplus ys := by
  fun_induction universalNewlines xs with
  | case1 => simp [surplus]
  | case2 rest ih =>
    obtain ⟨htext, hsurplus⟩ := ih h.tail.tail
    simp only [List.cons_append, universalNewlines, surplus, htext, hsurplus, true_and]
    omega
  | case3 c rest hsplit ih =>
    have hsplit' : ∀ rest', c = '\r' → rest ++ ys = '\n' :: rest' → False := by
      intro rest' hc heq
      cases rest with
      | nil =>
        subst hc
        rw [List.nil_append] at heq
        exact h (by simp [heq])
      | cons d rest =>
        rw [List.cons_append, List.cons.injEq] at heq
        exact hsplit rest hc (by rw [heq.1])
    obtain ⟨htext, hsurplus⟩ := ih h.tail
    rw [List.cons_append, universalNewlines.eq_3 c _ hsplit', surplus.eq_3 c _ hsplit',
      surplus.eq_3 c _ hsplit, htext, hsurplus]
    exact ⟨rfl, by omega⟩

/-- **A byte offset points too far**, by the surplus of the text before it. -/
theorem drop_universalNewlines {xs ys : List Char} (h : Apart xs ys) :
    (universalNewlines (xs ++ ys)).drop (String.utf8Len xs)
      = (universalNewlines ys).drop (surplus xs) := by
  rw [(universalNewlines_append xs ys h).1, ← length_universalNewlines, ← List.drop_drop,
    List.drop_left]

/-- **No surplus**: nothing but ASCII, and no `\r\n`. -/
theorem surplus_eq_zero_iff (cs : List Char) :
    surplus cs = 0 ↔ (∀ c ∈ cs, c.toNat < 128) ∧ ¬ ['\r', '\n'] <:+: cs := by
  fun_induction surplus cs with
  | case1 => simp
  | case2 rest ih =>
    have hcrlf : ['\r', '\n'] <:+: '\r' :: '\n' :: rest := ⟨[], rest, rfl⟩
    simp [hcrlf]
  | case3 c rest hsplit ih =>
    have hpos := c.utf8Size_pos
    have hsize : c.utf8Size - 1 = 0 ↔ c.toNat < 128 := by
      have hone : c.utf8Size = 1 ↔ c.val ≤ 127 := Char.utf8Size_eq_one_iff
      rw [UInt32.le_iff_toNat_le] at hone
      show _ ↔ c.val.toNat < 128
      have h127 : (127 : UInt32).toNat = 127 := rfl
      omega
    have hhead : ¬ ['\r', '\n'] <+: c :: rest := by
      intro h
      obtain ⟨hc, hrest⟩ := List.cons_prefix_cons.mp h
      obtain ⟨rest', hrest'⟩ := hrest
      exact hsplit rest' hc.symm hrest'.symm
    rw [Nat.add_eq_zero_iff, ih, hsize, List.infix_cons_iff]
    simp only [List.mem_cons, forall_eq_or_imp, hhead, false_or]
    tauto

/-- In ASCII without `\r` there are as many bytes as characters. -/
theorem utf8Len_eq_length {cs : List Char} (hascii : ∀ c ∈ cs, c.toNat < 128) (hcr : '\r' ∉ cs) :
    String.utf8Len cs = cs.length := by
  have hsurplus : surplus cs = 0 := by
    rw [surplus_eq_zero_iff]
    exact ⟨hascii, fun hcrlf => hcr (hcrlf.subset (by simp))⟩
  rw [← length_universalNewlines, hsurplus, universalNewlines_eq_self hcr, Nat.add_zero]

end Decoding

end Library
