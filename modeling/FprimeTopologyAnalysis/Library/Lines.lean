/-
FprimeTopologyAnalysis.Library.Lines — the lines of a text, and what is left
of a line without its comment and its blanks.

`splitlines` breaks at every line break Python knows, and the last line needs
none. Texts set under each other have the lines of both (`lineChars_append`).
`strip` finds what stands between blanks, a text without a blank at its ends
(`exists_strip`). A text is split at the first occurrence of a separator,
and that is where the part before it has none (`splitFirstChars_eq_some_iff`).
-/
import FprimeTopologyAnalysis.Library.Text
import Mathlib.Data.List.TakeWhile

namespace Library

namespace Text

/-! ## Lines -/

/-- Where `splitlines` breaks. -/
def isLineBreak (c : Char) : Bool :=
  (10 ≤ c.toNat && c.toNat ≤ 13) || (28 ≤ c.toNat && c.toNat ≤ 30)
    || c.toNat ∈ [0x85, 0x2028, 0x2029]

/-- A character before the first line. -/
def onFirst (c : Char) : List (List Char) → List (List Char)
  | [] => [[c]]
  | line :: lines => (c :: line) :: lines

/-- The lines of a text: a break ends a line, `\r\n` is one break, and the
end of the text ends a line that has begun. -/
def lineChars : List Char → List (List Char)
  | [] => []
  | '\r' :: '\n' :: cs => [] :: lineChars cs
  | c :: cs => if isLineBreak c then [] :: lineChars cs else onFirst c (lineChars cs)

/-- `s.splitlines()`. -/
def splitlines (s : String) : List String := (lineChars s.toList).map String.ofList

/-- `s.split(c, 1)[0]`. -/
def before (c : Char) (s : String) : String := String.ofList (s.toList.takeWhile (· ≠ c))

theorem lineChars_cons {c : Char} {cs : List Char} (h : isLineBreak c = false) :
    lineChars (c :: cs) = onFirst c (lineChars cs) := by
  have hr : c ≠ '\r' := by
    rintro rfl
    cases h
  rw [lineChars]
  · simp [h]
  · intro cs' hc
    exact absurd hc hr

theorem lineChars_newline (cs : List Char) : lineChars ('\n' :: cs) = [] :: lineChars cs := by
  simp [lineChars, isLineBreak]

/-- A break ends a line, unless it is the first half of one. -/
theorem lineChars_break {c : Char} {cs : List Char} (h : isLineBreak c = true)
    (hhalf : ∀ cs', c = '\r' → cs = '\n' :: cs' → False) :
    lineChars (c :: cs) = [] :: lineChars cs := by
  rw [lineChars, if_pos h]
  exact hhalf

/-- The text is the longer for every line. -/
theorem lineChars_ne_nil {cs : List Char} (hne : cs ≠ []) : lineChars cs ≠ [] := by
  induction cs using lineChars.induct with
  | case1 => exact absurd rfl hne
  | case2 cs ih => simp [lineChars]
  | case3 c cs hhalf hbreak ih =>
    rw [lineChars_break hbreak hhalf]
    simp
  | case4 c cs hhalf hbreak ih =>
    rw [lineChars_cons (by simpa using hbreak)]
    cases lineChars cs <;> simp [onFirst]

/-- Lines set under each other. -/
theorem lineChars_append (bs as : List Char) :
    lineChars (as ++ '\n' :: bs) = lineChars (as ++ ['\n']) ++ lineChars bs := by
  induction as using lineChars.induct with
  | case1 => simp [lineChars_newline, lineChars]
  | case2 cs ih => simp [lineChars, ih]
  | case3 c cs hhalf hbreak ih =>
    by_cases hlast : c = '\r' ∧ cs = []
    · obtain ⟨rfl, rfl⟩ := hlast
      simp [lineChars]
    · have hhalf' : ∀ rest cs', c = '\r' → cs ++ '\n' :: rest = '\n' :: cs' → False := by
        intro rest cs' hc heq
        cases cs with
        | nil => exact hlast ⟨hc, rfl⟩
        | cons d cs => exact hhalf cs hc (by rw [(List.cons.inj heq).1])
      rw [List.cons_append, List.cons_append, lineChars_break hbreak (hhalf' bs),
        lineChars_break hbreak (hhalf' []), ih, List.cons_append]
  | case4 c cs hhalf hbreak ih =>
    have hc : isLineBreak c = false := by simpa using hbreak
    rw [List.cons_append, List.cons_append, lineChars_cons hc, lineChars_cons hc, ih]
    obtain ⟨line, lines, hlines⟩ :=
      List.exists_cons_of_ne_nil (@lineChars_ne_nil (cs ++ ['\n']) (by simp))
    rw [hlines]
    rfl

/-- A break at the end ends the last line or makes an empty one. -/
theorem lineChars_end (cs : List Char) :
    lineChars (cs ++ ['\n']) = lineChars cs ∨ lineChars (cs ++ ['\n']) = lineChars cs ++ [[]] := by
  have hcons : ∀ (c : Char) (cs : List Char), isLineBreak c = false →
      (lineChars (cs ++ ['\n']) = lineChars cs ∨ lineChars (cs ++ ['\n']) = lineChars cs ++ [[]]) →
      lineChars (c :: cs ++ ['\n']) = lineChars (c :: cs)
        ∨ lineChars (c :: cs ++ ['\n']) = lineChars (c :: cs) ++ [[]] := by
    intro c cs hc ih
    rw [List.cons_append, lineChars_cons hc, lineChars_cons hc]
    rcases ih with ih | ih
    · exact .inl (by rw [ih])
    · rw [ih]
      cases lineChars cs with
      | nil => exact .inl rfl
      | cons line lines => exact .inr rfl
  induction cs using lineChars.induct with
  | case1 => exact .inr rfl
  | case2 cs ih => simpa [lineChars] using ih
  | case3 c cs hhalf hbreak ih =>
    by_cases hlast : c = '\r' ∧ cs = []
    · obtain ⟨rfl, rfl⟩ := hlast
      exact .inl rfl
    · have hhalf' : ∀ cs', c = '\r' → cs ++ ['\n'] = '\n' :: cs' → False := by
        intro cs' hc heq
        cases cs with
        | nil => exact hlast ⟨hc, rfl⟩
        | cons d cs => exact hhalf cs hc (by rw [(List.cons.inj heq).1])
      rw [List.cons_append, lineChars_break hbreak hhalf', lineChars_break hbreak hhalf]
      simpa using ih
  | case4 c cs hhalf hbreak ih => exact hcons c cs (by simpa using hbreak) ih

/-- A line of its own. -/
theorem lineChars_line {line : List Char} (h : ∀ c ∈ line, isLineBreak c = false) (cs : List Char) :
    lineChars (line ++ '\n' :: cs) = line :: lineChars cs := by
  induction line with
  | nil => exact lineChars_newline cs
  | cons c line ih =>
    obtain ⟨hc, hline⟩ := List.forall_mem_cons.mp h
    rw [List.cons_append, lineChars_cons hc, ih hline, onFirst]

/-! ## Blanks -/

/-- Only blanks. -/
def Blank (cs : List Char) : Prop := ∀ c ∈ cs, isSpace c = true

/-- No blank at either end. -/
structure Trimmed (cs : List Char) : Prop where
  head : ∀ c ∈ cs.head?, isSpace c = false
  last : ∀ c ∈ cs.getLast?, isSpace c = false

theorem dropWhile_blank {a : List Char} (ha : Blank a) (cs : List Char) :
    (a ++ cs).dropWhile isSpace = cs.dropWhile isSpace := by
  induction a with
  | nil => rfl
  | cons c a ih =>
    obtain ⟨hc, ha⟩ := List.forall_mem_cons.mp ha
    rw [List.cons_append, List.dropWhile_cons_of_pos hc, ih ha]

theorem dropWhile_of_head {cs : List Char} (h : ∀ c ∈ cs.head?, isSpace c = false) :
    cs.dropWhile isSpace = cs := by
  cases cs with
  | nil => rfl
  | cons c cs => exact List.dropWhile_cons_of_neg (by simp [h c rfl])

/-- The text between the blanks. -/
theorem stripChars_pad {a t b : List Char} (ha : Blank a) (ht : Trimmed t) (hb : Blank b) :
    stripChars (a ++ t ++ b) = t := by
  have hleft : (a ++ t ++ b).dropWhile isSpace = t ++ b ∨ t = [] := by
    cases t with
    | nil => exact .inr rfl
    | cons c t =>
      left
      rw [List.append_assoc, dropWhile_blank ha]
      exact dropWhile_of_head fun d hd => ht.head d hd
  have hright : rstripChars (t ++ b) = t := by
    rw [rstripChars, List.reverse_append, dropWhile_blank (by simpa [Blank] using hb),
      dropWhile_of_head, List.reverse_reverse]
    intro c hc
    rw [List.head?_reverse] at hc
    exact ht.last c hc
  rcases hleft with hleft | rfl
  · rw [stripChars, hleft, hright]
  · have hall : Blank (a ++ [] ++ b) := by
      intro c hc
      rcases List.mem_append.mp hc with hc | hc
      · exact ha c (by simpa using hc)
      · exact hb c hc
    have hnone : (a ++ [] ++ b).dropWhile isSpace = [] :=
      List.dropWhile_eq_nil_iff.mpr fun c hc => hall c hc
    rw [stripChars, hnone]
    rfl

/-- What a text is, apart from the blanks at its ends. -/
theorem exists_strip (cs : List Char) :
    ∃ a b, Blank a ∧ Blank b ∧ Trimmed (stripChars cs) ∧ cs = a ++ stripChars cs ++ b := by
  have hblank : ∀ ds : List Char, Blank (ds.takeWhile isSpace) :=
    fun ds c hc => List.mem_takeWhile_imp hc
  have hhead : ∀ (ds : List Char), ∀ c ∈ (ds.dropWhile isSpace).head?, isSpace c = false := by
    intro ds c hc
    have hnot := List.head?_dropWhile_not isSpace ds
    rw [Option.mem_def.mp hc] at hnot
    simpa using hnot
  have hright : cs.dropWhile isSpace = stripChars cs
      ++ ((cs.dropWhile isSpace).reverse.takeWhile isSpace).reverse := by
    rw [stripChars, rstripChars, ← List.reverse_append, List.takeWhile_append_dropWhile,
      List.reverse_reverse]
  refine ⟨cs.takeWhile isSpace, ((cs.dropWhile isSpace).reverse.takeWhile isSpace).reverse,
    hblank cs, fun c hc => hblank _ c (List.mem_reverse.mp hc), ⟨fun c hc => ?_, fun c hc => ?_⟩, ?_⟩
  · refine hhead cs c ?_
    rw [hright, Option.mem_def, List.head?_append, Option.mem_def.mp hc]
    rfl
  · rw [stripChars, rstripChars, List.getLast?_reverse] at hc
    exact hhead _ c hc
  · rw [List.append_assoc, ← hright, List.takeWhile_append_dropWhile]

/-! ## Splits -/

/-- **A text is split where the separator first starts.** -/
theorem splitFirstChars_eq_some_iff {sep : List Char} (hsep : sep ≠ []) {b : List Char} :
    ∀ {cs a : List Char}, splitFirstChars sep cs = some (a, b)
      ↔ cs = a ++ sep ++ b ∧ ∀ a' c', a = a' ++ c' → c' ≠ [] → ¬ sep <+: c' ++ sep ++ b
  | [], a => by
      rw [splitFirstChars, if_neg hsep]
      simp [hsep]
  | c :: cs, a => by
      rw [splitFirstChars]
      by_cases hhere : sep <+: c :: cs
      · rw [if_pos (List.isPrefixOf_iff_prefix.mpr hhere)]
        obtain ⟨rest, hrest⟩ := hhere
        constructor
        · intro h
          obtain ⟨rfl, rfl⟩ := Prod.mk.inj (Option.some.inj h)
          refine ⟨?_, fun a' c' hac hne => ?_⟩
          · rw [← hrest, List.drop_left, List.nil_append]
          · exact absurd (List.append_eq_nil_iff.mp hac.symm).2 hne
        · rintro ⟨heq, hfirst⟩
          cases a with
          | nil => rw [heq, List.nil_append, List.drop_left]
          | cons d a =>
            refine absurd ?_ (hfirst [] (d :: a) rfl (List.cons_ne_nil d a))
            rw [← heq]
            exact ⟨rest, hrest⟩
      · rw [if_neg fun h => hhere (List.isPrefixOf_iff_prefix.mp h), Option.map_eq_some_iff]
        constructor
        · rintro ⟨⟨a₁, b₁⟩, hparts, heq⟩
          obtain ⟨rfl, rfl⟩ := Prod.mk.inj heq
          obtain ⟨rfl, hfirst⟩ := (splitFirstChars_eq_some_iff hsep).mp hparts
          refine ⟨rfl, fun a' c' hac hne => ?_⟩
          cases a' with
          | nil =>
            obtain rfl : c' = c :: a₁ := hac.symm
            exact hhere
          | cons d a' => exact hfirst a' c' (List.cons.inj hac).2 hne
        · rintro ⟨heq, hfirst⟩
          cases a with
          | nil => exact absurd ⟨b, heq.symm⟩ hhere
          | cons d a =>
            obtain ⟨rfl, rfl⟩ := List.cons.inj heq
            refine ⟨(a, b), (splitFirstChars_eq_some_iff hsep).mpr ⟨rfl, fun a' c' hac => ?_⟩, rfl⟩
            exact hfirst (c :: a') c' (by rw [hac]; rfl)

/-- It is not split where the separator does not occur. -/
theorem splitFirstChars_eq_none_iff {sep : List Char} (hsep : sep ≠ []) :
    ∀ {cs : List Char}, splitFirstChars sep cs = none ↔ ¬ sep <:+: cs
  | [] => by
      rw [splitFirstChars, if_neg hsep]
      simp [hsep]
  | c :: cs => by
      rw [splitFirstChars, List.infix_cons_iff, not_or]
      by_cases hhere : sep <+: c :: cs
      · rw [if_pos (List.isPrefixOf_iff_prefix.mpr hhere)]
        simp [hhere]
      · rw [if_neg fun h => hhere (List.isPrefixOf_iff_prefix.mp h), Option.map_eq_none_iff,
          splitFirstChars_eq_none_iff hsep]
        simp [hhere]

end Text

end Library
