/-
FprimeTopologyAnalysis.Library.NumberText — numbers as Python formats them.

`fixedText` is the format `.nf` and `generalText` the format `g`, both of a
rational number: the digits are rounded half to even. A float is formatted
by its exact value, which is a tie of decimals only where the float is. What
they write is digits, signs, a point and an exponent (`isNumeric_fixedText`,
`isNumeric_generalText`).
-/
import FprimeTopologyAnalysis.Library.Text
import Mathlib.Data.Int.Log
import Mathlib.Data.Rat.Floor

namespace Library

namespace NumberText

/-- The nearest integer; halves go to the even one. -/
def halfEven (q : ℚ) : Int :=
  if q - ⌊q⌋ < 1 / 2 then ⌊q⌋
  else if 1 / 2 < q - ⌊q⌋ then ⌊q⌋ + 1
  else if ⌊q⌋ % 2 = 0 then ⌊q⌋ else ⌊q⌋ + 1

/-- A natural number with at least `width` digits. -/
def padded (width n : Nat) : String :=
  String.ofList (List.replicate (width - n.repr.length) '0') ++ n.repr

/-- `n` with a point before its last `places` digits. -/
def pointed (places n : Nat) : String :=
  if places = 0 then n.repr
  else (n / 10 ^ places).repr ++ "." ++ padded places (n % 10 ^ places)

def sign (q : ℚ) : String := if q < 0 then "-" else ""

/-- The format `.nf`. -/
def fixedText (places : Nat) (q : ℚ) : String :=
  sign q ++ pointed places (halfEven (|q| * 10 ^ places)).toNat

/-- Without the zeros at the end of its fraction. -/
def trimmed (s : String) : String :=
  if '.' ∈ s.toList then
    String.ofList
      (((s.toList.reverse.dropWhile fun c => c = '0').dropWhile fun c => c = '.').reverse)
  else s

/-- Six significant digits, with the exponent of the first. -/
def sixDigits (q : ℚ) : Nat × Int :=
  let n := (halfEven (|q| * (10 : ℚ) ^ (5 - Int.log 10 |q|))).toNat
  if n = 1000000 then (100000, Int.log 10 |q| + 1) else (n, Int.log 10 |q|)

/-- The format `g`. -/
def generalText (q : ℚ) : String :=
  if q = 0 then "0"
  else
    let (n, x) := sixDigits q
    if x < -4 ∨ 6 ≤ x then
      sign q ++ trimmed (pointed 5 n) ++ "e" ++ (if x < 0 then "-" else "+") ++ padded 2 x.natAbs
    else sign q ++ trimmed (pointed (5 - x).toNat n)

/-- What a number is written with. -/
def IsNumeric (s : String) : Prop := ∀ c ∈ s.toList, c.isDigit = true ∨ c ∈ ['-', '+', '.', 'e']

theorem IsNumeric.append {s t : String} (hs : IsNumeric s) (ht : IsNumeric t) :
    IsNumeric (s ++ t) := by
  intro c hc
  rw [String.toList_append] at hc
  rcases List.mem_append.mp hc with hc | hc
  · exact hs c hc
  · exact ht c hc

theorem isNumeric_repr (n : Nat) : IsNumeric n.repr :=
  fun _ hc => .inl (Text.mem_natRepr hc)

theorem isNumeric_padded (width n : Nat) : IsNumeric (padded width n) := by
  refine IsNumeric.append (fun c hc => ?_) (isNumeric_repr n)
  rw [String.toList_ofList] at hc
  rw [(List.mem_replicate.mp hc).2]
  exact .inl (by decide)

theorem isNumeric_pointed (places n : Nat) : IsNumeric (pointed places n) := by
  unfold pointed
  split
  · exact isNumeric_repr n
  · exact ((isNumeric_repr _).append (by simp [IsNumeric])).append (isNumeric_padded _ _)

theorem isNumeric_sign (q : ℚ) : IsNumeric (sign q) := by
  unfold sign
  split <;> simp [IsNumeric]

theorem IsNumeric.trimmed {s : String} (h : IsNumeric s) : IsNumeric (trimmed s) := by
  unfold NumberText.trimmed
  split
  · intro c hc
    rw [String.toList_ofList, List.mem_reverse] at hc
    have hmem := (List.dropWhile_sublist _).subset ((List.dropWhile_sublist _).subset hc)
    exact h c (List.mem_reverse.mp hmem)
  · exact h

theorem isNumeric_fixedText (places : Nat) (q : ℚ) : IsNumeric (fixedText places q) :=
  (isNumeric_sign q).append (isNumeric_pointed _ _)

theorem isNumeric_generalText (q : ℚ) : IsNumeric (generalText q) := by
  unfold generalText
  split
  · simp [IsNumeric]
  · dsimp only
    have hdigits : ∀ places n, IsNumeric (sign q ++ NumberText.trimmed (pointed places n)) :=
      fun places n => (isNumeric_sign q).append (isNumeric_pointed places n).trimmed
    split
    · refine (((hdigits _ _).append ?_).append ?_).append (isNumeric_padded _ _)
      · simp [IsNumeric]
      · split <;> simp [IsNumeric]
    · exact hdigits _ _

end NumberText

end Library
