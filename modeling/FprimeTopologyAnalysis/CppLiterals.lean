/-
FprimeTopologyAnalysis.CppLiterals — C++ integer literals as `_cpp_int` of
`rate_groups.py` reads them.

`_cpp_int` drops the suffix of a literal and leaves its base to Python's
`int(_, 0)`. Python reads a decimal literal and a hexadecimal one as C++
does, and refuses one with a leading zero, which is octal in C++, unless all
its digits are zeros; of a decimal one it reads 4300 digits at most. So it
reads a literal as C++ does or not at all, and `cppInt_eq_iff` says when.
-/
import FprimeTopologyAnalysis.Library.Regex
import Mathlib.Data.List.DropRight
import Mathlib.Data.Nat.Digits.Defs

namespace FprimeTopologyAnalysis

open Library

/-! ## Python integers -/

/-- The exceptions that reading an integer raises. -/
inductive PyError where
  | valueError
  | overflowError
  deriving DecidableEq

/-- The value of a digit. -/
def digitValue (c : Char) : Nat :=
  if c.isDigit then c.toNat - '0'.toNat
  else if 'a'.toNat ≤ c.toNat ∧ c.toNat ≤ 'f'.toNat then c.toNat - 'a'.toNat + 10
  else if 'A'.toNat ≤ c.toNat ∧ c.toNat ≤ 'F'.toNat then c.toNat - 'A'.toNat + 10
  else 16

/-- The character is a digit of the base. -/
def isDigitOf (base : Nat) (c : Char) : Bool := digitValue c < base

/-- The number that digits stand for. -/
def valueIn (base : Nat) (digits : List Char) : Nat :=
  Nat.ofDigits base (digits.reverse.map digitValue)

/-- `sys.int_info.default_max_str_digits`. -/
def maxStrDigits : Nat := 4300

/-- Digits after the prefix of a base that is a power of two. -/
def pyRadix (base : Nat) (digits : List Char) : Except PyError Nat :=
  if digits ≠ [] ∧ digits.all (isDigitOf base) then .ok (valueIn base digits)
  else .error .valueError

/-- Digits without a prefix. -/
def pyDecimal (digits : List Char) : Except PyError Nat :=
  if digits = [] ∨ ¬ digits.all (isDigitOf 10) then .error .valueError
  else if maxStrDigits < digits.length then .error .valueError
  else if digits.head? = some '0' ∧ digits.any (· ≠ '0') then .error .valueError
  else .ok (valueIn 10 digits)

/-- `int(text, 0)`, of a text without signs, blanks and underscores. -/
def pyInt (text : List Char) : Except PyError Nat :=
  match text with
  | '0' :: x :: digits =>
    if x ∈ ['x', 'X'] then pyRadix 16 digits
    else if x ∈ ['o', 'O'] then pyRadix 8 digits
    else if x ∈ ['b', 'B'] then pyRadix 2 digits
    else pyDecimal text
  | _ => pyDecimal text

/-! ## Literals -/

/-- The letters of a suffix, `[uUlL]`. -/
def isIntSuffix (c : Char) : Bool := c ∈ ['u', 'U', 'l', 'L']

/-- `CPP_INT`. -/
def cppIntPattern : Regex.Pat :=
  .seq
    (.alt
      (.cat [.lit "0", .set (· ∈ ['x', 'X']), .plus (.set (isDigitOf 16))])
      (.plus (.set (isDigitOf 10))))
    (.star true (.set isIntSuffix))

/-- `_cpp_int`. -/
def cppInt (value : List Char) : Except PyError Nat := pyInt (value.rdropWhile isIntSuffix)

/-- The integer literals of C++, without binary ones and separators, and the
values they have. -/
inductive CppLiteral : List Char → Nat → Prop
  | hex {x : Char} {digits suffix : List Char} (hx : x ∈ ['x', 'X']) (hne : digits ≠ [])
      (hdigits : ∀ c ∈ digits, isDigitOf 16 c = true)
      (hsuffix : ∀ c ∈ suffix, isIntSuffix c = true) :
      CppLiteral ('0' :: x :: digits ++ suffix) (valueIn 16 digits)
  | decimal {digits suffix : List Char} (hne : digits ≠ []) (hfirst : digits.head? ≠ some '0')
      (hdigits : ∀ c ∈ digits, isDigitOf 10 c = true)
      (hsuffix : ∀ c ∈ suffix, isIntSuffix c = true) :
      CppLiteral (digits ++ suffix) (valueIn 10 digits)
  | octal {digits suffix : List Char} (hdigits : ∀ c ∈ digits, isDigitOf 8 c = true)
      (hsuffix : ∀ c ∈ suffix, isIntSuffix c = true) :
      CppLiteral ('0' :: digits ++ suffix) (valueIn 8 ('0' :: digits))

/-- A literal without its suffix. -/
def digitsOf (literal : List Char) : List Char := literal.rdropWhile isIntSuffix

/-- A hexadecimal literal. -/
def IsHex (literal : List Char) : Prop :=
  ∃ x rest, literal = '0' :: x :: rest ∧ x ∈ ['x', 'X']

/-- A literal with a leading zero and a digit that is no zero. -/
def IsOctal (literal : List Char) : Prop :=
  ¬ IsHex literal ∧ literal.head? = some '0' ∧ ∃ c ∈ digitsOf literal, c ≠ '0'

/-- Python reads the literal. -/
def ReadByPython (literal : List Char) : Prop :=
  IsHex literal ∨ (¬ IsOctal literal ∧ (digitsOf literal).length ≤ maxStrDigits)

/-! ## Reading literals -/

theorem not_suffix_of_digit {c : Char} (h : isDigitOf 16 c = true) : isIntSuffix c = false := by
  cases hsuffix : isIntSuffix c with
  | false => rfl
  | true =>
    have hmem : c ∈ ['u', 'U', 'l', 'L'] := of_decide_eq_true hsuffix
    simp only [List.mem_cons, List.not_mem_nil, or_false] at hmem
    rcases hmem with rfl | rfl | rfl | rfl <;> revert h <;> decide

theorem isDigitOf_mono {base base' : Nat} (hle : base ≤ base') {c : Char}
    (h : isDigitOf base c = true) : isDigitOf base' c = true := by
  simp only [isDigitOf, decide_eq_true_eq] at h ⊢
  omega

theorem not_suffix_of_decimal {digits : List Char} (h : ∀ c ∈ digits, isDigitOf 10 c = true) :
    ∀ c ∈ digits, isIntSuffix c = false :=
  fun c hc => not_suffix_of_digit (isDigitOf_mono (by omega) (h c hc))

/-- The suffix is what is dropped. -/
theorem digitsOf_append {front suffix : List Char} (hfront : ∀ c ∈ front, isIntSuffix c = false)
    (hsuffix : ∀ c ∈ suffix, isIntSuffix c = true) : digitsOf (front ++ suffix) = front := by
  unfold digitsOf
  induction suffix using List.reverseRecOn with
  | nil =>
    rw [List.append_nil, List.rdropWhile_eq_self_iff]
    intro hne
    simp [hfront _ (List.getLast_mem hne)]
  | append_singleton suffix c ih =>
    rw [← List.append_assoc, List.rdropWhile_concat_pos _ _ _ (hsuffix c (by simp))]
    exact ih fun d hd => hsuffix d (List.mem_append_left _ hd)

/-- **What the pattern accepts**: hexadecimal digits after a prefix, or
decimal digits, and a suffix. -/
theorem mem_lang_cppInt {literal : List Char} (h : literal ∈ cppIntPattern.lang) :
    ∃ front suffix, literal = front ++ suffix ∧ (∀ c ∈ suffix, isIntSuffix c = true)
      ∧ ((∃ x digits, front = '0' :: x :: digits ∧ x ∈ ['x', 'X'] ∧ digits ≠ []
            ∧ ∀ c ∈ digits, isDigitOf 16 c = true)
        ∨ front ≠ [] ∧ ∀ c ∈ front, isDigitOf 10 c = true) := by
  obtain ⟨front, hfront, suffix, hsuffix, rfl⟩ := Language.mem_mul.mp h
  refine ⟨front, suffix, rfl, Regex.Pat.mem_lang_star_set hsuffix, ?_⟩
  rcases hfront with hhex | hdigits
  · obtain ⟨zero, hzero, rest, hrest, rfl⟩ := Language.mem_mul.mp hhex
    obtain ⟨c, _, rfl, hc, rfl⟩ := Regex.Pat.mem_lang_seq_set hzero
    obtain ⟨x, tail, rfl, hx, htail⟩ := Regex.Pat.mem_lang_seq_set hrest
    obtain ⟨digits, hdigits, _, rfl, rfl⟩ := Language.mem_mul.mp htail
    obtain rfl : c = '0' := beq_iff_eq.mp hc
    obtain ⟨hne, hall⟩ := Regex.Pat.mem_lang_plus_set hdigits
    exact .inl ⟨x, digits, by simp, of_decide_eq_true hx, hne, hall⟩
  · exact .inr (Regex.Pat.mem_lang_plus_set hdigits)

theorem cppInt_hex {x : Char} {digits suffix : List Char} (hx : x ∈ ['x', 'X']) (hne : digits ≠ [])
    (hdigits : ∀ c ∈ digits, isDigitOf 16 c = true)
    (hsuffix : ∀ c ∈ suffix, isIntSuffix c = true) :
    cppInt ('0' :: x :: digits ++ suffix) = .ok (valueIn 16 digits) := by
  have hfront : ∀ c ∈ '0' :: x :: digits, isIntSuffix c = false := by
    intro c hc
    rcases List.mem_cons.mp hc with rfl | hc
    · decide
    · rcases List.mem_cons.mp hc with rfl | hc
      · simp only [List.mem_cons, List.not_mem_nil, or_false] at hx
        rcases hx with rfl | rfl <;> decide
      · exact not_suffix_of_digit (hdigits c hc)
  have hall : digits.all (isDigitOf 16) = true := List.all_eq_true.mpr hdigits
  show pyInt (digitsOf ('0' :: x :: digits ++ suffix)) = _
  rw [digitsOf_append hfront hsuffix]
  simp only [pyInt]
  rw [if_pos hx, pyRadix, if_pos ⟨hne, hall⟩]

theorem cppInt_digits {digits suffix : List Char} (hne : digits ≠ [])
    (hdigits : ∀ c ∈ digits, isDigitOf 10 c = true)
    (hsuffix : ∀ c ∈ suffix, isIntSuffix c = true) :
    cppInt (digits ++ suffix)
      = if maxStrDigits < digits.length then .error .valueError
        else if digits.head? = some '0' ∧ digits.any (· ≠ '0') then .error .valueError
        else .ok (valueIn 10 digits) := by
  have hfront := not_suffix_of_decimal hdigits
  have hall : digits.all (isDigitOf 10) = true := List.all_eq_true.mpr hdigits
  have hdecimal : pyInt digits = pyDecimal digits := by
    unfold pyInt
    split
    · rename_i x rest
      have hx : isDigitOf 10 x = true := hdigits x (by simp)
      have hnot : ∀ letters : List Char, letters.all (fun c => !isDigitOf 10 c) = true →
          x ∉ letters := by
        intro letters hletters hmem
        have hletter := List.all_eq_true.mp hletters x hmem
        simp [hx] at hletter
      rw [if_neg (hnot _ (by decide)), if_neg (hnot _ (by decide)), if_neg (hnot _ (by decide))]
    · rfl
  show pyInt (digitsOf (digits ++ suffix)) = _
  rw [digitsOf_append hfront hsuffix, hdecimal, pyDecimal, if_neg (by simp [hne, hall])]

/-! ## When a literal is read -/

theorem isHex_hex {x : Char} {digits suffix : List Char} (hx : x ∈ ['x', 'X']) :
    IsHex ('0' :: x :: digits ++ suffix) :=
  ⟨x, digits ++ suffix, rfl, hx⟩

/-- Decimal digits are no hexadecimal literal. -/
theorem not_isHex_digits {digits suffix : List Char}
    (hdigits : ∀ c ∈ digits, isDigitOf 10 c = true)
    (hsuffix : ∀ c ∈ suffix, isIntSuffix c = true) : ¬ IsHex (digits ++ suffix) := by
  rintro ⟨x, rest, heq, hx⟩
  have hplain : isDigitOf 10 x = true ∨ isIntSuffix x = true := by
    have hmem : x ∈ digits ++ suffix := by
      rw [heq]
      simp
    exact (List.mem_append.mp hmem).imp (hdigits x) (hsuffix x)
  simp only [List.mem_cons, List.not_mem_nil, or_false] at hx
  rcases hx with rfl | rfl <;> revert hplain <;> decide

/-- Decimal digits are read as decimal ones or not at all. -/
theorem cppInt_digits_eq_iff {digits suffix : List Char} (hne : digits ≠ [])
    (hdigits : ∀ c ∈ digits, isDigitOf 10 c = true)
    (hsuffix : ∀ c ∈ suffix, isIntSuffix c = true) (v : Nat) :
    cppInt (digits ++ suffix) = .ok v
      ↔ ReadByPython (digits ++ suffix) ∧ v = valueIn 10 digits := by
  have hfront := not_suffix_of_decimal hdigits
  have hhead : (digits ++ suffix).head? = digits.head? := List.head?_append_of_ne_nil _ hne
  have hoctal : IsOctal (digits ++ suffix)
      ↔ digits.head? = some '0' ∧ digits.any (· ≠ '0') = true := by
    simp [IsOctal, not_isHex_digits hdigits hsuffix, digitsOf_append hfront hsuffix, hhead]
  rw [cppInt_digits hne hdigits hsuffix]
  simp only [ReadByPython, not_isHex_digits hdigits hsuffix, false_or, hoctal,
    digitsOf_append hfront hsuffix]
  by_cases hlong : maxStrDigits < digits.length
  · rw [if_pos hlong]
    constructor
    · intro h
      cases h
    · rintro ⟨⟨_, hshort⟩, _⟩
      omega
  · rw [if_neg hlong]
    by_cases hzero : digits.head? = some '0' ∧ digits.any (· ≠ '0') = true
    · rw [if_pos hzero]
      constructor
      · intro h
        cases h
      · rintro ⟨⟨hnot, _⟩, _⟩
        exact absurd hzero hnot
    · rw [if_neg hzero]
      constructor
      · intro h
        exact ⟨⟨hzero, Nat.not_lt.mp hlong⟩, (Except.ok.inj h).symm⟩
      · rintro ⟨_, rfl⟩
        rfl

/-- A literal that is accepted is read by Python exactly when it is
hexadecimal, or neither octal nor too long. -/
theorem cppInt_ok_iff {literal : List Char} (h : literal ∈ cppIntPattern.lang) :
    (∃ v, cppInt literal = .ok v) ↔ ReadByPython literal := by
  obtain ⟨front, suffix, rfl, hsuffix, ⟨x, digits, rfl, hx, hne, hdigits⟩ | ⟨hne, hdigits⟩⟩ :=
    mem_lang_cppInt h
  · exact iff_of_true ⟨_, cppInt_hex hx hne hdigits hsuffix⟩ (.inl (isHex_hex hx))
  · simp [cppInt_digits_eq_iff hne hdigits hsuffix]

/-- What Python reads with a leading zero is all zeros. -/
theorem zeros_of_readByPython {digits suffix : List Char}
    (hdigits : ∀ c ∈ '0' :: digits, isDigitOf 10 c = true)
    (hsuffix : ∀ c ∈ suffix, isIntSuffix c = true)
    (h : ReadByPython ('0' :: digits ++ suffix)) : ∀ c ∈ '0' :: digits, c = '0' := by
  have hfront := not_suffix_of_decimal hdigits
  have hhex := not_isHex_digits hdigits hsuffix
  intro c hc
  by_contra hother
  refine (h.resolve_left hhex).1 ⟨hhex, rfl, c, ?_, hother⟩
  rwa [digitsOf_append hfront hsuffix]

theorem valueIn_zeros (base : Nat) {digits : List Char} (h : ∀ c ∈ digits, c = '0') :
    valueIn base digits = 0 := by
  obtain ⟨n, rfl⟩ : ∃ n, digits = List.replicate n '0' := ⟨_, List.eq_replicate_iff.mpr ⟨rfl, h⟩⟩
  have hzero : digitValue '0' = 0 := by decide
  rw [valueIn, List.reverse_replicate, List.map_replicate, hzero]
  exact Nat.ofDigits_replicate_zero

/-- **A literal is read as C++ reads it**, exactly when Python reads it. -/
theorem cppInt_eq_iff {literal : List Char} {v : Nat} (h : CppLiteral literal v) :
    cppInt literal = .ok v ↔ ReadByPython literal := by
  cases h with
  | hex hx hne hdigits hsuffix =>
    exact iff_of_true (cppInt_hex hx hne hdigits hsuffix) (.inl (isHex_hex hx))
  | decimal hne hfirst hdigits hsuffix => simp [cppInt_digits_eq_iff hne hdigits hsuffix]
  | @octal digits suffix hdigits hsuffix =>
    have hall : ∀ c ∈ '0' :: digits, isDigitOf 10 c = true := by
      intro c hc
      rcases List.mem_cons.mp hc with rfl | hc
      · decide
      · exact isDigitOf_mono (by omega) (hdigits c hc)
    rw [cppInt_digits_eq_iff (by simp) hall hsuffix, and_iff_left_iff_imp]
    intro hread
    have hzeros := zeros_of_readByPython hall hsuffix hread
    rw [valueIn_zeros 8 hzeros, valueIn_zeros 10 hzeros]

/-- An accepted literal that Python reads is one of C++, with the value that
is read. -/
theorem cppLiteral_of_cppInt {literal : List Char} (h : literal ∈ cppIntPattern.lang) {v : Nat}
    (hv : cppInt literal = .ok v) : CppLiteral literal v := by
  obtain ⟨front, suffix, rfl, hsuffix, ⟨x, digits, rfl, hx, hne, hdigits⟩ | ⟨hne, hdigits⟩⟩ :=
    mem_lang_cppInt h
  · rw [cppInt_hex hx hne hdigits hsuffix] at hv
    obtain rfl := Except.ok.inj hv
    exact .hex hx hne hdigits hsuffix
  · obtain ⟨hread, rfl⟩ := (cppInt_digits_eq_iff hne hdigits hsuffix v).mp hv
    cases front with
    | nil => exact absurd rfl hne
    | cons c rest =>
      by_cases hc : c = '0'
      · subst hc
        have hzeros := zeros_of_readByPython hdigits hsuffix hread
        have hoctal : ∀ c ∈ rest, isDigitOf 8 c = true := by
          intro c hc
          rw [hzeros c (List.mem_cons_of_mem _ hc)]
          decide
        rw [valueIn_zeros 10 hzeros, ← valueIn_zeros 8 hzeros]
        exact .octal hoctal hsuffix
      · exact .decimal hne (by simpa using hc) hdigits hsuffix

end FprimeTopologyAnalysis
