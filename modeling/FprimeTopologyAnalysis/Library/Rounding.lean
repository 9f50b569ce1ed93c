/-
FprimeTopologyAnalysis.Library.Rounding — rational arithmetic that rounds to
a number of binary digits.

A result is rounded to the nearest number with `digits` binary digits, ties
to even; exponents have no bounds here. What is a whole multiple of a power
of two, and has no more digits above it, stays as it is (`round_eq_self`).
So a sum of such numbers is exact in whatever order it is added up, one by
one (`total_eq_sum`) or with a compensation (`SumOf.apply_eq_sum`). What one
addition loses has no more digits than its summands (`isFloat_lost`), so a
compensation keeps it, and does not change a sum of two (`SumOf.apply_pair`).
-/
import FprimeTopologyAnalysis.Library.NumberText
import Mathlib.Algebra.BigOperators.Group.Finset.Basic
import Mathlib.Algebra.Order.BigOperators.Group.List
import Mathlib.Algebra.Order.Ring.Abs

namespace Library

namespace Rounding

/-- The exponent of the last digit. -/
def lastExp (digits : Nat) (x : ℚ) : Int := Int.log 2 |x| + 1 - digits

/-- The place of the last digit. -/
def unit (digits : Nat) (x : ℚ) : ℚ := 2 ^ lastExp digits x

/-- The nearest number with this many digits. -/
def round (digits : Nat) (x : ℚ) : ℚ :=
  NumberText.halfEven (x / unit digits x) * unit digits x

/-- A number with this many digits. -/
def IsFloat (digits : Nat) (x : ℚ) : Prop := round digits x = x

instance (digits : Nat) (x : ℚ) : Decidable (IsFloat digits x) :=
  inferInstanceAs (Decidable (round digits x = x))

def add (digits : Nat) (x y : ℚ) : ℚ := round digits (x + y)

def sub (digits : Nat) (x y : ℚ) : ℚ := round digits (x - y)

def div (digits : Nat) (x y : ℚ) : ℚ := round digits (x / y)

/-- What is added up one by one. -/
def total (digits : Nat) (xs : List ℚ) : ℚ := xs.foldl (add digits) 0

/-- One more summand, and what its addition loses. -/
def compensate (digits : Nat) (s : ℚ × ℚ) (x : ℚ) : ℚ × ℚ :=
  let t := add digits s.1 x
  if |x| ≤ |s.1| then (t, add digits s.2 (add digits (sub digits s.1 t) x))
  else (t, add digits s.2 (add digits (sub digits x t) s.1))

/-- How a list is summed: as it stands, or with what the additions lose
added at the end. -/
inductive SumOf where
  | plain
  | compensated

/-- The sum of a list. The first summand is taken as it is. -/
def SumOf.apply (digits : Nat) : SumOf → List ℚ → ℚ
  | _, [] => 0
  | .plain, x :: xs => xs.foldl (add digits) x
  | .compensated, x :: xs =>
    let (t, lost) := xs.foldl (compensate digits) (x, 0)
    if lost = 0 then t else add digits t lost

/-! ## Multiples of a power of two -/

/-- A whole multiple of `2 ^ k`. -/
def IsMultiple (k : Int) (x : ℚ) : Prop := ∃ n : Int, x = n * 2 ^ k

namespace IsMultiple

variable {k : Int} {x y : ℚ}

theorem zero : IsMultiple k 0 := ⟨0, by simp⟩

theorem add (hx : IsMultiple k x) (hy : IsMultiple k y) : IsMultiple k (x + y) := by
  obtain ⟨n, rfl⟩ := hx
  obtain ⟨m, rfl⟩ := hy
  exact ⟨n + m, by push_cast; ring⟩

theorem neg (hx : IsMultiple k x) : IsMultiple k (-x) := by
  obtain ⟨n, rfl⟩ := hx
  exact ⟨-n, by push_cast; ring⟩

theorem finset_sum {ι : Type*} {S : Finset ι} {f : ι → ℚ} (h : ∀ i ∈ S, IsMultiple k (f i)) :
    IsMultiple k (∑ i ∈ S, f i) :=
  Finset.sum_induction f (IsMultiple k) (fun _ _ hx hy => hx.add hy) zero h

/-- Of a smaller power too. -/
theorem of_le {j : Int} (hx : IsMultiple k x) (hle : j ≤ k) : IsMultiple j x := by
  obtain ⟨n, rfl⟩ := hx
  refine ⟨n * 2 ^ (k - j).toNat, ?_⟩
  have hpow : (2 : ℚ) ^ k = 2 ^ (k - j).toNat * 2 ^ j := by
    rw [← zpow_natCast, ← zpow_add₀ two_ne_zero]
    congr 1
    omega
  push_cast
  rw [hpow, mul_assoc]

theorem sub (hx : IsMultiple k x) (hy : IsMultiple k y) : IsMultiple k (x - y) := by
  rw [sub_eq_add_neg]
  exact hx.add hy.neg

theorem abs (hx : IsMultiple k x) : IsMultiple k |x| := by
  rcases abs_choice x with habs | habs
  · rwa [habs]
  · rw [habs]
    exact hx.neg

/-- A power of two, on either side of zero. -/
theorem of_abs_eq {i : Int} (h : |x| = 2 ^ i) (hle : k ≤ i) : IsMultiple k x := by
  have hpow : IsMultiple k ((2 : ℚ) ^ i) := of_le ⟨1, by simp⟩ hle
  rcases abs_choice x with habs | habs
  · rwa [← habs, h]
  · have hneg := hpow.neg
    rwa [← h, habs, neg_neg] at hneg

/-- Two multiples of one power are apart by it. -/
theorem eq_or_le (hx : IsMultiple k x) (hy : IsMultiple k y) :
    x = y ∨ 2 ^ k ≤ |x - y| := by
  obtain ⟨n, rfl⟩ := hx
  obtain ⟨m, rfl⟩ := hy
  by_cases hnm : n = m
  · exact .inl (by rw [hnm])
  · have hone : (1 : ℚ) ≤ |(n : ℚ) - m| := by exact_mod_cast Int.one_le_abs (sub_ne_zero.mpr hnm)
    have hpow : (0 : ℚ) < 2 ^ k := zpow_pos two_pos _
    refine .inr ?_
    rw [← sub_mul, abs_mul, abs_of_pos hpow]
    nlinarith

end IsMultiple

section Exact

variable {digits : Nat} {k : Int} {x t : ℚ} {xs : List ℚ}

@[simp] theorem halfEven_intCast (n : Int) : NumberText.halfEven n = n := by
  simp [NumberText.halfEven]

@[simp] theorem round_zero : round digits 0 = 0 := by
  simp [round, NumberText.halfEven]

theorem unit_ne_zero : unit digits x ≠ 0 := zpow_ne_zero _ two_ne_zero

/-- **What fits the digits is not rounded.** -/
theorem round_eq_self (h : IsMultiple k x) (hlt : |x| < 2 ^ (k + digits)) : round digits x = x := by
  by_cases hzero : x = 0
  · rw [hzero, round_zero]
  · have hlog : Int.log 2 |x| < k + digits :=
      (Int.lt_zpow_iff_log_lt one_lt_two (abs_pos.mpr hzero)).mp (by exact_mod_cast hlt)
    obtain ⟨n, hn⟩ : IsMultiple (lastExp digits x) x := h.of_le (by unfold lastExp; omega)
    have hquot : x / unit digits x = n := by
      rw [div_eq_iff unit_ne_zero]
      exact hn
    rw [round, hquot, halfEven_intCast]
    exact hn.symm

theorem foldl_add_eq (ht : IsMultiple k t) (h : ∀ x ∈ xs, IsMultiple k x)
    (hlt : |t| + (xs.map abs).sum < 2 ^ (k + digits)) : xs.foldl (add digits) t = t + xs.sum := by
  induction xs generalizing t with
  | nil => simp
  | cons x xs ih =>
    rw [List.map_cons, List.sum_cons] at hlt
    have hnonneg : 0 ≤ (xs.map abs).sum := List.sum_nonneg (by simp)
    have habs : |t + x| ≤ |t| + |x| := abs_add_le t x
    have hsum : IsMultiple k (t + x) := ht.add (h x (by simp))
    have hadd : add digits t x = t + x := round_eq_self hsum (by linarith)
    rw [List.foldl_cons, hadd, ih hsum (fun y hy => h y (by simp [hy])) (by linarith), List.sum_cons,
      add_assoc]

/-- **A total of what fits the digits is exact.** -/
theorem total_eq_sum (h : ∀ x ∈ xs, IsMultiple k x) (hlt : (xs.map abs).sum < 2 ^ (k + digits)) :
    total digits xs = xs.sum := by
  rw [total, foldl_add_eq .zero h (by simpa using hlt), zero_add]

/-- Nothing is lost where nothing is rounded. -/
theorem foldl_compensate_eq (ht : IsMultiple k t) (h : ∀ x ∈ xs, IsMultiple k x)
    (hlt : |t| + (xs.map abs).sum < 2 ^ (k + digits)) :
    xs.foldl (compensate digits) (t, 0) = (t + xs.sum, 0) := by
  induction xs generalizing t with
  | nil => simp
  | cons x xs ih =>
    rw [List.map_cons, List.sum_cons] at hlt
    have hnonneg : 0 ≤ (xs.map abs).sum := List.sum_nonneg (by simp)
    have hx : IsMultiple k x := h x (by simp)
    have habs : |t + x| ≤ |t| + |x| := abs_add_le t x
    have hadd : add digits t x = t + x := round_eq_self (ht.add hx) (by linarith)
    have hleft : sub digits t (t + x) = -x := by
      rw [sub, sub_add_cancel_left]
      exact round_eq_self hx.neg (by rw [abs_neg]; linarith [abs_nonneg t])
    have hright : sub digits x (t + x) = -t := by
      rw [sub, sub_add_cancel_right]
      exact round_eq_self ht.neg (by rw [abs_neg]; linarith [abs_nonneg x])
    have hzero : ∀ y z : ℚ, y + z = 0 → add digits y z = 0 := fun y z hyz => by
      rw [add, hyz, round_zero]
    have hstep : compensate digits (t, 0) x = (t + x, 0) := by
      simp only [compensate, hadd, hleft, hright]
      split <;> simp [hzero]
    rw [List.foldl_cons, hstep, ih (ht.add hx) (fun y hy => h y (by simp [hy])) (by linarith),
      List.sum_cons, add_assoc]

/-- **Both sums of what fits the digits are exact.** -/
theorem SumOf.apply_eq_sum (sums : SumOf) (h : ∀ x ∈ xs, IsMultiple k x)
    (hlt : (xs.map abs).sum < 2 ^ (k + digits)) : sums.apply digits xs = xs.sum := by
  cases xs with
  | nil => cases sums <;> rfl
  | cons x xs =>
    have hx : IsMultiple k x := h x (by simp)
    have hxs : ∀ y ∈ xs, IsMultiple k y := fun y hy => h y (by simp [hy])
    rw [List.map_cons, List.sum_cons] at hlt
    cases sums with
    | plain => rw [SumOf.apply, foldl_add_eq hx hxs hlt, List.sum_cons]
    | compensated => simp [SumOf.apply, foldl_compensate_eq hx hxs hlt]

end Exact

/-! ## The nearest number -/

section Nearest

variable {digits : Nat} {k : Int} {x y a b : ℚ}

theorem abs_halfEven_sub_le (q : ℚ) : |(NumberText.halfEven q : ℚ) - q| ≤ 1 / 2 := by
  have hfloor := Int.floor_le q
  have hlt := Int.lt_floor_add_one q
  unfold NumberText.halfEven
  rw [abs_le]
  split_ifs <;> push_cast <;> constructor <;> linarith

theorem IsFloat.eq (h : IsFloat digits x) : round digits x = x := h

theorem isMultiple_round (digits : Nat) (x : ℚ) :
    IsMultiple (lastExp digits x) (round digits x) := ⟨_, rfl⟩

theorem abs_lt_lastExp (digits : Nat) (x : ℚ) : |x| < 2 ^ (lastExp digits x + digits) := by
  have hlt : |x| < ((2 : ℕ) : ℚ) ^ (Int.log 2 |x| + 1) :=
    Int.lt_zpow_succ_log_self one_lt_two |x|
  rw [lastExp, sub_add_cancel]
  exact_mod_cast hlt

theorem abs_round_sub_le (digits : Nat) (x : ℚ) :
    |round digits x - x| ≤ 2 ^ (lastExp digits x) / 2 := by
  have hunit : 0 < unit digits x := zpow_pos two_pos _
  have hdiff : round digits x - x
      = (NumberText.halfEven (x / unit digits x) - x / unit digits x) * unit digits x := by
    rw [sub_mul, div_mul_cancel₀ _ hunit.ne', round]
  rw [hdiff, abs_mul, abs_of_pos hunit]
  have := abs_halfEven_sub_le (x / unit digits x)
  show _ ≤ unit digits x / 2
  nlinarith

/-- What has at most this many digits is not rounded. -/
theorem isFloat_of_le (hdigits : 0 < digits) (h : IsMultiple k x) (hle : |x| ≤ 2 ^ (k + digits)) :
    IsFloat digits x := by
  rcases hle.lt_or_eq with hlt | heq
  · exact round_eq_self h hlt
  · -- a power of two has a digit to spare
    refine round_eq_self (IsMultiple.of_abs_eq heq (by omega) : IsMultiple (k + 1) x) ?_
    rw [heq]
    exact zpow_lt_zpow_right₀ one_lt_two (by omega)

theorem IsFloat.isMultiple (hx : IsFloat digits x) : IsMultiple (lastExp digits x) x := by
  have h := isMultiple_round digits x
  rwa [hx.eq] at h

/-- **Nothing with this many digits is nearer.** -/
theorem IsFloat.nearest (hdigits : 0 < digits) (hy : IsFloat digits y) :
    |round digits x - x| ≤ |y - x| := by
  by_cases hzero : x = 0
  · rw [hzero, round_zero, sub_zero, abs_zero]
    exact abs_nonneg _
  -- among the multiples of the last digit's place
  have hgrid : ∀ z, IsMultiple (lastExp digits x) z → |round digits x - x| ≤ |z - x| := by
    intro z hz
    rcases hz.eq_or_le (isMultiple_round ..) with rfl | hapart
    · exact le_rfl
    · have hhalf := abs_round_sub_le digits x
      have htri : |z - round digits x| ≤ |z - x| + |round digits x - x| := by
        rw [abs_sub_comm (round digits x) x]
        exact abs_sub_le z x _
      linarith
  by_cases hle : lastExp digits x ≤ lastExp digits y
  · exact hgrid y (hy.isMultiple.of_le hle)
  · -- `y` is not above the leading digit of `x`, which is a multiple
    have hlead : ((2 : ℕ) : ℚ) ^ Int.log 2 |x| ≤ |x| :=
      Int.zpow_log_le_self one_lt_two (abs_pos.mpr hzero)
    push_cast at hlead
    have hbelow : |y| < 2 ^ Int.log 2 |x| := by
      refine (abs_lt_lastExp digits y).trans_le (zpow_le_zpow_right₀ one_le_two ?_)
      unfold lastExp at hle ⊢
      omega
    have hpow : (0 : ℚ) < 2 ^ Int.log 2 |x| := zpow_pos two_pos _
    obtain ⟨z, hz, hzx⟩ : ∃ z : ℚ, |z| = 2 ^ Int.log 2 |x| ∧ |z - x| = |x| - 2 ^ Int.log 2 |x| := by
      rcases abs_choice x with habs | habs
      · refine ⟨2 ^ Int.log 2 |x|, abs_of_pos hpow, ?_⟩
        rw [abs_sub_comm, abs_of_nonneg (by linarith)]
        linarith
      · refine ⟨-2 ^ Int.log 2 |x|, by rw [abs_neg, abs_of_pos hpow], ?_⟩
        rw [abs_of_nonneg (by linarith)]
        linarith
    have hnear := hgrid z (IsMultiple.of_abs_eq hz (by unfold lastExp; omega))
    have htri : |x| ≤ |y - x| + |y| := by
      have := abs_sub_le x y 0
      rwa [sub_zero, sub_zero, abs_sub_comm x y] at this
    linarith

/-- What is rounded has this many digits. -/
theorem isFloat_round (hdigits : 0 < digits) (x : ℚ) : IsFloat digits (round digits x) := by
  have hlt := abs_lt.mp (abs_lt_lastExp digits x)
  refine isFloat_of_le hdigits (isMultiple_round ..) ?_
  -- the power of two above `x` has this many digits, on either side of zero
  have hpow : (0 : ℚ) < 2 ^ (lastExp digits x + digits) := zpow_pos two_pos _
  have habove : ∀ z : ℚ, |z| = 2 ^ (lastExp digits x + digits) → |round digits x - x| ≤ |z - x| := by
    intro z hz
    refine (isFloat_of_le hdigits (IsMultiple.of_abs_eq hz le_rfl) ?_).nearest hdigits
    rw [hz]
    exact zpow_le_zpow_right₀ one_le_two (by omega)
  have hupper := habove _ (abs_of_pos hpow)
  have hlower := habove (-2 ^ (lastExp digits x + digits)) (by rw [abs_neg, abs_of_pos hpow])
  rw [abs_of_pos (a := 2 ^ (lastExp digits x + digits) - x) (by linarith)] at hupper
  rw [abs_of_neg (a := -2 ^ (lastExp digits x + digits) - x) (by linarith)] at hlower
  have hround := abs_le.mp hupper
  have hround' := abs_le.mp hlower
  exact abs_le.mpr ⟨by linarith, by linarith⟩

/-- Rounding keeps multiples. -/
theorem IsMultiple.round (hx : IsMultiple k x) : IsMultiple k (round digits x) := by
  by_cases hle : k ≤ lastExp digits x
  · exact (isMultiple_round ..).of_le hle
  · rw [round_eq_self (hx.of_le (not_le.mp hle).le) (abs_lt_lastExp digits x)]
    exact hx

/-! ## What an addition loses -/

theorem lastExp_le (hzero : b ≠ 0) (hle : |b| ≤ |a|) : lastExp digits b ≤ lastExp digits a := by
  have := Int.log_mono_right (b := 2) (abs_pos.mpr hzero) hle
  unfold lastExp
  omega

/-- A sum has at most one place more than the larger summand. -/
theorem lastExp_add_le (hsum : a + b ≠ 0) (hle : |b| ≤ |a|) :
    lastExp digits (a + b) ≤ lastExp digits a + 1 := by
  have hlt : |a| < ((2 : ℕ) : ℚ) ^ (Int.log 2 |a| + 1) := Int.lt_zpow_succ_log_self one_lt_two |a|
  have htwice : |a + b| < ((2 : ℕ) : ℚ) ^ (Int.log 2 |a| + 2) := by
    have hsplit : ((2 : ℕ) : ℚ) ^ (Int.log 2 |a| + 2) = 2 * ((2 : ℕ) : ℚ) ^ (Int.log 2 |a| + 1) := by
      rw [show Int.log 2 |a| + 2 = Int.log 2 |a| + 1 + 1 by ring, zpow_add_one₀ (by norm_num),
        mul_comm]
      norm_num
    rw [hsplit]
    linarith [abs_add_le a b]
  have := (Int.lt_zpow_iff_log_lt one_lt_two (abs_pos.mpr hsum)).mp htwice
  unfold lastExp
  omega

/-- An addition loses no more than what is added. -/
theorem abs_lost_le (hdigits : 0 < digits) (ha : IsFloat digits a) (b : ℚ) :
    |a + b - add digits a b| ≤ |b| := by
  have hnear := ha.nearest hdigits (x := a + b)
  rwa [sub_add_cancel_left, abs_neg, abs_sub_comm] at hnear

/-- A number stays below the next power of two by one unit of its last place. -/
theorem IsFloat.abs_add_le (ha : IsFloat digits a) :
    |a| + 2 ^ lastExp digits a ≤ 2 ^ (lastExp digits a + digits) := by
  have hlt := abs_lt_lastExp digits a
  have hpow : IsMultiple (lastExp digits a) ((2 : ℚ) ^ (lastExp digits a + digits)) :=
    IsMultiple.of_abs_eq (abs_of_pos (zpow_pos two_pos _)) (by omega)
  rcases ha.isMultiple.abs.eq_or_le hpow with heq | hapart
  · exact absurd heq hlt.ne
  · rw [abs_sub_comm, abs_of_pos (by linarith)] at hapart
    linarith

section TwoSum

variable (ha : IsFloat digits a) (hb : IsFloat digits b) (hle : |b| ≤ |a|)
include ha hb hle

/-- A sum is a multiple of the smaller summand's last place. -/
theorem isMultiple_sum (hzero : b ≠ 0) : IsMultiple (lastExp digits b) (a + b) :=
  (ha.isMultiple.of_le (lastExp_le hzero hle)).add hb.isMultiple

/-- What an addition loses has this many digits. -/
theorem isFloat_lost (hdigits : 0 < digits) : IsFloat digits (a + b - add digits a b) := by
  by_cases hzero : b = 0
  · rw [add, hzero, add_zero, ha.eq, sub_self]
    exact round_zero
  have hmultiple := isMultiple_sum ha hb hle hzero
  exact round_eq_self (hmultiple.sub hmultiple.round)
    ((abs_lost_le hdigits ha b).trans_lt (abs_lt_lastExp digits b))

/-- The difference of a sum and its larger summand has this many digits. -/
theorem isFloat_sub_add (hdigits : 0 < digits) : IsFloat digits (a - add digits a b) := by
  by_cases hzero : b = 0
  · rw [add, hzero, add_zero, ha.eq, sub_self]
    exact round_zero
  have hmultiple := isMultiple_sum ha hb hle hzero
  have hbelow := abs_lt_lastExp digits b
  by_cases hexact : add digits a b = a + b
  · rw [hexact, sub_add_cancel_left]
    exact round_eq_self hb.isMultiple.neg (by rwa [abs_neg])
  have hlonger : lastExp digits (a + b) ≤ lastExp digits a + 1 :=
    lastExp_add_le (fun hsum => hexact (by rw [add, hsum, round_zero])) hle
  have hbeyond : lastExp digits b < lastExp digits (a + b) := by
    by_contra hwithin
    exact hexact (round_eq_self (hmultiple.of_le (not_lt.mp hwithin)) (abs_lt_lastExp digits _))
  have hdiff : |a - add digits a b| ≤ 2 ^ lastExp digits (a + b) / 2 + |b| := by
    have hlost := abs_round_sub_le digits (a + b)
    have htri := abs_sub (a + b - add digits a b) b
    rw [show a + b - add digits a b - b = a - add digits a b by ring] at htri
    rw [abs_sub_comm] at hlost
    exact htri.trans (add_le_add_left hlost _)
  by_cases hplace : lastExp digits (a + b) ≤ lastExp digits a
  · -- the last place of the sum is that of the difference
    refine isFloat_of_le hdigits
      ((ha.isMultiple.of_le hplace).sub (isMultiple_round ..)) (hdiff.trans ?_)
    have hsmall : |b| ≤ 2 ^ (lastExp digits (a + b) + digits - 1) :=
      hbelow.le.trans (zpow_le_zpow_right₀ one_le_two (by omega))
    have hplaces : (2 : ℚ) ^ lastExp digits (a + b) ≤ 2 ^ (lastExp digits (a + b) + digits) :=
      zpow_le_zpow_right₀ one_le_two (by omega)
    rw [zpow_sub_one₀ two_ne_zero] at hsmall
    linarith
  · -- the sum has one place more than `a`
    have hplace' : lastExp digits (a + b) = lastExp digits a + 1 := by omega
    refine isFloat_of_le hdigits (ha.isMultiple.sub
      ((isMultiple_round ..).of_le (show lastExp digits a ≤ lastExp digits (a + b) by omega)))
      (hdiff.trans ?_)
    have hspare := ha.abs_add_le
    rw [hplace', zpow_add_one₀ two_ne_zero]
    linarith

end TwoSum

theorem add_swap (digits : Nat) (a b : ℚ) : add digits a b = add digits b a := by
  rw [add, add, add_comm]

/-- What the compensation keeps of one addition is what the addition loses. -/
theorem compensate_zero (hdigits : 0 < digits) (ha : IsFloat digits a) (hb : IsFloat digits b) :
    compensate digits (a, 0) b = (add digits a b, a + b - add digits a b) := by
  have hkeep : ∀ {x y : ℚ}, IsFloat digits x → IsFloat digits y → |y| ≤ |x| →
      add digits 0 (add digits (sub digits x (add digits x y)) y) = x + y - add digits x y := by
    intro x y hx hy hle
    have hlost := (isFloat_lost hx hy hle hdigits).eq
    rw [sub, (isFloat_sub_add hx hy hle hdigits).eq, add, add, zero_add, sub_add_eq_add_sub, hlost,
      hlost]
  by_cases hle : |b| ≤ |a|
  · simp only [compensate, hle, if_true]
    rw [hkeep ha hb hle]
  · simp only [compensate, hle, if_false]
    rw [add_swap digits a b, hkeep hb ha (not_le.mp hle).le, add_comm b a]

/-- **The sum of two numbers is their addition**, compensated or not. -/
theorem SumOf.apply_pair (sums : SumOf) (hdigits : 0 < digits) (ha : IsFloat digits a)
    (hb : IsFloat digits b) : sums.apply digits [a, b] = add digits a b := by
  cases sums with
  | plain => rfl
  | compensated =>
    simp only [SumOf.apply, List.foldl_cons, List.foldl_nil, compensate_zero hdigits ha hb]
    split
    · rfl
    · -- what was lost does not come back
      rw [add, add_sub_cancel]
      rfl

/-- A total has this many digits. -/
theorem isFloat_total (hdigits : 0 < digits) (xs : List ℚ) : IsFloat digits (total digits xs) := by
  rcases List.eq_nil_or_concat xs with rfl | ⟨xs, x, rfl⟩
  · exact round_zero
  · rw [List.concat_eq_append, total, List.foldl_append]
    exact isFloat_round hdigits _

end Nearest

@[simp] theorem SumOf.apply_singleton (sums : SumOf) (digits : Nat) (x : ℚ) :
    sums.apply digits [x] = x := by
  cases sums <;> simp [SumOf.apply]

end Rounding

end Library
