/-
FprimeTopologyAnalysis.Library.Contributions — who contributes how much
to what.

A table of contributions has a row for each target, and in the row one
amount for each contributor. Noting an amount twice overwrites it, so a
contributor counts once however often it is met; what a target has in
total is the sum of its row.

`Records f d P` says what a table holds when a contributor always adds the
same amount `f`: exactly the contributions `P`. Notes extend `P`
(`Records.note`), and the totals are sums over the contributors of a target
(`Records.get?_totals`).
-/
import FprimeTopologyAnalysis.Library.Dict
import Mathlib.Algebra.BigOperators.Group.Finset.Basic

namespace Library

universe u v w

/-- For each target, what each contributor adds to it. -/
abbrev Contributions (κ : Type u) (ρ : Type v) (α : Type w) := Dict κ (Dict ρ α)

namespace Contributions

variable {κ : Type u} {ρ : Type v} {α : Type w} [DecidableEq κ] [DecidableEq ρ]

/-- `d[k][r] = a`, where a missing row is empty. -/
def note (d : Contributions κ ρ α) (k : κ) (r : ρ) (a : α) : Contributions κ ρ α :=
  d.set k (((d.get? k).getD ∅).set r a)

/-- `d[k][r]`. -/
def contribution? (d : Contributions κ ρ α) (k : κ) (r : ρ) : Option α :=
  ((d.get? k).getD ∅).get? r

/-- `{k: sum(row.values()) for k, row in d.items()}`. -/
def totals [AddCommMonoid α] (d : Contributions κ ρ α) : Dict κ α :=
  d.mapValues fun row => row.values.sum

theorem contribution?_note (d : Contributions κ ρ α) (k : κ) (r : ρ) (a : α) (k' : κ) (r' : ρ) :
    contribution? (note d k r a) k' r'
      = if k' = k ∧ r' = r then some a else contribution? d k' r' := by
  by_cases hk : k' = k
  · simp [contribution?, note, hk]
  · simp [contribution?, note, hk]

/-- Noting what is there changes nothing. -/
theorem note_eq_self {d : Contributions κ ρ α} {k : κ} {r : ρ} {a : α}
    (h : contribution? d k r = some a) : note d k r a = d := by
  unfold contribution? at h
  cases hrow : d.get? k with
  | none => simp [hrow] at h
  | some row =>
    rw [hrow, Option.getD_some] at h
    rw [note, hrow, Option.getD_some, Dict.set_eq_self h, Dict.set_eq_self hrow]

/-! ## What a table records -/

/-- The table holds the contributions `P`, each of the amount `f`. -/
structure Records (f : ρ → α) (d : Contributions κ ρ α) (P : κ → ρ → Prop) : Prop where
  contribution : ∀ k r a, contribution? d k r = some a ↔ P k r ∧ a = f r
  row : ∀ k row, d.get? k = some row → ∃ r, P k r

variable {f : ρ → α} {d : Contributions κ ρ α} {P P' : κ → ρ → Prop}

theorem Records.empty : Records f (∅ : Contributions κ ρ α) fun _ _ => False where
  contribution k r a := by simp [contribution?]
  row k row h := by simp at h

theorem Records.congr (h : Records f d P) (hP : ∀ k r, P' k r ↔ P k r) : Records f d P' where
  contribution k r a := by rw [h.contribution, hP]
  row k row hrow := by
    obtain ⟨r, hr⟩ := h.row k row hrow
    exact ⟨r, (hP k r).mpr hr⟩

/-- A note adds one contribution. -/
theorem Records.note (h : Records f d P) (k : κ) (r : ρ) :
    Records f (note d k r (f r)) fun k' r' => P k' r' ∨ (k' = k ∧ r' = r) where
  contribution k' r' a := by
    rw [contribution?_note]
    split
    · rename_i hkr
      simp [hkr.1, hkr.2, eq_comm]
    · rename_i hkr
      simp [h.contribution, hkr]
  row k' row hrow := by
    by_cases hk : k' = k
    · exact ⟨r, .inr ⟨hk, rfl⟩⟩
    · rw [Contributions.note, Dict.get?_set, if_neg hk] at hrow
      obtain ⟨r', hr'⟩ := h.row k' row hrow
      exact ⟨r', .inl hr'⟩

/-- One contributor may be noted at several targets. -/
theorem Records.foldl_note (r : ρ) : ∀ (ks : List κ) {d : Contributions κ ρ α}
    {P : κ → ρ → Prop}, Records f d P →
    Records f (ks.foldl (fun d k => Contributions.note d k r (f r)) d)
      fun k' r' => P k' r' ∨ (k' ∈ ks ∧ r' = r)
  | [], d, P, h => h.congr (by simp)
  | k :: ks, d, P, h => by
      rw [List.foldl_cons]
      refine (Records.foldl_note r ks (h.note k r)).congr fun k' r' => ?_
      simp only [List.mem_cons, or_and_right, or_assoc]

/-! ## Totals -/

variable [AddCommMonoid α]

/-- The values of a dictionary, summed over its keys. -/
theorem sum_values {row : Dict ρ α} (S : Finset ρ)
    (h : ∀ r a, row.get? r = some a ↔ r ∈ S ∧ a = f r) : row.values.sum = ∑ r ∈ S, f r := by
  have hkeys : row.keys.toFinset = S := by
    ext r
    rw [List.mem_toFinset, Dict.mem_keys_iff]
    simp [h]
  have hvalues : row.values = row.keys.map f := by
    rw [Dict.values, Dict.keys, List.map_map]
    refine List.map_congr_left fun e he => ?_
    exact ((h e.1 e.2).mp ((row.get?_eq_some_iff _ _).mpr he)).2
  rw [hvalues, ← hkeys]
  exact (List.sum_toFinset f row.nodupKeys).symm

/-- **Each contributor counts once**: the total of a target is the sum over
its contributors, and a target without any has none. -/
theorem Records.get?_totals (h : Records f d P) (S : κ → Finset ρ)
    (hS : ∀ k r, r ∈ S k ↔ P k r) (k : κ) :
    (totals d).get? k = if S k = ∅ then none else some (∑ r ∈ S k, f r) := by
  rw [totals, Dict.get?_mapValues]
  cases hrow : d.get? k with
  | none =>
    have hnone : S k = ∅ := by
      refine Finset.eq_empty_of_forall_notMem fun r hr => ?_
      have hsome := (h.contribution k r (f r)).mpr ⟨(hS k r).mp hr, rfl⟩
      simp [contribution?, hrow] at hsome
    simp [hnone]
  | some row =>
    obtain ⟨r, hr⟩ := h.row k row hrow
    have hne : S k ≠ ∅ := Finset.ne_empty_of_mem ((hS k r).mpr hr)
    have hsum : row.values.sum = ∑ r ∈ S k, f r := sum_values (S k) fun r a => by
      have hcontribution := h.contribution k r a
      rw [contribution?, hrow, Option.getD_some] at hcontribution
      rw [hcontribution, hS]
    simp [hne, hsum]

end Contributions

end Library
