/-
FprimeTopologyAnalysis.Library.VerifyingTrace — reusing a result while what
it was made from is unchanged.

A `Reading` is a computation over an environment together with the keys it
reads there. It answers alike wherever these keys are unchanged, and that
is all there is to go by: `divert` behaves as the computation does until
one of the keys changes, and then answers anything.

A trace holds fingerprints of some keys. It is taken with `record` and
checked against a later environment with `Verifies`.
-/
import Mathlib.Data.Finset.Option
import Mathlib.Data.Finset.Union

namespace Library

universe u v w

/-- A computation over an environment, and the keys it reads there. -/
structure Reading (κ : Type u) (ω : Type v) (α : Type w) where
  run : (κ → ω) → α
  reads : (κ → ω) → Finset κ
  run_eq : ∀ {e e' : κ → ω}, (∀ k ∈ reads e, e' k = e k) → run e' = run e

namespace Reading

variable {κ : Type u} {ω : Type v} {α : Type w}

/-- Two computations that cannot be told apart in `e`. -/
structure Alike (r r' : Reading κ ω α) (e : κ → ω) : Prop where
  run : r'.run e = r.run e
  reads : r'.reads e = r.reads e

theorem Alike.refl (r : Reading κ ω α) (e : κ → ω) : Alike r r e := ⟨rfl, rfl⟩

variable [DecidableEq ω]

/-- Does as `r` does in `e` until something `r` reads there changes. -/
def divert (r : Reading κ ω α) (e : κ → ω) (a : α) : Reading κ ω α where
  run e' := if ∀ k ∈ r.reads e, e' k = e k then r.run e else a
  reads _ := r.reads e
  run_eq := by
    intro e₁ e₂ h
    have hiff : (∀ k ∈ r.reads e, e₂ k = e k) ↔ ∀ k ∈ r.reads e, e₁ k = e k :=
      forall₂_congr fun k hk => by rw [h k hk]
    simp only [hiff]

theorem divert_alike (r : Reading κ ω α) (e : κ → ω) (a : α) : Alike r (r.divert e a) e where
  run := if_pos fun _ _ => rfl
  reads := rfl

theorem divert_of_changed {r : Reading κ ω α} {e e' : κ → ω} {k : κ} (hk : k ∈ r.reads e)
    (hne : e' k ≠ e k) (a : α) : (r.divert e a).run e' = a :=
  if_neg fun h => hne (h k hk)

end Reading

namespace VerifyingTrace

variable {κ : Type u} {φ : Type v} [DecidableEq κ] [DecidableEq φ]

/-- The keys with their fingerprints, if all have one. -/
def record (fingerprint : κ → Option φ) (keys : Finset κ) : Option (Finset (κ × φ)) :=
  if ∀ k ∈ keys, (fingerprint k).isSome then
    some (keys.biUnion fun k => ((fingerprint k).map (Prod.mk k)).toFinset)
  else none

/-- Every fingerprint of the trace is as recorded. -/
def Verifies (fingerprint : κ → Option φ) (trace : Finset (κ × φ)) : Prop :=
  ∀ p ∈ trace, fingerprint p.1 = some p.2

instance (fingerprint : κ → Option φ) (trace : Finset (κ × φ)) :
    Decidable (Verifies fingerprint trace) :=
  inferInstanceAs (Decidable (∀ p ∈ trace, _))

/-- Where a trace verifies, its keys have the fingerprints they had. -/
theorem Verifies.of_record {f f' : κ → Option φ} {keys : Finset κ} {trace : Finset (κ × φ)}
    (h : Verifies f' trace) (hrecord : record f keys = some trace) {k : κ} (hk : k ∈ keys) :
    ∃ a, f k = some a ∧ f' k = some a := by
  unfold record at hrecord
  split at hrecord
  · rename_i hall
    obtain ⟨a, ha⟩ := Option.isSome_iff_exists.mp (hall k hk)
    refine ⟨a, ha, h (k, a) ?_⟩
    rw [← Option.some.inj hrecord, Finset.mem_biUnion]
    exact ⟨k, hk, by simp [ha]⟩
  · cases hrecord

/-- A trace verifies where it is taken. -/
theorem verifies_record {f : κ → Option φ} {keys : Finset κ} {trace : Finset (κ × φ)}
    (h : record f keys = some trace) : Verifies f trace := by
  unfold record at h
  split at h
  · obtain rfl := Option.some.inj h
    intro p hp
    simp only [Finset.mem_biUnion, Option.mem_toFinset, Option.mem_def, Option.map_eq_some_iff] at hp
    obtain ⟨k, _, a, ha, rfl⟩ := hp
    exact ha
  · cases h

end VerifyingTrace

end Library
