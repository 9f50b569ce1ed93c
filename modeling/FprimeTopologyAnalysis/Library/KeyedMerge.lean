/-
FprimeTopologyAnalysis.Library.KeyedMerge — merging dictionaries whose
values can be joined.

A list of dictionaries can be merged by overwriting, where the last one to
define a key wins, or by joining, where a key gets the join of all that is
recorded for it. Overwriting is one dictionary update after the other; the
joined value is also what accumulating entry after entry into one
dictionary leads to (`get?_accumulateAll`).

`overwriteAll_eq_joinAt_iff`: the two merges agree in every order of the
dictionaries exactly when no two of these disagree on a key.
-/
import FprimeTopologyAnalysis.Library.Dict
import Mathlib.Order.Bounds.Basic

namespace Library

universe u v w

namespace KeyedMerge

variable {κ : Type u} {α : Type v} [DecidableEq κ]

/-- Merge by overwriting. -/
def overwriteAll (ds : List (Dict κ α)) : Dict κ α := ds.foldl Dict.update ∅

/-- No two of the dictionaries disagree on this key. -/
def AgreeAt (ds : List (Dict κ α)) (k : κ) : Prop :=
  ∀ d ∈ ds, ∀ e ∈ ds, ∀ a b, d.get? k = some a → e.get? k = some b → a = b

/-- No two of them disagree on any. -/
def Agree (ds : List (Dict κ α)) : Prop := ∀ k, AgreeAt ds k

instance [DecidableEq α] (ds : List (Dict κ α)) : Decidable (Agree ds) :=
  decidable_of_iff
    (∀ d ∈ ds, ∀ e ∈ ds, ∀ p ∈ d.entries, ∀ q ∈ e.entries, p.1 = q.1 → p.2 = q.2) <| by
    constructor
    · intro h k d hd e he a b hda heb
      exact h d hd e he (k, a) ((d.get?_eq_some_iff k a).mp hda) (k, b)
        ((e.get?_eq_some_iff k b).mp heb) rfl
    · intro h d hd e he p hp q hq hpq
      refine h p.1 d hd e he p.2 q.2 ((d.get?_eq_some_iff _ _).mpr hp) ?_
      rw [hpq]
      exact (e.get?_eq_some_iff _ _).mpr hq

/-- Some dictionary records `a` for `k`. -/
def Recorded (ds : List (Dict κ α)) (k : κ) (a : α) : Prop := ∃ d ∈ ds, d.get? k = some a

theorem Recorded.perm {ds ds' : List (Dict κ α)} (h : ds.Perm ds') {k : κ} {a : α} :
    Recorded ds k a ↔ Recorded ds' k a := by
  simp only [Recorded, h.mem_iff]

theorem AgreeAt.perm {ds ds' : List (Dict κ α)} {k : κ} (h : ds.Perm ds')
    (hagree : AgreeAt ds k) : AgreeAt ds' k :=
  fun d hd e he => hagree d (h.mem_iff.mpr hd) e (h.mem_iff.mpr he)

/-- The last dictionary to define a key wins. -/
theorem get?_overwriteAll_append (ds : List (Dict κ α)) (d : Dict κ α) (k : κ) :
    (overwriteAll (ds ++ [d])).get? k = (d.get? k).or ((overwriteAll ds).get? k) := by
  rw [overwriteAll, List.foldl_append, List.foldl_cons, List.foldl_nil, Dict.get?_update]
  rfl

/-- What a merge answers has been recorded, and every recorded key has an
answer. -/
theorem get?_overwriteAll (ds : List (Dict κ α)) (k : κ) :
    (∀ a, (overwriteAll ds).get? k = some a → Recorded ds k a)
      ∧ ((overwriteAll ds).get? k = none → ∀ a, ¬ Recorded ds k a) := by
  induction ds using List.reverseRecOn with
  | nil => exact ⟨fun a h => by simp [overwriteAll] at h, fun _ a ⟨d, hd, _⟩ => by simp at hd⟩
  | append_singleton ds d ih =>
    rw [get?_overwriteAll_append]
    cases hd : d.get? k with
    | some b =>
      refine ⟨fun a h => ?_, fun h => by simp at h⟩
      obtain rfl : b = a := by simpa using h
      exact ⟨d, by simp, hd⟩
    | none =>
      refine ⟨fun a h => ?_, fun h a => ?_⟩
      · obtain ⟨e, he, hget⟩ := ih.1 a (by simpa using h)
        exact ⟨e, List.mem_append_left _ he, hget⟩
      · rintro ⟨e, he, hget⟩
        rcases List.mem_append.mp he with he | he
        · exact ih.2 (by simpa using h) a ⟨e, he, hget⟩
        · obtain rfl := List.mem_singleton.mp he
          rw [hd] at hget
          cases hget

/-- Where the dictionaries agree the order of the merge does not matter. -/
theorem AgreeAt.get?_overwriteAll {ds ds' : List (Dict κ α)} {k : κ} (hagree : AgreeAt ds k)
    (h : ds.Perm ds') : (overwriteAll ds).get? k = (overwriteAll ds').get? k := by
  obtain ⟨hsome, hnone⟩ := KeyedMerge.get?_overwriteAll ds k
  obtain ⟨hsome', hnone'⟩ := KeyedMerge.get?_overwriteAll ds' k
  cases hget : (overwriteAll ds).get? k with
  | none =>
    cases hget' : (overwriteAll ds').get? k with
    | none => rfl
    | some a => exact absurd ((Recorded.perm h).mpr (hsome' a hget')) (hnone hget a)
  | some a =>
    cases hget' : (overwriteAll ds').get? k with
    | none => exact absurd ((Recorded.perm h).mp (hsome a hget)) (hnone' hget' a)
    | some b =>
      obtain ⟨d, hd, hda⟩ := hsome a hget
      obtain ⟨e, he, heb⟩ := (Recorded.perm h).mpr (hsome' b hget')
      rw [hagree d hd e he a b hda heb]

variable [SemilatticeSup α]

/-- The join of two recorded values. -/
def joinOpt : Option α → Option α → Option α
  | none, b => b
  | a, none => a
  | some a, some b => some (a ⊔ b)

@[simp] theorem joinOpt_none_left (b : Option α) : joinOpt none b = b := rfl

@[simp] theorem joinOpt_none_right (a : Option α) : joinOpt a none = a := by cases a <;> rfl

theorem joinOpt_assoc (a b c : Option α) :
    joinOpt (joinOpt a b) c = joinOpt a (joinOpt b c) := by
  cases a with
  | none => rfl
  | some a =>
    cases b with
    | none => rfl
    | some b =>
      cases c with
      | none => rfl
      | some c => simp [joinOpt, sup_assoc]

/-- The join of everything recorded for a key. -/
def joinAt (ds : List (Dict κ α)) (k : κ) : Option α :=
  ds.foldl (fun acc d => joinOpt acc (d.get? k)) none

theorem joinAt_append (ds : List (Dict κ α)) (d : Dict κ α) (k : κ) :
    joinAt (ds ++ [d]) k = joinOpt (joinAt ds k) (d.get? k) := by
  simp [joinAt, List.foldl_append]

/-- It is the least upper bound of what is recorded. -/
theorem joinAt_spec (ds : List (Dict κ α)) (k : κ) :
    (∀ x, joinAt ds k = some x → (∃ a, Recorded ds k a) ∧ IsLUB {a | Recorded ds k a} x)
      ∧ (joinAt ds k = none → ∀ a, ¬ Recorded ds k a) := by
  induction ds using List.reverseRecOn with
  | nil => exact ⟨fun x h => by simp [joinAt] at h, fun _ a ⟨d, hd, _⟩ => by simp at hd⟩
  | append_singleton ds d ih =>
    have hrec : ∀ a, Recorded (ds ++ [d]) k a ↔ Recorded ds k a ∨ d.get? k = some a := by
      intro a
      simp only [Recorded, List.mem_append, List.mem_singleton]
      constructor
      · rintro ⟨e, he | rfl, hget⟩
        · exact .inl ⟨e, he, hget⟩
        · exact .inr hget
      · rintro (⟨e, he, hget⟩ | hget)
        · exact ⟨e, .inl he, hget⟩
        · exact ⟨d, .inr rfl, hget⟩
    simp only [hrec, joinAt_append]
    cases hold : joinAt ds k with
    | none =>
      have hnone := ih.2 hold
      refine ⟨fun x h => ?_, fun h a ha => ?_⟩
      · have hget : d.get? k = some x := by simpa using h
        refine ⟨⟨x, .inr hget⟩, fun a ha => ?_, fun y hy => hy (.inr hget)⟩
        obtain rfl : x = a := by simpa [hget] using ha.resolve_left (hnone a)
        exact le_rfl
      · have hget : d.get? k = none := by simpa using h
        rcases ha with ha | ha
        · exact hnone a ha
        · rw [hget] at ha
          cases ha
    | some y =>
      obtain ⟨hex, hlub⟩ := ih.1 y hold
      refine ⟨fun x h => ⟨hex.imp fun _ => .inl, ?_⟩, fun h => ?_⟩
      · cases hget : d.get? k with
        | none =>
          rw [hget] at h
          obtain rfl : y = x := by simpa using h
          simpa using hlub
        | some b =>
          rw [hget] at h
          obtain rfl : y ⊔ b = x := by simpa [joinOpt] using h
          refine ⟨fun a ha => ?_, fun z hz => ?_⟩
          · rcases ha with ha | ha
            · exact (hlub.1 ha).trans le_sup_left
            · obtain rfl : b = a := by simpa using ha
              exact le_sup_right
          · exact sup_le (hlub.2 fun a ha => hz (.inl ha)) (hz (.inr rfl))
      · cases hget : d.get? k with
        | none => rw [hget] at h; simp at h
        | some b => rw [hget] at h; simp [joinOpt] at h

/-- **When overwriting loses nothing**: in every order of the items each key
has the join of all that their dictionaries record for it, iff no two of
these disagree. -/
theorem overwriteAll_eq_joinAt_iff {ι : Type w} (f : ι → Dict κ α) (us : List ι) :
    (∀ us' : List ι, us'.Perm us → ∀ k, (overwriteAll (us'.map f)).get? k = joinAt (us'.map f) k)
      ↔ Agree (us.map f) := by
  constructor
  · -- any dictionary can come last, and then bounds the others
    intro hall
    have hle : ∀ d ∈ us.map f, ∀ e ∈ us.map f, ∀ k a b, d.get? k = some a → e.get? k = some b →
        b ≤ a := by
      intro d hd e he k a b hda heb
      obtain ⟨u, hu, rfl⟩ := List.mem_map.mp hd
      obtain ⟨xs, ys, hsplit⟩ := List.append_of_mem hu
      have hperm : (xs ++ ys ++ [u]).Perm us := by
        rw [hsplit]
        exact (List.perm_append_singleton u _).trans List.perm_middle.symm
      have hlast := hall _ hperm k
      rw [List.map_append, List.map_cons, List.map_nil] at hlast
      rw [get?_overwriteAll_append, hda, Option.some_or] at hlast
      have hmem : e ∈ (xs ++ ys).map f ++ [f u] := by
        have := (hperm.map f).mem_iff.mpr he
        rwa [List.map_append, List.map_cons, List.map_nil] at this
      exact ((joinAt_spec _ k).1 a hlast.symm).2.1 ⟨e, hmem, heb⟩
    intro k d hd e he a b hda heb
    exact le_antisymm (hle e he d hd k b a heb hda) (hle d hd e he k a b hda heb)
  · intro hagree us' hperm k
    have hagree' := (hagree k).perm (hperm.map f).symm
    obtain ⟨hsome, hnone⟩ := get?_overwriteAll (us'.map f) k
    obtain ⟨hjoin, hjoinNone⟩ := joinAt_spec (us'.map f) k
    cases hget : (overwriteAll (us'.map f)).get? k with
    | none =>
      cases hj : joinAt (us'.map f) k with
      | none => rfl
      | some x =>
        obtain ⟨a, ha⟩ := (hjoin x hj).1
        exact absurd ha (hnone hget a)
    | some a =>
      have ha := hsome a hget
      cases hj : joinAt (us'.map f) k with
      | none => exact absurd ha (hjoinNone hj a)
      | some x =>
        obtain ⟨d, hd, hda⟩ := ha
        have hsingle : ∀ b, Recorded (us'.map f) k b → b ≤ a := by
          rintro b ⟨e, he, heb⟩
          exact (hagree' e he d hd b a heb hda).le
        rw [le_antisymm ((hjoin x hj).2.1 ⟨d, hd, hda⟩) ((hjoin x hj).2.2 hsingle)]

/-! ## Accumulating into one dictionary -/

/-- Join a value to what is recorded for a key. -/
def accumulate (d : Dict κ α) (e : κ × α) : Dict κ α :=
  d.set e.1 (match d.get? e.1 with
    | none => e.2
    | some old => old ⊔ e.2)

/-- One entry after the other. -/
def accumulateAll (d : Dict κ α) (es : List (κ × α)) : Dict κ α := es.foldl accumulate d

theorem get?_accumulate (d : Dict κ α) (e : κ × α) (k : κ) :
    (accumulate d e).get? k = joinOpt (d.get? k) (if k = e.1 then some e.2 else none) := by
  unfold accumulate
  rw [Dict.get?_set]
  by_cases hk : k = e.1
  · rw [if_pos hk, if_pos hk, hk]
    cases d.get? e.1 <;> rfl
  · rw [if_neg hk, if_neg hk, joinOpt_none_right]

/-- Accumulating into `d` is joining what accumulating from nothing gives. -/
theorem get?_accumulateAll (es : List (κ × α)) (k : κ) : ∀ d : Dict κ α,
    (accumulateAll d es).get? k = joinOpt (d.get? k) ((accumulateAll ∅ es).get? k) := by
  induction es with
  | nil => intro d; simp [accumulateAll]
  | cons e es ih =>
    intro d
    have hcons : ∀ d, accumulateAll d (e :: es) = accumulateAll (accumulate d e) es := fun _ => rfl
    rw [hcons, hcons, ih, ih (accumulate ∅ e), get?_accumulate, get?_accumulate, joinOpt_assoc]
    simp

/-- A key that is accumulated is there. -/
theorem get?_accumulateAll_ne_none {es : List (κ × α)} {k : κ} (h : k ∈ es.map Prod.fst) :
    ∀ d : Dict κ α, (accumulateAll d es).get? k ≠ none := by
  have hjoin : ∀ (a : Option α) (b : α), joinOpt a (some b) ≠ none := by
    intro a b
    cases a <;> simp [joinOpt]
  induction es with
  | nil => simp at h
  | cons e es ih =>
    intro d
    show (accumulateAll (accumulate d e) es).get? k ≠ none
    by_cases hk : k = e.1
    · rw [get?_accumulateAll, get?_accumulate, if_pos hk, joinOpt_assoc]
      cases hrest : (accumulateAll ∅ es).get? k with
      | none => exact hjoin _ e.2
      | some a => exact hjoin _ (e.2 ⊔ a)
    · exact ih ((List.mem_cons.mp h).resolve_left hk) _

end KeyedMerge

end Library
