/-
FprimeTopologyAnalysis.Library.Slots — results that are filled in by index.

Some results are needed in order and become known out of order. There is a
slot for each, and whoever knows a result puts it at its index. While only
right results are put in, the slots agree with the list of all results
(`Agrees.fill`); once every slot is filled they are that list
(`fillAll_eq`), in whatever order this happened.

`poolMap` is a map whose items complete in a given order.
-/
import Mathlib.Data.List.Basic
import Mathlib.Data.List.Range
import Mathlib.Data.List.Perm.Basic

namespace Library.Slots

universe u v

variable {α : Type u} {β : Type v}

/-- As many empty slots. -/
def blank (n : Nat) : List (Option β) := List.replicate n none

/-- Put a result at its index. -/
def fill (slots : List (Option β)) (e : Nat × β) : List (Option β) := slots.set e.1 (some e.2)

/-- Put some results at their indices, one after the other. -/
def fillAll (slots : List (Option β)) (es : List (Nat × β)) : List (Option β) := es.foldl fill slots

/-- The results, if every slot is filled. -/
def collect (slots : List (Option β)) : Option (List β) := slots.mapM id

/-- The slots hold some of these results. -/
structure Agrees (results : List β) (slots : List (Option β)) : Prop where
  length : slots.length = results.length
  value : ∀ (i : Nat) (b : β), slots[i]? = some (some b) → results[i]? = some b

/-- A slot holds a result. -/
def Filled (slots : List (Option β)) (i : Nat) : Prop := ∃ b, slots[i]? = some (some b)

theorem agrees_blank (results : List β) : Agrees results (blank results.length) where
  length := List.length_replicate
  value i b h := by
    obtain ⟨_, hnone⟩ := List.getElem?_eq_some_iff.mp h
    simp [blank] at hnone

theorem getElem?_fill (slots : List (Option β)) (e : Nat × β) (i : Nat) :
    (fill slots e)[i]? = if e.1 = i ∧ i < slots.length then some (some e.2) else slots[i]? := by
  rw [fill, List.getElem?_set]
  by_cases hi : e.1 = i
  · subst hi
    by_cases hlt : e.1 < slots.length
    · simp [hlt]
    · simp [hlt]
  · simp [hi]

theorem Agrees.fill {results : List β} {slots : List (Option β)} (h : Agrees results slots)
    {e : Nat × β} (he : results[e.1]? = some e.2) : Agrees results (fill slots e) where
  length := by simp [Slots.fill, h.length]
  value i b hb := by
    rw [getElem?_fill] at hb
    split at hb
    · rename_i hi
      obtain rfl : e.2 = b := by simpa using hb
      exact hi.1 ▸ he
    · exact h.value i b hb

/-- A slot that is filled stays filled. -/
theorem Filled.fill {slots : List (Option β)} {i : Nat} (h : Filled slots i) (e : Nat × β) :
    Filled (fill slots e) i := by
  obtain ⟨b, hb⟩ := h
  rw [Filled, getElem?_fill]
  split
  · exact ⟨e.2, rfl⟩
  · exact ⟨b, hb⟩

theorem filled_fill {slots : List (Option β)} (e : Nat × β) (h : e.1 < slots.length) :
    Filled (fill slots e) e.1 :=
  ⟨e.2, by rw [getElem?_fill, if_pos ⟨rfl, h⟩]⟩

/-- Once every slot is filled nothing is missing. -/
theorem Agrees.eq_of_filled {results : List β} {slots : List (Option β)} (h : Agrees results slots)
    (hfilled : ∀ i < results.length, Filled slots i) : slots = results.map some := by
  refine List.ext_getElem? fun i => ?_
  rw [List.getElem?_map]
  by_cases hi : i < results.length
  · obtain ⟨b, hb⟩ := hfilled i hi
    rw [hb, h.value i b hb, Option.map_some]
  · rw [List.getElem?_eq_none (by rw [h.length]; omega), List.getElem?_eq_none (by omega),
      Option.map_none]

/-- **However they are filled**, slots that come to be all filled with right
results are the list of all results. -/
theorem fillAll_eq {results : List β} : ∀ (es : List (Nat × β)) {slots : List (Option β)},
    Agrees results slots → (∀ e ∈ es, results[e.1]? = some e.2) →
    (∀ i < results.length, Filled slots i ∨ i ∈ es.map Prod.fst) →
      fillAll slots es = results.map some
  | [], slots, h, _, hall => by
      refine h.eq_of_filled fun i hi => ?_
      have hfilled := hall i hi
      simpa using hfilled
  | e :: es, slots, h, hes, hall => by
      have hright : results[e.1]? = some e.2 := hes e (List.mem_cons_self ..)
      have hlt : e.1 < slots.length := by
        rw [h.length]
        exact (List.getElem?_eq_some_iff.mp hright).1
      rw [fillAll, List.foldl_cons]
      refine fillAll_eq es (h.fill hright) (fun x hx => hes x (List.mem_cons_of_mem _ hx)) ?_
      intro i hi
      rcases hall i hi with hfilled | hmem
      · exact .inl (hfilled.fill e)
      · rcases List.mem_cons.mp hmem with rfl | hmem
        · exact .inl (filled_fill e hlt)
        · exact .inr hmem

theorem collect_map_some (results : List β) : collect (results.map some) = some results := by
  induction results with
  | nil => rfl
  | cons b results ih =>
    rw [collect] at ih ⊢
    simp [List.mapM_cons, ih]

/-! ## A pool of workers -/

/-- The order in which a pool completes `n` items. -/
structure Schedule where
  order : Nat → List Nat
  perm : ∀ n, (order n).Perm (List.range n)

/-- The last item completes first. -/
def Schedule.backwards : Schedule := ⟨fun n => (List.range n).reverse, fun _ => List.reverse_perm _⟩

/-- The item at `i` has completed. -/
def completed (f : α → β) (items : List α) (i : Nat) : Option (Nat × β) :=
  items[i]?.map fun a => (i, f a)

/-- `f` of all items, as they complete, in the order of the items. -/
def poolMap (s : Schedule) (f : α → β) (items : List α) : Option (List β) :=
  collect (fillAll (blank items.length) ((s.order items.length).filterMap (completed f items)))

/-- Nobody can tell in which order they complete. -/
theorem poolMap_eq (s : Schedule) (f : α → β) (items : List α) :
    poolMap s f items = some (items.map f) := by
  have hblank := agrees_blank (items.map f)
  rw [List.length_map] at hblank
  have hfill := fillAll_eq ((s.order items.length).filterMap (completed f items)) hblank ?_ ?_
  · rw [poolMap, hfill, collect_map_some]
  · intro e he
    obtain ⟨i, _, hi⟩ := List.mem_filterMap.mp he
    obtain ⟨a, ha, rfl⟩ := Option.map_eq_some_iff.mp hi
    rw [List.getElem?_map, ha, Option.map_some]
  · intro i hi
    rw [List.length_map] at hi
    have hmem : i ∈ s.order items.length := (s.perm items.length).mem_iff.mpr (List.mem_range.mpr hi)
    have hdone : completed f items i = some (i, f items[i]) := by
      rw [completed, List.getElem?_eq_getElem hi, Option.map_some]
    exact .inr (List.mem_map.mpr ⟨_, List.mem_filterMap.mpr ⟨i, hmem, hdone⟩, rfl⟩)

end Library.Slots
