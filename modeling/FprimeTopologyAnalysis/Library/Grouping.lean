/-
FprimeTopologyAnalysis.Library.Grouping — elements gathered by key.

One pass over a list keeps a dictionary: each element goes to the entry of
its key, which the first of them creates. The entry of a key is then the
fold over the elements that have this key, in their order
(`get?_foldl_gather`), so the keys do not disturb each other.

`keepFirst` is the pass that leaves out an element whose key it has met.
What is left has every key of the list and each of them once
(`nodup_keepFirsts`, `mem_map_keepFirsts`), so an element is alone under its
key (`filter_key_eq_singleton`) and a sum over them is one over the keys
(`sum_map_eq_sum`).
-/
import FprimeTopologyAnalysis.Library.Dict
import Mathlib.Algebra.BigOperators.Group.Finset.Basic

namespace Library

universe u v w

namespace Dict

variable {κ : Type u} {α : Type v} {β : Type w} [DecidableEq κ]

/-- `d.setdefault(key(a), init(a))`, and an update of what is there. -/
def gather (key : α → κ) (init : α → β) (step : β → α → β) (d : Dict κ β) (a : α) : Dict κ β :=
  d.set (key a) (step ((d.get? (key a)).getD (init a)) a)

variable {key : α → κ} {init : α → β} {step : β → α → β}

/-- **A key sees its own elements only.** -/
theorem get?_foldl_gather (k : κ) : ∀ (as : List α) (d : Dict κ β),
    (as.foldl (gather key init step) d).get? k
      = (as.filter fun a => key a = k).foldl (fun b a => some (step (b.getD (init a)) a)) (d.get? k)
  | [], _ => rfl
  | a :: as, d => by
      rw [List.foldl_cons, get?_foldl_gather k as, gather, get?_set]
      by_cases h : key a = k
      · simp [h]
      · have h' : ¬ k = key a := fun hk => h hk.symm
        simp [h, h']

/-- Once there, an entry is only updated. -/
theorem foldl_some (b : β) : ∀ as : List α,
    as.foldl (fun b a => some (step (b.getD (init a)) a)) (some b) = some (as.foldl step b)
  | [] => rfl
  | a :: as => foldl_some (step b a) as

/-- The first element of a key creates its entry. -/
theorem get?_gather_eq_some_iff {as : List α} {k : κ} {b : β} :
    (as.foldl (gather key init step) ∅).get? k = some b
      ↔ ∃ a rest, as.filter (fun a => key a = k) = a :: rest
        ∧ b = (a :: rest).foldl step (init a) := by
  rw [get?_foldl_gather, get?_empty]
  cases hfilter : as.filter fun a => key a = k with
  | nil => simp
  | cons a rest =>
    rw [List.foldl_cons, Option.getD_none, foldl_some, Option.some.injEq]
    constructor
    · intro h
      exact ⟨a, rest, rfl, h.symm⟩
    · rintro ⟨a', rest', heq, rfl⟩
      obtain ⟨rfl, rfl⟩ := List.cons.inj heq
      rfl

/-- The keys are those of the elements. -/
theorem mem_keys_gather {as : List α} {k : κ} :
    k ∈ (as.foldl (gather key init step) ∅).keys ↔ ∃ a ∈ as, key a = k := by
  simp only [mem_keys_iff, get?_gather_eq_some_iff]
  constructor
  · rintro ⟨_, a, rest, hfilter, _⟩
    have hmem : a ∈ as.filter fun a => key a = k := by simp [hfilter]
    obtain ⟨ha, hkey⟩ := List.mem_filter.mp hmem
    exact ⟨a, ha, of_decide_eq_true hkey⟩
  · rintro ⟨a, ha, hkey⟩
    have hmem : a ∈ as.filter fun a => key a = k := List.mem_filter.mpr ⟨ha, by simp [hkey]⟩
    obtain ⟨first, rest, hfilter⟩ := List.exists_cons_of_ne_nil (List.ne_nil_of_mem hmem)
    exact ⟨_, first, rest, hfilter, rfl⟩

end Dict

namespace Grouping

variable {κ : Type u} {α : Type v} [DecidableEq κ] (key : α → κ)

/-- `if key(a) in seen: continue`, else `kept.append(a)`. -/
def keepFirst (kept : List α) (a : α) : List α :=
  if key a ∈ kept.map key then kept else kept ++ [a]

/-- The elements that are kept of a list. -/
def keepFirsts (as : List α) : List α := as.foldl (keepFirst key) []

theorem keepFirsts_append_singleton (as : List α) (a : α) :
    keepFirsts key (as ++ [a]) = keepFirst key (keepFirsts key as) a := by
  simp [keepFirsts, List.foldl_append]

theorem nodup_keepFirsts (as : List α) : ((keepFirsts key as).map key).Nodup := by
  induction as using List.reverseRecOn with
  | nil => simp [keepFirsts]
  | append_singleton as a ih =>
    rw [keepFirsts_append_singleton, keepFirst]
    split
    · exact ih
    · rename_i hnew
      rw [List.map_append, List.nodup_append]
      refine ⟨ih, by simp, fun x hx y hy hxy => hnew ?_⟩
      obtain rfl : y = key a := by simpa using hy
      exact hxy ▸ hx

theorem mem_of_mem_keepFirsts {as : List α} {a : α} (h : a ∈ keepFirsts key as) : a ∈ as := by
  induction as using List.reverseRecOn with
  | nil => simp [keepFirsts] at h
  | append_singleton as b ih =>
    rw [keepFirsts_append_singleton, keepFirst] at h
    split at h
    · exact List.mem_append_left _ (ih h)
    · rcases List.mem_append.mp h with h | h
      · exact List.mem_append_left _ (ih h)
      · exact List.mem_append_right _ h

theorem mem_map_keepFirsts {as : List α} {k : κ} :
    k ∈ (keepFirsts key as).map key ↔ k ∈ as.map key := by
  induction as using List.reverseRecOn with
  | nil => simp [keepFirsts]
  | append_singleton as a ih =>
    rw [keepFirsts_append_singleton, keepFirst, List.map_append, List.mem_append, ← ih]
    split
    · rename_i hold
      refine (or_iff_left_of_imp fun h => ?_).symm
      obtain rfl : k = key a := by simpa using h
      exact hold
    · rw [List.map_append, List.mem_append]

/-- Where the keys are different, all is kept. -/
theorem keepFirsts_of_nodup {as : List α} (h : (as.map key).Nodup) : keepFirsts key as = as := by
  induction as using List.reverseRecOn with
  | nil => rfl
  | append_singleton as a ih =>
    rw [List.map_append, List.nodup_append] at h
    have hnew : key a ∉ as.map key := fun hold => h.2.2 _ hold _ (by simp) rfl
    rw [keepFirsts_append_singleton, ih h.1, keepFirst, if_neg hnew]

/-- Where the keys are different, an element is alone under its key. -/
theorem filter_key_eq_singleton : ∀ {as : List α}, (as.map key).Nodup → ∀ {a : α}, a ∈ as →
    as.filter (fun b => key b = key a) = [a]
  | b :: as, hnd, a, ha => by
      rw [List.map_cons, List.nodup_cons] at hnd
      rcases List.mem_cons.mp ha with rfl | ha
      · have hnil : as.filter (fun b => key b = key a) = [] := by
          rw [List.filter_eq_nil_iff]
          intro b hb hkey
          exact hnd.1 (of_decide_eq_true hkey ▸ List.mem_map_of_mem hb)
        simp [hnil]
      · have hne : key b ≠ key a := fun heq => hnd.1 (heq ▸ List.mem_map_of_mem ha)
        simp [hne, filter_key_eq_singleton hnd.2 ha]

/-- A sum by keys counts each key as often as it occurs. -/
theorem sum_map_eq_sum_length {M : Type*} [AddCommMonoid M] (f : κ → M) (as : List α) :
    (as.map fun a => f (key a)).sum
      = ∑ k ∈ (as.map key).toFinset, (as.filter fun a => key a = k).length • f k := by
  have hcount : ∀ k, (as.map key).count k = (as.filter fun a => key a = k).length := by
    intro k
    rw [List.count, List.countP_map, List.countP_eq_length_filter]
    exact congrArg List.length (List.filter_congr fun a _ => beq_eq_decide ..)
  have hmap : (as.map fun a => f (key a)) = (as.map key).map f := by
    rw [List.map_map]
    rfl
  rw [hmap, Finset.sum_list_map_count]
  exact Finset.sum_congr rfl fun k _ => by rw [hcount]

omit [DecidableEq κ] in
/-- **A list with different keys is summed over its keys**, under whatever
names `S` has for them. -/
theorem sum_map_eq_sum {ρ : Type*} {M : Type*} [AddCommMonoid M] [DecidableEq ρ] {f : α → M}
    {name : ρ → κ} {h : ρ → M} : ∀ {as : List α} {S : Finset ρ}, (as.map key).Nodup →
    Set.InjOn name S → (∀ k, k ∈ as.map key ↔ ∃ x ∈ S, name x = k) →
    (∀ a ∈ as, ∀ x ∈ S, name x = key a → f a = h x) → (as.map f).sum = ∑ x ∈ S, h x
  | [], S, _, _, hkeys, _ => by
      have hempty : S = ∅ := Finset.eq_empty_of_forall_notMem fun x hx =>
        absurd ((hkeys (name x)).mpr ⟨x, hx, rfl⟩) (by simp)
      simp [hempty]
  | a :: as, S, hnd, hinj, hkeys, hf => by
      rw [List.map_cons, List.nodup_cons] at hnd
      obtain ⟨x, hx, hname⟩ := (hkeys (key a)).mp (List.mem_cons_self ..)
      have hrest : (as.map f).sum = ∑ y ∈ S.erase x, h y := by
        refine sum_map_eq_sum hnd.2 (hinj.mono (Finset.coe_subset.mpr (Finset.erase_subset _ _)))
          (fun k => ?_) fun b hb y hy =>
            hf b (List.mem_cons_of_mem _ hb) y (Finset.mem_of_mem_erase hy)
        constructor
        · intro hk
          obtain ⟨y, hy, rfl⟩ := (hkeys k).mp (List.mem_cons_of_mem _ hk)
          have hne : y ≠ x := fun heq => hnd.1 (hname ▸ heq ▸ hk)
          exact ⟨y, Finset.mem_erase.mpr ⟨hne, hy⟩, rfl⟩
        · rintro ⟨y, hy, rfl⟩
          obtain ⟨hne, hmem⟩ := Finset.mem_erase.mp hy
          have hk := (hkeys (name y)).mpr ⟨y, hmem, rfl⟩
          rw [List.map_cons, List.mem_cons] at hk
          exact hk.resolve_left fun heq => hne (hinj hmem hx (heq.trans hname.symm))
      rw [List.map_cons, List.sum_cons, hrest, hf a (List.mem_cons_self ..) x hx hname,
        Finset.add_sum_erase _ _ hx]

end Grouping

end Library
