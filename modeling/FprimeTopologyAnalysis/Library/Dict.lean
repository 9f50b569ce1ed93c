/-
FprimeTopologyAnalysis.Library.Dict — insertion-ordered dictionaries.

A `Dict κ α` is a list of key/value entries no two of which share a key.
Assigning to a key that is present overwrites the value in place;
assigning to a new key appends an entry, so iteration follows the order
of first insertion. The no-repeat condition is a field, so a dictionary
that answers one key in two ways cannot be built.

Everything a program learns from a dictionary by lookup is stated here
through `get?`: `get?_set`, `get?_update` and `get?_group` are rules the
developments above use, and none of them unfolds `entries`.
-/
import Mathlib.Data.List.Nodup
import Mathlib.Data.List.Sort
import Mathlib.Data.Finset.Basic

namespace Library

universe u v w

/-- An insertion-ordered dictionary. -/
structure Dict (κ : Type u) (α : Type v) where
  entries : List (κ × α)
  nodupKeys : (entries.map Prod.fst).Nodup

namespace Dict

variable {κ : Type u} {α : Type v} {β : Type w}

instance [DecidableEq κ] [DecidableEq α] : DecidableEq (Dict κ α) := fun d e =>
  decidable_of_iff (d.entries = e.entries) <| by
    cases d; cases e; simp

/-- The empty dictionary, `{}`. -/
def empty : Dict κ α := ⟨[], List.nodup_nil⟩

instance : EmptyCollection (Dict κ α) := ⟨empty⟩

/-- `d.keys()`, in insertion order. -/
def keys (d : Dict κ α) : List κ := d.entries.map Prod.fst

/-- `d.values()`, in insertion order. -/
def values (d : Dict κ α) : List α := d.entries.map Prod.snd

variable [DecidableEq κ]

/-- `d.get(k)`. -/
def get? (d : Dict κ α) (k : κ) : Option α :=
  (d.entries.find? (fun e => e.1 = k)).map Prod.snd

/-- The entry list after `d[k] = a`: overwrite in place, or append. -/
def setEntries (es : List (κ × α)) (k : κ) (a : α) : List (κ × α) :=
  match es with
  | [] => [(k, a)]
  | e :: rest => if e.1 = k then (k, a) :: rest else e :: setEntries rest k a

theorem map_fst_setEntries (es : List (κ × α)) (k : κ) (a : α) :
    (setEntries es k a).map Prod.fst
      = if k ∈ es.map Prod.fst then es.map Prod.fst else es.map Prod.fst ++ [k] := by
  induction es with
  | nil => rfl
  | cons e rest ih =>
    by_cases h : e.1 = k
    · simp [setEntries, h]
    · have h' : ¬ k = e.1 := fun hk => h hk.symm
      by_cases hr : k ∈ rest.map Prod.fst
      · have hmem : k ∈ (e :: rest).map Prod.fst := List.mem_cons_of_mem _ hr
        rw [if_pos hr] at ih
        rw [if_pos hmem]
        simp only [setEntries, if_neg h, List.map_cons, ih]
      · rw [if_neg hr] at ih
        have hne : k ∉ (e :: rest).map Prod.fst := by
          rw [List.map_cons, List.mem_cons]
          exact fun hk => hk.elim h' hr
        rw [if_neg hne]
        simp only [setEntries, if_neg h, List.map_cons, ih, List.cons_append]

/-- `d[k] = a`. -/
def set (d : Dict κ α) (k : κ) (a : α) : Dict κ α where
  entries := setEntries d.entries k a
  nodupKeys := by
    rw [map_fst_setEntries]
    split
    · exact d.nodupKeys
    · rename_i hk
      exact List.nodup_append.mpr ⟨d.nodupKeys, by simp, by
        intro x hx y hy
        rw [List.mem_singleton] at hy
        exact fun h => hk (hy ▸ h ▸ hx)⟩

/-- `d.update(e)`: assign every entry of `e`, in `e`'s order. -/
def update (d e : Dict κ α) : Dict κ α :=
  e.entries.foldl (fun acc p => acc.set p.1 p.2) d

/-- A dictionary display `{k: a, ...}`; a later entry for a key wins. -/
def ofList (es : List (κ × α)) : Dict κ α :=
  es.foldl (fun acc p => acc.set p.1 p.2) ∅

/-! ## Lookup -/

@[simp] theorem get?_empty (k : κ) : (∅ : Dict κ α).get? k = none := rfl

/-- A lookup succeeds exactly on the entries. -/
theorem get?_eq_some_iff (d : Dict κ α) (k : κ) (a : α) :
    d.get? k = some a ↔ (k, a) ∈ d.entries := by
  obtain ⟨es, hnd⟩ := d
  simp only [get?]
  induction es with
  | nil => simp
  | cons e rest ih =>
    rw [List.map_cons, List.nodup_cons] at hnd
    by_cases h : e.1 = k
    · have hnot : (k, a) ∉ rest := fun hm =>
        hnd.1 (h ▸ List.mem_map.mpr ⟨(k, a), hm, rfl⟩)
      simp only [List.find?_cons, h, decide_true, Option.map_some, Option.some.injEq,
        List.mem_cons, hnot, or_false]
      constructor
      · intro ha; exact Prod.ext h.symm ha.symm
      · intro he; rw [← he]
    · have hne : (k, a) ≠ e := fun he => h (by rw [← he])
      simp only [List.find?_cons, h, decide_false, List.mem_cons, hne, false_or]
      exact ih hnd.2

theorem get?_eq_none_iff (d : Dict κ α) (k : κ) : d.get? k = none ↔ k ∉ d.keys := by
  simp only [get?, keys, Option.map_eq_none_iff, List.find?_eq_none, List.mem_map,
    decide_eq_true_eq, not_exists, not_and]

theorem mem_keys_iff (d : Dict κ α) (k : κ) : k ∈ d.keys ↔ ∃ a, d.get? k = some a := by
  rw [← not_iff_not, ← get?_eq_none_iff, Option.eq_none_iff_forall_ne_some]
  simp

theorem mem_keys_of_get? {d : Dict κ α} {k : κ} {a : α} (h : d.get? k = some a) :
    k ∈ d.keys :=
  (d.mem_keys_iff k).mpr ⟨a, h⟩

private theorem find?_setEntries (es : List (κ × α)) (k : κ) (a : α) (j : κ) :
    ((setEntries es k a).find? (fun e => e.1 = j)).map Prod.snd
      = if j = k then some a else (es.find? (fun e => e.1 = j)).map Prod.snd := by
  induction es with
  | nil =>
    by_cases h : j = k
    · simp [setEntries, h]
    · have h' : ¬ k = j := fun hk => h hk.symm
      simp [setEntries, h, h']
  | cons e rest ih =>
    by_cases he : e.1 = k
    · by_cases h : j = k
      · simp [setEntries, he, h]
      · have h' : ¬ k = j := fun hk => h hk.symm
        simp [setEntries, he, h, h']
    · by_cases hj : e.1 = j
      · have h : ¬ j = k := fun hk => he (hj.trans hk)
        simp [setEntries, hj, h]
      · simp only [setEntries, if_neg he, List.find?_cons, hj, decide_false, ih]

/-- Reading after one assignment. -/
@[simp] theorem get?_set (d : Dict κ α) (k : κ) (a : α) (j : κ) :
    (d.set k a).get? j = if j = k then some a else d.get? j :=
  find?_setEntries d.entries k a j

theorem get?_set_self (d : Dict κ α) (k : κ) (a : α) : (d.set k a).get? k = some a := by
  simp

/-- Assigning what is there changes nothing. -/
theorem set_eq_self {d : Dict κ α} {k : κ} {a : α} (h : d.get? k = some a) : d.set k a = d := by
  have hmem := (d.get?_eq_some_iff k a).mp h
  obtain ⟨es, hnd⟩ := d
  simp only [set, mk.injEq]
  clear h
  induction es with
  | nil => simp at hmem
  | cons e rest ih =>
    rw [List.map_cons, List.nodup_cons] at hnd
    rcases List.mem_cons.mp hmem with rfl | hrest
    · simp [setEntries]
    · have hne : e.1 ≠ k := fun hek => hnd.1 (hek ▸ List.mem_map.mpr ⟨(k, a), hrest, rfl⟩)
      simp [setEntries, hne, ih hnd.2 hrest]

theorem mem_keys_set (d : Dict κ α) (k : κ) (a : α) (j : κ) :
    j ∈ (d.set k a).keys ↔ j = k ∨ j ∈ d.keys := by
  rw [mem_keys_iff, mem_keys_iff]
  by_cases h : j = k
  · simp [h]
  · simp [h]

/-- Reading after a fold of assignments: the last entry for the key wins. -/
theorem get?_foldl_set (es : List (κ × α)) (hnd : (es.map Prod.fst).Nodup) :
    ∀ (d : Dict κ α) (j : κ),
      (es.foldl (fun acc p => acc.set p.1 p.2) d).get? j
        = ((es.find? (fun e => e.1 = j)).map Prod.snd).or (d.get? j) := by
  induction es with
  | nil => intro d j; rfl
  | cons e rest ih =>
    intro d j
    rw [List.map_cons, List.nodup_cons] at hnd
    rw [List.foldl_cons, ih hnd.2, get?_set]
    by_cases h : e.1 = j
    · have hnone : rest.find? (fun e => decide (e.1 = j)) = none := by
        rw [List.find?_eq_none]
        intro x hx hxj
        exact hnd.1 (h ▸ List.mem_map.mpr ⟨x, hx, of_decide_eq_true hxj⟩)
      simp [hnone, h]
    · have h' : ¬ j = e.1 := fun hj => h hj.symm
      simp [h, h']

/-- Reading after any assignments: what they leave of their own, or what was
there. -/
theorem get?_foldl_set_or (es : List (κ × α)) (j : κ) : ∀ d : Dict κ α,
    (es.foldl (fun acc p => acc.set p.1 p.2) d).get? j = ((ofList es).get? j).or (d.get? j) := by
  induction es with
  | nil => exact fun d => rfl
  | cons e rest ih =>
    intro d
    have hcons : ofList (e :: rest) = rest.foldl (fun acc p => acc.set p.1 p.2) (set ∅ e.1 e.2) :=
      rfl
    rw [List.foldl_cons, hcons, ih, ih, get?_set, get?_set, get?_empty]
    cases (ofList rest).get? j with
    | some a => rfl
    | none => by_cases h : j = e.1 <;> simp [h]

/-- The last entry for a key wins. -/
theorem get?_ofList_reverse (es : List (κ × α)) (j : κ) :
    (ofList es).get? j = es.reverse.findSome? fun e => if e.1 = j then some e.2 else none := by
  induction es using List.reverseRecOn with
  | nil => rfl
  | append_singleton es e ih =>
    rw [ofList, List.foldl_append, List.foldl_cons, List.foldl_nil, ← ofList, get?_set, ih,
      List.reverse_append, List.reverse_singleton, List.singleton_append, List.findSome?_cons]
    by_cases h : j = e.1
    · simp [h]
    · have h' : ¬ e.1 = j := fun hj => h hj.symm
      simp [h, h']

/-- What is read was assigned. -/
theorem mem_of_get?_ofList {es : List (κ × α)} {j : κ} {a : α} (h : (ofList es).get? j = some a) :
    (j, a) ∈ es := by
  rw [get?_ofList_reverse] at h
  obtain ⟨e, he, hvalue⟩ := List.exists_of_findSome?_eq_some h
  obtain ⟨rfl, rfl⟩ : e.1 = j ∧ e.2 = a := by simpa using hvalue
  exact List.mem_reverse.mp he

/-- What is assigned can be read, if nothing later overwrites it. -/
theorem get?_ofList_of_mem {es : List (κ × α)} {j : κ} {a : α} (h : (j, a) ∈ es) :
    ∃ b, (ofList es).get? j = some b := by
  rw [get?_ofList_reverse, ← Option.isSome_iff_exists, List.findSome?_isSome_iff]
  exact ⟨(j, a), List.mem_reverse.mpr h, by simp⟩

/-- Reading after `d.update(e)`: `e`'s value when it has one. -/
theorem get?_update (d e : Dict κ α) (j : κ) :
    (d.update e).get? j = (e.get? j).or (d.get? j) :=
  get?_foldl_set e.entries e.nodupKeys d j

/-- Dictionaries that answer alike have the same entries, in some order. -/
theorem entries_perm {d e : Dict κ α} (h : ∀ k, d.get? k = e.get? k) :
    d.entries.Perm e.entries := by
  refine (List.perm_ext_iff_of_nodup (List.Nodup.of_map _ d.nodupKeys)
    (List.Nodup.of_map _ e.nodupKeys)).mpr fun p => ?_
  rw [← d.get?_eq_some_iff p.1 p.2, ← e.get?_eq_some_iff p.1 p.2, h]

/-! ## Leaving entries out -/

/-- `{k: a for k, a in d.items() if keep(k)}`. -/
def filter (d : Dict κ α) (keep : κ → Bool) : Dict κ α where
  entries := d.entries.filter fun e => keep e.1
  nodupKeys := List.Nodup.sublist (List.filter_sublist.map Prod.fst) d.nodupKeys

theorem get?_filter (d : Dict κ α) (keep : κ → Bool) (k : κ) :
    (d.filter keep).get? k = if keep k then d.get? k else none := by
  ext a
  rw [get?_eq_some_iff]
  simp only [filter, List.mem_filter, ← get?_eq_some_iff]
  by_cases hk : keep k
  · simp [hk]
  · simp [hk]

theorem mem_keys_filter (d : Dict κ α) (keep : κ → Bool) (k : κ) :
    k ∈ (d.filter keep).keys ↔ k ∈ d.keys ∧ keep k := by
  rw [mem_keys_iff, mem_keys_iff, get?_filter]
  by_cases hk : keep k
  · simp [hk]
  · simp [hk]

/-- Entries that are left out can be left out at once. -/
theorem filter_set (d : Dict κ α) (keep : κ → Bool) (k : κ) (a : α) :
    (d.set k a).filter keep = if keep k then (d.filter keep).set k a else d.filter keep := by
  have hgen : ∀ es : List (κ × α), (setEntries es k a).filter (fun e => keep e.1)
      = if keep k then setEntries (es.filter fun e => keep e.1) k a
        else es.filter fun e => keep e.1 := by
    intro es
    induction es with
    | nil => by_cases hk : keep k <;> simp [setEntries, hk]
    | cons e rest ih =>
      rw [setEntries]
      split
      · rename_i he
        by_cases hk : keep k
        · simp [hk, he, setEntries]
        · simp [hk, he]
      · rename_i he
        by_cases hke : keep e.1
        · rw [List.filter_cons_of_pos (by exact hke), List.filter_cons_of_pos (by exact hke), ih]
          by_cases hk : keep k <;> simp [hk, setEntries, he]
        · rw [List.filter_cons_of_neg (by exact hke), List.filter_cons_of_neg (by exact hke), ih]
  have hentries := hgen d.entries
  by_cases hk : keep k
  · rw [if_pos hk] at hentries ⊢
    simpa only [filter, set, Dict.mk.injEq] using hentries
  · rw [if_neg hk] at hentries ⊢
    simpa only [filter, set, Dict.mk.injEq] using hentries

/-! ## Order of the entries -/

/-- Assigning entries with distinct keys one after the other stores them. -/
theorem get?_ofList_eq_some_iff {es : List (κ × α)} (hnd : (es.map Prod.fst).Nodup) (k : κ)
    (a : α) :
    (ofList es).get? k = some a ↔ (k, a) ∈ es := by
  have hget : (ofList es).get? k = (Dict.mk es hnd).get? k := by
    rw [ofList, get?_foldl_set es hnd, get?_empty, Option.or_none]
    rfl
  rw [hget]
  exact get?_eq_some_iff ⟨es, hnd⟩ k a

theorem setEntries_new : ∀ (es : List (κ × α)) (k : κ) (a : α), k ∉ es.map Prod.fst →
    setEntries es k a = es ++ [(k, a)]
  | [], _, _, _ => rfl
  | e :: es, k, a, h => by
      have hne : ¬ e.1 = k := fun he => h (List.mem_cons.mpr (.inl he.symm))
      rw [setEntries, if_neg hne, setEntries_new es k a fun hk => h (List.mem_cons_of_mem _ hk)]
      rfl

theorem entries_foldl_set : ∀ (es : List (κ × α)) (d : Dict κ α),
    ((d.entries ++ es).map Prod.fst).Nodup →
      (es.foldl (fun acc p => acc.set p.1 p.2) d).entries = d.entries ++ es
  | [], d, _ => (List.append_nil _).symm
  | e :: es, d, h => by
      have hmap : (d.entries ++ e :: es).map Prod.fst
          = d.entries.map Prod.fst ++ e.1 :: es.map Prod.fst := by
        rw [List.map_append, List.map_cons]
      have hnew : e.1 ∉ d.entries.map Prod.fst := by
        rw [hmap] at h
        exact fun hk => (List.nodup_append.mp h).2.2 e.1 hk e.1 (List.mem_cons_self ..) rfl
      have hset : (d.set e.1 e.2).entries = d.entries ++ [e] := setEntries_new _ _ _ hnew
      rw [List.foldl_cons, entries_foldl_set es, hset, List.append_assoc]
      · rfl
      · rw [hset, List.append_assoc]
        exact h

/-- So a dictionary is what its entries make. -/
theorem entries_ofList {es : List (κ × α)} (hnd : (es.map Prod.fst).Nodup) :
    (ofList es).entries = es :=
  entries_foldl_set es ∅ hnd

@[simp] theorem ofList_entries (d : Dict κ α) : ofList d.entries = d := by
  have h := entries_ofList d.nodupKeys
  cases hd : ofList d.entries
  cases d
  simpa [hd] using h

/-- In whatever order they come. -/
theorem get?_ofList_perm {es es' : List (κ × α)} (hnd : (es.map Prod.fst).Nodup)
    (h : es.Perm es') (k : κ) : (ofList es).get? k = (ofList es').get? k := by
  have hnd' : (es'.map Prod.fst).Nodup := (h.map Prod.fst).nodup_iff.mp hnd
  ext a
  rw [get?_ofList_eq_some_iff hnd, get?_ofList_eq_some_iff hnd', h.mem_iff]

/-- A sort by a relation that tells the elements apart forgets their order. -/
theorem insertionSort_perm {r : α → α → Prop} [DecidableRel r] [IsTrans α r] [Std.Total r]
    {xs ys : List α} (hanti : ∀ x ∈ xs, ∀ y ∈ ys, r x y → r y x → x = y) (h : xs.Perm ys) :
    xs.insertionSort r = ys.insertionSort r := by
  refine List.Perm.eq_of_pairwise (fun x y hx hy (hxy : r x y) hyx => ?_)
    (List.pairwise_insertionSort r xs) (List.pairwise_insertionSort r ys) ?_
  · exact hanti x ((List.mem_insertionSort r).mp hx) y ((List.mem_insertionSort r).mp hy) hxy hyx
  · exact ((List.perm_insertionSort r xs).trans h).trans (List.perm_insertionSort r ys).symm

/-- `sorted(d.items())` by key. -/
def sortedEntries [LinearOrder κ] (d : Dict κ α) : List (κ × α) :=
  d.entries.insertionSort fun a b => a.1 ≤ b.1

/-- It depends on what `d` answers only. -/
theorem sortedEntries_eq {κ : Type u} [LinearOrder κ] {d e : Dict κ α}
    (h : ∀ k, d.get? k = e.get? k) : d.sortedEntries = e.sortedEntries := by
  have : IsTrans (κ × α) fun a b => a.1 ≤ b.1 := ⟨fun _ _ _ hab hbc => hab.trans hbc⟩
  have : Std.Total (α := κ × α) fun a b => a.1 ≤ b.1 := ⟨fun a b => le_total a.1 b.1⟩
  refine insertionSort_perm (fun x hx y hy hxy hyx => ?_) (entries_perm h)
  have hkey : x.1 = y.1 := le_antisymm hxy hyx
  have hget : d.get? x.1 = some x.2 := (d.get?_eq_some_iff _ _).mpr hx
  have hget' : d.get? x.1 = some y.2 := by
    rw [h, hkey]
    exact (e.get?_eq_some_iff _ _).mpr hy
  exact Prod.ext hkey (Option.some.inj (hget.symm.trans hget'))

/-! ## Grouping -/

/-- `{k: f(a) for k, a in d.items()}`. -/
def mapValues (d : Dict κ α) (f : α → β) : Dict κ β where
  entries := d.entries.map fun e => (e.1, f e.2)
  nodupKeys := by
    rw [List.map_map]
    exact d.nodupKeys

theorem get?_mapValues (d : Dict κ α) (f : α → β) (k : κ) :
    (d.mapValues f).get? k = (d.get? k).map f := by
  simp only [get?, mapValues, List.find?_map, Option.map_map]
  rfl

/-- `{k: f(k, a) for k, a in d.items()}`. -/
def mapEntries (d : Dict κ α) (f : κ → α → β) : Dict κ β where
  entries := d.entries.map fun e => (e.1, f e.1 e.2)
  nodupKeys := by
    rw [List.map_map]
    exact d.nodupKeys

theorem get?_mapEntries (d : Dict κ α) (f : κ → α → β) (k : κ) :
    (d.mapEntries f).get? k = (d.get? k).map (f k) := by
  ext b
  rw [get?_eq_some_iff, mapEntries, List.mem_map, Option.map_eq_some_iff]
  constructor
  · rintro ⟨e, he, heq⟩
    obtain ⟨rfl, rfl⟩ := Prod.mk.inj heq
    exact ⟨e.2, (d.get?_eq_some_iff _ _).mpr he, rfl⟩
  · rintro ⟨a, ha, rfl⟩
    exact ⟨(k, a), (d.get?_eq_some_iff _ _).mp ha, rfl⟩

/-- `d.setdefault(k, []).append(a)`. -/
def append (d : Dict κ (List α)) (k : κ) (a : α) : Dict κ (List α) :=
  d.set k ((d.get? k).getD [] ++ [a])

/-- `for k, a in es: d.setdefault(k, []).append(a)`, from the empty `d`. -/
def group (es : List (κ × α)) : Dict κ (List α) :=
  es.foldl (fun d e => d.append e.1 e.2) ∅

/-- The values that come with a key. -/
def valuesAt (es : List (κ × α)) (k : κ) : List α :=
  (es.filter fun e => e.1 = k).map Prod.snd

theorem mem_valuesAt {es : List (κ × α)} {k : κ} {a : α} : a ∈ valuesAt es k ↔ (k, a) ∈ es := by
  simp only [valuesAt, List.mem_map, List.mem_filter, decide_eq_true_eq]
  constructor
  · rintro ⟨⟨_, _⟩, ⟨hmem, rfl⟩, rfl⟩
    exact hmem
  · exact fun hmem => ⟨(k, a), ⟨hmem, rfl⟩, rfl⟩

theorem valuesAt_perm {es es' : List (κ × α)} (h : es.Perm es') (k : κ) :
    (valuesAt es k).Perm (valuesAt es' k) :=
  (h.filter _).map _

/-- A group is the list of the values that come with its key. -/
theorem get?_group (es : List (κ × α)) (k : κ) :
    (group es).get? k = if valuesAt es k = [] then none else some (valuesAt es k) := by
  induction es using List.reverseRecOn with
  | nil => simp [group, valuesAt]
  | append_singleton es e ih =>
    have hstep : group (es ++ [e]) = (group es).append e.1 e.2 := by
      simp [group, List.foldl_append]
    have hvalues : valuesAt (es ++ [e]) k
        = valuesAt es k ++ if e.1 = k then [e.2] else [] := by
      by_cases he : e.1 = k
      · simp [valuesAt, he]
      · simp [valuesAt, he]
    rw [hstep, append, get?_set, hvalues]
    by_cases he : e.1 = k
    · subst he
      rw [if_pos rfl, ih]
      by_cases hnil : valuesAt es e.1 = []
      · simp [hnil]
      · simp [hnil]
    · rw [if_neg fun h => he h.symm, ih]
      simp [he]

/-- Every key with every value of its list. -/
def pairs (d : Dict κ (List α)) : List (κ × α) :=
  d.entries.flatMap fun e => e.2.map (Prod.mk e.1)

theorem count_pairs [DecidableEq α] (d : Dict κ (List α)) (k : κ) (a : α) :
    d.pairs.count (k, a) = ((d.get? k).getD []).count a := by
  have hgen : ∀ es : List (κ × List α), (es.map Prod.fst).Nodup →
      (es.flatMap fun e => e.2.map (Prod.mk e.1)).count (k, a)
        = (((es.find? fun e => e.1 = k).map Prod.snd).getD []).count a := by
    intro es
    induction es with
    | nil => simp
    | cons e es ih =>
      intro hnd
      rw [List.map_cons, List.nodup_cons] at hnd
      rw [List.flatMap_cons, List.count_append, ih hnd.2]
      by_cases hk : e.1 = k
      · subst hk
        -- the key does not occur again
        have hrest : (es.find? fun e' => decide (e'.1 = e.1)) = none := by
          rw [List.find?_eq_none]
          intro e' he' heq
          exact hnd.1 (of_decide_eq_true heq ▸ List.mem_map_of_mem he')
        have hcount : (e.2.map (Prod.mk e.1)).count (e.1, a) = e.2.count a :=
          List.count_map_of_injective e.2 (Prod.mk e.1) (Prod.mk_right_injective e.1) a
        simp [hrest, hcount]
      · have hcount : (e.2.map (Prod.mk e.1)).count (k, a) = 0 := by
          rw [List.count_eq_zero]
          intro hmem
          obtain ⟨_, _, heq⟩ := List.mem_map.mp hmem
          exact hk (congrArg Prod.fst heq)
        simp [hcount, hk]
  exact hgen d.entries d.nodupKeys

/-- Grouping neither loses a value nor makes one up. -/
theorem pairs_group_perm [DecidableEq α] (es : List (κ × α)) : (group es).pairs.Perm es := by
  rw [List.perm_iff_count]
  rintro ⟨k, a⟩
  have hvalues : (valuesAt es k).count a = es.count (k, a) := by
    induction es with
    | nil => rfl
    | cons e es ih =>
      obtain ⟨j, b⟩ := e
      by_cases hj : j = k
      · subst hj
        simp only [valuesAt] at ih
        simp [valuesAt, List.count_cons, ih]
      · simp only [valuesAt] at ih
        simp [valuesAt, hj, ih]
  rw [count_pairs, get?_group, ← hvalues]
  by_cases hnil : valuesAt es k = []
  · simp [hnil]
  · simp [hnil]

end Dict

end Library
