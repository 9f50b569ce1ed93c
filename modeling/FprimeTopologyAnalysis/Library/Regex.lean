/-
FprimeTopologyAnalysis.Library.Regex — regular expressions with groups, as a
backtracking matcher runs them.

Run from a position of a text, a pattern gives the positions where a match
can end, the preferred one first (`Pat.run`); the matches of a text are found
from left to right (`finditer`). `run_sound`: a match consumes a word of the
pattern's language, and a group one of the group's; so what holds of the
language of a group holds of the text it is matched to (`finditer_group`).
For a repeated set `run_some_set` says where it can end, and in which order
the ends are tried.
-/
import Mathlib.Computability.Language
import Mathlib.Data.List.TakeWhile

namespace Library

namespace Regex

/-- Patterns. `look` tests the characters around a position. -/
inductive Pat where
  | empty
  | set (p : Char → Bool)
  | seq (a b : Pat)
  | alt (a b : Pat)
  | star (greedy : Bool) (a : Pat)
  | group (name : String) (a : Pat)
  | look (p : Option Char → Option Char → Bool)

/-- A position in a text: what is before it, nearest first, and after it, and
the groups matched on the way to it, latest first. -/
structure State where
  before : List Char
  rest : List Char
  groups : List (String × List Char)

/-- A group's text. -/
def State.group (s : State) (name : String) : List Char :=
  (s.groups.lookup name).getD []

/-- Repeat a step, as often as possible or as rarely as possible first. A
repetition that consumes nothing is not made. -/
def iterate (step : State → List State) (greedy : Bool) : Nat → State → List State
  | 0, s => [s]
  | fuel + 1, s =>
    let more := (step s).flatMap fun t =>
      if t.rest.length < s.rest.length then iterate step greedy fuel t else []
    if greedy then more ++ [s] else s :: more

/-- The ends of the matches that start at a position. -/
def Pat.run : Pat → State → List State
  | .empty, s => [s]
  | .set p, s =>
    match s.rest with
    | [] => []
    | c :: rest => if p c then [{ s with before := c :: s.before, rest := rest }] else []
  | .seq a b, s => (a.run s).flatMap b.run
  | .alt a b, s => a.run s ++ b.run s
  | .star greedy a, s => iterate a.run greedy s.rest.length s
  | .group name a, s =>
    (a.run s).map fun t =>
      { t with groups := (name, s.rest.take (s.rest.length - t.rest.length)) :: t.groups }
  | .look p, s => if p s.before.head? s.rest.head? then [s] else []

/-- The matches found from a position on. The next one is sought where one
ends, or a character on when it consumes nothing. -/
def findAll (p : Pat) : Nat → State → List State
  | 0, _ => []
  | fuel + 1, s =>
    match (p.run s).head?, s.rest with
    | some t, c :: rest =>
      if t.rest.length < s.rest.length then t :: findAll p fuel { t with groups := [] }
      else t :: findAll p fuel ⟨c :: s.before, rest, []⟩
    | some t, [] => [t]
    | none, c :: rest => findAll p fuel ⟨c :: s.before, rest, []⟩
    | none, [] => []

/-- `re.finditer`. -/
def finditer (p : Pat) (text : List Char) : List State :=
  findAll p (text.length + 1) ⟨[], text, []⟩

/-- `re.search`. -/
def search (p : Pat) (text : List Char) : Option State := (finditer p text).head?

/-- `re.match`: the match that starts where the text starts. -/
def matchStart (p : Pat) (text : List Char) : Option State := (p.run ⟨[], text, []⟩).head?

/-! ## Patterns made of others -/

namespace Pat

/-- A text. -/
def lit (text : String) : Pat := text.toList.foldr (fun c p => .seq (.set (· == c)) p) .empty

/-- Patterns one after the other. -/
def cat (ps : List Pat) : Pat := ps.foldr .seq .empty

def plus (a : Pat) : Pat := .seq a (.star true a)

def opt (a : Pat) : Pat := .alt a .empty

/-- `$`, in a text that does not end a line. -/
def atEnd : Pat := .look fun _ after => after.isNone

/-! ## Languages -/

/-- The words a pattern matches, whatever is around them. -/
def lang : Pat → Language Char
  | .empty => 1
  | .set p => {w | ∃ c, p c = true ∧ w = [c]}
  | .seq a b => a.lang * b.lang
  | .alt a b => a.lang + b.lang
  | .star _ a => KStar.kstar a.lang
  | .group _ a => a.lang
  | .look _ => 1

theorem mem_lang_star_set {greedy : Bool} {p : Char → Bool} {w : List Char}
    (h : w ∈ (star greedy (set p)).lang) : ∀ c ∈ w, p c = true := by
  obtain ⟨words, rfl, hwords⟩ := Language.mem_kstar.mp h
  intro c hc
  obtain ⟨word, hword, hc⟩ := List.mem_flatten.mp hc
  obtain ⟨d, hd, rfl⟩ := hwords word hword
  rwa [List.mem_singleton.mp hc]

theorem mem_lang_plus_set {p : Char → Bool} {w : List Char} (h : w ∈ (plus (set p)).lang) :
    w ≠ [] ∧ ∀ c ∈ w, p c = true := by
  obtain ⟨first, ⟨c, hc, rfl⟩, rest, hrest, rfl⟩ := Language.mem_mul.mp h
  refine ⟨by simp, fun d hd => ?_⟩
  rcases List.mem_cons.mp hd with rfl | hd
  · exact hc
  · exact mem_lang_star_set hrest d hd

theorem mem_lang_seq_set {p : Char → Bool} {a : Pat} {w : List Char}
    (h : w ∈ (seq (set p) a).lang) : ∃ c rest, w = c :: rest ∧ p c = true ∧ rest ∈ a.lang := by
  obtain ⟨first, ⟨c, hc, rfl⟩, rest, hrest, rfl⟩ := Language.mem_mul.mp h
  exact ⟨c, rest, rfl, hc, hrest⟩

/-- What holds of the words of every group. -/
def GroupsIn (Q : String → List Char → Prop) : Pat → Prop
  | .empty => True
  | .set _ => True
  | .seq a b => a.GroupsIn Q ∧ b.GroupsIn Q
  | .alt a b => a.GroupsIn Q ∧ b.GroupsIn Q
  | .star _ a => a.GroupsIn Q
  | .group name a => (∀ w ∈ a.lang, Q name w) ∧ a.GroupsIn Q
  | .look _ => True

/-- Every match sets the group. -/
def sets (name : String) : Pat → Bool
  | .empty => false
  | .set _ => false
  | .seq a b => a.sets name || b.sets name
  | .alt a b => a.sets name && b.sets name
  | .star _ _ => false
  | .group n a => n = name || a.sets name
  | .look _ => false

end Pat

/-! ## Soundness -/

/-- What a match consumes is in a language, and its new groups are as they
should be. -/
structure Consumes (Q : String → List Char → Prop) (l : Language Char) (s t : State) : Prop where
  word : ∃ w ∈ l, s.rest = w ++ t.rest
  groups : ∀ g ∈ t.groups, g ∈ s.groups ∨ Q g.1 g.2
  kept : ∀ g ∈ s.groups, g ∈ t.groups

theorem Consumes.nothing (Q : String → List Char → Prop) (s : State) : Consumes Q 1 s s where
  word := ⟨[], Language.nil_mem_one, rfl⟩
  groups _ h := .inl h
  kept _ h := h

theorem Consumes.seq {Q : String → List Char → Prop} {l m : Language Char} {s t u : State}
    (hst : Consumes Q l s t) (htu : Consumes Q m t u) : Consumes Q (l * m) s u where
  word := by
    obtain ⟨v, hv, hs⟩ := hst.word
    obtain ⟨w, hw, ht⟩ := htu.word
    exact ⟨v ++ w, Language.append_mem_mul hv hw, by rw [hs, ht, List.append_assoc]⟩
  groups g hg := (htu.groups g hg).elim (hst.groups g) .inr
  kept g hg := htu.kept g (hst.kept g hg)

theorem Consumes.mono {Q : String → List Char → Prop} {l m : Language Char} {s t : State}
    (h : Consumes Q l s t) (hsub : ∀ w ∈ l, w ∈ m) : Consumes Q m s t where
  word := by
    obtain ⟨w, hw, hs⟩ := h.word
    exact ⟨w, hsub w hw, hs⟩
  groups := h.groups
  kept := h.kept

/-- Repetitions consume words of the star. -/
theorem iterate_sound {Q : String → List Char → Prop} {l : Language Char}
    {step : State → List State} (hstep : ∀ s t, t ∈ step s → Consumes Q l s t) (greedy : Bool) :
    ∀ (fuel : Nat) (s t : State), t ∈ iterate step greedy fuel s →
      Consumes Q (KStar.kstar l) s t := by
  have hnone : ∀ s, Consumes Q (KStar.kstar l) s s := by
    intro s
    refine (Consumes.nothing Q s).mono fun w hw => ?_
    rw [Language.mem_one] at hw
    rw [hw]
    exact Language.nil_mem_kstar l
  intro fuel
  induction fuel with
  | zero =>
    intro s t ht
    obtain rfl := List.mem_singleton.mp ht
    exact hnone _
  | succ fuel ih =>
    intro s t ht
    have hmore : t = s ∨ ∃ u ∈ step s, t ∈ iterate step greedy fuel u := by
      unfold iterate at ht
      have hflat : t ∈ ((step s).flatMap fun u =>
          if u.rest.length < s.rest.length then iterate step greedy fuel u else []) →
          ∃ u ∈ step s, t ∈ iterate step greedy fuel u := by
        intro h
        obtain ⟨u, hu, htu⟩ := List.mem_flatMap.mp h
        split at htu
        · exact ⟨u, hu, htu⟩
        · cases htu
      cases greedy with
      | true =>
        rcases List.mem_append.mp ht with h | h
        · exact .inr (hflat h)
        · exact .inl (List.mem_singleton.mp h)
      | false =>
        rcases List.mem_cons.mp ht with h | h
        · exact .inl h
        · exact .inr (hflat h)
    rcases hmore with rfl | ⟨u, hu, htu⟩
    · exact hnone _
    · refine ((hstep s u hu).seq (ih u t htu)).mono fun w hw => ?_
      obtain ⟨first, hfirst, rest, hrest, rfl⟩ := Language.mem_mul.mp hw
      obtain ⟨words, rfl, hwords⟩ := Language.mem_kstar.mp hrest
      exact Language.mem_kstar.mpr ⟨first :: words, rfl, List.forall_mem_cons.mpr ⟨hfirst, hwords⟩⟩

/-- **A match consumes a word of the language**, and each of its groups a word
of the group's. -/
theorem run_sound {Q : String → List Char → Prop} : ∀ (p : Pat), p.GroupsIn Q →
    ∀ s t : State, t ∈ p.run s → Consumes Q p.lang s t
  | .empty, _, s, t, ht => by
      obtain rfl := List.mem_singleton.mp ht
      exact .nothing Q _
  | .set p, _, s, t, ht => by
      unfold Pat.run at ht
      split at ht
      · cases ht
      · rename_i c rest hrest
        split at ht
        · rename_i hc
          obtain rfl := List.mem_singleton.mp ht
          exact ⟨⟨[c], ⟨c, hc, rfl⟩, hrest⟩, fun _ h => .inl h, fun _ h => h⟩
        · cases ht
  | .seq a b, hQ, s, t, ht => by
      obtain ⟨u, hu, htu⟩ := List.mem_flatMap.mp ht
      exact (run_sound a hQ.1 s u hu).seq (run_sound b hQ.2 u t htu)
  | .alt a b, hQ, s, t, ht => by
      rcases List.mem_append.mp ht with h | h
      · exact (run_sound a hQ.1 s t h).mono fun _ hw => .inl hw
      · exact (run_sound b hQ.2 s t h).mono fun _ hw => .inr hw
  | .star greedy a, hQ, s, t, ht =>
      iterate_sound (fun s t h => run_sound a hQ s t h) greedy _ s t ht
  | .group name a, hQ, s, t, ht => by
      obtain ⟨u, hu, rfl⟩ := List.mem_map.mp ht
      obtain ⟨hword, hgroups, hkept⟩ := run_sound a hQ.2 s u hu
      refine ⟨hword, ?_, fun g hg => List.mem_cons_of_mem _ (hkept g hg)⟩
      intro g hg
      rcases List.mem_cons.mp hg with rfl | hg
      · obtain ⟨w, hw, hs⟩ := hword
        refine .inr (hQ.1 _ ?_)
        simpa [hs] using hw
      · exact hgroups g hg
  | .look p, _, s, t, ht => by
      unfold Pat.run at ht
      split at ht
      · obtain rfl := List.mem_singleton.mp ht
        exact .nothing Q _
      · cases ht

/-- No word is required of any group. -/
theorem groupsIn_true : ∀ p : Pat, p.GroupsIn fun _ _ => True
  | .empty => trivial
  | .set _ => trivial
  | .seq a b => ⟨groupsIn_true a, groupsIn_true b⟩
  | .alt a b => ⟨groupsIn_true a, groupsIn_true b⟩
  | .star _ a => groupsIn_true a
  | .group _ a => ⟨fun _ _ => trivial, groupsIn_true a⟩
  | .look _ => trivial

/-- A group that every match sets is set. -/
theorem run_sets {name : String} : ∀ (p : Pat), p.sets name = true →
    ∀ s t : State, t ∈ p.run s → ∃ w, (name, w) ∈ t.groups
  | .empty, h, _, _, _ => by simp [Pat.sets] at h
  | .set _, h, _, _, _ => by simp [Pat.sets] at h
  | .seq a b, h, s, t, ht => by
      obtain ⟨u, hu, htu⟩ := List.mem_flatMap.mp ht
      rcases Bool.or_eq_true_iff.mp h with ha | hb
      · obtain ⟨w, hw⟩ := run_sets a ha s u hu
        exact ⟨w, (run_sound b (groupsIn_true b) u t htu).kept _ hw⟩
      · exact run_sets b hb u t htu
  | .alt a b, h, s, t, ht => by
      obtain ⟨ha, hb⟩ := Bool.and_eq_true_iff.mp h
      rcases List.mem_append.mp ht with ht | ht
      · exact run_sets a ha s t ht
      · exact run_sets b hb s t ht
  | .star _ _, h, _, _, _ => by simp [Pat.sets] at h
  | .group n a, h, s, t, ht => by
      obtain ⟨u, hu, rfl⟩ := List.mem_map.mp ht
      rcases Bool.or_eq_true_iff.mp h with hn | ha
      · exact ⟨_, List.mem_cons.mpr (.inl (by rw [of_decide_eq_true hn]))⟩
      · obtain ⟨w, hw⟩ := run_sets a ha s u hu
        exact ⟨w, List.mem_cons_of_mem _ hw⟩
  | .look _, h, _, _, _ => by simp [Pat.sets] at h

/-- A match is an end of the pattern, run from some position. -/
theorem mem_findAll {p : Pat} : ∀ (fuel : Nat) (s t : State), s.groups = [] →
    t ∈ findAll p fuel s → ∃ u, u.groups = [] ∧ t ∈ p.run u
  | 0, _, _, _, h => by simp [findAll] at h
  | fuel + 1, s, t, hs, h => by
      have hhead : ∀ x, (p.run s).head? = some x → ∃ u, u.groups = [] ∧ x ∈ p.run u :=
        fun x hx => ⟨s, hs, List.mem_of_head? hx⟩
      unfold findAll at h
      split at h
      · rename_i x c rest hx hrest
        split at h
        · rcases List.mem_cons.mp h with rfl | h
          · exact hhead _ hx
          · exact mem_findAll fuel _ t rfl h
        · rcases List.mem_cons.mp h with rfl | h
          · exact hhead _ hx
          · exact mem_findAll fuel _ t rfl h
      · rename_i x hx hrest
        obtain rfl := List.mem_singleton.mp h
        exact hhead _ hx
      · exact mem_findAll fuel _ t rfl h
      · cases h

/-- **What holds of a group's words holds of its text** in every match that is
found, where every match sets it. -/
theorem finditer_group {Q : String → List Char → Prop} {p : Pat} {name : String}
    (hQ : p.GroupsIn Q) (hsets : p.sets name = true) {text : List Char} {t : State}
    (ht : t ∈ finditer p text) : Q name (t.group name) := by
  obtain ⟨s, hs, hrun⟩ := mem_findAll _ _ t rfl ht
  obtain ⟨w, hw⟩ := run_sets p hsets s t hrun
  have hfound : ∃ w, t.groups.lookup name = some w ∧ (name, w) ∈ t.groups := by
    cases hlookup : t.groups.lookup name with
    | none =>
      rw [List.lookup_eq_none_iff] at hlookup
      exact absurd (hlookup _ hw) (by simp)
    | some w =>
      obtain ⟨l₁, l₂, hgroups, _⟩ := List.lookup_eq_some_iff.mp hlookup
      exact ⟨w, rfl, by simp [hgroups]⟩
  obtain ⟨w, hlookup, hmem⟩ := hfound
  rw [State.group, hlookup, Option.getD_some]
  refine ((run_sound p hQ s t hrun).groups _ hmem).resolve_left ?_
  rw [hs]
  exact List.not_mem_nil

/-- What `search` finds `finditer` finds. -/
theorem mem_finditer_of_search {p : Pat} {text : List Char} {t : State}
    (h : search p text = some t) : t ∈ finditer p text :=
  List.mem_of_head? h

namespace Pat

variable {Q : String → List Char → Prop}

/-- Patterns without groups. -/
theorem groupsIn_lit (text : String) : (lit text).GroupsIn Q := by
  unfold lit
  induction text.toList with
  | nil => trivial
  | cons c rest ih => exact ⟨trivial, ih⟩

theorem groupsIn_plus {a : Pat} : (plus a).GroupsIn Q ↔ a.GroupsIn Q := and_self_iff

theorem groupsIn_opt {a : Pat} : (opt a).GroupsIn Q ↔ a.GroupsIn Q := iff_of_eq (and_true _)

theorem groupsIn_cat {ps : List Pat} : (cat ps).GroupsIn Q ↔ ∀ p ∈ ps, p.GroupsIn Q := by
  induction ps with
  | nil => simp [cat, GroupsIn]
  | cons p ps ih =>
    rw [List.forall_mem_cons, ← ih]
    exact Iff.rfl

end Pat

/-! ## Where a repeated set can end -/

/-- The position `n` characters on. -/
def State.advance (s : State) (n : Nat) : State :=
  ⟨(s.rest.take n).reverse ++ s.before, s.rest.drop n, s.groups⟩

/-- The position with a group more. -/
def State.note (s : State) (name : String) (text : List Char) : State :=
  { s with groups := (name, text) :: s.groups }

@[simp] theorem State.advance_rest (s : State) (n : Nat) :
    (s.advance n).rest = s.rest.drop n := rfl

@[simp] theorem State.advance_groups (s : State) (n : Nat) :
    (s.advance n).groups = s.groups := rfl

@[simp] theorem State.advance_zero (s : State) : s.advance 0 = s := rfl

@[simp] theorem State.note_rest (s : State) (name : String) (text : List Char) :
    (s.note name text).rest = s.rest := rfl

theorem State.advance_add (s : State) (m n : Nat) :
    (s.advance m).advance n = s.advance (m + n) := by
  simp [State.advance, List.take_add]

/-- Where the repetitions of a set can end, the nearest first. -/
def ends (p : Char → Bool) (s : State) : List State :=
  (List.range ((s.rest.takeWhile p).length + 1)).map s.advance

theorem ends_eq_cons (p : Char → Bool) (s : State) :
    ends p s = s :: (List.range (s.rest.takeWhile p).length).map fun n => s.advance (n + 1) := by
  simp [ends, List.range_succ_eq_map, Function.comp_def]

theorem ends_of_stop {p : Char → Bool} {s : State} (h : ∀ c ∈ s.rest.head?, p c = false) :
    ends p s = [s] := by
  cases hrest : s.rest with
  | nil => simp [ends, hrest]
  | cons c rest =>
    have hc := h c (by simp [hrest])
    simp [ends, hrest, hc]

theorem ends_of_take {p : Char → Bool} {s : State} {c : Char} {rest : List Char}
    (h : s.rest = c :: rest) (hc : p c = true) : ends p s = s :: ends p (s.advance 1) := by
  rw [ends_eq_cons, ends, h, List.takeWhile_cons_of_pos hc]
  simp [h, State.advance_add, Nat.add_comm]

/-- A set is repeated over the characters it has, and the repetition may end
after any of them. -/
theorem iterate_set (p : Char → Bool) (greedy : Bool) : ∀ (fuel : Nat) (s : State),
    s.rest.length ≤ fuel → iterate (Pat.set p).run greedy fuel s
      = if greedy then (ends p s).reverse else ends p s := by
  intro fuel
  induction fuel with
  | zero =>
    intro s hfuel
    have hnil : s.rest = [] := List.eq_nil_of_length_eq_zero (by omega)
    rw [ends_of_stop (by simp [hnil])]
    simp [iterate]
  | succ fuel ih =>
    intro s hfuel
    unfold iterate
    rw [Pat.run]
    cases hrest : s.rest with
    | nil =>
      rw [ends_of_stop (by simp [hrest])]
      simp
    | cons c rest =>
      dsimp only
      cases hc : p c with
      | false =>
        rw [ends_of_stop (by simp [hrest, hc])]
        simp
      | true =>
        have hnext : (⟨c :: s.before, rest, s.groups⟩ : State) = s.advance 1 := by
          simp [State.advance, hrest]
        have hless : (s.advance 1).rest.length < (c :: rest).length := by simp [hrest]
        have hlength : (s.advance 1).rest.length ≤ fuel := by simpa [hrest] using hfuel
        rw [if_pos rfl, hnext, List.flatMap_cons, List.flatMap_nil, List.append_nil,
          if_pos hless, ih _ hlength, ends_of_take hrest hc]
        cases greedy <;> simp

/-- One repetition at least. -/
theorem run_some_set (p : Char → Bool) (greedy : Bool) (s : State) :
    (Pat.seq (.set p) (.star greedy (.set p))).run s
      = if greedy then (ends p s).tail.reverse else (ends p s).tail := by
  rw [Pat.run, Pat.run]
  cases hrest : s.rest with
  | nil => simp [ends_of_stop (p := p) (s := s) (by simp [hrest])]
  | cons c rest =>
    dsimp only
    cases hc : p c with
    | false => simp [ends_of_stop (p := p) (s := s) (by simp [hrest, hc])]
    | true =>
      have hnext : (⟨c :: s.before, rest, s.groups⟩ : State) = s.advance 1 := by
        simp [State.advance, hrest]
      rw [ends_of_take hrest hc, hnext, if_pos rfl, List.flatMap_cons, List.flatMap_nil,
        List.append_nil, Pat.run, iterate_set p greedy _ _ le_rfl]
      rfl

/-- A text is matched where it stands next. -/
theorem run_lit (text : String) (s : State) : (Pat.lit text).run s
    = if text.toList <+: s.rest then [s.advance text.toList.length] else [] := by
  unfold Pat.lit
  generalize text.toList = chars
  induction chars generalizing s with
  | nil => simp [Pat.run]
  | cons c chars ih =>
    rw [List.foldr_cons, Pat.run, Pat.run]
    cases hrest : s.rest with
    | nil => simp
    | cons d rest =>
      dsimp only
      by_cases hd : d = c
      · subst hd
        have hnext : (⟨d :: s.before, rest, s.groups⟩ : State) = s.advance 1 := by
          simp [State.advance, hrest]
        have hprefix : d :: chars <+: d :: rest ↔ chars <+: rest := by simp
        rw [hnext, if_pos (by simp), List.flatMap_cons, List.flatMap_nil, List.append_nil, ih,
          State.advance_add, State.advance_rest, hrest, List.drop_succ_cons, List.drop_zero,
          List.length_cons, Nat.add_comm 1]
        exact (if_congr hprefix rfl rfl).symm
      · have hprefix : ¬ c :: chars <+: d :: rest := by
          rw [List.cons_prefix_cons]
          exact fun h => hd h.1.symm
        rw [if_neg hprefix, if_neg (by simpa using hd), List.flatMap_nil]

theorem head?_run_lit (text : String) (p : Pat) (s : State) :
    ((Pat.seq (.lit text) p).run s).head?
      = if text.toList <+: s.rest then (p.run (s.advance text.toList.length)).head? else none := by
  rw [Pat.run, run_lit]
  split
  · simp
  · rfl

/-- A word of a set, to the end of the text. -/
theorem head?_run_word (name : String) (p : Char → Bool) (s : State) :
    ((Pat.cat [.group name (.plus (.set p)), .atEnd]).run s).head?
      = if s.rest ≠ [] ∧ s.rest.all p then
          some ((s.advance s.rest.length).note name s.rest)
        else none := by
  have hend : ∀ t : State, (Pat.seq .atEnd .empty).run t = if t.rest = [] then [t] else [] := by
    intro t
    cases t with
    | mk before rest groups => cases rest <;> simp [Pat.run, Pat.atEnd]
  have hbuilt : (Pat.cat [.group name (.plus (.set p)), .atEnd]).run s
      = (ends p s).tail.reverse.flatMap fun t => if t.rest = [] then
          [t.note name (s.rest.take (s.rest.length - t.rest.length))] else [] := by
    show ((Pat.group name (.plus (.set p))).run s).flatMap (Pat.seq .atEnd .empty).run = _
    have hplus := run_some_set p true s
    rw [if_pos rfl] at hplus
    rw [Pat.run, Pat.plus, hplus, List.flatMap_map]
    simp only [hend]
    rfl
  rw [hbuilt, ends_eq_cons, List.tail_cons]
  by_cases hword : s.rest ≠ [] ∧ s.rest.all p = true
  · obtain ⟨hne, hall⟩ := hword
    have htake : s.rest.takeWhile p = s.rest :=
      List.takeWhile_eq_self_iff.mpr (List.all_eq_true.mp hall)
    obtain ⟨n, hn⟩ : ∃ n, s.rest.length = n + 1 :=
      Nat.exists_eq_succ_of_ne_zero (by simpa using hne)
    rw [if_pos ⟨hne, hall⟩, htake, hn, List.range_succ, List.map_append, List.reverse_append]
    simp [← hn, State.note]
  · rw [if_neg hword, List.head?_eq_none_iff, List.flatMap_eq_nil_iff]
    intro t ht
    obtain ⟨n, hn, rfl⟩ := List.mem_map.mp (List.mem_reverse.mp ht)
    have hlt : n < (s.rest.takeWhile p).length := List.mem_range.mp hn
    rw [if_neg]
    intro hdrop
    have hall : s.rest.takeWhile p = s.rest := by
      refine (List.takeWhile_prefix p).eq_of_length_le ?_
      have := List.drop_eq_nil_iff.mp hdrop
      omega
    refine hword ⟨?_, List.all_eq_true.mpr (List.takeWhile_eq_self_iff.mp hall)⟩
    intro hnil
    simp [hnil] at hlt

end Regex

end Library
