/-
FprimeTopologyAnalysis.Library.Text — texts that are put together from
parts, and what they determine.

A text `a ++ [x] ++ c` is split at its last `x` when `c` has none
(`append_cons_inj`), and the decimal form of an integer has digits and a
sign in it and nothing else (`mem_repr`) and determines the integer
(`intRepr_injective`).

Python's string tests and splits are stated on the characters: `contains`,
`startsWith`, `splitFirst` and `split`. A text that has nothing of the
separator in it occurs in a joined text exactly when it occurs in a part
(`contains_join_iff`).
-/
import Mathlib.Data.List.Infix
import Mathlib.Data.String.Basic

namespace Library

namespace Text

/-- A list is split at the last occurrence of `x` in one way. -/
theorem append_cons_inj {α : Type*} {x : α} {a b c d : List α} (hc : x ∉ c) (hd : x ∉ d)
    (h : a ++ x :: c = b ++ x :: d) : a = b ∧ c = d := by
  induction a generalizing b with
  | nil =>
    cases b with
    | nil => simpa using h
    | cons y b' =>
      simp only [List.nil_append, List.cons_append, List.cons.injEq] at h
      exact absurd (h.2 ▸ List.mem_append_right b' (List.mem_cons_self ..)) hc
  | cons y a' ih =>
    cases b with
    | nil =>
      simp only [List.nil_append, List.cons_append, List.cons.injEq] at h
      exact absurd (h.2 ▸ List.mem_append_right a' (List.mem_cons_self ..)) hd
    | cons z b' =>
      simp only [List.cons_append, List.cons.injEq] at h
      obtain ⟨hab, hcd⟩ := ih h.2
      exact ⟨by rw [h.1, hab], hcd⟩

/-! ## Decimal numbers -/

theorem natRepr_injective {m n : Nat} (h : m.repr = n.repr) : m = n := by
  have hdigits := congrArg (fun s => Nat.ofDigitChars 10 s.toList 0) h
  simpa [Nat.ofDigitChars_toDigits] using hdigits

theorem mem_natRepr {n : Nat} {c : Char} (h : c ∈ n.repr.toList) : c.isDigit = true := by
  rw [Nat.toList_repr] at h
  exact Nat.isDigit_of_mem_toDigits (by decide) (by decide) h

/-- The characters of a decimal integer. -/
theorem mem_repr {n : Int} {c : Char} (h : c ∈ n.repr.toList) : c.isDigit = true ∨ c = '-' := by
  rw [Int.repr_eq_if] at h
  split at h
  · exact .inl (mem_natRepr h)
  · rw [String.toList_append] at h
    rcases List.mem_append.mp h with hsign | hdigits
    · exact .inr (by simpa using hsign)
    · exact .inl (mem_natRepr hdigits)

/-- A number without a sign is not one with a sign. -/
private theorem natRepr_ne_neg (m n : Nat) : m.repr ≠ "-" ++ n.repr := by
  intro h
  have hmem : '-' ∈ m.repr.toList := by simp [h, String.toList_append]
  exact absurd (mem_natRepr hmem) (by decide)

theorem intRepr_injective {m n : Int} (h : m.repr = n.repr) : m = n := by
  rw [Int.repr_eq_if, Int.repr_eq_if] at h
  split at h <;> split at h
  · have habs := natRepr_injective h
    omega
  · exact absurd h (natRepr_ne_neg _ _)
  · exact absurd h.symm (natRepr_ne_neg _ _)
  · have hchars := congrArg String.toList h
    rw [String.toList_append, String.toList_append, List.append_cancel_left_eq] at hchars
    have habs := natRepr_injective (String.toList_injective hchars)
    omega

/-! ## Tests and splits -/

/-- `sub in s`. -/
def contains (s sub : String) : Bool := s.toList.tails.any fun tail => sub.toList.isPrefixOf tail

theorem contains_iff {s sub : String} : contains s sub = true ↔ sub.toList <:+: s.toList := by
  simp only [contains, List.any_eq_true, List.mem_tails, List.isPrefixOf_iff_prefix,
    List.infix_iff_prefix_suffix]
  exact exists_congr fun tail => and_comm

/-- What Python counts as blank. -/
def isSpace (c : Char) : Bool :=
  (9 ≤ c.toNat && c.toNat ≤ 13) || (28 ≤ c.toNat && c.toNat ≤ 32)
    || (0x2000 ≤ c.toNat && c.toNat ≤ 0x200a)
    || c.toNat ∈ [0x85, 0xa0, 0x1680, 0x2028, 0x2029, 0x202f, 0x205f, 0x3000]

/-- What comes before the first `::`. -/
def beforeColons : List Char → List Char
  | ':' :: ':' :: _ => []
  | c :: rest => c :: beforeColons rest
  | [] => []

/-- `s.rsplit("::", 1)[-1]`. -/
def afterColons (cs : List Char) : List Char := (beforeColons cs.reverse).reverse

/-- Without the blanks at the right end. -/
def rstripChars (cs : List Char) : List Char := (cs.reverse.dropWhile isSpace).reverse

def rstrip (s : String) : String := String.ofList (rstripChars s.toList)

/-- Without the blanks at both ends. -/
def stripChars (cs : List Char) : List Char := rstripChars (cs.dropWhile isSpace)

/-- `s.strip()`. -/
def strip (s : String) : String := String.ofList (stripChars s.toList)

/-- `s.ljust(width)`. -/
def ljust (width : Nat) (s : String) : String :=
  s ++ String.ofList (List.replicate (width - s.length) ' ')

/-- `s.startswith(head)`. -/
def startsWith (s head : String) : Bool := head.toList.isPrefixOf s.toList

/-- `s[n:]`. -/
def dropChars (s : String) (n : Nat) : String := String.ofList (s.toList.drop n)

/-- The characters before and after the first separator. -/
def splitFirstChars (sep : List Char) : List Char → Option (List Char × List Char)
  | [] => if sep = [] then some ([], []) else none
  | c :: cs =>
    if sep.isPrefixOf (c :: cs) then
      some ([], (c :: cs).drop sep.length)
    else
      (splitFirstChars sep cs).map fun parts => (c :: parts.1, parts.2)

/-- `s.split(sep, 1)`, where `sep` occurs. -/
def splitFirst (sep s : String) : Option (String × String) :=
  (splitFirstChars sep.toList s.toList).map fun parts =>
    (String.ofList parts.1, String.ofList parts.2)

/-- The parts between separators, of at most `fuel` separators. -/
def splitWithin (sep : String) : Nat → String → List String
  | 0, s => [s]
  | fuel + 1, s =>
    match splitFirst sep s with
    | none => [s]
    | some (part, rest) => part :: splitWithin sep fuel rest

/-- `s.split(sep)`. Every separator takes a character. -/
def split (sep s : String) : List String := splitWithin sep s.length s

theorem length_splitFirst {sep s : String} {parts : String × String}
    (h : splitFirst sep s = some parts) :
    parts.1.length + sep.length + parts.2.length = s.length := by
  have hchars : ∀ (cs : List Char) (ps : List Char × List Char),
      splitFirstChars sep.toList cs = some ps →
      ps.1.length + sep.toList.length + ps.2.length = cs.length := by
    intro cs
    induction cs with
    | nil =>
      intro ps hps
      rw [splitFirstChars] at hps
      split at hps
      · rename_i hsep
        cases hps
        simp [hsep]
      · cases hps
    | cons c cs ih =>
      intro ps hps
      rw [splitFirstChars] at hps
      split at hps
      · rename_i hhead
        cases hps
        have hle := (List.isPrefixOf_iff_prefix.mp hhead).length_le
        simp only [List.length_nil, List.length_drop]
        omega
      · obtain ⟨ps', hps', rfl⟩ := Option.map_eq_some_iff.mp hps
        have hlen := ih ps' hps'
        simp only [List.length_cons]
        omega
  obtain ⟨ps, hps, rfl⟩ := Option.map_eq_some_iff.mp h
  have hlen := hchars _ _ hps
  simpa [String.length_toList] using hlen

/-- A part is no longer than the whole. -/
theorem length_of_mem_split {sep : String} {part : String} :
    ∀ {fuel : Nat} {s : String}, part ∈ splitWithin sep fuel s → part.length ≤ s.length
  | 0, s, h => by
      obtain rfl := List.mem_singleton.mp h
      exact le_rfl
  | fuel + 1, s, h => by
      rw [splitWithin] at h
      split at h
      · obtain rfl := List.mem_singleton.mp h
        exact le_rfl
      · rename_i first rest hsplit
        have hlen := length_splitFirst hsplit
        rcases List.mem_cons.mp h with rfl | hrest
        · dsimp only at hlen
          omega
        · have hle := length_of_mem_split hrest
          dsimp only at hlen
          omega

/-! ## What occurs in a joined text -/

theorem startsWith_self_append (head rest : String) : startsWith (head ++ rest) head = true := by
  rw [startsWith, String.toList_append, List.isPrefixOf_iff_prefix]
  exact List.prefix_append ..

theorem dropChars_append (head rest : String) : dropChars (head ++ rest) head.length = rest := by
  rw [dropChars, String.toList_append, ← String.length_toList, List.drop_left, String.ofList_toList]

/-- No longer text starts what a text starts with more after it. -/
theorem startsWith_append (s rest head : String) (h : head.toList.length ≤ s.toList.length) :
    startsWith (s ++ rest) head = startsWith s head := by
  rw [startsWith, startsWith, String.toList_append, Bool.eq_iff_iff,
    List.isPrefixOf_iff_prefix, List.isPrefixOf_iff_prefix]
  constructor
  · exact fun hpre => List.prefix_of_prefix_length_le hpre (List.prefix_append ..) h
  · exact fun hpre => hpre.trans (List.prefix_append ..)

theorem contains_append {s sub : String} (h : contains s sub = true) (rest : String) :
    contains (s ++ rest) sub = true := by
  rw [contains_iff] at h ⊢
  rw [String.toList_append]
  exact h.trans (List.prefix_append ..).isInfix

/-- Without the character in between, a text occurs on one of its sides. -/
theorem infix_append_cons_iff {α : Type*} {x : α} {sub : List α} (hx : x ∉ sub) (b : List α) :
    ∀ a : List α, sub <:+: a ++ x :: b ↔ sub <:+: a ∨ sub <:+: b
  | [] => by
      rw [List.nil_append, List.infix_cons_iff]
      constructor
      · rintro (hhead | hb)
        · cases sub with
          | nil => exact .inl (List.infix_refl _)
          | cons y ys =>
            exact absurd (List.cons_prefix_cons.mp hhead).1 fun h => hx (h ▸ List.mem_cons_self ..)
        · exact .inr hb
      · rintro (hnil | hb)
        · obtain rfl := List.infix_nil.mp hnil
          exact .inl List.nil_prefix
        · exact .inr hb
  | c :: a => by
      rw [List.cons_append, List.infix_cons_iff, List.infix_cons_iff, infix_append_cons_iff hx b a,
        ← or_assoc]
      refine or_congr_left (or_congr_left ?_)
      constructor
      · intro hhead
        have hlen : sub.length ≤ (c :: a).length := by
          by_contra hlong
          have hmem : x ∈ sub := by
            obtain ⟨t, ht⟩ := hhead
            have hget : sub[(c :: a).length]? = some x := by
              have hwhole : (sub ++ t)[(c :: a).length]? = some x := by
                rw [ht]
                simp
              rwa [List.getElem?_append_left (by omega)] at hwhole
            exact List.mem_of_getElem? hget
          exact hx hmem
        exact List.prefix_of_prefix_length_le hhead (List.prefix_append (c :: a) (x :: b)) hlen
      · exact fun hhead => hhead.trans (List.prefix_append (c :: a) (x :: b))

/-- A text occurs between two others that have none of its characters only
where it occurs in the middle. -/
theorem infix_between_iff {α : Type*} {sub : List α} (hne : sub ≠ []) (b : List α) {a c : List α}
    (ha : ∀ x ∈ a, x ∉ sub) (hc : ∀ x ∈ c, x ∉ sub) : sub <:+: a ++ b ++ c ↔ sub <:+: b := by
  have hnone : ¬ sub <:+: c := by
    obtain ⟨x, hx⟩ := List.exists_mem_of_ne_nil sub hne
    exact fun h => hc x (h.subset hx) hx
  induction a with
  | nil =>
    cases c with
    | nil => simp
    | cons x c =>
      have htail : ¬ sub <:+: c := fun h => hnone (h.trans (List.suffix_cons x c).isInfix)
      rw [List.nil_append, infix_append_cons_iff (hc x (List.mem_cons_self ..))]
      simp [htail]
  | cons x a ih =>
    have hrest : sub <:+: a ++ b ++ c ↔ sub <:+: b :=
      ih fun y hy => ha y (List.mem_cons_of_mem _ hy)
    rw [List.cons_append, List.cons_append, ← List.nil_append (x :: (a ++ b ++ c)),
      infix_append_cons_iff (ha x (List.mem_cons_self ..)), hrest]
    simp [hne]

/-- A text that ends a word before the name occurs there without what comes
after the word. -/
theorem infix_of_infix_append {α : Type*} {a b head name : List α} {y : α} (hy : y ∉ name)
    (h : a ++ y :: b <:+: head ++ name) : a ++ [y] <:+: head := by
  obtain ⟨p, q, hpq⟩ := h
  have hpre : p ++ (a ++ [y]) <+: head ++ name := ⟨b ++ q, by simp [← hpq]⟩
  have hinside : p ++ (a ++ [y]) <+: head := by
    rcases List.prefix_or_prefix_of_prefix hpre (List.prefix_append head name) with hin | hout
    · exact hin
    · obtain ⟨t, ht⟩ := hout
      rcases List.eq_nil_or_concat t with rfl | ⟨t', z, rfl⟩
      · simp [← ht]
      · have hlast : z = y := by
          have hlasts := congrArg List.getLast? ht
          simpa [← List.append_assoc] using hlasts
        rw [← ht, List.prefix_append_right_inj] at hpre
        exact absurd (hpre.subset (by simp [hlast])) hy
  exact (List.suffix_append p _).isInfix.trans hinside.isInfix

/-- A joined text, character by character. -/
theorem toList_join_cons (part : String) : ∀ rest : List String,
    (", ".intercalate (part :: rest)).toList
      = part.toList ++ rest.flatMap fun other => ',' :: ' ' :: other.toList
  | [] => by simp
  | other :: rest => by
      rw [String.intercalate_cons_cons, String.toList_append, String.toList_append,
        toList_join_cons other rest]
      simp

/-- **Joining adds no occurrence** of a text that has no comma and does not
start with a blank. -/
theorem contains_join_iff {sub : String} (hcomma : ',' ∉ sub.toList)
    (hblank : sub.toList.head? ≠ some ' ') (hne : sub ≠ "") :
    ∀ parts : List String, contains (", ".intercalate parts) sub = true
      ↔ ∃ part ∈ parts, contains part sub = true
  | [] => by
      have hchars : sub.toList ≠ [] := by simpa using hne
      simp [contains_iff, hchars]
  | [part] => by simp
  | part :: other :: rest => by
      have hrest := contains_join_iff hcomma hblank hne (other :: rest)
      simp only [contains_iff] at hrest ⊢
      have hskip : ∀ t : List Char, sub.toList <:+: ' ' :: t ↔ sub.toList <:+: t := by
        intro t
        rw [List.infix_cons_iff]
        refine or_iff_right_of_imp fun hhead => ?_
        cases hsub : sub.toList with
        | nil => exact List.nil_infix
        | cons y ys =>
          rw [hsub] at hhead hblank
          exact absurd (congrArg some (List.cons_prefix_cons.mp hhead).1) hblank
      have hjoin : (", ".intercalate (part :: other :: rest)).toList
          = part.toList ++ ',' :: ' ' :: (", ".intercalate (other :: rest)).toList := by
        simp [String.intercalate_cons_cons]
      rw [hjoin, infix_append_cons_iff hcomma, hskip, hrest]
      simp only [List.exists_mem_cons_iff]

end Text

end Library
