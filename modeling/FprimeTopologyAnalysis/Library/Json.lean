/-
FprimeTopologyAnalysis.Library.Json — JSON texts.

`dumps` writes a value the way Python's `json.dump` does by default: in
ASCII, with `", "` and `": "` between the parts. `loads` reads any JSON text
without fractional numbers. An object is the list of its fields, and
`dict?` makes a dictionary of it, in which the last field of a name wins.

`loads_dumps`: what is written is read back.
-/
import FprimeTopologyAnalysis.Library.Dict
import Mathlib.Data.String.Basic

namespace Library

/-- A JSON value. Its numbers are whole. -/
inductive Json where
  | null
  | bool (b : Bool)
  | int (n : Int)
  | str (s : String)
  | arr (items : List Json)
  | obj (fields : List (String × Json))

namespace Json

/-! ## Writing -/

/-- The code units of a character in UTF-16. -/
def units (c : Char) : List Nat :=
  if c.toNat < 0x10000 then [c.toNat]
  else [0xD800 + (c.toNat - 0x10000) / 0x400, 0xDC00 + (c.toNat - 0x10000) % 0x400]

/-- Four hexadecimal digits. -/
def hex4 (n : Nat) : List Char :=
  [Nat.digitChar (n / 4096 % 16), Nat.digitChar (n / 256 % 16), Nat.digitChar (n / 16 % 16),
    Nat.digitChar (n % 16)]

/-- The characters with an escape of two characters, and its second one:
the quote (22) and the backslash (5c) first. -/
def shortEscapes : List (Char × Char) :=
  [('\x22', '\x22'), ('\x5c', '\x5c'), ('\n', 'n'), ('\r', 'r'), ('\t', 't'), ('\x0c', 'f'),
    ('\x08', 'b')]

/-- A character of a string. -/
def escapeChar (c : Char) : List Char :=
  match shortEscapes.find? fun e => e.1 = c with
  | some e => ['\x5c', e.2]
  | none =>
    if 32 ≤ c.toNat ∧ c.toNat ≤ 126 then [c]
    else (units c).flatMap fun unit => '\x5c' :: 'u' :: hex4 unit

/-- A string, without its first quote. -/
def dumpTail (s : List Char) : List Char := s.flatMap escapeChar ++ ['\x22']

/-- A string. -/
def dumpString (s : String) : List Char := '\x22' :: dumpTail s.toList

/-- A number. -/
def dumpInt (n : Int) : List Char :=
  if n < 0 then '-' :: Nat.toDigits 10 n.natAbs else Nat.toDigits 10 n.natAbs

mutual

/-- A value. The braces are 7b and 7d. -/
def dump : Json → List Char
  | null => ['n', 'u', 'l', 'l']
  | bool true => ['t', 'r', 'u', 'e']
  | bool false => ['f', 'a', 'l', 's', 'e']
  | int n => dumpInt n
  | str s => dumpString s
  | arr [] => ['[', ']']
  | arr (x :: xs) => '[' :: (dump x ++ dumpItems xs)
  | obj [] => ['\x7b', '\x7d']
  | obj ((k, v) :: fields) =>
    '\x7b' :: (dumpString k ++ ':' :: ' ' :: (dump v ++ dumpFields fields))

/-- The items after the first, and the closing bracket. -/
def dumpItems : List Json → List Char
  | [] => [']']
  | x :: xs => ',' :: ' ' :: (dump x ++ dumpItems xs)

/-- The fields after the first, and the closing brace. -/
def dumpFields : List (String × Json) → List Char
  | [] => ['\x7d']
  | (k, v) :: fields => ',' :: ' ' :: (dumpString k ++ ':' :: ' ' :: (dump v ++ dumpFields fields))

end

/-- `json.dumps(j)`. -/
def dumps (j : Json) : String := String.ofList (dump j)

/-! ## Reading -/

/-- The value of a hexadecimal digit. -/
def hexVal (c : Char) : Option Nat :=
  if 48 ≤ c.toNat ∧ c.toNat ≤ 57 then some (c.toNat - 48)
  else if 97 ≤ c.toNat ∧ c.toNat ≤ 102 then some (c.toNat - 87)
  else if 65 ≤ c.toNat ∧ c.toNat ≤ 70 then some (c.toNat - 55)
  else none

/-- The value of four of them. -/
def hex4Val (a b c d : Char) : Option Nat :=
  match hexVal a, hexVal b, hexVal c, hexVal d with
  | some a, some b, some c, some d => some (4096 * a + 256 * b + 16 * c + d)
  | _, _, _, _ => none

/-- The character a short escape stands for. -/
def unescape (c : Char) : Option Char :=
  if c = '/' then some '/' else (shortEscapes.find? fun e => e.2 = c).map Prod.fst

/-- The code units of a string up to its closing quote, and what follows. -/
def scanUnits : List Char → Option (List Nat × List Char)
  | [] => none
  | '\x22' :: rest => some ([], rest)
  | '\x5c' :: 'u' :: a :: b :: c :: d :: rest =>
    match hex4Val a b c d, scanUnits rest with
    | some unit, some (us, rest) => some (unit :: us, rest)
    | _, _ => none
  | '\x5c' :: c :: rest =>
    match unescape c, scanUnits rest with
    | some c, some (us, rest) => some (units c ++ us, rest)
    | _, _ => none
  | c :: rest =>
    -- a control character may only be escaped
    if c.toNat < 32 then none else (scanUnits rest).map fun p => (units c ++ p.1, p.2)

/-- The characters of some code units; there is none for half a pair. -/
def joinUnits : List Nat → Option (List Char)
  | [] => some []
  | n :: rest =>
    if 0xD800 ≤ n ∧ n ≤ 0xDBFF then
      match rest with
      | m :: rest =>
        if 0xDC00 ≤ m ∧ m ≤ 0xDFFF then
          (joinUnits rest).map
            (Char.ofNat (0x10000 + 0x400 * (n - 0xD800) + (m - 0xDC00)) :: ·)
        else none
      | [] => none
    else if 0xDC00 ≤ n ∧ n ≤ 0xDFFF then none
    else (joinUnits rest).map (Char.ofNat n :: ·)

/-- A string, after its first quote. -/
def scanString (cs : List Char) : Option (String × List Char) :=
  match scanUnits cs with
  | none => none
  | some (us, rest) => (joinUnits us).map fun s => (String.ofList s, rest)

/-- A number without a sign. After a zero there is no further digit. -/
def readNat (cs : List Char) : Option (Nat × List Char) :=
  match cs.takeWhile Char.isDigit with
  | [] => none
  | '0' :: _ => some (0, cs.drop 1)
  | ds => some (Nat.ofDigitChars 10 ds 0, cs.dropWhile Char.isDigit)

/-- A number. -/
def readInt : List Char → Option (Int × List Char)
  | '-' :: cs => (readNat cs).map fun p => (-(p.1 : Int), p.2)
  | cs => (readNat cs).map fun p => ((p.1 : Int), p.2)

/-- The blanks of JSON. -/
def isBlank (c : Char) : Bool := c = ' ' || c = '\t' || c = '\n' || c = '\r'

/-- Leave blanks out. -/
def skipBlanks (cs : List Char) : List Char := cs.dropWhile isBlank

mutual

/-- A value, and what follows. -/
def parseValue : Nat → List Char → Option (Json × List Char)
  | 0, _ => none
  | _ + 1, [] => none
  | _ + 1, 'n' :: 'u' :: 'l' :: 'l' :: rest => some (null, rest)
  | _ + 1, 't' :: 'r' :: 'u' :: 'e' :: rest => some (bool true, rest)
  | _ + 1, 'f' :: 'a' :: 'l' :: 's' :: 'e' :: rest => some (bool false, rest)
  | _ + 1, '\x22' :: rest => (scanString rest).map fun p => (str p.1, p.2)
  | fuel + 1, '[' :: rest =>
    match skipBlanks rest with
    | ']' :: rest => some (arr [], rest)
    | rest => (parseItems fuel rest).map fun p => (arr p.1, p.2)
  | fuel + 1, '\x7b' :: rest =>
    match skipBlanks rest with
    | '\x7d' :: rest => some (obj [], rest)
    | rest => (parseFields fuel rest).map fun p => (obj p.1, p.2)
  | _ + 1, c :: rest => (readInt (c :: rest)).map fun p => (int p.1, p.2)

/-- At least one item, and the closing bracket. -/
def parseItems : Nat → List Char → Option (List Json × List Char)
  | 0, _ => none
  | fuel + 1, cs =>
    match parseValue fuel cs with
    | none => none
    | some (x, rest) =>
      match skipBlanks rest with
      | ']' :: rest => some ([x], rest)
      | ',' :: rest => (parseItems fuel (skipBlanks rest)).map fun p => (x :: p.1, p.2)
      | _ => none

/-- At least one field, and the closing brace. -/
def parseFields : Nat → List Char → Option (List (String × Json) × List Char)
  | fuel + 1, '\x22' :: cs =>
    match scanString cs with
    | none => none
    | some (k, rest) =>
      match skipBlanks rest with
      | ':' :: rest =>
        match parseValue fuel (skipBlanks rest) with
        | none => none
        | some (v, rest) =>
          match skipBlanks rest with
          | '\x7d' :: rest => some ([(k, v)], rest)
          | ',' :: rest => (parseFields fuel (skipBlanks rest)).map fun p => ((k, v) :: p.1, p.2)
          | _ => none
      | _ => none
  | _, _ => none

end

/-- `json.loads(text)`. A value takes up a character at least, so the length
of the text bounds the depth. -/
def loads (text : String) : Option Json :=
  match parseValue text.toList.length (skipBlanks text.toList) with
  | none => none
  | some (j, rest) => if skipBlanks rest = [] then some j else none

/-! ## Taking a value apart -/

/-- The dictionary of an object: the last field of a name wins. -/
def dict? : Json → Option (Dict String Json)
  | obj fields => some (Dict.ofList fields)
  | _ => none

/-- `j[name]`. -/
def field (name : String) (j : Json) : Option Json := j.dict?.bind fun d => d.get? name

def bool? : Json → Option Bool
  | bool b => some b
  | _ => none

def nat? : Json → Option Nat
  | int (.ofNat n) => some n
  | _ => none

def str? : Json → Option String
  | str s => some s
  | _ => none

def arr? : Json → Option (List Json)
  | arr items => some items
  | _ => none

/-- A list of which every item is of one kind. -/
def listOf {α : Type} (item : Json → Option α) (j : Json) : Option (List α) :=
  j.arr?.bind fun items => items.mapM item

/-- A list of texts. -/
def ofNames (names : List String) : Json := arr (names.map str)

/-- Items that are read back make a list that is. -/
theorem mapM_map {α β : Type} {item : β → Option α} {put : α → β}
    (h : ∀ a, item (put a) = some a) : ∀ xs : List α, (xs.map put).mapM item = some xs
  | [] => rfl
  | x :: xs => by simp [h x, mapM_map h xs]

theorem listOf_arr {α : Type} {item : Json → Option α} {put : α → Json}
    (h : ∀ a, item (put a) = some a) (xs : List α) : listOf item (arr (xs.map put)) = some xs :=
  mapM_map h xs

@[simp] theorem listOf_ofNames (names : List String) : listOf str? (ofNames names) = some names :=
  @listOf_arr String str? str (fun _ => rfl) names

/-- A dictionary of which every value is of one kind. -/
def dictOf {α : Type} (item : Json → Option α) (j : Json) : Option (Dict String α) :=
  j.dict?.bind fun d =>
    (d.entries.mapM fun e => (item e.2).map (Prod.mk e.1)).map Dict.ofList

/-- A dictionary whose values are written by `put`. -/
def ofDict {α : Type} (put : α → Json) (d : Dict String α) : Json :=
  obj (d.entries.map fun e => (e.1, put e.2))

/-- Values that are read back, each as `view` of it, make a dictionary that is. -/
theorem dictOf_ofDict {α β : Type} {item : Json → Option β} {put : α → Json} {view : α → β}
    (h : ∀ a, item (put a) = some (view a)) (d : Dict String α) :
    dictOf item (ofDict put d) = some (d.mapValues view) := by
  have hnd : ((d.entries.map fun e => (e.1, put e.2)).map Prod.fst).Nodup := by
    rw [List.map_map]
    exact d.nodupKeys
  have hread : ∀ es : List (String × α), (es.map fun e => (e.1, put e.2)).mapM
      (fun e => (item e.2).map (Prod.mk e.1)) = some (es.map fun e => (e.1, view e.2)) := by
    intro es
    induction es with
    | nil => rfl
    | cons e es ih => simp [h, ih]
  have hentries := (d.mapValues view).ofList_entries
  simp only [dictOf, ofDict, dict?, Option.bind_some, Dict.entries_ofList hnd, hread,
    Option.map_some]
  exact congrArg some hentries

/-! ## What is written is read back -/

/-! ### Strings -/

theorem hexVal_digitChar : ∀ d, d < 16 → hexVal (Nat.digitChar d) = some d := by decide

theorem scanUnits_unit {n : Nat} (hn : n < 0x10000) (rest : List Char) :
    scanUnits ('\x5c' :: 'u' :: (hex4 n ++ rest))
      = (scanUnits rest).map fun p => (n :: p.1, p.2) := by
  have hval : hex4Val (Nat.digitChar (n / 4096 % 16)) (Nat.digitChar (n / 256 % 16))
      (Nat.digitChar (n / 16 % 16)) (Nat.digitChar (n % 16)) = some n := by
    simp only [hex4Val, hexVal_digitChar _ (Nat.mod_lt _ (by decide : 0 < 16)), Option.some.injEq]
    omega
  simp only [hex4, List.cons_append, List.nil_append]
  rw [scanUnits, hval]
  cases scanUnits rest with
  | none => rfl
  | some p => rfl

theorem toNat_valid (c : Char) : c.toNat < 0xD800 ∨ 0xDFFF < c.toNat ∧ c.toNat < 0x110000 :=
  c.valid

theorem units_lt (c : Char) : ∀ n ∈ units c, n < 0x10000 := by
  intro n hn
  have hc := toNat_valid c
  unfold units at hn
  split at hn
  · rw [List.mem_singleton] at hn
    omega
  · simp only [List.mem_cons, List.not_mem_nil, or_false] at hn
    omega

/-- Escapes of code units are read as these. -/
theorem scanUnits_flatMap : ∀ (us : List Nat), (∀ n ∈ us, n < 0x10000) → ∀ rest,
    scanUnits (us.flatMap (fun unit => '\x5c' :: 'u' :: hex4 unit) ++ rest)
      = (scanUnits rest).map fun p => (us ++ p.1, p.2)
  | [], _, rest => by simp
  | n :: us, h, rest => by
      rw [List.flatMap_cons, List.append_assoc, List.cons_append, List.cons_append,
        scanUnits_unit (h n (List.mem_cons_self ..)),
        scanUnits_flatMap us fun m hm => h m (List.mem_cons_of_mem _ hm), Option.map_map]
      rfl

/-- One character of a string is read as its code units. -/
theorem scanUnits_escapeChar (c : Char) (rest : List Char) :
    scanUnits (escapeChar c ++ rest) = (scanUnits rest).map fun p => (units c ++ p.1, p.2) := by
  unfold escapeChar
  cases hfind : shortEscapes.find? fun e => e.1 = c with
  | some e =>
    have hmem := List.mem_of_find?_eq_some hfind
    have hc : e.1 = c := by simpa using List.find?_some hfind
    have hback : ∀ e ∈ shortEscapes, e.2 ≠ 'u' ∧ unescape e.2 = some e.1 := by decide
    obtain ⟨hu, hunescape⟩ := hback e hmem
    rw [hc] at hunescape
    simp only [List.cons_append, List.nil_append]
    rw [scanUnits, hunescape]
    · cases scanUnits rest with
      | none => rfl
      | some p => rfl
    · exact fun _ _ _ _ _ h _ => hu h
  | none =>
    dsimp only
    split
    · rename_i hrange
      have hne : ∀ e ∈ shortEscapes, e.1 ≠ c := by simpa using hfind
      rw [List.cons_append, List.nil_append, scanUnits]
      · rw [if_neg (by omega)]
      · exact fun h => hne ('\x22', '\x22') (by decide) h.symm
      · exact fun _ _ _ _ _ h _ => hne ('\x5c', '\x5c') (by decide) h.symm
      · exact fun _ _ h _ => hne ('\x5c', '\x5c') (by decide) h.symm
    · exact scanUnits_flatMap (units c) (units_lt c) rest

/-- The code units of a character are joined to it. -/
theorem joinUnits_units (c : Char) (us : List Nat) :
    joinUnits (units c ++ us) = (joinUnits us).map (c :: ·) := by
  have hc := toNat_valid c
  unfold units
  split
  · rw [List.cons_append, List.nil_append, joinUnits.eq_def]
    dsimp only
    rw [if_neg (by omega), if_neg (by omega), Char.ofNat_toNat]
  · rw [List.cons_append, List.cons_append, List.nil_append, joinUnits, if_pos (by omega),
      if_pos (by omega)]
    have hback : 0x10000 + 0x400 * (0xD800 + (c.toNat - 0x10000) / 0x400 - 0xD800)
        + (0xDC00 + (c.toNat - 0x10000) % 0x400 - 0xDC00) = c.toNat := by
      omega
    rw [hback, Char.ofNat_toNat]

theorem scanUnits_dumpTail (rest : List Char) : ∀ s : List Char,
    scanUnits (dumpTail s ++ rest) = some (s.flatMap units, rest)
  | [] => by simp [dumpTail, scanUnits]
  | c :: s => by
      have ih := scanUnits_dumpTail rest s
      simp only [dumpTail, List.flatMap_cons, List.append_assoc] at ih ⊢
      rw [scanUnits_escapeChar, ih]
      rfl

theorem joinUnits_flatMap : ∀ s : List Char, joinUnits (s.flatMap units) = some s
  | [] => rfl
  | c :: s => by
      rw [List.flatMap_cons, joinUnits_units, joinUnits_flatMap s]
      rfl

/-- A string is read back. -/
theorem scanString_dumpTail (s : String) (rest : List Char) :
    scanString (dumpTail s.toList ++ rest) = some (s, rest) := by
  simp [scanString, scanUnits_dumpTail, joinUnits_flatMap]

/-! ### Numbers -/

/-- What follows a number does not go on with it. -/
def Stops (rest : List Char) : Prop := ∀ c ∈ rest.head?, c.isDigit = false

theorem stops_cons {c : Char} {rest : List Char} (h : c.isDigit = false) : Stops (c :: rest) := by
  intro d hd
  obtain rfl : c = d := by simpa using hd
  exact h

/-- Only zero is written with a leading zero. -/
theorem eq_zero_of_toDigits (n : Nat) : ∀ ds, Nat.toDigits 10 n = '0' :: ds → n = 0 := by
  induction n using Nat.strong_induction_on with
  | _ n ih =>
    intro ds h
    rw [Nat.toDigits_eq_if (by decide)] at h
    split at h
    · rename_i hlt
      have hdigit : ∀ d < 10, Nat.digitChar d = '0' → d = 0 := by decide
      exact hdigit n hlt (List.cons.inj h).1
    · rename_i hge
      cases hfront : Nat.toDigits 10 (n / 10) with
      | nil => exact absurd hfront Nat.toDigits_ne_nil
      | cons c front =>
        rw [hfront, List.cons_append] at h
        obtain ⟨rfl, _⟩ := List.cons.inj h
        have hzero := ih (n / 10) (by omega) front hfront
        omega

theorem readNat_toDigits (n : Nat) {rest : List Char} (hrest : Stops rest) :
    readNat (Nat.toDigits 10 n ++ rest) = some (n, rest) := by
  have hdigits : ∀ c ∈ Nat.toDigits 10 n, c.isDigit = true :=
    fun c hc => Nat.isDigit_of_mem_toDigits (by decide) (by decide) hc
  have htake : (Nat.toDigits 10 n ++ rest).takeWhile Char.isDigit = Nat.toDigits 10 n := by
    rw [List.takeWhile_append_of_pos hdigits]
    cases rest with
    | nil => simp
    | cons c rest => simp [hrest c rfl]
  have hdrop : (Nat.toDigits 10 n ++ rest).dropWhile Char.isDigit = rest := by
    rw [List.dropWhile_append_of_pos hdigits]
    cases rest with
    | nil => rfl
    | cons c rest => simp [hrest c rfl]
  unfold readNat
  rw [htake, hdrop]
  split
  · rename_i hnil
    exact absurd hnil Nat.toDigits_ne_nil
  · rename_i ds hzero
    obtain rfl := eq_zero_of_toDigits n ds hzero
    rw [Nat.toDigits_zero]
    rfl
  · rw [Nat.ofDigitChars_toDigits (by decide) (by decide)]

/-- A number is read back. -/
theorem readInt_dumpInt (n : Int) {rest : List Char} (hrest : Stops rest) :
    readInt (dumpInt n ++ rest) = some (n, rest) := by
  unfold dumpInt
  split
  · rename_i hneg
    rw [List.cons_append, readInt, readNat_toDigits _ hrest, Option.map_some]
    simp only [Option.some.injEq, Prod.mk.injEq, and_true]
    omega
  · rename_i hpos
    rw [readInt, readNat_toDigits _ hrest, Option.map_some]
    · simp only [Option.some.injEq, Prod.mk.injEq, and_true]
      omega
    · intro cs h
      cases hdigits : Nat.toDigits 10 n.natAbs with
      | nil => exact absurd hdigits Nat.toDigits_ne_nil
      | cons c ds =>
        rw [hdigits, List.cons_append] at h
        obtain ⟨rfl, _⟩ := List.cons.inj h
        have hdigit : ('-').isDigit = true :=
          Nat.isDigit_of_mem_toDigits (by decide) (by decide) (hdigits ▸ List.mem_cons_self ..)
        exact absurd hdigit (by decide)

/-! ### Values -/

/-- A number starts with its sign or a digit. -/
theorem dumpInt_head (n : Int) : ∃ c cs, dumpInt n = c :: cs ∧ (c = '-' ∨ c.isDigit = true) := by
  unfold dumpInt
  split
  · exact ⟨'-', _, rfl, .inl rfl⟩
  · cases hdigits : Nat.toDigits 10 n.natAbs with
    | nil => exact absurd hdigits Nat.toDigits_ne_nil
    | cons c cs =>
      exact ⟨c, cs, rfl, .inr (Nat.isDigit_of_mem_toDigits (b := 10) (n := n.natAbs)
        (by decide) (by decide) (hdigits ▸ List.mem_cons_self ..))⟩

/-- The characters that start a value. -/
theorem dump_head (v : Json) :
    ∃ c cs, dump v = c :: cs ∧ isBlank c = false ∧ c ≠ ']' := by
  cases v with
  | null => exact ⟨_, _, rfl, by decide, by decide⟩
  | bool b => cases b <;> exact ⟨_, _, rfl, by decide, by decide⟩
  | int n =>
    obtain ⟨c, cs, hcs, hc⟩ := dumpInt_head n
    refine ⟨c, cs, hcs, ?_, ?_⟩
    · rw [← Bool.not_eq_true]
      intro hblank
      simp only [isBlank, Bool.or_eq_true, decide_eq_true_eq, or_assoc] at hblank
      rcases hblank with rfl | rfl | rfl | rfl <;> exact absurd hc (by decide)
    · rintro rfl
      exact absurd hc (by decide)
  | str s => exact ⟨_, _, rfl, by decide, by decide⟩
  | arr items => cases items <;> exact ⟨_, _, rfl, by decide, by decide⟩
  | obj fields => cases fields <;> exact ⟨_, _, rfl, by decide, by decide⟩

theorem skipBlanks_cons {c : Char} (hc : isBlank c = false) (cs : List Char) :
    skipBlanks (c :: cs) = c :: cs :=
  List.dropWhile_cons_of_neg (by simp [hc])

/-- Nothing is skipped before a value. -/
theorem skipBlanks_dump (v : Json) (rest : List Char) :
    skipBlanks (dump v ++ rest) = dump v ++ rest := by
  obtain ⟨c, cs, hcs, hc, _⟩ := dump_head v
  rw [hcs, List.cons_append, skipBlanks_cons hc]

mutual

theorem parseValue_dump : ∀ (v : Json) (fuel : Nat) (rest : List Char), (dump v).length ≤ fuel →
    Stops rest → parseValue fuel (dump v ++ rest) = some (v, rest)
  | null, fuel + 1, rest, _, _ => rfl
  | bool true, fuel + 1, rest, _, _ => rfl
  | bool false, fuel + 1, rest, _, _ => rfl
  | int n, fuel + 1, rest, _, hrest => by
      obtain ⟨c, cs, hcs, hc⟩ := dumpInt_head n
      have hread := readInt_dumpInt n hrest
      have hne : ∀ d, ¬ (d = '-' ∨ d.isDigit = true) → c ≠ d := fun d hd h => hd (h ▸ hc)
      rw [dump]
      rw [hcs, List.cons_append] at hread ⊢
      rw [parseValue, hread]
      · rfl
      · exact fun _ h _ => hne 'n' (by decide) h
      · exact fun _ h _ => hne 't' (by decide) h
      · exact fun _ h _ => hne 'f' (by decide) h
      · exact hne '\x22' (by decide)
      · exact hne '[' (by decide)
      · exact hne '\x7b' (by decide)
  | str s, fuel + 1, rest, _, _ => by
      rw [dump, dumpString, List.cons_append, parseValue, scanString_dumpTail]
      rfl
  | arr [], fuel + 1, rest, _, _ => rfl
  | arr (x :: xs), fuel + 1, rest, hfuel, _ => by
      have hitems := parseItems_dump x xs (parseValue_dump x) fuel rest (by
        simp only [dump, List.length_cons] at hfuel
        omega)
      obtain ⟨c, cs, hcs, _, hc⟩ := dump_head x
      rw [dump, List.cons_append, parseValue, List.append_assoc, skipBlanks_dump, ← List.append_assoc]
      split
      · rename_i hclose
        rw [hcs] at hclose
        exact absurd (List.cons.inj hclose).1 hc
      · rw [hitems]
        rfl
  | obj [], fuel + 1, rest, _, _ => rfl
  | obj ((k, v) :: fields), fuel + 1, rest, hfuel, _ => by
      have hfields := parseFields_dump k v fields (parseValue_dump v) fuel rest (by
        simpa only [dump, List.length_cons, Nat.add_le_add_iff_right] using hfuel)
      rw [dump, List.cons_append, parseValue]
      rw [dumpString, List.cons_append, List.cons_append] at hfields ⊢
      rw [skipBlanks_cons (by decide)]
      split
      · rename_i hclose
        exact absurd (List.cons.inj hclose).1 (by decide)
      · rw [hfields]
        rfl
  | v, 0, rest, hfuel, _ => by
      obtain ⟨c, cs, hcs, _⟩ := dump_head v
      simp [hcs] at hfuel

/-- Items that follow each other, the first of which is read back. -/
theorem parseItems_dump (x : Json) : ∀ (xs : List Json)
    (_ : ∀ (fuel : Nat) (rest : List Char), (dump x).length ≤ fuel → Stops rest →
      parseValue fuel (dump x ++ rest) = some (x, rest))
    (fuel : Nat) (rest : List Char), (dump x ++ dumpItems xs).length ≤ fuel →
    parseItems fuel (dump x ++ dumpItems xs ++ rest) = some (x :: xs, rest)
  | _, _, 0, _, hfuel => by
      obtain ⟨c, cs, hcs, _⟩ := dump_head x
      simp [hcs] at hfuel
  | [], hx, fuel + 1, rest, hfuel => by
      rw [dumpItems, List.length_append, List.length_singleton] at hfuel
      have hfirst := hx fuel (']' :: rest) (by omega) (stops_cons (by decide))
      simp only [dumpItems, List.append_assoc, List.cons_append, List.nil_append]
      rw [parseItems, hfirst]
      rfl
  | y :: ys, hx, fuel + 1, rest, hfuel => by
      rw [dumpItems, List.length_append, List.length_cons, List.length_cons] at hfuel
      have hfirst := hx fuel (',' :: ' ' :: (dump y ++ (dumpItems ys ++ rest))) (by omega)
        (stops_cons (by decide))
      have hitems := parseItems_dump y ys (parseValue_dump y) fuel rest (by omega)
      have hspace : skipBlanks (' ' :: (dump y ++ (dumpItems ys ++ rest)))
          = dump y ++ (dumpItems ys ++ rest) := skipBlanks_dump y _
      rw [List.append_assoc] at hitems
      simp only [dumpItems, List.append_assoc, List.cons_append]
      rw [parseItems, hfirst]
      simp only [skipBlanks_cons (c := ',') (by decide), hspace, hitems]
      rfl

/-- Fields that follow each other, the value of the first of which is read
back. -/
theorem parseFields_dump (k : String) (v : Json) : ∀ (fields : List (String × Json))
    (_ : ∀ (fuel : Nat) (rest : List Char), (dump v).length ≤ fuel → Stops rest →
      parseValue fuel (dump v ++ rest) = some (v, rest))
    (fuel : Nat) (rest : List Char),
    (dumpString k ++ ':' :: ' ' :: (dump v ++ dumpFields fields)).length ≤ fuel →
    parseFields fuel (dumpString k ++ ':' :: ' ' :: (dump v ++ dumpFields fields) ++ rest)
      = some ((k, v) :: fields, rest)
  | _, _, 0, _, hfuel => by simp [dumpString] at hfuel
  | [], hv, fuel + 1, rest, hfuel => by
      simp only [dumpFields, dumpString, List.length_cons, List.length_append, List.length_nil]
        at hfuel
      have hvalue := hv fuel ('\x7d' :: rest) (by omega) (stops_cons (by decide))
      have hspace : skipBlanks (' ' :: (dump v ++ '\x7d' :: rest)) = dump v ++ '\x7d' :: rest :=
        skipBlanks_dump v _
      simp only [dumpFields, dumpString, List.append_assoc, List.cons_append, List.nil_append]
      rw [parseFields, scanString_dumpTail]
      simp only [skipBlanks_cons (c := ':') (by decide), hspace, hvalue]
      rfl
  | (k', v') :: fields, hv, fuel + 1, rest, hfuel => by
      simp only [dumpFields, dumpString, List.length_cons, List.length_append] at hfuel
      have hfields := parseFields_dump k' v' fields (parseValue_dump v') fuel rest (by
        simp only [dumpString, List.length_cons, List.length_append]
        omega)
      simp only [dumpString, List.append_assoc, List.cons_append] at hfields
      have hvalue := hv fuel (',' :: ' ' :: '\x22' :: (dumpTail k'.toList
        ++ ':' :: ' ' :: (dump v' ++ (dumpFields fields ++ rest)))) (by omega)
        (stops_cons (by decide))
      have hspace : ∀ cs, skipBlanks (' ' :: (dump v ++ cs)) = dump v ++ cs :=
        fun cs => skipBlanks_dump v cs
      have hquote : ∀ cs, skipBlanks (' ' :: '\x22' :: cs) = '\x22' :: cs := fun cs => rfl
      simp only [dumpFields, dumpString, List.append_assoc, List.cons_append]
      rw [parseFields, scanString_dumpTail]
      simp only [skipBlanks_cons (c := ':') (by decide), hspace, hvalue,
        skipBlanks_cons (c := ',') (by decide), hquote, hfields]
      rfl

end

/-- **What is written is read back.** -/
theorem loads_dumps (j : Json) : loads (dumps j) = some j := by
  have hparse := parseValue_dump j (dump j).length [] le_rfl (fun c hc => by simp at hc)
  have hskip := skipBlanks_dump j []
  rw [List.append_nil] at hparse hskip
  unfold loads dumps
  rw [String.toList_ofList, hskip, hparse]
  rfl

end Json

end Library
