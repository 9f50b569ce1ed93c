/-
FprimeTopologyAnalysis.CppRateConfig — what `rate_groups.py` reads of the C++
sources of a deployment (`_read_cpp_rate_config`).

The sources are searched for divider sets, timer intervals and the calls
that start rate groups and timers. The integers in them are all accepted by
`CPP_INT`, and one that `_cpp_int` refuses ends the analysis; so does an
interval too large for a float. `cppInt_right_iff` says which texts are read
to their end. Frequencies are exact rationals, where the source has floats.

`\w` and `\s` are those of Unicode: what they match is a parameter.
-/
import FprimeTopologyAnalysis.CppLiterals
import FprimeTopologyAnalysis.Library.Dict
import FprimeTopologyAnalysis.Library.Text
import Mathlib.Data.List.ReduceOption
import Mathlib.Data.Rat.Defs

namespace FprimeTopologyAnalysis

open Library Library.Regex

/-! ## Patterns -/

/-- The characters of `\w` and of `\s`. -/
structure CharClasses where
  isWord : Char → Bool
  isSpace : Char → Bool

/-- The characters `[A-Za-z_]`. -/
def isNameStart (c : Char) : Bool := c.isAlpha || c = '_'

section Patterns

variable (classes : CharClasses)

/-- A name, `[A-Za-z_]\w*`. -/
def namePattern : Pat := .seq (.set isNameStart) (.star true (.set classes.isWord))

/-- Scopes, `(?:[A-Za-z_]\w*::)*`. -/
def scopesPattern : Pat := .star true (.cat [namePattern classes, .lit "::"])

/-- Blanks, `\s*`. -/
def blanksPattern : Pat := .star true (.set classes.isSpace)

/-- A word boundary, `\b`. -/
def boundaryPattern : Pat := .look fun a b => a.any classes.isWord != b.any classes.isWord

/-- `DIVIDER_SET_RE`. -/
def dividerSetPattern : Pat :=
  .cat [boundaryPattern classes, scopesPattern classes, .lit "DividerSet",
    .plus (.set classes.isSpace), .group "1" (namePattern classes), blanksPattern classes,
    .lit "\x7b", blanksPattern classes, .lit "\x7b", blanksPattern classes,
    .group "2" (.star false (.set fun _ => true)), blanksPattern classes, .lit "\x7d",
    blanksPattern classes, .lit "\x7d", blanksPattern classes, .lit ";"]

/-- `DIVIDER_PAIR_RE`. -/
def dividerPairPattern : Pat :=
  .cat [.lit "\x7b", blanksPattern classes, .group "divisor" cppIntPattern, blanksPattern classes,
    .lit ",", blanksPattern classes, .group "offset" cppIntPattern, blanksPattern classes,
    .lit "\x7d"]

/-- `CONFIGURE_RE`. -/
def configurePattern : Pat :=
  .cat [boundaryPattern classes,
    .group "instance" (.seq (scopesPattern classes) (namePattern classes)), blanksPattern classes,
    .lit ".", blanksPattern classes, .lit "configure", blanksPattern classes, .lit "(",
    blanksPattern classes, .group "value" (namePattern classes), blanksPattern classes, .lit ")"]

/-- Two integers in parentheses, the seconds and microseconds of an
interval. -/
def secondsPattern : Pat :=
  .cat [.lit "(", blanksPattern classes, .group "seconds" cppIntPattern, blanksPattern classes,
    .lit ",", blanksPattern classes, .group "useconds" cppIntPattern, blanksPattern classes,
    .lit ")"]

/-- `TIME_INTERVAL_RE`. -/
def timeIntervalPattern : Pat :=
  .cat [.opt (.lit "Fw::"), .lit "TimeInterval", blanksPattern classes, secondsPattern classes]

/-- `INTERVAL_DECL_RE`. -/
def intervalDeclPattern : Pat :=
  .cat [.opt (.lit "Fw::"), .lit "TimeInterval", .plus (.set classes.isSpace),
    .group "name" (namePattern classes), blanksPattern classes, secondsPattern classes]

/-- An interval, or the name of one, as an argument. -/
def argumentPattern : Pat :=
  .cat [.lit "(", blanksPattern classes,
    .group "interval" (.alt (timeIntervalPattern classes) (namePattern classes)),
    blanksPattern classes, .lit ")"]

/-- `START_RATE_GROUPS_RE`. -/
def startRateGroupsPattern : Pat :=
  .cat [boundaryPattern classes, .lit "startRateGroups", blanksPattern classes,
    argumentPattern classes]

/-- `START_TIMER_RE`. -/
def startTimerPattern : Pat :=
  .cat [boundaryPattern classes,
    .group "timer" (.seq (scopesPattern classes) (namePattern classes)), blanksPattern classes,
    .lit ".", blanksPattern classes, .lit "startTimer", blanksPattern classes,
    argumentPattern classes]

end Patterns

/-! ## Reading the sources -/

/-- The integers from which on a conversion to a float overflows. -/
def floatLimit : Nat := 2 ^ 1024 - 2 ^ 970

/-- The conversion of an integer to a float. It can overflow; the value is taken
exactly. -/
def toFloat (n : Nat) : Except PyError ℚ :=
  if n < floatLimit then .ok n else .error .overflowError

/-- `_frequency`, as an exact rational. -/
def frequency (seconds useconds : List Char) : Except PyError (Option ℚ) := do
  let whole ← cppInt seconds
  let micros ← cppInt useconds
  let fraction ← toFloat micros
  let start ← toFloat whole
  let period := start + fraction / 1000000
  return if period ≤ 0 then none else some (1 / period)

/-- `_short_cpp_name`. -/
def shortCppName (name : List Char) : String := String.ofList (Text.afterColons name)

/-- `_CppRateConfig`. The frequencies in `baseHz` are distinct, as exact rationals. -/
structure CppRateConfig where
  dividerSets : Dict String (List Nat)
  driverSets : Dict String String
  timerHz : Dict String ℚ
  baseHz : List ℚ

/-- The variables of the loop over the files. -/
structure SourcesRead where
  config : CppRateConfig
  texts : List (List Char)
  intervals : Dict String ℚ

section Reading

variable (classes : CharClasses)

/-- The divider sets of a text. -/
def readDividers (text : List Char) (config : CppRateConfig) : Except PyError CppRateConfig :=
  (finditer (dividerSetPattern classes) text).foldlM (fun config found => do
    let divisors ← (finditer (dividerPairPattern classes) (found.group "2")).mapM fun pair =>
      cppInt (pair.group "divisor")
    let name := String.ofList (found.group "1")
    return { config with dividerSets := config.dividerSets.set name divisors }) config

/-- The drivers that a text configures. -/
def readDrivers (text : List Char) (config : CppRateConfig) : CppRateConfig :=
  (finditer (configurePattern classes) text).foldl (fun config found =>
    let driver := shortCppName (found.group "instance")
    { config with
      driverSets := config.driverSets.set driver (String.ofList (found.group "value")) }) config

/-- A loop over matches that records the frequency of each, if it has one. -/
def recordFrequencies {σ : Type} (frequencyOf : State → Except PyError (Option ℚ))
    (record : σ → State → ℚ → σ) (founds : List State) (s : σ) : Except PyError σ :=
  founds.foldlM (fun s found => do
    match ← frequencyOf found with
    | none => return s
    | some hz => return record s found hz) s

/-- The intervals that a text declares. -/
def readIntervals (text : List Char) (intervals : Dict String ℚ) :
    Except PyError (Dict String ℚ) :=
  recordFrequencies (fun found => frequency (found.group "seconds") (found.group "useconds"))
    (fun intervals found hz => intervals.set (String.ofList (found.group "name")) hz)
    (finditer (intervalDeclPattern classes) text) intervals

/-- The loop over the files. One that cannot be read is passed over. -/
def readSource (r : SourcesRead) (source : Option (List Char)) : Except PyError SourcesRead :=
  match source with
  | none => return r
  | some text => do
    let config ← readDividers classes text r.config
    let intervals ← readIntervals classes text r.intervals
    return ⟨readDrivers classes text config, r.texts ++ [text], intervals⟩

/-- `expression.strip()`. -/
def strip (expression : List Char) : List Char :=
  (expression.dropWhile classes.isSpace).rdropWhile classes.isSpace

/-- `_interval_frequency`. -/
def intervalFrequency (expression : List Char) (intervals : Dict String ℚ) :
    Except PyError (Option ℚ) :=
  match search (timeIntervalPattern classes) expression with
  | some direct => frequency (direct.group "seconds") (direct.group "useconds")
  | none => return intervals.get? (String.ofList (strip classes expression))

/-- The frequencies at which rate groups are started. -/
def readBaseHz (combined : List Char) (intervals : Dict String ℚ) : Except PyError (List ℚ) :=
  recordFrequencies (fun found => intervalFrequency classes (found.group "interval") intervals)
    (fun baseHz _ hz => baseHz.insert hz)
    (finditer (startRateGroupsPattern classes) combined) []

/-- The frequencies of the timers that are started. -/
def readTimerHz (combined : List Char) (intervals : Dict String ℚ) :
    Except PyError (Dict String ℚ) :=
  recordFrequencies (fun found => intervalFrequency classes (found.group "interval") intervals)
    (fun timerHz found hz => timerHz.set (shortCppName (found.group "timer")) hz)
    (finditer (startTimerPattern classes) combined) ∅

/-- `timer_hz.setdefault(timer, base_hz)` for every timer. -/
def defaultTimerHz (combined : List Char) (base : ℚ) (timerHz : Dict String ℚ) : Dict String ℚ :=
  (finditer (startTimerPattern classes) combined).foldl (fun timerHz found =>
    let timer := shortCppName (found.group "timer")
    if (timerHz.get? timer).isSome then timerHz else timerHz.set timer base) timerHz

/-- The texts of the files that can be read, one after the other. -/
def combinedText (texts : List (List Char)) : List Char := ['\n'].intercalate texts

/-- `_read_cpp_rate_config`. -/
def readCppRateConfig (sources : List (Option (List Char))) : Except PyError CppRateConfig := do
  let r ← sources.foldlM (readSource classes) ⟨⟨∅, ∅, ∅, []⟩, [], ∅⟩
  let combined := combinedText r.texts
  let baseHz ← readBaseHz classes combined r.intervals
  let timerHz ← readTimerHz classes combined r.intervals
  return { r.config with
    baseHz := baseHz
    timerHz := match baseHz with
      | [base] => defaultTimerHz classes combined base timerHz
      | _ => timerHz }

/-! ## The literals that are read -/

/-- The divisors of the divider sets. -/
def divisorsRead (texts : List (List Char)) : List (List Char) :=
  texts.flatMap fun text => (finditer (dividerSetPattern classes) text).flatMap fun found =>
    (finditer (dividerPairPattern classes) (found.group "2")).map fun pair => pair.group "divisor"

/-- The intervals whose parts are read: those declared, and those that rate
groups or timers are started with. -/
def intervalsRead (texts : List (List Char)) : List State :=
  texts.flatMap (finditer (intervalDeclPattern classes))
    ++ (finditer (startRateGroupsPattern classes) (combinedText texts)
        ++ finditer (startTimerPattern classes) (combinedText texts)).filterMap fun found =>
      search (timeIntervalPattern classes) (found.group "interval")

/-- Their parts. -/
def partsRead (texts : List (List Char)) : List (List Char) :=
  (intervalsRead classes texts).flatMap fun found =>
    [found.group "seconds", found.group "useconds"]

end Reading

/-- A literal has a value that a float can have. -/
def FitsFloat (literal : List Char) : Prop := ∀ v, CppLiteral literal v → v < floatLimit

/-! ## Completing -/

/-- A computation raises no exception. -/
def Completes {α : Type} (x : Except PyError α) : Prop := ∃ a, x = .ok a

section Completes

variable {α β : Type}

theorem completes_pure (a : α) : Completes (pure a : Except PyError α) := ⟨a, rfl⟩

/-- One step after the other, where the second does not depend on what the
first gives. -/
theorem completes_bind_iff {x : Except PyError α} {f : α → Except PyError β} {P : Prop}
    (hf : ∀ a, x = .ok a → (Completes (f a) ↔ P)) : Completes (x >>= f) ↔ Completes x ∧ P := by
  cases x with
  | error e =>
    refine iff_of_false ?_ ?_
    · rintro ⟨b, hb⟩
      cases hb
    · rintro ⟨⟨a, ha⟩, _⟩
      cases ha
  | ok a =>
    show Completes (f a) ↔ _
    rw [hf a rfl]
    exact (and_iff_right ⟨a, rfl⟩).symm

/-- Both of two steps give what they should. -/
theorem bind_eq_ok {x : Except PyError α} {f : α → Except PyError β} {b : β}
    (h : x >>= f = .ok b) : ∃ a, x = .ok a ∧ f a = .ok b := by
  cases x with
  | error e => cases h
  | ok a => exact ⟨a, rfl, h⟩

/-- A loop completes when each of its steps does. -/
theorem completes_foldlM_iff {f : β → α → Except PyError β} {P : α → Prop}
    (hf : ∀ b a, Completes (f b a) ↔ P a) (as : List α) :
    ∀ b, Completes (as.foldlM f b) ↔ ∀ a ∈ as, P a := by
  induction as with
  | nil => exact fun b => iff_of_true (completes_pure b) (by simp)
  | cons a as ih =>
    intro b
    rw [List.foldlM_cons, completes_bind_iff fun b' _ => ih b', hf, List.forall_mem_cons]

theorem completes_mapM_iff (f : α → Except PyError β) (as : List α) :
    Completes (as.mapM f) ↔ ∀ a ∈ as, Completes (f a) := by
  induction as with
  | nil => exact iff_of_true (completes_pure []) (by simp)
  | cons a as ih =>
    rw [List.mapM_cons, completes_bind_iff (P := ∀ a ∈ as, Completes (f a)) fun b _ => ?_,
      List.forall_mem_cons]
    rw [completes_bind_iff (P := True) fun bs _ => iff_true_intro (completes_pure (b :: bs)), ih,
      and_true]

end Completes

/-! ## What is read is accepted -/

/-- The groups of integers hold integers. -/
def IntegerGroups (name : String) (word : List Char) : Prop :=
  name ∈ ["divisor", "offset", "seconds", "useconds"] → word ∈ cppIntPattern.lang

section Accepted

variable (classes : CharClasses)

theorem groupsIn_cppInt : cppIntPattern.GroupsIn IntegerGroups := by
  simp [cppIntPattern, Pat.GroupsIn, Pat.groupsIn_cat, Pat.groupsIn_lit, Pat.groupsIn_plus]

theorem groupsIn_name : (namePattern classes).GroupsIn IntegerGroups := by
  simp [namePattern, Pat.GroupsIn]

theorem groupsIn_seconds : (secondsPattern classes).GroupsIn IntegerGroups := by
  simp [secondsPattern, blanksPattern, Pat.GroupsIn, Pat.groupsIn_cat, Pat.groupsIn_lit,
    groupsIn_cppInt, IntegerGroups]

theorem groupsIn_timeInterval : (timeIntervalPattern classes).GroupsIn IntegerGroups := by
  simp [timeIntervalPattern, blanksPattern, Pat.GroupsIn, Pat.groupsIn_cat, Pat.groupsIn_lit,
    Pat.groupsIn_opt, groupsIn_seconds]

theorem groupsIn_intervalDecl : (intervalDeclPattern classes).GroupsIn IntegerGroups := by
  simp [intervalDeclPattern, blanksPattern, Pat.GroupsIn, Pat.groupsIn_cat, Pat.groupsIn_lit,
    Pat.groupsIn_opt, Pat.groupsIn_plus, groupsIn_seconds, groupsIn_name, IntegerGroups]

theorem groupsIn_dividerPair : (dividerPairPattern classes).GroupsIn IntegerGroups := by
  simp [dividerPairPattern, blanksPattern, Pat.GroupsIn, Pat.groupsIn_cat, Pat.groupsIn_lit,
    groupsIn_cppInt, IntegerGroups]

/-- A divisor is accepted. -/
theorem accepted_divisor {text : List Char} {pair : State}
    (h : pair ∈ finditer (dividerPairPattern classes) text) :
    pair.group "divisor" ∈ cppIntPattern.lang :=
  finditer_group (groupsIn_dividerPair classes) rfl h (by decide)

/-- The two integers of a match are accepted. -/
def PartsAccepted (found : State) : Prop :=
  found.group "seconds" ∈ cppIntPattern.lang ∧ found.group "useconds" ∈ cppIntPattern.lang

theorem partsAccepted_decl {text : List Char} {found : State}
    (h : found ∈ finditer (intervalDeclPattern classes) text) : PartsAccepted found :=
  ⟨finditer_group (groupsIn_intervalDecl classes) rfl h (by decide),
    finditer_group (groupsIn_intervalDecl classes) rfl h (by decide)⟩

theorem partsAccepted_timeInterval {text : List Char} {found : State}
    (h : found ∈ finditer (timeIntervalPattern classes) text) : PartsAccepted found :=
  ⟨finditer_group (groupsIn_timeInterval classes) rfl h (by decide),
    finditer_group (groupsIn_timeInterval classes) rfl h (by decide)⟩

end Accepted

/-! ## When a text is read to its end -/

/-- A number that can be made a float. -/
def ReadAsFloat (literal : List Char) : Prop := ReadByPython literal ∧ FitsFloat literal

theorem completes_cppInt_iff {literal : List Char} (h : literal ∈ cppIntPattern.lang) :
    Completes (cppInt literal) ↔ ReadByPython literal :=
  cppInt_ok_iff h

theorem completes_toFloat_iff (n : Nat) : Completes (toFloat n) ↔ n < floatLimit := by
  unfold toFloat
  split
  · rename_i hfits
    exact iff_of_true (completes_pure _) hfits
  · rename_i hlarge
    refine iff_of_false ?_ hlarge
    rintro ⟨q, hq⟩
    cases hq

/-- The value that is read decides whether a float can have it. -/
theorem fitsFloat_of_lt {literal : List Char} {v : Nat} (hread : ReadByPython literal)
    (hv : cppInt literal = .ok v) (hlt : v < floatLimit) : FitsFloat literal := by
  intro w hw
  have hsame := (cppInt_eq_iff hw).mpr hread
  rw [hv] at hsame
  rwa [← Except.ok.inj hsame]

theorem fitsFloat_iff {literal : List Char} (h : literal ∈ cppIntPattern.lang) {v : Nat}
    (hv : cppInt literal = .ok v) : FitsFloat literal ↔ v < floatLimit := by
  constructor
  · exact fun hfits => hfits v (cppLiteral_of_cppInt h hv)
  · exact fitsFloat_of_lt ((cppInt_ok_iff h).mp ⟨v, hv⟩) hv

/-- Both parts of an interval can be made floats. -/
def PartsFit (found : State) : Prop :=
  ReadAsFloat (found.group "seconds") ∧ ReadAsFloat (found.group "useconds")

/-- A frequency needs both its parts. -/
theorem completes_frequency_iff {found : State} (h : PartsAccepted found) :
    Completes (frequency (found.group "seconds") (found.group "useconds")) ↔ PartsFit found := by
  obtain ⟨hs, hu⟩ := h
  have hfloats : ∀ whole micros, cppInt (found.group "seconds") = .ok whole →
      cppInt (found.group "useconds") = .ok micros → ∀ k : ℚ → ℚ → Option ℚ,
        (Completes (do
          let fraction ← toFloat micros
          let start ← toFloat whole
          return k start fraction)
          ↔ FitsFloat (found.group "useconds") ∧ FitsFloat (found.group "seconds")) := by
    intro whole micros hwhole hmicros k
    rw [completes_bind_iff (P := FitsFloat (found.group "seconds")) fun fraction _ => ?_,
      completes_toFloat_iff, fitsFloat_iff hu hmicros]
    rw [completes_bind_iff (P := True) fun start _ => iff_true_intro (completes_pure _), and_true,
      completes_toFloat_iff, fitsFloat_iff hs hwhole]
  unfold frequency
  rw [completes_bind_iff (P := ReadAsFloat (found.group "useconds")
      ∧ FitsFloat (found.group "seconds")) fun whole hwhole => ?_, completes_cppInt_iff hs]
  · simp only [PartsFit, ReadAsFloat]
    tauto
  · rw [completes_bind_iff fun micros hmicros => hfloats whole micros hwhole hmicros _,
      completes_cppInt_iff hu]
    exact and_assoc.symm

section Reading

variable (classes : CharClasses)

theorem completes_readDividers_iff (text : List Char) (config : CppRateConfig) :
    Completes (readDividers classes text config)
      ↔ ∀ divisor ∈ divisorsRead classes [text], ReadByPython divisor := by
  have hset : ∀ (config : CppRateConfig) (found : State),
      Completes (do
        let divisors ← (finditer (dividerPairPattern classes) (found.group "2")).mapM fun pair =>
          cppInt (pair.group "divisor")
        let name := String.ofList (found.group "1")
        return { config with dividerSets := config.dividerSets.set name divisors })
        ↔ ∀ pair ∈ finditer (dividerPairPattern classes) (found.group "2"),
          ReadByPython (pair.group "divisor") := by
    intro config found
    rw [completes_bind_iff (P := True) fun divisors _ => iff_true_intro (completes_pure _),
      and_true, completes_mapM_iff]
    exact forall₂_congr fun pair hpair => completes_cppInt_iff (accepted_divisor classes hpair)
  unfold readDividers
  rw [completes_foldlM_iff hset]
  simp only [divisorsRead, List.flatMap_singleton, List.forall_mem_flatMap, List.forall_mem_map]

/-- Recording frequencies completes when each can be told. -/
theorem completes_recordFrequencies_iff {σ : Type}
    {frequencyOf : State → Except PyError (Option ℚ)} (record : σ → State → ℚ → σ)
    {founds : List State} {P : State → Prop}
    (hP : ∀ found ∈ founds, (Completes (frequencyOf found) ↔ P found)) (s : σ) :
    Completes (recordFrequencies frequencyOf record founds s) ↔ ∀ found ∈ founds, P found := by
  unfold recordFrequencies
  rw [completes_foldlM_iff (P := fun found => Completes (frequencyOf found)) fun s found => ?_]
  · exact forall₂_congr hP
  · rw [completes_bind_iff (P := True) fun f _ => iff_true_intro ?_, and_true]
    cases f <;> exact completes_pure _

theorem completes_readIntervals_iff (text : List Char) (intervals : Dict String ℚ) :
    Completes (readIntervals classes text intervals)
      ↔ ∀ found ∈ finditer (intervalDeclPattern classes) text, PartsFit found :=
  completes_recordFrequencies_iff _ (fun _ hfound =>
    completes_frequency_iff (partsAccepted_decl classes hfound)) intervals

/-- An interval that is written out is read, one that is named is looked up. -/
theorem completes_intervalFrequency_iff (expression : List Char) (intervals : Dict String ℚ) :
    Completes (intervalFrequency classes expression intervals)
      ↔ ∀ found ∈ search (timeIntervalPattern classes) expression, PartsFit found := by
  unfold intervalFrequency
  cases hsearch : search (timeIntervalPattern classes) expression with
  | none => exact iff_of_true (completes_pure _) (by simp)
  | some found =>
    simpa using completes_frequency_iff
      (partsAccepted_timeInterval classes (mem_finditer_of_search hsearch))

/-- A text is read to its end. -/
theorem completes_readSource_iff (r : SourcesRead) (source : Option (List Char)) :
    Completes (readSource classes r source) ↔ ∀ text ∈ source,
      (∀ divisor ∈ divisorsRead classes [text], ReadByPython divisor)
        ∧ ∀ found ∈ finditer (intervalDeclPattern classes) text, PartsFit found := by
  cases source with
  | none => exact iff_of_true (completes_pure r) (by simp)
  | some text =>
    unfold readSource
    dsimp only
    rw [completes_bind_iff
      (P := ∀ found ∈ finditer (intervalDeclPattern classes) text, PartsFit found)
      fun config _ => ?_, completes_readDividers_iff]
    · simp
    · rw [completes_bind_iff (P := True) fun intervals _ => iff_true_intro (completes_pure _),
        and_true, completes_readIntervals_iff]

/-- A file that is read adds its text. -/
theorem texts_readSource {r r' : SourcesRead} {source : Option (List Char)}
    (h : readSource classes r source = .ok r') : r'.texts = r.texts ++ source.toList := by
  unfold readSource at h
  cases source with
  | none =>
    obtain rfl := Except.ok.inj h
    simp
  | some text =>
    obtain ⟨config, _, h⟩ := bind_eq_ok h
    obtain ⟨intervals, _, h⟩ := bind_eq_ok h
    obtain rfl := Except.ok.inj h
    rfl

/-- The loop over the files gathers the texts of those that can be read. -/
theorem texts_foldlM (sources : List (Option (List Char))) : ∀ r r' : SourcesRead,
    sources.foldlM (readSource classes) r = .ok r' →
      r'.texts = r.texts ++ sources.reduceOption := by
  induction sources with
  | nil =>
    intro r r' h
    obtain rfl := Except.ok.inj h
    simp [List.reduceOption]
  | cons source sources ih =>
    intro r r' h
    rw [List.foldlM_cons] at h
    obtain ⟨next, hsource, h⟩ := bind_eq_ok h
    rw [ih next r' h, texts_readSource classes hsource]
    cases source <;> simp [List.reduceOption]

/-- The starts whose interval, if written out, can be read. -/
theorem completes_starts_iff {σ : Type} (record : σ → State → ℚ → σ) (founds : List State)
    (intervals : Dict String ℚ) (s : σ) :
    Completes (recordFrequencies
        (fun found => intervalFrequency classes (found.group "interval") intervals) record founds s)
      ↔ ∀ found ∈ founds.filterMap fun found =>
          search (timeIntervalPattern classes) (found.group "interval"), PartsFit found := by
  rw [completes_recordFrequencies_iff record
    (fun found _ => completes_intervalFrequency_iff classes (found.group "interval") intervals) s]
  simp only [List.forall_mem_filterMap, Option.mem_def]

/-- The parts of an interval are read together. -/
theorem readAsFloat_partsRead_iff (texts : List (List Char)) :
    (∀ part ∈ partsRead classes texts, ReadAsFloat part)
      ↔ ∀ found ∈ intervalsRead classes texts, PartsFit found := by
  simp only [partsRead, List.forall_mem_flatMap]
  exact forall₂_congr fun found _ => by simp [PartsFit]

/-- What is read of each file is read of the texts there are. -/
theorem forall_sources_iff (sources : List (Option (List Char))) :
    (∀ source ∈ sources, ∀ text ∈ source,
        (∀ divisor ∈ divisorsRead classes [text], ReadByPython divisor)
          ∧ ∀ found ∈ finditer (intervalDeclPattern classes) text, PartsFit found)
      ↔ (∀ divisor ∈ divisorsRead classes sources.reduceOption, ReadByPython divisor)
        ∧ ∀ found ∈ sources.reduceOption.flatMap (finditer (intervalDeclPattern classes)),
          PartsFit found := by
  simp only [divisorsRead, List.flatMap_singleton, List.forall_mem_flatMap,
    List.reduceOption_mem_iff, Option.mem_def]
  constructor
  · intro h
    exact ⟨fun text htext => (h _ htext text rfl).1, fun text htext => (h _ htext text rfl).2⟩
  · rintro ⟨hdivisors, hintervals⟩ _ hsource text rfl
    exact ⟨hdivisors text hsource, hintervals text hsource⟩

/-- **When the sources are read to their end**: exactly when Python reads
every divisor, and makes floats of the parts of every interval. -/
theorem completes_readCppRateConfig_iff (sources : List (Option (List Char))) :
    Completes (readCppRateConfig classes sources)
      ↔ (∀ divisor ∈ divisorsRead classes sources.reduceOption, ReadByPython divisor)
        ∧ ∀ part ∈ partsRead classes sources.reduceOption, ReadAsFloat part := by
  have hstarts : ∀ r, sources.foldlM (readSource classes) ⟨⟨∅, ∅, ∅, []⟩, [], ∅⟩ = .ok r →
      (Completes (do
        let combined := combinedText r.texts
        let baseHz ← readBaseHz classes combined r.intervals
        let timerHz ← readTimerHz classes combined r.intervals
        return { r.config with
          baseHz := baseHz
          timerHz := match baseHz with
            | [base] => defaultTimerHz classes combined base timerHz
            | _ => timerHz })
        ↔ ∀ found ∈ (finditer (startRateGroupsPattern classes)
                (combinedText sources.reduceOption)
              ++ finditer (startTimerPattern classes)
                (combinedText sources.reduceOption)).filterMap fun found =>
            search (timeIntervalPattern classes) (found.group "interval"), PartsFit found) := by
    intro r hr
    have htexts : r.texts = sources.reduceOption := by
      simpa using texts_foldlM classes sources _ r hr
    rw [htexts, List.filterMap_append, List.forall_mem_append]
    dsimp only
    rw [completes_bind_iff fun baseHz _ => ?_, readBaseHz, completes_starts_iff]
    rw [completes_bind_iff (P := True) fun timerHz _ => iff_true_intro (completes_pure _), and_true,
      readTimerHz, completes_starts_iff]
  unfold readCppRateConfig
  rw [completes_bind_iff hstarts, completes_foldlM_iff (completes_readSource_iff classes),
    forall_sources_iff, readAsFloat_partsRead_iff, intervalsRead, List.forall_mem_append, and_assoc]

end Reading

/-- **When literals are read right**: a literal has the value C++ gives it
exactly when Python reads it, and the sources are read to their end exactly
when it reads every divisor, and makes floats of the parts of every
interval. -/
theorem cppInt_right_iff {literal : List Char} {v : Nat} (hliteral : CppLiteral literal v)
    (classes : CharClasses) (sources : List (Option (List Char))) :
    (cppInt literal = .ok v ↔ ReadByPython literal)
      ∧ (Completes (readCppRateConfig classes sources)
        ↔ (∀ divisor ∈ divisorsRead classes sources.reduceOption, ReadByPython divisor)
          ∧ ∀ part ∈ partsRead classes sources.reduceOption,
            ReadByPython part ∧ FitsFloat part) :=
  ⟨cppInt_eq_iff hliteral, completes_readCppRateConfig_iff classes sources⟩

/-- The ASCII part of the classes. -/
def asciiClasses : CharClasses where
  isWord c := c.isAlphanum || c = '_'
  isSpace c := c ∈ [' ', '\t', '\n']

/-- An interval of 31 seconds and half a second, the seconds in hexadecimal. -/
def hexInterval : List Char := "TimeInterval i(0X1fuL, 500000);".toList

/-- A literal in hexadecimal is read, and so is a text with it. -/
theorem cppInt_right_iff_hex : cppInt ['0', 'X', '1', 'f', 'u', 'L'] = .ok 31
    ∧ Completes (readCppRateConfig asciiClasses [some hexInterval]) := by
  have hliteral : CppLiteral ('0' :: 'X' :: ['1', 'f'] ++ ['u', 'L']) (valueIn 16 ['1', 'f']) :=
    .hex (by decide) (by decide) (List.all_eq_true.mp (by decide)) (List.all_eq_true.mp (by decide))
  have hdivisors : divisorsRead asciiClasses [some hexInterval].reduceOption = [] := rfl
  have hparts : partsRead asciiClasses [some hexInterval].reduceOption
      = [['0', 'X', '1', 'f', 'u', 'L'], "500000".toList] := rfl
  have hhex : ReadByPython ['0', 'X', '1', 'f', 'u', 'L'] :=
    .inl ⟨'X', ['1', 'f', 'u', 'L'], rfl, by decide⟩
  have hdecimal : ReadByPython "500000".toList := .inr ⟨by simp [IsOctal], by decide⟩
  have h := cppInt_right_iff hliteral asciiClasses [some hexInterval]
  refine ⟨h.1.mpr hhex, h.2.mpr ⟨?_, ?_⟩⟩
  · rw [hdivisors]
    exact List.forall_mem_nil _
  · rw [hparts, List.forall_mem_cons, List.forall_mem_singleton]
    exact ⟨⟨hhex, fitsFloat_of_lt hhex (h.1.mpr hhex) (by decide +kernel)⟩,
      hdecimal, fitsFloat_of_lt hdecimal (show cppInt "500000".toList = .ok 500000 by decide)
        (by decide +kernel)⟩

/-- An interval of eight seconds, written in octal. -/
def octalInterval : List Char := "TimeInterval i(010, 0);".toList

/-- The literal is one of C++ with the value 8, and reading it ends the
analysis. -/
theorem octal_not_read : CppLiteral ['0', '1', '0'] 8
    ∧ cppInt ['0', '1', '0'] = .error .valueError
    ∧ readCppRateConfig asciiClasses [some octalInterval] = .error .valueError := by
  have hliteral : CppLiteral ('0' :: ['1', '0'] ++ []) (valueIn 8 ['0', '1', '0']) :=
    .octal (List.all_eq_true.mp (by decide)) (List.all_eq_true.mp (by decide))
  exact ⟨hliteral, by decide, rfl⟩

end FprimeTopologyAnalysis
