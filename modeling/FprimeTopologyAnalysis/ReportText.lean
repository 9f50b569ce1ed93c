/-
FprimeTopologyAnalysis.ReportText — the report of the checks as a text
(`format_report` of `topology_checks.py`).

The findings stand by severity, then by check and subject, under a headline
wherever the check changes. Every line says by its place what it is: a
headline is between two rules, the message is the line after the subject, and
an empty line ends a finding. So the text is read back line by line
(`readReport_formatReport`), whatever stands in it but a line break.
-/
import FprimeTopologyAnalysis.ExitStatus
import FprimeTopologyAnalysis.Library.Lines
import FprimeTopologyAnalysis.Library.Table
import Mathlib.Data.List.ModifyLast

namespace FprimeTopologyAnalysis

open Library

namespace TopologyChecks

/-! ## Writing -/

/-- What the head of the report counts. -/
structure Summary where
  instances : Nat
  statsPrecise : Nat
  statsConservative : Nat
  flowIsEmpty : Bool
  blocking : Nat

/-- `"=" * 72`. -/
def bar : String := String.ofList (List.replicate 72 '=')

/-- `"-" * 72`. -/
def rule : String := String.ofList (List.replicate 72 '-')

/-- `flow_summary`. -/
def flowSummary (s : Summary) : String :=
  let flowLookups := s.statsPrecise + s.statsConservative
  (if flowLookups ≠ 0 then toString s.statsPrecise ++ "/" ++ toString flowLookups
    else if s.flowIsEmpty then "not available" else "not required")
    ++ if s.statsConservative ≠ 0 then " (" ++ toString s.statsConservative ++ " conservative)"
      else ""

/-- A line of the summary. -/
def summaryLine (label value : String) : String := Text.ljust 23 (label ++ ":") ++ " " ++ value

/-- The lines above the findings. -/
def headLines (s : Summary) (findings : List CheckFinding) (skipped : List String) : List String :=
  [bar, "Topology Checks", bar, "",
    summaryLine "Component instances" (toString s.instances),
    summaryLine "C++ handlers resolved" (flowSummary s),
    summaryLine "Findings" (toString findings.length), ""]
    ++ (if s.blocking ≠ 0 then
        ["NOTE: " ++ toString s.blocking ++ " port(s) declare 'queue full block' and are "
          ++ "analyzed as ordinary async hops.", ""] else [])
    ++ skipped.map (fun note => "SKIPPED " ++ note)
    ++ if skipped ≠ [] then [""] else []

/-- The order of the findings. -/
def reportLe (a b : CheckFinding) : Prop :=
  b.severity.rank < a.severity.rank ∨ a.severity.rank = b.severity.rank
    ∧ (a.check < b.check ∨ a.check = b.check ∧ a.subject ≤ b.subject)

instance : DecidableRel reportLe := fun _ _ =>
  inferInstanceAs (Decidable (_ ∨ _ ∧ (_ ∨ _ ∧ _)))

/-- `ordered`. -/
def ordered (findings : List CheckFinding) : List CheckFinding := findings.insertionSort reportLe

/-- `finding.severity.value.upper()`. -/
def upper : Severity → String
  | .info => "INFO"
  | .warning => "WARNING"
  | .error => "ERROR"

/-- The lines of a finding. -/
def findingLines (f : CheckFinding) : List String :=
  ["  [" ++ upper f.severity ++ "] " ++ f.subject, "    " ++ f.message]
    ++ f.evidence.map (fun item => "      " ++ item) ++ [""]

/-- The lines of the findings, with a headline where the check changes. -/
def checkLines : Option String → List CheckFinding → List String
  | _, [] => []
  | current, f :: fs =>
    (if current = some f.check then [] else [rule, f.check, rule])
      ++ findingLines f ++ checkLines (some f.check) fs

/-- `format_report`. -/
def formatReport (s : Summary) (findings : List CheckFinding) (skipped : List String) : String :=
  "\n".intercalate (headLines s findings skipped
    ++ if findings = [] then ["No findings.", ""] else checkLines none (ordered findings))

/-! ## Reading -/

/-- What the next line is. -/
inductive Place where
  | head
  | title
  | underline
  | between
  | message
  | evidence
  deriving DecidableEq

/-- What has been read. -/
structure Reading where
  place : Place
  check : String
  findings : List CheckFinding
  skipped : List String
  deriving DecidableEq

def Reading.start : Reading := ⟨.head, "", [], []⟩

/-- The severity that is written so. -/
def severityOf (s : String) : Severity :=
  if s = upper .info then .info else if s = upper .warning then .warning else .error

/-- The finding that a line begins. -/
def readSubject (check line : String) : CheckFinding :=
  match Text.splitFirst "] " (Text.dropChars line 3) with
  | none => ⟨check, .info, "", "", []⟩
  | some (severity, subject) => ⟨check, severityOf severity, subject, "", []⟩

/-- One line is read. -/
def readLine (s : Reading) (line : String) : Reading :=
  match s.place with
  | .head =>
    if line = rule then { s with place := .title }
    else if Text.startsWith line "SKIPPED " then
      { s with skipped := s.skipped ++ [Text.dropChars line 8] }
    else s
  | .title => { s with place := .underline, check := line }
  | .underline => { s with place := .between }
  | .between =>
    if line = rule then { s with place := .title }
    else if line = "" then s
    else { s with place := .message, findings := s.findings ++ [readSubject s.check line] }
  | .message =>
    { s with
      place := .evidence
      findings := s.findings.modifyLast fun f => { f with message := Text.dropChars line 4 } }
  | .evidence =>
    if line = "" then { s with place := .between }
    else
      { s with
        findings := s.findings.modifyLast fun f =>
          { f with evidence := f.evidence ++ [Text.dropChars line 6] } }

/-- The lines of a report are read. -/
def readReport (text : String) : Reading := (Table.splitLines text).foldl readLine .start

/-! ## The lines are read -/

section Lines

variable {s : Reading}

/-- A line that says nothing about the findings. -/
def IsPreamble (line : String) : Prop :=
  line.toList.head? ≠ some '-' ∧ line.toList.head? ≠ some 'S'

theorem ne_rule {line : String} (h : line.toList.head? ≠ some '-') : line ≠ rule := by
  rintro rfl
  exact h (by decide)

theorem read_preamble (hplace : s.place = .head) {line : String} (h : IsPreamble line) :
    readLine s line = s := by
  have hnot : Text.startsWith line "SKIPPED " = false := by
    rw [Text.startsWith]
    cases hline : line.toList with
    | nil => rfl
    | cons c cs =>
      have hc : c ≠ 'S' := fun heq => h.2 (by rw [hline, heq]; rfl)
      simp [List.isPrefixOf, Ne.symm hc]
  simp [readLine, hplace, ne_rule h.1, hnot]

theorem read_preambles (hplace : s.place = .head) : ∀ lines : List String,
    (∀ line ∈ lines, IsPreamble line) → lines.foldl readLine s = s
  | [], _ => rfl
  | line :: lines, h => by
      obtain ⟨hline, hlines⟩ := List.forall_mem_cons.mp h
      rw [List.foldl_cons, read_preamble hplace hline, read_preambles hplace lines hlines]

theorem read_skipped (check : String) (findings : List CheckFinding) :
    ∀ (notes skipped : List String),
      (notes.map fun note => "SKIPPED " ++ note).foldl readLine ⟨.head, check, findings, skipped⟩
        = ⟨.head, check, findings, skipped ++ notes⟩
  | [], skipped => by simp
  | note :: notes, skipped => by
      have hrule : "SKIPPED " ++ note ≠ rule := ne_rule (by simp)
      have hline : readLine ⟨.head, check, findings, skipped⟩ ("SKIPPED " ++ note)
          = ⟨.head, check, findings, skipped ++ [note]⟩ := by
        simp [readLine, hrule, Text.startsWith_self_append,
          show Text.dropChars ("SKIPPED " ++ note) 8 = note from Text.dropChars_append "SKIPPED " note]
      rw [List.map_cons, List.foldl_cons, hline, read_skipped check findings notes]
      simp

/-- The severity is what stands in the brackets. -/
theorem readSubject_eq (f : CheckFinding) :
    readSubject f.check ("  [" ++ upper f.severity ++ "] " ++ f.subject)
      = ⟨f.check, f.severity, f.subject, "", []⟩ := by
  have hdrop : Text.dropChars ("  [" ++ upper f.severity ++ "] " ++ f.subject) 3
      = upper f.severity ++ "] " ++ f.subject := by
    have h := Text.dropChars_append "  [" (upper f.severity ++ "] " ++ f.subject)
    rwa [← String.append_assoc, ← String.append_assoc] at h
  have hupper : ']' ∉ (upper f.severity).toList := by
    cases f.severity <;> decide
  have hsplit : Text.splitFirst "] " (upper f.severity ++ "] " ++ f.subject)
      = some (upper f.severity, f.subject) := by
    have hsep : "] ".toList ≠ [] := by decide
    have hchars : Text.splitFirstChars "] ".toList (upper f.severity ++ "] " ++ f.subject).toList
        = some ((upper f.severity).toList, f.subject.toList) := by
      refine (Text.splitFirstChars_eq_some_iff hsep).mpr ⟨by simp, fun a c hac hne hstart => ?_⟩
      cases c with
      | nil => exact hne rfl
      | cons x c =>
        have hx : x = ']' := (List.cons_prefix_cons.mp hstart).1.symm
        exact hupper (by rw [hac, hx]; simp)
    rw [Text.splitFirst, hchars]
    simp
  have hseverity : severityOf (upper f.severity) = f.severity := by
    cases f.severity <;> decide
  rw [readSubject, hdrop, hsplit]
  simp [hseverity]

theorem read_evidence (check : String) (findings : List CheckFinding) (skipped : List String) :
    ∀ (items : List String) (f : CheckFinding),
      (items.map fun item => "      " ++ item).foldl readLine
          ⟨.evidence, check, findings ++ [f], skipped⟩
        = ⟨.evidence, check, findings ++ [{ f with evidence := f.evidence ++ items }], skipped⟩
  | [], f => by simp
  | item :: items, f => by
      have hne : "      " ++ item ≠ "" := by simp
      have hline : readLine ⟨.evidence, check, findings ++ [f], skipped⟩ ("      " ++ item)
          = ⟨.evidence, check, findings ++ [{ f with evidence := f.evidence ++ [item] }],
            skipped⟩ := by
        simp only [readLine, if_neg hne, List.modifyLast_concat,
          show Text.dropChars ("      " ++ item) 6 = item from Text.dropChars_append "      " item]
      rw [List.map_cons, List.foldl_cons, hline, read_evidence check findings skipped items]
      simp

/-- **A finding is read back.** -/
theorem read_finding (f : CheckFinding) (findings : List CheckFinding) (skipped : List String) :
    (findingLines f).foldl readLine ⟨.between, f.check, findings, skipped⟩
      = ⟨.between, f.check, findings ++ [f], skipped⟩ := by
  have hrule : "  [" ++ upper f.severity ++ "] " ++ f.subject ≠ rule := ne_rule (by simp)
  have hne : "  [" ++ upper f.severity ++ "] " ++ f.subject ≠ "" := by simp
  have hsubject : readLine ⟨.between, f.check, findings, skipped⟩
        ("  [" ++ upper f.severity ++ "] " ++ f.subject)
      = ⟨.message, f.check, findings ++ [⟨f.check, f.severity, f.subject, "", []⟩], skipped⟩ := by
    simp only [readLine, if_neg hrule, if_neg hne, readSubject_eq]
  have hmessage : readLine
        ⟨.message, f.check, findings ++ [⟨f.check, f.severity, f.subject, "", []⟩], skipped⟩
        ("    " ++ f.message)
      = ⟨.evidence, f.check, findings ++ [⟨f.check, f.severity, f.subject, f.message, []⟩],
        skipped⟩ := by
    simp only [readLine, List.modifyLast_concat,
      show Text.dropChars ("    " ++ f.message) 4 = f.message
        from Text.dropChars_append "    " f.message]
  simp only [findingLines, List.foldl_append, List.foldl_cons, List.foldl_nil, hsubject, hmessage,
    read_evidence]
  simp [readLine]

/-- All findings, under their headlines. -/
theorem read_checkLines : ∀ (fs : List CheckFinding) (current : Option String) (check : String)
    (findings : List CheckFinding) (skipped : List String) (place : Place),
    (place = .between ∨ place = .head ∧ current = none) → (∀ c, current = some c → check = c) →
    fs ≠ [] →
    ∃ check', (checkLines current fs).foldl readLine ⟨place, check, findings, skipped⟩
      = ⟨.between, check', findings ++ fs, skipped⟩
  | [], _, _, _, _, _, _, _, hne => absurd rfl hne
  | f :: fs, current, check, findings, skipped, place, hplace, hcheck, _ => by
      have hhead : ((if current = some f.check then [] else [rule, f.check, rule]).foldl readLine
          ⟨place, check, findings, skipped⟩) = ⟨.between, f.check, findings, skipped⟩ := by
        by_cases hsame : current = some f.check
        · rcases hplace with rfl | ⟨_, hnone⟩
          · simp [hsame, hcheck _ hsame]
          · cases hsame.symm.trans hnone
        · rcases hplace with rfl | ⟨rfl, _⟩ <;> simp [hsame, readLine]
      rw [checkLines, List.foldl_append, List.foldl_append, hhead, read_finding]
      cases fs with
      | nil => exact ⟨f.check, by simp [checkLines]⟩
      | cons f' fs =>
        obtain ⟨check', hrest⟩ := read_checkLines (f' :: fs) (some f.check) f.check (findings ++ [f])
          skipped .between (.inl rfl) (fun c hc => Option.some.inj hc) (List.cons_ne_nil _ _)
        exact ⟨check', by rw [hrest]; simp⟩

end Lines

/-! ## The order -/

theorem reportLe_total (a b : CheckFinding) : reportLe a b ∨ reportLe b a := by
  unfold reportLe
  rcases lt_trichotomy a.severity.rank b.severity.rank with hrank | hrank | hrank
  · exact .inr (.inl hrank)
  · rcases lt_trichotomy a.check b.check with hcheck | hcheck | hcheck
    · exact .inl (.inr ⟨hrank, .inl hcheck⟩)
    · rcases le_total a.subject b.subject with hsubject | hsubject
      · exact .inl (.inr ⟨hrank, .inr ⟨hcheck, hsubject⟩⟩)
      · exact .inr (.inr ⟨hrank.symm, .inr ⟨hcheck.symm, hsubject⟩⟩)
    · exact .inr (.inr ⟨hrank.symm, .inl hcheck⟩)
  · exact .inl (.inl hrank)

theorem reportLe.trans {a b c : CheckFinding} (hab : reportLe a b) (hbc : reportLe b c) :
    reportLe a c := by
  rcases hab with hab | ⟨hab, hnames⟩
  · rcases hbc with hbc | ⟨hbc, _⟩
    · exact .inl (hbc.trans hab)
    · exact .inl (hbc ▸ hab)
  · rcases hbc with hbc | ⟨hbc, hnames'⟩
    · exact .inl (hab ▸ hbc)
    · refine .inr ⟨hab.trans hbc, ?_⟩
      rcases hnames with hcheck | ⟨hcheck, hsubject⟩
      · rcases hnames' with hcheck' | ⟨hcheck', _⟩
        · exact .inl (hcheck.trans hcheck')
        · exact .inl (hcheck' ▸ hcheck)
      · rcases hnames' with hcheck' | ⟨hcheck', hsubject'⟩
        · exact .inl (hcheck ▸ hcheck')
        · exact .inr ⟨hcheck.trans hcheck', hsubject.trans hsubject'⟩

instance : Std.Total reportLe := ⟨reportLe_total⟩

instance : IsTrans CheckFinding reportLe := ⟨fun _ _ _ => reportLe.trans⟩

theorem mem_ordered {f : CheckFinding} {findings : List CheckFinding} :
    f ∈ ordered findings ↔ f ∈ findings :=
  List.mem_insertionSort reportLe

/-! ## The text is read -/

/-- No line break. -/
def IsLine (s : String) : Prop := '\n' ∉ s.toList

instance (s : String) : Decidable (IsLine s) := inferInstanceAs (Decidable (_ ∉ _))

theorem IsLine.append {s t : String} (hs : IsLine s) (ht : IsLine t) : IsLine (s ++ t) := by
  simpa [IsLine, not_or] using ⟨hs, ht⟩

theorem isLine_nat (n : Nat) : IsLine (toString n) := by
  intro h
  have hdigit := Text.mem_natRepr h
  simp at hdigit

/-- Every text of the finding is a line. -/
structure OnLines (f : CheckFinding) : Prop where
  check : IsLine f.check
  subject : IsLine f.subject
  message : IsLine f.message
  evidence : ∀ item ∈ f.evidence, IsLine item

theorem isLine_flowSummary (s : Summary) : IsLine (flowSummary s) := by
  unfold flowSummary
  refine IsLine.append ?_ ?_
  · split
    · exact ((isLine_nat _).append (by decide)).append (isLine_nat _)
    · split <;> decide
  · split
    · exact (IsLine.append (by decide) (isLine_nat _)).append (by decide)
    · decide

/-- A line above the findings. -/
structure IsHeadLine (line : String) : Prop where
  preamble : IsPreamble line
  line : IsLine line

/-- How a text starts tells what it is. -/
theorem IsHeadLine.append {start rest : String} (h : IsHeadLine start) (hne : start ≠ "")
    (hrest : IsLine rest) : IsHeadLine (start ++ rest) := by
  refine ⟨?_, h.line.append hrest⟩
  have hpreamble := h.preamble
  cases hchars : start.toList with
  | nil => exact absurd (String.toList_eq_nil_iff.mp hchars) hne
  | cons c cs => simpa [IsPreamble, hchars] using hpreamble

instance (line : String) : Decidable (IsHeadLine line) :=
  decidable_of_iff ((line.toList.head? ≠ some '-' ∧ line.toList.head? ≠ some 'S') ∧ IsLine line)
    ⟨fun h => ⟨h.1, h.2⟩, fun h => ⟨h.preamble, h.line⟩⟩

/-- The lines above the findings, and the notes among them. -/
theorem headLines_eq (s : Summary) (findings : List CheckFinding) (skipped : List String) :
    ∃ above below, headLines s findings skipped
        = above ++ skipped.map (fun note => "SKIPPED " ++ note) ++ below
      ∧ (∀ line ∈ above, IsHeadLine line) ∧ ∀ line ∈ below, IsHeadLine line := by
  refine ⟨_, _, rfl, fun line hline => ?_, fun line hline => ?_⟩
  · have hfixed : ∀ line ∈ [bar, "Topology Checks", ""], IsHeadLine line := by decide
    have hlabels : ∀ label ∈ ["Component instances", "C++ handlers resolved", "Findings"],
        IsHeadLine (Text.ljust 23 (label ++ ":") ++ " ")
          ∧ Text.ljust 23 (label ++ ":") ++ " " ≠ "" := by decide
    have hsummary : ∀ label ∈ ["Component instances", "C++ handlers resolved", "Findings"],
        ∀ value, IsLine value → IsHeadLine (summaryLine label value) :=
      fun label hlabel value hvalue => (hlabels label hlabel).1.append (hlabels label hlabel).2 hvalue
    have hnote : IsHeadLine ("NOTE: " ++ toString s.blocking
        ++ " port(s) declare 'queue full block' and are " ++ "analyzed as ordinary async hops.") := by
      have hstart : IsHeadLine ("NOTE: " ++ toString s.blocking) :=
        IsHeadLine.append (by decide) (by decide) (isLine_nat _)
      exact (hstart.append (by simp) (by decide)).append (by simp) (by decide)
    rcases List.mem_append.mp hline with hline | hline
    · simp only [List.mem_cons, List.not_mem_nil, or_false] at hline
      rcases hline with rfl | rfl | rfl | rfl | rfl | rfl | rfl | rfl
      · exact hfixed _ (by simp)
      · exact hfixed _ (by simp)
      · exact hfixed _ (by simp)
      · exact hfixed _ (by simp)
      · exact hsummary _ (by simp) _ (isLine_nat _)
      · exact hsummary _ (by simp) _ (isLine_flowSummary s)
      · exact hsummary _ (by simp) _ (isLine_nat _)
      · exact hfixed _ (by simp)
    · split at hline
      · rcases List.mem_pair.mp hline with rfl | rfl
        · exact hnote
        · exact hfixed _ (by simp)
      · cases hline
  · split at hline
    · rw [List.mem_singleton.mp hline]
      decide
    · cases hline

theorem isLine_findingLines {f : CheckFinding} (h : OnLines f) :
    ∀ line ∈ findingLines f, IsLine line := by
  have hseverity : IsLine (upper f.severity) := by
    cases f.severity <;> decide
  intro line hline
  simp only [findingLines, List.mem_append, List.mem_cons, List.mem_map, List.not_mem_nil,
    or_false] at hline
  rcases hline with ((rfl | rfl) | ⟨item, hitem, rfl⟩) | rfl
  · exact ((IsLine.append (by decide) hseverity).append (by decide)).append h.subject
  · exact IsLine.append (by decide) h.message
  · exact IsLine.append (by decide) (h.evidence item hitem)
  · decide

theorem isLine_checkLines : ∀ (fs : List CheckFinding) (current : Option String),
    (∀ f ∈ fs, OnLines f) → ∀ line ∈ checkLines current fs, IsLine line
  | [], _, _ => by simp [checkLines]
  | f :: fs, current, h => by
      obtain ⟨hf, hfs⟩ := List.forall_mem_cons.mp h
      intro line hline
      rw [checkLines] at hline
      rcases List.mem_append.mp hline with hline | hline
      · rcases List.mem_append.mp hline with hline | hline
        · split at hline
          · cases hline
          · simp only [List.mem_cons, List.not_mem_nil, or_false] at hline
            rcases hline with rfl | rfl | rfl
            · decide
            · exact hf.check
            · decide
        · exact isLine_findingLines hf line hline
      · exact isLine_checkLines fs (some f.check) hfs line hline

/-- **The text of a report is read back.** -/
theorem readReport_formatReport (s : Summary) {findings : List CheckFinding} {skipped : List String}
    (hfindings : ∀ f ∈ findings, OnLines f) (hskipped : ∀ note ∈ skipped, IsLine note) :
    (readReport (formatReport s findings skipped)).findings = ordered findings
      ∧ (readReport (formatReport s findings skipped)).skipped = skipped := by
  obtain ⟨above, below, hhead, habove, hbelow⟩ := headLines_eq s findings skipped
  have hfinished : ∀ line ∈ ["No findings.", ""], IsHeadLine line := by decide
  have hlines : ∀ line ∈ headLines s findings skipped
      ++ (if findings = [] then ["No findings.", ""] else checkLines none (ordered findings)),
      IsLine line := by
    intro line hline
    rcases List.mem_append.mp hline with hline | hline
    · rw [hhead] at hline
      rcases List.mem_append.mp hline with hline | hline
      · rcases List.mem_append.mp hline with hline | hline
        · exact (habove line hline).line
        · obtain ⟨note, hnote, rfl⟩ := List.mem_map.mp hline
          exact IsLine.append (by decide) (hskipped note hnote)
      · exact (hbelow line hline).line
    · split at hline
      · exact (hfinished line hline).line
      · exact isLine_checkLines _ none (fun f hf => hfindings f (mem_ordered.mp hf)) line hline
  have hsplit : Table.splitLines (formatReport s findings skipped) = headLines s findings skipped
      ++ if findings = [] then ["No findings.", ""] else checkLines none (ordered findings) :=
    Table.splitLines_join hlines (by simp [headLines])
  have hread : (headLines s findings skipped).foldl readLine .start = ⟨.head, "", [], skipped⟩ := by
    rw [hhead, List.foldl_append, List.foldl_append,
      read_preambles rfl above fun line hline => (habove line hline).preamble]
    have hnotes := read_skipped "" [] skipped []
    rw [Reading.start, hnotes, List.nil_append]
    exact read_preambles rfl below fun line hline => (hbelow line hline).preamble
  rw [readReport, hsplit, List.foldl_append, hread]
  by_cases hnone : findings = []
  · rw [if_pos hnone, read_preambles rfl _ fun line hline => (hfinished line hline).preamble, hnone]
    exact ⟨rfl, rfl⟩
  · rw [if_neg hnone]
    have hne : ordered findings ≠ [] := by
      intro hnil
      refine hnone (List.eq_nil_iff_forall_not_mem.mpr fun f hf => ?_)
      have hmem := mem_ordered.mpr hf
      rw [hnil] at hmem
      cases hmem
    obtain ⟨check, hchecks⟩ := read_checkLines (ordered findings) none "" [] skipped .head
      (.inr ⟨rfl, rfl⟩) (fun c hc => by cases hc) hne
    rw [hchecks]
    exact ⟨rfl, rfl⟩

/-- **The text says what the run found.** Where no text has a line break, what
is read off the report is every finding, each with all of its evidence, by
severity, check and subject, and every note about a skipped check. So the
exit code can be counted in the text. -/
theorem report_text_exact (s : Summary) (report : CheckReport) (failOn : Option Severity)
    (hfindings : ∀ f ∈ report.findings, OnLines f)
    (hskipped : ∀ note ∈ report.skipped, IsLine note.str) :
    let read := readReport (formatReport s report.findings (report.skipped.map SkipNote.str))
    read.findings.Perm report.findings ∧ read.findings.Pairwise reportLe
      ∧ read.skipped = report.skipped.map SkipNote.str
      ∧ failingCount failOn read.findings = failingCount failOn report.findings := by
  have hnotes : ∀ note ∈ report.skipped.map SkipNote.str, IsLine note := by
    simpa using hskipped
  obtain ⟨hread, hskip⟩ := readReport_formatReport s hfindings hnotes
  have hperm : (ordered report.findings).Perm report.findings := List.perm_insertionSort reportLe _
  intro read
  rw [show read.findings = ordered report.findings from hread]
  refine ⟨hperm, List.pairwise_insertionSort reportLe _, hskip, ?_⟩
  cases failOn with
  | none => rfl
  | some threshold => exact (hperm.filter _).length_eq

/-- Two findings of one check with one of another between them, and a note. -/
def threeFindings : CheckReport :=
  ⟨[⟨"sync-cycle", .warning, "T.a", "a cycle", ["T.a.in", "T.b.in"]⟩,
    ⟨"data-race", .error, "T.b", "", []⟩, ⟨"sync-cycle", .error, "T.c", "  [INFO] x", [""]⟩],
    [⟨"stack-depth", "needs C++ call-flow analysis"⟩]⟩

/-- What is read off their report. -/
def readThree : Reading :=
  readReport (formatReport ⟨3, 1, 1, false, 2⟩ threeFindings.findings
    (threeFindings.skipped.map SkipNote.str))

theorem report_text_exact_two :
    readThree.findings.Perm threeFindings.findings ∧ readThree.findings.Pairwise reportLe
      ∧ readThree.skipped = ["stack-depth: needs C++ call-flow analysis"]
      ∧ failingCount (some .error) readThree.findings = 2 := by
  have hread := report_text_exact ⟨3, 1, 1, false, 2⟩ threeFindings (some .error)
    (by
      simp only [threeFindings, List.forall_mem_cons]
      exact ⟨⟨by decide, by decide, by decide, by decide⟩, ⟨by decide, by decide, by decide, by decide⟩,
        ⟨by decide, by decide, by decide, by decide⟩, by simp⟩)
    (by decide)
  have hskipped : threeFindings.skipped.map SkipNote.str
      = ["stack-depth: needs C++ call-flow analysis"] := by decide
  have hcount : failingCount (some .error) threeFindings.findings = 2 := by decide
  rw [hskipped, hcount] at hread
  rw [readThree, hskipped]
  exact hread

end TopologyChecks

end FprimeTopologyAnalysis
