/-
FprimeTopologyAnalysis.ExitStatus — what a run of the guarded port analyzer
or of the checks tells its parent process (`main` of
`guarded_port_analyzer.py` and of `topology_checks.py`).

Both return the number of failing findings, and `sys.exit` hands it to the
parent, which sees the low eight bits of it. A run with failing findings
is then told from a clean one unless their number is a multiple of 256
(`tells_iff`).
-/
import FprimeTopologyAnalysis.AnalyzerRun
import FprimeTopologyAnalysis.CheckExit

namespace FprimeTopologyAnalysis

open Library

/-! ## `main` of the analyzer -/

/-- `str(severity)`. -/
def Severity.str : Severity → String
  | .info => "info"
  | .warning => "warning"
  | .error => "error"

namespace GuardedPortAnalyzer

/-- How the process ends: its exit code, what `main` logs as errors, and
the findings it writes. -/
structure Ending where
  code : Nat
  log : List String
  findings : Option (List Finding)
  deriving DecidableEq

/-- `failing`. -/
def failing (threshold : Severity) (findings : List Finding) : List Finding :=
  findings.filter fun f => threshold.rank ≤ f.severity.rank

/-- The end of `main`, from the findings on; `failOn` is `none` for `never`. -/
def finish (failOn : Option Severity) (findings : List Finding) : Ending :=
  match failOn with
  | none => ⟨0, [], some findings⟩
  | some threshold =>
    let failing := failing threshold findings
    ⟨failing.length,
      if failing = [] then []
      else [toString failing.length ++ " finding(s) at or above severity '" ++ threshold.str ++ "'"],
      some findings⟩

/-- `main`, once the suppressions and the graph are loaded. -/
def main (g : TopologyGraph) (cfg : AnalyzerSettings) (failOn : Option Severity) : Ending :=
  match run g cfg with
  | (.error e, _) => ⟨(reportUnresolved e).code, (reportUnresolved e).log, none⟩
  | (.ok (), s) => finish failOn s.analyzer.findings

end GuardedPortAnalyzer

/-! ## The status of the process -/

/-- What the parent sees of `sys.exit(code)`. -/
def exitStatus (code : Nat) : Nat := code % 256

/-- The status tells whether some of the findings fail, by `severity`. -/
def Tells {α : Type} (severity : α → Severity) (threshold : Severity) (findings : List α)
    (status : Nat) : Prop :=
  status ≠ 0 ↔ ∃ f ∈ findings, threshold.rank ≤ (severity f).rank

/-- How many of the findings are at or above the threshold. -/
def failures {α : Type} (severity : α → Severity) (threshold : Severity) (findings : List α) :
    Nat :=
  findings.countP fun f => threshold.rank ≤ (severity f).rank

/-- Some findings fail, and as many as an eight-bit status does not show. -/
def Wraps {α : Type} (severity : α → Severity) (threshold : Severity) (findings : List α) : Prop :=
  failures severity threshold findings ≠ 0 ∧ 256 ∣ failures severity threshold findings

section Tells

variable {α : Type} {severity : α → Severity} {threshold : Severity} {findings : List α}

theorem failures_pos_iff :
    0 < failures severity threshold findings
      ↔ ∃ f ∈ findings, threshold.rank ≤ (severity f).rank := by
  simp [failures, List.countP_pos_iff]

/-- The number of failures, as a status, tells the truth unless it wraps. -/
theorem tells_failures_iff :
    Tells severity threshold findings (exitStatus (failures severity threshold findings))
      ↔ ¬ Wraps severity threshold findings := by
  rw [Tells, Wraps, ← failures_pos_iff, exitStatus]
  omega

end Tells

theorem GuardedPortAnalyzer.finish_code (threshold : Severity) (findings : List Finding) :
    (finish (some threshold) findings).code = failures Finding.severity threshold findings :=
  List.countP_eq_length_filter.symm

theorem failingCount_eq (threshold : Severity) (findings : List CheckFinding) :
    failingCount (some threshold) findings = failures CheckFinding.severity threshold findings :=
  List.countP_eq_length_filter.symm

/-- A run of the analyzer that writes findings exits with the code for them. -/
theorem GuardedPortAnalyzer.main_findings {g : TopologyGraph} {cfg : AnalyzerSettings}
    {failOn : Option Severity} {findings : List Finding}
    (h : (main g cfg failOn).findings = some findings) :
    (main g cfg failOn).code = (finish failOn findings).code := by
  have hwritten : ∀ all, (finish failOn all).findings = some all := by
    intro all
    cases failOn <;> rfl
  unfold main at h ⊢
  split at h
  · cases h
  · obtain rfl := Option.some.inj ((hwritten _).symm.trans h)
    rfl

/-- A run of the checks that writes a report exits with the code for it. -/
theorem TopologyChecks.main_report {g : TopologyGraph} {checks : List Check}
    {selected : Finset String} {failOn : Option Severity} {report : CheckReport}
    (h : (main g checks selected failOn).report = some report) :
    (main g checks selected failOn).code = failingCount failOn report.findings := by
  unfold main at h ⊢
  dsimp only at h ⊢
  by_cases hunknown : selected.filter (fun id => id ∉ checks.map Check.id) ≠ ∅
  · rw [if_pos hunknown] at h
    cases h
  · rw [if_neg hunknown] at h ⊢
    cases hrounds : (checkRounds g selected checks .fresh).1 with
    | error e =>
      rw [hrounds] at h
      cases h
    | ok all =>
      rw [hrounds] at h
      obtain rfl := Option.some.inj h
      rfl

/-- **When the exit status tells the truth**: unless the number of findings
at or above the threshold is a multiple of 256 other than zero. So it is for
either process, whatever the findings, and in every run that writes them. -/
theorem tells_iff (threshold : Severity) :
    (∀ findings, Tells Finding.severity threshold findings
          (exitStatus (GuardedPortAnalyzer.finish (some threshold) findings).code)
        ↔ ¬ Wraps Finding.severity threshold findings)
      ∧ (∀ findings, Tells CheckFinding.severity threshold findings
          (exitStatus (failingCount (some threshold) findings))
        ↔ ¬ Wraps CheckFinding.severity threshold findings)
      ∧ (∀ g cfg findings,
        (GuardedPortAnalyzer.main g cfg (some threshold)).findings = some findings →
          (Tells Finding.severity threshold findings
              (exitStatus (GuardedPortAnalyzer.main g cfg (some threshold)).code)
            ↔ ¬ Wraps Finding.severity threshold findings))
      ∧ (∀ g checks selected report,
        (TopologyChecks.main g checks selected (some threshold)).report = some report →
          (Tells CheckFinding.severity threshold report.findings
              (exitStatus (TopologyChecks.main g checks selected (some threshold)).code)
            ↔ ¬ Wraps CheckFinding.severity threshold report.findings)) := by
  refine ⟨fun findings => ?_, fun findings => ?_, fun g cfg findings h => ?_,
    fun g checks selected report h => ?_⟩
  · rw [GuardedPortAnalyzer.finish_code]
    exact tells_failures_iff
  · rw [failingCount_eq]
    exact tells_failures_iff
  · rw [GuardedPortAnalyzer.main_findings h, GuardedPortAnalyzer.finish_code]
    exact tells_failures_iff
  · rw [TopologyChecks.main_report h, failingCount_eq]
    exact tells_failures_iff

/-- A self deadlock of the instance `name`. -/
def deadlocked (name : String) : Finding :=
  selfDeadlockFinding ⟨name, .gIn⟩ ⟨name, .gIn⟩ [name] [] ∅

/-- A buffer that `name` returns to another pool. -/
def crossed (name : String) : CheckFinding := ⟨"buffer-ownership", .error, name, "", []⟩

/-- The names of 256 instances. -/
def manyNames : List String := (List.range 256).map fun n => "a" ++ toString n

/-- 256 instances that deadlock, or return buffers to another pool: the
process exits as if there were none. -/
theorem exits_zero_many :
    exitStatus (GuardedPortAnalyzer.finish (some .error) (manyNames.map deadlocked)).code = 0
      ∧ exitStatus (failingCount (some .error) (manyNames.map crossed)) = 0
      ∧ ¬ Tells Finding.severity .error (manyNames.map deadlocked)
        (exitStatus (GuardedPortAnalyzer.finish (some .error) (manyNames.map deadlocked)).code)
      ∧ ¬ Tells CheckFinding.severity .error (manyNames.map crossed)
        (exitStatus (failingCount (some .error) (manyNames.map crossed))) := by
  have hlength : manyNames.length = 256 := by simp [manyNames]
  have hf : failures Finding.severity .error (manyNames.map deadlocked) = 256 := by
    rw [failures, List.countP_eq_length.mpr (by simp [deadlocked, selfDeadlockFinding]),
      List.length_map, hlength]
  have hc : failures CheckFinding.severity .error (manyNames.map crossed) = 256 := by
    rw [failures, List.countP_eq_length.mpr (by simp [crossed]), List.length_map, hlength]
  rw [GuardedPortAnalyzer.finish_code, failingCount_eq, tells_failures_iff, tells_failures_iff,
    Wraps, Wraps, hf, hc]
  decide

/-- One of them is told. -/
theorem tells_iff_one :
    Tells Finding.severity .error [deadlocked "a"]
        (exitStatus (GuardedPortAnalyzer.finish (some .error) [deadlocked "a"]).code)
      ∧ Tells CheckFinding.severity .error []
        (exitStatus (TopologyChecks.main halfTopology [] ∅ (some .error)).code) :=
  ⟨((tells_iff .error).1 _).mpr (by simp [Wraps, failures, deadlocked, selfDeadlockFinding]),
    ((tells_iff .error).2.2.2 halfTopology [] ∅ ⟨[], []⟩ rfl).mpr (by simp [Wraps, failures])⟩

end FprimeTopologyAnalysis
