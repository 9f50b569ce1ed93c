/-
FprimeTopologyAnalysis.CheckExit — how a run of the checks ends (`main` of
`topology_checks.py`).

`main` hands an `UnresolvedFlowError` to `report_unresolved`, which refuses
with exit code 1. The error would have to leave `run_checks` for that, and
the `try` around each check takes it first (`checkRounds_eq`): a check that
meets a handler the strict map does not resolve is noted as skipped, and the exit
code counts the findings of the others (`unresolved_never_refused`).
-/
import FprimeTopologyAnalysis.OriginFailure

namespace FprimeTopologyAnalysis

open Library

/-- `rank`. -/
def Severity.rank : Severity → Nat
  | .info => 0
  | .warning => 1
  | .error => 2

/-! ## `run_checks` with its exceptions -/

/-- `try: m; except Exception as e: handler(e)`. -/
def OriginM.catching {α : Type} (m : OriginM α) (handler : UnresolvedFlowError → OriginM α) :
    OriginM α := fun s =>
  match m s with
  | (.error e, s') => handler e s'
  | (.ok a, s') => (.ok a, s')

/-- The note about a check that raised. -/
def failedNote (check : Check) (e : UnresolvedFlowError) : SkipNote :=
  ⟨check.id, "failed with UnresolvedFlowError: " ++ e.str⟩

/-- The loop body of `run_checks`, as a method that may raise. -/
def checkRound (g : TopologyGraph) (check : Check) : OriginM CheckReport :=
  if check.requiresFlow ∧ g.flow.isEmpty ∧ g.flow.strict then
    pure ⟨[], [⟨check.id, "needs C++ call-flow analysis " ++
      "(or --permissive to accept the over-approximation)"⟩]⟩
  else
    OriginM.catching
      (do
        let findings ← check.run g
        pure ⟨findings, []⟩)
      fun e => pure ⟨[], [failedNote check e]⟩

/-- `run_checks`, as a method that may raise. -/
def checkRounds (g : TopologyGraph) (selected : Finset String) : List Check → OriginM CheckReport
  | [] => pure ⟨[], []⟩
  | check :: checks =>
    if selects selected check then do
      let head ← checkRound g check
      let rest ← checkRounds g selected checks
      pure ⟨head.findings ++ rest.findings, head.skipped ++ rest.skipped⟩
    else checkRounds g selected checks

/-! ## `main` -/

/-- How the process ends: its exit code, what `main` logs as errors, and
the report it writes. -/
structure Ending where
  code : Nat
  log : List String
  report : Option CheckReport
  deriving DecidableEq

/-- `report_unresolved`. -/
def reportUnresolved (e : UnresolvedFlowError) : Ending where
  code := 1
  log := ["Could not resolve intra-component call flow for " ++ e.str,
    "Refusing to guess. Fix the C++ analysis, or pass --permissive to assume unresolved " ++
      "handlers call every output port."]
  report := none

/-- The exit code of a finished run; `failOn` is `none` for `never`. -/
def failingCount (failOn : Option Severity) (findings : List CheckFinding) : Nat :=
  match failOn with
  | none => 0
  | some threshold => (findings.filter fun f => threshold.rank ≤ f.severity.rank).length

/-- `main`, once the graph is loaded. -/
def TopologyChecks.main (g : TopologyGraph) (checks : List Check) (selected : Finset String)
    (failOn : Option Severity) : Ending :=
  let unknown := selected.filter fun id => id ∉ checks.map Check.id
  if unknown ≠ ∅ then
    ⟨1, ["Unknown check(s): " ++ ", ".intercalate (sortNames unknown)], none⟩
  else
    match (checkRounds g selected checks .fresh).1 with
    | .error e => reportUnresolved e
    | .ok report => ⟨failingCount failOn report.findings, [], some report⟩

/-! ## Where the error goes -/

section Ends

variable {g : TopologyGraph}

theorem checkRound_eq (check : Check) (s : OriginState) :
    checkRound g check s = (.ok (runCheck g check s).1, (runCheck g check s).2) := by
  unfold checkRound runCheck
  split
  · rfl
  · unfold OriginM.catching
    rw [OriginM.bind_apply]
    cases check.run g s with
    | mk r s' => cases r <;> rfl

/-- **`run_checks` never raises**: what a check raises stays in the report. -/
theorem checkRounds_eq (selected : Finset String) : ∀ (checks : List Check) (s : OriginState),
    checkRounds g selected checks s
      = (.ok (runChecks g selected checks s).1, (runChecks g selected checks s).2)
  | [], _ => rfl
  | check :: checks, s => by
      rw [checkRounds, runChecks]
      split
      · rw [OriginM.bind_apply, checkRound_eq]
        dsimp only
        rw [OriginM.bind_apply, checkRounds_eq selected checks]
        rfl
      · exact checkRounds_eq selected checks s

/-- When its turn comes in the run, the selected check `c` raises `e`. -/
def RaisesIn (g : TopologyGraph) (checks : List Check) (selected : Finset String) (c : Check)
    (e : UnresolvedFlowError) : Prop :=
  ∃ earlier later, checks = earlier ++ c :: later ∧ selects selected c
    ∧ (c.run g (runChecks g selected earlier .fresh).2).1 = .error e

/-- The rounds before one decide the state it runs on. -/
theorem runChecks_append (selected : Finset String) (later : List Check) :
    ∀ (earlier : List Check) (s : OriginState),
      runChecks g selected (earlier ++ later) s
        = (⟨(runChecks g selected earlier s).1.findings
              ++ (runChecks g selected later (runChecks g selected earlier s).2).1.findings,
            (runChecks g selected earlier s).1.skipped
              ++ (runChecks g selected later (runChecks g selected earlier s).2).1.skipped⟩,
          (runChecks g selected later (runChecks g selected earlier s).2).2)
  | [], _ => rfl
  | check :: earlier, s => by
      rw [List.cons_append, runChecks, runChecks]
      split
      · dsimp only
        rw [runChecks_append selected later earlier]
        simp [List.append_assoc]
      · exact runChecks_append selected later earlier s

/-- A check that raises is noted. -/
theorem RaisesIn.skipped {checks : List Check} {selected : Finset String} {c : Check}
    {e : UnresolvedFlowError} (h : RaisesIn g checks selected c e)
    (hflow : g.flow.isEmpty = false) :
    failedNote c e ∈ (runChecks g selected checks .fresh).1.skipped := by
  obtain ⟨earlier, later, rfl, hsel, herr⟩ := h
  rw [runChecks_append, runChecks, if_pos hsel]
  refine List.mem_append_right _ (List.mem_append_left _ ?_)
  unfold runCheck
  rw [if_neg (by simp [hflow])]
  cases hrun : c.run g (runChecks g selected earlier .fresh).2 with
  | mk r s' =>
    rw [hrun] at herr
    obtain rfl : r = .error e := herr
    exact List.mem_singleton_self _

/-- **An unresolved handler never refuses a run of the checks.** Where a
selected check raises on one, the process does not end in
`report_unresolved`: it writes its report with the check noted as skipped,
and exits with the count of what the checks that ran have found. -/
theorem unresolved_never_refused (g : TopologyGraph) (hflow : g.flow.isEmpty = false)
    (checks : List Check) (selected : Finset String)
    (hknown : ∀ id ∈ selected, id ∈ checks.map Check.id) (failOn : Option Severity) (c : Check)
    (e : UnresolvedFlowError) (hraises : RaisesIn g checks selected c e) :
    (∀ e', TopologyChecks.main g checks selected failOn ≠ reportUnresolved e')
      ∧ ∃ report, TopologyChecks.main g checks selected failOn
          = ⟨failingCount failOn report.findings, [], some report⟩
        ∧ failedNote c e ∈ report.skipped := by
  have hunknown : selected.filter (fun id => id ∉ checks.map Check.id) = ∅ :=
    Finset.filter_eq_empty_iff.mpr fun id hid => not_not.mpr (hknown id hid)
  have hmain : TopologyChecks.main g checks selected failOn
      = ⟨failingCount failOn (runChecks g selected checks .fresh).1.findings, [],
          some (runChecks g selected checks .fresh).1⟩ := by
    unfold TopologyChecks.main
    simp only [hunknown, ne_eq, not_true_eq_false, if_false, checkRounds_eq]
  refine ⟨fun e' h => ?_, _, hmain, hraises.skipped hflow⟩
  rw [hmain] at h
  cases congrArg Ending.report h

end Ends

/-- What the flow map says about the handler `a` runs on its queue. -/
def halfError : UnresolvedFlowError :=
  ⟨"A", "go", "component absent from the flow map; its source may not be in compile_commands.json"⟩

/-- Asked for the data races of a graph with an unresolved handler, under a
strict map, the process exits 0 and notes the check as skipped. -/
theorem main_exits_zero_half :
    halfTopology.flow.strict = true ∧ halfTopology.flow.isEmpty = false
      ∧ (dataRace.run halfTopology .fresh).1 = .error halfError
      ∧ TopologyChecks.main halfTopology [unconnectedPortInvoked, dataRace] {"data-race"} (some .error)
        = ⟨0, [], some ⟨[], [failedNote dataRace halfError]⟩⟩ := by
  decide

theorem unresolved_never_refused_half :
    TopologyChecks.main halfTopology [unconnectedPortInvoked, dataRace] {"data-race"} (some .error)
      ≠ reportUnresolved halfError :=
  (unresolved_never_refused halfTopology (by decide) [unconnectedPortInvoked, dataRace]
    {"data-race"} (by decide) (some .error) dataRace halfError
    ⟨[unconnectedPortInvoked], [], rfl, by decide, by decide⟩).1 halfError

end FprimeTopologyAnalysis
