/-
FprimeTopologyAnalysis.Artifacts — which generated model a command reads
(`_available_artifacts` of `cli.py`).

The build leaves a model of each deployment somewhere under the project: a
directory with all model files, at a path that ends as the topology's own
does (`IsModel`). With it come the compile commands of the build tree it is
in, the nearest directory above it that looks like one (`compileCommandsFor_eq_some_iff`).
One with compile commands is taken before one without, and then the one
written last (`available_exact`).
-/
import FprimeTopologyAnalysis.Deployment

namespace FprimeTopologyAnalysis

open Library

namespace Cli

/-- `AnalysisArtifacts`. -/
structure AnalysisArtifacts where
  projectRoot : SourcePath
  deploymentDir : SourcePath
  topologyName : String
  topologyPath : SourcePath
  compileCommands : Option SourcePath
  deriving DecidableEq

/-! ## Looking for models -/

/-- `MODEL_FILES`. -/
def modelFiles : List String := ["fpp-ast.json", "fpp-loc-map.json", "fpp-analysis.json"]

/-- `COMPILE_COMMANDS`. -/
def compileCommandsName : String := "compile_commands.json"

section Search

variable (files : Files)

/-- `_is_model_dir`. -/
def isModelDir (path : SourcePath) : Bool :=
  files.isDir path && modelFiles.all fun name => files.isFile (path ++ [name])

/-- `_path_has_suffix`. -/
def pathHasSuffix (path suffix : SourcePath) : Bool :=
  suffix = [] ||
    (decide (suffix.length ≤ path.length) && path.drop (path.length - suffix.length) = suffix)

/-- It looks like the top of a build tree. -/
def isBuildRoot (path : SourcePath) : Bool :=
  files.isFile (path ++ ["CMakeCache.txt"]) || files.isFile (path ++ [compileCommandsName])

/-- The loop of `_build_root_for`. -/
def firstBuildRoot (projectRoot : SourcePath) : List SourcePath → Option SourcePath
  | [] => none
  | candidate :: rest =>
    if isBuildRoot files candidate then some candidate
    else if candidate = projectRoot then none
    else firstBuildRoot projectRoot rest

/-- `_build_root_for`. -/
def buildRootFor (model projectRoot : SourcePath) : Option SourcePath :=
  firstBuildRoot files projectRoot (model :: model.parents)

/-- The compile commands beside a model. -/
def compileCommandsFor (model projectRoot : SourcePath) : Option SourcePath :=
  match buildRootFor files model projectRoot with
  | none => none
  | some root =>
    if files.isFile (root ++ [compileCommandsName]) then some (root ++ [compileCommandsName])
    else none

/-- `relative_top`. -/
def relativeTop (source : DeploymentSource) : SourcePath :=
  let top := source.topologyFile.dropLast
  if source.projectRoot <+: top then top.drop source.projectRoot.length
  else top.getLast?.toList

/-- When the last of a model's files was written. -/
def modelTime (model : SourcePath) : Nat :=
  (modelFiles.map fun name => files.mtime (model ++ [name])).foldl max 0

/-- A candidate is at least as good: it has compile commands and the other
has none, or it is as new. -/
def candidateGe (a b : SourcePath × Option SourcePath) : Prop :=
  b.2.isSome < a.2.isSome ∨ a.2.isSome = b.2.isSome ∧ modelTime files b.1 ≤ modelTime files a.1

instance : DecidableRel (candidateGe files) := fun _ _ => inferInstanceAs (Decidable (_ ∨ _ ∧ _))

/-- `_model_candidates`. -/
def modelCandidates (source : DeploymentSource) : List (SourcePath × Option SourcePath) :=
  ((((files.rglob source.projectRoot "fpp-analysis.json").map List.dropLast).filter fun model =>
    isModelDir files model && pathHasSuffix model (relativeTop source)).map fun model =>
      (model, compileCommandsFor files model source.projectRoot)).insertionSort (candidateGe files)

/-- `_available_artifacts`. -/
def availableArtifacts (source : DeploymentSource) : Option AnalysisArtifacts :=
  match modelCandidates files source with
  | [] => none
  | (model, compileCommands) :: _ =>
    some ⟨source.projectRoot, source.deploymentDir, source.topologyName, model, compileCommands⟩

end Search

/-! ## Build trees -/

section Choice

variable {files : Files} {source : DeploymentSource} {model projectRoot : SourcePath}

theorem pathHasSuffix_iff {path suffix : SourcePath} :
    pathHasSuffix path suffix = true ↔ suffix <:+ path := by
  simp only [pathHasSuffix, Bool.or_eq_true, Bool.and_eq_true, decide_eq_true_eq]
  constructor
  · rintro (rfl | ⟨_, heq⟩)
    · exact List.nil_suffix
    · rw [← heq]
      exact List.drop_suffix _ _
  · intro h
    exact .inr ⟨h.length_le, List.suffix_iff_eq_drop.mp h ▸ rfl⟩

theorem parents_concat (dirs : SourcePath) (name : String) :
    SourcePath.parents (dirs ++ [name]) = dirs :: dirs.parents := by
  rcases List.eq_nil_or_concat dirs with rfl | ⟨above, last, rfl⟩ <;>
    simp [SourcePath.parents, List.inits_append]

/-- The nearest directory above the model, or the model's own, that looks like
the top of a build tree; the project's is not passed. -/
structure NearestRoot (files : Files) (projectRoot model root : SourcePath) : Prop where
  above : root <+: model
  isRoot : isBuildRoot files root = true
  nearest : ∀ path, root <+: path → path <+: model → path ≠ root →
    isBuildRoot files path = false ∧ path ≠ projectRoot

/-- Where the search goes on above a directory, it is as from there. -/
theorem nearestRoot_concat_iff {dirs root : SourcePath} {name : String}
    (hroot : ¬ isBuildRoot files (dirs ++ [name]) = true)
    (hproject : dirs ++ [name] ≠ projectRoot) :
    NearestRoot files projectRoot (dirs ++ [name]) root
      ↔ NearestRoot files projectRoot dirs root := by
  constructor
  · intro h
    refine ⟨?_, h.isRoot, fun path hpath habove => h.nearest path hpath (habove.trans (by simp))⟩
    rcases List.prefix_concat_iff.mp h.above with rfl | habove
    · exact absurd h.isRoot hroot
    · exact habove
  · intro h
    refine ⟨h.above.trans (by simp), h.isRoot, fun path hpath habove hne => ?_⟩
    rcases List.prefix_concat_iff.mp habove with rfl | habove
    · exact ⟨by simpa using hroot, hproject⟩
    · exact h.nearest path hpath habove hne

/-- A directory that looks like the top of a build tree is the nearest. -/
theorem nearestRoot_of_isBuildRoot {root : SourcePath} (hmodel : isBuildRoot files model = true) :
    some model = some root ↔ NearestRoot files projectRoot model root := by
  constructor
  · rintro ⟨⟩
    exact ⟨List.prefix_refl _, hmodel, fun path hroot hpath hne =>
      absurd (hpath.eq_of_length_le hroot.length_le) hne⟩
  · intro h
    by_contra hne
    have hbelow := (h.nearest model h.above (List.prefix_refl _) fun heq => hne (heq ▸ rfl)).1
    exact absurd (hmodel.symm.trans hbelow) (by decide)

theorem buildRootFor_eq_some_iff (model : SourcePath) {root : SourcePath} :
    buildRootFor files model projectRoot = some root
      ↔ NearestRoot files projectRoot model root := by
  rw [buildRootFor]
  induction model using List.reverseRecOn with
  | nil =>
    rw [firstBuildRoot]
    by_cases hmodel : isBuildRoot files [] = true
    · rw [if_pos hmodel]
      exact nearestRoot_of_isBuildRoot hmodel
    · rw [if_neg hmodel]
      have hnone : ¬ NearestRoot files projectRoot [] root := fun h =>
        hmodel (List.prefix_nil.mp h.above ▸ h.isRoot)
      simp [SourcePath.parents, firstBuildRoot, hnone]
  | append_singleton dirs name ih =>
    rw [parents_concat, firstBuildRoot]
    by_cases hmodel : isBuildRoot files (dirs ++ [name]) = true
    · rw [if_pos hmodel]
      exact nearestRoot_of_isBuildRoot hmodel
    · rw [if_neg hmodel]
      by_cases hproject : dirs ++ [name] = projectRoot
      · rw [if_pos hproject]
        have hnone : ¬ NearestRoot files projectRoot (dirs ++ [name]) root := by
          intro h
          by_cases heq : dirs ++ [name] = root
          · exact hmodel (heq ▸ h.isRoot)
          · exact (h.nearest _ h.above (List.prefix_refl _) heq).2 hproject
        simp [hnone]
      · rw [if_neg hproject, ih, nearestRoot_concat_iff hmodel hproject]

/-- The compile commands are those of the nearest build tree. -/
theorem compileCommandsFor_eq_some_iff {commands : SourcePath} :
    compileCommandsFor files model projectRoot = some commands
      ↔ ∃ root, NearestRoot files projectRoot model root
        ∧ commands = root ++ [compileCommandsName] ∧ files.isFile commands = true := by
  simp only [← buildRootFor_eq_some_iff, compileCommandsFor]
  cases buildRootFor files model projectRoot with
  | none => simp
  | some root =>
    dsimp only
    by_cases hfile : files.isFile (root ++ [compileCommandsName]) = true
    · rw [if_pos hfile]
      constructor
      · rintro ⟨⟩
        exact ⟨root, rfl, rfl, hfile⟩
      · rintro ⟨_, ⟨⟩, rfl, _⟩
        rfl
    · rw [if_neg hfile]
      constructor
      · exact fun h => nomatch h
      · rintro ⟨_, ⟨⟩, rfl, hcommands⟩
        exact absurd hcommands hfile

/-! ## Models -/

/-- A directory is a model of the deployment: it is found under the project,
has all model files, and its path ends as the topology's does. -/
structure IsModel (files : Files) (source : DeploymentSource) (model : SourcePath) : Prop where
  listed : ∃ analysis ∈ files.rglob source.projectRoot "fpp-analysis.json",
    analysis.dropLast = model
  isDir : files.isDir model = true
  complete : ∀ name ∈ modelFiles, files.isFile (model ++ [name]) = true
  ends : relativeTop source <:+ model

theorem mem_modelCandidates {candidate : SourcePath × Option SourcePath} :
    candidate ∈ modelCandidates files source
      ↔ IsModel files source candidate.1
        ∧ candidate.2 = compileCommandsFor files candidate.1 source.projectRoot := by
  have hmodel : ∀ model : SourcePath,
      model ∈ ((files.rglob source.projectRoot "fpp-analysis.json").map List.dropLast).filter
        (fun model => isModelDir files model && pathHasSuffix model (relativeTop source))
      ↔ IsModel files source model := by
    intro model
    simp only [List.mem_filter, List.mem_map, isModelDir, Bool.and_eq_true, List.all_eq_true,
      pathHasSuffix_iff]
    exact ⟨fun h => ⟨h.1, h.2.1.1, h.2.1.2, h.2.2⟩,
      fun h => ⟨h.listed, ⟨h.isDir, h.complete⟩, h.ends⟩⟩
  rw [modelCandidates, List.mem_insertionSort, List.mem_map]
  simp only [hmodel]
  exact ⟨fun ⟨_, hmodel, heq⟩ => heq ▸ ⟨hmodel, rfl⟩, fun h => ⟨_, h.1, Prod.ext rfl h.2.symm⟩⟩

instance : Std.Total (candidateGe files) where
  total a b := by
    unfold candidateGe
    cases a.2.isSome <;> cases b.2.isSome <;> simp [Nat.le_total]

instance : IsTrans _ (candidateGe files) where
  trans a b c := by
    unfold candidateGe
    cases a.2.isSome <;> cases b.2.isSome <;> cases c.2.isSome <;> simp <;> omega

/-- **The model a command reads**: one of those of the deployment, with the
compile commands of the nearest build tree around it; no other is better.
There is none only where no directory is a model. -/
theorem available_exact (files : Files) (source : DeploymentSource) :
    (∀ artifacts, availableArtifacts files source = some artifacts →
      IsModel files source artifacts.topologyPath
        ∧ (∀ commands, artifacts.compileCommands = some commands
          ↔ ∃ root, NearestRoot files source.projectRoot artifacts.topologyPath root
            ∧ commands = root ++ [compileCommandsName] ∧ files.isFile commands = true)
        ∧ artifacts.projectRoot = source.projectRoot
        ∧ artifacts.deploymentDir = source.deploymentDir
        ∧ artifacts.topologyName = source.topologyName
        ∧ ∀ model, IsModel files source model →
          candidateGe files (artifacts.topologyPath, artifacts.compileCommands)
            (model, compileCommandsFor files model source.projectRoot))
      ∧ (availableArtifacts files source = none ↔ ∀ model, ¬ IsModel files source model) := by
  have hsorted : (modelCandidates files source).Pairwise (candidateGe files) :=
    List.pairwise_insertionSort _ _
  have hmem := fun candidate => @mem_modelCandidates files source candidate
  unfold availableArtifacts
  cases hall : modelCandidates files source with
  | nil =>
    simp only [hall, List.not_mem_nil, false_iff] at hmem
    have hnone : ∀ model, ¬ IsModel files source model := fun model hmodel =>
      hmem (model, compileCommandsFor files model source.projectRoot) ⟨hmodel, rfl⟩
    simp [hnone]
  | cons best rest =>
    rw [hall] at hsorted hmem
    obtain ⟨hmodel, hcommands⟩ := (hmem best).mp (List.mem_cons_self ..)
    constructor
    · rintro artifacts ⟨⟩
      refine ⟨hmodel, fun commands => ?_, rfl, rfl, rfl, fun model hother => ?_⟩
      · show best.2 = some commands ↔ _
        rw [hcommands, compileCommandsFor_eq_some_iff]
      · have hin := (hmem (model, compileCommandsFor files model source.projectRoot)).mpr
          ⟨hother, rfl⟩
        rcases List.mem_cons.mp hin with heq | hin
        · rw [heq]
          exact (Std.Total.total best best).elim id id
        · exact List.rel_of_pairwise_cons hsorted hin
    · simp only [reduceCtorEq, false_iff, not_forall, not_not]
      exact ⟨best.1, hmodel⟩

end Choice

end Cli

end FprimeTopologyAnalysis
