/-
FprimeTopologyAnalysis.Preparation — how a command gets what it analyses
(`resolve_analysis_artifacts`, `load_flow` and `load_graph` of `cli.py`).

The generated model is brought up to date by running programs: `fprime-util
info`, one that configures the build where that has to be done, and
`fprime-util build`. Whether it has to be done is read off the build cache
that `fprime-util info` names. Each has to end well before the next one is
run, and they are all run where the deployment is (`prepareAnalysis_does`). The
flow and the graph are asked for one after the other, and the second of them
finds what the first one prepared (`inputs_exact`). Over requests in any
order there are at most two preparations that end well, and none once the
compile commands are there (`session_exact`).

A program is a function of the file system here. The logger is left out.
-/
import FprimeTopologyAnalysis.Artifacts
import FprimeTopologyAnalysis.ModelLoad
import FprimeTopologyAnalysis.Library.Steps

namespace FprimeTopologyAnalysis

open Library Library.Regex

namespace Cli

/-! ## Programs -/

/-- A program with its arguments, where it is run, and in which environment. -/
structure Command where
  parts : List String
  cwd : SourcePath
  environment : Dict String String

/-- `CompletedProcess`. -/
structure CompletedProcess where
  returncode : Int
  stdout : String
  stderr : String
  deriving DecidableEq

/-- What is around a command: its environment, how a path that is written out
is read, and what programs do. A program that cannot be started gives the
text of the error. `extract` is the analysis of the C++ sources, whose caches
and units `FlowCache` and `FlowPipeline` model over files of their own, and
`translate` what a model's files say, if they can be read. -/
structure Host where
  environ : Dict String String
  expanduser : String → String
  resolve : Files → String → SourcePath
  run : Command → Files → Except String CompletedProcess × Files
  extract : SourcePath → Files → Except String (Dict String ComponentRecord) × Files
  translate : Files → SourcePath → Option (List NamedTopology)

/-- A program that was run. -/
structure Ran where
  command : Command
  outcome : Except String CompletedProcess

/-- It ended well. -/
def Ran.succeeded (ran : Ran) : Bool :=
  match ran.outcome with
  | .error _ => false
  | .ok result => result.returncode = 0

/-- The state of a command: the file system, what was run, and
`args.analysis_artifacts`. -/
structure Session where
  files : Files
  ran : List Ran
  artifacts : Option AnalysisArtifacts

/-- A step of a command. -/
abbrev SessionStep (α : Type) : Type := Step Session CliError α

/-! ## Patterns -/

section Patterns

variable (classes : CharClasses)

/-- `^`, at the start of any line. -/
def lineStart : Pat := .look fun before _ => before.all (· = '\n')

/-- `$`, at the end of any line. -/
def lineEnd : Pat := .look fun _ after => after.all (· = '\n')

/-- `.`, which is no line break. -/
def dotPattern : Pat := .set (· ≠ '\n')

/-- `RELEASE_BUILD_CACHE_RE`. -/
def releaseBuildCachePattern : Pat :=
  .cat [lineStart, blanksPattern classes, .lit "Release build cache:", blanksPattern classes,
    .group "path" (.seq dotPattern (.star false dotPattern)), blanksPattern classes, lineEnd]

/-- The line of a cache that has the source directory. -/
def cmakeHomePattern : Pat :=
  .cat [lineStart, .lit "CMAKE_HOME_DIRECTORY:INTERNAL=", .group "1" (.plus dotPattern), lineEnd]

/-- The options that both have to be on. -/
def analysisOptions : List String :=
  ["FPRIME_ENABLE_JSON_MODEL_GENERATION", "CMAKE_EXPORT_COMPILE_COMMANDS"]

/-- The line of a cache that has one of them. -/
def optionPattern : Pat :=
  .cat [lineStart,
    .group "1" (.alt (.lit "FPRIME_ENABLE_JSON_MODEL_GENERATION")
      (.lit "CMAKE_EXPORT_COMPILE_COMMANDS")),
    .lit ":", .plus (.set (· ≠ '=')), .lit "=",
    .group "2" (.plus (.set fun c => !classes.isSpace c)), blanksPattern classes, lineEnd]

end Patterns

/-! ## Preparing -/

section Prepare

variable (host : Host) (classes : CharClasses) (source : DeploymentSource)

/-- The executables of a virtual environment. -/
def venvExecutables (venv : SourcePath) : List SourcePath :=
  [venv ++ ["bin", "fprime-util"], venv ++ ["Scripts", "fprime-util.exe"],
    venv ++ ["Scripts", "fprime-util"]]

/-- `_project_venv`. -/
def projectVenv (files : Files) : Except CliError (SourcePath × SourcePath) :=
  let venvs := (source.deploymentDir :: source.deploymentDir.parents).map fun root =>
    root ++ [".venv"]
  let found := venvs.findSome? fun venv =>
    ((venvExecutables venv).find? files.isFile).map fun executable => (venv, executable)
  match found with
  | some found => .ok found
  | none => .error ⟨"The F Prime virtual environment was not found near "
      ++ source.deploymentDir.str ++ ". Create .venv in the deployment, project, or an "
      ++ "enclosing directory and install its F Prime dependencies."⟩

/-- The last lines a program wrote, blank ones left out. -/
def failureDetail (result : CompletedProcess) : String :=
  let output := "\n".intercalate
    ((Text.splitlines (result.stdout ++ "\n" ++ result.stderr)).filter fun line =>
      Text.strip line ≠ "")
  let lines := Text.splitlines output
  "\n".intercalate (lines.drop (lines.length - 12))

/-- What is said of a program that cannot be started. -/
def startError (text : String) : CliError :=
  ⟨"Could not prepare analysis data for " ++ source.deploymentDir.str ++ ": " ++ text⟩

/-- What is said of a program that does not end well. -/
def failureError (parts : List String) (result : CompletedProcess) : CliError :=
  let detail := failureDetail result
  ⟨"Could not prepare analysis data for " ++ source.deploymentDir.str ++ ": "
    ++ " ".intercalate (parts.take 2) ++ " failed." ++ if detail ≠ "" then "\n" ++ detail else ""⟩

/-- `_prepare_command`. -/
def prepareCommand (environment : Dict String String) (parts : List String) :
    SessionStep CompletedProcess := fun session =>
  let command : Command := ⟨parts, source.deploymentDir, environment⟩
  let after := host.run command session.files
  let session := { session with files := after.2, ran := session.ran ++ [⟨command, after.1⟩] }
  match after.1 with
  | .error text => (.error (startError source text), session)
  | .ok result =>
    if result.returncode ≠ 0 then (.error (failureError source parts result), session)
    else (.ok result, session)

/-- `_release_build_cache`. -/
def releaseBuildCache (executable : SourcePath) (environment : Dict String String) :
    SessionStep (Option SourcePath) := do
  let result ← prepareCommand host source environment [executable.str, "info"]
  let output := result.stdout ++ "\n" ++ result.stderr
  Step.read fun session => .ok <|
    match search (releaseBuildCachePattern classes) output.toList with
    | none => none
    | some found =>
      let cache := host.resolve session.files (host.expanduser (String.ofList (found.group "path")))
      if session.files.isFile (cache ++ ["CMakeCache.txt"]) then some cache else none

/-- `_cmake_home`. -/
def cmakeHome (files : Files) (buildCache : SourcePath) : SourcePath :=
  match files.readText (buildCache ++ ["CMakeCache.txt"]) with
  | none => source.projectRoot
  | some cache =>
    match search cmakeHomePattern cache.toList with
    | none => source.projectRoot
    | some found => host.resolve files (String.ofList (found.group "1"))

/-- Upper case, as far as the words in `enabledWords` go. -/
def upperChar (c : Char) : Char := if c = 'ſ' then 'S' else c.toUpper

def enabledWords : List String := ["1", "ON", "TRUE", "YES", "Y"]

/-- `_analysis_options_enabled`. -/
def analysisOptionsEnabled (files : Files) (buildCache : SourcePath) : Bool :=
  match files.readText (buildCache ++ ["CMakeCache.txt"]) with
  | none => false
  | some cache =>
    let values := Dict.ofList ((finditer (optionPattern classes) cache.toList).map fun found =>
      (String.ofList (found.group "1"), String.ofList ((found.group "2").map upperChar)))
    analysisOptions.all fun option => (values.get? option).getD "" ∈ enabledWords

/-- The options on a command line. -/
def optionFlags : List String :=
  ["-DFPRIME_ENABLE_JSON_MODEL_GENERATION=ON", "-DCMAKE_EXPORT_COMPILE_COMMANDS=ON"]

/-- The program that configures the build, if that has to be done. -/
def configureParts (files : Files) (venv executable : SourcePath) (buildCache : Option SourcePath) :
    Except CliError (List (List String)) :=
  match buildCache with
  | none => .ok [[executable.str, "generate"] ++ optionFlags]
  | some buildCache =>
    if analysisOptionsEnabled classes files buildCache then .ok []
    else
      let cmake : SourcePath := executable.dropLast ++ ["cmake"]
      if files.isFile cmake then
        .ok [[cmake.str, "-S", (cmakeHome host source files buildCache).str, "-B", buildCache.str]
          ++ optionFlags]
      else
        .error ⟨"The F Prime virtual environment at " ++ venv.str ++ " does not provide cmake."⟩

/-- The environment of the programs. -/
def prepareEnvironment (venv executable : SourcePath) : Dict String String :=
  let environment := host.environ.set "VIRTUAL_ENV" venv.str
  let path := (environment.get? "PATH").getD ""
  (environment.set "PATH" (SourcePath.str executable.dropLast ++ ":" ++ path)).filter
    (· ≠ "PYTHONHOME")

/-- `_prepare_analysis`. -/
def prepareAnalysis : SessionStep Unit := do
  let (venv, executable) ← Step.read fun session => projectVenv source session.files
  let environment := prepareEnvironment host venv executable
  let buildCache ← releaseBuildCache host classes source executable environment
  let configure ← Step.read fun session =>
    configureParts host classes source session.files venv executable buildCache
  Step.each (prepareCommand host source environment) (configure ++ [[executable.str, "build"]])

end Prepare

/-! ## Loading -/

section Load

variable (host : Host) (classes : CharClasses) (selected : SourcePath) (name : Option String)

/-- The artifacts are enough for what is asked for. -/
def AnalysisArtifacts.suffices (requireCpp : Bool) (artifacts : AnalysisArtifacts) : Bool :=
  artifacts.compileCommands.isSome || !requireCpp

/-- What the preparation has left, or an error. -/
def preparedArtifacts (source : DeploymentSource) (requireCpp : Bool) (files : Files) :
    Except CliError AnalysisArtifacts :=
  match availableArtifacts files source with
  | none => .error ⟨"The analysis model for " ++ source.deploymentDir.str
      ++ " could not be prepared. Run fprime-util build in that deployment source directory "
      ++ "and try again."⟩
  | some artifacts =>
    if artifacts.suffices requireCpp then .ok artifacts
    else .error ⟨"C++ analysis data for " ++ source.deploymentDir.str
      ++ " could not be prepared. Run fprime-util generate and fprime-util build there, then try "
      ++ "again."⟩

/-- `resolve_analysis_artifacts`, where nothing is cached that suffices. -/
def prepareArtifacts (requireCpp : Bool) : SessionStep AnalysisArtifacts := do
  let source ← Step.read fun session =>
    resolveDeploymentSource classes session.files selected name
  prepareAnalysis host classes source
  let artifacts ← Step.read fun session => preparedArtifacts source requireCpp session.files
  Step.modify fun session => { session with artifacts := some artifacts }
  return artifacts

/-- `resolve_analysis_artifacts`. -/
def resolveAnalysisArtifacts (requireCpp : Bool) : SessionStep AnalysisArtifacts := fun session =>
  match session.artifacts.filter (AnalysisArtifacts.suffices requireCpp) with
  | some cached => (.ok cached, session)
  | none => prepareArtifacts host classes selected name requireCpp session

/-- The analysis of the C++ sources. -/
def extractFlow (allowEmpty : Bool) (artifacts : AnalysisArtifacts) (compileCommands : SourcePath) :
    SessionStep PortFlowMap := fun session =>
  let after := host.extract compileCommands session.files
  let session := { session with files := after.2 }
  match after.1 with
  | .ok components => (.ok ⟨components, true⟩, session)
  | .error text =>
    if allowEmpty then (.ok ⟨.empty, true⟩, session)
    else (.error ⟨"Could not analyze component C++ call flow for " ++ artifacts.deploymentDir.str
      ++ ": " ++ text⟩, session)

/-- `load_flow`. -/
def loadFlow (permissive allowEmpty : Bool) : SessionStep PortFlowMap :=
  if permissive then pure (PortFlowMap.permissive .empty)
  else do
    let artifacts ← resolveAnalysisArtifacts host classes selected name (!allowEmpty)
    match artifacts.compileCommands with
    | none => pure ⟨.empty, true⟩
    | some compileCommands => extractFlow host allowEmpty artifacts compileCommands

/-- `TopologyGraph(...).load()`, where it does not raise. -/
def loadTopology (files : Files) (path : SourcePath) (flow : PortFlowMap) (topologyName : String) :
    Option LoadedTopology :=
  if modelFiles.all fun name => files.pathExists (path ++ [name]) then
    match host.translate files path with
    | none => none
    | some topologies =>
      match selectTopology topologies (some topologyName) with
      | .error _ => none
      | .ok named => some (named.topology.load flow)
  else none

/-- `load_graph`. -/
def loadGraph (flow : PortFlowMap) : SessionStep LoadedTopology := do
  let artifacts ← resolveAnalysisArtifacts host classes selected name false
  Step.read fun session =>
    match loadTopology host session.files artifacts.topologyPath flow artifacts.topologyName with
    | some graph => .ok graph
    | none => .error ⟨"Could not load the deployment topology for " ++ artifacts.deploymentDir.str
        ++ ". Rebuild that deployment and try again."⟩

/-- `load_graph(args, load_flow(args))`, as every command does. -/
def loadInputs (permissive allowEmpty : Bool) : SessionStep LoadedTopology := do
  let flow ← loadFlow host classes selected name permissive allowEmpty
  loadGraph host classes selected name flow

end Load

/-! ## What is run -/

section Running

variable {host : Host} {classes : CharClasses} {source : DeploymentSource}
  {environment : Dict String String} {items later : List (List String)} {log log' : List Ran}
  {finished : Prop}

/-- The program and its arguments. -/
def Ran.parts (ran : Ran) : List String := ran.command.parts

/-- Programs are run one after the other where the deployment is, until one
does not end well. They are finished when all of them have ended well. -/
structure Runs (source : DeploymentSource) (environment : Dict String String)
    (items : List (List String)) (log : List Ran) (finished : Prop) : Prop where
  parts : log.map Ran.parts <+: items
  goesOn : ∀ ran ∈ log.dropLast, ran.succeeded = true
  cwd : ∀ ran ∈ log, ran.command.cwd = source.deploymentDir
  environment : ∀ ran ∈ log, ran.command.environment = environment
  finished : finished ↔ log.map Ran.parts = items ∧ ∀ ran ∈ log, ran.succeeded = true

theorem Runs.nil (source : DeploymentSource) (environment : Dict String String) :
    Runs source environment [] [] True := by
  constructor <;> simp

/-- After programs that all ended well, others are run. -/
theorem Runs.append (h : Runs source environment items log True)
    (h' : Runs source environment later log' finished) :
    Runs source environment (items ++ later) (log ++ log') finished where
  parts := by
    rw [List.map_append, (h.finished.mp trivial).1]
    exact (List.prefix_append_right_inj _).mpr h'.parts
  goesOn ran hran := by
    cases log' with
    | nil => exact h.goesOn ran (by simpa using hran)
    | cons head tail =>
      rw [List.dropLast_append_of_ne_nil (List.cons_ne_nil _ _)] at hran
      rcases List.mem_append.mp hran with hran | hran
      · exact (h.finished.mp trivial).2 ran hran
      · exact h'.goesOn ran hran
  cwd ran hran := (List.mem_append.mp hran).elim (h.cwd ran) (h'.cwd ran)
  environment ran hran := (List.mem_append.mp hran).elim (h.environment ran) (h'.environment ran)
  finished := by
    obtain ⟨hparts, hended⟩ := h.finished.mp trivial
    rw [h'.finished, List.map_append, hparts, List.append_cancel_left_eq]
    exact and_congr_right fun _ =>
      ⟨fun hall ran hran => (List.mem_append.mp hran).elim (hended ran) (hall ran),
        fun hall ran hran => hall ran (List.mem_append_right _ hran)⟩

/-- After programs that did not all end well, no other is run. -/
theorem Runs.stop (h : Runs source environment items log False) :
    Runs source environment (items ++ later) log False where
  parts := h.parts.trans (List.prefix_append _ _)
  goesOn := h.goesOn
  cwd := h.cwd
  environment := h.environment
  finished := by
    refine ⟨False.elim, fun ⟨hparts, hended⟩ => h.finished.mpr ⟨?_, hended⟩⟩
    have hlen := h.parts.length_le
    rw [hparts, List.length_append] at hlen
    have hlater : later = [] := List.length_eq_zero_iff.mp (by omega)
    rw [hparts, hlater, List.append_nil]

/-- What programs make of the file system. -/
def Host.replay (host : Host) (log : List Ran) (files : Files) : Files :=
  log.foldl (fun files ran => (host.run ran.command files).2) files

/-- The outcomes are those of the programs, each run on what the ones before
it have left. -/
def Host.Outcomes (host : Host) : Files → List Ran → Prop
  | _, [] => True
  | files, ran :: log =>
    ran.outcome = (host.run ran.command files).1
      ∧ host.Outcomes (host.run ran.command files).2 log

theorem Host.Outcomes.append {host : Host} {later : List Ran} :
    ∀ {log : List Ran} {files : Files}, host.Outcomes files log →
      host.Outcomes (host.replay log files) later → host.Outcomes files (log ++ later)
  | [], _, _, h' => h'
  | _ :: _, _, ⟨h, hrest⟩, h' => ⟨h, hrest.append h'⟩

/-- More was run, and nothing was cached. -/
structure Extends (host : Host) (s : Session) (log : List Ran) (t : Session) : Prop where
  ran : t.ran = s.ran ++ log
  files : t.files = host.replay log s.files
  outcomes : host.Outcomes s.files log
  artifacts : t.artifacts = s.artifacts

theorem Extends.refl (host : Host) (s : Session) : Extends host s [] s :=
  ⟨by simp, rfl, trivial, rfl⟩

theorem Extends.trans {s t u : Session} (h : Extends host s log t) (h' : Extends host t log' u) :
    Extends host s (log ++ log') u where
  ran := by rw [h'.ran, h.ran, List.append_assoc]
  files := by rw [h'.files, h.files, Host.replay, Host.replay, Host.replay, List.foldl_append]
  outcomes := h.outcomes.append (h.files ▸ h'.outcomes)
  artifacts := h'.artifacts.trans h.artifacts

/-- A program is run once, and gives a result if it ends well. -/
theorem prepareCommand_runs (parts : List String) :
    (prepareCommand host source environment parts).Does fun s r t =>
      ∃ ran, Extends host s [ran] t
        ∧ ran.command = ⟨parts, source.deploymentDir, environment⟩
        ∧ ((∃ result, r = .ok result) ↔ ran.succeeded = true)
        ∧ ∀ result, r = .ok result → ran.outcome = .ok result := by
  intro s
  unfold prepareCommand
  dsimp only
  have hrun : ∀ outcome, (host.run ⟨parts, source.deploymentDir, environment⟩ s.files).1 = outcome →
      host.Outcomes s.files [⟨⟨parts, source.deploymentDir, environment⟩, outcome⟩] :=
    fun _ h => ⟨h.symm, trivial⟩
  cases hout : (host.run ⟨parts, source.deploymentDir, environment⟩ s.files).1 with
  | error text => exact ⟨_, ⟨rfl, rfl, hrun _ hout, rfl⟩, rfl, by simp [Ran.succeeded], by simp⟩
  | ok result =>
    dsimp only
    by_cases hcode : result.returncode = 0
    · rw [if_neg (not_not.mpr hcode)]
      exact ⟨_, ⟨rfl, rfl, hrun _ hout, rfl⟩, rfl, by simp [Ran.succeeded, hcode], by simp⟩
    · rw [if_pos hcode]
      exact ⟨_, ⟨rfl, rfl, hrun _ hout, rfl⟩, rfl, by simp [Ran.succeeded, hcode], by simp⟩

/-- One program was run. -/
theorem Runs.one {ran : Ran} {parts : List String}
    (hcommand : ran.command = ⟨parts, source.deploymentDir, environment⟩)
    (hfinished : finished ↔ ran.succeeded = true) :
    Runs source environment [parts] [ran] finished := by
  constructor <;> simp [Ran.parts, hcommand, hfinished]

theorem prepareCommand_does (parts : List String) :
    (prepareCommand host source environment parts).Does fun s r t =>
      ∃ log, Extends host s log t
        ∧ Runs source environment [parts] log (∃ result, r = .ok result) :=
  (prepareCommand_runs parts).mono fun _ _ _ ⟨_, hext, hcommand, hended, _⟩ =>
    ⟨_, hext, .one hcommand hended⟩

/-- Programs of a list are run as long as they end well. -/
theorem each_does : ∀ items : List (List String),
    (Step.each (prepareCommand host source environment) items).Does fun s r t =>
      ∃ log, Extends host s log t ∧ Runs source environment items log (r = .ok ())
  | [] => fun s => ⟨[], .refl host s, by
      simpa [Step.each, Step.pure_apply] using Runs.nil source environment⟩
  | parts :: items => by
      refine ((prepareCommand_does parts).bind fun _ => each_does items).mono fun s r u h => ?_
      rcases h with ⟨e, ⟨log, hext, hruns⟩, rfl⟩
        | ⟨result, t, ⟨log, hext, hruns⟩, log', hext', hruns'⟩
      · simp only [reduceCtorEq, exists_false] at hruns ⊢
        exact ⟨log, hext, @Runs.stop _ _ _ items _ hruns⟩
      · simp only [Except.ok.injEq, exists_eq'] at hruns
        exact ⟨log ++ log', hext.trans hext', hruns.append hruns'⟩

/-! ## A preparation -/

/-- The nearest virtual environment at or above the deployment that has the
program, and the first place in it where the program is. -/
structure NearestVenv (files : Files) (source : DeploymentSource)
    (venv executable : SourcePath) : Prop where
  nearest : ∃ nearer root farther,
    source.deploymentDir :: source.deploymentDir.parents = nearer ++ root :: farther
      ∧ venv = root ++ [".venv"]
      ∧ ∀ other ∈ nearer, ∀ place ∈ venvExecutables (other ++ [".venv"]), files.isFile place = false
  first : ∃ earlier later, venvExecutables venv = earlier ++ executable :: later
    ∧ files.isFile executable = true ∧ ∀ place ∈ earlier, files.isFile place = false

/-- What `fprime-util info` has printed names a build cache that is there, or
none. -/
inductive NamesCache (host : Host) (classes : CharClasses) (files : Files)
    (info : CompletedProcess) : Option SourcePath → Prop
  | cache {found : State} {cache : SourcePath} :
      search (releaseBuildCachePattern classes) (info.stdout ++ "\n" ++ info.stderr).toList
        = some found →
      cache = host.resolve files (host.expanduser (String.ofList (found.group "path"))) →
      files.isFile (cache ++ ["CMakeCache.txt"]) = true →
      NamesCache host classes files info (some cache)
  | missing {found : State} :
      search (releaseBuildCachePattern classes) (info.stdout ++ "\n" ++ info.stderr).toList
        = some found →
      files.isFile (host.resolve files (host.expanduser (String.ofList (found.group "path")))
        ++ ["CMakeCache.txt"]) = false →
      NamesCache host classes files info none
  | unnamed :
      search (releaseBuildCachePattern classes) (info.stdout ++ "\n" ++ info.stderr).toList = none →
      NamesCache host classes files info none

/-- What sets the options: `fprime-util generate` where there is no build
cache, CMake on the build cache where it does not have both of them on, and
no program where it has. -/
inductive SetsOptions (host : Host) (classes : CharClasses) (files : Files)
    (source : DeploymentSource) (executable : SourcePath) :
    Option SourcePath → List (List String) → Prop
  | generate : SetsOptions host classes files source executable none
      [[executable.str, "generate"] ++ optionFlags]
  | enabled {cache : SourcePath} : analysisOptionsEnabled classes files cache = true →
      SetsOptions host classes files source executable (some cache) []
  | cmake {cache : SourcePath} : analysisOptionsEnabled classes files cache = false →
      files.isFile (executable.dropLast ++ ["cmake"]) = true →
      SetsOptions host classes files source executable (some cache)
        [[SourcePath.str (executable.dropLast ++ ["cmake"]), "-S",
          (cmakeHome host source files cache).str, "-B", cache.str] ++ optionFlags]

/-- The course of a preparation. In the project's virtual environment
`fprime-util info` is run, then what sets the options of the build cache that
it names, and then `fprime-util build`. -/
inductive Course (host : Host) (classes : CharClasses) (files : Files) (source : DeploymentSource) :
    List Ran → Prop → Prop
  | noVenv {finished : Prop} :
      (∀ root ∈ source.deploymentDir :: source.deploymentDir.parents,
        ∀ place ∈ venvExecutables (root ++ [".venv"]), files.isFile place = false) →
      ¬ finished → Course host classes files source [] finished
  | infoFailed {venv executable : SourcePath} {log : List Ran} {finished : Prop} :
      NearestVenv files source venv executable →
      Runs source (prepareEnvironment host venv executable) [[executable.str, "info"]] log False →
      ¬ finished → Course host classes files source log finished
  | noCmake {venv executable cache : SourcePath} {info : Ran} {result : CompletedProcess}
      {finished : Prop} :
      NearestVenv files source venv executable →
      Runs source (prepareEnvironment host venv executable) [[executable.str, "info"]] [info] True →
      info.outcome = .ok result →
      NamesCache host classes (host.replay [info] files) result (some cache) →
      analysisOptionsEnabled classes (host.replay [info] files) cache = false →
      (host.replay [info] files).isFile (executable.dropLast ++ ["cmake"]) = false →
      ¬ finished → Course host classes files source [info] finished
  | configured {venv executable : SourcePath} {cache : Option SourcePath} {info : Ran}
      {result : CompletedProcess} {configure : List (List String)} {log : List Ran}
      {finished : Prop} :
      NearestVenv files source venv executable →
      info.outcome = .ok result →
      NamesCache host classes (host.replay [info] files) result cache →
      SetsOptions host classes (host.replay [info] files) source executable cache configure →
      Runs source (prepareEnvironment host venv executable)
        ([executable.str, "info"] :: (configure ++ [[executable.str, "build"]])) (info :: log)
        finished →
      Course host classes files source (info :: log) finished

/-- A preparation with the outcomes of its programs. -/
structure Prepares (host : Host) (classes : CharClasses) (files : Files) (source : DeploymentSource)
    (log : List Ran) (finished : Prop) : Prop where
  outcomes : host.Outcomes files log
  course : Course host classes files source log finished

theorem projectVenv_ok {files : Files} {venv executable : SourcePath}
    (h : projectVenv source files = .ok (venv, executable)) :
    NearestVenv files source venv executable := by
  unfold projectVenv at h
  dsimp only at h
  split at h
  · rename_i found hfound
    obtain rfl := Except.ok.inj h
    obtain ⟨nearer, venv', farther, hvenvs, hvenv, hnone⟩ := List.findSome?_eq_some_iff.mp hfound
    obtain ⟨executable', hfind, hpair⟩ := Option.map_eq_some_iff.mp hvenv
    obtain ⟨rfl, rfl⟩ := Prod.mk.inj hpair
    obtain ⟨hfile, earlier, later, hplaces, hearlier⟩ := List.find?_eq_some_iff_append.mp hfind
    obtain ⟨nearer, rest, hroots, rfl, hrest⟩ := List.map_eq_append_iff.mp hvenvs
    obtain ⟨root, farther, rfl, hroot, -⟩ := List.map_eq_cons_iff.mp hrest
    refine ⟨⟨nearer, root, farther, hroots, hroot.symm, fun other hother place hplace => ?_⟩,
      earlier, later, hplaces, hfile, by simpa using hearlier⟩
    have hno := hnone _ (List.mem_map_of_mem hother)
    simp only [Option.map_eq_none_iff, List.find?_eq_none] at hno
    simpa using hno place hplace
  · cases h

/-- Without a virtual environment, no place has the program. -/
theorem projectVenv_error {files : Files} {e : CliError} (h : projectVenv source files = .error e) :
    ∀ root ∈ source.deploymentDir :: source.deploymentDir.parents,
      ∀ place ∈ venvExecutables (root ++ [".venv"]), files.isFile place = false := by
  unfold projectVenv at h
  dsimp only at h
  split at h
  · cases h
  · rename_i hnone
    intro root hroot place hplace
    have hno := List.findSome?_eq_none_iff.mp hnone _ (List.mem_map_of_mem hroot)
    simp only [Option.map_eq_none_iff, List.find?_eq_none] at hno
    simpa using hno place hplace

theorem configureParts_ok {files : Files} {venv executable : SourcePath}
    {cache : Option SourcePath} {configure : List (List String)}
    (h : configureParts host classes source files venv executable cache = .ok configure) :
    SetsOptions host classes files source executable cache configure := by
  unfold configureParts at h
  cases cache with
  | none => exact Except.ok.inj h ▸ .generate
  | some cache =>
    by_cases henabled : analysisOptionsEnabled classes files cache = true
    · simp only [henabled, if_true] at h
      exact Except.ok.inj h ▸ .enabled henabled
    · by_cases hcmake : files.isFile (executable.dropLast ++ ["cmake"]) = true
      · simp only [henabled, hcmake, Bool.false_eq_true, if_false, if_true] at h
        exact Except.ok.inj h ▸ .cmake (by simpa using henabled) hcmake
      · simp [henabled, hcmake] at h

/-- The build is not configured only for want of CMake. -/
theorem configureParts_error {files : Files} {venv executable : SourcePath}
    {cache : Option SourcePath} {e : CliError}
    (h : configureParts host classes source files venv executable cache = .error e) :
    ∃ found, cache = some found ∧ analysisOptionsEnabled classes files found = false
      ∧ files.isFile (executable.dropLast ++ ["cmake"]) = false := by
  unfold configureParts at h
  cases cache with
  | none => cases h
  | some cache =>
    by_cases henabled : analysisOptionsEnabled classes files cache = true
    · simp [henabled] at h
    · by_cases hcmake : files.isFile (executable.dropLast ++ ["cmake"]) = true
      · simp [henabled, hcmake] at h
      · exact ⟨cache, rfl, by simpa using henabled, by simpa using hcmake⟩

/-- The build cache is the one `fprime-util info` names. -/
theorem releaseBuildCache_does (executable : SourcePath) :
    (releaseBuildCache host classes source executable environment).Does fun s r t =>
      ∃ info, Extends host s [info] t
        ∧ Runs source environment [[executable.str, "info"]] [info] (∃ cache, r = .ok cache)
        ∧ ∀ cache, r = .ok cache → ∃ result, info.outcome = .ok result
          ∧ NamesCache host classes t.files result cache := by
  let named : CompletedProcess → Session → Except CliError (Option SourcePath) := fun result session =>
    .ok (match search (releaseBuildCachePattern classes)
        (result.stdout ++ "\n" ++ result.stderr).toList with
      | none => none
      | some found =>
        let cache := host.resolve session.files
          (host.expanduser (String.ofList (found.group "path")))
        if session.files.isFile (cache ++ ["CMakeCache.txt"]) then some cache else none)
  have hnamed : ∀ result, (Step.read (named result)).Does fun s r t => s = t ∧ ∃ cache, r = .ok cache
      ∧ NamesCache host classes s.files result cache := by
    intro result s
    refine ⟨rfl, _, rfl, ?_⟩
    cases hsearch : search (releaseBuildCachePattern classes)
        (result.stdout ++ "\n" ++ result.stderr).toList with
    | none => exact .unnamed hsearch
    | some found =>
      dsimp only
      by_cases hcache : s.files.isFile (host.resolve s.files
          (host.expanduser (String.ofList (found.group "path"))) ++ ["CMakeCache.txt"]) = true
      · rw [if_pos hcache]
        exact .cache hsearch rfl hcache
      · rw [if_neg hcache]
        exact .missing hsearch (by simpa using hcache)
  refine ((prepareCommand_runs _).bind hnamed).mono fun s r u h => ?_
  rcases h with ⟨e, ⟨info, hext, hcommand, hended, -⟩, rfl⟩
    | ⟨result, t, ⟨info, hext, hcommand, hended, hresult⟩, rfl, cache, rfl, hcache⟩
  · exact ⟨info, hext, .one hcommand (by simpa using hended), fun cache hcache => nomatch hcache⟩
  · refine ⟨info, hext, .one hcommand (by simpa using hended), fun other hother => ?_⟩
    obtain rfl := Except.ok.inj hother
    exact ⟨result, hresult result rfl, hcache⟩

/-- **A preparation runs its programs in order**, each after the one before
has ended well, and is finished when all have. -/
theorem prepareAnalysis_does :
    (prepareAnalysis host classes source).Does fun s r t =>
      ∃ log, Extends host s log t ∧ Prepares host classes s.files source log (r = .ok ()) := by
  intro s
  unfold prepareAnalysis
  let venvOf : Session → Except CliError (SourcePath × SourcePath) := fun session =>
    projectVenv source session.files
  cases hvenv : projectVenv source s.files with
  | error e =>
    rw [Step.read_bind_error (g := venvOf) hvenv]
    exact ⟨[], .refl host s, trivial, .noVenv (projectVenv_error hvenv) (by simp)⟩
  | ok found =>
    obtain ⟨venv, executable⟩ := found
    rw [Step.read_bind_ok (g := venvOf) hvenv]
    have hnearest := projectVenv_ok hvenv
    obtain ⟨info, hext, hruns, hcache⟩ := @releaseBuildCache_does host classes source
      (prepareEnvironment host venv executable) executable s
    dsimp only
    cases hinfo : releaseBuildCache host classes source executable
        (prepareEnvironment host venv executable) s with
    | mk r t =>
      rw [hinfo] at hext hruns hcache
      cases r with
      | error e =>
        rw [Step.bind_error hinfo]
        simp only [reduceCtorEq, exists_false] at hruns
        exact ⟨[info], hext, hext.outcomes, .infoFailed hnearest hruns (by simp)⟩
      | ok cache =>
        rw [Step.bind_ok hinfo]
        simp only [Except.ok.injEq, exists_eq'] at hruns
        obtain ⟨result, hresult, hnames⟩ := hcache cache rfl
        have hfiles : t.files = host.replay [info] s.files := hext.files
        let configureOf : Session → Except CliError (List (List String)) := fun session =>
          configureParts host classes source session.files venv executable cache
        cases hconfigure : configureParts host classes source t.files venv executable cache with
        | error e =>
          rw [Step.read_bind_error (g := configureOf) hconfigure]
          obtain ⟨cache, rfl, henabled, hcmake⟩ := configureParts_error hconfigure
          exact ⟨[info], hext, hext.outcomes, .noCmake hnearest hruns hresult (hfiles ▸ hnames)
            (hfiles ▸ henabled) (hfiles ▸ hcmake) (by simp)⟩
        | ok configure =>
          rw [Step.read_bind_ok (g := configureOf) hconfigure]
          obtain ⟨log, hext', hruns'⟩ := @each_does host source
            (prepareEnvironment host venv executable) (configure ++ [[executable.str, "build"]]) t
          have hall := hext.trans hext'
          have hsets : SetsOptions host classes (host.replay [info] s.files) source executable cache
              configure := hfiles ▸ configureParts_ok hconfigure
          have hcourse := hruns.append hruns'
          exact ⟨info :: log, hall, hall.outcomes,
            .configured hnearest hresult (hfiles ▸ hnames) hsets hcourse⟩

end Running

/-! ## Requests for artifacts -/

section Requests

variable {host : Host} {classes : CharClasses} {selected : SourcePath} {name : Option String}
  {requireCpp : Bool} {source : DeploymentSource} {log : List Ran} {finished : Prop}

variable (host classes selected name) in
/-- The artifacts were found after a preparation that was finished. -/
structure Prepared (s : Session) (artifacts : AnalysisArtifacts) (t : Session)
    (source : DeploymentSource) (log : List Ran) : Prop where
  resolved : resolveDeploymentSource classes s.files selected name = .ok source
  ran : t.ran = s.ran ++ log
  files : t.files = host.replay log s.files
  programs : Prepares host classes s.files source log True
  found : availableArtifacts t.files source = some artifacts

variable (host classes selected name) in
/-- What was run is one preparation, finished or not, or nothing where there is
no one deployment. -/
structure PreparesOnce (s t : Session) (log : List Ran) : Prop where
  ran : t.ran = s.ran ++ log
  programs : (log = [] ∧ ∃ e, resolveDeploymentSource classes s.files selected name = .error e)
    ∨ ∃ source finished, resolveDeploymentSource classes s.files selected name = .ok source
      ∧ Prepares host classes s.files source log finished

variable (host classes selected name) in
/-- How a request for artifacts ends. -/
inductive RequestEnds (requireCpp : Bool) :
    Session → Except CliError AnalysisArtifacts → Session → Prop
  | cached {s : Session} {artifacts : AnalysisArtifacts} :
      s.artifacts = some artifacts → artifacts.suffices requireCpp = true →
      RequestEnds requireCpp s (.ok artifacts) s
  | prepared {s t : Session} {artifacts : AnalysisArtifacts} {source : DeploymentSource}
      {log : List Ran} :
      (∀ cached, s.artifacts = some cached → cached.suffices requireCpp = false) →
      Prepared host classes selected name s artifacts t source log →
      artifacts.suffices requireCpp = true → t.artifacts = some artifacts →
      RequestEnds requireCpp s (.ok artifacts) t
  | failed {s t : Session} {e : CliError} {log : List Ran} :
      (∀ cached, s.artifacts = some cached → cached.suffices requireCpp = false) →
      PreparesOnce host classes selected name s t log → t.artifacts = s.artifacts →
      RequestEnds requireCpp s (.error e) t

theorem preparedArtifacts_ok {files : Files} {artifacts : AnalysisArtifacts}
    (h : preparedArtifacts source requireCpp files = .ok artifacts) :
    availableArtifacts files source = some artifacts ∧ artifacts.suffices requireCpp = true := by
  unfold preparedArtifacts at h
  cases hfound : availableArtifacts files source with
  | none => simp [hfound] at h
  | some found =>
    by_cases hsuffices : found.suffices requireCpp = true
    · simp only [hfound, hsuffices, if_true, Except.ok.injEq] at h
      exact ⟨h ▸ rfl, h ▸ hsuffices⟩
    · simp [hfound, hsuffices] at h

theorem prepareArtifacts_ends {s : Session}
    (hcached : ∀ cached, s.artifacts = some cached → cached.suffices requireCpp = false) :
    RequestEnds host classes selected name requireCpp s
      (prepareArtifacts host classes selected name requireCpp s).1
      (prepareArtifacts host classes selected name requireCpp s).2 := by
  unfold prepareArtifacts
  let sourceOf : Session → Except CliError DeploymentSource := fun session =>
    resolveDeploymentSource classes session.files selected name
  cases hsource : resolveDeploymentSource classes s.files selected name with
  | error e =>
    rw [Step.read_bind_error (g := sourceOf) hsource]
    exact .failed hcached ⟨(List.append_nil _).symm, .inl ⟨rfl, e, hsource⟩⟩ rfl
  | ok source =>
    rw [Step.read_bind_ok (g := sourceOf) hsource]
    obtain ⟨log, hext, hprepares⟩ := @prepareAnalysis_does host classes source s
    cases hrun : prepareAnalysis host classes source s with
    | mk r t =>
      rw [hrun] at hext hprepares
      have honce : PreparesOnce host classes selected name s t log :=
        ⟨hext.ran, .inr ⟨source, _, hsource, hprepares⟩⟩
      cases r with
      | error e =>
        rw [Step.bind_error hrun]
        exact .failed hcached honce hext.artifacts
      | ok u =>
        rw [Step.bind_ok hrun]
        let foundOf : Session → Except CliError AnalysisArtifacts := fun session =>
          preparedArtifacts source requireCpp session.files
        cases hfound : preparedArtifacts source requireCpp t.files with
        | error e =>
          rw [Step.read_bind_error (g := foundOf) hfound]
          exact .failed hcached honce hext.artifacts
        | ok artifacts =>
          rw [Step.read_bind_ok (g := foundOf) hfound]
          obtain ⟨havailable, hsuffices⟩ := preparedArtifacts_ok hfound
          have hfinished : Prepares host classes s.files source log True := by
            simpa using hprepares
          exact .prepared hcached ⟨hsource, hext.ran, hext.files, hfinished, havailable⟩ hsuffices rfl

/-- **A request is answered from the cache, or by a preparation that is run to
its end, or not at all.** -/
theorem resolveAnalysisArtifacts_ends (requireCpp : Bool) (s : Session) :
    RequestEnds host classes selected name requireCpp s
      (resolveAnalysisArtifacts host classes selected name requireCpp s).1
      (resolveAnalysisArtifacts host classes selected name requireCpp s).2 := by
  unfold resolveAnalysisArtifacts
  cases hcached : s.artifacts with
  | none => exact prepareArtifacts_ends fun cached h => nomatch hcached.symm.trans h
  | some cached =>
    by_cases hsuffices : cached.suffices requireCpp = true
    · rw [Option.filter_some, if_pos hsuffices]
      exact .cached hcached hsuffices
    · rw [Option.filter_some, if_neg hsuffices]
      refine prepareArtifacts_ends fun other h => ?_
      obtain rfl := Option.some.inj (hcached.symm.trans h)
      simpa using hsuffices

/-- How much is cached: nothing, a model, or a model with compile commands. -/
def Session.rank (session : Session) : Nat :=
  match session.artifacts with
  | none => 0
  | some artifacts => if artifacts.compileCommands.isSome then 2 else 1

theorem Session.rank_le (session : Session) : session.rank ≤ 2 := by
  unfold Session.rank
  split
  · omega
  · split <;> omega

/-- A request is answered, and programs were run for it. -/
def preparedAnew (one : Step.Served Session CliError AnalysisArtifacts Bool) : Prop :=
  one.result.isOk = true ∧ one.start.ran.length < one.final.ran.length

instance : DecidablePred preparedAnew := fun _ => inferInstanceAs (Decidable (_ ∧ _))

/-- What suffices raises the rank over what did not. -/
theorem rank_lt {s t : Session} {artifacts : AnalysisArtifacts}
    (hcached : ∀ cached, s.artifacts = some cached → cached.suffices requireCpp = false)
    (hsuffices : artifacts.suffices requireCpp = true) (ht : t.artifacts = some artifacts) :
    s.rank < t.rank := by
  cases hs : s.artifacts with
  | none =>
    simp only [Session.rank, hs, ht]
    split <;> omega
  | some cached =>
    have hless := hcached cached hs
    simp only [AnalysisArtifacts.suffices, Bool.or_eq_true, Bool.or_eq_false_iff,
      Bool.not_eq_true', Bool.not_eq_false'] at hsuffices hless
    simp [Session.rank, hs, ht, hless.1, hless.2] at hsuffices ⊢
    simp [hsuffices]

theorem RequestEnds.rank_le {s t : Session} {r : Except CliError AnalysisArtifacts}
    (h : RequestEnds host classes selected name requireCpp s r t) : s.rank ≤ t.rank := by
  cases h with
  | cached => exact Nat.le_refl _
  | prepared hcached hprepared hsuffices ht => exact (rank_lt hcached hsuffices ht).le
  | failed _ _ ht => exact (by simp [Session.rank, ht])

theorem RequestEnds.rank_lt {s t : Session} {artifacts : AnalysisArtifacts}
    (h : RequestEnds host classes selected name requireCpp s (.ok artifacts) t)
    (hran : s.ran.length < t.ran.length) : s.rank < t.rank := by
  cases h with
  | cached => omega
  | prepared hcached hprepared hsuffices ht => exact Cli.rank_lt hcached hsuffices ht

/-- What a request is answered with is cached. -/
theorem RequestEnds.artifacts_eq {s t : Session} {artifacts : AnalysisArtifacts}
    (h : RequestEnds host classes selected name requireCpp s (.ok artifacts) t) :
    t.artifacts = some artifacts := by
  cases h with
  | cached hcached => exact hcached
  | prepared _ _ _ ht => exact ht

/-- What is cached and suffices is the answer. -/
theorem resolveAnalysisArtifacts_cached {s : Session} {artifacts : AnalysisArtifacts}
    (hs : s.artifacts = some artifacts) (hsuffices : artifacts.suffices requireCpp = true) :
    resolveAnalysisArtifacts host classes selected name requireCpp s = (.ok artifacts, s) := by
  simp [resolveAnalysisArtifacts, hs, Option.filter_some, hsuffices]

/-- With the compile commands cached, every request is answered from the
cache. -/
theorem serve_settled {s : Session} {artifacts : AnalysisArtifacts}
    (hs : s.artifacts = some artifacts) (hcommands : artifacts.compileCommands.isSome = true) :
    ∀ requests : List Bool, ∀ one ∈
        Step.serve (resolveAnalysisArtifacts host classes selected name) requests s,
      one.result = .ok artifacts ∧ one.start = s ∧ one.final = s
  | [] => fun _ h => absurd h List.not_mem_nil
  | requireCpp :: requests => by
      intro one hone
      have hsuffices : artifacts.suffices requireCpp = true := by
        simp [AnalysisArtifacts.suffices, hcommands]
      have hrun := @resolveAnalysisArtifacts_cached host classes selected name requireCpp s
        artifacts hs hsuffices
      rw [Step.serve, hrun] at hone
      rcases List.mem_cons.mp hone with rfl | hone
      · exact ⟨rfl, rfl, rfl⟩
      · exact serve_settled hs hcommands requests one hone

/-- **Requests in any order.** Each is answered from the cache, or by a
preparation that is run to its end, or not at all. At most two are answered
by running programs; and once an answer has compile commands, every later
one is the same and nothing is run for it. -/
theorem session_exact (host : Host) (classes : CharClasses) (selected : SourcePath)
    (name : Option String) (files : Files) (requests : List Bool) :
    let all := Step.serve (resolveAnalysisArtifacts host classes selected name) requests
      ⟨files, [], none⟩
    (∀ one ∈ all, RequestEnds host classes selected name one.request one.start one.result one.final)
      ∧ all.countP preparedAnew ≤ 2
      ∧ ∀ earlier one later artifacts, all = earlier ++ one :: later → one.result = .ok artifacts →
        artifacts.compileCommands.isSome = true →
        ∀ next ∈ later, next.result = .ok artifacts ∧ next.start = one.final
          ∧ next.final = one.final := by
  intro all
  have hends : ∀ requireCpp s, RequestEnds host classes selected name requireCpp s
      (resolveAnalysisArtifacts host classes selected name requireCpp s).1
      (resolveAnalysisArtifacts host classes selected name requireCpp s).2 :=
    resolveAnalysisArtifacts_ends
  refine ⟨fun one hone => ?_, ?_, fun earlier one later artifacts hall hresult hcommands => ?_⟩
  · obtain ⟨earlier, later, hall⟩ := List.append_of_mem hone
    have hstep := hends one.request one.start
    rw [(Step.serve_eq_append_cons hall).1] at hstep
    exact hstep
  · have hcostly : ∀ requireCpp s,
        preparedAnew ⟨requireCpp,
          (resolveAnalysisArtifacts host classes selected name requireCpp s).1, s,
          (resolveAnalysisArtifacts host classes selected name requireCpp s).2⟩ →
        s.rank < (resolveAnalysisArtifacts host classes selected name requireCpp s).2.rank := by
      rintro requireCpp s ⟨hok, hran⟩
      have hstep := hends requireCpp s
      cases hresult : (resolveAnalysisArtifacts host classes selected name requireCpp s).1 with
      | error e => simp [hresult, Except.isOk, Except.toBool] at hok
      | ok artifacts =>
        rw [hresult] at hstep
        exact hstep.rank_lt hran
    have hcount : all.countP preparedAnew + _ ≤ _ :=
      Step.serve_costly_le (fun requireCpp s => (hends requireCpp s).rank_le) hcostly requests
        ⟨files, [], none⟩
    have hlast := (Step.lastState (resolveAnalysisArtifacts host classes selected name) requests
      ⟨files, [], none⟩).rank_le
    omega
  · obtain ⟨hstep, rest, rfl⟩ := Step.serve_eq_append_cons hall
    have hend := hends one.request one.start
    rw [hstep, hresult] at hend
    exact serve_settled hend.artifacts_eq hcommands rest

end Requests

/-! ## What is loaded -/

section Loading

variable {host : Host} {classes : CharClasses} {selected : SourcePath} {name : Option String}
  {permissive allowEmpty : Bool}

variable (host) in
/-- The flow that goes with the artifacts, and the file system its analysis
leaves. -/
inductive FlowOf (built : Files) (artifacts : AnalysisArtifacts) (allowEmpty : Bool) :
    Bool → PortFlowMap → Files → Prop
  | permissive : FlowOf built artifacts allowEmpty true (PortFlowMap.permissive .empty) built
  | noCommands : artifacts.compileCommands = none → allowEmpty = true →
      FlowOf built artifacts allowEmpty false ⟨.empty, true⟩ built
  | analysed {compileCommands : SourcePath} {components : Dict String ComponentRecord}
      {files : Files} :
      artifacts.compileCommands = some compileCommands →
      host.extract compileCommands built = (.ok components, files) →
      FlowOf built artifacts allowEmpty false ⟨components, true⟩ files
  | failed {compileCommands : SourcePath} {text : String} {files : Files} :
      artifacts.compileCommands = some compileCommands → allowEmpty = true →
      host.extract compileCommands built = (.error text, files) →
      FlowOf built artifacts allowEmpty false ⟨.empty, true⟩ files

/-- The analysis of the sources runs no programs, and caches nothing new. -/
theorem extractFlow_does {artifacts : AnalysisArtifacts} {compileCommands : SourcePath}
    (hcommands : artifacts.compileCommands = some compileCommands) :
    (extractFlow host allowEmpty artifacts compileCommands).Does fun s r t =>
      t.ran = s.ran ∧ t.artifacts = s.artifacts
        ∧ ∀ flow, r = .ok flow → FlowOf host s.files artifacts allowEmpty false flow t.files := by
  intro s
  unfold extractFlow
  cases hextract : host.extract compileCommands s.files with
  | mk outcome files =>
    cases outcome with
    | ok components =>
      refine ⟨rfl, rfl, fun flow hflow => ?_⟩
      obtain rfl := Except.ok.inj hflow
      exact .analysed hcommands hextract
    | error text =>
      cases allowEmpty with
      | false => exact ⟨rfl, rfl, fun flow hflow => nomatch hflow⟩
      | true =>
        refine ⟨rfl, rfl, fun flow hflow => ?_⟩
        obtain rfl := Except.ok.inj hflow
        exact .failed hcommands rfl hextract

/-- A flow that is derived comes from artifacts that were just prepared, and
these are cached. -/
theorem loadFlow_does {s : Session} (hs : s.artifacts = none) :
    ∃ log, PreparesOnce host classes selected name s
        (loadFlow host classes selected name false allowEmpty s).2 log
      ∧ ∀ flow, (loadFlow host classes selected name false allowEmpty s).1 = .ok flow →
        ∃ artifacts built source, Prepared host classes selected name s artifacts built source log
          ∧ (loadFlow host classes selected name false allowEmpty s).2.artifacts = some artifacts
          ∧ FlowOf host built.files artifacts allowEmpty false flow
            (loadFlow host classes selected name false allowEmpty s).2.files := by
  have hend := @resolveAnalysisArtifacts_ends host classes selected name (!allowEmpty) s
  unfold loadFlow
  simp only [Bool.false_eq_true, if_false]
  cases hrun : resolveAnalysisArtifacts host classes selected name (!allowEmpty) s with
  | mk r t =>
    rw [hrun] at hend
    cases hend with
    | cached hcached => cases hs.symm.trans hcached
    | failed _ honce _ =>
      rw [Step.bind_error hrun]
      exact ⟨_, honce, fun flow hflow => nomatch hflow⟩
    | @prepared _ artifacts source log _ hprepared hsuffices hartifacts =>
      rw [Step.bind_ok hrun]
      have honce : ∀ {u : Session}, u.ran = t.ran → PreparesOnce host classes selected name s u log :=
        fun hran => ⟨hran.trans hprepared.ran,
          .inr ⟨source, True, hprepared.resolved, hprepared.programs⟩⟩
      cases hcommands : artifacts.compileCommands with
      | none =>
        refine ⟨log, honce rfl, fun flow hflow => ?_⟩
        obtain rfl := Except.ok.inj hflow
        refine ⟨artifacts, t, source, hprepared, hartifacts, .noCommands hcommands ?_⟩
        simpa [AnalysisArtifacts.suffices, hcommands] using hsuffices
      | some compileCommands =>
        obtain ⟨hran, hcached, hflow⟩ :=
          @extractFlow_does host allowEmpty artifacts compileCommands hcommands t
        exact ⟨log, honce hran, fun flow hok =>
          ⟨artifacts, t, source, hprepared, hcached.trans hartifacts, hflow flow hok⟩⟩

/-- A graph that is loaded is that of the one topology that answers to the
name. -/
theorem loadTopology_eq_some {files : Files} {path : SourcePath} {flow : PortFlowMap}
    {topologyName : String} {graph : LoadedTopology}
    (h : loadTopology host files path flow topologyName = some graph) :
    ∃ topologies named, host.translate files path = some topologies
      ∧ eligible topologies (some topologyName) = [named] ∧ graph = named.topology.load flow := by
  unfold loadTopology at h
  split at h
  · cases htranslate : host.translate files path with
    | none => simp [htranslate] at h
    | some topologies =>
      cases hselect : selectTopology topologies (some topologyName) with
      | error e => simp [htranslate, hselect] at h
      | ok named =>
        simp only [htranslate, hselect, Option.some.injEq] at h
        exact ⟨topologies, named, rfl, selectTopology_ok_iff.mp hselect, h.symm⟩
  · cases h

/-- The graph is read from the artifacts, and nothing else is done. -/
theorem loadGraph_of_ok {flow : PortFlowMap} {s t : Session} {artifacts : AnalysisArtifacts}
    (h : resolveAnalysisArtifacts host classes selected name false s = (.ok artifacts, t)) :
    (loadGraph host classes selected name flow s).2 = t
      ∧ ∀ graph, (loadGraph host classes selected name flow s).1 = .ok graph →
        loadTopology host t.files artifacts.topologyPath flow artifacts.topologyName
          = some graph := by
  unfold loadGraph
  rw [Step.bind_ok h]
  refine ⟨rfl, fun graph hgraph => ?_⟩
  unfold Step.read at hgraph
  dsimp only at hgraph
  cases hload : loadTopology host t.files artifacts.topologyPath flow artifacts.topologyName with
  | none => simp [hload] at hgraph
  | some loaded => simpa [hload] using hgraph

/-- Without a flow to derive, the graph's artifacts are prepared for. -/
theorem loadGraph_does {flow : PortFlowMap} {s : Session} (hs : s.artifacts = none) :
    ∃ log, PreparesOnce host classes selected name s
        (loadGraph host classes selected name flow s).2 log
      ∧ ∀ graph, (loadGraph host classes selected name flow s).1 = .ok graph →
        ∃ artifacts source, Prepared host classes selected name s artifacts
            (loadGraph host classes selected name flow s).2 source log
          ∧ loadTopology host (loadGraph host classes selected name flow s).2.files
            artifacts.topologyPath flow artifacts.topologyName = some graph := by
  have hend := @resolveAnalysisArtifacts_ends host classes selected name false s
  cases hrun : resolveAnalysisArtifacts host classes selected name false s with
  | mk r t =>
    rw [hrun] at hend
    cases hend with
    | cached hcached => cases hs.symm.trans hcached
    | failed _ honce _ =>
      unfold loadGraph
      rw [Step.bind_error hrun]
      exact ⟨_, honce, fun graph hgraph => nomatch hgraph⟩
    | @prepared _ artifacts source log _ hprepared _ _ =>
      obtain ⟨hfinal, hgraph⟩ := @loadGraph_of_ok host classes selected name flow s t artifacts hrun
      rw [hfinal]
      exact ⟨log, ⟨hprepared.ran, .inr ⟨source, True, hprepared.resolved, hprepared.programs⟩⟩,
        fun graph hok => ⟨artifacts, source, hprepared, hgraph graph hok⟩⟩

/-- **What a command analyses.** It prepares at most once, and where it gets
its graph that preparation was run to its end: the model is the one found
after it, the flow is that of the same build, and the graph is that of the one
topology of the model that answers to the name. -/
theorem inputs_exact (host : Host) (classes : CharClasses) (selected : SourcePath)
    (name : Option String) (files : Files) (permissive allowEmpty : Bool) :
    let run := loadInputs host classes selected name permissive allowEmpty ⟨files, [], none⟩
    ((run.2.ran = [] ∧ ∃ e, resolveDeploymentSource classes files selected name = .error e)
        ∨ ∃ source finished, resolveDeploymentSource classes files selected name = .ok source
          ∧ Prepares host classes files source run.2.ran finished)
      ∧ ∀ graph, run.1 = .ok graph → ∃ source artifacts flow,
        resolveDeploymentSource classes files selected name = .ok source
          ∧ Prepares host classes files source run.2.ran True
          ∧ availableArtifacts (host.replay run.2.ran files) source = some artifacts
          ∧ FlowOf host (host.replay run.2.ran files) artifacts allowEmpty permissive flow
            run.2.files
          ∧ ∃ topologies named, host.translate run.2.files artifacts.topologyPath = some topologies
            ∧ eligible topologies (some artifacts.topologyName) = [named]
            ∧ graph = named.topology.load flow := by
  let start : Session := ⟨files, [], none⟩
  -- The session starts with nothing run, so what was run is the log.
  have hlog : ∀ {t : Session} {log : List Ran}, t.ran = start.ran ++ log → log = t.ran := fun h =>
    h.symm
  cases permissive with
  | true =>
    intro run
    have hrun : run = loadGraph host classes selected name (.permissive .empty) start := rfl
    obtain ⟨log, honce, hgraph⟩ := @loadGraph_does host classes selected name
      (.permissive .empty) start rfl
    rw [← hrun] at honce hgraph
    obtain rfl := hlog honce.ran
    refine ⟨honce.programs, fun graph hok => ?_⟩
    obtain ⟨artifacts, source, hprepared, hload⟩ := hgraph graph hok
    have hbuilt : host.replay run.2.ran files = run.2.files := hprepared.files.symm
    rw [hbuilt]
    exact ⟨source, artifacts, _, hprepared.resolved, hprepared.programs, hprepared.found,
      .permissive, loadTopology_eq_some hload⟩
  | false =>
    intro run
    obtain ⟨log, honce, hflow⟩ := @loadFlow_does host classes selected name allowEmpty start rfl
    cases hfirst : loadFlow host classes selected name false allowEmpty start with
    | mk r t =>
      rw [hfirst] at honce hflow
      cases r with
      | error e =>
        have hrun : run = (.error e, t) := Step.bind_error hfirst
        rw [hrun]
        obtain rfl := hlog honce.ran
        exact ⟨honce.programs, fun graph hgraph => nomatch hgraph⟩
      | ok flow =>
        obtain ⟨artifacts, built, source, hprepared, hartifacts, hof⟩ := hflow flow rfl
        have hrun : run = loadGraph host classes selected name flow t := Step.bind_ok hfirst
        have hcached : resolveAnalysisArtifacts host classes selected name false t
            = (.ok artifacts, t) :=
          resolveAnalysisArtifacts_cached hartifacts (by simp [AnalysisArtifacts.suffices])
        obtain ⟨hfinal, hgraph⟩ :=
          @loadGraph_of_ok host classes selected name flow t t artifacts hcached
        rw [← hrun] at hfinal hgraph
        rw [hfinal]
        obtain rfl := hlog honce.ran
        refine ⟨honce.programs, fun graph hok => ?_⟩
        have hbuilt : host.replay t.ran files = built.files := hprepared.files.symm
        rw [hbuilt]
        exact ⟨source, artifacts, flow, hprepared.resolved, hprepared.programs, hprepared.found,
          hof, loadTopology_eq_some (hgraph graph hok)⟩

end Loading

/-- Programs that do what they should: the build leaves a model. -/
def demoHost : Host where
  environ := .ofList [("PATH", "/bin")]
  expanduser := id
  resolve _ text := [text]
  run command files :=
    (.ok ⟨0, "", ""⟩, if command.parts[1]? = some "build" then demoFiles true else files)
  extract _ files := (.ok .empty, files)
  translate _ path :=
    if path = ["p", "build", "Top"] then
      some [⟨"Ref", "Ref", true, ⟨[], [], List.nodup_nil⟩⟩]
    else none

/-- Nothing is configured yet in `demoFiles`, so three programs are run. -/
theorem inputs_exact_demo :
    ((loadInputs demoHost asciiClasses ["p"] none false false ⟨demoFiles false, [], none⟩).2.ran.map
        Ran.parts).map (·[1]?) = [some "info", some "generate", some "build"]
      ∧ Prepares demoHost asciiClasses (demoFiles false) demoSource
        (loadInputs demoHost asciiClasses ["p"] none false false
          ⟨demoFiles false, [], none⟩).2.ran True := by
  refine ⟨by decide +kernel, ?_⟩
  have hok : (loadInputs demoHost asciiClasses ["p"] none false false
      ⟨demoFiles false, [], none⟩).1.isOk = true := by decide +kernel
  have hexact := (inputs_exact demoHost asciiClasses ["p"] none (demoFiles false) false false).2
  cases hrun : (loadInputs demoHost asciiClasses ["p"] none false false
      ⟨demoFiles false, [], none⟩).1 with
  | error e => simp [hrun, Except.isOk, Except.toBool] at hok
  | ok graph =>
    obtain ⟨source, _, _, hsource, hprepares, _⟩ := hexact graph hrun
    have hdemo : resolveDeploymentSource asciiClasses (demoFiles false) ["p"] none
        = .ok demoSource := by decide +kernel
    obtain rfl := Except.ok.inj (hdemo.symm.trans hsource)
    exact hprepares

end Cli

end FprimeTopologyAnalysis
