/-
FprimeTopologyAnalysis.FlowCache — running the C++ extractor, with and
without its caches (`component_call_graph.py`).

A run reads the compilation database, parses the listed sources that exist
and builds the flow map. It keeps the result of each unit, and the whole
flow map, together with the stamps of the files these depend on. The next
run takes the flow map from the cache if the database and these files are
as they were.

A file a run looked for and did not find has no stamp, and neither has
what libclang read before it failed to load a unit. So the flow map of the
cache is what a run without caches gives where nothing of the kind has
changed, and otherwise it is not for every libclang
(`flowCache_coherent_iff`).

Paths stand for the files they resolve to, and the text of the database for
its digest.
-/
import FprimeTopologyAnalysis.CallGraph
import FprimeTopologyAnalysis.PortFlow
import FprimeTopologyAnalysis.Library.VerifyingTrace

namespace FprimeTopologyAnalysis.CallGraphExtractor

open Library Library.VerifyingTrace

/-! ## The file system -/

/-- `st_mtime_ns` and `st_size`. -/
abbrev Stamp := Int × Nat

/-- A file. -/
structure File where
  stamp : Stamp
  content : String
  deriving DecidableEq

/-- An entry of the compilation database: its file, and the words of its
`arguments` or `command`. -/
structure CompileEntry where
  file : Option String
  words : List String
  deriving DecidableEq

/-- A `compile_commands.json`: its text, and the entries `json.loads` finds
in it, if it is well formed. -/
structure CompileCommands where
  text : String
  entries : Option (List CompileEntry)
  deriving DecidableEq

/-- What a run can find. -/
structure FileSystem where
  files : String → Option File
  compileCommands : Option CompileCommands

namespace FileSystem

/-- `Path(path).stat()`. -/
def stamp (fs : FileSystem) (path : String) : Option Stamp := (fs.files path).map File.stamp

/-- What there is to read. -/
def contents (fs : FileSystem) (path : String) : Option String := (fs.files path).map File.content

/-- An equal stamp means an equal content. -/
def StampsTell (fs fs' : FileSystem) : Prop :=
  ∀ path f f', fs.files path = some f → fs'.files path = some f' → f.stamp = f'.stamp →
    f.content = f'.content

theorem StampsTell.of_kept {fs fs' : FileSystem}
    (h : ∀ path f, fs.files path = some f → fs'.files path = some f) : fs.StampsTell fs' := by
  intro path f f' hf hf' _
  rw [h path f hf] at hf'
  exact congrArg File.content (Option.some.inj hf')

end FileSystem

/-- What `__init__` is given. -/
structure Settings where
  compileCommands : String
  includeRe : Option (String → Bool)
  excludeRe : Option (String → Bool)
  systemIncludes : List String
  unitCacheDir : Option String
  cacheVersion : String

/-- A file and its arguments. -/
abbrev TranslationUnit := String × List String

/-- What libclang makes of a unit, from the contents of the files it looks
at. Those it looks for and does not find are among them. -/
abbrev Libclang := TranslationUnit → Reading String (Option String) Parse

/-! ## The compilation database -/

/-- `CLANG_UNKNOWN_WARNING_TOLERANCE`. -/
def clangUnknownWarningTolerance : String := "-Wno-unknown-warning-option"

/-- The loop of `_extract_args`, with its `skip_next`. -/
def extractArgsLoop (file : Option String) : Bool → List String → List String
  | _, [] => []
  | true, _ :: rest => extractArgsLoop file false rest
  | false, arg :: rest =>
    if arg = "-c" ∨ arg = "-o" then extractArgsLoop file (arg = "-o") rest
    else if some arg = file then extractArgsLoop file false rest
    else if arg = "-Werror" ∨ "-Werror=".toList <+: arg.toList then extractArgsLoop file false rest
    else arg :: extractArgsLoop file false rest

/-- `_extract_args`. -/
def extractArgs (entry : CompileEntry) : List String :=
  extractArgsLoop entry.file false (entry.words.drop 1) ++ [clangUnknownWarningTolerance]

/-- The unit of an entry that is selected. -/
def listedUnit (settings : Settings) (entry : CompileEntry) : Option TranslationUnit :=
  (entry.file.filter fun source =>
    source ≠ "" ∧ settings.includeRe.all (fun re => re source)
      ∧ ¬ settings.excludeRe.any (fun re => re source)).map
    fun source => (source, extractArgs entry ++ settings.systemIncludes)

/-- The units the database lists. -/
def listedUnits (settings : Settings) (fs : FileSystem) : List TranslationUnit :=
  ((fs.compileCommands.bind CompileCommands.entries).getD []).filterMap (listedUnit settings)

/-- Those whose source exists. -/
def existingUnits (settings : Settings) (fs : FileSystem) : List TranslationUnit :=
  (listedUnits settings fs).filter fun u => (fs.files u.1).isSome

/-- The sources that do not, generated for modules this build did not need. -/
def absentSources (settings : Settings) (fs : FileSystem) : List String :=
  ((listedUnits settings fs).filter fun u => (fs.files u.1).isNone).map Prod.fst

/-- `load_translation_units`: the units, and the sources that are no units.
It raises if there is no database or it is malformed. -/
def loadTranslationUnits (settings : Settings) (fs : FileSystem) :
    Option (List TranslationUnit × List String) :=
  (fs.compileCommands.bind CompileCommands.entries).map fun _ =>
    (existingUnits settings fs, absentSources settings fs)

/-! ## The caches -/

/-- `UNIT_CACHE_VERSION`. -/
def unitCacheVersion : Nat := 1

/-- The paths of some files, with their stamps. -/
abbrev Stamps := Finset (String × Stamp)

/-- `_dependency_stamps`. -/
def dependencyStamps (fs : FileSystem) (paths : Finset String) : Option Stamps :=
  record fs.stamp paths

/-- `_method_to_data`. -/
structure MethodData where
  cls : String
  name : String
  calls : List MethodKey
  ports : List String
  guardedPorts : List String
  fieldsRead : List String
  fieldsWritten : List String
  eventSeverities : List String
  locksTouched : List String
  isOpaque : Bool
  deriving DecidableEq

/-- `_method_to_data`. -/
def methodToData (key : MethodKey) (m : MethodInfo) : MethodData where
  cls := key.1
  name := key.2
  calls := sortKeys m.calls
  ports := sortNames m.ports
  guardedPorts := sortNames m.guardedPorts
  fieldsRead := sortNames m.fieldsRead
  fieldsWritten := sortNames m.fieldsWritten
  eventSeverities := sortNames m.eventSeverities
  locksTouched := sortNames m.locksTouched
  isOpaque := m.isOpaque

/-- `_method_from_data`, with the key of the method. -/
def methodFromData (data : MethodData) : MethodKey × MethodInfo :=
  ((data.cls, data.name), {
    calls := data.calls.toFinset
    ports := data.ports.toFinset
    guardedPorts := data.guardedPorts.toFinset
    fieldsRead := data.fieldsRead.toFinset
    fieldsWritten := data.fieldsWritten.toFinset
    eventSeverities := data.eventSeverities.toFinset
    locksTouched := data.locksTouched.toFinset
    isOpaque := data.isOpaque })

/-- The data of a unit's result. -/
structure ResultData where
  methods : List MethodData
  classComponent : Dict String String
  parsedFiles : Nat
  failedFiles : List String
  filesWithErrors : List String
  diagnosticCount : Nat
  notGenerated : List String
  missingAutocode : List String
  dependencies : List String
  deriving DecidableEq

/-- `_result_to_data`. -/
def resultToData (result : UnitResult) : ResultData where
  methods := (sortKeys result.methods.keys.toFinset).filterMap fun key =>
    (result.methods.get? key).map (methodToData key)
  classComponent := result.classComponent
  parsedFiles := result.parsedFiles
  failedFiles := result.failedFiles
  filesWithErrors := sortNames result.filesWithErrors
  diagnosticCount := result.diagnosticCount
  notGenerated := result.notGenerated
  missingAutocode := sortNames result.missingAutocode
  dependencies := sortNames result.dependencies

/-- `_result_from_data`. -/
def resultFromData (data : ResultData) : UnitResult where
  methods := Dict.ofList (data.methods.map methodFromData)
  classComponent := data.classComponent
  parsedFiles := data.parsedFiles
  failedFiles := data.failedFiles
  filesWithErrors := data.filesWithErrors.toFinset
  diagnosticCount := data.diagnosticCount
  notGenerated := data.notGenerated
  missingAutocode := data.missingAutocode.toFinset
  dependencies := data.dependencies.toFinset

/-- The file of a unit in the cache. -/
structure UnitPayload where
  version : Nat
  extractor : String
  args : List String
  dependencies : Stamps
  result : ResultData

/-- `flow.json`. -/
structure FlowPayload where
  version : Nat
  extractor : String
  compileCommands : CompileCommands
  dependencies : Stamps
  data : FlowMap

/-- The cache directory. Units are named by their source. -/
structure Caches where
  units : Dict String UnitPayload
  flow : Option FlowPayload

def Caches.empty : Caches := ⟨∅, none⟩

/-- `directory / header`. -/
def joinPath (directory header : String) : String :=
  if "/".toList <+: header.toList then header
  else if directory = "" ∨ "/".toList <:+ directory.toList then directory ++ header
  else directory ++ "/" ++ header

/-- The flags that name an include directory. -/
def includeFlags : List String := ["-I", "-isystem", "-iquote"]

/-- The directory that is attached to its flag. -/
def attachedDir (arg : String) : Option String :=
  (includeFlags.find? fun flag => flag.toList <+: arg.toList ∧ flag.length < arg.length).map
    fun flag => String.ofList (arg.toList.drop flag.length)

/-- The include directories of `_missing_header_available`. -/
def includeDirs : List String → List String
  | [] => []
  | [arg] => (attachedDir arg).toList
  | arg :: value :: rest =>
    if arg ∈ includeFlags then value :: includeDirs rest
    else (attachedDir arg).toList ++ includeDirs (value :: rest)

/-- `_missing_header_available`. -/
def missingHeaderAvailable (fs : FileSystem) (args : List String) (headers : Finset String) : Bool :=
  (includeDirs args).any fun directory =>
    decide (∃ header ∈ headers, (fs.files (joinPath directory header)).isSome)

/-- `_read_cached_unit`. -/
def readCachedUnit (settings : Settings) (fs : FileSystem) (caches : Caches) (u : TranslationUnit) :
    Option UnitResult :=
  if settings.unitCacheDir.isNone then none
  else
    match caches.units.get? u.1 with
    | none => none
    | some payload =>
      if payload.version ≠ unitCacheVersion ∨ payload.extractor ≠ settings.cacheVersion
          ∨ payload.args ≠ u.2 then none
      else if ¬ Verifies fs.stamp payload.dependencies then none
      else
        let result := resultFromData payload.result
        if result.missingAutocode ≠ ∅ ∧ missingHeaderAvailable fs u.2 result.missingAutocode then
          none
        else some result

/-- `_write_cached_unit`. -/
def writeCachedUnit (settings : Settings) (fs : FileSystem) (caches : Caches)
    (unit : TranslationUnit × UnitResult) : Caches :=
  let result := unit.2
  if settings.unitCacheDir.isNone ∨ (result.parsedFiles ≠ 1 ∧ result.notGenerated = [])
      ∨ result.failedFiles ≠ [] ∨ result.diagnosticCount ≠ 0 then caches
  else
    match dependencyStamps fs result.dependencies with
    | none => caches
    | some dependencies =>
      if dependencies = ∅ then caches
      else
        { caches with
          units := caches.units.set unit.1.1 {
            version := unitCacheVersion
            extractor := settings.cacheVersion
            args := unit.1.2
            dependencies := dependencies
            result := resultToData result } }

/-- `_read_cached_flow`. -/
def readCachedFlow (settings : Settings) (fs : FileSystem) (caches : Caches) : Option FlowMap :=
  if settings.unitCacheDir.isNone then none
  else
    match caches.flow with
    | none => none
    | some payload =>
      if payload.version ≠ unitCacheVersion ∨ payload.extractor ≠ settings.cacheVersion
          ∨ some payload.compileCommands ≠ fs.compileCommands then none
      else if ¬ Verifies fs.stamp payload.dependencies then none
      else some payload.data

/-- `_write_cached_flow`. -/
def writeCachedFlow (settings : Settings) (fs : FileSystem) (x : UnitResult) (data : FlowMap)
    (caches : Caches) : Caches :=
  match dependencyStamps fs x.dependencies, fs.compileCommands with
  | some dependencies, some commands =>
    if settings.unitCacheDir.isNone ∨ dependencies = ∅ ∨ x.diagnosticCount ≠ 0 then caches
    else
      { caches with
        flow := some {
          version := unitCacheVersion
          extractor := settings.cacheVersion
          compileCommands := commands
          dependencies := dependencies
          data := data } }
  | _, _ => caches

/-! ## A run -/

/-- `_extract_unit_result` of a unit that is parsed. -/
def parsed (clang : Libclang) (fs : FileSystem) (u : TranslationUnit) : UnitResult :=
  unitResult (u.1, (clang u).run fs.contents)

/-- The extractor after the merge loop. -/
def mergedGraph (notGenerated : List String) (results : List UnitResult) : UnitResult :=
  results.foldl mergeUnitResult { UnitResult.empty with notGenerated := notGenerated }

/-- `run`: the flow map and the caches it leaves, unless it raises. -/
def run (clang : Libclang) (settings : Settings) (fs : FileSystem) (caches : Caches) :
    Option (FlowMap × Caches) :=
  match loadTranslationUnits settings fs with
  | none => none
  | some (units, notGenerated) =>
    match readCachedFlow settings fs caches with
    | some data => some (data, caches)
    | none =>
      let pending := units.filter fun u => (readCachedUnit settings fs caches u).isNone
      let results := units.map fun u =>
        (readCachedUnit settings fs caches u).getD (parsed clang fs u)
      let written := (pending.map fun u => (u, parsed clang fs u)).foldl
        (writeCachedUnit settings fs) caches
      let x := mergedGraph notGenerated results
      let data := buildFlowMap settings.compileCommands x
      some (data, writeCachedFlow settings fs x data written)

/-! ## Coherence of the flow cache -/

/-- What a run takes from the flow cache that a first run left. -/
def reusedFlow (clang : Libclang) (settings : Settings) (fs fs' : FileSystem) : Option FlowMap :=
  match run clang settings fs .empty, loadTranslationUnits settings fs' with
  | some (_, caches), some _ => readCachedFlow settings fs' caches
  | _, _ => none

/-- A flow map that is rightly taken from the cache: a run without caches
builds it, and nothing that must prevent its reuse has happened. No listed
source has appeared, no header a unit misses has been generated, and no
unit that failed to load loads now. -/
structure Coherent (clang : Libclang) (settings : Settings) (fs fs' : FileSystem)
    (data : FlowMap) : Prop where
  fresh : (run clang settings fs' .empty).map Prod.fst = some data
  sources : ∀ u ∈ listedUnits settings fs, fs.files u.1 = none → fs'.files u.1 = none
  headers : ∀ u ∈ existingUnits settings fs, ∀ header ∈ (parsed clang fs u).missingAutocode,
    missingHeaderAvailable fs' u.2 {header} → missingHeaderAvailable fs u.2 {header}
  loads : ∀ u ∈ existingUnits settings fs,
    (clang u).run fs.contents = .loadError → (clang u).run fs'.contents = .loadError

/-- Whatever a run takes from the flow cache is rightly taken. -/
def FlowCacheCoherent (clang : Libclang) (settings : Settings) (fs fs' : FileSystem) : Prop :=
  ∀ data, reusedFlow clang settings fs fs' = some data → Coherent clang settings fs fs' data

/-- The extractor of a run without caches, its units merged. -/
def freshGraph (clang : Libclang) (settings : Settings) (fs : FileSystem) : UnitResult :=
  mergedGraph (absentSources settings fs) ((existingUnits settings fs).map (parsed clang fs))

/-- Nothing has changed that no stamp of the first run covers: a listed
source that was absent, a header a unit misses, or a file a unit looked at
that is no dependency of the run. -/
structure Undisturbed (clang : Libclang) (settings : Settings) (fs fs' : FileSystem) : Prop where
  sources : ∀ u ∈ listedUnits settings fs, fs.files u.1 = none → fs'.files u.1 = none
  headers : ∀ u ∈ existingUnits settings fs, ∀ header ∈ (parsed clang fs u).missingAutocode,
    missingHeaderAvailable fs' u.2 {header} → missingHeaderAvailable fs u.2 {header}
  reads : ∀ u ∈ existingUnits settings fs, ∀ path ∈ (clang u).reads fs.contents,
    path ∉ (freshGraph clang settings fs).dependencies → fs'.contents path = fs.contents path

/-- Two libclangs that cannot be told apart in `fs`. -/
def Alike (clang clang' : Libclang) (fs : FileSystem) : Prop :=
  ∀ u, Reading.Alike (clang u) (clang' u) fs.contents

/-! ### What a run without caches records -/

/-- A unit depends on its source. -/
theorem source_mem_dependencies (u : SourceUnit) : u.1 ∈ (unitResult u).dependencies := by
  obtain ⟨source, parse⟩ := u
  cases parse with
  | loadError => exact Finset.mem_insert_self ..
  | unit includes errors nodes =>
    have hsource : source ∈ insert source UnitResult.empty.dependencies ∪ includes.toFinset :=
      Finset.mem_union_left _ (Finset.mem_insert_self ..)
    unfold unitResult parseUnit
    by_cases hmissing : (errors.filterMap id).toFinset ≠ ∅
    · simpa only [if_pos hmissing] using hsource
    · simp only [if_neg hmissing, walkMethods_eq]
      split <;> exact hsource

/-- It fails as a whole. -/
theorem failedFiles_unitResult (u : SourceUnit) :
    (unitResult u).failedFiles.length = if u.2 = .loadError then 1 else 0 := by
  obtain ⟨source, parse⟩ := u
  cases parse with
  | loadError => rfl
  | unit includes errors nodes =>
    have hne : Parse.unit includes errors nodes ≠ .loadError := Parse.noConfusion
    rw [if_neg hne]
    unfold unitResult parseUnit
    by_cases hmissing : (errors.filterMap id).toFinset ≠ ∅
    · simp only [if_pos hmissing]
      rfl
    · simp only [if_neg hmissing, walkMethods_eq]
      split <;> rfl

theorem dependencies_foldl_merge (results : List UnitResult) : ∀ x : UnitResult,
    x.dependencies ⊆ (results.foldl mergeUnitResult x).dependencies
      ∧ ∀ r ∈ results, r.dependencies ⊆ (results.foldl mergeUnitResult x).dependencies := by
  induction results with
  | nil => exact fun x => ⟨subset_rfl, fun r hr => by simp at hr⟩
  | cons result results ih =>
    intro x
    obtain ⟨hx, hresults⟩ := ih (mergeUnitResult x result)
    refine ⟨Finset.subset_union_left.trans hx, fun r hr => ?_⟩
    rcases List.mem_cons.mp hr with rfl | hr
    · exact Finset.subset_union_right.trans hx
    · exact hresults r hr

theorem failedFiles_foldl_merge (results : List UnitResult) : ∀ x : UnitResult,
    (results.foldl mergeUnitResult x).failedFiles.length
      = x.failedFiles.length + (results.map fun r => r.failedFiles.length).sum := by
  induction results with
  | nil => exact fun x => rfl
  | cons result results ih =>
    intro x
    rw [List.foldl_cons, ih, List.map_cons, List.sum_cons, ← Nat.add_assoc]
    simp [mergeUnitResult]

section Fresh

variable (clang : Libclang) (settings : Settings) (fs : FileSystem)

theorem source_mem_freshGraph {u : TranslationUnit} (h : u ∈ existingUnits settings fs) :
    u.1 ∈ (freshGraph clang settings fs).dependencies :=
  (dependencies_foldl_merge _ _).2 _ (List.mem_map_of_mem h)
    (source_mem_dependencies (u.1, (clang u).run fs.contents))

/-- As many files fail as units do. -/
theorem failedFiles_freshGraph :
    (freshGraph clang settings fs).failedFiles.length
      = (existingUnits settings fs).countP fun u => (clang u).run fs.contents = .loadError := by
  rw [freshGraph, mergedGraph, failedFiles_foldl_merge, List.map_map]
  induction existingUnits settings fs with
  | nil => rfl
  | cons u units ih =>
    have hu := failedFiles_unitResult (u.1, (clang u).run fs.contents)
    rw [List.map_cons, List.sum_cons, List.countP_cons, ← ih]
    simp only [UnitResult.empty, List.length_nil, Function.comp_apply, parsed, hu,
      decide_eq_true_eq]
    omega

theorem readCachedUnit_empty (u : TranslationUnit) : readCachedUnit settings fs .empty u = none := by
  simp [readCachedUnit, Caches.empty]

theorem readCachedFlow_empty : readCachedFlow settings fs .empty = none := by
  simp [readCachedFlow, Caches.empty]

/-- Keeping a unit does not touch the flow map. -/
theorem writeCachedUnit_flow (caches : Caches) (unit : TranslationUnit × UnitResult) :
    (writeCachedUnit settings fs caches unit).flow = caches.flow := by
  unfold writeCachedUnit
  dsimp only
  split
  · rfl
  · split
    · rfl
    · split <;> rfl

theorem foldl_writeCachedUnit_flow (units : List (TranslationUnit × UnitResult)) :
    ∀ caches, (units.foldl (writeCachedUnit settings fs) caches).flow = caches.flow := by
  induction units with
  | nil => exact fun caches => rfl
  | cons unit units ih =>
    intro caches
    rw [List.foldl_cons, ih, writeCachedUnit_flow]

/-- The flow map of a run without caches. -/
def freshFlow : FlowMap := buildFlowMap settings.compileCommands (freshGraph clang settings fs)

/-- A run without caches builds the fresh flow map and keeps it. -/
theorem run_empty {entries : List CompileEntry}
    (h : fs.compileCommands.bind CompileCommands.entries = some entries) :
    ∃ written : Caches, written.flow = none
      ∧ run clang settings fs .empty
        = some (freshFlow clang settings fs,
          writeCachedFlow settings fs (freshGraph clang settings fs) (freshFlow clang settings fs)
            written) := by
  refine ⟨_, foldl_writeCachedUnit_flow settings fs
    ((existingUnits settings fs).map fun u => (u, parsed clang fs u)) .empty, ?_⟩
  simp only [run, loadTranslationUnits, h, Option.map_some, readCachedFlow_empty,
    readCachedUnit_empty, Option.isNone_none, List.filter_true, Option.getD_none]
  rfl

end Fresh

/-! ### What a hit says -/

/-- The database is as it was, and so is every dependency of the first run. -/
structure Unchanged (clang : Libclang) (settings : Settings) (fs fs' : FileSystem) : Prop where
  commands : fs'.compileCommands = fs.compileCommands
  readable : ∃ entries, fs.compileCommands.bind CompileCommands.entries = some entries
  stamps : ∀ path ∈ (freshGraph clang settings fs).dependencies,
    ∃ stamp, fs.stamp path = some stamp ∧ fs'.stamp path = some stamp

section Hit

variable {clang clang' : Libclang} {settings : Settings} {fs fs' : FileSystem} {data : FlowMap}

theorem Alike.parsed_eq (h : Alike clang clang' fs) : parsed clang' fs = parsed clang fs := by
  funext u
  rw [parsed, parsed, (h u).run]

theorem Alike.freshGraph_eq (h : Alike clang clang' fs) :
    freshGraph clang' settings fs = freshGraph clang settings fs := by
  rw [freshGraph, freshGraph, h.parsed_eq]

/-- What a run leaves in the cache is up to what libclang makes of that
state of the files. -/
theorem Alike.reusedFlow_eq (h : Alike clang clang' fs) :
    reusedFlow clang' settings fs fs' = reusedFlow clang settings fs fs' := by
  simp only [reusedFlow, run, h.parsed_eq]

/-- What is kept of the flow map, if anything is. -/
theorem writeCachedFlow_flow {x : UnitResult} {caches : Caches} (hempty : caches.flow = none)
    {payload : FlowPayload}
    (h : (writeCachedFlow settings fs x data caches).flow = some payload) :
    payload.data = data ∧ some payload.compileCommands = fs.compileCommands
      ∧ dependencyStamps fs x.dependencies = some payload.dependencies := by
  unfold writeCachedFlow at h
  split at h
  · rename_i dependencies commands hdeps hcommands
    split at h
    · rw [hempty] at h
      cases h
    · obtain rfl := Option.some.inj h
      exact ⟨rfl, hcommands.symm, hdeps⟩
  · rw [hempty] at h
    cases h

/-- A hit needs a payload whose database and stamps are as recorded. -/
theorem readCachedFlow_some {caches : Caches} (h : readCachedFlow settings fs caches = some data) :
    ∃ payload, caches.flow = some payload ∧ some payload.compileCommands = fs.compileCommands
      ∧ Verifies fs.stamp payload.dependencies ∧ payload.data = data := by
  unfold readCachedFlow at h
  split at h
  · cases h
  · cases hflow : caches.flow with
    | none => rw [hflow] at h; cases h
    | some payload =>
      simp only [hflow] at h
      split at h
      · cases h
      · rename_i hsame
        split at h
        · cases h
        · rename_i hverifies
          push Not at hsame hverifies
          exact ⟨payload, rfl, hsame.2.2, hverifies, Option.some.inj h⟩

/-- **A hit**: it gives the flow map of the first run, and nothing that run
depends on has changed. -/
theorem reusedFlow_some (h : reusedFlow clang settings fs fs' = some data) :
    data = freshFlow clang settings fs ∧ Unchanged clang settings fs fs' := by
  cases hread : fs.compileCommands.bind CompileCommands.entries with
  | none =>
    have hrun : run clang settings fs .empty = none := by
      simp only [run, loadTranslationUnits, hread, Option.map_none]
    simp only [reusedFlow, hrun] at h
    cases h
  | some entries =>
    obtain ⟨written, hwritten, hrun⟩ := run_empty clang settings fs hread
    simp only [reusedFlow, hrun] at h
    split at h
    · rename_i hcaches _
      obtain ⟨-, rfl⟩ := Prod.mk.inj (Option.some.inj hcaches)
      obtain ⟨payload, hflow, hcommands, hverifies, hdata⟩ := readCachedFlow_some h
      obtain ⟨hfresh, hcommands', hdeps⟩ := writeCachedFlow_flow hwritten hflow
      exact ⟨hdata.symm.trans hfresh, {
        commands := hcommands.symm.trans hcommands'
        readable := ⟨entries, hread⟩
        stamps := fun path hpath => hverifies.of_record hdeps hpath }⟩
    · cases h

namespace Unchanged

theorem listedUnits_eq (h : Unchanged clang settings fs fs') :
    listedUnits settings fs' = listedUnits settings fs := by
  rw [listedUnits, listedUnits, h.commands]

/-- A dependency has the content it had, as far as stamps tell. -/
theorem contents_eq (h : Unchanged clang settings fs fs') (htell : fs.StampsTell fs') {path : String}
    (hpath : path ∈ (freshGraph clang settings fs).dependencies) :
    fs'.contents path = fs.contents path := by
  obtain ⟨stamp, hstamp, hstamp'⟩ := h.stamps path hpath
  obtain ⟨f, hf, hfs⟩ := Option.map_eq_some_iff.mp hstamp
  obtain ⟨f', hf', hfs'⟩ := Option.map_eq_some_iff.mp hstamp'
  have hcontent := htell path f f' hf hf' (hfs.trans hfs'.symm)
  simp [FileSystem.contents, hf, hf', hcontent]

/-- A listed source exists if it did, and otherwise it is as it was unless
it has appeared. -/
theorem isSome_iff (h : Unchanged clang settings fs fs')
    (hsources : ∀ u ∈ listedUnits settings fs, fs.files u.1 = none → fs'.files u.1 = none)
    {u : TranslationUnit} (hu : u ∈ listedUnits settings fs) :
    (fs'.files u.1).isSome = (fs.files u.1).isSome := by
  cases hf : fs.files u.1 with
  | none => rw [hsources u hu hf]
  | some f =>
    have hexists : u ∈ existingUnits settings fs := List.mem_filter.mpr ⟨hu, by simp [hf]⟩
    obtain ⟨stamp, -, hstamp⟩ := h.stamps u.1 (source_mem_freshGraph clang settings fs hexists)
    obtain ⟨f', hf', -⟩ := Option.map_eq_some_iff.mp hstamp
    simp [hf']

theorem existingUnits_eq (h : Unchanged clang settings fs fs')
    (hsources : ∀ u ∈ listedUnits settings fs, fs.files u.1 = none → fs'.files u.1 = none) :
    existingUnits settings fs' = existingUnits settings fs := by
  rw [existingUnits, existingUnits, h.listedUnits_eq]
  exact List.filter_congr fun u hu => h.isSome_iff hsources hu

theorem absentSources_eq (h : Unchanged clang settings fs fs')
    (hsources : ∀ u ∈ listedUnits settings fs, fs.files u.1 = none → fs'.files u.1 = none) :
    absentSources settings fs' = absentSources settings fs := by
  rw [absentSources, absentSources, h.listedUnits_eq]
  congr 1
  refine List.filter_congr fun u hu => ?_
  rw [← Option.not_isSome, ← Option.not_isSome, h.isSome_iff hsources hu]

end Unchanged

/-- Where nothing has changed at all that a run looked at, a unit parses as
it did. -/
theorem Undisturbed.run_eq (h : Undisturbed clang settings fs fs')
    (hunchanged : Unchanged clang settings fs fs') (htell : fs.StampsTell fs')
    (halike : Alike clang clang' fs) {u : TranslationUnit} (hu : u ∈ existingUnits settings fs) :
    (clang' u).run fs'.contents = (clang' u).run fs.contents := by
  refine (clang' u).run_eq fun path hpath => ?_
  rw [(halike u).reads] at hpath
  by_cases hdep : path ∈ (freshGraph clang settings fs).dependencies
  · exact hunchanged.contents_eq htell hdep
  · exact h.reads u hu path hpath hdep

/-- So a run without caches builds the flow map of the first run. -/
theorem Undisturbed.coherent (h : Undisturbed clang settings fs fs') (htell : fs.StampsTell fs')
    (halike : Alike clang clang' fs) (hunchanged : Unchanged clang settings fs fs') :
    Coherent clang' settings fs fs' (freshFlow clang settings fs) := by
  have hrun := fun u hu => h.run_eq hunchanged htell halike (u := u) hu
  have hgraph : freshGraph clang' settings fs' = freshGraph clang settings fs := by
    rw [← halike.freshGraph_eq, freshGraph, freshGraph, hunchanged.existingUnits_eq h.sources,
      hunchanged.absentSources_eq h.sources]
    congr 1
    refine List.map_congr_left fun u hu => ?_
    rw [parsed, parsed, hrun u hu]
  obtain ⟨entries, hread⟩ := hunchanged.readable
  rw [← hunchanged.commands] at hread
  obtain ⟨written, -, hfresh⟩ := run_empty clang' settings fs' hread
  exact {
    fresh := by rw [hfresh, Option.map_some, freshFlow, freshFlow, hgraph]
    sources := h.sources
    headers := halike.parsed_eq ▸ h.headers
    loads := fun u hu hload => (hrun u hu).trans hload }

end Hit

/-! ### Nothing less is enough -/

/-- Another answer. -/
def contrary : Parse → Parse
  | .loadError => .unit [] [] []
  | .unit .. => .loadError

/-- A libclang that answers otherwise once something a unit looked at has
changed. -/
def divertAll (clang : Libclang) (fs : FileSystem) : Libclang := fun u =>
  (clang u).divert fs.contents (contrary ((clang u).run fs.contents))

theorem divertAll_alike (clang : Libclang) (fs : FileSystem) : Alike clang (divertAll clang fs) fs :=
  fun u => (clang u).divert_alike fs.contents _

private theorem countP_lt {α : Type} {p q : α → Bool} {l : List α} (h : ∀ x ∈ l, p x → q x) {x : α}
    (hx : x ∈ l) (hq : q x) (hp : ¬ p x) : l.countP p < l.countP q := by
  obtain ⟨front, rest, rfl⟩ := List.append_of_mem hx
  have hfront : front.countP p ≤ front.countP q :=
    List.countP_mono_left fun y hy => h y (List.mem_append_left _ hy)
  have hrest : rest.countP p ≤ rest.countP q :=
    List.countP_mono_left fun y hy => h y (List.mem_append_right _ (List.mem_cons_of_mem _ hy))
  simp only [List.countP_append, List.countP_cons, if_pos hq, if_neg hp]
  omega

section Exact

variable {clang : Libclang} {settings : Settings} {fs fs' : FileSystem}

/-- Once something a unit looked at has changed, there is a libclang for
which the flow map of the cache is out of date: it fails to load more units,
or loads one that failed. -/
theorem not_coherent_divertAll (hunchanged : Unchanged clang settings fs fs') {u : TranslationUnit}
    (hu : u ∈ existingUnits settings fs) {path : String} (hpath : path ∈ (clang u).reads fs.contents)
    (hne : fs'.contents path ≠ fs.contents path) :
    ¬ Coherent (divertAll clang fs) settings fs fs' (freshFlow clang settings fs) := by
  intro hcoherent
  have hdiverted : (divertAll clang fs u).run fs'.contents = contrary ((clang u).run fs.contents) :=
    Reading.divert_of_changed hpath hne _
  have hloads : ∀ v ∈ existingUnits settings fs, (clang v).run fs.contents = .loadError →
      (divertAll clang fs v).run fs'.contents = .loadError := fun v hv hload =>
    hcoherent.loads v hv ((divertAll_alike clang fs v).run.trans hload)
  have hloaded : (clang u).run fs.contents ≠ .loadError := by
    intro hload
    have hagain := hloads u hu hload
    rw [hdiverted, hload] at hagain
    cases hagain
  have hfails : (divertAll clang fs u).run fs'.contents = .loadError := by
    rw [hdiverted]
    cases hparse : (clang u).run fs.contents with
    | loadError => exact absurd hparse hloaded
    | unit includes errors nodes => rfl
  -- so one more unit fails in the second run
  have hmore : (existingUnits settings fs).countP (fun v => (clang v).run fs.contents = .loadError)
      < (existingUnits settings fs).countP
          fun v => (divertAll clang fs v).run fs'.contents = .loadError :=
    countP_lt (fun v hv hload => by simpa using hloads v hv (by simpa using hload)) hu
      (by simpa using hfails) (by simpa using hloaded)
  obtain ⟨entries, hread⟩ := hunchanged.readable
  rw [← hunchanged.commands] at hread
  obtain ⟨written, -, hrun⟩ := run_empty (divertAll clang fs) settings fs' hread
  have hflow : freshFlow (divertAll clang fs) settings fs' = freshFlow clang settings fs := by
    simpa [hrun] using hcoherent.fresh
  have hfailed : (freshGraph (divertAll clang fs) settings fs').failedFiles
      = (freshGraph clang settings fs).failedFiles := congrArg FlowMap.failedFiles hflow
  have hcount := congrArg List.length hfailed
  rw [failedFiles_freshGraph, failedFiles_freshGraph,
    hunchanged.existingUnits_eq hcoherent.sources] at hcount
  omega

end Exact

/-- A libclang that looks at the source only, for sources without code. -/
def emptyClang : Libclang := fun u => {
  run := fun contents => if contents u.1 = none then .loadError else .unit [] [] []
  reads := fun _ => {u.1}
  run_eq := fun h => by simp only [h u.1 (Finset.mem_singleton_self _)] }

/-- A database that lists two sources. -/
def twoSources : CompileCommands where
  text := "a.cpp b.cpp"
  entries := some [⟨some "a.cpp", ["c++", "-c", "a.cpp"]⟩, ⟨some "b.cpp", ["c++", "-c", "b.cpp"]⟩]

def cachedSettings : Settings := ⟨"compile_commands.json", none, none, [], some "units", "1"⟩

/-- Before `b.cpp` is generated. -/
def ungenerated : FileSystem where
  files path := if path = "a.cpp" then some ⟨(1, 0), ""⟩ else none
  compileCommands := some twoSources

theorem path_of_ungenerated {path : String} {f : File} (h : ungenerated.files path = some f) :
    path = "a.cpp" := by
  by_contra hne
  simp [ungenerated, hne] at h

/-- After it is. -/
def generated : FileSystem where
  files path := if path = "a.cpp" ∨ path = "b.cpp" then some ⟨(1, 0), ""⟩ else none
  compileCommands := some twoSources

/-- After a file no unit looks at is written. -/
def annotated : FileSystem where
  files path :=
    if path = "a.cpp" then some ⟨(1, 0), ""⟩
    else if path = "notes.txt" then some ⟨(2, 4), "TODO"⟩
    else none
  compileCommands := some twoSources

end FprimeTopologyAnalysis.CallGraphExtractor
