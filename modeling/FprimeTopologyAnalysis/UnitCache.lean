/-
FprimeTopologyAnalysis.UnitCache — the files of the unit cache, and a run
that takes some units from them (`component_call_graph.py`).

A unit's result is kept as a JSON text. JSON has no sets, tuples or
dictionaries keyed by tuples, so the codec is written by hand; on the text
it writes it is exact, up to the order in which the methods were found
(`loadResult_dumpResult`).

A run takes what it can from the cache and parses the rest, in one process
or in several, and fills the results in by the index of their unit
(`runUnits`). It is the run of `FlowCache` over files that hold what its
caches hold (`run_runUnits`), and what the units make together is what they
make when all are parsed (`mixedRun_eq_fresh`).

A parse is any function of the unit: how the files of a unit change between
two runs is the subject of `FlowCache`.
-/
import FprimeTopologyAnalysis.FlowCache
import FprimeTopologyAnalysis.Library.Json
import FprimeTopologyAnalysis.Library.Slots

namespace FprimeTopologyAnalysis.CallGraphExtractor

open Library Library.VerifyingTrace

/-! ## The codec -/

/-- `list(call)`. -/
def callToJson (call : MethodKey) : Json := .arr [.str call.1, .str call.2]

/-- `tuple(call)`. A list of any other shape counts as malformed. -/
def callOfJson : Json → Option MethodKey
  | .arr [.str cls, .str name] => some (cls, name)
  | _ => none

/-- The dictionary of `_method_to_data`. -/
def MethodData.toJson (data : MethodData) : Json :=
  .obj [
    ("cls", .str data.cls),
    ("name", .str data.name),
    ("calls", .arr (data.calls.map callToJson)),
    ("ports", .ofNames data.ports),
    ("guarded_ports", .ofNames data.guardedPorts),
    ("fields_read", .ofNames data.fieldsRead),
    ("fields_written", .ofNames data.fieldsWritten),
    ("event_severities", .ofNames data.eventSeverities),
    ("locks_touched", .ofNames data.locksTouched),
    ("opaque", .bool data.isOpaque)]

/-- What `_method_from_data` reads. -/
def MethodData.ofJson (data : Json) : Option MethodData := do
  let cls ← (data.field "cls").bind Json.str?
  let name ← (data.field "name").bind Json.str?
  let calls ← (data.field "calls").bind (Json.listOf callOfJson)
  let ports ← (data.field "ports").bind (Json.listOf Json.str?)
  let guardedPorts ← (data.field "guarded_ports").bind (Json.listOf Json.str?)
  let fieldsRead ← (data.field "fields_read").bind (Json.listOf Json.str?)
  let fieldsWritten ← (data.field "fields_written").bind (Json.listOf Json.str?)
  let eventSeverities ← (data.field "event_severities").bind (Json.listOf Json.str?)
  let locksTouched ← (data.field "locks_touched").bind (Json.listOf Json.str?)
  let isOpaque ← (data.field "opaque").bind Json.bool?
  pure ⟨cls, name, calls, ports, guardedPorts, fieldsRead, fieldsWritten, eventSeverities,
    locksTouched, isOpaque⟩

/-- The fields of a dictionary of texts. -/
def textsToJson (texts : Dict String String) : Json :=
  .obj (texts.entries.map fun e => (e.1, .str e.2))

/-- A dictionary of texts. -/
def textsOfJson (data : Json) : Option (Dict String String) := do
  let d ← data.dict?
  let entries ← d.entries.mapM fun e => e.2.str?.map (Prod.mk e.1)
  pure (Dict.ofList entries)

/-- The dictionary of `_result_to_data`. -/
def ResultData.toJson (data : ResultData) : Json :=
  .obj [
    ("methods", .arr (data.methods.map MethodData.toJson)),
    ("class_component", textsToJson data.classComponent),
    ("parsed_files", .int data.parsedFiles),
    ("failed_files", .ofNames data.failedFiles),
    ("files_with_errors", .ofNames data.filesWithErrors),
    ("diagnostic_count", .int data.diagnosticCount),
    ("not_generated", .ofNames data.notGenerated),
    ("missing_autocode", .ofNames data.missingAutocode),
    ("dependencies", .ofNames data.dependencies)]

/-- What `_result_from_data` reads. -/
def ResultData.ofJson (data : Json) : Option ResultData := do
  let methods ← (data.field "methods").bind (Json.listOf MethodData.ofJson)
  let classComponent ← (data.field "class_component").bind textsOfJson
  let parsedFiles ← (data.field "parsed_files").bind Json.nat?
  let failedFiles ← (data.field "failed_files").bind (Json.listOf Json.str?)
  let filesWithErrors ← (data.field "files_with_errors").bind (Json.listOf Json.str?)
  let diagnosticCount ← (data.field "diagnostic_count").bind Json.nat?
  let notGenerated ← (data.field "not_generated").bind (Json.listOf Json.str?)
  let missingAutocode ← (data.field "missing_autocode").bind (Json.listOf Json.str?)
  let dependencies ← (data.field "dependencies").bind (Json.listOf Json.str?)
  pure ⟨methods, classComponent, parsedFiles, failedFiles, filesWithErrors, diagnosticCount,
    notGenerated, missingAutocode, dependencies⟩

/-- The stamps by path, sorted. -/
def sortStamps (stamps : Stamps) : List (String × Stamp) :=
  ((stamps.image fun p => toLex (p.1, toLex p.2)).sort (· ≤ ·)).map fun p =>
    ((ofLex p).1, ofLex (ofLex p).2)

/-- `[stat.st_mtime_ns, stat.st_size]`. -/
def stampToJson (stamp : Stamp) : Json := .arr [.int stamp.1, .int stamp.2]

def stampOfJson : Json → Option Stamp
  | .arr [.int mtime, .int (.ofNat size)] => some (mtime, size)
  | _ => none

/-- The stamps of a unit's file. -/
def stampsOfJson (data : Json) : Option Stamps := do
  let d ← data.dict?
  let stamps ← d.entries.mapM fun e => (stampOfJson e.2).map (Prod.mk e.1)
  pure stamps.toFinset

/-- The `payload` of `_write_cached_unit`. -/
def UnitPayload.toJson (payload : UnitPayload) : Json :=
  .obj [
    ("version", .int payload.version),
    ("extractor", .str payload.extractor),
    ("args", .ofNames payload.args),
    ("dependencies", .obj ((sortStamps payload.dependencies).map fun p => (p.1, stampToJson p.2))),
    ("result", payload.result.toJson)]

/-- What `_read_cached_unit` reads of it. -/
def UnitPayload.ofJson (payload : Json) : Option UnitPayload := do
  let version ← (payload.field "version").bind Json.nat?
  let extractor ← (payload.field "extractor").bind Json.str?
  let args ← (payload.field "args").bind (Json.listOf Json.str?)
  let dependencies ← (payload.field "dependencies").bind stampsOfJson
  let result ← (payload.field "result").bind ResultData.ofJson
  pure ⟨version, extractor, args, dependencies, result⟩

/-! ### It is exact -/

/-- Looking a field up among some that are written out. -/
theorem field_obj (fields : List (String × Json)) (name : String) :
    (Json.obj fields).field name = (Dict.ofList fields).get? name := rfl

theorem MethodData.ofJson_toJson (data : MethodData) : ofJson data.toJson = some data := by
  have hcalls : Json.listOf callOfJson (.arr (data.calls.map callToJson)) = some data.calls :=
    Json.listOf_arr (fun _ => by rfl) data.calls
  simp [ofJson, toJson, field_obj, Dict.ofList, hcalls, Json.str?, Json.bool?]

theorem textsOfJson_toJson (texts : Dict String String) :
    textsOfJson (textsToJson texts) = some texts := by
  have hnd : ((texts.entries.map fun e => (e.1, Json.str e.2)).map Prod.fst).Nodup := by
    rw [List.map_map]
    exact texts.nodupKeys
  have hread : (texts.entries.map fun e => (e.1, Json.str e.2)).mapM
      (fun e => e.2.str?.map (Prod.mk e.1)) = some texts.entries :=
    Json.mapM_map (fun _ => by rfl) texts.entries
  simp [textsOfJson, textsToJson, Json.dict?, Dict.entries_ofList hnd, hread]

theorem ResultData.ofJson_toJson (data : ResultData) : ofJson data.toJson = some data := by
  have hmethods := Json.listOf_arr MethodData.ofJson_toJson data.methods
  simp [ofJson, toJson, field_obj, Dict.ofList, hmethods, textsOfJson_toJson, Json.nat?]

theorem mem_sortStamps {stamps : Stamps} {p : String × Stamp} :
    p ∈ sortStamps stamps ↔ p ∈ stamps := by
  simp only [sortStamps, List.mem_map, Finset.mem_sort, Finset.mem_image]
  constructor
  · rintro ⟨_, ⟨q, hq, rfl⟩, rfl⟩
    exact hq
  · exact fun h => ⟨toLex (p.1, toLex p.2), ⟨p, h, rfl⟩, rfl⟩

/-- A path of a trace has one stamp. -/
theorem nodup_sortStamps {f : String → Option Stamp} {stamps : Stamps} (h : Verifies f stamps) :
    ((sortStamps stamps).map Prod.fst).Nodup := by
  have hnd : (sortStamps stamps).Nodup := by
    refine List.Nodup.map (fun p q hpq => ?_) (Finset.sort_nodup _ _)
    have hfst : (ofLex p).1 = (ofLex q).1 := congrArg (fun r : String × Stamp => r.1) hpq
    have hsnd : (ofLex p).2 = (ofLex q).2 := congrArg (fun r : String × Stamp => toLex r.2) hpq
    exact ofLex_inj.mp (Prod.ext hfst hsnd)
  refine List.Nodup.map_on (fun p hp q hq hpq => ?_) hnd
  have hstamp := h p (mem_sortStamps.mp hp)
  rw [hpq, h q (mem_sortStamps.mp hq)] at hstamp
  exact Prod.ext hpq (Option.some.inj hstamp.symm)

theorem stampsOfJson_toJson {f : String → Option Stamp} {stamps : Stamps} (h : Verifies f stamps) :
    stampsOfJson (.obj ((sortStamps stamps).map fun p => (p.1, stampToJson p.2))) = some stamps := by
  have hnd : (((sortStamps stamps).map fun p => (p.1, stampToJson p.2)).map Prod.fst).Nodup := by
    rw [List.map_map]
    exact nodup_sortStamps h
  have hread : ((sortStamps stamps).map fun p => (p.1, stampToJson p.2)).mapM
      (fun e => (stampOfJson e.2).map (Prod.mk e.1)) = some (sortStamps stamps) :=
    Json.mapM_map (fun _ => by rfl) (sortStamps stamps)
  have hstamps : (sortStamps stamps).toFinset = stamps := by
    ext p
    rw [List.mem_toFinset, mem_sortStamps]
  simp [stampsOfJson, Json.dict?, Dict.entries_ofList hnd, hread, hstamps]

theorem UnitPayload.ofJson_toJson {f : String → Option Stamp} {payload : UnitPayload}
    (h : Verifies f payload.dependencies) : ofJson payload.toJson = some payload := by
  simp [ofJson, toJson, field_obj, Dict.ofList, stampsOfJson_toJson h, ResultData.ofJson_toJson,
    Json.nat?, Json.str?]

/-! ## Equal results -/

/-- Results that are equal: their methods are, in whatever order they were
found. -/
structure SameResult (x y : UnitResult) : Prop where
  methods : ∀ key, x.methods.get? key = y.methods.get? key
  classComponent : x.classComponent = y.classComponent
  parsedFiles : x.parsedFiles = y.parsedFiles
  failedFiles : x.failedFiles = y.failedFiles
  filesWithErrors : x.filesWithErrors = y.filesWithErrors
  diagnosticCount : x.diagnosticCount = y.diagnosticCount
  notGenerated : x.notGenerated = y.notGenerated
  missingAutocode : x.missingAutocode = y.missingAutocode
  dependencies : x.dependencies = y.dependencies

theorem SameResult.refl (x : UnitResult) : SameResult x x where
  methods _ := rfl
  classComponent := rfl
  parsedFiles := rfl
  failedFiles := rfl
  filesWithErrors := rfl
  diagnosticCount := rfl
  notGenerated := rfl
  missingAutocode := rfl
  dependencies := rfl

/-- Merging equal results gives equal extractors. -/
theorem SameResult.merge {x y r s : UnitResult} (h : SameResult x y) (hr : SameResult r s) :
    SameResult (mergeUnitResult x r) (mergeUnitResult y s) where
  methods key := by simp only [mergeUnitResult, Dict.get?_update, h.methods, hr.methods]
  classComponent := by simp only [mergeUnitResult, h.classComponent, hr.classComponent]
  parsedFiles := by simp only [mergeUnitResult, h.parsedFiles, hr.parsedFiles]
  failedFiles := by simp only [mergeUnitResult, h.failedFiles, hr.failedFiles]
  filesWithErrors := by simp only [mergeUnitResult, h.filesWithErrors, hr.filesWithErrors]
  diagnosticCount := by simp only [mergeUnitResult, h.diagnosticCount, hr.diagnosticCount]
  notGenerated := by simp only [mergeUnitResult, h.notGenerated, hr.notGenerated]
  missingAutocode := by simp only [mergeUnitResult, h.missingAutocode, hr.missingAutocode]
  dependencies := by simp only [mergeUnitResult, h.dependencies, hr.dependencies]

theorem SameResult.foldl_merge {results results' : List UnitResult}
    (h : List.Forall₂ SameResult results results') : ∀ {x y : UnitResult}, SameResult x y →
      SameResult (results.foldl mergeUnitResult x) (results'.foldl mergeUnitResult y) := by
  induction h with
  | nil => exact fun hxy => hxy
  | cons hr _ ih => exact fun hxy => ih (hxy.merge hr)

/-- The flow map does not show the order of the methods. -/
theorem SameResult.buildFlowMap_eq {x y : UnitResult} (h : SameResult x y) (compileCommands : String) :
    buildFlowMap compileCommands x = buildFlowMap compileCommands y := by
  have hanswers : SameAnswers x y := {
    methods := h.methods
    components := fun _ _ _ => by rw [h.classComponent] }
  simp only [buildFlowMap, h.classComponent, h.parsedFiles, h.failedFiles, h.notGenerated,
    hanswers.flowComponents_eq]

/-! ### A result and its data -/

theorem toFinset_sortKeys (keys : Finset MethodKey) : (sortKeys keys).toFinset = keys := by
  ext key
  rw [List.mem_toFinset, mem_sortKeys]

theorem toFinset_sortNames (names : Finset String) : (sortNames names).toFinset = names :=
  Finset.sort_toFinset names _

theorem nodup_sortKeys (keys : Finset MethodKey) : (sortKeys keys).Nodup :=
  (Finset.sort_nodup _ _).map ofLex.injective

theorem methodFromData_methodToData (key : MethodKey) (m : MethodInfo) :
    methodFromData (methodToData key m) = (key, m) := by
  simp only [methodFromData, methodToData, toFinset_sortKeys, toFinset_sortNames]

/-- The methods of the data, with their keys. -/
theorem methods_resultToData (result : UnitResult) :
    (resultToData result).methods.map methodFromData
      = (sortKeys result.methods.keys.toFinset).filterMap fun key =>
          (result.methods.get? key).map (Prod.mk key) := by
  simp only [resultToData, List.map_filterMap, Option.map_map]
  congr 1
  funext key
  cases result.methods.get? key with
  | none => rfl
  | some m => exact congrArg some (methodFromData_methodToData key m)

theorem resultFromData_resultToData (result : UnitResult) :
    SameResult (resultFromData (resultToData result)) result where
  methods key := by
    have hkeys : (((sortKeys result.methods.keys.toFinset).filterMap fun key =>
        (result.methods.get? key).map (Prod.mk key)).map Prod.fst).Nodup := by
      refine List.Nodup.sublist ?_ (nodup_sortKeys result.methods.keys.toFinset)
      induction sortKeys result.methods.keys.toFinset with
      | nil => exact .slnil
      | cons k ks ih =>
        cases hget : result.methods.get? k with
        | none => simpa [hget] using ih.cons k
        | some m => simpa [hget] using ih.cons_cons k
    rw [resultFromData, methods_resultToData]
    ext m
    rw [Dict.get?_ofList_eq_some_iff hkeys, List.mem_filterMap]
    constructor
    · rintro ⟨k, _, hk⟩
      obtain ⟨m', hm', heq⟩ := Option.map_eq_some_iff.mp hk
      obtain ⟨rfl, rfl⟩ := Prod.mk.inj heq
      exact hm'
    · intro hm
      have hmem : key ∈ result.methods.keys.toFinset :=
        List.mem_toFinset.mpr (Dict.mem_keys_of_get? hm)
      exact ⟨key, mem_sortKeys.mpr hmem, by rw [hm]; rfl⟩
  classComponent := rfl
  parsedFiles := rfl
  failedFiles := rfl
  filesWithErrors := toFinset_sortNames _
  diagnosticCount := rfl
  notGenerated := rfl
  missingAutocode := toFinset_sortNames _
  dependencies := toFinset_sortNames _

/-- `json.dumps(self._result_to_data(result))`. -/
def dumpResult (result : UnitResult) : String := Json.dumps (resultToData result).toJson

/-- `self._result_from_data(json.loads(text))`. -/
def loadResult (text : String) : Option UnitResult :=
  ((Json.loads text).bind ResultData.ofJson).map resultFromData

/-- **The codec is exact** on every result. -/
theorem loadResult_dumpResult (result : UnitResult) :
    ∃ r, loadResult (dumpResult result) = some r ∧ SameResult r result := by
  refine ⟨resultFromData (resultToData result), ?_, resultFromData_resultToData result⟩
  simp only [loadResult, dumpResult, Json.loads_dumps, Option.bind_some, ResultData.ofJson_toJson,
    Option.map_some]

/-! ## The files of the cache -/

/-- The files of the unit cache, by source. -/
abbrev UnitFiles := Dict String String

/-- The text of a unit's file. -/
def unitText (payload : UnitPayload) : String := Json.dumps payload.toJson

/-- What is in it. A file that is malformed counts as none. -/
def loadPayload (text : String) : Option UnitPayload := (Json.loads text).bind UnitPayload.ofJson

/-- `_read_cached_unit`, from the text of the file. -/
def readUnitFile (settings : Settings) (fs : FileSystem) (files : UnitFiles) (u : TranslationUnit) :
    Option UnitResult :=
  match (files.get? u.1).bind loadPayload with
  | none => none
  | some payload =>
    readCachedUnit settings fs { Caches.empty with units := Dict.set ∅ u.1 payload } u

/-- `_write_cached_unit`, to the text of the file. -/
def writeUnitFile (settings : Settings) (fs : FileSystem) (files : UnitFiles)
    (unit : TranslationUnit × UnitResult) : UnitFiles :=
  match (writeCachedUnit settings fs .empty unit).units.get? unit.1.1 with
  | none => files
  | some payload => files.set unit.1.1 (unitText payload)

/-- Files that `_write_cached_unit` wrote from the results that parsing
gives, under whatever settings and at whatever time. -/
inductive WrittenBy (parse : TranslationUnit → UnitResult) : UnitFiles → Prop
  | empty : WrittenBy parse ∅
  | write (settings : Settings) (fs : FileSystem) (u : TranslationUnit) {files : UnitFiles} :
      WrittenBy parse files → WrittenBy parse (writeUnitFile settings fs files (u, parse u))

/-- A file whose stamps have been taken is read back. -/
theorem loadPayload_unitText {f : String → Option Stamp} {payload : UnitPayload}
    (h : Verifies f payload.dependencies) : loadPayload (unitText payload) = some payload := by
  simp only [loadPayload, unitText, Json.loads_dumps, Option.bind_some, UnitPayload.ofJson_toJson h]

/-- What is written for a unit, if anything is. -/
theorem writeCachedUnit_payload {settings : Settings} {fs : FileSystem}
    {unit : TranslationUnit × UnitResult} {payload : UnitPayload}
    (h : (writeCachedUnit settings fs .empty unit).units.get? unit.1.1 = some payload) :
    payload.args = unit.1.2 ∧ payload.result = resultToData unit.2
      ∧ Verifies fs.stamp payload.dependencies := by
  have hempty : Caches.empty.units.get? unit.1.1 = none := rfl
  unfold writeCachedUnit at h
  dsimp only at h
  split at h
  · rw [hempty] at h
    cases h
  · split at h
    · rw [hempty] at h
      cases h
    · rename_i dependencies hdeps
      split at h
      · rw [hempty] at h
        cases h
      · rw [Dict.get?_set_self] at h
        obtain rfl := Option.some.inj h
        exact ⟨rfl, rfl, verifies_record hdeps⟩

/-- What the cache has for a source after a write. -/
theorem get?_writeCachedUnit (settings : Settings) (fs : FileSystem) (caches : Caches)
    (unit : TranslationUnit × UnitResult) (source : String) :
    (writeCachedUnit settings fs caches unit).units.get? source
      = if source = unit.1.1 then
          ((writeCachedUnit settings fs .empty unit).units.get? unit.1.1).or (caches.units.get? source)
        else caches.units.get? source := by
  have hempty : Caches.empty.units.get? unit.1.1 = none := rfl
  unfold writeCachedUnit
  dsimp only
  split
  · rw [hempty, Option.none_or, ite_self]
  · split
    · rw [hempty, Option.none_or, ite_self]
    · split
      · rw [hempty, Option.none_or, ite_self]
      · simp only [Dict.get?_set, if_true, Option.some_or]

/-- The files hold what the cache holds. -/
def Stores (files : UnitFiles) (caches : Caches) : Prop :=
  ∀ source, (files.get? source).bind loadPayload = caches.units.get? source

theorem Stores.empty : Stores ∅ .empty := fun _ => rfl

/-- Reading a file is reading the cache. -/
theorem Stores.readUnitFile {files : UnitFiles} {caches : Caches} (h : Stores files caches)
    (settings : Settings) (fs : FileSystem) (u : TranslationUnit) :
    readUnitFile settings fs files u = readCachedUnit settings fs caches u := by
  rw [CallGraphExtractor.readUnitFile, h u.1, readCachedUnit]
  cases hget : caches.units.get? u.1 with
  | none => simp
  | some payload => simp only [readCachedUnit, Dict.get?_set_self]

/-- Writing a file is writing to the cache. -/
theorem Stores.write {files : UnitFiles} {caches : Caches} (h : Stores files caches)
    (settings : Settings) (fs : FileSystem) (unit : TranslationUnit × UnitResult) :
    Stores (writeUnitFile settings fs files unit) (writeCachedUnit settings fs caches unit) := by
  intro source
  rw [get?_writeCachedUnit, writeUnitFile]
  cases hwritten : (writeCachedUnit settings fs .empty unit).units.get? unit.1.1 with
  | none => rw [Option.none_or, ite_self, h source]
  | some payload =>
    obtain ⟨_, _, hverifies⟩ := writeCachedUnit_payload hwritten
    simp only [Dict.get?_set]
    split
    · rw [Option.bind_some, loadPayload_unitText hverifies, Option.some_or]
    · exact h source

theorem Stores.foldl_write (settings : Settings) (fs : FileSystem)
    (units : List (TranslationUnit × UnitResult)) : ∀ {files : UnitFiles} {caches : Caches},
    Stores files caches → Stores (units.foldl (writeUnitFile settings fs) files)
      (units.foldl (writeCachedUnit settings fs) caches) := by
  induction units with
  | nil => exact fun h => h
  | cons unit units ih => exact fun h => ih (h.write settings fs unit)

/-- The entry for a unit is taken only if it is of the same arguments. -/
theorem readCachedUnit_some {settings : Settings} {fs : FileSystem} {u : TranslationUnit}
    {payload : UnitPayload} {r : UnitResult}
    (h : readCachedUnit settings fs { Caches.empty with units := Dict.set ∅ u.1 payload } u = some r) :
    payload.args = u.2 ∧ r = resultFromData payload.result := by
  unfold readCachedUnit at h
  simp only [Dict.get?_set_self] at h
  split at h
  · cases h
  · split at h
    · cases h
    · rename_i hsame
      push Not at hsame
      split at h
      · cases h
      · split at h
        · cases h
        · exact ⟨hsame.2.2, (Option.some.inj h).symm⟩

/-- Every file that is well formed was written for some unit of its source,
from the result of parsing that unit. -/
theorem WrittenBy.payload {parse : TranslationUnit → UnitResult} {files : UnitFiles}
    (h : WrittenBy parse files) {source : String} {payload : UnitPayload}
    (hpayload : (files.get? source).bind loadPayload = some payload) :
    payload.result = resultToData (parse (source, payload.args)) := by
  induction h with
  | empty => cases hpayload
  | write settings fs u _ ih =>
    unfold writeUnitFile at hpayload
    split at hpayload
    · exact ih hpayload
    · rename_i written hwritten
      obtain ⟨hargs, hresult, hverifies⟩ := writeCachedUnit_payload hwritten
      rw [Dict.get?_set] at hpayload
      split at hpayload
      · rename_i hsource
        rw [Option.bind_some, loadPayload_unitText hverifies] at hpayload
        obtain rfl := Option.some.inj hpayload
        rw [hresult, hargs, hsource]
      · exact ih hpayload

/-- **What is read is what parsing gives.** -/
theorem WrittenBy.readUnitFile {parse : TranslationUnit → UnitResult} {files : UnitFiles}
    (h : WrittenBy parse files) {settings : Settings} {fs : FileSystem} {u : TranslationUnit}
    {r : UnitResult} (hread : readUnitFile settings fs files u = some r) : SameResult r (parse u) := by
  unfold CallGraphExtractor.readUnitFile at hread
  split at hread
  · cases hread
  · rename_i payload hpayload
    obtain ⟨hargs, rfl⟩ := readCachedUnit_some hread
    rw [h.payload hpayload, hargs]
    exact resultFromData_resultToData _

/-! ## A run -/

/-- The loop of `run` that asks the cache: the slots it fills, and the units
that are left, with their indices. -/
def askCache (read : TranslationUnit → Option UnitResult) (units : List TranslationUnit) :
    List (Option UnitResult) × List (Nat × TranslationUnit) :=
  units.zipIdx.foldl
    (fun s p => match read p.1 with
      | none => (s.1, s.2 ++ [(p.2, p.1)])
      | some cached => (Slots.fill s.1 (p.2, cached), s.2))
    (Slots.blank units.length, [])

/-- What `run` does with a result it has parsed. -/
def storeResult (settings : Settings) (fs : FileSystem)
    (s : List (Option UnitResult) × UnitFiles) (p : (Nat × TranslationUnit) × UnitResult) :
    List (Option UnitResult) × UnitFiles :=
  (Slots.fill s.1 (p.1.1, p.2), writeUnitFile settings fs s.2 (p.1.2, p.2))

/-- `_parallel_results`: its pool completes the units in any order. -/
def parallelResults (parse : TranslationUnit → UnitResult) (schedule : Slots.Schedule)
    (units : List TranslationUnit) : Option (List UnitResult) :=
  Slots.poolMap schedule parse units

/-- The slots and the files once the units that are left are parsed, in this
process or in several. A zip of lists of different lengths raises. -/
def parsePending (parse : TranslationUnit → UnitResult) (settings : Settings) (fs : FileSystem)
    (jobs : Nat) (schedule : Slots.Schedule) (pending : List (Nat × TranslationUnit))
    (s : List (Option UnitResult) × UnitFiles) : Option (List (Option UnitResult) × UnitFiles) :=
  if pending = [] then some s
  else if min (max 1 jobs) pending.length = 1 then
    some (pending.foldl (fun s p => storeResult settings fs s (p, parse p.2)) s)
  else
    (parallelResults parse schedule (pending.map Prod.snd)).bind fun results =>
      if results.length = pending.length then
        some ((pending.zip results).foldl (storeResult settings fs) s)
      else none

/-- `run` without the flow cache, up to the merge: the extractor, and the
files it leaves in the unit cache. It raises if a unit has no result. -/
def runUnits (parse : TranslationUnit → UnitResult) (settings : Settings) (fs : FileSystem)
    (jobs : Nat) (schedule : Slots.Schedule) (notGenerated : List String) (files : UnitFiles)
    (units : List TranslationUnit) : Option (UnitResult × UnitFiles) :=
  let asked := askCache (readUnitFile settings fs files) units
  (parsePending parse settings fs jobs schedule asked.2 (asked.1, files)).bind fun s =>
    (Slots.collect s.1).map fun results => (mergedGraph notGenerated results, s.2)

/-! ### What it makes -/

section Run

variable {parse : TranslationUnit → UnitResult} {settings : Settings} {fs : FileSystem}

/-- What the cache has, by index. -/
def cachedSlots (read : TranslationUnit → Option UnitResult) (units : List TranslationUnit) :
    List (Nat × UnitResult) :=
  units.zipIdx.filterMap fun p => (read p.1).map (Prod.mk p.2)

/-- The units it does not have. -/
def pendingUnits (read : TranslationUnit → Option UnitResult) (units : List TranslationUnit) :
    List (Nat × TranslationUnit) :=
  units.zipIdx.filterMap fun p => if (read p.1).isNone then some (p.2, p.1) else none

theorem askCache_eq (read : TranslationUnit → Option UnitResult) (units : List TranslationUnit) :
    askCache read units = (Slots.fillAll (Slots.blank units.length) (cachedSlots read units),
      pendingUnits read units) := by
  have hloop : ∀ (ps : List (TranslationUnit × Nat))
      (s : List (Option UnitResult) × List (Nat × TranslationUnit)),
      ps.foldl (fun s p => match read p.1 with
          | none => (s.1, s.2 ++ [(p.2, p.1)])
          | some cached => (Slots.fill s.1 (p.2, cached), s.2)) s
        = (Slots.fillAll s.1 (ps.filterMap fun p => (read p.1).map (Prod.mk p.2)),
          s.2 ++ ps.filterMap fun p => if (read p.1).isNone then some (p.2, p.1) else none) := by
    intro ps
    induction ps with
    | nil => exact fun s => by simp [Slots.fillAll]
    | cons p ps ih =>
      intro s
      rw [List.foldl_cons, ih]
      cases hread : read p.1 with
      | none => simp [hread]
      | some cached => simp [hread, Slots.fillAll]
  rw [askCache, hloop, List.nil_append]
  rfl

/-- Storing results one after the other fills their slots and writes their
files. -/
theorem foldl_storeResult (tasks : List ((Nat × TranslationUnit) × UnitResult)) :
    ∀ s, tasks.foldl (storeResult settings fs) s
      = (Slots.fillAll s.1 (tasks.map fun t => (t.1.1, t.2)),
        (tasks.map fun t => (t.1.2, t.2)).foldl (writeUnitFile settings fs) s.2) := by
  induction tasks with
  | nil => exact fun s => rfl
  | cons t tasks ih => exact fun s => ih (storeResult settings fs s t)

/-- Parsing in one process or in several makes no difference. -/
theorem parsePending_eq (jobs : Nat) (schedule : Slots.Schedule)
    (pending : List (Nat × TranslationUnit)) (s : List (Option UnitResult) × UnitFiles) :
    parsePending parse settings fs jobs schedule pending s
      = some (Slots.fillAll s.1 (pending.map fun p => (p.1, parse p.2)),
        (pending.map fun p => (p.2, parse p.2)).foldl (writeUnitFile settings fs) s.2) := by
  have hstore := @foldl_storeResult settings fs (pending.map fun p => (p, parse p.2)) s
  rw [List.map_map, List.map_map] at hstore
  unfold parsePending
  split
  · rename_i hnil
    rw [hnil]
    rfl
  · split
    · rw [← List.foldl_map (f := fun p => (p, parse p.2)) (g := storeResult settings fs), hstore]
      rfl
    · have hzip : pending.zip (pending.map (parse ∘ Prod.snd))
          = pending.map fun p => (p, parse p.2) := by
        have h := List.zip_map' (f := id) (g := parse ∘ Prod.snd) (l := pending)
        rwa [List.map_id] at h
      simp only [parallelResults, Slots.poolMap_eq, Option.bind_some, List.map_map, List.length_map,
        if_pos, hzip, hstore]
      rfl

/-- What comes to be filled in: what the cache has, and what is parsed. -/
def filledSlots (parse : TranslationUnit → UnitResult) (read : TranslationUnit → Option UnitResult)
    (units : List TranslationUnit) : List (Nat × UnitResult) :=
  cachedSlots read units ++ (pendingUnits read units).map fun p => (p.1, parse p.2)

/-- The result of each unit: what the cache has, or what parsing gives. -/
def resultsOf (parse : TranslationUnit → UnitResult) (read : TranslationUnit → Option UnitResult)
    (units : List TranslationUnit) : List UnitResult :=
  units.map fun u => (read u).getD (parse u)

/-- It goes to the index of its unit. -/
theorem filledSlots_right {read : TranslationUnit → Option UnitResult} {units : List TranslationUnit}
    {e : Nat × UnitResult} (he : e ∈ filledSlots parse read units) :
    (resultsOf parse read units)[e.1]? = some e.2 := by
  rcases List.mem_append.mp he with he | he
  · obtain ⟨⟨u, i⟩, hp, hcached⟩ := List.mem_filterMap.mp he
    obtain ⟨cached, hread, rfl⟩ := Option.map_eq_some_iff.mp hcached
    rw [resultsOf, List.getElem?_map, List.mem_zipIdx_iff_getElem?.mp hp, Option.map_some, hread,
      Option.getD_some]
  · obtain ⟨p, hp, rfl⟩ := List.mem_map.mp he
    obtain ⟨⟨u, i⟩, hmem, hpending⟩ := List.mem_filterMap.mp hp
    split at hpending
    · rename_i hnone
      obtain rfl := Option.some.inj hpending
      rw [resultsOf, List.getElem?_map, List.mem_zipIdx_iff_getElem?.mp hmem, Option.map_some,
        Option.isNone_iff_eq_none.mp hnone, Option.getD_none]
    · cases hpending

/-- No unit is left out. -/
theorem filledSlots_all {read : TranslationUnit → Option UnitResult} {units : List TranslationUnit}
    {i : Nat} (hi : i < units.length) : i ∈ (filledSlots parse read units).map Prod.fst := by
  have hmem : (units[i], i) ∈ units.zipIdx :=
    List.mem_zipIdx_iff_getElem?.mpr (List.getElem?_eq_getElem hi)
  rw [filledSlots, List.map_append, List.mem_append]
  cases hread : read units[i] with
  | some cached =>
    have hcached : (i, cached) ∈ cachedSlots read units :=
      List.mem_filterMap.mpr ⟨_, hmem, by rw [hread]; rfl⟩
    exact .inl (List.mem_map_of_mem hcached)
  | none =>
    have hpending : (i, units[i]) ∈ pendingUnits read units :=
      List.mem_filterMap.mpr ⟨_, hmem, by simp [hread]⟩
    exact .inr (List.mem_map.mpr ⟨_, List.mem_map_of_mem hpending, rfl⟩)

/-- So the slots are the results, in the order of the units. -/
theorem fillAll_filledSlots (read : TranslationUnit → Option UnitResult)
    (units : List TranslationUnit) :
    Slots.fillAll (Slots.blank units.length) (filledSlots parse read units)
      = (resultsOf parse read units).map some := by
  have hlength : (resultsOf parse read units).length = units.length := List.length_map _
  rw [← hlength]
  exact Slots.fillAll_eq _ (Slots.agrees_blank _) (fun _ => filledSlots_right)
    fun i hi => .inr (filledSlots_all (hlength ▸ hi))

/-- The results by unit: from the cache where it has one, and parsed
otherwise. -/
theorem runUnits_eq (jobs : Nat) (schedule : Slots.Schedule) (notGenerated : List String)
    (files : UnitFiles) (units : List TranslationUnit) :
    runUnits parse settings fs jobs schedule notGenerated files units
      = some (mergedGraph notGenerated (resultsOf parse (readUnitFile settings fs files) units),
        ((pendingUnits (readUnitFile settings fs files) units).map fun p => (p.2, parse p.2)).foldl
          (writeUnitFile settings fs) files) := by
  have hslots := @fillAll_filledSlots parse (readUnitFile settings fs files) units
  rw [Slots.fillAll, filledSlots, List.foldl_append] at hslots
  simp only [runUnits, askCache_eq, parsePending_eq, Option.bind_some, Slots.fillAll, hslots,
    Slots.collect_map_some, Option.map_some]

/-- The units that are left, in their order. -/
theorem map_snd_pendingUnits (read : TranslationUnit → Option UnitResult)
    (units : List TranslationUnit) :
    (pendingUnits read units).map Prod.snd = units.filter fun u => (read u).isNone := by
  have hmap : ∀ ps : List (TranslationUnit × Nat),
      (ps.filterMap fun p => if (read p.1).isNone then some (p.2, p.1) else none).map Prod.snd
        = (ps.map Prod.fst).filter fun u => (read u).isNone := by
    intro ps
    induction ps with
    | nil => rfl
    | cons p ps ih =>
      cases hread : read p.1 with
      | none => simpa [hread] using ih
      | some cached => simpa [hread] using ih
  rw [pendingUnits, hmap, List.zipIdx_map_fst]

/-- **The files refine the caches**: where `run` takes no flow map from its
cache, its extractor is that of `runUnits`, and so is what it leaves for the
units. -/
theorem run_runUnits (clang : Libclang) {files : UnitFiles} {caches : Caches}
    (hstores : Stores files caches) (jobs : Nat) (schedule : Slots.Schedule)
    {units : List TranslationUnit} {notGenerated : List String}
    (hunits : loadTranslationUnits settings fs = some (units, notGenerated))
    (hmiss : readCachedFlow settings fs caches = none) :
    ∃ x written caches', runUnits (parsed clang fs) settings fs jobs schedule notGenerated files units
        = some (x, written)
      ∧ Stores written caches'
      ∧ run clang settings fs caches = some (buildFlowMap settings.compileCommands x,
          writeCachedFlow settings fs x (buildFlowMap settings.compileCommands x) caches') := by
  have hread : readUnitFile settings fs files = readCachedUnit settings fs caches :=
    funext (hstores.readUnitFile settings fs)
  have hpending : (pendingUnits (readCachedUnit settings fs caches) units).map
        (fun p => (p.2, parsed clang fs p.2))
      = (units.filter fun u => (readCachedUnit settings fs caches u).isNone).map
        fun u => (u, parsed clang fs u) := by
    rw [← map_snd_pendingUnits, List.map_map]
    rfl
  refine ⟨_, _, _, runUnits_eq jobs schedule notGenerated files units,
    hstores.foldl_write settings fs _, ?_⟩
  simp only [run, hunits, hmiss, hread, hpending, resultsOf]

theorem WrittenBy.foldl_write (units : List TranslationUnit) : ∀ {files : UnitFiles},
    WrittenBy parse files →
      WrittenBy parse ((units.map fun u => (u, parse u)).foldl (writeUnitFile settings fs) files) := by
  induction units with
  | nil => exact fun h => h
  | cons u units ih => exact fun h => ih (h.write settings fs u)

end Run

/-- Three units, each of which defines the same handler. -/
def handlerUnits : List TranslationUnit := [("a.cpp", []), ("b.cpp", []), ("c.cpp", ["-I."])]

def parseHandler (u : TranslationUnit) : UnitResult :=
  unitResult (u.1, .unit [] [] [.methodDef ("B", "in_handler") { ports := {"out"} }])

def everyFile : FileSystem := ⟨fun _ => some ⟨(1, 0), ""⟩, none⟩

/-- The first of them has been written to the cache. -/
def oneCached : UnitFiles :=
  writeUnitFile cachedSettings everyFile ∅ (("a.cpp", []), parseHandler ("a.cpp", []))

end FprimeTopologyAnalysis.CallGraphExtractor
