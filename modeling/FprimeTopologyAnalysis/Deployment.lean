/-
FprimeTopologyAnalysis.Deployment — which deployment a command is about
(`resolve_deployment_source` of `cli.py`).

The command is given a directory and perhaps the name of a topology. It looks
for declarations in the sources under the directory and, where there is none,
under the project around it. It goes on with a declaration only if there is
no other (`resolve_exact`): a file that is listed twice is no second one, and
neither is a name in a comment one at all. What the shell completes names to
can be selected (`complete_exact`).

What git lists under a directory, and what is there without it, is part of the
file system here (`Files`). `\w` and `\s` are parameters, as for the other
sources.
-/
import FprimeTopologyAnalysis.CppRateConfig
import FprimeTopologyAnalysis.PortFlow
import FprimeTopologyAnalysis.Library.Lines
import Mathlib.Data.List.Dedup
import Mathlib.Data.List.Infix
import Mathlib.Data.List.Sort

namespace FprimeTopologyAnalysis

open Library Library.Regex

namespace Cli

/-! ## Paths and files -/

/-- An absolute path, by its parts. -/
abbrev SourcePath := List String

/-- `str(path)`. -/
def SourcePath.str (path : SourcePath) : String := "/" ++ "/".intercalate path

/-- `path.parents`, the nearest first. -/
def SourcePath.parents (path : SourcePath) : List SourcePath := path.inits.reverse.tail

/-- `path.name`. -/
def SourcePath.name (path : SourcePath) : String := path.getLast?.getD ""

/-- A state of the file system. A file that cannot be read has no text.
`lsFiles` is what `git ls-files` prints of a directory's files with a suffix,
if it can, and `below` what `os.walk` finds below a directory, each path from
there and in its order. -/
structure Files where
  pathExists : SourcePath → Bool
  isDir : SourcePath → Bool
  isFile : SourcePath → Bool
  readText : SourcePath → Option String
  mtime : SourcePath → Nat
  lsFiles : SourcePath → String → Option String
  below : SourcePath → List SourcePath
  rglob : SourcePath → String → List SourcePath

/-- `IGNORED_SOURCE_DIRS`. -/
def ignoredSourceDirs : List String :=
  [".git", ".hg", ".svn", ".venv", "__pycache__", "node_modules"]

/-- A directory that is not walked into. -/
def isIgnoredDir (name : String) : Bool :=
  name ∈ ignoredSourceDirs || Text.startsWith name "build-" || Text.startsWith name "cmake-build-"

/-- `_walk_files`. -/
def Files.walk (files : Files) (root : SourcePath) (suffix : String) : List SourcePath :=
  match files.lsFiles root suffix with
  | some listed =>
    (((listed.toList.splitOn '\x00').map String.ofList).filter (· ≠ "")).map fun name =>
      root ++ (name.toList.splitOn '/').map String.ofList
  | none =>
    ((files.below root).filter fun path =>
      path.dropLast.all (fun name => !isIgnoredDir name)
        && suffix.toList.isSuffixOf (SourcePath.name path).toList).map
      (root ++ ·)

/-- `CliError`. -/
structure CliError where
  message : String
  deriving DecidableEq

/-- `DeploymentSource`. -/
structure DeploymentSource where
  projectRoot : SourcePath
  deploymentDir : SourcePath
  topologyFile : SourcePath
  topologyName : String
  deriving DecidableEq

/-! ## Patterns -/

section Patterns

variable (classes : CharClasses)

/-- The characters `[A-Za-z0-9_]`. -/
def isNameChar (c : Char) : Bool := c.isAlphanum || c = '_'

/-- A topology's name. -/
def topologyNamePattern : Pat := .seq (.set isNameStart) (.star true (.set isNameChar))

/-- `DEPLOYMENT_RE`. -/
def deploymentPattern : Pat :=
  .cat [boundaryPattern classes, .lit "deployment", .plus (.set classes.isSpace), .lit "topology",
    .plus (.set classes.isSpace), .group "1" topologyNamePattern]

/-- `TOPOLOGY_RE`. -/
def topologyPattern : Pat :=
  .cat [boundaryPattern classes, .lit "topology", .plus (.set classes.isSpace),
    .group "1" topologyNamePattern, blanksPattern classes, .lit "\x7b"]

/-- `\bproject\s*\(`, in either case. -/
def projectPattern : Pat :=
  .cat [boundaryPattern classes, .cat ("project".toList.map fun c => .set fun d => d.toLower == c),
    blanksPattern classes, .lit "("]

end Patterns

/-! ## Looking for declarations -/

section Search

variable (classes : CharClasses) (files : Files)

/-- `_is_project_marker`. -/
def isProjectMarker (path : SourcePath) : Bool :=
  files.isFile (path ++ ["settings.ini"]) || files.isFile (path ++ ["project.cmake"])

/-- `_project_root`. -/
def projectRoot (path : SourcePath) : SourcePath :=
  ((path :: path.parents).find? (isProjectMarker files)).getD path

/-- The loop of `_deployment_directory`: the first of the directories that is a
CMake project, none of them above the boundary. -/
def cmakeOwner (boundary : SourcePath) : List SourcePath → Option SourcePath
  | [] => none
  | candidate :: rest =>
    if ¬ boundary <+: candidate then none
    else
      let next := if candidate = boundary then none else cmakeOwner boundary rest
      if files.isFile (candidate ++ ["CMakeLists.txt"]) then
        match files.readText (candidate ++ ["CMakeLists.txt"]) with
        | none => cmakeOwner boundary rest
        | some text =>
          if (search (projectPattern classes) text.toList).isSome then some candidate else next
      else next

/-- `_deployment_directory`. -/
def deploymentDirectory (topologyFile boundary : SourcePath) : SourcePath :=
  let parent := topologyFile.dropLast
  match cmakeOwner classes files boundary (parent :: SourcePath.parents topologyFile) with
  | some owner => owner
  | none => if (SourcePath.name parent).toLower = "top" then parent.dropLast else parent

/-- The text without its comments. -/
def uncommented (text : String) : String :=
  "\n".intercalate ((Text.splitlines text).map (Text.before '#'))

/-- `TOPOLOGY_RE if name else DEPLOYMENT_RE`. -/
def declarationPattern (name : Option String) : Pat :=
  if name.getD "" ≠ "" then topologyPattern classes else deploymentPattern classes

/-- The declarations of a file. -/
def declarationsOf (projectRoot : SourcePath) (name : Option String) (source : SourcePath) :
    List DeploymentSource :=
  match files.readText source with
  | none => []
  | some text =>
    let names := (finditer (declarationPattern classes name) (uncommented text).toList).map
      fun found => String.ofList (found.group "1")
    (names.filter fun declared => name = none ∨ name = some declared).map fun declared =>
      ⟨projectRoot, deploymentDirectory classes files source projectRoot, source, declared⟩

/-- `_deployment_declarations`. -/
def deploymentDeclarations (root projectRoot : SourcePath) (name : Option String) :
    List DeploymentSource :=
  (files.walk root ".fpp").flatMap (declarationsOf classes files projectRoot name)

/-- The order of the declarations. -/
def sourceLe (a b : DeploymentSource) : Prop :=
  a.deploymentDir < b.deploymentDir
    ∨ a.deploymentDir = b.deploymentDir ∧ a.topologyName ≤ b.topologyName

instance : DecidableRel sourceLe := fun _ _ => inferInstanceAs (Decidable (_ ∨ _ ∧ _))

/-- `unique`, in order. -/
def uniqueDeclarations (declarations : List DeploymentSource) : List DeploymentSource :=
  ((Dict.ofList (declarations.map fun item =>
    ((item.topologyFile, item.topologyName), item))).entries.map Prod.snd).insertionSort sourceLe

/-- Nothing is declared. -/
def noneFound (selected : SourcePath) (name : Option String) : CliError :=
  match name with
  | some name =>
    if name ≠ "" then
      ⟨"No topology named '" ++ name ++ "' was found under " ++ selected.str ++ ". "
        ++ "Check the name, or drop --deployment to auto-discover a "
        ++ "'deployment topology' declaration."⟩
    else noDeployment
  | none => noDeployment
where
  noDeployment : CliError :=
    ⟨"No deployment topology was found under " ++ selected.str ++ ". "
      ++ "Run this command from an F Prime project or deployment source directory, "
      ++ "or pass --deployment NAME to select a plain 'topology NAME' (older FPP)."⟩

/-- More than one is declared. -/
def severalFound (name : Option String) (declarations : List DeploymentSource) : CliError :=
  if name.getD "" ≠ "" then
    let files := (declarations.map fun item => SourcePath.str item.topologyFile).insertionSort (· ≤ ·)
    ⟨"Several topologies named '" ++ name.getD "" ++ "' were found:\n  "
      ++ "\n  ".intercalate (files.take 10)⟩
  else
    let sourceDirs :=
      ((declarations.map DeploymentSource.deploymentDir).dedup).insertionSort (· ≤ ·)
    ⟨"Several deployments were found. Run the command from one of these "
      ++ "source directories, or pass --deployment NAME:\n  "
      ++ "\n  ".intercalate ((sourceDirs.take 10).map SourcePath.str)
      ++ if 10 < sourceDirs.length then
          "\n  ... and " ++ toString (sourceDirs.length - 10) ++ " more" else ""⟩

/-- The declarations that count: those under the directory, or else those of
the project. -/
def foundDeclarations (selected : SourcePath) (name : Option String) : List DeploymentSource :=
  let root := projectRoot files selected
  let declarations := deploymentDeclarations classes files selected root name
  if declarations = [] ∧ root ≠ selected then deploymentDeclarations classes files root root name
  else declarations

/-- `resolve_deployment_source`, of the resolved path and the name. -/
def resolveDeploymentSource (selected : SourcePath) (name : Option String) :
    Except CliError DeploymentSource :=
  if ¬ files.pathExists selected then
    .error ⟨"Project or deployment path not found: " ++ selected.str⟩
  else if ¬ files.isDir selected then
    .error ⟨"Project or deployment path is not a directory: " ++ selected.str⟩
  else
    match uniqueDeclarations (foundDeclarations classes files selected name) with
    | [] => .error (noneFound selected name)
    | [source] => .ok source
    | several => .error (severalFound name several)

/-- `_complete_deployment`: the names offered for what was given so far. -/
def completeDeployment (path : SourcePath) (given : String) : List String :=
  let names := (files.walk (projectRoot files path) ".fpp").flatMap fun source =>
    match files.readText source with
    | none => []
    | some text => (finditer (topologyPattern classes) (uncommented text).toList).map fun found =>
      String.ofList (found.group "1")
  sortNames (names.toFinset.filter fun name => Text.startsWith name given = true)

end Search

/-! ## What is declared -/

section Declared

variable {classes : CharClasses} {files : Files} {root project selected : SourcePath}
  {name : Option String} {source : DeploymentSource}

/-- A source under the directory declares the topology, and it is the one
asked for. -/
structure Declared (classes : CharClasses) (files : Files) (root project : SourcePath)
    (name : Option String) (source : DeploymentSource) : Prop where
  listed : source.topologyFile ∈ files.walk root ".fpp"
  declares : ∃ text, files.readText source.topologyFile = some text
    ∧ ∃ found ∈ finditer (declarationPattern classes name) (uncommented text).toList,
      String.ofList (found.group "1") = source.topologyName
  named : name = none ∨ name = some source.topologyName
  inProject : source.projectRoot = project
  inDir : source.deploymentDir = deploymentDirectory classes files source.topologyFile project

theorem mem_deploymentDeclarations :
    source ∈ deploymentDeclarations classes files root project name
      ↔ Declared classes files root project name source := by
  unfold deploymentDeclarations declarationsOf
  rw [List.mem_flatMap]
  constructor
  · rintro ⟨file, hfile, hsource⟩
    cases htext : files.readText file with
    | none => simp [htext] at hsource
    | some text =>
      simp only [htext, List.mem_map, List.mem_filter, decide_eq_true_eq] at hsource
      obtain ⟨declared, ⟨⟨found, hfound, rfl⟩, hnamed⟩, rfl⟩ := hsource
      exact ⟨hfile, ⟨text, htext, found, hfound, rfl⟩, hnamed, rfl, rfl⟩
  · rintro ⟨hlisted, ⟨text, htext, found, hfound, hdeclared⟩, hnamed, hroot, hdir⟩
    refine ⟨source.topologyFile, hlisted, ?_⟩
    simp only [htext, List.mem_map, List.mem_filter, decide_eq_true_eq]
    refine ⟨source.topologyName, ⟨⟨found, hfound, hdeclared⟩, hnamed⟩, ?_⟩
    rw [← hdir, ← hroot]

/-- The file and the name tell the declaration. -/
theorem Declared.eq_of_key {source' : DeploymentSource}
    (h : Declared classes files root project name source)
    (h' : Declared classes files root project name source')
    (hfile : source.topologyFile = source'.topologyFile)
    (hname : source.topologyName = source'.topologyName) : source = source' := by
  have hroot := h.inProject.trans h'.inProject.symm
  have hdir := h.inDir.trans (hfile ▸ h'.inDir.symm)
  cases source
  cases source'
  simp_all

/-- The key of a declaration. -/
def DeploymentSource.key (source : DeploymentSource) : SourcePath × String :=
  (source.topologyFile, source.topologyName)

/-- Where keys tell the declarations, each is kept, and once. -/
theorem uniqueDeclarations_spec {ds : List DeploymentSource}
    (hkey : ∀ a ∈ ds, ∀ b ∈ ds, a.key = b.key → a = b) :
    (uniqueDeclarations ds).Nodup ∧ ∀ item, item ∈ uniqueDeclarations ds ↔ item ∈ ds := by
  have hentry : ∀ k item, (Dict.ofList (ds.map fun item => (item.key, item))).get? k = some item →
      item ∈ ds ∧ k = item.key := by
    intro k item hget
    obtain ⟨other, hother, heq⟩ := List.mem_map.mp (Dict.mem_of_get?_ofList hget)
    obtain ⟨rfl, rfl⟩ := Prod.mk.inj heq
    exact ⟨hother, rfl⟩
  have hmem : ∀ item, item ∈ uniqueDeclarations ds ↔ item ∈ ds := by
    intro item
    rw [uniqueDeclarations, List.mem_insertionSort, List.mem_map]
    constructor
    · rintro ⟨⟨k, item'⟩, he, rfl⟩
      exact (hentry k item' ((Dict.get?_eq_some_iff _ _ _).mpr he)).1
    · intro hitem
      obtain ⟨found, hfound⟩ := Dict.get?_ofList_of_mem
        (List.mem_map_of_mem (f := fun item => (item.key, item)) hitem)
      obtain ⟨hin, hk⟩ := hentry _ _ hfound
      rw [hkey item hitem found hin hk] at hfound ⊢
      exact ⟨_, (Dict.get?_eq_some_iff _ _ _).mp hfound, rfl⟩
  refine ⟨?_, hmem⟩
  rw [uniqueDeclarations, (List.perm_insertionSort _ _).nodup_iff]
  refine (Dict.ofList _).nodupKeys.of_map.map_on ?_
  rintro ⟨k, item⟩ he ⟨k', item'⟩ he' rfl
  rw [(hentry k _ ((Dict.get?_eq_some_iff _ _ _).mpr he)).2,
    (hentry k' _ ((Dict.get?_eq_some_iff _ _ _).mpr he')).2]

/-- The declaration counts: it is under the directory, or nothing is and it
is in the project around it. -/
def Counts (classes : CharClasses) (files : Files) (selected : SourcePath) (name : Option String)
    (source : DeploymentSource) : Prop :=
  Declared classes files selected (projectRoot files selected) name source
    ∨ (∀ other, ¬ Declared classes files selected (projectRoot files selected) name other)
      ∧ Declared classes files (projectRoot files selected) (projectRoot files selected) name source

theorem mem_foundDeclarations :
    source ∈ foundDeclarations classes files selected name
      ↔ Counts classes files selected name source := by
  have hnil : deploymentDeclarations classes files selected (projectRoot files selected) name = []
      ↔ ∀ other, ¬ Declared classes files selected (projectRoot files selected) name other := by
    rw [List.eq_nil_iff_forall_not_mem]
    simp only [mem_deploymentDeclarations]
  unfold foundDeclarations Counts
  dsimp only
  by_cases hnone : ∀ other,
      ¬ Declared classes files selected (projectRoot files selected) name other
  · by_cases hroot : projectRoot files selected = selected
    · rw [if_neg (by simp [hroot]), mem_deploymentDeclarations, hroot]
      exact ⟨.inl, fun h => h.elim id And.right⟩
    · rw [if_pos ⟨hnil.mpr hnone, hroot⟩, mem_deploymentDeclarations]
      exact ⟨fun h => .inr ⟨hnone, h⟩, fun h => h.elim (fun h => absurd h (hnone _)) And.right⟩
  · rw [if_neg (fun h => hnone (hnil.mp h.1)), mem_deploymentDeclarations]
    exact ⟨.inl, fun h => h.elim id fun h => absurd h.1 hnone⟩

/-- Two declarations that count are told apart by file and name. -/
theorem Counts.eq_of_key {source' : DeploymentSource}
    (h : Counts classes files selected name source)
    (h' : Counts classes files selected name source') (hkey : source.key = source'.key) :
    source = source' := by
  obtain ⟨hfile, hname⟩ := Prod.mk.inj hkey
  rcases h with h | ⟨hnone, h⟩
  · rcases h' with h' | ⟨hnone, _⟩
    · exact h.eq_of_key h' hfile hname
    · exact absurd h (hnone _)
  · rcases h' with h' | ⟨_, h'⟩
    · exact absurd h' (hnone _)
    · exact h.eq_of_key h' hfile hname

/-- The declarations among which the choice has to be unique are those that
count, each once. -/
theorem uniqueDeclarations_found :
    (uniqueDeclarations (foundDeclarations classes files selected name)).Nodup
      ∧ ∀ item, item ∈ uniqueDeclarations (foundDeclarations classes files selected name)
        ↔ Counts classes files selected name item := by
  obtain ⟨hnodup, hmem⟩ := @uniqueDeclarations_spec (foundDeclarations classes files selected name)
    fun a ha b hb => (mem_foundDeclarations.mp ha).eq_of_key (mem_foundDeclarations.mp hb)
  exact ⟨hnodup, fun item => (hmem item).trans mem_foundDeclarations⟩

/-- **A command goes on with a declaration only if there is no other.** -/
theorem resolveDeploymentSource_eq_ok_iff :
    resolveDeploymentSource classes files selected name = .ok source
      ↔ files.pathExists selected = true ∧ files.isDir selected = true
        ∧ Counts classes files selected name source
        ∧ ∀ other, Counts classes files selected name other → other = source := by
  obtain ⟨hnodup, hmem⟩ := @uniqueDeclarations_found classes files selected name
  have hone : uniqueDeclarations (foundDeclarations classes files selected name) = [source]
      ↔ Counts classes files selected name source
        ∧ ∀ other, Counts classes files selected name other → other = source := by
    constructor
    · intro heq
      simp only [heq, List.mem_singleton] at hmem
      exact ⟨(hmem source).mp rfl, fun other hother => (hmem other).mpr hother⟩
    · rintro ⟨hsource, hothers⟩
      refine List.perm_singleton.mp
        ((List.perm_ext_iff_of_nodup hnodup (by simp)).mpr fun item => ?_)
      rw [hmem, List.mem_singleton]
      exact ⟨hothers item, fun h => h ▸ hsource⟩
  rw [← hone]
  unfold resolveDeploymentSource
  by_cases hexists : files.pathExists selected = true
  · by_cases hdir : files.isDir selected = true
    · rw [if_neg (not_not.mpr hexists), if_neg (not_not.mpr hdir)]
      cases uniqueDeclarations (foundDeclarations classes files selected name) with
      | nil => simp
      | cons first rest => cases rest <;> simp [hexists, hdir]
    · rw [if_neg (not_not.mpr hexists), if_pos hdir]
      simp [hdir]
  · rw [if_pos hexists]
    simp [hexists]

/-- Where no declaration counts the command says so, and where several do it
lists them. -/
theorem resolveDeploymentSource_error (hexists : files.pathExists selected = true)
    (hdir : files.isDir selected = true) {e : CliError}
    (h : resolveDeploymentSource classes files selected name = .error e) :
    (e = noneFound selected name ∧ ∀ item, ¬ Counts classes files selected name item)
      ∨ ∃ several, e = severalFound name several ∧ several.Nodup ∧ 2 ≤ several.length
        ∧ ∀ item, item ∈ several ↔ Counts classes files selected name item := by
  obtain ⟨hnodup, hmem⟩ := @uniqueDeclarations_found classes files selected name
  unfold resolveDeploymentSource at h
  rw [if_neg (not_not.mpr hexists), if_neg (not_not.mpr hdir)] at h
  cases hall : uniqueDeclarations (foundDeclarations classes files selected name) with
  | nil =>
    simp only [hall, List.not_mem_nil, false_iff] at h hmem
    exact .inl ⟨(Except.error.inj h).symm, hmem⟩
  | cons first rest =>
    cases rest with
    | nil => simp [hall] at h
    | cons second rest =>
      rw [hall] at h hnodup hmem
      exact .inr ⟨_, (Except.error.inj h).symm, hnodup, by simp, hmem⟩

/-! ## What a declaration is -/

/-- A name of a topology: letters, digits and underscores, a digit not first. -/
def IsTopologyName (s : String) : Prop :=
  ∃ c cs, s.toList = c :: cs ∧ isNameStart c = true ∧ ∀ d ∈ cs, isNameChar d = true

theorem isTopologyName_of_mem {w : List Char} (h : w ∈ topologyNamePattern.lang) :
    IsTopologyName (String.ofList w) := by
  obtain ⟨c, cs, rfl, hc, hcs⟩ := Pat.mem_lang_seq_set h
  exact ⟨c, cs, String.toList_ofList, hc, Pat.mem_lang_star_set hcs⟩

/-- The group of a declaration is a name. -/
theorem groupsIn_declaration (classes : CharClasses) (name : Option String) :
    (declarationPattern classes name).GroupsIn fun _ w => w ∈ topologyNamePattern.lang := by
  unfold declarationPattern
  split
  · simp [topologyPattern, boundaryPattern, blanksPattern, Pat.GroupsIn, Pat.groupsIn_cat,
      Pat.groupsIn_lit, Pat.groupsIn_plus, topologyNamePattern]
  · simp [deploymentPattern, boundaryPattern, Pat.GroupsIn, Pat.groupsIn_cat, Pat.groupsIn_lit,
      Pat.groupsIn_plus, topologyNamePattern]

theorem Declared.isTopologyName (h : Declared classes files root project name source) :
    IsTopologyName source.topologyName := by
  obtain ⟨text, _, found, hfound, hname⟩ := h.declares
  rw [← hname]
  have hsets : (declarationPattern classes name).sets "1" = true := by
    unfold declarationPattern
    split <;> rfl
  exact isTopologyName_of_mem (finditer_group (groupsIn_declaration classes name) hsets hfound)

/-- A CMake project that owns a directory is above it, and not above the
boundary. -/
theorem cmakeOwner_mem {boundary : SourcePath} :
    ∀ {candidates : List SourcePath} {owner : SourcePath},
      cmakeOwner classes files boundary candidates = some owner →
      owner ∈ candidates ∧ boundary <+: owner
  | [], _, h => by simp [cmakeOwner] at h
  | candidate :: rest, owner, h => by
      have hrest : cmakeOwner classes files boundary rest = some owner →
          owner ∈ candidate :: rest ∧ boundary <+: owner := fun h =>
        ⟨List.mem_cons_of_mem _ (cmakeOwner_mem h).1, (cmakeOwner_mem h).2⟩
      have hnext : (if candidate = boundary then none else cmakeOwner classes files boundary rest)
          = some owner → owner ∈ candidate :: rest ∧ boundary <+: owner := by
        intro h
        split at h
        · cases h
        · exact hrest h
      rw [cmakeOwner] at h
      split at h
      · cases h
      · rename_i hbelow
        dsimp only at h
        split at h
        · split at h
          · exact hrest h
          · split at h
            · obtain rfl := Option.some.inj h
              exact ⟨List.mem_cons_self .., not_not.mp hbelow⟩
            · exact hnext h
        · exact hnext h

theorem mem_parents {path parent : SourcePath} (h : parent ∈ path.parents) :
    parent <+: path.dropLast := by
  rcases List.eq_nil_or_concat path with rfl | ⟨dirs, name, rfl⟩
  · simp [SourcePath.parents] at h
  · simp [SourcePath.parents, List.inits_append] at h
    simpa using h

/-- The deployment's directory is the file's or one above it. -/
theorem deploymentDirectory_prefix (file boundary : SourcePath) :
    deploymentDirectory classes files file boundary <+: file.dropLast := by
  unfold deploymentDirectory
  dsimp only
  split
  · rename_i owner howner
    rcases List.mem_cons.mp (cmakeOwner_mem howner).1 with rfl | hparent
    · exact List.prefix_refl _
    · exact mem_parents hparent
  · split
    · exact List.dropLast_prefix _
    · exact List.prefix_refl _

/-- The project's directory is the one given or one above it. -/
theorem projectRoot_prefix (files : Files) (path : SourcePath) :
    projectRoot files path <+: path := by
  unfold projectRoot
  cases hfind : (path :: path.parents).find? (isProjectMarker files) with
  | none => exact List.prefix_refl _
  | some found =>
    rcases List.mem_cons.mp (List.mem_of_find?_eq_some hfind) with rfl | hparent
    · exact List.prefix_refl _
    · exact (mem_parents hparent).trans (List.dropLast_prefix _)

/-- A topology's name is not empty, so it is searched for as such. -/
theorem IsTopologyName.declarationPattern {declared : String} (h : IsTopologyName declared)
    (classes : CharClasses) :
    declarationPattern classes (some declared) = topologyPattern classes := by
  have hne : declared ≠ "" := by
    rintro rfl
    obtain ⟨c, cs, hnil, _⟩ := h
    simp at hnil
  simp [Cli.declarationPattern, hne]

/-- **What completion offers can be selected**: the names that start as what
was given and that some source of the project declares, so that a command
with such a name does not end for want of a declaration. -/
theorem complete_exact (classes : CharClasses) (files : Files) (selected : SourcePath)
    (given declared : String) :
    (declared ∈ completeDeployment classes files selected given
      ↔ Text.startsWith declared given = true ∧ ∃ source, source.topologyName = declared
        ∧ Declared classes files (projectRoot files selected) (projectRoot files selected)
          (some declared) source)
      ∧ (declared ∈ completeDeployment classes files selected given →
        ∃ source, Counts classes files selected (some declared) source) := by
  have hiff : declared ∈ completeDeployment classes files selected given
      ↔ Text.startsWith declared given = true ∧ ∃ source, source.topologyName = declared
        ∧ Declared classes files (projectRoot files selected) (projectRoot files selected)
          (some declared) source := by
    unfold completeDeployment
    simp only [mem_sortNames, Finset.mem_filter, List.mem_toFinset, List.mem_flatMap]
    rw [and_comm]
    refine and_congr_right fun _ => ?_
    constructor
    · rintro ⟨file, hfile, hdeclared⟩
      cases htext : files.readText file with
      | none => simp [htext] at hdeclared
      | some text =>
        simp only [htext, List.mem_map] at hdeclared
        obtain ⟨found, hfound, rfl⟩ := hdeclared
        have hname : IsTopologyName (String.ofList (found.group "1")) :=
          isTopologyName_of_mem (finditer_group (groupsIn_declaration classes (some "T"))
            (by rfl) (by simpa [declarationPattern] using hfound))
        refine ⟨⟨projectRoot files selected,
          deploymentDirectory classes files file (projectRoot files selected), file, _⟩, rfl, hfile,
          ⟨text, htext, found, ?_, rfl⟩, .inr rfl, rfl, rfl⟩
        rwa [hname.declarationPattern]
    · rintro ⟨source, rfl, hsource⟩
      obtain ⟨text, htext, found, hfound, hname⟩ := hsource.declares
      rw [hsource.isTopologyName.declarationPattern] at hfound
      refine ⟨source.topologyFile, hsource.listed, ?_⟩
      simp only [htext, List.mem_map]
      exact ⟨found, hfound, hname⟩
  refine ⟨hiff, fun hoffered => ?_⟩
  obtain ⟨_, source, _, hsource⟩ := hiff.mp hoffered
  by_cases hunder : ∃ other, Declared classes files selected (projectRoot files selected)
      (some declared) other
  · obtain ⟨other, hother⟩ := hunder
    exact ⟨other, .inl hother⟩
  · exact ⟨source, .inr ⟨fun other hother => hunder ⟨other, hother⟩, hsource⟩⟩

/-- **Which deployment a command is about.** It goes on with a declaration
only if that counts and no other does; otherwise it says that there is none,
or names those there are. The declaration is under the
directory, or nothing is and it is in the project around it; it is that of a
topology's name outside comments, of the name asked for if there is one; and
the directory of the deployment holds the file. -/
theorem resolve_exact (classes : CharClasses) (files : Files) (selected : SourcePath)
    (name : Option String) :
    (∀ source, resolveDeploymentSource classes files selected name = .ok source
      ↔ files.pathExists selected = true ∧ files.isDir selected = true
        ∧ Counts classes files selected name source
        ∧ ∀ other, Counts classes files selected name other → other = source)
      ∧ (files.pathExists selected = true → files.isDir selected = true → ∀ e,
        resolveDeploymentSource classes files selected name = .error e →
          (e = noneFound selected name ∧ ∀ item, ¬ Counts classes files selected name item)
            ∨ ∃ several, e = severalFound name several ∧ several.Nodup ∧ 2 ≤ several.length
              ∧ ∀ item, item ∈ several ↔ Counts classes files selected name item)
      ∧ ∀ source, Counts classes files selected name source →
        IsTopologyName source.topologyName ∧ (∀ n, name = some n → source.topologyName = n)
          ∧ source.deploymentDir <+: source.topologyFile.dropLast
          ∧ source.projectRoot = projectRoot files selected ∧ source.projectRoot <+: selected := by
  refine ⟨fun source => resolveDeploymentSource_eq_ok_iff,
    fun hexists hdir e he => resolveDeploymentSource_error hexists hdir he,
    fun source hcounts => ?_⟩
  have hdeclared : ∃ root, Declared classes files root (projectRoot files selected) name source :=
    hcounts.elim (fun h => ⟨_, h⟩) fun h => ⟨_, h.2⟩
  obtain ⟨root, hdeclared⟩ := hdeclared
  refine ⟨hdeclared.isTopologyName, fun n hn => ?_, ?_, hdeclared.inProject, ?_⟩
  · rcases hdeclared.named with hnone | hsome
    · cases hnone.symm.trans hn
    · exact Option.some.inj (hsome.symm.trans hn)
  · rw [hdeclared.inDir]
    exact deploymentDirectory_prefix _ _
  · rw [hdeclared.inProject]
    exact projectRoot_prefix files selected

end Declared

/-- The declaration in `demoFiles`. -/
def demoSource : DeploymentSource := ⟨["p"], ["p"], ["p", "Top", "topology.fpp"], "Ref"⟩

/-- A project with one deployment and a comment about another, and what its
build leaves. -/
def demoFiles (built : Bool) : Files where
  pathExists path := path = ["p"] || (built && path.dropLast = ["p", "build", "Top"])
  isDir path := path = ["p"] || (built && path = ["p", "build", "Top"])
  isFile path := path ∈ [["p", "settings.ini"], ["p", ".venv", "bin", "fprime-util"]]
    || (built && path ∈ [["p", "build", "compile_commands.json"],
      ["p", "build", "Top", "fpp-ast.json"], ["p", "build", "Top", "fpp-loc-map.json"],
      ["p", "build", "Top", "fpp-analysis.json"]])
  readText path :=
    if path = ["p", "Top", "topology.fpp"] then
      some "# deployment topology Old\ndeployment topology Ref\n"
    else none
  mtime _ := 0
  lsFiles root _ := if root = ["p"] then some "Top/topology.fpp\x00" else some ""
  below _ := []
  rglob _ _ := if built then [["p", "build", "Top", "fpp-analysis.json"]] else []

theorem resolve_exact_demo :
    Counts asciiClasses (demoFiles false) ["p"] none demoSource
      ∧ (∀ other, Counts asciiClasses (demoFiles false) ["p"] none other → other = demoSource)
      ∧ IsTopologyName "Ref" := by
  have hexact := resolve_exact asciiClasses (demoFiles false) ["p"] none
  have hok : resolveDeploymentSource asciiClasses (demoFiles false) ["p"] none
      = .ok demoSource := by
    decide +kernel
  obtain ⟨_, _, hcounts, hothers⟩ := (hexact.1 demoSource).mp hok
  exact ⟨hcounts, hothers, (hexact.2.2 demoSource hcounts).1⟩

end Cli

end FprimeTopologyAnalysis
