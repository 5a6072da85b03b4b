import Mathlib.Data.List.Nodup
import LayerComposition.Project
import LayerComposition.Proofs.Places

/-! # Discovery

A project knows exactly the directories that hold characters, each by its own name. Since no name
comes twice, it makes no difference whether a character is loaded by its name, by default, as the
only one, or along with all others.
-/

namespace LayerComposition

namespace FileSystem

open LayerComposition.Path

/-- A directory has an entry of a name. -/
def Lists (files : FileSystem) (directory name : String) (inner : FileNode) : Prop :=
  ∃ entries, files.node directory = .ok (.directory entries) ∧ (name, inner) ∈ entries

/-- A directory has an entry that its path leads to. Only a path that is too long for the system
    does not lead to the entry it is made for. -/
structure HasEntry (files : FileSystem) (directory name : String) (inner : FileNode) : Prop where
  listed : files.Lists directory name inner
  reached : files.node (join directory name) = .ok inner

variable {files : FileSystem} {directory name rest path : String} {inner : FileNode}

theorem mem_names_iff :
    name ∈ files.names directory ↔ ∃ inner, files.Lists directory name inner := by
  unfold names Lists
  split
  · next entries found => simp [found, List.mem_mergeSort]
  · next none =>
      simp only [List.not_mem_nil, false_iff]
      rintro ⟨inner, entries, found, -⟩
      exact none entries found

theorem isDirectory_iff :
    files.isDirectory path = true ↔ ∃ entries, files.node path = .ok (.directory entries) := by
  unfold isDirectory
  split <;> simp_all

theorem isFile_iff :
    files.isFile path = true ↔ ∃ content, files.node path = .ok (.file content) := by
  unfold isFile
  split <;> simp_all

/-- A directory of a tree keeps no name twice, so its names stand in strict order. -/
theorem pairwise_names (isTree : files.root.IsTree) :
    (files.names directory).Pairwise (· < ·) := by
  unfold names
  split
  · next entries found =>
      obtain ⟨location, -, stands⟩ := exists_leads found
      obtain ⟨distinct, -⟩ := FileNode.isTree_directory_iff.1 (isTree.find? stands)
      have distinct' : ((entries.map Prod.fst).mergeSort fun a b => decide (a ≤ b)).Nodup :=
        (List.mergeSort_perm _ _).nodup_iff.2 distinct
      have sorted : ((entries.map Prod.fst).mergeSort fun a b => decide (a ≤ b)).Pairwise
          (· ≤ ·) := by
        refine (List.pairwise_mergeSort ?_ ?_ _).imp of_decide_eq_true
        · intro first second third
          simpa using String.le_trans
        · intro first second
          simpa using String.le_total first second
      exact sorted.imp₂ (fun first second le ne => Std.lt_of_le_of_ne le ne) distinct'
  · exact .nil

/-- The path of an entry leads to the entry or, if it is too long, nowhere. -/
theorem hasEntry_iff (isTree : files.root.IsTree) :
    files.HasEntry directory name inner ↔
      files.Lists directory name inner ∧ (join directory name).utf8ByteSize < maxPathSize := by
  constructor
  · rintro ⟨listed, reached⟩
    exact ⟨listed, size_lt_of_node_eq_ok reached⟩
  · rintro ⟨⟨entries, found, mem⟩, short⟩
    obtain ⟨location, leads, stands⟩ := exists_leads found
    obtain ⟨distinct, isName, -⟩ := FileNode.isTree_directory_iff.1 (isTree.find? stands)
    refine ⟨⟨entries, found, mem⟩, (leads.node_join_of_isName (isName _ mem) stands).2 ⟨short, ?_⟩⟩
    exact Entries.lookup_of_mem distinct mem

/-- What is found by the path of a name is the entry of the name. -/
theorem hasEntry_of_mem_names (isTree : files.root.IsTree) (mem : name ∈ files.names directory)
    (reached : files.node (join directory name) = .ok inner) :
    files.HasEntry directory name inner := by
  obtain ⟨other, entries, found, listed⟩ := mem_names_iff.1 mem
  obtain ⟨location, leads, stands⟩ := exists_leads found
  obtain ⟨distinct, isName, -⟩ := FileNode.isTree_directory_iff.1 (isTree.find? stands)
  obtain ⟨-, entry⟩ := (leads.node_join_of_isName (isName _ listed) stands).1 reached
  exact ⟨⟨entries, found, Entries.mem_of_lookup entry⟩, reached⟩

/-- Where a file is named from the directory of an entry and found, the path of the entry is short
    enough. -/
theorem hasEntry_of_isFile_join (isTree : files.root.IsTree)
    (listed : files.Lists directory name inner) (relative : isAbsolute rest = false)
    (found : files.isFile (join (join directory name) rest)) :
    files.HasEntry directory name inner := by
  obtain ⟨content, found⟩ := isFile_iff.1 found
  have short := size_lt_of_node_eq_ok found
  have longer := size_add_size_le_join (join directory name) rest relative
  exact (hasEntry_iff isTree).2 ⟨listed, by omega⟩

end FileSystem

namespace CharacterDirectory

variable {files : FileSystem} {names : SourceNames} {directory : CharacterDirectory}
  {failure : Failure} {path : String}

theorem exists_of_mapError_eq_error {read : Except FileError String} {intent : String}
    (failed : read.mapError (·.failure path intent) = .error failure) :
    ∃ message, failure = .file path message := by
  cases read with
  | error error => exact ⟨_, (Except.error.inj failed).symm⟩
  | ok text => contradiction

theorem exists_of_readCatalog_eq_error (failed : readCatalog files path = .error failure) :
    ∃ message, failure = .file path message :=
  exists_of_mapError_eq_error failed

theorem exists_of_readOptional_eq_error (failed : readOptional files path = .error failure) :
    ∃ message, failure = .file path message := by
  unfold readOptional at failed
  split at failed
  · exact exists_of_mapError_eq_error failed
  · contradiction

/-- Only a file can keep a directory from being loaded. -/
theorem exists_of_load_eq_error (failed : directory.load files names = .error failure) :
    ∃ path message, failure = .file path message := by
  simp only [load, bind, Except.bind, pure, Except.pure] at failed
  split at failed
  · next error unread => exact ⟨_, Except.error.inj failed ▸ exists_of_readCatalog_eq_error unread⟩
  · split at failed
    · next error unread =>
        exact ⟨_, Except.error.inj failed ▸ exists_of_readOptional_eq_error unread⟩
    · split at failed
      · next error unread =>
          exact ⟨_, Except.error.inj failed ▸ exists_of_readOptional_eq_error unread⟩
      · contradiction

end CharacterDirectory

namespace Manifest

variable {files : FileSystem} {manifest : Manifest} {root name : String}

theorem names_scan :
    (manifest.scan files root).map (·.name) =
      (files.names root).filter fun name => manifest.isCharacter files (Path.join root name) := by
  simp [scan, List.filter_map, List.map_map, Function.comp_def]

theorem eq_of_mem_scan {directory : CharacterDirectory} (mem : directory ∈ manifest.scan files root) :
    directory = ⟨directory.name, Path.join root directory.name⟩ := by
  obtain ⟨listed, -⟩ := List.mem_filter.1 mem
  obtain ⟨name, -, rfl⟩ := List.mem_map.1 listed
  rfl

end Manifest

namespace Project

variable {files : FileSystem} {project : Project} {directory : CharacterDirectory}
  {name root : String}

/-- The directory in which the directories of the characters are. -/
def charactersRoot (project : Project) : String :=
  Path.join project.root project.manifest.characters

/-- The path of the directory of a character. -/
def pathOf (project : Project) (name : String) : String :=
  Path.join project.charactersRoot name

/-- A name is that of a directory that is not excluded and in which the catalog is a file. -/
structure Holds (files : FileSystem) (project : Project) (name : String) : Prop where
  included : project.manifest.isExcluded (project.pathOf name) = false
  hasCatalog : files.isFile (Path.join (project.pathOf name) project.manifest.files.catalog) = true

/-- A project has the manifest that is in effect, knows the characters that there are by it, and
    loads each of them in one way. -/
structure Faithful [Manifest.Codec] (files : FileSystem) (project : Project) : Prop where
  manifest : Manifest.IsInEffect files project.root project.manifest
  sorted : project.names.Pairwise (· < ·)
  mem_names_iff : ∀ name, name ∈ project.names ↔
    project.Holds files name ∧
      ∃ inner, files.HasEntry project.charactersRoot name (.directory inner)
  /-- From a relative name the catalog is only found where the path of the entry is not too long. -/
  mem_names_iff_of_relative : Path.isAbsolute project.manifest.files.catalog = false → ∀ name,
    (name ∈ project.names ↔
      project.Holds files name ∧
        ∃ inner, files.Lists project.charactersRoot name (.directory inner))
  load_eq : ∀ name ∈ project.names, project.load files (some name) =
    CharacterDirectory.load files project.manifest.files ⟨name, project.pathOf name⟩
  loadAll_eq : project.loadAll files =
    project.names.map fun name => (name, project.load files (some name))
  unknown_iff : ∀ name,
    (∃ wanted help?, project.load files (some name) = .error (.unknownCharacter wanted help?)) ↔
      name ∉ project.names
  load_default : ∀ name, project.manifest.defaultCharacter = some name →
    project.load files none = project.load files (some name)
  load_only : ∀ only, project.manifest.defaultCharacter = none → project.names = [only] →
    project.load files none = project.load files (some only)
  load_undecided : project.manifest.defaultCharacter = none → project.names.length ≠ 1 →
    ∃ wanted help?, project.load files none = .error (.unknownCharacter wanted help?)

/-- A project that is discovered has the manifest in effect, and the characters found by it. -/
theorem discover_eq_ok [Manifest.Codec] (discovered : discover files root = .ok project) :
    project.root = root ∧ Manifest.IsInEffect files root project.manifest ∧
      project.characters = project.manifest.scan files project.charactersRoot := by
  rw [discover_eq_map] at discovered
  cases effective : Manifest.inEffect files root with
  | error failure => simp [effective, Except.map] at discovered
  | ok manifest =>
      rw [effective] at discovered
      obtain rfl := Except.ok.inj discovered
      exact ⟨rfl, Manifest.inEffect_eq_ok_iff.1 effective, rfl⟩

theorem find?_eq_some (distinct : project.names.Nodup) (mem : directory ∈ project.characters) :
    project.find? directory.name = some directory := by
  cases found : project.find? directory.name with
  | none =>
      have none := List.find?_eq_none.1 found directory mem
      simp at none
  | some other =>
      have same : other.name = directory.name := by simpa using List.find?_some found
      rw [List.inj_on_of_nodup_map distinct (List.mem_of_find?_eq_some found) mem same]

theorem find?_eq_none (absent : name ∉ project.names) : project.find? name = none := by
  refine List.find?_eq_none.2 fun directory mem same => absent ?_
  exact List.mem_map.2 ⟨directory, mem, by simpa using same⟩

theorem load_of_mem (distinct : project.names.Nodup) (mem : directory ∈ project.characters) :
    project.load files (some directory.name) = directory.load files project.manifest.files := by
  simp [load, select, find?_eq_some distinct mem, bind, Except.bind]

theorem load_of_not_mem (absent : name ∉ project.names) :
    project.load files (some name) = .error (.unknownCharacter name (some project.available)) := by
  simp [load, select, find?_eq_none absent, bind, Except.bind]

theorem loadAll_eq_map (distinct : project.names.Nodup) :
    project.loadAll files = project.names.map fun name => (name, project.load files (some name)) := by
  rw [loadAll, names, List.map_map]
  refine List.map_congr_left fun directory mem => ?_
  rw [Function.comp_apply, load_of_mem distinct mem]

theorem unknown_iff (distinct : project.names.Nodup) :
    (∃ wanted help?, project.load files (some name) = .error (.unknownCharacter wanted help?)) ↔
      name ∉ project.names := by
  constructor
  · rintro ⟨wanted, help?, failed⟩ mem
    obtain ⟨directory, directory_mem, rfl⟩ := List.mem_map.1 mem
    rw [load_of_mem distinct directory_mem] at failed
    obtain ⟨path, message, same⟩ := CharacterDirectory.exists_of_load_eq_error failed
    contradiction
  · intro absent
    exact ⟨_, _, load_of_not_mem absent⟩

theorem load_none_of_default (default : project.manifest.defaultCharacter = some name) :
    project.load files none = project.load files (some name) := by
  rw [load, load, select, select, default]
  rfl

theorem load_none_of_only (undecided : project.manifest.defaultCharacter = none)
    (only : project.names = [name]) :
    project.load files none = project.load files (some name) := by
  obtain ⟨directory, characters, rfl⟩ : ∃ directory, project.characters = [directory] ∧
      directory.name = name := by
    simpa [names, List.map_eq_singleton_iff] using only
  simp [load, select, find?, undecided, characters]

theorem load_none_of_length_ne_one (undecided : project.manifest.defaultCharacter = none)
    (several : project.names.length ≠ 1) :
    ∃ wanted help?, project.load files none = .error (.unknownCharacter wanted help?) := by
  rw [names, List.length_map] at several
  simp only [load, select, undecided, Option.or_none]
  split
  · next only characters => simp [characters] at several
  · exact ⟨_, _, rfl⟩

/-- Discovery goes by the manifest in effect and knows exactly the characters there are by it, and
    all ways of loading them agree. -/
theorem faithful_of_discover [Manifest.Codec] (isTree : files.root.IsTree)
    (discovered : discover files root = .ok project) :
    project.root = root ∧ project.Faithful files := by
  obtain ⟨rfl, effective, characters_eq⟩ := discover_eq_ok discovered
  have names_eq : project.names = (files.names project.charactersRoot).filter fun name =>
      project.manifest.isCharacter files (project.pathOf name) := by
    rw [names, characters_eq, Manifest.names_scan]
    rfl
  have sorted : project.names.Pairwise (· < ·) := by
    rw [names_eq]
    exact (FileSystem.pairwise_names isTree).filter _
  have distinct : project.names.Nodup := sorted.imp fun lt => Std.ne_of_lt lt
  have mem_names_iff (name : String) : name ∈ project.names ↔ project.Holds files name ∧
      ∃ inner, files.HasEntry project.charactersRoot name (.directory inner) := by
    simp only [names_eq, List.mem_filter, Manifest.isCharacter, Bool.and_eq_true, Bool.not_eq_true']
    constructor
    · rintro ⟨mem, ⟨isDirectory, included⟩, hasCatalog⟩
      obtain ⟨inner, reached⟩ := FileSystem.isDirectory_iff.1 isDirectory
      exact ⟨⟨included, hasCatalog⟩, inner, FileSystem.hasEntry_of_mem_names isTree mem reached⟩
    · rintro ⟨⟨included, hasCatalog⟩, inner, listed, reached⟩
      exact ⟨FileSystem.mem_names_iff.2 ⟨_, listed⟩,
        ⟨FileSystem.isDirectory_iff.2 ⟨inner, reached⟩, included⟩, hasCatalog⟩
  refine ⟨rfl, effective, sorted, mem_names_iff, fun relative name => ?_, fun name mem => ?_,
    loadAll_eq_map distinct, fun name => unknown_iff distinct, fun name => load_none_of_default,
    fun only => load_none_of_only, load_none_of_length_ne_one⟩
  · rw [mem_names_iff]
    refine and_congr_right fun holds => exists_congr fun inner => ?_
    exact ⟨fun entry => entry.listed, fun listed =>
      FileSystem.hasEntry_of_isFile_join isTree listed relative holds.hasCatalog⟩
  · obtain ⟨directory, directory_mem, rfl⟩ := List.mem_map.1 mem
    rw [load_of_mem distinct directory_mem]
    rw [characters_eq] at directory_mem
    rw [Manifest.eq_of_mem_scan directory_mem]
    rfl

/-- A directory of characters with one character among other things. -/
def studio : FileSystem :=
  ⟨.directory [("characters", .directory [
      ("empty", .directory []),
      ("hero", .directory [("layers.txt", .file .empty)]),
      ("notes.txt", .file .empty)])], []⟩

theorem isTree_studio : studio.root.IsTree := by
  simp only [studio, FileNode.isTree_directory_iff, List.forall_mem_cons, List.not_mem_nil,
    false_implies, implies_true, FileNode.IsTree.file, and_true]
  decide

theorem discover_studio :
    discover studio "." = .ok ⟨".", .standard, false, [⟨"hero", "./characters/hero"⟩]⟩ := by
  have names : studio.names "./characters" = ["empty", "hero", "notes.txt"] :=
    List.mergeSort_of_pairwise (by decide)
  have scan : Manifest.standard.scan studio "./characters" = [⟨"hero", "./characters/hero"⟩] := by
    rw [Manifest.scan, names]
    rfl
  rw [← scan]
  rfl

theorem faithful_of_discover_studio :
    ∃ project, discover studio "." = .ok project ∧ project.names = ["hero"] ∧
      project.root = "." ∧ project.Faithful studio :=
  ⟨_, discover_studio, rfl, faithful_of_discover isTree_studio discover_studio⟩

end Project

end LayerComposition
