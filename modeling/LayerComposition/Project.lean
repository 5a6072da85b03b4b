import LayerComposition.Character
import LayerComposition.FileSystem
import LayerComposition.Manifest

/-! # Projects

A project is a directory with a manifest, if there is one, and a directory of characters. Each
directory in it that holds a catalog file and is not excluded is a character.
-/

namespace LayerComposition

/-- The directory of a character. -/
structure CharacterDirectory where
  name : String
  path : String
  deriving Repr, DecidableEq

/-- The failure of a file that cannot be used for what was intended. -/
def FileError.failure (path intent : String) (error : FileError) : Failure :=
  .file path (intent ++ ": " ++ error.message)

/-- A value whose error is rewritten is there exactly if the value itself is. -/
theorem mapError_eq_ok_iff {ε δ α : Type} {f : ε → δ} {value : Except ε α} {a : α} :
    value.mapError f = .ok a ↔ value = .ok a := by
  cases value with
  | error e => constructor <;> intro same <;> contradiction
  | ok b =>
      constructor
      · intro same
        obtain rfl := Except.ok.inj same
        rfl
      · intro same
        obtain rfl := Except.ok.inj same
        rfl

namespace CharacterDirectory

/-- Read the file that a character cannot do without. -/
def readCatalog (files : FileSystem) (path : String) : Except Failure String :=
  (files.readText path).mapError (·.failure path "Failed to read catalog")

/-- Read a file that counts as empty if it is not there. -/
def readOptional (files : FileSystem) (path : String) : Except Failure String :=
  if files.has path then
    (files.readText path).mapError (·.failure path "Failed to read file")
  else .ok ""

def load (files : FileSystem) (names : SourceNames) (directory : CharacterDirectory) :
    Except Failure Character := do
  let catalog ← readCatalog files (Path.join directory.path names.catalog)
  let compositions ← readOptional files (Path.join directory.path names.compositions)
  let baseline ← readOptional files (Path.join directory.path names.baseline)
  return .ofSources ⟨directory.name, catalog, compositions, baseline⟩

end CharacterDirectory

namespace Manifest

def load [Codec] (files : FileSystem) (path : String) : Except Failure Manifest := do
  let text ← (files.readText path).mapError (·.failure path "Failed to read manifest")
  (Codec.decode text).mapError invalid

/-- The manifest in effect in a project: the one that is there, or else the standard one. -/
def inEffect [Codec] (files : FileSystem) (root : String) : Except Failure Manifest :=
  if files.has (pathIn root) then load files (pathIn root) else .ok standard

/-- What makes a manifest the one in effect: it is decoded from the text of the file in the
    directory of the project, or there is no such file and it is the standard one. -/
inductive IsInEffect [Codec] (files : FileSystem) (root : String) : Manifest → Prop where
  | written {text : String} {manifest : Manifest} (there : files.has (pathIn root) = true)
      (reads : files.readText (pathIn root) = .ok text)
      (decodes : Codec.decode text = .ok manifest) : IsInEffect files root manifest
  | standard (absent : files.has (pathIn root) = false) : IsInEffect files root .standard

theorem load_eq_ok_iff [Codec] {files : FileSystem} {path : String} {manifest : Manifest} :
    load files path = .ok manifest ↔
      ∃ text, files.readText path = .ok text ∧ Codec.decode text = .ok manifest := by
  cases reads : files.readText path with
  | error error =>
      have failed : load files path = .error (error.failure path "Failed to read manifest") := by
        rw [load, reads]
        rfl
      simp [failed]
  | ok text =>
      have decoded : load files path = (Codec.decode text).mapError invalid := by
        rw [load, reads]
        rfl
      simp [decoded, mapError_eq_ok_iff]

theorem inEffect_eq_ok_iff [Codec] {files : FileSystem} {root : String} {manifest : Manifest} :
    inEffect files root = .ok manifest ↔ IsInEffect files root manifest := by
  unfold inEffect
  cases there : files.has (pathIn root) with
  | true =>
      rw [if_pos rfl, load_eq_ok_iff]
      constructor
      · rintro ⟨text, reads, decodes⟩
        exact .written there reads decodes
      · rintro (⟨_, reads, decodes⟩ | absent)
        · exact ⟨_, reads, decodes⟩
        · rw [there] at absent
          contradiction
  | false =>
      rw [if_neg Bool.false_ne_true]
      constructor
      · intro same
        obtain rfl := Except.ok.inj same
        exact .standard there
      · rintro (⟨present, _, _⟩ | _)
        · rw [there] at present
          contradiction
        · rfl

/-- Whether a directory is that of a character: it is not excluded and has a catalog. -/
def isCharacter (files : FileSystem) (manifest : Manifest) (path : String) : Bool :=
  files.isDirectory path && !manifest.isExcluded path &&
    files.isFile (Path.join path manifest.files.catalog)

/-- The directories of characters in a directory, in the order of their names. -/
def scan (files : FileSystem) (manifest : Manifest) (root : String) :
    List CharacterDirectory :=
  ((files.names root).map fun name => ⟨name, Path.join root name⟩).filter
    fun directory => manifest.isCharacter files directory.path

end Manifest

/-- A project that has been looked through. -/
structure Project where
  root : String
  manifest : Manifest
  hasManifest : Bool
  characters : List CharacterDirectory
  deriving Repr, DecidableEq

namespace Project

def discover [Manifest.Codec] (files : FileSystem) (root : String) : Except Failure Project := do
  let manifestPath := Manifest.pathIn root
  let hasManifest := files.has manifestPath
  let manifest ← if hasManifest then Manifest.load files manifestPath else pure .standard
  let characters := manifest.scan files (Path.join root manifest.characters)
  return { root, manifest, hasManifest, characters }

/-- What is discovered follows from the manifest in effect. -/
theorem discover_eq_map [Manifest.Codec] (files : FileSystem) (root : String) :
    discover files root = (Manifest.inEffect files root).map fun manifest =>
      ⟨root, manifest, files.has (Manifest.pathIn root),
        manifest.scan files (Path.join root manifest.characters)⟩ := by
  unfold discover Manifest.inEffect
  cases there : files.has (Manifest.pathIn root) with
  | false => simp [there, bind, Except.bind, pure, Except.pure, Except.map]
  | true =>
      cases loaded : Manifest.load files (Manifest.pathIn root) <;>
        simp [there, loaded, bind, Except.bind, pure, Except.pure, Except.map]

def names (project : Project) : List String :=
  project.characters.map (·.name)

def find? (project : Project) (name : String) : Option CharacterDirectory :=
  project.characters.find? (·.name = name)

def available (project : Project) : String :=
  if project.characters.isEmpty then
    "No characters found under " ++ Path.join project.root project.manifest.characters
  else "Available: " ++ ", ".intercalate project.names

/-- Choose a character: the one that is named, else the default of the manifest, else the only
    one there is. -/
def select (project : Project) (name? : Option String) : Except Failure CharacterDirectory :=
  match name?.or project.manifest.defaultCharacter with
  | some name =>
      match project.find? name with
      | some directory => .ok directory
      | none => .error (.unknownCharacter name (some project.available))
  | none =>
      match project.characters with
      | [only] => .ok only
      | _ =>
          .error <| .unknownCharacter "(none selected)" <| some <|
            "Pass --character or set default_character in " ++ Manifest.fileName ++ ". " ++
              project.available

def load (files : FileSystem) (project : Project) (name? : Option String) :
    Except Failure Character := do
  let directory ← project.select name?
  directory.load files project.manifest.files

/-- Load every character, with the failures of those that cannot be loaded. -/
def loadAll (files : FileSystem) (project : Project) :
    List (String × Except Failure Character) :=
  project.characters.map fun directory =>
    (directory.name, directory.load files project.manifest.files)

end Project

end LayerComposition
