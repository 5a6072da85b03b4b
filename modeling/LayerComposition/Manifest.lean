import LayerComposition.Failure
import LayerComposition.Path
import LayerComposition.Yaml.Node
import LayerComposition.Yaml.Scalar

/-! # Manifests

The manifest of a project says where the directories of the characters are, which character is
chosen by default, how the source files are named, and which directories are passed over. All
of it has defaults, so a project can do without.
-/

namespace LayerComposition

/-- The names of the three source files in the directory of a character. -/
structure SourceNames where
  catalog : String
  compositions : String
  baseline : String
  deriving Repr, DecidableEq

def SourceNames.standard : SourceNames :=
  ⟨"layers.txt", "compositions.txt", "default.txt"⟩

/-- The settings of a project. -/
structure Manifest where
  /-- The directory with one directory for each character. -/
  characters : String
  /-- The character that is chosen if none is named. -/
  defaultCharacter : Option String
  files : SourceNames
  /-- Patterns of directories that are passed over. -/
  excludes : List String
  deriving Repr, DecidableEq

namespace Manifest

/-- The name of the manifest in the directory of a project. -/
def fileName : String :=
  "compo.yaml"

/-- Where the manifest of a project is. -/
def pathIn (root : String) : String :=
  Path.join root fileName

def standard : Manifest :=
  ⟨"characters", none, .standard, []⟩

/-! ## Encodings -/

/-- How manifests are read from a text and written as one. Both may be refused with a message. -/
class Codec where
  decode : String → Except String Manifest
  encode : Manifest → Except String String

/-- An encoding that reads every manifest back from the text that it has written of it. -/
class LawfulCodec [Codec] : Prop where
  decode_encode : ∀ {manifest : Manifest} {text : String},
    Codec.encode manifest = .ok text → Codec.decode text = .ok manifest

/-- The failure of a command that needs a manifest whose text is refused. -/
def invalid (message : String) : Failure :=
  .parse ("Invalid manifest: " ++ message) (some "Check compo.yaml syntax")

end Manifest

/-- What is wrong with the text of a manifest. -/
inductive ManifestError where
  | yaml (error : Yaml.Error)
  | notAMapping
  | notAList (key : String)
  | notAText (key : String)
  | repeatedKey (key : String)
  deriving Repr, DecidableEq

namespace ManifestError

def message : ManifestError → String
  | yaml error => error.message
  | notAMapping => "expected a mapping"
  | notAList key => s!"{key}: expected a list"
  | notAText key => s!"{key}: expected a text"
  | repeatedKey key => s!"{key}: given more than once"

def failure (error : ManifestError) : Failure :=
  Manifest.invalid error.message

end ManifestError

namespace Manifest

/-! ## Reading -/

/-- The text of a node, which is what is written whatever it looks like. -/
def text (key : String) : Yaml.Node → Except ManifestError String
  | .scalar text _ => .ok text
  | _ => .error (.notAText key)

/-- The text of a node that may stand for nothing: plainly written nothing does. -/
def optionalText (key : String) : Yaml.Node → Except ManifestError (Option String)
  | .scalar text plain =>
      .ok (if plain && (text.isEmpty || Yaml.Scalar.isNull text) then none else some text)
  | _ => .error (.notAText key)

/-- The texts of a list. Where nothing is written, there are none. -/
def texts (key : String) : Yaml.Node → Except ManifestError (List String)
  | .list items => items.mapM (text key)
  | .scalar "" true => .ok []
  | _ => .error (.notAList key)

/-- The entries of a mapping, by their keys. Where nothing is written, there are none. -/
def entries : Yaml.Node → Except ManifestError (List (String × Yaml.Node))
  | .mapping entries =>
      entries.mapM fun
        | (.scalar key _, value) => .ok (key, value)
        | _ => .error .notAMapping
  | .scalar "" true => .ok []
  | _ => .error .notAMapping

/-- Read the entry of a key, or take a default if there is none. A key may not be given twice. -/
def entry {α : Type} (key : String) (default : α) (read : Yaml.Node → Except ManifestError α)
    (entries : List (String × Yaml.Node)) : Except ManifestError α :=
  match entries.filter (·.1 = key) with
  | [] => .ok default
  | [(_, value)] => read value
  | _ => .error (.repeatedKey key)

def readFiles (node : Yaml.Node) : Except ManifestError SourceNames := do
  let entries ← entries node
  return {
    catalog := ← entry "catalog" SourceNames.standard.catalog (text "catalog") entries
    compositions :=
      ← entry "compositions" SourceNames.standard.compositions (text "compositions") entries
    baseline := ← entry "baseline" SourceNames.standard.baseline (text "baseline") entries }

/-- Read the settings of a document. Keys without a meaning are passed over. -/
def ofNode (node : Yaml.Node) : Except ManifestError Manifest := do
  let entries ← entries node
  return {
    characters := ← entry "characters" standard.characters (text "characters") entries
    defaultCharacter :=
      ← entry "default_character" standard.defaultCharacter (optionalText "default_character")
        entries
    files := ← entry "files" standard.files readFiles entries
    excludes := ← entry "excludes" standard.excludes (texts "excludes") entries }

def read (text : String) : Except ManifestError Manifest := do
  ofNode (← (Yaml.Node.ofText text).mapError .yaml)

/-! ## Writing -/

/-- The line of a key with its text, indented by a number of spaces. -/
def line (indent : Nat) (key text : String) : String :=
  String.ofList (List.replicate indent ' ') ++ key ++ ": " ++
    Yaml.Scalar.write (indent + 2) text

/-- The lines of the patterns that are passed over. -/
def excludeLines (excludes : List String) : String :=
  match excludes with
  | [] => "excludes: []\n"
  | excludes =>
      "excludes:\n" ++
        String.join (excludes.map fun pattern => "- " ++ Yaml.Scalar.write 2 pattern)

def write (manifest : Manifest) : String :=
  line 0 "characters" manifest.characters ++
  (match manifest.defaultCharacter with
    | none => "default_character: null\n"
    | some name => line 0 "default_character" name) ++
  "files:\n" ++
  line 2 "catalog" manifest.files.catalog ++
  line 2 "compositions" manifest.files.compositions ++
  line 2 "baseline" manifest.files.baseline ++
  excludeLines manifest.excludes

/-- The texts of manifests are documents of this library's own YAML, unless another encoding is
    given. -/
instance yaml : Codec where
  decode text := (read text).mapError ManifestError.message
  encode manifest := .ok manifest.write

/-! ## Excluded directories -/

/-- Whether a path matches a pattern. A star in front stands for any beginning of the path, and
    a star behind for any end of its last piece; a pattern without a star has to be one of the
    pieces. -/
def matchesPattern (path pattern : String) : Bool :=
  match pattern.toList with
  | '*' :: ending => ending.isSuffixOf path.toList
  | cs =>
      if cs.getLast? = some '*' then
        cs.dropLast.isPrefixOf ((Path.pieces path).getLastD "").toList
      else (Path.pieces path).contains pattern

def isExcluded (manifest : Manifest) (path : String) : Bool :=
  manifest.excludes.any (matchesPattern path)

end Manifest

end LayerComposition
