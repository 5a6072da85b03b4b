import LayerComposition.Project
import LayerComposition.Rendering
import LayerComposition.Terminal
import LayerComposition.Validation

/-! # Commands

What each command prints, what it fails with and what it does to files, as functions of the
file system and the terminal. Results go to standard output and all else to standard error.
Only `init` changes a file.
-/

namespace LayerComposition

/-- Which project to use, and which of its characters. -/
structure Selection where
  root : String
  character : Option String
  deriving Repr, DecidableEq

/-- A shell for which completions can be made. -/
inductive Shell where
  | bash
  | elvish
  | fish
  | powershell
  | zsh
  deriving Repr, DecidableEq

/-- What the user asks for. -/
inductive Command where
  /-- Print the layers that an expression switches on. -/
  | resolve (selection : Selection) (expression : Option String) (json : Bool)
  /-- Print the canonical form of an expression. -/
  | canon (selection : Selection) (expression : String)
  /-- Print the expression of active compositions and layers. -/
  | synth (selection : Selection) (compositions layers : List String)
  /-- Check the definitions of one character, or of all. -/
  | validate (selection : Selection) (all strict : Bool)
  /-- Print the characters, or what one of them consists of. -/
  | list (selection : Selection) (deps : Bool)
  /-- Write a manifest. -/
  | init (path : String) (force : Bool)
  /-- Print completions for a shell. -/
  | completions (shell : Shell)
  deriving Repr, DecidableEq

/-- What a command leaves: its output, and how it ended. -/
structure Transcript where
  out : String
  err : String
  result : Except Failure Unit

/-- Where a command runs. -/
structure Environment where
  files : FileSystem
  terminal : Terminal

namespace Transcript

def success (out err : String) : Transcript :=
  ⟨out, err, .ok ()⟩

def failed (err : String) (failure : Failure) : Transcript :=
  ⟨"", err, .error failure⟩

/-- A command that prints a result, or ends with the cycle that stands in its way. -/
def printed (err : String) : Except Cycle String → Transcript
  | .ok text => success (text ++ "\n") err
  | .error cycle => failed err (.cyclicComposition cycle)

end Transcript

namespace Environment

/-- The line that tells which character was loaded. -/
def loadedLine (environment : Environment) (character : Character) : String :=
  environment.terminal.line .status "Loaded" <|
    character.name ++ " (" ++ plural character.catalog.size "layer" "layers" ++ ", " ++
      plural character.registry.size "composition" "compositions" ++ ")"

def load [Manifest.Codec] (environment : Environment) (selection : Selection) :
    Except Failure Character := do
  let project ← Project.discover environment.files selection.root
  project.load environment.files selection.character

/-- Load the selected character, tell so, and go on with it. -/
def withCharacter [Manifest.Codec] (environment : Environment) (selection : Selection)
    (use : Character → Transcript) : Transcript :=
  match environment.load selection with
  | .error failure => .failed "" failure
  | .ok character =>
      let transcript := use character
      { transcript with err := environment.loadedLine character ++ transcript.err }

/-! ## Expressions -/

def resolve [Manifest.Codec] (environment : Environment) (selection : Selection)
    (expression : Option String) (json : Bool) : Transcript :=
  environment.withCharacter selection fun character =>
    .printed "" (character.render expression json)

def canon [Manifest.Codec] (environment : Environment) (selection : Selection)
    (expression : String) : Transcript :=
  environment.withCharacter selection fun character =>
    .printed "" (character.canonicalize expression)

/-- The warnings about names that a character does not have. -/
def unknownLines (environment : Environment) (character : Character)
    (compositions layers : List String) : String :=
  let unknownCompositions := compositions.filter fun name => !character.registry.contains name
  let unknownLayers := layers.filter fun id => !character.catalog.contains id
  String.join <|
    (unknownCompositions.map fun name => s!"unknown composition '{name}'") ++
      (unknownLayers.map fun id => s!"unknown layer '{id}'") |>.map
        (environment.terminal.line .warning "Ignoring")

def synth [Manifest.Codec] (environment : Environment) (selection : Selection)
    (compositions layers : List String) : Transcript :=
  environment.withCharacter selection fun character =>
    let active := ActiveSet.ofList (compositions.filter character.registry.contains)
    let state := Activation.ofList
      ((layers.filter character.catalog.contains).map fun id => (id, true))
    .printed (environment.unknownLines character compositions layers)
      (character.synthesize state active)

/-! ## Validation -/

/-- Whether a report lets a character pass. Under `strict` nothing may be remarked. -/
def passes (strict : Bool) (report : Report) : Bool :=
  if strict then report.isClean else !report.hasErrors

/-- What is told about one character, and whether it passes. -/
def checkLines (environment : Environment) (strict : Bool) (character : Character) :
    String × Bool :=
  let report := character.validate
  (environment.terminal.report character.name report, passes strict report)

/-- How validation ends, given how many characters failed. -/
def verdict (strict : Bool) (failures : Nat) : Except Failure Unit :=
  if failures = 0 then .ok ()
  else
    .error <| .validation (plural failures "character" "characters" ++ " failed validation") <|
      if strict then some "Warnings count as errors with --strict" else none

/-- What is told about one entry of a project, and whether it passes. One that cannot be loaded
    fails. -/
def checkEntry (environment : Environment) (strict : Bool) :
    String × Except Failure Character → String × Bool
  | (_, .ok character) => environment.checkLines strict character
  | (name, .error failure) =>
      (environment.terminal.line .error "Failed" (name ++ ": " ++ failure.message), false)

def validateAll [Manifest.Codec] (environment : Environment) (root : String) (strict : Bool) :
    Transcript :=
  match Project.discover environment.files root with
  | .error failure => .failed "" failure
  | .ok project =>
      let checks := (project.loadAll environment.files).map (environment.checkEntry strict)
      let summary := environment.terminal.line .info "Validated"
        (plural checks.length "character" "characters")
      ⟨"", String.join (checks.map (·.1)) ++ summary, verdict strict (checks.countP (!·.2))⟩

def validateOne [Manifest.Codec] (environment : Environment) (selection : Selection)
    (strict : Bool) : Transcript :=
  environment.withCharacter selection fun character =>
    let (lines, passed) := environment.checkLines strict character
    ⟨"", lines, verdict strict (if passed then 0 else 1)⟩

/-! ## Listings -/

def characterLine (environment : Environment) (project : Project)
    (directory : CharacterDirectory) : String :=
  environment.terminal.line .info "Character" <|
    if project.manifest.defaultCharacter = some directory.name then
      environment.terminal.bold directory.name ++ " " ++ environment.terminal.dim "(default)"
    else directory.name

def listCharacters [Manifest.Codec] (environment : Environment) (root : String) : Transcript :=
  match Project.discover environment.files root with
  | .error failure => .failed "" failure
  | .ok project =>
      if project.characters.isEmpty then
        .success "" <| environment.terminal.line .warning "Empty"
          (Path.display environment.files.workingDirectory project.root)
      else
        .success "" <|
          String.join (project.characters.map (environment.characterLine project)) ++
            environment.terminal.line .status "Found"
              (plural project.characters.length "character" "characters")

def namesLine (environment : Environment) (verb : String) (names : List String) : String :=
  if names = [] then "" else environment.terminal.line .info verb (", ".intercalate names)

def sortNames (names : List String) : List String :=
  names.mergeSort fun a b => decide (a ≤ b)

/-- The lines that tell what a character consists of. -/
def inventoryLines (environment : Environment) (character : Character) : String :=
  let groups := character.catalog.groups.map fun group =>
    environment.namesLine group ((character.catalog.group group).map Layer.name)
  String.join groups ++
    environment.namesLine "Compositions" (sortNames character.registry.names) ++
    environment.namesLine "Presets" character.baseline.presetNames

/-- The line that tells what a composition includes and what includes it. -/
def dependencyLine (environment : Environment) (graph : ReferenceGraph) (name : String) :
    String :=
  let part (arrow : String) (names : List String) : String :=
    if names = [] then ""
    else " " ++ environment.terminal.dim arrow ++ " " ++ ", ".intercalate names
  environment.terminal.line .info "Composition" <|
    name ++ part "->" (graph.references name) ++ part "<-" (graph.referencedBy name)

/-- The lines that tell how the compositions of a character include each other. -/
def dependencyLines (environment : Environment) (character : Character) : String :=
  let graph := character.registry.graph
  String.join ((sortNames graph.nodes).map (environment.dependencyLine graph))

def list [Manifest.Codec] (environment : Environment) (selection : Selection) (deps : Bool) :
    Transcript :=
  if selection.character.isNone && !deps then environment.listCharacters selection.root
  else
    environment.withCharacter selection fun character =>
      .success "" <|
        if deps then environment.dependencyLines character
        else environment.inventoryLines character

/-! ## Setting up -/

/-- The manifest that `init` writes: the one in effect, with the first character for a default
    if it has none. -/
def initialManifest (project : Project) : Manifest :=
  { project.manifest with
    defaultCharacter := project.manifest.defaultCharacter.or project.names.head? }

/-- The lines that tell what `init` found and wrote. -/
def initLines (environment : Environment) (project : Project) : String :=
  environment.namesLine "Discovered" project.names ++
    environment.terminal.line .status "Created"
      (Manifest.fileName ++ " (" ++
        plural project.characters.length "character" "characters" ++ " found)")

/-- Write the manifest of a project, and tell what files there are then. -/
def init [Manifest.Codec] (environment : Environment) (path : String) (force : Bool) :
    Transcript × FileSystem :=
  let files := environment.files
  let manifestPath := Manifest.pathIn path
  if files.has manifestPath && !force then
    (.failed "" (.file manifestPath (Manifest.fileName ++ " already exists")), files)
  else
    let scanning := environment.terminal.line .status "Scanning"
      (Path.display files.workingDirectory path)
    match Project.discover files path with
    | .error failure => (.failed scanning failure, files)
    | .ok project =>
        match Manifest.Codec.encode (initialManifest project) with
        | .error message =>
            (.failed scanning (.output ("Failed to encode manifest: " ++ message)), files)
        | .ok text =>
            match files.writeText manifestPath text with
            | .error error =>
                (.failed scanning (error.failure manifestPath "Failed to write manifest"), files)
            | .ok written => (.success "" (scanning ++ environment.initLines project), written)

/-! ## All commands -/

/-- Run a command. The answer holds the files as the command leaves them. Completions are made
    by the shells' own tools, so nothing is printed for them here. -/
def run [Manifest.Codec] (environment : Environment) : Command → Transcript × FileSystem
  | .resolve selection expression json =>
      (environment.resolve selection expression json, environment.files)
  | .canon selection expression => (environment.canon selection expression, environment.files)
  | .synth selection compositions layers =>
      (environment.synth selection compositions layers, environment.files)
  | .validate selection true strict =>
      (environment.validateAll selection.root strict, environment.files)
  | .validate selection false strict =>
      (environment.validateOne selection strict, environment.files)
  | .list selection deps => (environment.list selection deps, environment.files)
  | .init path force => environment.init path force
  | .completions _ => (.success "" "", environment.files)

end Environment

end LayerComposition
