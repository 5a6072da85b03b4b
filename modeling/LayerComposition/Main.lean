import LayerComposition.Usage

/-! # The program

Reads a command line, brings the files that it may ask for into a file system value, runs the
command on that value, and prints and writes what the command left.
-/

namespace LayerComposition.Program

/-- The paths that lead to a path, each one piece longer than the one before, and the path. -/
def steps (path : String) : List String :=
  let pieces := Path.pieces path
  (List.range pieces.length).map fun i => "/".intercalate (pieces.take (i + 1))

def entryNames (path : String) : IO (List String) := do
  let entries ← (← IO.FS.realPath path).readDir
  return (entries.map (·.fileName)).toList

/-- What stands at a path: a directory, here without its entries, or a file, or nothing that can
    be read. -/
def look (path : String) : IO (Option FileNode) := do
  if let .ok _ ← (entryNames path).toBaseIO then
    return some (.directory [])
  match ← (IO.FS.readBinFile path).toBaseIO with
  | .ok content => return some (.file content)
  | .error _ => return none

/-- Bring what stands at a path into a file system, unless something is known to be there. -/
def observeStep (files : FileSystem) (path : String) : IO FileSystem := do
  match files.locate path with
  | .error _ => return files
  | .ok location =>
      if (files.root.find? location).isSome then return files
      match ← look path with
      | none => return files
      | some node => return { files with root := FileNode.put node location files.root }

/-- Bring what stands at a path, and on the way to it, into a file system. -/
def observe (files : FileSystem) (path : String) : IO FileSystem :=
  (steps path).foldlM observeStep files

/-- The file system of which only the working directory is known. -/
def surroundings : IO FileSystem := do
  let here := (Path.pieces (← IO.currentDir).toString).filter fun piece => !Path.isIdle piece
  return ⟨FileNode.put (.directory []) here (.directory []), here⟩

/-- Bring the files of a project into a file system: its manifest, and the sources of each
    directory that may be a character. -/
def observeProject (files : FileSystem) (root : String) : IO FileSystem := do
  let manifestPath := Manifest.pathIn root
  let files ← observe (← observe files root) manifestPath
  let manifest := (Manifest.load files manifestPath).toOption.getD .standard
  let characters := Path.join root manifest.characters
  let files ← observe files characters
  let names := (← (entryNames characters).toBaseIO).toOption.getD []
  let sources := [manifest.files.catalog, manifest.files.compositions, manifest.files.baseline]
  let paths := names.flatMap fun name =>
    sources.map fun source => Path.join (Path.join characters name) source
  paths.foldlM observe files

def projectRoot? : Command → Option String
  | .resolve selection _ _ | .canon selection _ | .synth selection _ _ | .validate selection _ _
  | .list selection _ => some selection.root
  | .init path _ => some path
  | .completions _ => none

/-- Write the manifest that a command left in a project, if it is a new one. -/
def keepManifest (before after : FileSystem) (root : String) : IO Unit := do
  let path := Manifest.pathIn root
  match after.readText path with
  | .error _ => return
  | .ok text =>
      if (before.readText path).toOption ≠ some text then IO.FS.writeFile path text

/-- Tell why a command failed, and what to do about it. -/
def tellFailure (failure : Failure) : IO Unit := do
  IO.eprintln s!"Error: {failure.message} ({failure.code})"
  if let some help := failure.help? then
    IO.eprintln s!"  help: {help}"

/-- Run a command on the files there are. The answer is the exit status. -/
def runCommand (invocation : Usage.Invocation) : IO UInt32 := do
  let root? := projectRoot? invocation.command
  let known ← surroundings
  let files ← match root? with
    | some root => observeProject known root
    | none => pure known
  let terminal : Terminal := ⟨(← (← IO.getStderr).isTty) && !invocation.noColor⟩
  let (transcript, left) := Environment.run ⟨files, terminal⟩ invocation.command
  if let some root := root? then keepManifest files left root
  IO.eprint transcript.err
  IO.print transcript.out
  match transcript.result with
  | .ok () => return 0
  | .error failure => do
      tellFailure failure
      return 1

def help : String :=
  "Layered character composition resolver

Usage: compo [--no-color] COMMAND

Commands:
  resolve [-r ROOT] [-c CHARACTER] [--json] [EXPRESSION]
      Resolve an expression to the layers it turns on
  canon [-r ROOT] [-c CHARACTER] EXPRESSION
      Print the canonical form of an expression
  synth [-r ROOT] [-c CHARACTER] [-m NAMES] [-l LAYERS]
      Build the expression for an exact set of layers
  validate [-r ROOT] [-c CHARACTER | --all] [--strict]
      Check character definitions for problems
  list [-r ROOT] [-c CHARACTER] [--deps]
      List characters, groups and compositions
  init [PATH] [--force]
      Write the manifest of a project
  completions SHELL
      Name a shell to make completions for
"

/-- Tell what a command line lacks, or what its user asked for. -/
def tellUsage : UsageError → IO Unit
  | .helpRequested => IO.print help
  | .versionRequested => IO.println "compo 0.4.0"
  | .nothingGiven => IO.eprint help
  | error => IO.eprint s!"Error: {error.message}\n\n{help}"

end LayerComposition.Program

open LayerComposition in
/-- Run the program. The exit status is 0 for success, 1 for a failure and 2 for a mistake on the
    command line. -/
def main (arguments : List String) : IO UInt32 := do
  match Usage.read arguments with
  | .error error => do
      Program.tellUsage error
      return error.status.toUInt32
  | .ok invocation => Program.runCommand invocation
