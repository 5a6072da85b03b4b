import LayerComposition.Path

/-! # File systems

A file system is a value: a tree of directories and files, seen from a working directory. What
a command does to files is the tree that it leaves.
-/

namespace LayerComposition

/-- Why a file cannot be used. -/
inductive FileError where
  | notFound
  | notADirectory
  | isADirectory
  | nameTooLong
  | zeroInName
  | notText
  deriving Repr, DecidableEq

/-- What the system says about a file that cannot be used. -/
def FileError.message : FileError → String
  | notFound => "No such file or directory (os error 2)"
  | notADirectory => "Not a directory (os error 20)"
  | isADirectory => "Is a directory (os error 21)"
  | nameTooLong => "File name too long (os error 36)"
  | zeroInName => "file name contained an unexpected NUL byte"
  | notText => "stream did not contain valid UTF-8"

/-- A file with its bytes, or a directory with its entries by name. -/
inductive FileNode where
  | file (content : ByteArray)
  | directory (entries : List (String × FileNode))

namespace FileNode

/-- The node at a location, given by the names that lead to it. -/
def find? : FileNode → (location : List String) → Option FileNode
  | node, [] => some node
  | file _, _ :: _ => none
  | directory entries, name :: rest => (entries.lookup name).bind fun node => node.find? rest

/-- Give the entry named `name` the node `node`, adding it at the end if there is none. -/
def putEntry (name : String) (node : FileNode) :
    List (String × FileNode) → List (String × FileNode)
  | [] => [(name, node)]
  | entry :: rest =>
      if entry.1 = name then (name, node) :: rest else entry :: putEntry name node rest

/-- Put a node at a location. Directories that are missing on the way are made; nothing is put
    below a file. -/
def put (node : FileNode) : (location : List String) → FileNode → FileNode
  | [] => fun _ => node
  | name :: rest => fun
    | file content => file content
    | directory entries =>
        let inner := (entries.lookup name).getD (directory [])
        directory (putEntry name (put node rest inner) entries)

end FileNode

/-- A tree of files and the location of the working directory in it. -/
structure FileSystem where
  root : FileNode
  workingDirectory : List String

namespace FileSystem

def maxNameSize : Nat := 255

/-- The size, in bytes, that a path has to stay below. -/
def maxPathSize : Nat := 4096

/-- Follow the pieces of a path from a location. Every piece needs a directory to stand in; the
    location reached last need not exist. -/
def follow (files : FileSystem) (here : List String) :
    (pieces : List String) → Except FileError (List String)
  | [] => .ok here
  | piece :: rest =>
      match files.root.find? here with
      | none => .error .notFound
      | some (.file _) => .error .notADirectory
      | some (.directory _) =>
          if Path.isIdle piece then files.follow here rest
          else if piece = ".." then files.follow here.dropLast rest
          else if piece.utf8ByteSize > maxNameSize then .error .nameTooLong
          else files.follow (here ++ [piece]) rest

def locate (files : FileSystem) (path : String) : Except FileError (List String) :=
  if path.toList.contains '\x00' then .error .zeroInName
  else if path.isEmpty then .error .notFound
  else if path.utf8ByteSize ≥ maxPathSize then .error .nameTooLong
  else files.follow (if Path.isAbsolute path then [] else files.workingDirectory) (Path.pieces path)

def node (files : FileSystem) (path : String) : Except FileError FileNode := do
  let location ← files.locate path
  match files.root.find? location with
  | some node => pure node
  | none => throw .notFound

def has (files : FileSystem) (path : String) : Bool :=
  (files.node path).isOk

def isDirectory (files : FileSystem) (path : String) : Bool :=
  match files.node path with
  | .ok (.directory _) => true
  | _ => false

def isFile (files : FileSystem) (path : String) : Bool :=
  match files.node path with
  | .ok (.file _) => true
  | _ => false

/-- The names in a directory, in the order of their bytes; none if it is no directory. -/
def names (files : FileSystem) (path : String) : List String :=
  match files.node path with
  | .ok (.directory entries) => (entries.map Prod.fst).mergeSort fun a b => decide (a ≤ b)
  | _ => []

def readText (files : FileSystem) (path : String) : Except FileError String := do
  match ← files.node path with
  | .directory _ => throw .isADirectory
  | .file content =>
      match String.fromUTF8? content with
      | some text => pure text
      | none => throw .notText

/-- Write a text to a file, made anew or over what it held. The directory has to be there. -/
def writeText (files : FileSystem) (path text : String) : Except FileError FileSystem := do
  let location ← files.locate path
  match files.root.find? location with
  | some (.directory _) => throw .isADirectory
  | _ => pure { files with root := FileNode.put (.file text.toUTF8) location files.root }

end FileSystem

end LayerComposition
