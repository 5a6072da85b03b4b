/-! # Paths

A path is kept as the text in which it was given, and joining adds to that text, so that a
report shows a path the way the user wrote it. Only `display` looks at its components.
-/

namespace LayerComposition.Path

/-- Whether a path starts at the root of the file system. -/
def isAbsolute (path : String) : Bool :=
  path.toList.head? == some '/'

/-- The text between the slashes of a path. Two slashes in a row have an empty piece between
    them. -/
def pieces (path : String) : List String :=
  (path.toList.splitOn '/').map String.ofList

/-- The path of `rest` seen from `base`. An absolute path stays as it is; otherwise one slash is
    put between the two unless `base` is empty or ends in one. -/
def join (base rest : String) : String :=
  if isAbsolute rest || base.isEmpty then rest
  else if base.toList.getLast? == some '/' then base ++ rest
  else base ++ "/" ++ rest

/-- Whether a piece leads nowhere, so that it may be left out at the ends of a path. -/
def isIdle (piece : String) : Bool :=
  piece == "" || piece == "."

def trimIdle (pieces : List String) : List String :=
  ((pieces.dropWhile isIdle).reverse.dropWhile isIdle).reverse

/-- The pieces of a path that remain below a directory given by its component names. -/
def below? : (directory pieces : List String) → Option (List String)
  | [], pieces => some (trimIdle pieces)
  | _ :: _, [] => none
  | name :: names, piece :: pieces =>
      if isIdle piece then below? (name :: names) pieces
      else if piece = name then below? names pieces
      else none

/-- A path as it is shown to the user: below the working directory it is shown from there, with
    a dot for the directory itself, and otherwise as it was given. -/
def display (workingDirectory : List String) (path : String) : String :=
  if isAbsolute path then
    match below? workingDirectory (pieces path) with
    | some [] => "."
    | some remaining => "/".intercalate remaining
    | none => path
  else path

end LayerComposition.Path
