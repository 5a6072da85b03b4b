import LayerComposition.Cycle

/-! # Failures

Everything that can end a command, with its one wording.
-/

namespace LayerComposition

/-- Why a command ends without success. -/
inductive Failure where
  /-- An operation of the system failed. -/
  | system (message : String)
  /-- A file could not be used. -/
  | file (path message : String)
  /-- A text is not what it should be. -/
  | parse (message : String) (help? : Option String)
  /-- There is no such character, or none was chosen. -/
  | unknownCharacter (name : String) (help? : Option String)
  /-- An active composition includes itself. -/
  | cyclicComposition (cycle : Cycle)
  /-- A result could not be written. -/
  | output (message : String)
  /-- Characters did not pass validation. -/
  | validation (message : String) (help? : Option String)
  deriving Repr, DecidableEq

namespace Failure

def message : Failure → String
  | system message => "IO error: " ++ message
  | file path message => s!"IO error with {path}: {message}"
  | parse message _ => "Parse error: " ++ message
  | unknownCharacter name _ => "Unknown character: " ++ name
  | cyclicComposition cycle => "Cyclic composition: " ++ " -> ".intercalate cycle
  | output message => "Output error: " ++ message
  | validation message _ => "Validation error: " ++ message

def code : Failure → String
  | system _ | file _ _ => "compo::io"
  | parse _ _ => "compo::parse"
  | unknownCharacter _ _ => "compo::character"
  | cyclicComposition _ => "compo::cycle"
  | output _ => "compo::output"
  | validation _ _ => "compo::validate"

def help? : Failure → Option String
  | parse _ help? | unknownCharacter _ help? | validation _ help? => help?
  | cyclicComposition _ =>
      some "A composition may not include itself, directly or through other compositions"
  | system _ | file _ _ | output _ => none

end Failure

end LayerComposition
