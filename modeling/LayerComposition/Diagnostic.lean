import LayerComposition.Json

/-! # Diagnostics

A diagnostic is one remark about a character's definitions. A report is a list of them, in the
order in which they were made.
-/

namespace LayerComposition

/-- How bad a remark is. -/
inductive Severity where
  | warning
  | error
  deriving Repr, DecidableEq

def Severity.text : Severity → String
  | warning => "warning"
  | error => "error"

/-- One remark, with a code that programs can tell it by. -/
structure Diagnostic where
  severity : Severity
  code : String
  message : String
  help? : Option String
  deriving Repr, DecidableEq

namespace Diagnostic

def isError (diagnostic : Diagnostic) : Bool :=
  diagnostic.severity = .error

def display (diagnostic : Diagnostic) : String :=
  diagnostic.severity.text ++ "[" ++ diagnostic.code ++ "]: " ++ diagnostic.message

/-- The JSON form. A diagnostic without help has no such member. -/
def toJson (diagnostic : Diagnostic) : Json :=
  .object <|
    [("severity", .string diagnostic.severity.text), ("code", .string diagnostic.code),
      ("message", .string diagnostic.message)] ++
    (diagnostic.help?.map fun help => ("help", .string help)).toList

end Diagnostic

/-- All remarks about one subject. -/
structure Report where
  diagnostics : List Diagnostic
  deriving Repr, DecidableEq

namespace Report

def push (report : Report) (diagnostic : Diagnostic) : Report :=
  ⟨report.diagnostics ++ [diagnostic]⟩

def merge (report other : Report) : Report :=
  ⟨report.diagnostics ++ other.diagnostics⟩

def isClean (report : Report) : Bool :=
  report.diagnostics.isEmpty

def hasErrors (report : Report) : Bool :=
  report.diagnostics.any Diagnostic.isError

def errorCount (report : Report) : Nat :=
  report.diagnostics.countP Diagnostic.isError

def warningCount (report : Report) : Nat :=
  report.diagnostics.length - report.errorCount

def withCode (report : Report) (code : String) : List Diagnostic :=
  report.diagnostics.filter (·.code = code)

def toJson (report : Report) : Json :=
  .array (report.diagnostics.map Diagnostic.toJson)

end Report

end LayerComposition
