import LayerComposition.Diagnostic

/-! # Terminal lines

What a command tells while it works goes to the standard error output in lines with a verb,
right-aligned in a column of its own. On a terminal the verbs have colours.
-/

namespace LayerComposition

/-- A count with its noun: one of a thing, or several. -/
def plural (n : Nat) (one many : String) : String :=
  toString n ++ " " ++ (if n = 1 then one else many)

/-- How lines are shown: with colours or without. -/
structure Terminal where
  colored : Bool
  deriving Repr, DecidableEq

/-- What a line is about. -/
inductive Tone where
  | status
  | info
  | warning
  | error
  deriving Repr, DecidableEq

/-- The control sequence that switches to the colour of a tone. -/
def Tone.color : Tone → String
  | status => "\x1b[32m"
  | info => "\x1b[36m"
  | warning => "\x1b[33m"
  | error => "\x1b[31m"

namespace Terminal

/-- The control sequence that switches back to normal text. -/
def normal : String := "\x1b[0m"

def boldStart : String := "\x1b[1m"

def dimStart : String := "\x1b[2m"

/-- The width of the column of the verbs, in characters. -/
def verbWidth : Nat := 12

/-- Put a text between a control sequence and the one for normal text, if there are colours. -/
def paint (terminal : Terminal) (start text : String) : String :=
  if terminal.colored then start ++ text ++ normal else text

def bold (terminal : Terminal) (text : String) : String :=
  terminal.paint boldStart text

def dim (terminal : Terminal) (text : String) : String :=
  terminal.paint dimStart text

/-- A verb in its column. A verb that is too long stands as it is. -/
def alignVerb (verb : String) : String :=
  String.ofList (List.replicate (verbWidth - verb.length) ' ') ++ verb

def line (terminal : Terminal) (tone : Tone) (verb message : String) : String :=
  terminal.paint (boldStart ++ tone.color) (alignVerb verb) ++ " " ++ message ++ "\n"

/-- A diagnostic, with its help on a line of its own. -/
def diagnostic (terminal : Terminal) (diagnostic : Diagnostic) : String :=
  let tone := if diagnostic.isError then Tone.error else Tone.warning
  let severity := terminal.paint tone.color diagnostic.severity.text
  "  " ++ severity ++ "[" ++ diagnostic.code ++ "]: " ++ diagnostic.message ++ "\n" ++
    match diagnostic.help? with
    | some help => "    " ++ terminal.dim "help:" ++ " " ++ help ++ "\n"
    | none => ""

/-- The diagnostics on a subject, then a line that sums them up. -/
def report (terminal : Terminal) (subject : String) (report : Report) : String :=
  let warnings := plural report.warningCount "warning" "warnings"
  let errors := plural report.errorCount "error" "errors"
  String.join (report.diagnostics.map terminal.diagnostic) ++
    if report.errorCount > 0 then
      terminal.line .error "Failed" (subject ++ ": " ++ errors ++ ", " ++ warnings)
    else if report.warningCount > 0 then
      terminal.line .warning "Checked" (subject ++ " (" ++ warnings ++ ")")
    else terminal.line .status "Checked" subject

end Terminal

end LayerComposition
