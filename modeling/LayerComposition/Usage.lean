import LayerComposition.Command

/-! # Command lines

A command line is read from left to right. Options may be written as `--name value`,
`--name=value`, `-n value`, `-nvalue` or `-n=value`, flags may share a dash, and `--` ends the
options. A value is looked at when the next option or operand shows that it is complete.
-/

namespace LayerComposition

/-- Why a command line does not lead to a command. -/
inductive UsageError where
  /-- An option that does not exist, or an operand too many. -/
  | unknownArgument
  /-- An operand is missing. -/
  | missingArgument
  /-- Options that exclude each other, or one that is given twice. -/
  | conflict
  /-- There is no such command. -/
  | unknownCommand
  /-- There is no command. -/
  | missingCommand
  /-- A value that does not fit, or none where one is needed. -/
  | invalidValue
  /-- A value for a flag. -/
  | unexpectedValue
  /-- There is nothing at all. -/
  | nothingGiven
  /-- The user asks for help. -/
  | helpRequested
  /-- The user asks for the version. -/
  | versionRequested
  deriving Repr, DecidableEq

/-- The exit status: asking for help or the version is no mistake. -/
def UsageError.status : UsageError → Nat
  | helpRequested | versionRequested => 0
  | _ => 2

/-- What is wrong with a command line, or that nothing is. -/
def UsageError.message : UsageError → String
  | unknownArgument => "an argument that is not expected"
  | missingArgument => "an argument is missing"
  | conflict => "arguments that cannot be used together"
  | unknownCommand => "no command of this name"
  | missingCommand | nothingGiven => "a command is missing"
  | invalidValue => "a value that does not fit, or none"
  | unexpectedValue => "a value for a flag"
  | helpRequested => "help"
  | versionRequested => "version"

namespace Usage

/-- What an option does. -/
inductive Effect where
  | help
  | version
  /-- Given or not, at most once. -/
  | flag
  /-- One value, at most once. -/
  | single
  /-- Values separated by commas, any number of times. -/
  | several
  deriving Repr, DecidableEq

/-- Something that can be given: an option, or an operand. -/
structure Slot where
  name : String
  effect : Effect
  accepts : String → Bool

/-- An option with its short name. -/
structure Switch extends Slot where
  short : Option Char

/-- What a command accepts: its options, and its operands in order, each with one value. -/
structure Grammar where
  switches : List Switch
  operands : List Slot

/-- What was given so far. -/
structure Given where
  /-- Complete options and operands with their values. -/
  settled : List (String × List String)
  /-- The option or operand that was begun last, with its value if that has come. -/
  pending : Option (Slot × Option String)
  /-- The number of operands that were begun. -/
  operands : Nat

namespace Given

def nothing : Given :=
  ⟨[], none, 0⟩

def has (given : Given) (name : String) : Bool :=
  given.settled.any (·.1 = name)

def values (given : Given) (name : String) : List String :=
  (given.settled.filter (·.1 = name)).flatMap Prod.snd

def value? (given : Given) (name : String) : Option String :=
  (given.values name).head?

def split (slot : Slot) (value : String) : List String :=
  if slot.effect = .several then (value.toList.splitOn ',').map String.ofList else [value]

def place (given : Given) (slot : Slot) (values : List String) : Except UsageError Given :=
  if slot.effect ≠ .several && given.has slot.name then .error .conflict
  else if !values.all slot.accepts then .error .invalidValue
  else .ok { given with settled := given.settled ++ [(slot.name, values)] }

def settle (given : Given) : Except UsageError Given :=
  match given.pending with
  | none => .ok given
  | some (_, none) => .error .invalidValue
  | some (slot, some value) => { given with pending := none }.place slot (split slot value)

/-- Settle what is pending, then begin something new. -/
def begin (given : Given) (slot : Slot) (value? : Option String) : Except UsageError Given := do
  return { ← given.settle with pending := some (slot, value?) }

def act (given : Given) (slot : Slot) : Except UsageError Given := do
  let given ← given.settle
  match slot.effect with
  | .help => throw .helpRequested
  | .version => throw .versionRequested
  | _ => given.place slot []

/-- Take an option with a value that is written in the same argument. -/
def attach (given : Given) (slot : Slot) (value : String) : Except UsageError Given := do
  (← given.settle).place slot (split slot value)

end Given

def Slot.takesValue (slot : Slot) : Bool :=
  slot.effect = .single || slot.effect = .several

/-- Take an option by its long name, with the value behind the equals sign if there is one. -/
def takeLong (grammar : Grammar) (given : Given) (name : String) (value? : Option String) :
    Except UsageError Given :=
  match grammar.switches.find? (·.name = name) with
  | none => .error .unknownArgument
  | some switch =>
      match value?, switch.takesValue with
      | some value, true => given.attach switch.toSlot value
      | some _, false => .error .unexpectedValue
      | none, true => given.begin switch.toSlot none
      | none, false => given.act switch.toSlot

/-- Take the short options of one argument. The first that takes a value takes all the rest. -/
def takeShort (grammar : Grammar) (given : Given) : List Char → Except UsageError Given
  | [] => .ok given
  | c :: rest =>
      match grammar.switches.find? (·.short = some c) with
      | none => .error .unknownArgument
      | some switch =>
          if switch.takesValue then
            match rest with
            | [] => given.begin switch.toSlot none
            | '=' :: value => given.attach switch.toSlot (String.ofList value)
            | value => given.attach switch.toSlot (String.ofList value)
          else do takeShort grammar (← given.act switch.toSlot) rest

def takeOperand (grammar : Grammar) (given : Given) (argument : String) :
    Except UsageError Given := do
  match grammar.operands[given.operands]? with
  | none => throw .unknownArgument
  | some operand =>
      let given ← given.begin operand (some argument)
      return { given with operands := given.operands + 1 }

/-- The form of an argument. -/
inductive Form where
  | endOfOptions
  | long (name : String) (value? : Option String)
  | short (names : List Char)
  | word

/-- What an argument looks like. A lone dash is a word. -/
def Form.of (argument : String) : Form :=
  match argument.toList with
  | ['-', '-'] => .endOfOptions
  | '-' :: '-' :: rest =>
      let (name, value?) := Text.splitAtFirst '=' rest
      .long (String.ofList name) (value?.map String.ofList)
  | '-' :: c :: rest => .short (c :: rest)
  | _ => .word

def takeAll (grammar : Grammar) (given : Given) : List String → Except UsageError Given
  | [] => given.settle
  | argument :: rest =>
      match Form.of argument with
      | .endOfOptions => do (← rest.foldlM (takeOperand grammar) given).settle
      | .long name value? => do takeAll grammar (← takeLong grammar given name value?) rest
      | .short names => do takeAll grammar (← takeShort grammar given names) rest
      | .word =>
          match given.pending with
          | some (slot, none) =>
              takeAll grammar { given with pending := some (slot, some argument) } rest
          | _ => do takeAll grammar (← takeOperand grammar given argument) rest

/-! ## The commands -/

def anyValue (_ : String) : Bool :=
  true

def flag (name : String) : Switch :=
  ⟨⟨name, .flag, anyValue⟩, none⟩

def commonSwitches : List Switch :=
  [flag "no-color", ⟨⟨"help", .help, anyValue⟩, some 'h'⟩]

/-- The options that select project and character. A root may not be empty. -/
def selectionSwitches : List Switch :=
  [⟨⟨"root", .single, fun path => !path.isEmpty⟩, some 'r'⟩,
    ⟨⟨"character", .single, anyValue⟩, some 'c'⟩]

def frontGrammar : Grammar :=
  ⟨commonSwitches ++ [⟨⟨"version", .version, anyValue⟩, some 'V'⟩], []⟩

def shell? (name : String) : Option Shell :=
  [("bash", Shell.bash), ("elvish", .elvish), ("fish", .fish), ("powershell", .powershell),
    ("zsh", .zsh)].lookup name

/-- What is read from the arguments of a command. -/
structure CommandForm where
  grammar : Grammar
  command : Given → Except UsageError Command

def selection (given : Given) : Selection :=
  ⟨(given.value? "root").getD ".", given.value? "character"⟩

def characterForm (switches : List Switch) (operands : List Slot)
    (command : Given → Except UsageError Command) : CommandForm :=
  ⟨⟨commonSwitches ++ selectionSwitches ++ switches, operands⟩, command⟩

def resolveForm : CommandForm :=
  characterForm [flag "json"] [⟨"expression", .single, anyValue⟩] fun given =>
    .ok (.resolve (selection given) (given.value? "expression") (given.has "json"))

def canonForm : CommandForm :=
  characterForm [] [⟨"expression", .single, anyValue⟩] fun given =>
    match given.value? "expression" with
    | some expression => .ok (.canon (selection given) expression)
    | none => .error .missingArgument

def synthForm : CommandForm :=
  characterForm
    [⟨⟨"macros", .several, anyValue⟩, some 'm'⟩, ⟨⟨"layers", .several, anyValue⟩, some 'l'⟩] []
    fun given => .ok (.synth (selection given) (given.values "macros") (given.values "layers"))

def validateForm : CommandForm :=
  characterForm [flag "all", flag "strict"] [] fun given =>
    if given.has "all" && given.has "character" then .error .conflict
    else .ok (.validate (selection given) (given.has "all") (given.has "strict"))

def listForm : CommandForm :=
  characterForm [flag "deps"] [] fun given => .ok (.list (selection given) (given.has "deps"))

def initForm : CommandForm :=
  ⟨⟨commonSwitches ++ [flag "force"],
      [⟨"path", .single, fun path => !path.isEmpty⟩]⟩,
    fun given => .ok (.init ((given.value? "path").getD ".") (given.has "force"))⟩

def completionsForm : CommandForm :=
  ⟨⟨commonSwitches, [⟨"shell", .single, fun name => (shell? name).isSome⟩]⟩,
    fun given =>
      match (given.value? "shell").bind shell? with
      | some shell => .ok (.completions shell)
      | none => .error .missingArgument⟩

def forms : List (String × CommandForm) :=
  [("resolve", resolveForm), ("canon", canonForm), ("synth", synthForm),
    ("validate", validateForm), ("list", listForm), ("init", initForm),
    ("completions", completionsForm)]

def isCommandName (argument : String) : Bool :=
  argument == "help" || (forms.lookup argument).isSome

/-- Asking for help, with the names of a command for which it is asked. -/
def helpAnswer : List String → UsageError
  | [] => .helpRequested
  | [name] => if isCommandName name then .helpRequested else .unknownCommand
  | _ => .unknownCommand

/-- The command line of a command and whether colours are switched off. -/
structure Invocation where
  command : Command
  noColor : Bool
  deriving Repr, DecidableEq

def withoutCommand (given : Given) : UsageError :=
  if given.settled.isEmpty then .nothingGiven else .missingCommand

/-- Read the options in front of the command, then the command. -/
def readFront (given : Given) : List String → Except UsageError Invocation
  | [] => .error (withoutCommand given)
  | argument :: rest => do
      if argument == "help" then throw (helpAnswer rest)
      match forms.lookup argument with
      | some form =>
          let inner ← takeAll form.grammar .nothing rest
          let command ← form.command inner
          return ⟨command, given.has "no-color" || inner.has "no-color"⟩
      | none =>
          match Form.of argument with
          | .endOfOptions =>
              match rest with
              | [] => throw (withoutCommand given)
              | word :: _ =>
                  throw (if isCommandName word then .unknownArgument else .unknownCommand)
          | .long name value? => readFront (← takeLong frontGrammar given name value?) rest
          | .short names => readFront (← takeShort frontGrammar given names) rest
          | .word => throw .unknownCommand

def read (arguments : List String) : Except UsageError Invocation :=
  readFront .nothing arguments

end Usage

end LayerComposition
