import LayerComposition.Yaml.Text

/-! # Tokens

A YAML text is cut into tokens. Indentation becomes brackets: a deeper column opens a block
collection and a shallower one closes all that are deeper. A key is only recognised at the
colon behind it, so whatever could be a key is remembered with its place among the tokens.
-/

namespace LayerComposition.Yaml

/-- The parts of a document. -/
inductive Token where
  | documentStart
  | documentEnd
  | blockListStart
  | blockMapStart
  | blockEnd
  | flowListStart
  | flowListEnd
  | flowMapStart
  | flowMapEnd
  /-- The dash in front of a block list item. -/
  | dash
  /-- The comma between the items of a flow collection. -/
  | comma
  | key
  | value
  | scalar (text : String) (plain : Bool)
  deriving Repr, DecidableEq

/-- Something that would be a key if a colon followed. -/
structure KeyCandidate where
  /-- The number of tokens in front of it. -/
  position : Nat
  /-- Whether the line makes no sense unless it is one. -/
  required : Bool
  index : Nat
  line : Nat
  column : Nat

/-- The state of reading tokens. -/
structure Scan where
  cursor : Cursor
  tokens : List Token
  /-- The columns of the open block collections, innermost first. -/
  indents : List Nat
  /-- Whether a key, or a dash, may start here. -/
  keyAllowed : Bool
  /-- The candidates: one for the block and one for each open flow collection, innermost
      first. -/
  candidates : List (Option KeyCandidate)

namespace Scan

def start (text : List Char) : Scan :=
  ⟨Cursor.start text, [], [], true, [none]⟩

def inFlow (scan : Scan) : Bool :=
  scan.candidates.length > 1

/-- The longest distance, in bytes, between the start of a key and its colon. -/
def maxKeyDistance : Nat := 1024

def emit (scan : Scan) (token : Token) : Scan :=
  { scan with tokens := scan.tokens ++ [token] }

/-- Go over a number of characters that make one token. -/
def take (scan : Scan) (size : Nat) (token : Token) : Scan :=
  { scan.emit token with cursor := scan.cursor.skip size }

/-- Drop candidates that a line end, or too long a distance, has made impossible. -/
def dropStale (scan : Scan) : Except Error Scan := do
  let candidates ← scan.candidates.mapM fun
    | none => pure none
    | some candidate =>
        if candidate.line < scan.cursor.line ||
            candidate.index + maxKeyDistance < scan.cursor.index then
          if candidate.required then throw .keyWithoutValue else pure none
        else pure (some candidate)
  return { scan with candidates }

def dropCandidate (scan : Scan) : Except Error Scan :=
  match scan.candidates with
  | some candidate :: outer =>
      if candidate.required then .error .keyWithoutValue
      else .ok { scan with candidates := none :: outer }
  | _ => .ok scan

def markCandidate (scan : Scan) : Except Error Scan := do
  if !scan.keyAllowed then return scan
  let required := !scan.inFlow && scan.indents.head? == some scan.cursor.column
  let scan ← scan.dropCandidate
  let candidate : KeyCandidate :=
    ⟨scan.tokens.length, required, scan.cursor.index, scan.cursor.line, scan.cursor.column⟩
  return { scan with candidates := some candidate :: scan.candidates.tail }

/-- Open a block collection at a column if none is open there, with its start among the tokens
    at `position`. -/
def openBlock (scan : Scan) (column position : Nat) (opening : Token) : Scan :=
  if scan.inFlow then scan
  else if scan.indents.head?.all (· < column) then
    { scan with
      indents := column :: scan.indents
      tokens := scan.tokens.insertIdx position opening }
  else scan

/-- Close the block collections that are deeper than a column; all of them without one. -/
def closeBlocks (scan : Scan) (column? : Option Nat) : Scan :=
  if scan.inFlow then scan
  else
    let closed := scan.indents.takeWhile fun indent => column?.all (· < indent)
    { scan with
      indents := scan.indents.drop closed.length
      tokens := scan.tokens ++ closed.map fun _ => Token.blockEnd }

def marker (scan : Scan) (token : Token) : Except Error Scan := do
  let scan ← (scan.closeBlocks none).dropCandidate
  return { scan.take 3 token with keyAllowed := false }

def openFlow (scan : Scan) (token : Token) : Except Error Scan := do
  let scan ← scan.markCandidate
  return { scan.take 1 token with candidates := none :: scan.candidates, keyAllowed := true }

def closeFlow (scan : Scan) (token : Token) : Except Error Scan := do
  let scan ← scan.dropCandidate
  let candidates := if scan.inFlow then scan.candidates.tail else scan.candidates
  return { scan.take 1 token with candidates, keyAllowed := false }

/-- The comma between the items of a flow collection. -/
def separator (scan : Scan) : Except Error Scan := do
  let scan ← scan.dropCandidate
  return { scan.take 1 .comma with keyAllowed := true }

def listItem (scan : Scan) : Except Error Scan := do
  if !scan.inFlow && !scan.keyAllowed then throw .misplacedIndicator
  let scan := scan.openBlock scan.cursor.column scan.tokens.length .blockListStart
  let scan ← scan.dropCandidate
  return { scan.take 1 .dash with keyAllowed := true }

def explicitKey (scan : Scan) : Except Error Scan := do
  if !scan.inFlow && !scan.keyAllowed then throw .misplacedIndicator
  let scan := scan.openBlock scan.cursor.column scan.tokens.length .blockMapStart
  let scan ← scan.dropCandidate
  return { scan.take 1 .key with keyAllowed := !scan.inFlow }

/-- The colon between key and value. The candidate in front of it turns out to be a key. -/
def colon (scan : Scan) : Except Error Scan := do
  match scan.candidates with
  | some candidate :: outer =>
      let scan :=
        { scan with
          tokens := scan.tokens.insertIdx candidate.position .key
          candidates := none :: outer }
      let scan := scan.openBlock candidate.column candidate.position .blockMapStart
      return { scan.take 1 .value with keyAllowed := false }
  | _ =>
      if !scan.inFlow && !scan.keyAllowed then throw .misplacedIndicator
      let scan := scan.openBlock scan.cursor.column scan.tokens.length .blockMapStart
      return { scan.take 1 .value with keyAllowed := !scan.inFlow }

def quoted (scan : Scan) (quote : Char) : Except Error Scan := do
  let scan ← scan.markCandidate
  let (cursor, text) ← readQuoted quote scan.cursor.rest.length scan.cursor.next []
  return { scan.emit (.scalar (String.ofList text) false) with cursor, keyAllowed := false }

def plain (scan : Scan) : Except Error Scan := do
  let scan ← scan.markCandidate
  let indent := match scan.indents with
    | [] => 0
    | indent :: _ => indent + 1
  let (cursor, text, behindBreak) ←
    readPlain scan.inFlow indent (scan.cursor.rest.length + 1) scan.cursor [] ⟨[], []⟩
  return { scan.emit (.scalar (String.ofList text) true) with cursor, keyAllowed := behindBreak }

def block (scan : Scan) (folded : Bool) : Except Error Scan := do
  let scan ← scan.dropCandidate
  let (cursor, text) ← readBlockText folded scan.indents.head? scan.cursor.next
  return { scan.emit (.scalar (String.ofList text) false) with cursor, keyAllowed := true }

/-- Whether a plain text can start with a character in front of `rest`. -/
def canStartPlain (inFlow : Bool) (c : Char) (rest : List Char) : Bool :=
  if c == '-' then !rest.head?.any isBlank
  else if c == '?' || c == ':' then !inFlow && !startsBlank rest
  else
    !(isBlank c || isFlowIndicator c || c == '#' || c == '&' || c == '*' || c == '!' ||
      c == '|' || c == '>' || c == '\x27' || c == '\x22' || c == '%' || c == '@' || c == '\x60')

/-- Read one token at a character that is neither blank nor a line end. -/
def token (scan : Scan) (c : Char) (rest : List Char) : Except Error Scan :=
  if scan.cursor.column == 0 && c == '%' then .error .unsupported
  else if scan.cursor.atMarker '-' then scan.marker .documentStart
  else if scan.cursor.atMarker '.' then scan.marker .documentEnd
  else if c == '[' then scan.openFlow .flowListStart
  else if c == '\x7b' then scan.openFlow .flowMapStart
  else if c == ']' then scan.closeFlow .flowListEnd
  else if c == '\x7d' then scan.closeFlow .flowMapEnd
  else if c == ',' then scan.separator
  else if c == '-' && startsBlank rest then scan.listItem
  else if c == '?' && (scan.inFlow || startsBlank rest) then scan.explicitKey
  else if c == ':' && (scan.inFlow || startsBlank rest) then scan.colon
  else if c == '&' || c == '*' || c == '!' then .error .unsupported
  else if c == '|' && !scan.inFlow then scan.block false
  else if c == '>' && !scan.inFlow then scan.block true
  else if c == '\x27' || c == '\x22' then scan.quoted c
  else if canStartPlain scan.inFlow c rest then scan.plain
  else .error .unexpectedCharacter

/-- Go over blanks, comments and line ends. Tabs are blanks only where no key may start, and a
    byte order mark only at the start of a line. -/
def skipBlanks : (size : Nat) → (inComment : Bool) → Scan → Scan
  | 0, _, scan => scan
  | size + 1, inComment, scan =>
      match scan.cursor.rest with
      | [] => scan
      | c :: _ =>
          let past := { scan with cursor := scan.cursor.next }
          if isBreak c then
            skipBlanks size false { past with keyAllowed := scan.keyAllowed || !scan.inFlow }
          else if inComment || c == '#' then skipBlanks size true past
          else if c == ' ' || (c == '\t' && (scan.inFlow || !scan.keyAllowed)) ||
              (c == '\ufeff' && scan.cursor.column == 0) then
            skipBlanks size false past
          else scan

/-- Go on to the next token: over blanks, and without the candidates that have become stale. -/
def advance (scan : Scan) : Except Error Scan :=
  (scan.skipBlanks scan.cursor.rest.length false).dropStale

/-- Close what is open at the end of the text. -/
def finish (scan : Scan) : Except Error Scan :=
  (scan.closeBlocks none).dropCandidate

/-- Read tokens to the end of the text. Every token but the closing of blocks takes at least one
    character, so `size` may be the number of characters. -/
def toEnd : (size : Nat) → Scan → Except Error Scan
  | 0, scan => do
      let scan ← scan.advance
      if scan.cursor.rest.isEmpty then scan.finish else throw .unexpectedCharacter
  | size + 1, scan => do
      let scan ← scan.advance
      match scan.cursor.rest with
      | [] => scan.finish
      | c :: rest =>
          let scan := scan.closeBlocks (some scan.cursor.column)
          toEnd size (← scan.token c rest)

end Scan

def Token.ofText (text : String) : Except Error (List Token) := do
  if text.toList.any fun c => !isAllowed c then throw .forbiddenCharacter
  let scan := Scan.start (uniformLines text.toList)
  return (← scan.toEnd scan.cursor.rest.length).tokens

end LayerComposition.Yaml
