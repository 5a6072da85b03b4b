/-! # Reading positions

YAML is laid out by lines and columns, so a reader keeps track of both. Line ends are made
uniform before reading.
-/

namespace LayerComposition.Yaml

/-- What is wrong with a YAML text. -/
inductive Error where
  /-- A character that may not stand in a document. -/
  | forbiddenCharacter
  /-- A character that cannot start anything here. -/
  | unexpectedCharacter
  /-- An indicator that is not allowed where it stands. -/
  | misplacedIndicator
  /-- A key without its colon. -/
  | keyWithoutValue
  /-- A quoted text that does not end. -/
  | unclosedQuote
  /-- A backslash that introduces no known escape. -/
  | unknownEscape
  /-- A tab where the indentation should be made of spaces. -/
  | tabInIndentation
  /-- The head of a block text is not well formed. -/
  | malformedBlockText
  /-- A construct that is not read: anchors, aliases, tags and directives. -/
  | unsupported
  /-- The tokens do not form a document. -/
  | malformedDocument
  /-- More than one document. -/
  | severalDocuments
  deriving Repr, DecidableEq

def Error.message : Error → String
  | forbiddenCharacter => "control characters are not allowed"
  | unexpectedCharacter => "found character that cannot start any token"
  | misplacedIndicator => "indicator is not allowed in this context"
  | keyWithoutValue => "could not find expected ':'"
  | unclosedQuote => "found unexpected end of a quoted text"
  | unknownEscape => "found unknown escape character"
  | tabInIndentation => "found a tab character that violates indentation"
  | malformedBlockText => "malformed block text"
  | unsupported => "anchors, aliases, tags and directives are not supported"
  | malformedDocument => "document structure is not well formed"
  | severalDocuments => "more than one document"

/-- Whether a character ends a line, once line ends are uniform. -/
def isBreak (c : Char) : Bool :=
  c == '\n' || c == '\u2028' || c == '\u2029'

def isBlank (c : Char) : Bool :=
  c == ' ' || c == '\t'

/-- Whether what follows starts with a space, a tab or a line end, or nothing follows. -/
def startsBlank : List Char → Bool
  | [] => true
  | c :: _ => isBlank c || isBreak c

/-- Make line ends uniform: a carriage return, with or without a newline behind it, and the
    next-line character count as a newline. -/
def uniformLines : List Char → List Char
  | '\r' :: '\n' :: rest => '\n' :: uniformLines rest
  | c :: rest => (if c == '\r' || c == '\u0085' then '\n' else c) :: uniformLines rest
  | [] => []

def isAllowed (c : Char) : Bool :=
  let n := c.toNat
  n == 0x09 || n == 0x0A || n == 0x0D || (0x20 ≤ n && n ≤ 0x7E) || n == 0x85 ||
    (0xA0 ≤ n && n ≤ 0xFFFD) || 0x10000 ≤ n

/-- A place in a text with what follows it. -/
structure Cursor where
  rest : List Char
  /-- The length of what is in front of the place, in bytes. -/
  index : Nat
  line : Nat
  column : Nat

namespace Cursor

def start (text : List Char) : Cursor :=
  ⟨text, 0, 0, 0⟩

def next (cursor : Cursor) : Cursor :=
  match cursor.rest with
  | [] => cursor
  | c :: rest =>
      let index := cursor.index + c.utf8Size
      if isBreak c then ⟨rest, index, cursor.line + 1, 0⟩
      else ⟨rest, index, cursor.line, cursor.column + 1⟩

def skip : Nat → Cursor → Cursor
  | 0, cursor => cursor
  | n + 1, cursor => skip n cursor.next

/-- Whether a line starts here with a document marker: three of a character, then a blank or the
    end of the line. -/
def atMarker (cursor : Cursor) (mark : Char) : Bool :=
  cursor.column == 0 && cursor.rest.take 3 == [mark, mark, mark] &&
    startsBlank (cursor.rest.drop 3)

def atDocumentMarker (cursor : Cursor) : Bool :=
  cursor.atMarker '-' || cursor.atMarker '.'

end Cursor

end LayerComposition.Yaml
