import LayerComposition.Yaml.Cursor

/-! # Scalar texts

A scalar is written plainly, in single or double quotes, or as a block of lines. Plain and
quoted texts may go over several lines: a single line end in them stands for a space, and of
several the first is dropped.
-/

namespace LayerComposition.Yaml

/-- The space between two words of a text: blanks, then line ends. -/
structure Gap where
  blanks : List Char
  breaks : List Char

def Gap.text (gap : Gap) : List Char :=
  match gap.breaks with
  | [] => gap.blanks
  | ['\n'] => [' ']
  | '\n' :: more => more
  | breaks => breaks

/-- Read the gap in front of the cursor. Below `indent`, a line may not be indented by tabs. -/
def readGap (indent : Nat) : (size : Nat) → Cursor → Gap → Except Error (Cursor × Gap)
  | 0, cursor, gap => .ok (cursor, gap)
  | size + 1, cursor, gap =>
      match cursor.rest with
      | [] => .ok (cursor, gap)
      | c :: _ =>
          if isBreak c then
            readGap indent size cursor.next { gap with breaks := gap.breaks ++ [c] }
          else if isBlank c then
            if gap.breaks = [] then
              readGap indent size cursor.next { gap with blanks := gap.blanks ++ [c] }
            else if c == '\t' && cursor.column < indent then .error .tabInIndentation
            else readGap indent size cursor.next gap
          else .ok (cursor, gap)

/-- Whether a character separates the items of a flow collection or bounds one. -/
def isFlowIndicator (c : Char) : Bool :=
  c == ',' || c == '[' || c == ']' || c == '\x7b' || c == '\x7d'

/-- Read a plain word: up to a blank, a colon in front of a blank, or, inside a flow collection,
    one of its indicators. -/
def readWord (flow : Bool) : List Char → Except Error (List Char × List Char)
  | [] => .ok ([], [])
  | c :: rest =>
      if isBlank c || isBreak c then .ok ([], c :: rest)
      else if flow && c == ':' && (rest.head?.any fun d => isFlowIndicator d || d == '?') then
        .error .misplacedIndicator
      else if (c == ':' && startsBlank rest) || (flow && isFlowIndicator c) then
        .ok ([], c :: rest)
      else (readWord flow rest).map fun (word, rest) => (c :: word, rest)

/-- Read a plain text. `indent` is the column that its further lines have to reach. The answer
    also tells whether it ended behind a line end. -/
def readPlain (flow : Bool) (indent : Nat) :
    (size : Nat) → Cursor → (soFar : List Char) → Gap →
      Except Error (Cursor × List Char × Bool)
  | 0, cursor, soFar, gap => .ok (cursor, soFar, gap.breaks ≠ [])
  | size + 1, cursor, soFar, gap => do
      let behindBreak := gap.breaks ≠ []
      if cursor.atDocumentMarker || cursor.rest.head? == some '#' then
        return (cursor, soFar, behindBreak)
      let (word, _) ← readWord flow cursor.rest
      if word = [] then return (cursor, soFar, behindBreak)
      let soFar := soFar ++ gap.text ++ word
      let cursor := cursor.skip word.length
      let (after, gap) ← readGap indent cursor.rest.length cursor ⟨[], []⟩
      if after.index == cursor.index then return (cursor, soFar, false)
      if !flow && after.column < indent then return (after, soFar, gap.breaks ≠ [])
      readPlain flow indent size after soFar gap

def hexValue? (digits : List Char) : Option Nat :=
  digits.foldlM (fun value digit => do
    let n := digit.toNat
    let digit ←
      if '0' ≤ digit ∧ digit ≤ '9' then some (n - 0x30)
      else if 'a' ≤ digit ∧ digit ≤ 'f' then some (n - 0x57)
      else if 'A' ≤ digit ∧ digit ≤ 'F' then some (n - 0x37)
      else none
    pure (value * 16 + digit)) 0

/-- The character with a code point given in a number of hexadecimal digits. -/
def readCodePoint? (width : Nat) (rest : List Char) : Option Char := do
  let digits := rest.take width
  if digits.length < width then none
  let value ← hexValue? digits
  if h : value.isValidChar then some (Char.ofNatAux value h) else none

/-- The character that an escape stands for, and the number of characters of the escape behind
    its backslash. -/
def readEscape? : List Char → Option (Char × Nat)
  | [] => none
  | c :: rest =>
      if c == '0' then some ('\x00', 1)
      else if c == 'a' then some ('\x07', 1)
      else if c == 'b' then some ('\x08', 1)
      else if c == 't' || c == '\t' then some ('\t', 1)
      else if c == 'n' then some ('\n', 1)
      else if c == 'v' then some ('\x0b', 1)
      else if c == 'f' then some ('\x0c', 1)
      else if c == 'r' then some ('\r', 1)
      else if c == 'e' then some ('\x1b', 1)
      else if c == ' ' || c == '\x22' || c == '/' || c == '\\' then some (c, 1)
      else if c == 'N' then some ('\u0085', 1)
      else if c == '_' then some ('\u00a0', 1)
      else if c == 'L' then some ('\u2028', 1)
      else if c == 'P' then some ('\u2029', 1)
      else if c == 'x' then (readCodePoint? 2 rest).map fun c => (c, 3)
      else if c == 'u' then (readCodePoint? 4 rest).map fun c => (c, 5)
      else if c == 'U' then (readCodePoint? 8 rest).map fun c => (c, 9)
      else none

/-- Read a quoted text behind its opening quote. In single quotes a quote is written twice; in
    double quotes there are escapes, and a backslash at the end of a line joins the lines. -/
def readQuoted (quote : Char) :
    (size : Nat) → Cursor → (soFar : List Char) → Except Error (Cursor × List Char)
  | 0, _, _ => .error .unclosedQuote
  | size + 1, cursor, soFar => do
      if cursor.atDocumentMarker then throw .misplacedIndicator
      match cursor.rest with
      | [] => throw .unclosedQuote
      | c :: rest =>
          if quote == '\x27' && c == '\x27' && rest.head? == some '\x27' then
            readQuoted quote size (cursor.skip 2) (soFar ++ ['\x27'])
          else if c == quote then return (cursor.next, soFar)
          else if quote == '\x22' && c == '\\' then
            if rest.head?.any isBreak then
              let (after, gap) ← readGap 0 rest.length (cursor.skip 2) ⟨[], ['\n', '\n']⟩
              readQuoted quote size after (soFar ++ gap.breaks.drop 2)
            else
              match readEscape? rest with
              | none => throw .unknownEscape
              | some (escaped, width) =>
                  readQuoted quote size (cursor.skip (1 + width)) (soFar ++ [escaped])
          else if isBlank c || isBreak c then
            let (after, gap) ← readGap 0 cursor.rest.length cursor ⟨[], []⟩
            readQuoted quote size after (soFar ++ gap.text)
          else readQuoted quote size cursor.next (soFar ++ [c])

/-- What happens to the line ends at the end of a block text. -/
inductive Chomping where
  | strip
  | clip
  | keep
  deriving Repr, DecidableEq

/-- Read the head of a block text behind its indicator: how its end is treated and, if given,
    how far it is indented, in either order. -/
def readBlockHead : List Char → Except Error (Chomping × Option Nat × Nat)
  | '+' :: rest => readWidth .keep rest
  | '-' :: rest => readWidth .strip rest
  | c :: rest =>
      if c.isDigit then
        if c == '0' then .error .malformedBlockText
        else
          match rest with
          | '+' :: _ => .ok (.keep, some (c.toNat - 0x30), 2)
          | '-' :: _ => .ok (.strip, some (c.toNat - 0x30), 2)
          | _ => .ok (.clip, some (c.toNat - 0x30), 1)
      else .ok (.clip, none, 0)
  | [] => .ok (.clip, none, 0)
where
  /-- The width that may stand behind the treatment of the end. -/
  readWidth (chomping : Chomping) : List Char → Except Error (Chomping × Option Nat × Nat)
    | c :: _ =>
        if c.isDigit then
          if c == '0' then .error .malformedBlockText
          else .ok (chomping, some (c.toNat - 0x30), 2)
        else .ok (chomping, none, 1)
    | [] => .ok (chomping, none, 1)

/-- Skip the indentation in front of a line of a block text, and whole empty lines, whose ends
    are collected. Without a known indentation, the widest one met is remembered. -/
def readBlockIndent (indent? : Option Nat) :
    (size : Nat) → Cursor → (widest : Nat) → (breaks : List Char) →
      Except Error (Cursor × Nat × List Char)
  | 0, cursor, widest, breaks => .ok (cursor, widest, breaks)
  | size + 1, cursor, widest, breaks =>
      let inside := indent?.any (cursor.column ≥ ·)
      match cursor.rest with
      | c :: _ =>
          if c == ' ' && !inside then readBlockIndent indent? size cursor.next widest breaks
          else if c == '\t' && !inside then .error .tabInIndentation
          else if isBreak c then
            readBlockIndent indent? size cursor.next (max widest cursor.column) (breaks ++ [c])
          else .ok (cursor, max widest cursor.column, breaks)
      | [] => .ok (cursor, max widest cursor.column, breaks)

/-- The text of a block so far, with the line ends that may still follow it. -/
structure Block where
  text : List Char
  /-- The end of the last line. -/
  lineEnd : List Char
  /-- The ends of the empty lines behind it. -/
  emptyLines : List Char
  /-- Whether the last line started with a blank. -/
  indented : Bool

/-- Read the lines of a block text at its indentation. In a folded block a single line end
    between two lines that start without a blank stands for a space. -/
def readBlockLines (folded : Bool) (indent : Nat) :
    (size : Nat) → Cursor → Block → Except Error (Cursor × Block)
  | 0, cursor, block => .ok (cursor, block)
  | size + 1, cursor, block => do
      match cursor.rest with
      | [] => return (cursor, block)
      | first :: _ =>
          if cursor.column ≠ indent then return (cursor, block)
          let indented := isBlank first
          let joint :=
            if folded && block.lineEnd == ['\n'] && !block.indented && !indented then
              if block.emptyLines = [] then [' '] else []
            else block.lineEnd
          let line := cursor.rest.takeWhile fun c => !isBreak c
          let text := block.text ++ joint ++ block.emptyLines ++ line
          let atEnd := cursor.skip line.length
          let lineEnd := atEnd.rest.take 1
          let (after, _, emptyLines) ←
            readBlockIndent (some indent) atEnd.rest.length atEnd.next 0 []
          readBlockLines folded indent size after ⟨text, lineEnd, emptyLines, indented⟩

/-- Read a block text behind its indicator. `parent` is the indentation of the collection around
    it, none at the top. -/
def readBlockText (folded : Bool) (parent? : Option Nat) (cursor : Cursor) :
    Except Error (Cursor × List Char) := do
  let (chomping, width?, size) ← readBlockHead cursor.rest
  let head := cursor.skip size
  let blanks := head.rest.takeWhile isBlank
  let head := head.skip blanks.length
  let comment :=
    if head.rest.head? == some '#' then head.rest.takeWhile fun c => !isBreak c else []
  let head := head.skip comment.length
  if head.rest.head?.any fun c => !isBreak c then throw .malformedBlockText
  let least := match parent? with
    | some parent => parent + 1
    | none => 1
  let body := head.next
  let indent? := width?.map fun width => match parent? with
    | some parent => parent + width
    | none => width
  let (body, widest, emptyLines) ← readBlockIndent indent? body.rest.length body 0 []
  let indent := indent?.getD (max widest least)
  let (after, block) ←
    readBlockLines folded indent (body.rest.length + 1) body ⟨[], [], emptyLines, false⟩
  let ending := match chomping with
    | .strip => []
    | .clip => block.lineEnd
    | .keep => block.lineEnd ++ block.emptyLines
  return (after, block.text ++ ending)

end LayerComposition.Yaml
