import LayerComposition.Yaml.Cursor

/-! # Written scalars

A text is written plainly where it then reads back as that text. Texts that would be taken for
a number, a truth value or nothing are put in single quotes, and so are those in which a
character would be taken for an indicator or that go over several lines. Texts with a newline
are written as a block of lines. Double quotes serve where characters have to be escaped, or
where spaces would be lost beside a line end.
-/

namespace LayerComposition.Yaml.Scalar

def isNull (text : String) : Bool :=
  text == "null" || text == "Null" || text == "NULL" || text == "~"

def isTruth (text : String) : Bool :=
  ["true", "True", "TRUE", "false", "False", "FALSE"].contains text

def digitValue? (base : Nat) (c : Char) : Option Nat :=
  let value? :=
    if '0' ≤ c ∧ c ≤ '9' then some (c.toNat - 0x30)
    else if 'a' ≤ c ∧ c ≤ 'f' then some (c.toNat - 0x57)
    else if 'A' ≤ c ∧ c ≤ 'F' then some (c.toNat - 0x37)
    else none
  value?.filter (· < base)

/-- Whether a non-empty run of digits has a value up to a bound. -/
def isDigitsUpTo (base bound : Nat) (cs : List Char) : Bool :=
  !cs.isEmpty &&
    (cs.foldlM (fun value c => (digitValue? base c).map (value * base + ·)) 0).any (· ≤ bound)

/-- Whether a text is an integer with the mark of its base: `0x`, `0o` or `0b`. The value has to
    fit in 128 bits. -/
def isBasedInteger (cs : List Char) : Bool :=
  let (bound, cs) := match cs with
    | '+' :: rest => (Nat.pow 2 128 - 1, rest)
    | '-' :: rest => (Nat.pow 2 127, rest)
    | cs => (Nat.pow 2 128 - 1, cs)
  match cs with
  | '0' :: 'x' :: digits => isDigitsUpTo 16 bound digits
  | '0' :: 'o' :: digits => isDigitsUpTo 8 bound digits
  | '0' :: 'b' :: digits => isDigitsUpTo 2 bound digits
  | _ => false

/-- A number in decimal: an integer and the power of ten that it is multiplied by. -/
structure Decimal where
  digits : Nat
  exponent : Int

/-- Read the power of ten behind the digits of a number: an `e`, a sign if need be, and
    digits. -/
def readExponent? : List Char → Option Int
  | [] => some 0
  | mark :: rest =>
      if mark == 'e' || mark == 'E' then
        let (negative, digits) := match rest with
          | '+' :: digits => (false, digits)
          | '-' :: digits => (true, digits)
          | digits => (false, digits)
        if digits.isEmpty || !digits.all Char.isDigit then none
        else
          let value : Int := Nat.ofDigitChars 10 digits 0
          some (if negative then -value else value)
      else none

/-- Read a decimal number: digits, with a point in front of, among or behind them, and a power
    of ten. The sign has no part in the answer. -/
def readDecimal? (cs : List Char) : Option Decimal := do
  let cs := match cs with
    | '+' :: rest => rest
    | '-' :: rest => rest
    | cs => cs
  let whole := cs.takeWhile Char.isDigit
  let rest := cs.dropWhile Char.isDigit
  let (fraction, rest) := match rest with
    | '.' :: rest => (rest.takeWhile Char.isDigit, rest.dropWhile Char.isDigit)
    | rest => ([], rest)
  if whole.isEmpty && fraction.isEmpty then none
  let exponent ← readExponent? rest
  pure ⟨Nat.ofDigitChars 10 (whole ++ fraction) 0, exponent - fraction.length⟩

/-- Whether a decimal number is rounded to a finite binary one of 64 bits: it lies below the
    middle between the largest of them and the next power of two. -/
def Decimal.isFinite (decimal : Decimal) : Bool :=
  let size : Int := (Nat.toDigits 10 decimal.digits).length
  if decimal.digits = 0 || size + decimal.exponent < 0 then true
  else if size + decimal.exponent > 310 then false
  else
    let bound := Nat.pow 2 1024 - Nat.pow 2 970
    if decimal.exponent ≥ 0 then
      decimal.digits * Nat.pow 10 decimal.exponent.toNat < bound
    else decimal.digits < bound * Nat.pow 10 (-decimal.exponent).toNat

def isNumber (text : String) : Bool :=
  let cs := text.toList
  let unsigned := match cs with
    | '+' :: rest => rest
    | '-' :: rest => rest
    | cs => cs
  isBasedInteger cs || (readDecimal? cs).any Decimal.isFinite ||
    (unsigned.length > 1 && unsigned.head? == some '0' && unsigned.all Char.isDigit) ||
    [".inf", ".Inf", ".INF"].contains (String.ofList unsigned) ||
    [".nan", ".NaN", ".NAN"].contains text

/-- Whether a plain text would be taken for something else than a text. -/
def isAmbiguous (text : String) : Bool :=
  text.isEmpty || isNull text || isTruth text || isNumber text

/-- The characters that mean something at the start of a text. -/
def isLeadingIndicator (c : Char) : Bool :=
  [',', '[', ']', '\x7b', '\x7d', '#', '&', '*', '!', '|', '>', '\x27', '\x22', '%', '@',
    '\x60'].contains c

/-- Whether a colon in front of a blank, or a number sign behind one, stands in a text. `before`
    is the character in front of it. -/
def hasInnerIndicator (before : Char) : List Char → Bool
  | [] => false
  | c :: rest =>
      (c == ':' && startsBlank rest) || (c == '#' && (isBlank before || isBreak before)) ||
        hasInnerIndicator c rest

/-- Whether a text holds characters that a plain one may not have where they stand. -/
def hasIndicator : List Char → Bool
  | [] => false
  | c :: rest =>
      isLeadingIndicator c || ((c == '?' || c == ':' || c == '-') && startsBlank rest) ||
        ("---".toList.isPrefixOf (c :: rest)) || ("...".toList.isPrefixOf (c :: rest)) ||
        hasInnerIndicator c rest

/-- Whether a character can be written without an escape. -/
def isPrintable (c : Char) : Bool :=
  let n := c.toNat
  n == 0x0A || (0x20 ≤ n && n ≤ 0x7E) ||
    (0xA0 ≤ n && n ≤ 0xFFFD && n != 0xFEFF) || 0x10000 ≤ n

/-- A number in hexadecimal digits, filled up with zeros to a width. -/
def hex (width n : Nat) : List Char :=
  let digits := (Nat.toDigits 16 n).map Char.toUpper
  List.replicate (width - digits.length) '0' ++ digits

def escape (c : Char) : List Char :=
  if c == '\x22' then ['\\', '\x22']
  else if c == '\\' then ['\\', '\\']
  else if isPrintable c && !isBreak c then [c]
  else if c == '\x00' then ['\\', '0']
  else if c == '\x07' then ['\\', 'a']
  else if c == '\x08' then ['\\', 'b']
  else if c == '\t' then ['\\', 't']
  else if c == '\n' then ['\\', 'n']
  else if c == '\x0b' then ['\\', 'v']
  else if c == '\x0c' then ['\\', 'f']
  else if c == '\r' then ['\\', 'r']
  else if c == '\x1b' then ['\\', 'e']
  else if c == '\u0085' then ['\\', 'N']
  else if c == '\u2028' then ['\\', 'L']
  else if c == '\u2029' then ['\\', 'P']
  else if c.toNat ≤ 0xFF then '\\' :: 'x' :: hex 2 c.toNat
  else if c.toNat ≤ 0xFFFF then '\\' :: 'u' :: hex 4 c.toNat
  else '\\' :: 'U' :: hex 8 c.toNat

def doubleQuoted (cs : List Char) : List Char :=
  ['\x22'] ++ cs.flatMap escape ++ ['\x22']

/-- Lines with their ends, where what follows an end is indented by a number of spaces, and so is
    the start if `behindEnd` holds. An empty line is not indented. -/
def indentLines (indent : Nat) : (behindEnd : Bool) → List Char → List Char
  | _, [] => []
  | behindEnd, c :: rest =>
      if isBreak c then c :: indentLines indent true rest
      else
        (if behindEnd then List.replicate indent ' ' else []) ++
          c :: indentLines indent false rest

def singleQuoted (indent : Nat) (cs : List Char) : List Char :=
  let doubled := cs.flatMap fun c => if c == '\x27' then ['\x27', '\x27'] else [c]
  indentLines indent false (['\x27'] ++ doubled ++ ['\x27'])

/-- A text as a block of lines. The head tells whether the first line is indented by itself and
    how the text ends. -/
def block (indent : Nat) (cs : List Char) : List Char :=
  let width := if cs.head?.any fun c => c == ' ' || isBreak c then ['2'] else []
  let ending := match cs.reverse with
    | [] => ['-']
    | last :: before =>
        if !isBreak last then ['-']
        else if before.head?.all isBreak then ['+']
        else []
  ['|'] ++ width ++ ending ++ ['\n'] ++ indentLines indent true cs

/-- Whether a character of one class stands directly in front of one of another. -/
def hasPair (first second : Char → Bool) : List Char → Bool
  | a :: b :: rest => (first a && second b) || hasPair first second (b :: rest)
  | _ => false

/-- Whether only double quotes can keep a text: it has characters that need an escape, or a space
    in front of a line end. -/
def needsEscape (cs : List Char) : Bool :=
  cs.any (fun c => !isPrintable c) || hasPair (· == ' ') isBreak cs

/-- The ways to write a text. -/
inductive Style where
  | plain
  | singleQuoted
  | doubleQuoted
  | block
  deriving Repr, DecidableEq

def Style.keeps (cs : List Char) : Style → Bool
  | plain =>
      !needsEscape cs && !cs.any isBreak && cs.head? != some ' ' && cs.getLast? != some ' ' &&
        !hasIndicator cs
  | singleQuoted => !needsEscape cs && !hasPair isBreak (· == ' ') cs
  | doubleQuoted => true
  | block => !needsEscape cs && cs.getLast? != some ' '

/-- The style of a text: a block if it has a newline, else the simplest in which it stays what it
    is; double quotes where that does not do. -/
def Style.ofText (text : String) : Style :=
  let cs := text.toList
  let candidates :=
    if cs.contains '\n' then [block]
    else if isAmbiguous text then [singleQuoted]
    else [plain, singleQuoted]
  (candidates.find? (Style.keeps cs)).getD doubleQuoted

/-- The written form of a text with the end of its last line, where `indent` is the indentation of
    its further lines. A block may end with the last line end of its text. -/
def write (indent : Nat) (text : String) : String :=
  let cs := text.toList
  let written :=
    match Style.ofText text with
    | .plain => cs
    | .singleQuoted => singleQuoted indent cs
    | .doubleQuoted => doubleQuoted cs
    | .block => block indent cs
  String.ofList (if written.getLast?.any isBreak then written else written ++ ['\n'])

end LayerComposition.Yaml.Scalar
