import LayerComposition.Text.Integer

/-! # JSON

Documents are written as JSON in two layouts: `compact` without any space, and `pretty` with a
line for every member and an indentation of two.
-/

namespace LayerComposition

/-- A JSON value. Members of an object are written in the order in which they stand. -/
inductive Json where
  | bool (value : Bool)
  | integer (value : Int64)
  | string (value : String)
  | array (items : List Json)
  | object (members : List (String × Json))
  deriving Repr

namespace Json

/-- A character inside quotes. Quote, backslash and the control characters below a space are
    escaped, all others stand for themselves. -/
def escape (c : Char) : List Char :=
  if c = '\x22' then ['\\', '\x22']
  else if c = '\\' then ['\\', '\\']
  else if c = '\x08' then ['\\', 'b']
  else if c = '\x0c' then ['\\', 'f']
  else if c = '\n' then ['\\', 'n']
  else if c = '\r' then ['\\', 'r']
  else if c = '\t' then ['\\', 't']
  else if c.toNat < 0x20 then
    ['\\', 'u', '0', '0', Nat.digitChar (c.toNat / 16), Nat.digitChar (c.toNat % 16)]
  else [c]

def quote (text : String) : String :=
  "\"" ++ String.ofList (text.toList.flatMap escape) ++ "\""

mutual

def compact : Json → String
  | bool value => if value then "true" else "false"
  | integer value => String.ofList (Text.writeInteger value)
  | string value => quote value
  | array items => "[" ++ ",".intercalate (compactItems items) ++ "]"
  | object members => "\x7b" ++ ",".intercalate (compactMembers members) ++ "\x7d"

def compactItems : List Json → List String
  | [] => []
  | item :: rest => compact item :: compactItems rest

def compactMembers : List (String × Json) → List String
  | [] => []
  | (key, value) :: rest => (quote key ++ ":" ++ compact value) :: compactMembers rest

end

/-- Put the parts of a nested value on lines of their own between its brackets. `indent` is the
    line break in front of the closing bracket. -/
def block (opening closing indent : String) (parts : List String) : String :=
  if parts = [] then opening ++ closing
  else
    opening ++ indent ++ "  " ++ ("," ++ indent ++ "  ").intercalate parts ++ indent ++ closing

mutual

/-- The value over several lines, where `indent` is the line break with the blanks that the
    value's own line starts with. -/
def prettyAt (indent : String) : Json → String
  | bool value => if value then "true" else "false"
  | integer value => String.ofList (Text.writeInteger value)
  | string value => quote value
  | array items => block "[" "]" indent (prettyItems (indent ++ "  ") items)
  | object members => block "\x7b" "\x7d" indent (prettyMembers (indent ++ "  ") members)

def prettyItems (indent : String) : List Json → List String
  | [] => []
  | item :: rest => prettyAt indent item :: prettyItems indent rest

/-- The members of an object, each on its own lines. -/
def prettyMembers (indent : String) : List (String × Json) → List String
  | [] => []
  | (key, value) :: rest =>
      (quote key ++ ": " ++ prettyAt indent value) :: prettyMembers indent rest

end

def pretty (value : Json) : String :=
  prettyAt "\n" value

end Json

end LayerComposition
