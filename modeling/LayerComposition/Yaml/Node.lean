import LayerComposition.Yaml.Token

/-! # Documents

A document is a tree of scalars, lists and mappings. `Node.ofText?` reads the one document of a
text.
-/

namespace LayerComposition.Yaml

/-- A part of a document. A scalar keeps its text; only a plain one can stand for something
    else than its text. -/
inductive Node where
  | scalar (text : String) (plain : Bool)
  | list (items : List Node)
  | mapping (entries : List (Node × Node))

namespace Node

def absent : Node :=
  .scalar "" true

/-- Go over the comma in front of every item of a flow collection but the first. -/
def afterComma (first : Bool) (tokens : List Token) : Except Error (List Token) :=
  if first then .ok tokens
  else
    match tokens with
    | .comma :: rest => .ok rest
    | _ => .error .malformedDocument

mutual

/-- Read a node. `block` tells whether a block collection may start here and `flat` whether the
    items of a list may stand without one. Every reader goes at least one level deeper or one
    token further, which bounds `size`. -/
def read (block flat : Bool) : (size : Nat) → List Token → Except Error (Node × List Token)
  | 0, _ => .error .malformedDocument
  | size + 1, tokens =>
      match tokens with
      | .scalar text plain :: rest => .ok (.scalar text plain, rest)
      | .flowListStart :: rest => readFlowList size true rest []
      | .flowMapStart :: rest => readFlowMap size true rest []
      | .blockListStart :: rest =>
          if block then readBlockList size rest [] else .error .malformedDocument
      | .blockMapStart :: rest =>
          if block then readBlockMap size rest [] else .error .malformedDocument
      | .dash :: rest =>
          if flat then readFlatList size (.dash :: rest) [] else .error .malformedDocument
      | _ => .error .malformedDocument

/-- Read a node that may be left out in front of some tokens. -/
def readUnless (size : Nat) (ends : Token → Bool) (block flat : Bool) (tokens : List Token) :
    Except Error (Node × List Token) :=
  match size with
  | 0 => .error .malformedDocument
  | size + 1 =>
      match tokens with
      | token :: _ => if ends token then .ok (absent, tokens) else read block flat size tokens
      | [] => read block flat size tokens

def readBlockList (size : Nat) (tokens : List Token) (items : List Node) :
    Except Error (Node × List Token) :=
  match size with
  | 0 => .error .malformedDocument
  | size + 1 =>
      match tokens with
      | .dash :: rest => do
          let ends token := token == Token.dash || token == Token.blockEnd
          let (item, rest) ← readUnless size ends true false rest
          readBlockList size rest (items ++ [item])
      | .blockEnd :: rest => .ok (.list items, rest)
      | _ => .error .malformedDocument

/-- Read the items of a list whose dashes stand in the column of the key in front of it. -/
def readFlatList (size : Nat) (tokens : List Token) (items : List Node) :
    Except Error (Node × List Token) :=
  match size with
  | 0 => .error .malformedDocument
  | size + 1 =>
      match tokens with
      | .dash :: rest => do
          let ends token :=
            token == Token.dash || token == Token.key || token == Token.value ||
              token == Token.blockEnd
          let (item, rest) ← readUnless size ends true false rest
          readFlatList size rest (items ++ [item])
      | _ => .ok (.list items, tokens)

/-- Read the entries of a block mapping up to its end. -/
def readBlockMap (size : Nat) (tokens : List Token) (entries : List (Node × Node)) :
    Except Error (Node × List Token) :=
  match size with
  | 0 => .error .malformedDocument
  | size + 1 =>
      let ends token := token == Token.key || token == Token.value || token == Token.blockEnd
      match tokens with
      | .key :: rest => do
          let (key, rest) ← readUnless size ends true true rest
          match rest with
          | .value :: rest =>
              let (value, rest) ← readUnless size ends true true rest
              readBlockMap size rest (entries ++ [(key, value)])
          | _ => readBlockMap size rest (entries ++ [(key, absent)])
      | .blockEnd :: rest => .ok (.mapping entries, rest)
      | _ => .error .malformedDocument

/-- Read the items of a flow list up to its bracket. A key in it makes a mapping of one entry. -/
def readFlowList (size : Nat) (first : Bool) (tokens : List Token) (items : List Node) :
    Except Error (Node × List Token) :=
  match size with
  | 0 => .error .malformedDocument
  | size + 1 =>
      match tokens with
      | .flowListEnd :: rest => .ok (.list items, rest)
      | tokens => do
          let tokens ← afterComma first tokens
          match tokens with
          | Token.flowListEnd :: rest => .ok (.list items, rest)
          | .key :: rest =>
              let (entry, rest) ← readListEntry size rest
              readFlowList size false rest (items ++ [.mapping [entry]])
          | tokens =>
              let (item, rest) ← read false false size tokens
              readFlowList size false rest (items ++ [item])

/-- Read the entries of a flow mapping up to its bracket. A node without a colon is a key with
    nothing for its value. -/
def readFlowMap (size : Nat) (first : Bool) (tokens : List Token)
    (entries : List (Node × Node)) : Except Error (Node × List Token) :=
  match size with
  | 0 => .error .malformedDocument
  | size + 1 =>
      match tokens with
      | .flowMapEnd :: rest => .ok (.mapping entries, rest)
      | tokens => do
          let tokens ← afterComma first tokens
          match tokens with
          | Token.flowMapEnd :: rest => .ok (.mapping entries, rest)
          | .key :: rest =>
              let (entry, rest) ← readMapEntry size rest
              readFlowMap size false rest (entries ++ [entry])
          | tokens =>
              let (key, rest) ← read false false size tokens
              readFlowMap size false rest (entries ++ [(key, absent)])

/-- Read key and value of an entry of a flow mapping, behind the key indicator. -/
def readMapEntry (size : Nat) (tokens : List Token) :
    Except Error ((Node × Node) × List Token) :=
  match size with
  | 0 => .error .malformedDocument
  | size + 1 => do
      let ends token := token == Token.comma || token == Token.flowMapEnd
      let (key, rest) ←
        readUnless size (fun token => ends token || token == Token.value) false false tokens
      match rest with
      | .value :: rest =>
          let (value, rest) ← readUnless size ends false false rest
          return ((key, value), rest)
      | _ => return ((key, absent), rest)

/-- Read key and value of an entry that is an item of a flow list, behind the key indicator. A
    token that stands in the place of the key is passed over. -/
def readListEntry (size : Nat) (tokens : List Token) :
    Except Error ((Node × Node) × List Token) :=
  match size with
  | 0 => .error .malformedDocument
  | size + 1 => do
      let ends token := token == Token.comma || token == Token.flowListEnd
      let (key, rest) ←
        match tokens with
        | token :: rest =>
            if ends token || token == Token.value then pure (absent, rest)
            else read false false size (token :: rest)
        | [] => throw .malformedDocument
      match rest with
      | .value :: rest =>
          let (value, rest) ← readUnless size ends false false rest
          return ((key, value), rest)
      | _ => return ((key, absent), rest)

end

/-- Only marks of the document's end may follow it. -/
def endsDocument (rest : List Token) : Except Error Unit :=
  match rest.dropWhile (· == .documentEnd) with
  | [] => .ok ()
  | .documentStart :: _ => .error .severalDocuments
  | _ => .error .malformedDocument

/-- Read the document of a text. A text without a document has nothing in it. -/
def ofText (text : String) : Except Error Node := do
  let tokens ← Token.ofText text
  let size := 4 * tokens.length + 4
  let (node, rest) ←
    match tokens with
    | [] => pure (absent, [])
    | .documentStart :: rest =>
        let ends token := token == Token.documentStart || token == Token.documentEnd
        if rest.isEmpty then pure (absent, []) else readUnless size ends true false rest
    | tokens => read true false size tokens
  endsDocument rest
  return node

end Node

end LayerComposition.Yaml
