import LayerComposition.Proofs.Yaml.Entries
import LayerComposition.Yaml.Node

/-! # Reading entries

The tokens of an entry are read as its key and its value, with any size that leaves room for them.
-/

namespace LayerComposition.Yaml.Node

variable {size : Nat} {ends : Token → Bool} {flat : Bool} {key text : String} {plain : Bool}
  {value rest : List Token} {node : Node} {entries : List (Node × Node)} {items : List Node}

/-- The node of a text that is written as a value. -/
def ofValue (text : String) : Node :=
  .scalar text (Scalar.Style.ofText text == .plain)

/-- Whether a token ends a value in a block mapping that is left out. -/
def endsValue (token : Token) : Bool :=
  token == .key || token == .value || token == .blockEnd

theorem readUnless_scalar (goesOn : ends (.scalar text plain) = false) (size : Nat)
    (block flat : Bool) (rest : List Token) :
    readUnless (size + 2) ends block flat (.scalar text plain :: rest) =
      .ok (.scalar text plain, rest) := by
  simp [readUnless, read, goesOn]

theorem readUnless_ofValue (goesOn : ∀ plain, ends (.scalar text plain) = false) (size : Nat)
    (block flat : Bool) (rest : List Token) :
    readUnless (size + 2) ends block flat (.ofValue text :: rest) = .ok (ofValue text, rest) :=
  readUnless_scalar (goesOn _) size block flat rest

/-- An entry of a block mapping is read if its value is. -/
theorem readBlockMap_entry
    (reads : readUnless (size + 2) endsValue true true (value ++ rest) = .ok (node, rest)) :
    readBlockMap (size + 3) (Token.keyed key ++ value ++ rest) entries =
      readBlockMap (size + 2) rest (entries ++ [(.scalar key true, node)]) := by
  have key_eq (tail : List Token) : readUnless (size + 2) endsValue true true
      (.scalar key true :: tail) = .ok (.scalar key true, tail) :=
    readUnless_scalar rfl size true true tail
  unfold endsValue at reads key_eq
  simp [readBlockMap, Token.keyed, key_eq, reads, bind, Except.bind]

/-- A mapping in the place of a value is read by its entries. -/
theorem readUnless_blockMap (size : Nat) (flat : Bool) (rest : List Token) :
    readUnless (size + 2) endsValue true flat (.blockMapStart :: rest) = readBlockMap size rest [] :=
  rfl

theorem readBlockMap_blockEnd (size : Nat) (rest : List Token) (entries : List (Node × Node)) :
    readBlockMap (size + 1) (.blockEnd :: rest) entries = .ok (.mapping entries, rest) := by
  simp [readBlockMap]

/-- An empty list is read in the place of a value. -/
theorem readUnless_emptyList (size : Nat) (rest : List Token) :
    readUnless (size + 3) endsValue true true (.flowListStart :: .flowListEnd :: rest) =
      .ok (.list [], rest) := by
  simp [readUnless, endsValue, read, readFlowList]

/-- The items of a list are read up to a token that is no dash. -/
theorem readFlatList_items {texts : List String} (ended : rest.head? ≠ some .dash)
    (enough : texts.length ≤ size) (items : List Node) :
    readFlatList (size + 3) ((texts.flatMap fun text => [.dash, .ofValue text]) ++ rest) items =
      .ok (.list (items ++ texts.map ofValue), rest) := by
  induction texts generalizing items size with
  | nil =>
      cases rest with
      | nil => simp [readFlatList]
      | cons token rest =>
          have other : token ≠ .dash := by simpa using ended
          simp [readFlatList, other]
  | cons text texts ih =>
      obtain ⟨size, rfl⟩ := Nat.exists_eq_add_of_le' (Nat.zero_lt_of_lt enough)
      have later := ih (Nat.le_of_succ_le_succ enough) (items ++ [ofValue text])
      rw [List.flatMap_cons, List.append_assoc, List.cons_append, readFlatList, List.cons_append,
        List.nil_append, readUnless_ofValue (by simp)]
      simpa [bind, Except.bind] using later

/-- A list of items is read in the place of a value. -/
theorem readUnless_items {texts : List String} (notEmpty : texts ≠ [])
    (ended : rest.head? ≠ some .dash) (enough : texts.length ≤ size) :
    readUnless (size + 5) endsValue true true
      ((texts.flatMap fun text => [.dash, .ofValue text]) ++ rest) =
        .ok (.list (texts.map ofValue), rest) := by
  obtain ⟨text, texts, rfl⟩ := List.exists_cons_of_ne_nil notEmpty
  have items := readFlatList_items ended enough []
  simpa [readUnless, endsValue, read] using items

end LayerComposition.Yaml.Node
