import LayerComposition.Catalog

/-! # Ops

Ops are the instructions of the composition language. An op writes on or off for one layer, or
for all layers of a group: `Eyes+Open`, `Eyes-Open`, `Eyes>Open` (this one and no other of the
group) and `Eyes-` (none of the group).
-/

namespace LayerComposition

/-- One instruction. -/
inductive Op where
  /-- Switch a layer on. -/
  | enable (group name : String)
  /-- Switch a layer off. -/
  | disable (group name : String)
  /-- Switch a layer on and the rest of its group off. -/
  | exclusive (group name : String)
  /-- Switch a whole group off. A name is kept as in any op, but nothing is done with it. -/
  | clearGroup (group : String) {name : String}
  deriving Repr, DecidableEq

namespace Op

/-- The op that clears a group, as it is read and written: without a name. -/
abbrev clear (group : String) : Op :=
  @clearGroup group ""

/-- What an op does to the layers that it is about. -/
inductive Kind where
  | enable
  | disable
  | exclusive
  | clearGroup
  deriving Repr, DecidableEq

def kind : Op → Kind
  | enable _ _ => .enable
  | disable _ _ => .disable
  | exclusive _ _ => .exclusive
  | clearGroup _ => .clearGroup

def group : Op → String
  | enable group _ | disable group _ | exclusive group _ | clearGroup group => group

def name : Op → String
  | enable _ name | disable _ name | exclusive _ name | @clearGroup _ name => name

def target? : Op → Option String
  | enable group name | disable group name | exclusive group name => some (Layer.idOf group name)
  | clearGroup _ => none

def text : Op → String
  | enable group name => group ++ "+" ++ name
  | disable group name => group ++ "-" ++ name
  | exclusive group name => group ++ ">" ++ name
  | clearGroup group => group ++ "-"

def isOperator (c : Char) : Bool :=
  c == '+' || c == '-' || c == '>'

/-- The op of a group with what follows it: an operator character and a name. The group may not
    be empty, and a minus with no name clears the group. -/
def ofPieces? (group : List Char) : List Char → Option Op
  | [] => none
  | operator :: name =>
      if group = [] then none
      else if operator = '+' then some (enable (String.ofList group) (String.ofList name))
      else if operator = '>' then some (exclusive (String.ofList group) (String.ofList name))
      else if name = [] then some (clear (String.ofList group))
      else some (disable (String.ofList group) (String.ofList name))

/-- Read an op. The first operator character ends the group, and all that follows is the
    name. -/
def read? (token : String) : Option Op :=
  ofPieces? (token.toList.takeWhile fun c => !isOperator c)
    (token.toList.dropWhile fun c => !isOperator c)

private theorem toList_text_of_ofPieces? {group rest : List Char} {op : Op}
    (operator : ∀ c ∈ rest.head?, isOperator c = true)
    (found : ofPieces? group rest = some op) : op.text.toList = group ++ rest := by
  cases rest with
  | nil => simp [ofPieces?] at found
  | cons c name =>
      have cases_c : c = '+' ∨ c = '-' ∨ c = '>' := by
        simpa [isOperator, or_assoc] using operator c (by simp)
      rw [ofPieces?] at found
      rcases cases_c with rfl | rfl | rfl
      · split at found
        · contradiction
        · obtain rfl := Option.some.inj found
          simp [text]
      · split at found
        · contradiction
        · rw [if_neg (by decide), if_neg (by decide)] at found
          split at found <;> obtain rfl := Option.some.inj found <;> simp_all [text]
      · split at found
        · contradiction
        · obtain rfl := Option.some.inj found
          simp [text]

/-- An op is written as it was read. -/
theorem text_of_read? {token : String} {op : Op} (found : read? token = some op) :
    op.text = token := by
  rw [← String.toList_inj, toList_text_of_ofPieces? ?_ found, List.takeWhile_append_dropWhile]
  intro c mem
  have first := List.head?_dropWhile_not (fun c => !isOperator c) token.toList
  rw [mem] at first
  simpa using first

/-- What an op writes. An op on a group writes the layers that the catalog has in it; an op on
    one layer writes its id, known or not. -/
def writes (catalog : Catalog) : Op → List (String × Bool)
  | enable group name => [(Layer.idOf group name, true)]
  | disable group name => [(Layer.idOf group name, false)]
  | exclusive group name => (catalog.group group).map fun layer => (layer.id, layer.name == name)
  | clearGroup group => (catalog.group group).map fun layer => (layer.id, false)

def apply (catalog : Catalog) (activation : Activation) (op : Op) : Activation :=
  activation.write (op.writes catalog)

def applyAll (catalog : Catalog) (activation : Activation) (ops : List Op) : Activation :=
  ops.foldl (apply catalog) activation

end Op

end LayerComposition
