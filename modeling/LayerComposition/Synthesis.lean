import LayerComposition.Resolution

/-! # Synthesis

Synthesis writes an expression for a state. It keeps the compositions that should stay active
and adds ops only for the groups in which they alone do not give the state. A group with
nothing on is cleared, one with a single layer on is set to that layer, and in any other the
layers that differ are switched one by one. Ops are sorted by their text, so that a state has
one expression.
-/

namespace LayerComposition.Synthesis

/-- Whether two activations disagree about a layer. -/
def differs (preset state : Activation) (layer : Layer) : Bool :=
  state.isOn layer.id != preset.isOn layer.id

/-- The groups with a layer on which preset and state disagree, in render order. -/
def changedGroups (catalog : Catalog) (preset state : Activation) : List String :=
  distinct ((catalog.layers.filter (differs preset state)).map Layer.group)

/-- The ops that bring one changed group from preset to state. -/
def groupOps (catalog : Catalog) (preset state : Activation) (group : String) : List Op :=
  match (catalog.group group).filter fun layer => state.isOn layer.id with
  | [] => [.clear group]
  | [only] => [.exclusive group only.name]
  | _ =>
      ((catalog.group group).filter (differs preset state)).map fun layer =>
        if state.isOn layer.id then .enable group layer.name else .disable group layer.name

/-- Sort ops by their text. Ops of equal text stay as they are. -/
def sortByText (ops : List Op) : List Op :=
  ops.mergeSort fun a b => decide (a.text ≤ b.text)

/-- The ops that bring every group from preset to state, sorted by their text. -/
def opsBetween (catalog : Catalog) (preset state : Activation) : List Op :=
  sortByText ((changedGroups catalog preset state).flatMap (groupOps catalog preset state))

def expressionText (active : ActiveSet) (ops : List Op) : String :=
  match active.names ++ ops.map Op.text with
  | [] => Expression.defaultText
  | tokens => ",".intercalate tokens

end Synthesis

namespace Definitions

/-- The ops needed on top of the active compositions to reach a state. -/
def diff (definitions : Definitions) (state : Activation) (active : ActiveSet) :
    Except Cycle (List Op) :=
  (definitions.presetState active).map fun preset =>
    Synthesis.opsBetween definitions.catalog preset state

/-- The expression that keeps the active compositions and reaches a state. -/
def synthesize (definitions : Definitions) (state : Activation) (active : ActiveSet) :
    Except Cycle String :=
  (definitions.diff state active).map (Synthesis.expressionText active)

/-- The canonical form of an expression: the expression of the state that it describes, with
    the compositions that it names. -/
def canonicalize (definitions : Definitions) (text : String) : Except Cycle String := do
  let expression := definitions.readExpression text
  let state ← definitions.resolve expression.active (expression.pins definitions.catalog)
  definitions.synthesize state expression.active

end Definitions

end LayerComposition
