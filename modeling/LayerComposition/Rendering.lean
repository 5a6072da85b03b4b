import LayerComposition.Character
import LayerComposition.Json

/-! # Rendering

The written forms of what was resolved: one layer id a line, or a JSON document.
-/

namespace LayerComposition

/-- An activation as an object from ids to flags, in the order of the ids. -/
def Activation.toJson (activation : Activation) : Json :=
  .object (activation.entries.map fun (id, on) => (id, .bool on))

/-- Pins as an object from ids to flags, in the order in which they were pinned. -/
def Pins.toJson (pins : Pins) : Json :=
  .object (pins.entries.map fun (id, on) => (id, .bool on))

/-- Active names as an array, in the order of activation. -/
def ActiveSet.toJson (active : ActiveSet) : Json :=
  .array (active.names.map .string)

def Layer.toJson (layer : Layer) : Json :=
  .object [("group", .string layer.group), ("name", .string layer.name),
    ("order", .integer layer.order), ("id", .string layer.id)]

namespace Character

/-- What an expression says about a character; without an expression, that its presets are
    active. -/
def chosen (character : Character) : Option String → Expression
  | some text => character.readExpression text
  | none => ⟨character.presets, []⟩

/-- The layers that an expression switches on, in render order: their ids line by line, or a
    JSON document that also tells the canonical expression and the active compositions. -/
def render (character : Character) (text? : Option String) (json : Bool) :
    Except Cycle String := do
  let expression := character.chosen text?
  let state ← character.resolve expression.active (expression.pins character.catalog)
  let layers := state.activeLayers character.catalog
  if json then
    let canonical ← character.synthesize state expression.active
    pure <| Json.pretty <| .object
      [("character", .string character.name), ("expression", .string canonical),
        ("compositions", expression.active.toJson), ("layers", .array (layers.map Layer.toJson))]
  else pure ("\n".intercalate (layers.map Layer.id))

end Character

end LayerComposition
