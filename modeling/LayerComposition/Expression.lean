import LayerComposition.ActiveSet
import LayerComposition.Registry

/-! # Expressions

An expression is a comma-separated list of composition names and ops, as a user types or shares
it: `Smile,Blink,Mouth+Frown,Hat-`. Tokens that are neither are passed over.
-/

namespace LayerComposition

/-- Layers that a user holds on or off, whatever the compositions say, in the order in which
    they were pinned. -/
abbrev Pins := Roster Bool

/-- The pins that hold every entry of an activation as it is, in the order of the ids. -/
def Pins.ofActivation (activation : Activation) : Pins where
  entries := activation.entries
  keys_nodup := activation.keys_nodup

/-- What an expression says: the compositions to activate, in the order of first mention, and
    the ops, in the order in which they are listed. -/
structure Expression where
  active : ActiveSet
  ops : List Op
  deriving DecidableEq

namespace Expression

def defaultText : String :=
  "Default"

/-- The composition names among the parts of a text. -/
def compositionNames (parts : List Part) : List String :=
  parts.filterMap fun
    | .composition composition => some composition.name
    | _ => none

def opsAmong (parts : List Part) : List Op :=
  parts.filterMap fun
    | .op op => some op
    | _ => none

/-- Read an expression with the compositions of a registry. -/
def read (registry : Registry) (text : String) : Expression :=
  let parts := (Text.items text).map registry.classify
  ⟨ActiveSet.ofList (compositionNames parts), opsAmong parts⟩

/-- The pins that an expression's ops amount to: what they write when they are applied in order
    to nothing. -/
def pins (expression : Expression) (catalog : Catalog) : Pins :=
  Pins.ofActivation (Op.applyAll catalog ∅ expression.ops)

def isEmpty (expression : Expression) : Bool :=
  expression.active.names.isEmpty && expression.ops.isEmpty

end Expression

end LayerComposition
