import LayerComposition.Baseline
import LayerComposition.Expansion
import LayerComposition.Expression

/-! # Resolution

Which layers are on follows from three sources, the later ones over the earlier: the base ops,
the active compositions in the order of activation, and the pins. It fails only where an
active composition includes itself.
-/

namespace LayerComposition

/-- The definitions that decide what is on: layers, compositions and the baseline. -/
structure Definitions where
  catalog : Catalog
  registry : Registry
  baseline : Baseline

namespace Definitions

def baseState (definitions : Definitions) : Activation :=
  Op.applyAll definitions.catalog ∅ definitions.baseline.ops

/-- Expand one composition into an activation, or fail with the cycle that ends it early. -/
def expandInto (definitions : Definitions) (activation : Activation) (name : String) :
    Except Cycle Activation :=
  match definitions.registry.expand definitions.catalog name activation with
  | ⟨activation, none⟩ => .ok activation
  | ⟨_, some cycle⟩ => .error cycle

/-- The state without pins: base ops, then the active compositions. -/
def presetState (definitions : Definitions) (active : ActiveSet) : Except Cycle Activation :=
  active.names.foldlM definitions.expandInto definitions.baseState

/-- The full state: base ops, active compositions and pins. -/
def resolve (definitions : Definitions) (active : ActiveSet) (pins : Pins) :
    Except Cycle Activation :=
  (definitions.presetState active).map (·.write pins.entries)

def readExpression (definitions : Definitions) (text : String) : Expression :=
  Expression.read definitions.registry text

def resolveExpression (definitions : Definitions) (text : String) : Except Cycle Activation :=
  let expression := definitions.readExpression text
  definitions.resolve expression.active (expression.pins definitions.catalog)

def presets (definitions : Definitions) : ActiveSet :=
  ActiveSet.ofList definitions.baseline.presetNames

end Definitions

end LayerComposition
