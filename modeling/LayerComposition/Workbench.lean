import LayerComposition.Character

/-! # Workbenches

A workbench is the state of editing one character: the compositions that are switched on and
the layers that are pinned.
-/

namespace LayerComposition

/-- A character with the user's choices. -/
structure Workbench where
  character : Character
  active : ActiveSet
  pins : Pins

namespace Workbench

/-- Start to edit a character, with its presets active and nothing pinned. -/
def start (character : Character) : Workbench :=
  ⟨character, character.presets, ∅⟩

/-- Whether toggling a name does anything: only the character's compositions can be toggled. -/
def canToggle (bench : Workbench) (name : String) : Bool :=
  bench.character.registry.contains name

/-- Switch a composition on or off, and tell what its toggle tells. A name without a composition
    changes nothing, and `false` is told of it. -/
def toggle (bench : Workbench) (name : String) : Bool × Workbench :=
  if bench.canToggle name then
    let (on, active) := bench.active.toggle name
    (on, { bench with active })
  else (false, bench)

def pin (bench : Workbench) (id : String) (on : Bool) : Workbench :=
  { bench with pins := bench.pins.put id on }

def unpin (bench : Workbench) (id : String) : Option Bool × Workbench :=
  (bench.pins.get? id, { bench with pins := bench.pins.remove id })

/-- Go back to the presets of the character, with nothing pinned. -/
def reset (bench : Workbench) : Workbench :=
  { bench with
    active := bench.character.presets
    pins := bench.pins.clear }

/-- Take up another character, and go back to its presets. -/
def switch (bench : Workbench) (character : Character) : Workbench :=
  { bench with character }.reset

/-- A reset leaves the workbench as if its character had just been taken up. -/
theorem reset_eq_start (bench : Workbench) : bench.reset = start bench.character := rfl

/-- A switch leaves nothing of what was chosen for the character before. -/
theorem switch_eq_start (bench : Workbench) (character : Character) :
    bench.switch character = start character := rfl

/-- Replace all choices by what an expression says. -/
def applyExpression (bench : Workbench) (text : String) : Workbench :=
  let expression := bench.character.readExpression text
  { bench with
    active := expression.active
    pins := expression.pins bench.character.catalog }

/-- One step of editing. -/
inductive Action where
  | toggle (name : String)
  | pin (id : String) (on : Bool)
  | unpin (id : String)
  | reset
  | switch (character : Character)
  | applyExpression (text : String)

def perform (bench : Workbench) : Action → Workbench
  | .toggle name => (bench.toggle name).2
  | .pin id on => bench.pin id on
  | .unpin id => (bench.unpin id).2
  | .reset => bench.reset
  | .switch character => bench.switch character
  | .applyExpression text => bench.applyExpression text

def performAll (bench : Workbench) (actions : List Action) : Workbench :=
  actions.foldl perform bench

def state (bench : Workbench) : Except Cycle Activation :=
  bench.character.resolve bench.active bench.pins

def expression (bench : Workbench) : Except Cycle String := do
  let state ← bench.state
  bench.character.synthesize state bench.active

end Workbench

end LayerComposition
