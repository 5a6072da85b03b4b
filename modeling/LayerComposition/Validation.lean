import LayerComposition.Character
import LayerComposition.Diagnostic
import LayerComposition.ReferenceGraph.Search

/-! # Validation

Reading never fails, so whatever is wrong with a character's definitions shows here: cycles,
repeated definitions, layers that no expression can name, lines that were passed over, and
parts and base ops that mean nothing or aim at nothing. Only a cycle is an error, because only
a cycle makes resolution fail.
-/

namespace LayerComposition

/-- Where an op is written. -/
inductive Place where
  | composition (name : String)
  | baseline
  deriving Repr, DecidableEq

def Place.text : Place → String
  | composition name => s!"in composition '{name}'"
  | baseline => "in the default baseline"

/-- Something that is wrong with the definitions of a character. -/
inductive Finding where
  /-- Compositions include each other in a circle. -/
  | cycle (cycle : Cycle)
  /-- A layer id is defined again. -/
  | duplicateLayer (id : String)
  /-- A composition name is defined again. -/
  | duplicateComposition (name : String)
  /-- A layer's group or name holds characters with a meaning in expressions. -/
  | unaddressableLayer (layer : Layer)
  /-- A catalog line defines no layer. -/
  | skippedCatalogLine (line : SourceLine)
  /-- A compositions line defines no composition. -/
  | skippedCompositionsLine (line : SourceLine)
  /-- An op is about a group without layers. -/
  | unknownGroup (op : Op) (place : Place)
  /-- An op names a layer that its group does not have. -/
  | unknownLayer (op : Op) (place : Place) (id : String)
  /-- A part is neither a composition nor an op. -/
  | unknownPart (part composition : String)
  /-- A preset is not a composition. -/
  | unknownPreset (name : String)
  /-- A base op cannot be read. -/
  | unreadableBaseOp (token : String)
  deriving Repr, DecidableEq

namespace Finding

def severity : Finding → Severity
  | cycle _ => .error
  | _ => .warning

def kind : Finding → String
  | cycle _ => "cycle"
  | duplicateLayer _ => "duplicate-layer"
  | duplicateComposition _ => "duplicate-composition"
  | unaddressableLayer _ => "unaddressable-layer"
  | skippedCatalogLine _ | skippedCompositionsLine _ => "skipped-line"
  | unknownGroup _ _ => "unknown-group"
  | unknownLayer _ _ _ => "unknown-layer"
  | unknownPart _ _ | unreadableBaseOp _ => "unknown-part"
  | unknownPreset _ => "unknown-preset"

def message : Finding → String
  | cycle names => "Composition cycle: " ++ " -> ".intercalate names
  | duplicateLayer id => s!"Layer '{id}' is defined more than once"
  | duplicateComposition name => s!"Composition '{name}' is defined more than once"
  | unaddressableLayer layer => s!"Layer '{layer.id}' cannot be written in an expression"
  | skippedCatalogLine line => s!"Catalog {line.display} was ignored"
  | skippedCompositionsLine line => s!"Compositions {line.display} was ignored"
  | unknownGroup op place => s!"Op '{op.text}' {place.text} targets unknown group '{op.group}'"
  | unknownLayer op place id => s!"Op '{op.text}' {place.text} targets unknown layer '{id}'"
  | unknownPart part composition =>
      s!"Part '{part}' in composition '{composition}' is neither a composition nor an op"
  | unknownPreset name => s!"Default preset '{name}' is not a composition"
  | unreadableBaseOp token => s!"Default op '{token}' is not a valid op"

def help? : Finding → Option String
  | cycle _ => some "Remove one of the references so no composition includes itself"
  | duplicateLayer _ => some "The first definition is used"
  | duplicateComposition _ => some "The last definition is used"
  | unaddressableLayer _ =>
      some ("Group names may not contain '+', '-', '>' or ','; " ++
        "layer names may not contain ','")
  | skippedCatalogLine _ => some "Expected group:name:order with an integer order"
  | skippedCompositionsLine _ => some "Expected name:part,part,..."
  | unknownPart _ _ => some "Ops look like Group+Name, Group-Name, Group>Name or Group-"
  | unknownGroup _ _ | unknownLayer _ _ _ | unknownPreset _ | unreadableBaseOp _ => none

def diagnostic (finding : Finding) : Diagnostic where
  severity := finding.severity
  code := "compo::validate::" ++ finding.kind
  message := finding.message
  help? := finding.help?

end Finding

/-- Whether the ops of an expression can name a layer: its group holds no operator character and
    neither group nor name a comma. -/
def Layer.isAddressable (layer : Layer) : Bool :=
  !layer.group.toList.any (fun c => Op.isOperator c || c == ',') &&
    !layer.name.toList.any (· == ',')

def Op.targetFindings (catalog : Catalog) (place : Place) (op : Op) : List Finding :=
  if !catalog.hasGroup op.group then [.unknownGroup op place]
  else
    match op.target? with
    | none => []
    | some id => if catalog.contains id then [] else [.unknownLayer op place id]

namespace Character

def cycleFindings (character : Character) : List Finding :=
  character.registry.graph.cycles.map .cycle

/-- Layers and compositions that are defined again. -/
def duplicateFindings (character : Character) : List Finding :=
  character.catalog.duplicates.map .duplicateLayer ++
    character.registry.duplicates.map .duplicateComposition

def addressFindings (character : Character) : List Finding :=
  (character.catalog.layers.filter fun layer => !layer.isAddressable).map .unaddressableLayer

def skippedFindings (character : Character) : List Finding :=
  character.skippedLayers.map .skippedCatalogLine ++
    character.skippedCompositions.map .skippedCompositionsLine

def partFindings (character : Character) (composition part : String) : List Finding :=
  match character.registry.classify part with
  | .composition _ => []
  | .op op => op.targetFindings character.catalog (.composition composition)
  | .unknown => [.unknownPart part composition]

/-- What is wrong with the parts of the compositions. -/
def partsFindings (character : Character) : List Finding :=
  character.registry.compositions.flatMap fun composition =>
    composition.parts.flatMap (character.partFindings composition.name)

def baseOpFindings (character : Character) (token : String) : List Finding :=
  match Op.read? token with
  | some op => op.targetFindings character.catalog .baseline
  | none => [.unreadableBaseOp token]

def baselineFindings (character : Character) : List Finding :=
  (character.baseline.presetNames.filter fun name => !character.registry.contains name).map
      .unknownPreset ++
    character.baseline.baseOps.flatMap character.baseOpFindings

/-- All that is wrong with the definitions of a character. -/
def findings (character : Character) : List Finding :=
  character.cycleFindings ++ character.duplicateFindings ++ character.addressFindings ++
    character.skippedFindings ++ character.partsFindings ++ character.baselineFindings

def validate (character : Character) : Report :=
  ⟨character.findings.map Finding.diagnostic⟩

end Character

end LayerComposition
