import LayerComposition.Synthesis

/-! # Characters

A character is loaded once from three texts. Lines that no reader accepts are kept beside what
was read, for a report.
-/

namespace LayerComposition

/-- The texts that define a character. -/
structure CharacterSources where
  name : String
  catalog : String
  compositions : String
  baseline : String
  deriving Repr, DecidableEq

/-- A loaded character: its definitions, and the source lines that were passed over. -/
structure Character extends Definitions where
  name : String
  skippedLayers : List SourceLine
  skippedCompositions : List SourceLine

namespace Character

def ofSources (sources : CharacterSources) : Character :=
  let (catalog, skippedLayers) := Catalog.read sources.catalog
  let (registry, skippedCompositions) := Registry.read sources.compositions
  { name := sources.name
    catalog, registry, skippedLayers, skippedCompositions
    baseline := Baseline.read sources.baseline }

/-- A character with given definitions, none of whose sources were passed over. -/
def ofDefinitions (name : String) (definitions : Definitions) : Character :=
  { definitions with name, skippedLayers := [], skippedCompositions := [] }

/-- Texts of which no line is passed over make a character of what is read from them. -/
theorem ofSources_eq {sources : CharacterSources} {definitions : Definitions}
    (catalog : Catalog.read sources.catalog = (definitions.catalog, []))
    (registry : Registry.read sources.compositions = (definitions.registry, []))
    (baseline : Baseline.read sources.baseline = definitions.baseline) :
    ofSources sources = ofDefinitions sources.name definitions := by
  unfold ofSources
  rw [catalog, registry, baseline]
  rfl

end Character

end LayerComposition
