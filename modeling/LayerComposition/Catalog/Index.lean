import LayerComposition.Catalog
import LayerComposition.Roster

/-! # Catalog indexes

An index tells where in a list of layers each id stands, and which positions belong to each group.
It is made in one pass over the list, and layers are then found by their positions.
-/

namespace LayerComposition.Catalog

/-- Positions in a list of layers: the one of each id, and those of each group in order. -/
structure Index where
  byId : Roster Nat
  byGroup : Roster (List Nat)

namespace Index

/-- Enter a layer with its position, behind the layers that were entered before. -/
def enter (index : Index) (layer : Layer) (position : Nat) : Index where
  byId := index.byId.put layer.id position
  byGroup := index.byGroup.put layer.group
    ((index.byGroup.get? layer.group).getD [] ++ [position])

def ofLayers (layers : List Layer) : Index :=
  layers.zipIdx.foldl (fun index (layer, position) => index.enter layer position) ⟨∅, ∅⟩

/-- The layer that stands at the position of an id. -/
def find? (index : Index) (layers : List Layer) (id : String) : Option Layer :=
  (index.byId.get? id).bind fun position => layers[position]?

/-- The layers that stand at the positions of a group. -/
def members (index : Index) (layers : List Layer) (group : String) : List Layer :=
  ((index.byGroup.get? group).getD []).filterMap fun position => layers[position]?

theorem ofLayers_concat (layers : List Layer) (layer : Layer) :
    ofLayers (layers ++ [layer]) = (ofLayers layers).enter layer layers.length := by
  simp [ofLayers, List.zipIdx_append]

end Index

def index (catalog : Catalog) : Index :=
  .ofLayers catalog.layers

end LayerComposition.Catalog
