import LayerComposition.Activation
import LayerComposition.Distinct
import LayerComposition.Layer

/-! # Catalogs

A catalog holds the layers of one character in render order. Where an id is defined more than
once its first definition counts, and the catalog remembers the ids of the later ones.
-/

namespace LayerComposition

/-- The layers of a character, in render order and each id once, with the ids that were
    defined again. -/
structure Catalog where
  layers : List Layer
  duplicates : List String
  ids_nodup : (layers.map Layer.id).Nodup
  ordered : layers.Pairwise fun a b => decide (a.order ≤ b.order) = true
  deriving DecidableEq

namespace Catalog

/-- Sort layers by order. Layers of equal order stay as they are. -/
def inRenderOrder (layers : List Layer) : List Layer :=
  layers.mergeSort fun a b => decide (a.order ≤ b.order)

/-- The catalog of a list of definitions: the first one of each id, in render order. -/
def ofLayers (layers : List Layer) : Catalog where
  layers := inRenderOrder (distinctOn Layer.id layers)
  duplicates := repeatsOn Layer.id layers
  ids_nodup :=
    (((List.mergeSort_perm _ _).map Layer.id).nodup_iff).2 (nodup_map_distinctOn Layer.id layers)
  ordered :=
    List.pairwise_mergeSort
      (fun a b c hab hbc => by
        simp only [decide_eq_true_eq] at hab hbc ⊢
        exact Int64.le_trans hab hbc)
      (fun a b => by
        simp only [Bool.or_eq_true, decide_eq_true_eq]
        exact Int64.le_total a.order b.order)
      _

def read (text : String) : Catalog × List SourceLine :=
  let reading := Reading.ofText Layer.read? text
  (ofLayers reading.accepted, reading.skipped)

/-- The text that defines the layers of a catalog, one a line. -/
def text (catalog : Catalog) : String :=
  String.join (catalog.layers.map fun layer => layer.line ++ "\n")

def ids (catalog : Catalog) : List String :=
  catalog.layers.map Layer.id

def get? (catalog : Catalog) (id : String) : Option Layer :=
  catalog.layers.find? (·.id = id)

def contains (catalog : Catalog) (id : String) : Bool :=
  (catalog.get? id).isSome

def group (catalog : Catalog) (group : String) : List Layer :=
  catalog.layers.filter (·.group = group)

theorem mem_group {catalog : Catalog} {layer : Layer} {group : String} :
    layer ∈ catalog.group group ↔ layer ∈ catalog.layers ∧ layer.group = group := by
  simp [Catalog.group]

def hasGroup (catalog : Catalog) (group : String) : Bool :=
  catalog.layers.any (·.group = group)

/-- The groups, in the order in which their first layers are drawn. -/
def groups (catalog : Catalog) : List String :=
  distinct (catalog.layers.map Layer.group)

def size (catalog : Catalog) : Nat :=
  catalog.layers.length

@[ext]
theorem ext {first second : Catalog} (layers : first.layers = second.layers)
    (duplicates : first.duplicates = second.duplicates) : first = second := by
  cases first
  cases second
  simp only at layers duplicates
  subst layers duplicates
  rfl

theorem ofLayers_eq {catalog : Catalog} {layers : List Layer} (same : layers = catalog.layers)
    (duplicates : catalog.duplicates = []) : ofLayers layers = catalog := by
  subst same
  refine ext ?_ ?_
  · show inRenderOrder (distinctOn Layer.id catalog.layers) = catalog.layers
    rw [distinctOn_eq_self catalog.ids_nodup]
    exact List.mergeSort_of_pairwise catalog.ordered
  · rw [duplicates]
    exact repeatsOn_eq_nil_iff.2 catalog.ids_nodup

end Catalog

namespace Activation

/-- The layers of a catalog that are on, in render order. -/
def activeLayers (activation : Activation) (catalog : Catalog) : List Layer :=
  catalog.layers.filter fun layer => activation.isOn layer.id

/-- Whether two activations switch on the same layers of a catalog. -/
def sameLayers (first second : Activation) (catalog : Catalog) : Bool :=
  catalog.ids.all fun id => first.isOn id = second.isOn id

end Activation

end LayerComposition
