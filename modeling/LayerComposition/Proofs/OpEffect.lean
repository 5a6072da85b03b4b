import LayerComposition.Proofs.Targets

/-! # Effects of ops

An op decides the entries of the ids that it covers and leaves all others alone. What it decides
depends on the catalog only, so applying it again changes nothing, and ops that cover no id in
common can change places.
-/

namespace LayerComposition

namespace Activation

/-- The layers of a group that are on, in render order. -/
def activeIn (activation : Activation) (catalog : Catalog) (group : String) : List Layer :=
  (activation.activeLayers catalog).filter (·.group = group)

variable {activation : Activation} {catalog : Catalog} {group : String}

theorem mem_activeIn {layer : Layer} :
    layer ∈ activation.activeIn catalog group ↔
      layer ∈ catalog.group group ∧ activation.isOn layer.id = true := by
  simp only [activeIn, activeLayers, List.mem_filter, Catalog.mem_group, decide_eq_true_eq]
  exact and_right_comm

theorem nodup_activeIn (activation : Activation) (catalog : Catalog) (group : String) :
    (activation.activeIn catalog group).Nodup :=
  ((catalog.ids_nodup.of_map _).filter _).filter _

end Activation

namespace Op

/-- The ids that an op is about: the one that it spells, known to the catalog or not, or those of
    the layers that the catalog has in its group. -/
def Covers (catalog : Catalog) (id : String) : Op → Prop
  | enable group name | disable group name => id = Layer.idOf group name
  | exclusive group _ | clearGroup group =>
      ∃ layer ∈ catalog.layers, layer.group = group ∧ layer.id = id

/-- What stands in an activation right behind an op. -/
def Leaves (catalog : Catalog) (after : Activation) : Op → Prop
  | enable group name => after.get? (Layer.idOf group name) = some true
  | disable group name => after.get? (Layer.idOf group name) = some false
  | exclusive group name =>
      (∀ only ∈ catalog.layers, only.group = group → only.name = name →
          after.activeIn catalog group = [only]) ∧
        ((∀ layer ∈ catalog.layers, layer.group = group → layer.name ≠ name) →
          after.activeIn catalog group = [])
  | clearGroup group =>
      after.activeIn catalog group = [] ∧
        ∀ layer ∈ catalog.layers, layer.group = group → after.get? layer.id = some false

/-- What an op does to activations, and what it does not do. -/
structure Effect (catalog : Catalog) (op : Op) : Prop where
  frame : ∀ activation id, ¬op.Covers catalog id →
    (op.apply catalog activation).get? id = activation.get? id
  decides : ∀ id, op.Covers catalog id →
    ∃ on, ∀ activation, (op.apply catalog activation).get? id = some on
  idempotent : ∀ activation,
    op.apply catalog (op.apply catalog activation) = op.apply catalog activation
  leaves : ∀ activation, op.Leaves catalog (op.apply catalog activation)
  commutes : ∀ other : Op, (∀ id, op.Covers catalog id → ¬other.Covers catalog id) →
    ∀ activation, other.apply catalog (op.apply catalog activation) =
      op.apply catalog (other.apply catalog activation)

variable {catalog : Catalog} {op other : Op} {id : String}

/-! ## Entries -/

theorem covers_iff : op.Covers catalog id ↔ id ∈ (op.writes catalog).map Prod.fst := by
  cases op with
  | enable group name | disable group name => simp [Covers, writes]
  | exclusive group name | clearGroup group =>
      simp [Covers, writes, Catalog.mem_group, and_assoc]

theorem get?_apply_of_not_covers (apart : ¬op.Covers catalog id) (activation : Activation) :
    (op.apply catalog activation).get? id = activation.get? id := by
  have unwritten : lastWrite? (op.writes catalog) id = none := by
    rw [lastWrite?_eq_none_iff]
    rintro write mem rfl
    exact apart (covers_iff.2 (List.mem_map_of_mem mem))
  rw [apply, Activation.get?_write_eq, unwritten, Option.none_or]

theorem get?_apply_of_covers (covered : op.Covers catalog id) :
    ∃ on, ∀ activation, (op.apply catalog activation).get? id = some on := by
  obtain ⟨⟨_, on⟩, written, rfl⟩ := List.mem_map.1 (covers_iff.1 covered)
  exact ⟨on, get?_apply_of_mem_writes written⟩

theorem apply_apply (activation : Activation) :
    op.apply catalog (op.apply catalog activation) = op.apply catalog activation := by
  apply Activation.ext_get?
  intro id
  by_cases covered : op.Covers catalog id
  · obtain ⟨on, decided⟩ := get?_apply_of_covers covered
    rw [decided, decided]
  · rw [get?_apply_of_not_covers covered]

theorem apply_comm (apart : ∀ id, op.Covers catalog id → ¬other.Covers catalog id)
    (activation : Activation) :
    other.apply catalog (op.apply catalog activation) =
      op.apply catalog (other.apply catalog activation) := by
  apply Activation.ext_get?
  intro id
  by_cases covered : op.Covers catalog id
  · obtain ⟨on, decided⟩ := get?_apply_of_covers covered
    rw [get?_apply_of_not_covers (apart id covered), decided, decided]
  · rw [get?_apply_of_not_covers covered]
    by_cases touched : other.Covers catalog id
    · obtain ⟨on, decided⟩ := get?_apply_of_covers touched
      rw [decided, decided]
    · rw [get?_apply_of_not_covers touched, get?_apply_of_not_covers touched,
        get?_apply_of_not_covers covered]

/-! ## Groups -/

theorem get?_apply_clearGroup {layer : Layer} (mem : layer ∈ catalog.layers) (name : String)
    (activation : Activation) :
    ((@clearGroup layer.group name).apply catalog activation).get? layer.id = some false := by
  refine get?_apply_of_mem_writes ?_ activation
  exact List.mem_map.2 ⟨layer, Catalog.mem_group.2 ⟨mem, rfl⟩, rfl⟩

theorem activeIn_apply_clearGroup (group name : String) (activation : Activation) :
    ((@clearGroup group name).apply catalog activation).activeIn catalog group = [] := by
  rw [List.eq_nil_iff_forall_not_mem]
  intro layer mem
  obtain ⟨held, on⟩ := Activation.mem_activeIn.1 mem
  obtain ⟨kept, rfl⟩ := Catalog.mem_group.1 held
  simp [Activation.isOn, get?_apply_clearGroup kept] at on

theorem mem_activeIn_apply_exclusive {group name : String} {layer : Layer}
    {activation : Activation} :
    layer ∈ ((exclusive group name).apply catalog activation).activeIn catalog group ↔
      layer ∈ catalog.group group ∧ layer.name = name := by
  rw [Activation.mem_activeIn, and_congr_right_iff]
  intro mem
  rw [isOn_apply_exclusive mem, beq_iff_eq]

theorem activeIn_apply_exclusive {only : Layer} (mem : only ∈ catalog.layers)
    (activation : Activation) :
    ((exclusive only.group only.name).apply catalog activation).activeIn catalog only.group =
      [only] := by
  rw [← List.perm_singleton,
    List.perm_ext_iff_of_nodup (Activation.nodup_activeIn ..) (List.nodup_singleton only)]
  intro layer
  rw [mem_activeIn_apply_exclusive, List.mem_singleton, Catalog.mem_group]
  constructor
  · rintro ⟨⟨kept, group_eq⟩, name_eq⟩
    exact Catalog.eq_of_id_eq kept mem (by rw [Layer.id, Layer.id, group_eq, name_eq])
  · rintro rfl
    exact ⟨⟨mem, rfl⟩, rfl⟩

theorem leaves_apply (op : Op) (activation : Activation) :
    op.Leaves catalog (op.apply catalog activation) := by
  cases op with
  | enable group name | disable group name =>
      exact get?_apply_of_mem_writes (List.mem_singleton_self _) activation
  | exclusive group name =>
      constructor
      · rintro only mem rfl rfl
        exact activeIn_apply_exclusive mem activation
      · intro unnamed
        rw [List.eq_nil_iff_forall_not_mem]
        intro layer mem
        obtain ⟨held, name_eq⟩ := mem_activeIn_apply_exclusive.1 mem
        obtain ⟨kept, group_eq⟩ := Catalog.mem_group.1 held
        exact unnamed layer kept group_eq name_eq
  | @clearGroup group name =>
      refine ⟨activeIn_apply_clearGroup group name activation, ?_⟩
      rintro layer mem rfl
      exact get?_apply_clearGroup mem name activation

/-- An op decides the entries that it covers, whatever stood there, and no others. -/
theorem effect_apply (catalog : Catalog) (op : Op) : op.Effect catalog where
  frame := fun activation _ apart => get?_apply_of_not_covers apart activation
  decides := fun _ => get?_apply_of_covers
  idempotent := apply_apply
  leaves := leaves_apply op
  commutes := fun _ => apply_comm

/-- Shutting the eyes leaves one of them on, and a tail without a layer may wag before or behind
    it. -/
theorem effect_apply_portrait :
    ((exclusive "Eyes" "Shut").apply Definitions.portrait.catalog
        (Activation.ofList [("Eyes/Open", true)])).activeIn Definitions.portrait.catalog "Eyes" =
        [⟨"Eyes", "Shut", 1⟩] ∧
      (enable "Tail" "Wag").apply Definitions.portrait.catalog
          ((exclusive "Eyes" "Shut").apply Definitions.portrait.catalog ∅) =
        (exclusive "Eyes" "Shut").apply Definitions.portrait.catalog
          ((enable "Tail" "Wag").apply Definitions.portrait.catalog ∅) := by
  have shut := effect_apply Definitions.portrait.catalog (exclusive "Eyes" "Shut")
  have apart : ∀ layer ∈ Definitions.portrait.catalog.layers,
      layer.id ≠ Layer.idOf "Tail" "Wag" := by
    decide
  refine ⟨(shut.leaves _).1 ⟨"Eyes", "Shut", 1⟩ (by decide) rfl rfl, shut.commutes _ ?_ _⟩
  rintro _ ⟨layer, mem, _, rfl⟩
  exact apart layer mem

end Op

end LayerComposition
