import LayerComposition.Proofs.Precedence
import LayerComposition.Synthesis

/-! # Difference

The ops between a preset and a state write nothing but what the state says, and they write
every layer on which the two disagree. So they lead from the preset to the state in whichever
order they are applied, and sorting them by text costs nothing.
-/

namespace LayerComposition

namespace Catalog

variable {catalog : Catalog}

theorem hasGroup_iff {group : String} :
    catalog.hasGroup group = true ↔ ∃ layer ∈ catalog.layers, layer.group = group := by
  simp [hasGroup]

theorem contains_iff {id : String} :
    catalog.contains id = true ↔ ∃ layer ∈ catalog.layers, layer.id = id := by
  simp [contains, get?]

/-- Layers of a catalog with one id are one layer. -/
theorem eq_of_id_eq {first second : Layer} (first_mem : first ∈ catalog.layers)
    (second_mem : second ∈ catalog.layers) (same : first.id = second.id) : first = second :=
  List.inj_on_of_nodup_map catalog.ids_nodup first_mem second_mem same

end Catalog

theorem Activation.sameLayers_iff {first second : Activation} {catalog : Catalog} :
    first.sameLayers second catalog = true ↔
      ∀ layer ∈ catalog.layers, first.isOn layer.id = second.isOn layer.id := by
  simp [sameLayers, Catalog.ids]

namespace Layer

/-- The ops on a layer and on its group. -/
def ops (layer : Layer) : List Op :=
  [.enable layer.group layer.name, .disable layer.group layer.name,
    .exclusive layer.group layer.name, .clear layer.group]

variable {layer : Layer} {op : Op}

theorem group_of_mem_ops (mem : op ∈ layer.ops) : op.group = layer.group := by
  simp only [ops, List.mem_cons, List.not_mem_nil, or_false] at mem
  rcases mem with rfl | rfl | rfl | rfl <;> rfl

/-- An op on a layer names it, unless it clears the group, and then it names nothing. -/
theorem cases_of_mem_ops (mem : op ∈ layer.ops) :
    op = .clear layer.group ∨ op.kind ≠ .clearGroup ∧ op.name = layer.name := by
  simp only [ops, List.mem_cons, List.not_mem_nil, or_false] at mem
  rcases mem with rfl | rfl | rfl | rfl <;> simp [Op.kind, Op.name]

theorem name_of_mem_ops_of_clears (mem : op ∈ layer.ops) (clears : op.kind = .clearGroup) :
    op.name = "" := by
  rcases cases_of_mem_ops mem with rfl | ⟨stays, _⟩
  · rfl
  · exact absurd clears stays

theorem name_of_mem_ops_of_disables (mem : op ∈ layer.ops) (disables : op.kind = .disable) :
    op.name = layer.name := by
  rcases cases_of_mem_ops mem with rfl | ⟨_, name_eq⟩
  · contradiction
  · exact name_eq

end Layer

namespace Synthesis

variable {catalog : Catalog} {preset state : Activation}

theorem differs_eq_true_iff {layer : Layer} :
    differs preset state layer = true ↔ state.isOn layer.id ≠ preset.isOn layer.id := by
  simp [differs]

theorem mem_changedGroups {group : String} :
    group ∈ changedGroups catalog preset state ↔
      ∃ layer ∈ catalog.group group, differs preset state layer = true := by
  simp only [changedGroups, mem_distinct, List.mem_map, List.mem_filter, Catalog.mem_group]
  constructor
  · rintro ⟨layer, ⟨mem, differ⟩, rfl⟩
    exact ⟨layer, ⟨mem, rfl⟩, differ⟩
  · rintro ⟨layer, ⟨mem, rfl⟩, differ⟩
    exact ⟨layer, ⟨mem, differ⟩, rfl⟩

theorem mem_opsBetween {op : Op} :
    op ∈ opsBetween catalog preset state ↔
      ∃ group ∈ changedGroups catalog preset state,
        op ∈ groupOps catalog preset state group := by
  rw [opsBetween, sortByText, List.mem_mergeSort, List.mem_flatMap]

/-- The ops of a group clear it where nothing is on, keep the one layer that is on, or switch
    one layer that differs. -/
theorem cases_of_mem_groupOps {group : String} {op : Op}
    (mem : op ∈ groupOps catalog preset state group) :
    (op = .clear group ∧
        ∀ layer ∈ catalog.group group, state.isOn layer.id = false) ∨
      (∃ only ∈ catalog.group group, op = .exclusive group only.name ∧
        ∀ layer ∈ catalog.group group, state.isOn layer.id = true ↔ layer = only) ∨
      ∃ layer ∈ catalog.group group, differs preset state layer = true ∧
        op = if state.isOn layer.id then .enable group layer.name
          else .disable group layer.name := by
  unfold groupOps at mem
  split at mem
  · rename_i none_on
    refine .inl ⟨List.mem_singleton.1 mem, ?_⟩
    intro layer layer_mem
    simpa using List.filter_eq_nil_iff.1 none_on layer layer_mem
  · rename_i only one_on
    have on_iff (layer : Layer) :
        layer ∈ catalog.group group ∧ state.isOn layer.id = true ↔ layer = only := by
      have singled : layer ∈ [only] ↔ layer = only := List.mem_singleton
      rw [← singled, ← one_on, List.mem_filter]
    refine .inr (.inl ⟨only, ((on_iff only).2 rfl).1, List.mem_singleton.1 mem, ?_⟩)
    intro layer layer_mem
    rw [← on_iff layer]
    exact ⟨fun on => ⟨layer_mem, on⟩, And.right⟩
  · obtain ⟨layer, layer_mem, rfl⟩ := List.mem_map.1 mem
    obtain ⟨group_mem, differ⟩ := List.mem_filter.1 layer_mem
    exact .inr (.inr ⟨layer, group_mem, differ, rfl⟩)

/-- What the ops between a preset and a state write is what the state says. -/
theorem eq_isOn_of_mem_writes {op : Op} (mem : op ∈ opsBetween catalog preset state)
    {id : String} {on : Bool} (written : (id, on) ∈ op.writes catalog) :
    on = state.isOn id := by
  obtain ⟨group, _, op_mem⟩ := mem_opsBetween.1 mem
  rcases cases_of_mem_groupOps op_mem with
    ⟨rfl, off⟩ | ⟨only, only_mem, rfl, on_iff⟩ | ⟨layer, layer_mem, _, rfl⟩
  · obtain ⟨layer, layer_mem, same⟩ := List.mem_map.1 written
    obtain ⟨rfl, rfl⟩ := Prod.mk.inj same
    exact (off layer layer_mem).symm
  · obtain ⟨layer, layer_mem, same⟩ := List.mem_map.1 written
    obtain ⟨rfl, rfl⟩ := Prod.mk.inj same
    -- Within a group a name is as good as an id.
    have same_name : layer.name = only.name ↔ layer = only := by
      constructor
      · intro names_eq
        obtain ⟨mem, group_eq⟩ := Catalog.mem_group.1 layer_mem
        obtain ⟨only_mem, only_group⟩ := Catalog.mem_group.1 only_mem
        refine Catalog.eq_of_id_eq mem only_mem ?_
        rw [Layer.id, Layer.id, group_eq, only_group, names_eq]
      · rintro rfl
        rfl
    rw [Bool.eq_iff_iff, on_iff layer layer_mem, ← same_name, beq_iff_eq]
  · have id_eq : Layer.idOf group layer.name = layer.id := by
      rw [Layer.id, (Catalog.mem_group.1 layer_mem).2]
    cases layer_on : state.isOn layer.id with
    | true =>
        obtain ⟨rfl, rfl⟩ : id = Layer.idOf group layer.name ∧ on = true := by
          simpa [layer_on, Op.writes] using written
        rw [id_eq, layer_on]
    | false =>
        obtain ⟨rfl, rfl⟩ : id = Layer.idOf group layer.name ∧ on = false := by
          simpa [layer_on, Op.writes] using written
        rw [id_eq, layer_on]

/-- The ops between a preset and a state write every layer on which the two disagree. -/
theorem exists_write_of_differs {layer : Layer} (mem : layer ∈ catalog.layers)
    (differ : differs preset state layer = true) :
    ∃ op ∈ opsBetween catalog preset state, ∃ on, (layer.id, on) ∈ op.writes catalog := by
  have group_mem : layer ∈ catalog.group layer.group := Catalog.mem_group.2 ⟨mem, rfl⟩
  have changed : layer.group ∈ changedGroups catalog preset state :=
    mem_changedGroups.2 ⟨layer, group_mem, differ⟩
  have covers : ∃ op ∈ groupOps catalog preset state layer.group,
      ∃ on, (layer.id, on) ∈ op.writes catalog := by
    unfold groupOps
    split
    · exact ⟨_, List.mem_singleton_self _, _, List.mem_map_of_mem group_mem⟩
    · exact ⟨_, List.mem_singleton_self _, _, List.mem_map_of_mem group_mem⟩
    · refine ⟨_, List.mem_map_of_mem (List.mem_filter.2 ⟨group_mem, differ⟩),
        state.isOn layer.id, ?_⟩
      cases state.isOn layer.id <;> simp [Op.writes, Layer.id]
  obtain ⟨op, op_mem, written⟩ := covers
  exact ⟨op, mem_opsBetween.2 ⟨layer.group, changed, op_mem⟩, written⟩

/-- Applied to the preset, the ops give the state on every layer. -/
theorem sameLayers_applyAll_opsBetween (catalog : Catalog) (preset state : Activation) :
    (Op.applyAll catalog preset (opsBetween catalog preset state)).sameLayers state catalog =
      true := by
  apply Activation.sameLayers_iff.2
  intro layer mem
  rw [Op.applyAll_eq_write, Activation.isOn, Activation.get?_write_eq]
  cases last : lastWrite? ((opsBetween catalog preset state).flatMap (Op.writes catalog))
      layer.id with
  | some on =>
      obtain ⟨op, op_mem, written⟩ := List.mem_flatMap.1 (mem_of_lastWrite? last)
      exact eq_isOn_of_mem_writes op_mem written
  | none =>
      have unwritten := Op.lastWrite?_flatMap_eq_none_iff.1 last
      have agree : ¬differs preset state layer = true := by
        intro differ
        obtain ⟨op, op_mem, on, written⟩ := exists_write_of_differs mem differ
        exact unwritten op op_mem on written
      rw [differs_eq_true_iff, not_not] at agree
      exact agree.symm

/-- The ops depend on the state through its layers only. -/
theorem opsBetween_congr {first second : Activation}
    (same : first.sameLayers second catalog = true) :
    opsBetween catalog preset first = opsBetween catalog preset second := by
  have same_on := Activation.sameLayers_iff.1 same
  have same_differs : ∀ layer ∈ catalog.layers,
      differs preset first layer = differs preset second layer := by
    intro layer mem
    rw [differs, differs, same_on layer mem]
  have same_groups : changedGroups catalog preset first = changedGroups catalog preset second := by
    rw [changedGroups, changedGroups, List.filter_congr same_differs]
  have same_ops (group : String) :
      groupOps catalog preset first group = groupOps catalog preset second group := by
    have in_group {layer : Layer} (mem : layer ∈ catalog.group group) : layer ∈ catalog.layers :=
      (Catalog.mem_group.1 mem).1
    have on_eq : ((catalog.group group).filter fun layer => first.isOn layer.id) =
        (catalog.group group).filter fun layer => second.isOn layer.id :=
      List.filter_congr fun layer mem => same_on layer (in_group mem)
    have differ_eq : (catalog.group group).filter (differs preset first) =
        (catalog.group group).filter (differs preset second) :=
      List.filter_congr fun layer mem => same_differs layer (in_group mem)
    unfold groupOps
    rw [on_eq, differ_eq]
    split
    · rfl
    · rfl
    · apply List.map_congr_left
      intro layer mem
      rw [same_on layer (in_group (List.mem_filter.1 mem).1)]
  rw [opsBetween, opsBetween, same_groups, List.flatMap_congr fun group _ => same_ops group]

/-- Every op between a preset and a state is an op on a layer of the catalog or its group. -/
theorem exists_layer_of_mem_opsBetween {op : Op}
    (mem : op ∈ opsBetween catalog preset state) :
    ∃ layer ∈ catalog.layers, op ∈ layer.ops := by
  obtain ⟨group, changed, op_mem⟩ := mem_opsBetween.1 mem
  rcases cases_of_mem_groupOps op_mem with
    ⟨rfl, _⟩ | ⟨layer, layer_mem, rfl, _⟩ | ⟨layer, layer_mem, _, rfl⟩
  · obtain ⟨layer, layer_mem, _⟩ := mem_changedGroups.1 changed
    obtain ⟨layer_in, rfl⟩ := Catalog.mem_group.1 layer_mem
    exact ⟨layer, layer_in, by simp [Layer.ops]⟩
  · obtain ⟨layer_in, rfl⟩ := Catalog.mem_group.1 layer_mem
    exact ⟨layer, layer_in, by simp [Layer.ops]⟩
  · obtain ⟨layer_in, rfl⟩ := Catalog.mem_group.1 layer_mem
    refine ⟨layer, layer_in, ?_⟩
    split <;> simp [Layer.ops]

end Synthesis

end LayerComposition
