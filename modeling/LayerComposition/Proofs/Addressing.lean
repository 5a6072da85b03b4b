import LayerComposition.Proofs.CleanReport
import LayerComposition.Proofs.OpText

/-! # Addressing

A report tells of the layers that no expression can name. It looks for characters with a meaning in
expressions, and it is exact: a layer goes unreported if and only if each of the ops on the layer
and its group, written down alone, is read as that op.
-/

namespace LayerComposition

namespace Expression

/-- Where there are no compositions, an expression is the ops among its items. -/
theorem read_without_compositions (text : String) :
    read (.ofDefinitions []) text = ⟨∅, (Text.items text).filterMap Op.read?⟩ := by
  have classified (token : String) : (Registry.ofDefinitions []).classify token =
      (Op.read? token).elim .unknown .op :=
    Registry.classify_of_not_contains rfl
  have no_names : compositionNames
      ((Text.items text).map (Registry.ofDefinitions []).classify) = [] := by
    rw [compositionNames, List.filterMap_map, List.filterMap_eq_nil_iff]
    intro item _
    cases reads : Op.read? item <;> simp [classified, reads]
  have ops_eq : opsAmong ((Text.items text).map (Registry.ofDefinitions []).classify) =
      (Text.items text).filterMap Op.read? := by
    rw [opsAmong, List.filterMap_map]
    refine List.filterMap_congr fun item _ => ?_
    cases reads : Op.read? item <;> simp [classified, reads]
  simp only [read, no_names, ops_eq]
  rfl

/-- The text of an op is read as that op alone if and only if the op is spelled out and its text can
    stand between commas. -/
theorem read_text_eq_iff {op : Op} :
    read (.ofDefinitions []) op.text = ⟨∅, [op]⟩ ↔ op.Spelled ∧ Text.IsField ',' op.text := by
  rw [read_without_compositions, Expression.mk.injEq]
  constructor
  · rintro ⟨_, ops_eq⟩
    have listed : op ∈ (Text.items op.text).filterMap Op.read? := by simp [ops_eq]
    obtain ⟨item, item_mem, found⟩ := List.mem_filterMap.1 listed
    obtain ⟨text_eq, spelled⟩ := Op.read?_eq_some_iff.1 found
    exact ⟨spelled, text_eq ▸ Text.isField_of_mem_items item_mem⟩
  · rintro ⟨spelled, field⟩
    simp [Text.items_of_isField field, spelled.read?_text]

end Expression

namespace Layer

variable {layer : Layer}

/-- The ops on a layer that was read can be written if and only if no character of its group and
    its name has a meaning in expressions. -/
theorem isAddressable_iff_writes_ops (group : Text.IsField ':' layer.group)
    (name : Text.IsField ':' layer.name) :
    layer.isAddressable = true ↔ ∀ op ∈ layer.ops, op.Spelled ∧ Text.IsField ',' op.text := by
  rw [isAddressable_iff, Op.forall_isOperator_eq_false_iff]
  constructor
  · rintro ⟨free, group_plain, name_plain⟩ op mem
    have group_eq := group_of_mem_ops mem
    constructor
    · refine ⟨group_eq ▸ group.filled, group_eq ▸ free, name_of_mem_ops_of_clears mem,
        fun disables => ?_⟩
      rw [name_of_mem_ops_of_disables mem disables]
      exact name.filled
    · refine Op.isField_text (group_eq ▸ group.of_not_mem group_plain) ?_
      rcases ending_of_mem_ops mem with ending_eq | ending_eq
      · exact .inl ending_eq
      · exact .inr (ending_eq ▸ name.of_not_mem name_plain)
  · intro written
    -- One op that names the layer is enough: group and name stand in its text.
    obtain ⟨spelled, field⟩ := written (.enable layer.group layer.name) (by simp [ops])
    have plain : ',' ∉ layer.group.toList ∧ ',' ∉ layer.name.toList := by
      simpa [Op.text] using field.not_mem
    exact ⟨spelled.free, plain.1, plain.2⟩

end Layer

namespace Character

/-- The check of addresses tells of a layer. -/
def Flags (character : Character) (layer : Layer) : Prop :=
  (Finding.unaddressableLayer layer).diagnostic ∈ character.addressFindings.map Finding.diagnostic

/-- What is told of a layer is not what is told of any other layer of the catalog. -/
theorem flags_iff {character : Character} {layer : Layer}
    (mem : layer ∈ character.catalog.layers) :
    character.Flags layer ↔ layer.isAddressable = false := by
  unfold Flags
  simp only [addressFindings, List.mem_map, List.mem_filter, Bool.not_eq_true']
  constructor
  · rintro ⟨_, ⟨other, ⟨other_mem, hidden⟩, rfl⟩, same⟩
    have message_eq : "Layer '" ++ other.id ++ "' cannot be written in an expression" =
        "Layer '" ++ layer.id ++ "' cannot be written in an expression" :=
      congrArg Diagnostic.message same
    rw [String.append_left_inj, String.append_right_inj] at message_eq
    rwa [← Catalog.eq_of_id_eq other_mem mem message_eq]
  · intro hidden
    exact ⟨_, ⟨layer, ⟨mem, hidden⟩, rfl⟩, rfl⟩

/-- The check of addresses is exact: it tells of no layer all of whose ops are read from their text
    as they are, and of every other one. -/
theorem not_flags_iff_reads_ops {sources : CharacterSources} {layer : Layer}
    (mem : layer ∈ (ofSources sources).catalog.layers) :
    ¬(ofSources sources).Flags layer ↔
      ∀ op ∈ layer.ops, Expression.read (.ofDefinitions []) op.text = ⟨∅, [op]⟩ := by
  obtain ⟨group, name⟩ := Catalog.isField_of_mem_read mem
  simp only [flags_iff mem, Bool.not_eq_false, Expression.read_text_eq_iff]
  exact Layer.isAddressable_iff_writes_ops group name

/-- Bands and hats. -/
def hatsSources : CharacterSources where
  name := "Hats"
  catalog := "Hair-Band:Red:1\nHat:Cap,Brim:2\nEyes:Half-Open:3\nMouth:Grin>Wide:4\n"
  compositions := ""
  baseline := ""

/-- The layers of `hatsSources`. -/
def hats : Catalog :=
  ⟨[⟨"Hair-Band", "Red", 1⟩, ⟨"Hat", "Cap,Brim", 2⟩, ⟨"Eyes", "Half-Open", 3⟩,
    ⟨"Mouth", "Grin>Wide", 4⟩], [], by decide, by decide⟩

theorem catalog_hatsSources : (ofSources hatsSources).catalog = hats :=
  Catalog.ofLayers_eq (by decide) rfl

/-- An operator does no harm in a name, but it does in a group, and a comma in either. -/
theorem not_flags_iff_reads_ops_hats :
    Expression.read (.ofDefinitions []) "Mouth>Grin>Wide" =
        ⟨∅, [.exclusive "Mouth" "Grin>Wide"]⟩ ∧
      (ofSources hatsSources).Flags ⟨"Hair-Band", "Red", 1⟩ ∧
      (ofSources hatsSources).Flags ⟨"Hat", "Cap,Brim", 2⟩ := by
  have held (layer : Layer) (mem : layer ∈ hats.layers) :
      layer ∈ (ofSources hatsSources).catalog.layers := by
    rwa [catalog_hatsSources]
  have flagged (layer : Layer) (mem : layer ∈ hats.layers) (unread : ¬∀ op ∈ layer.ops,
      Expression.read (.ofDefinitions []) op.text = ⟨∅, [op]⟩) :
      (ofSources hatsSources).Flags layer := by
    by_contra unflagged
    exact unread ((not_flags_iff_reads_ops (held layer mem)).1 unflagged)
  have unflagged : ¬(ofSources hatsSources).Flags ⟨"Mouth", "Grin>Wide", 4⟩ := by
    rw [flags_iff (held _ (by decide))]
    decide
  refine ⟨?_, flagged _ (by decide) (by decide), flagged _ (by decide) (by decide)⟩
  exact (not_flags_iff_reads_ops (held _ (by decide))).1 unflagged (.exclusive "Mouth" "Grin>Wide")
    (by decide)

end Character

end LayerComposition
