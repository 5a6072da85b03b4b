import LayerComposition.Proofs.RoundTrip

/-! # Canonical form

States have one expression exactly if they switch on the same layers. What is on follows from the
ops of a difference, an op from its text, and the texts from the expression, taken apart at its
commas. For that, no group may hold an operator or a comma, and names have to be there and be free
of commas; nothing is asked of the compositions.
-/

namespace LayerComposition

namespace Op

/-- What lets an op be told from its text: its group ends at the operator, it has no name if it
    clears the group, and it does not switch off a layer without a name, which would look like
    that. -/
structure Legible (op : Op) : Prop where
  free : ∀ c ∈ op.group.toList, isOperator c = false
  cleared : op.kind = .clearGroup → op.name = ""
  named : op.kind = .disable → op.name ≠ ""

/-- Legible ops of one text are one op. -/
theorem Legible.eq_of_text_eq {op other : Op} (legible : op.Legible)
    (other_legible : other.Legible) (same : op.text = other.text) : op = other := by
  obtain ⟨group_eq, rest_eq⟩ := span_text legible.free
  obtain ⟨other_group_eq, other_rest_eq⟩ := span_text other_legible.free
  rw [same] at group_eq rest_eq
  have same_group : op.group = other.group :=
    String.toList_inj.1 (group_eq.symm.trans other_group_eq)
  obtain ⟨same_operator, same_rest⟩ := List.cons.inj (rest_eq.symm.trans other_rest_eq)
  have same_name : op.name = other.name := by
    rw [← ending_eq_name legible.cleared, ← ending_eq_name other_legible.cleared]
    exact String.toList_inj.1 same_rest
  -- The operator tells the kind, but for a minus, where the name does.
  cases op with
  | enable group name => cases other <;> simp_all [Op.group, Op.name, operator]
  | exclusive group name => cases other <;> simp_all [Op.group, Op.name, operator]
  | disable group name =>
      cases other with
      | enable | exclusive => simp [operator] at same_operator
      | disable => simp_all [Op.group, Op.name]
      | clearGroup => exact absurd (same_name.trans (other_legible.cleared rfl)) (legible.named rfl)
  | clearGroup group =>
      cases other with
      | enable | exclusive => simp [operator] at same_operator
      | disable =>
          exact absurd (same_name.symm.trans (legible.cleared rfl)) (other_legible.named rfl)
      | clearGroup => simp_all [Op.group, Op.name]

theorem eq_of_map_text_eq {ops others : List Op} (legible : ∀ op ∈ ops, op.Legible)
    (others_legible : ∀ op ∈ others, op.Legible) (same : ops.map text = others.map text) :
    ops = others := by
  induction ops generalizing others with
  | nil => exact (List.map_eq_nil_iff.1 same.symm).symm
  | cons op rest ih =>
      cases others with
      | nil => contradiction
      | cons other others =>
          obtain ⟨first_eq, rest_eq⟩ := List.cons.inj same
          obtain ⟨op_legible, rest_legible⟩ := List.forall_mem_cons.1 legible
          obtain ⟨other_legible, others_legible⟩ := List.forall_mem_cons.1 others_legible
          rw [op_legible.eq_of_text_eq other_legible first_eq,
            ih rest_legible others_legible rest_eq]

theorem text_ne_defaultText (op : Op) : op.text ≠ Expression.defaultText := by
  intro same
  have operator_mem : op.operator ∈ op.text.toList := by simp [toList_text]
  have plain : Expression.defaultText.toList.any isOperator = false := by decide
  rw [same] at operator_mem
  exact List.any_eq_false.1 plain op.operator operator_mem (isOperator_operator op)

end Op

namespace Synthesis

section Pieces

variable {active : ActiveSet} {ops others : List Op}

theorem splitOn_intercalate_text (plain : ∀ op ∈ ops, ',' ∉ op.text.toList) (some_op : ops ≠ []) :
    (",".intercalate (ops.map Op.text)).toList.splitOn ',' =
      ops.map fun op => op.text.toList := by
  have no_comma : ∀ piece ∈ ops.map fun op => op.text.toList, ',' ∉ piece := by
    simpa using plain
  rw [String.toList_intercalate, List.map_map]
  exact List.splitOn_intercalate ',' no_comma (by simpa using some_op)

/-- Behind active names, taking an expression apart at its commas gives the pieces of the names,
    then the texts of the ops. -/
theorem splitOn_expressionText_of_names (named : active.names ≠ [])
    (plain : ∀ op ∈ ops, ',' ∉ op.text.toList) :
    (expressionText active ops).toList.splitOn ',' =
      (",".intercalate active.names).toList.splitOn ',' ++ ops.map fun op => op.text.toList := by
  have joined : expressionText active ops = ",".intercalate (active.names ++ ops.map Op.text) := by
    unfold expressionText
    split <;> simp_all
  rw [joined]
  by_cases no_op : ops = []
  · simp [no_op]
  · have some_text : ops.map Op.text ≠ [] := by simpa using no_op
    rw [String.intercalate_append_of_ne_nil named some_text, String.toList_append,
      String.toList_append, List.append_assoc, ← splitOn_intercalate_text plain no_op]
    exact List.splitOn_append_cons_self _ _

/-- Without active names, it gives the texts of the ops if there are any. -/
theorem splitOn_expressionText_of_no_names (unnamed : active.names = [])
    (plain : ∀ op ∈ ops, ',' ∉ op.text.toList) :
    (expressionText active ops).toList.splitOn ',' =
      if ops = [] then [Expression.defaultText.toList] else ops.map fun op => op.text.toList := by
  unfold expressionText
  rw [unnamed, List.nil_append]
  by_cases no_op : ops = []
  · rw [no_op, if_pos rfl]
    decide
  · rw [if_neg no_op, ← splitOn_intercalate_text plain no_op]
    split <;> simp_all

/-- An expression tells the texts of the ops behind its active names. -/
theorem map_text_eq_of_expressionText_eq (plain : ∀ op ∈ ops, ',' ∉ op.text.toList)
    (others_plain : ∀ op ∈ others, ',' ∉ op.text.toList)
    (same : expressionText active ops = expressionText active others) :
    ops.map Op.text = others.map Op.text := by
  have same_pieces := congrArg (fun text : String => text.toList.splitOn ',') same
  have same_texts : (ops.map fun op => op.text.toList) = others.map fun op => op.text.toList := by
    by_cases unnamed : active.names = []
    · rw [splitOn_expressionText_of_no_names unnamed plain,
        splitOn_expressionText_of_no_names unnamed others_plain] at same_pieces
      -- The text of an empty expression is the text of no op.
      have not_default (ops : List Op) :
          [Expression.defaultText.toList] ≠ ops.map fun op => op.text.toList := by
        intro eq
        have mem : Expression.defaultText.toList ∈ ops.map fun op => op.text.toList := by
          simp [← eq]
        obtain ⟨op, _, text_eq⟩ := List.mem_map.1 mem
        exact op.text_ne_defaultText (String.toList_inj.1 text_eq)
      split at same_pieces <;> split at same_pieces
      · simp_all
      · exact absurd same_pieces (not_default others)
      · exact absurd same_pieces.symm (not_default ops)
      · exact same_pieces
    · rw [splitOn_expressionText_of_names unnamed plain,
        splitOn_expressionText_of_names unnamed others_plain] at same_pieces
      exact List.append_cancel_left same_pieces
  have texts_eq (ops : List Op) :
      ops.map Op.text = (ops.map fun op => op.text.toList).map String.ofList := by
    simp [List.map_map]
  rw [texts_eq ops, texts_eq others, same_texts]

end Pieces

variable {catalog : Catalog} {preset : Activation}

/-- The ops of a difference tell which layers are on. -/
theorem opsBetween_eq_iff {first second : Activation} :
    opsBetween catalog preset first = opsBetween catalog preset second ↔
      first.sameLayers second catalog = true := by
  constructor
  · intro same
    have first_reached := sameLayers_applyAll_opsBetween catalog preset first
    have second_reached := sameLayers_applyAll_opsBetween catalog preset second
    rw [← same] at second_reached
    rw [Activation.sameLayers_iff] at first_reached second_reached ⊢
    intro layer mem
    rw [← first_reached layer mem, second_reached layer mem]
  · exact opsBetween_congr

/-- Where all groups and names can be told apart in writing, so can the ops of a difference. -/
theorem legible_of_mem_opsBetween
    (apart : ∀ layer ∈ catalog.layers, layer.isAddressable = true ∧ layer.name ≠ "")
    {state : Activation} {op : Op} (mem : op ∈ opsBetween catalog preset state) :
    op.Legible ∧ ',' ∉ op.text.toList := by
  obtain ⟨layer, layer_mem, on_layer⟩ := exists_layer_of_mem_opsBetween mem
  have group_eq := Layer.group_of_mem_ops on_layer
  obtain ⟨group_free, group_plain, name_plain⟩ :=
    Layer.isAddressable_iff.1 (apart layer layer_mem).1
  constructor
  · refine ⟨group_eq ▸ group_free, Layer.name_of_mem_ops_of_clears on_layer, fun disables => ?_⟩
    rw [Layer.name_of_mem_ops_of_disables on_layer disables]
    exact (apart layer layer_mem).2
  · refine Op.comma_notMem_text (group_eq ▸ group_plain) ?_
    rcases Layer.ending_of_mem_ops on_layer with ending_eq | ending_eq
    · simp [ending_eq]
    · exact ending_eq ▸ name_plain

end Synthesis

namespace Definitions

/-- Synthesis comes to a text for every state, and to one text for two states exactly if they
    switch on the same layers. What a state says of ids that are no layers, and whether it says
    off or nothing, is of no account. -/
theorem synthesize_eq_iff_sameLayers {definitions : Definitions} {active : ActiveSet}
    {preset : Activation}
    (apart : ∀ layer ∈ definitions.catalog.layers,
      layer.isAddressable = true ∧ layer.name ≠ "")
    (preset_eq : definitions.presetState active = .ok preset) (first second : Activation) :
    (∃ text, definitions.synthesize first active = .ok text) ∧
      (definitions.synthesize first active = definitions.synthesize second active ↔
        first.sameLayers second definitions.catalog = true) := by
  have written (state : Activation) : definitions.synthesize state active =
      .ok (Synthesis.expressionText active
        (Synthesis.opsBetween definitions.catalog preset state)) :=
    synthesize_eq_ok_iff.2 ⟨_, diff_eq_ok_iff.2 ⟨preset, preset_eq, rfl⟩, rfl⟩
  have legible (state : Activation) :
      ∀ op ∈ Synthesis.opsBetween definitions.catalog preset state, op.Legible :=
    fun _ mem => (Synthesis.legible_of_mem_opsBetween apart mem).1
  have plain (state : Activation) :
      ∀ op ∈ Synthesis.opsBetween definitions.catalog preset state, ',' ∉ op.text.toList :=
    fun _ mem => (Synthesis.legible_of_mem_opsBetween apart mem).2
  refine ⟨⟨_, written first⟩, ?_⟩
  constructor
  · intro same
    rw [written, written] at same
    have same_texts := Synthesis.map_text_eq_of_expressionText_eq (plain first) (plain second)
      (Except.ok.inj same)
    exact Synthesis.opsBetween_eq_iff.1
      (Op.eq_of_map_text_eq (legible first) (legible second) same_texts)
  · exact synthesize_congr

/-- A nose that is no layer does not show in the expression, and a cap that is off does. -/
theorem synthesize_eq_iff_sameLayers_portrait :
    portrait.synthesize Character.awake (ActiveSet.ofList ["Sleepy"]) =
        portrait.synthesize (Character.awake.set "Nose/Red" true) (ActiveSet.ofList ["Sleepy"]) ∧
      portrait.synthesize Character.awake (ActiveSet.ofList ["Sleepy"]) ≠
        portrait.synthesize (Character.awake.set "Hat/Cap" false) (ActiveSet.ofList ["Sleepy"]) := by
  have apart : ∀ layer ∈ portrait.catalog.layers,
      layer.isAddressable = true ∧ layer.name ≠ "" := by decide
  have agree := synthesize_eq_iff_sameLayers apart presetState_portrait Character.awake
  exact ⟨(agree _).2.2 (by decide), fun same => absurd ((agree _).2.1 same) (by decide)⟩

end Definitions

end LayerComposition
