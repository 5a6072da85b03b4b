import LayerComposition.Proofs.Difference
import LayerComposition.Proofs.Notation

/-! # Round trip

The expression that is written for a state reads back as what it was written from, and
describes the state again. Reading takes an expression apart at the commas, trims what it finds
and prefers a composition to an op; the conditions say that nothing in the expression is mistaken
for something else on the way.
-/

namespace LayerComposition

theorem Registry.classify_text {registry : Registry} {op : Op}
    (absent : registry.contains op.text = false) (found : Op.read? op.text = some op) :
    registry.classify op.text = .op op := by
  rw [classify_of_not_contains absent, found, Option.elim_some]

/-- What is left of active names where only those of compositions count. -/
def Registry.known (registry : Registry) (active : ActiveSet) : ActiveSet :=
  ⟨active.names.filter registry.contains, active.nodup.sublist List.filter_sublist⟩

@[simp]
theorem Registry.names_known (registry : Registry) (active : ActiveSet) :
    (registry.known active).names = active.names.filter registry.contains := rfl

theorem Registry.known_eq_self {registry : Registry} {active : ActiveSet}
    (contained : ∀ name ∈ active.names, registry.contains name = true) :
    registry.known active = active :=
  ActiveSet.ext (List.filter_eq_self.2 contained)

/-- What stands behind the operator of an op on a layer is the name of the layer, if anything. -/
theorem Layer.ending_of_mem_ops {layer : Layer} {op : Op} (mem : op ∈ layer.ops) :
    op.ending = "" ∨ op.ending = layer.name := by
  rcases cases_of_mem_ops mem with rfl | ⟨stays, name_eq⟩
  · exact .inl rfl
  · exact .inr ((Op.ending_eq_name fun clears => absurd clears stays).trans name_eq)

namespace Expression

/-- Names that are no ops are read as the compositions among them. -/
theorem read_parts_of_names {registry : Registry} {names : List String}
    (inert : ∀ name ∈ names, registry.contains name = true ∨ Op.read? name = none) :
    compositionNames (names.map registry.classify) = names.filter registry.contains ∧
      opsAmong (names.map registry.classify) = [] := by
  induction names with
  | nil => exact ⟨rfl, rfl⟩
  | cons name rest ih =>
      obtain ⟨names_eq, ops_eq⟩ := ih fun other mem => inert other (List.mem_cons_of_mem _ mem)
      cases contained : registry.contains name with
      | true =>
          obtain ⟨composition, classified⟩ := Registry.classify_of_contains contained
          obtain rfl := Registry.name_of_classify classified
          rw [List.map_cons, classified, List.filter_cons_of_pos contained]
          constructor
          · rw [compositionNames, List.filterMap_cons, ← compositionNames, names_eq]
          · rw [opsAmong, List.filterMap_cons, ← opsAmong, ops_eq]
      | false =>
          have no_op : Op.read? name = none := by
            rcases inert name List.mem_cons_self with present | no_op
            · rw [contained] at present
              contradiction
            · exact no_op
          have unknown : registry.classify name = .unknown := by
            rw [Registry.classify, Registry.get?_of_not_contains contained, no_op]
          rw [List.map_cons, unknown, List.filter_cons_of_neg (by simp [contained])]
          constructor
          · rw [compositionNames, List.filterMap_cons, ← compositionNames, names_eq]
          · rw [opsAmong, List.filterMap_cons, ← opsAmong, ops_eq]

/-- The texts of ops are read as these ops. -/
theorem read_parts_of_texts {registry : Registry} {ops : List Op}
    (classified : ∀ op ∈ ops, registry.classify op.text = .op op) :
    compositionNames ((ops.map Op.text).map registry.classify) = [] ∧
      opsAmong ((ops.map Op.text).map registry.classify) = ops := by
  have parts_eq : (ops.map Op.text).map registry.classify = ops.map .op := by
    rw [List.map_map]
    exact List.map_congr_left classified
  rw [parts_eq]
  constructor
  · simp [compositionNames, List.filterMap_map]
  · simp [opsAmong, List.filterMap_map]

theorem items_defaultText : Text.items defaultText = [defaultText] := by
  decide

/-- An expression of names and op texts is read as the compositions among the names and as these
    ops. The text of an empty one is an item of its own, which stands for nothing unless there is
    such a composition. -/
theorem read_expressionText_known {registry : Registry} {active : ActiveSet} {ops : List Op}
    (names : ∀ name ∈ active.names,
      (registry.contains name = true ∨ Op.read? name = none) ∧ Text.IsField ',' name)
    (texts : ∀ op ∈ ops, registry.classify op.text = .op op ∧ Text.IsField ',' op.text)
    (silent : active.names = [] → ops = [] → registry.contains defaultText = false) :
    read registry (Synthesis.expressionText active ops) = ⟨registry.known active, ops⟩ := by
  unfold Synthesis.expressionText
  split
  · rename_i nothing
    obtain ⟨no_names, no_texts⟩ := List.append_eq_nil_iff.1 nothing
    have no_ops : ops = [] := List.map_eq_nil_iff.1 no_texts
    -- What is written then is one item that stands for nothing.
    have unknown : registry.classify defaultText = .unknown := by
      rw [Registry.classify, Registry.get?_of_not_contains (silent no_names no_ops)]
      rfl
    have no_active : registry.known active = ActiveSet.ofList [] := by
      refine ActiveSet.ext ?_
      rw [Registry.names_known, no_names]
      rfl
    rw [read, items_defaultText, List.map_singleton, unknown, no_active, no_ops]
    rfl
  · have fields : ∀ item ∈ active.names ++ ops.map Op.text, Text.IsField ',' item := by
      intro item mem
      rcases List.mem_append.1 mem with name_mem | text_mem
      · exact (names item name_mem).2
      · obtain ⟨op, op_mem, rfl⟩ := List.mem_map.1 text_mem
        exact (texts op op_mem).2
    obtain ⟨names_eq, no_ops⟩ := read_parts_of_names fun name mem => (names name mem).1
    obtain ⟨no_names, ops_eq⟩ := read_parts_of_texts fun op mem => (texts op mem).1
    rw [read, Text.items_intercalate fields, List.map_append]
    have all_names : compositionNames (active.names.map registry.classify ++
        (ops.map Op.text).map registry.classify) = (registry.known active).names := by
      rw [compositionNames, List.filterMap_append, ← compositionNames, ← compositionNames,
        names_eq, no_names, List.append_nil]
      rfl
    have all_ops : opsAmong (active.names.map registry.classify ++
        (ops.map Op.text).map registry.classify) = ops := by
      rw [opsAmong, List.filterMap_append, ← opsAmong, ← opsAmong, no_ops, ops_eq, List.nil_append]
    have same_active : ActiveSet.ofList (registry.known active).names = registry.known active :=
      ActiveSet.ext (distinct_eq_self (registry.known active).nodup)
    simp only [all_names, all_ops, same_active]

/-- An expression of compositions and op texts is read as these compositions and ops. -/
theorem read_expressionText {registry : Registry} {active : ActiveSet} {ops : List Op}
    (names : ∀ name ∈ active.names, registry.contains name = true ∧ Text.IsField ',' name)
    (texts : ∀ op ∈ ops, registry.classify op.text = .op op ∧ Text.IsField ',' op.text)
    (silent : active.names = [] → ops = [] → registry.contains defaultText = false) :
    read registry (Synthesis.expressionText active ops) = ⟨active, ops⟩ := by
  have all_known : registry.known active = active :=
    Registry.known_eq_self fun name mem => (names name mem).1
  rw [read_expressionText_known (fun name mem => ⟨.inl (names name mem).1, (names name mem).2⟩)
    texts silent, all_known]

/-- An expression pins what its ops write last. -/
theorem get?_pins (expression : Expression) (catalog : Catalog) (id : String) :
    (expression.pins catalog).get? id =
      lastWrite? (expression.ops.flatMap (Op.writes catalog)) id := by
  have pinned : (expression.pins catalog).get? id =
      (Op.applyAll catalog ∅ expression.ops).get? id := rfl
  rw [pinned, Op.applyAll_eq_write, Activation.get?_write_eq, Activation.get?_empty,
    Option.or_none]

/-- Pinning what the ops of an expression write comes to applying them. -/
theorem write_pins (expression : Expression) (catalog : Catalog) (activation : Activation) :
    activation.write (expression.pins catalog).entries =
      Op.applyAll catalog activation expression.ops := by
  apply Activation.ext_get?
  intro id
  rw [Pins.get?_write, get?_pins, Op.applyAll_eq_write, Activation.get?_write_eq]

end Expression

namespace Definitions

variable {definitions : Definitions} {state : Activation} {active : ActiveSet}

theorem diff_eq_ok_iff {ops : List Op} :
    definitions.diff state active = .ok ops ↔
      ∃ preset, definitions.presetState active = .ok preset ∧
        ops = Synthesis.opsBetween definitions.catalog preset state :=
  map_eq_ok_iff

theorem synthesize_eq_ok_iff {text : String} :
    definitions.synthesize state active = .ok text ↔
      ∃ ops, definitions.diff state active = .ok ops ∧
        text = Synthesis.expressionText active ops :=
  map_eq_ok_iff

/-- States with the same layers have one expression. -/
theorem synthesize_congr {other : Activation}
    (same : state.sameLayers other definitions.catalog = true) :
    definitions.synthesize state active = definitions.synthesize other active := by
  have same_ops (preset : Activation) :
      Synthesis.opsBetween definitions.catalog preset state =
        Synthesis.opsBetween definitions.catalog preset other :=
    Synthesis.opsBetween_congr same
  rw [synthesize, synthesize, diff, diff]
  simp only [same_ops]

theorem canonicalize_eq_of_resolve {text : String} {result : Activation}
    (resolved : definitions.resolveExpression text = .ok result) :
    definitions.canonicalize text =
      definitions.synthesize result (definitions.readExpression text).active := by
  have unfolded : definitions.canonicalize text =
      (definitions.resolveExpression text).bind fun state =>
        definitions.synthesize state (definitions.readExpression text).active := rfl
  rw [unfolded, resolved]
  rfl

theorem canonicalize_eq_ok_iff {text canonical : String} :
    definitions.canonicalize text = .ok canonical ↔
      ∃ result, definitions.resolveExpression text = .ok result ∧
        definitions.synthesize result (definitions.readExpression text).active = .ok canonical :=
  bind_eq_ok_iff

/-- Names without a composition leave no trace in a state. -/
theorem presetState_known (definitions : Definitions) (active : ActiveSet) :
    definitions.presetState (definitions.registry.known active) =
      definitions.presetState active := by
  have skip {name : String} (absent : definitions.registry.contains name = false)
      (activation : Activation) : definitions.expandInto activation name = .ok activation := by
    rw [expandInto, Registry.expand_of_get?_eq_none (Registry.get?_of_not_contains absent)]
  rw [presetState, presetState, Registry.names_known]
  generalize definitions.baseState = activation
  induction active.names generalizing activation with
  | nil => rfl
  | cons name rest ih =>
      cases contained : definitions.registry.contains name with
      | false =>
          rw [List.filter_cons_of_neg (by simp [contained]), List.foldlM_cons, skip contained, ih]
          rfl
      | true =>
          rw [List.filter_cons_of_pos contained, List.foldlM_cons, List.foldlM_cons]
          simp only [ih]

/-- Applying the ops of an expression on top of its compositions is what resolves it. -/
theorem resolveExpression_eq_of_read {text : String} {ops : List Op} {preset : Activation}
    (read : definitions.readExpression text = ⟨active, ops⟩)
    (preset_eq : definitions.presetState active = .ok preset) :
    definitions.resolveExpression text = .ok (Op.applyAll definitions.catalog preset ops) := by
  rw [resolveExpression, read, resolve, preset_eq]
  exact congrArg Except.ok (Expression.write_pins ⟨active, ops⟩ definitions.catalog preset)

/-- An expression that names compositions and the ops from what they give to a state describes that
    state, and its canonical form is written with these compositions and ops. -/
theorem reach_of_read {text : String} {preset : Activation}
    (read : definitions.readExpression text =
      ⟨active, Synthesis.opsBetween definitions.catalog preset state⟩)
    (preset_eq : definitions.presetState active = .ok preset) :
    (∃ result, definitions.resolveExpression text = .ok result ∧
        result.sameLayers state definitions.catalog = true) ∧
      definitions.canonicalize text = .ok (Synthesis.expressionText active
        (Synthesis.opsBetween definitions.catalog preset state)) := by
  have resolved := resolveExpression_eq_of_read read preset_eq
  have reached := Synthesis.sameLayers_applyAll_opsBetween definitions.catalog preset state
  refine ⟨⟨_, resolved, reached⟩, ?_⟩
  rw [canonicalize_eq_of_resolve resolved, read, synthesize_congr reached]
  exact synthesize_eq_ok_iff.2 ⟨_, diff_eq_ok_iff.2 ⟨preset, preset_eq, rfl⟩, rfl⟩

end Definitions

namespace Character

/-- What lets an expression of a state be read back: it can name every layer and every active
    composition, and no composition is named like an op in it, or like the empty expression if
    that is what it is. -/
structure Readable (character : Character) (state : Activation) (active : ActiveSet) : Prop where
  addressable : character.addressFindings = []
  named : ∀ name ∈ active.names, character.registry.contains name = true ∧ ',' ∉ name.toList
  unshadowed : ∀ ops, character.diff state active = .ok ops →
    ∀ op ∈ ops, character.registry.contains op.text = false
  silent : active.names = [] → character.diff state active = .ok [] →
    character.registry.contains Expression.defaultText = false

theorem isAddressable_of_mem {character : Character} (addressable : character.addressFindings = [])
    {layer : Layer} (mem : layer ∈ character.catalog.layers) : layer.isAddressable = true := by
  have none_flagged := List.filter_eq_nil_iff.1 (List.map_eq_nil_iff.1 addressable) layer mem
  simpa using none_flagged

/-- Every op of a difference is read back from its text, between commas. -/
theorem read?_text_of_diff {sources : CharacterSources} {state : Activation} {active : ActiveSet}
    {ops : List Op} (addressable : (ofSources sources).addressFindings = [])
    (diff_eq : (ofSources sources).diff state active = .ok ops) {op : Op} (mem : op ∈ ops) :
    Op.read? op.text = some op ∧ Text.IsField ',' op.text := by
  obtain ⟨preset, _, rfl⟩ := Definitions.diff_eq_ok_iff.1 diff_eq
  obtain ⟨layer, layer_mem, on_layer⟩ := Synthesis.exists_layer_of_mem_opsBetween mem
  have group_eq := Layer.group_of_mem_ops on_layer
  obtain ⟨group_field, name_field⟩ := Catalog.isField_of_mem_read layer_mem
  obtain ⟨group_free, group_plain, name_plain⟩ :=
    Layer.isAddressable_iff.1 (isAddressable_of_mem addressable layer_mem)
  constructor
  · refine Op.read?_text (group_eq ▸ group_field.filled) (group_eq ▸ group_free)
      (Layer.name_of_mem_ops_of_clears on_layer) fun disables => ?_
    rw [Layer.name_of_mem_ops_of_disables on_layer disables]
    exact name_field.filled
  · refine Op.isField_text (group_eq ▸ group_field.of_not_mem group_plain) ?_
    rcases Layer.ending_of_mem_ops on_layer with ending_eq | ending_eq
    · exact .inl ending_eq
    · exact .inr (ending_eq ▸ name_field.of_not_mem name_plain)

/-- What lets an expression of a state describe that state again, though active names without a
    composition are lost on the way. -/
structure Recoverable (character : Character) (state : Activation) (active : ActiveSet) :
    Prop where
  addressable : character.addressFindings = []
  named : ∀ name ∈ active.names,
    (character.registry.contains name = true ∨ Op.read? name = none) ∧ Text.IsField ',' name
  unshadowed : ∀ ops, character.diff state active = .ok ops →
    ∀ op ∈ ops, character.registry.contains op.text = false
  silent : character.registry.contains Expression.defaultText = false

/-- The expression written for a state activates the compositions among the active names,
    describes the state again, and is left alone once it has been brought to its canonical form. -/
theorem recover_synthesize {sources : CharacterSources} {state : Activation} {active : ActiveSet}
    {text : String} (recoverable : (ofSources sources).Recoverable state active)
    (written : (ofSources sources).synthesize state active = .ok text) :
    ((ofSources sources).readExpression text).active =
        (ofSources sources).registry.known active ∧
      (∃ result, (ofSources sources).resolveExpression text = .ok result ∧
        result.sameLayers state (ofSources sources).catalog = true) ∧
      ∃ canonical, (ofSources sources).canonicalize text = .ok canonical ∧
        (ofSources sources).canonicalize canonical = .ok canonical := by
  obtain ⟨ops, diff_eq, rfl⟩ := Definitions.synthesize_eq_ok_iff.1 written
  obtain ⟨preset, preset_eq, ops_eq⟩ := Definitions.diff_eq_ok_iff.1 diff_eq
  have known_preset_eq : (ofSources sources).presetState
      ((ofSources sources).registry.known active) = .ok preset := by
    rw [Definitions.presetState_known]
    exact preset_eq
  have texts : ∀ op ∈ ops, (ofSources sources).registry.classify op.text = .op op ∧
      Text.IsField ',' op.text := by
    intro op mem
    obtain ⟨found, field⟩ := read?_text_of_diff recoverable.addressable diff_eq mem
    exact ⟨Registry.classify_text (recoverable.unshadowed ops diff_eq op mem) found, field⟩
  have known_names : ∀ name ∈ ((ofSources sources).registry.known active).names,
      (ofSources sources).registry.contains name = true ∧ Text.IsField ',' name := by
    intro name mem
    obtain ⟨active_mem, contained⟩ := List.mem_filter.1 mem
    exact ⟨contained, (recoverable.named name active_mem).2⟩
  -- With the unknown names or without them, the expression reads back as the same.
  have read : (ofSources sources).readExpression (Synthesis.expressionText active ops) =
      ⟨(ofSources sources).registry.known active, ops⟩ :=
    Expression.read_expressionText_known recoverable.named texts fun _ _ => recoverable.silent
  have read_known : (ofSources sources).readExpression
      (Synthesis.expressionText ((ofSources sources).registry.known active) ops) =
        ⟨(ofSources sources).registry.known active, ops⟩ :=
    Expression.read_expressionText known_names texts fun _ _ => recoverable.silent
  obtain rfl := ops_eq
  obtain ⟨reached, canonical⟩ := Definitions.reach_of_read read known_preset_eq
  obtain ⟨_, again⟩ := Definitions.reach_of_read read_known known_preset_eq
  exact ⟨congrArg Expression.active read, reached, _, canonical, again⟩

/-- The expression written for a state reads back as the active compositions and the ops that it
    was written from. It describes the state, on every layer of the catalog, and writing what it
    describes gives it again. -/
theorem readExpression_synthesize {sources : CharacterSources} {state : Activation}
    {active : ActiveSet} {text : String} (readable : (ofSources sources).Readable state active)
    (written : (ofSources sources).synthesize state active = .ok text) :
    ∃ ops, (ofSources sources).diff state active = .ok ops ∧
      (ofSources sources).readExpression text = ⟨active, ops⟩ ∧
      ∃ result, (ofSources sources).resolveExpression text = .ok result ∧
        result.sameLayers state (ofSources sources).catalog = true ∧
        (ofSources sources).synthesize result active = .ok text ∧
        (ofSources sources).canonicalize text = .ok text := by
  obtain ⟨ops, diff_eq, rfl⟩ := Definitions.synthesize_eq_ok_iff.1 written
  have read : (ofSources sources).readExpression (Synthesis.expressionText active ops) =
      ⟨active, ops⟩ := by
    refine Expression.read_expressionText ?_ ?_ ?_
    · intro name mem
      obtain ⟨contained, plain⟩ := readable.named name mem
      exact ⟨contained, (Registry.isField_of_contains_read contained).of_not_mem plain⟩
    · intro op mem
      obtain ⟨found, field⟩ := read?_text_of_diff readable.addressable diff_eq mem
      exact ⟨Registry.classify_text (readable.unshadowed ops diff_eq op mem) found, field⟩
    · rintro no_names rfl
      exact readable.silent no_names diff_eq
  obtain ⟨preset, preset_eq, ops_eq⟩ := Definitions.diff_eq_ok_iff.1 diff_eq
  have resolved := Definitions.resolveExpression_eq_of_read read preset_eq
  have reached : (Op.applyAll (ofSources sources).catalog preset ops).sameLayers state
      (ofSources sources).catalog = true := by
    rw [ops_eq]
    exact Synthesis.sameLayers_applyAll_opsBetween _ preset state
  have again : (ofSources sources).synthesize
      (Op.applyAll (ofSources sources).catalog preset ops) active =
        .ok (Synthesis.expressionText active ops) := by
    rw [Definitions.synthesize_congr reached]
    exact written
  refine ⟨ops, diff_eq, read, _, resolved, reached, again, ?_⟩
  rw [Definitions.canonicalize_eq_of_resolve resolved, read]
  exact again

/-- The source texts of `Definitions.portrait`. -/
def portraitSources : CharacterSources where
  name := "Portrait"
  catalog := "Eyes:Open:1\n Eyes : Shut : 1\nHat:Cap:2\n"
  compositions := "Blink:Eyes>Shut\nSleepy:Blink,Hat-,odd\n"
  baseline := ":Eyes>Open,Hat+Cap,Tail+Wag,odd"

theorem toDefinitions_portraitSources :
    (ofSources portraitSources).toDefinitions = Definitions.portrait := by
  have catalog : (Catalog.read portraitSources.catalog).1 = Definitions.portrait.catalog :=
    Catalog.ofLayers_eq (by decide) rfl
  have registry : (Registry.read portraitSources.compositions).1 =
      Definitions.portrait.registry := rfl
  have baseline : Baseline.read portraitSources.baseline = Definitions.portrait.baseline := by
    decide
  unfold ofSources
  simp only [catalog, registry, baseline]

/-- Both eyes at once, with a cap, and no wagging of a tail that is no layer. -/
def awake : Activation :=
  Activation.ofList
    [("Eyes/Open", true), ("Eyes/Shut", true), ("Hat/Cap", true), ("Tail/Wag", false)]

theorem diff_portraitSources :
    (ofSources portraitSources).diff awake (ActiveSet.ofList ["Sleepy"]) =
      .ok [.enable "Eyes" "Open", .exclusive "Hat" "Cap"] := by
  rw [toDefinitions_portraitSources]
  refine Definitions.diff_eq_ok_iff.2 ⟨_, Definitions.presetState_portrait, Eq.symm ?_⟩
  exact List.mergeSort_of_pairwise (by decide)

theorem readable_portraitSources :
    (ofSources portraitSources).Readable awake (ActiveSet.ofList ["Sleepy"]) where
  addressable := by
    rw [addressFindings, toDefinitions_portraitSources]
    decide
  named := by
    rw [toDefinitions_portraitSources]
    decide
  unshadowed := by
    intro ops diff_eq
    rw [diff_portraitSources] at diff_eq
    obtain rfl := Except.ok.inj diff_eq
    rw [toDefinitions_portraitSources]
    decide
  silent := by
    intro no_names
    contradiction

/-- The eye and the cap are written behind the composition, and the stale tail is left out. -/
theorem readExpression_synthesize_portrait :
    (ofSources portraitSources).readExpression "Sleepy,Eyes+Open,Hat>Cap" =
        ⟨ActiveSet.ofList ["Sleepy"], [.enable "Eyes" "Open", .exclusive "Hat" "Cap"]⟩ ∧
      (∃ result, (ofSources portraitSources).resolveExpression "Sleepy,Eyes+Open,Hat>Cap" =
          .ok result ∧
        result.sameLayers awake (ofSources portraitSources).catalog = true) ∧
      (ofSources portraitSources).canonicalize "Sleepy,Eyes+Open,Hat>Cap" =
        .ok "Sleepy,Eyes+Open,Hat>Cap" := by
  have written : (ofSources portraitSources).synthesize awake (ActiveSet.ofList ["Sleepy"]) =
      .ok "Sleepy,Eyes+Open,Hat>Cap" :=
    Definitions.synthesize_eq_ok_iff.2 ⟨_, diff_portraitSources, by decide⟩
  obtain ⟨ops, diff_eq, read, result, resolved, same, _, canonical⟩ :=
    readExpression_synthesize readable_portraitSources written
  obtain rfl := Except.ok.inj (diff_portraitSources.symm.trans diff_eq)
  exact ⟨read, ⟨result, resolved, same⟩, canonical⟩

end Character

end LayerComposition
