import LayerComposition.Proofs.Occurrences
import LayerComposition.Proofs.RoundTrip
import LayerComposition.Rendering

/-! # Presets as text

Without an expression, the presets of a character are made active as they are. Written as an expression,
they are split, trimmed and looked up first, and those that no composition bears are lost. Both ways
switch on the same layers: a preset that was read from a baseline stands between commas as it is and
is no op, and a name without a composition leaves no trace.
-/

namespace LayerComposition

/-- The text that names the presets of a baseline. -/
def Baseline.presetText (baseline : Baseline) : String :=
  ",".intercalate baseline.presetNames

theorem Registry.known_ofList (registry : Registry) (names : List String) :
    registry.known (ActiveSet.ofList names) = ActiveSet.ofList (names.filter registry.contains) :=
  ActiveSet.ext (distinct_filter registry.contains names).symm

/-- Names that are no ops are read as the compositions among them. -/
theorem Expression.read_intercalate {registry : Registry} {names : List String}
    (inert : ∀ name ∈ names, Text.IsField ',' name ∧ Op.read? name = none) :
    read registry (",".intercalate names) = ⟨registry.known (ActiveSet.ofList names), []⟩ := by
  have lost (name : String) (mem : name ∈ names) :
      registry.contains name = true ∨ Op.read? name = none := .inr (inert name mem).2
  obtain ⟨names_eq, no_ops⟩ := read_parts_of_names lost
  rw [read, Text.items_intercalate fun name mem => (inert name mem).1, names_eq, no_ops,
    Registry.known_ofList]

/-- From a state to itself there is nothing to do. -/
theorem Synthesis.opsBetween_self (catalog : Catalog) (state : Activation) :
    opsBetween catalog state state = [] := by
  have unchanged : catalog.layers.filter (differs state state) = [] :=
    List.filter_eq_nil_iff.2 fun layer _ => by simp [differs]
  simp [opsBetween, changedGroups, unchanged, sortByText, distinctOn, distinctFrom]

namespace Character

variable {character : Character} {active : ActiveSet} {text? : Option String}

/-- The document that tells which layers a choice of compositions switches on. -/
def document (character : Character) (active : ActiveSet) (layers : List Layer) : Json :=
  .object
    [("character", .string character.name),
      ("expression", .string (Synthesis.expressionText active [])),
      ("compositions", active.toJson), ("layers", .array (layers.map Layer.toJson))]

/-- What is written of layers that a choice of compositions switches on. -/
def written (character : Character) (active : ActiveSet) (json : Bool) (layers : List Layer) :
    String :=
  if json then Json.pretty (character.document active layers)
  else "\n".intercalate (layers.map Layer.id)

theorem render_eq_of_chosen (chosen : character.chosen text? = ⟨active, []⟩) (json : Bool) :
    character.render text? json = (character.presetState active).map fun state =>
      character.written active json (state.activeLayers character.catalog) := by
  have unpinned : character.resolve active (Expression.pins ⟨active, []⟩ character.catalog) =
      character.presetState active := by
    rw [Definitions.resolve]
    cases character.presetState active <;> rfl
  rw [render, chosen]
  simp only [unpinned]
  cases preset : character.presetState active with
  | error cycle => rfl
  | ok state =>
      have canonical : character.synthesize state active =
          .ok (Synthesis.expressionText active []) := by
        refine Definitions.synthesize_eq_ok_iff.2 ⟨[], ?_, rfl⟩
        exact Definitions.diff_eq_ok_iff.2
          ⟨state, preset, (Synthesis.opsBetween_self _ state).symm⟩
      cases json with
      | false => rfl
      | true =>
          change (character.synthesize state active).bind _ = _
          rw [canonical]
          rfl

/-- Line by line nothing is said of the compositions. -/
theorem written_lines (character : Character) (active other : ActiveSet) :
    character.written active false = character.written other false := by
  funext layers
  simp only [written, Bool.false_eq_true, if_false]

/-- The presets say the same whether they are left out or written: line by line the same layers, or a
    document with the same layers, which lists the presets in the one case and the compositions
    among them in the other. -/
structure RendersPresets (character : Character) : Prop where
  lines : character.render none false =
    character.render (some character.baseline.presetText) false
  outcome :
    (∃ cycle, ∀ json, character.render none json = .error cycle ∧
        character.render (some character.baseline.presetText) json = .error cycle) ∨
      ∃ layers, ∀ json,
        character.render none json = .ok (character.written character.presets json layers) ∧
          character.render (some character.baseline.presetText) json =
            .ok (character.written (character.registry.known character.presets) json layers)

/-- Once the text of the presets is read as the compositions among them, both ways say the same, since
    names that no composition bears switch nothing on. -/
theorem rendersPresets_of_chosen
    (read : character.chosen (some character.baseline.presetText) =
      ⟨character.registry.known character.presets, []⟩) : character.RendersPresets := by
  have unread : character.chosen none = ⟨character.presets, []⟩ := rfl
  have left_out (json : Bool) := render_eq_of_chosen unread json
  have given (json : Bool) := render_eq_of_chosen read json
  simp only [Definitions.presetState_known] at given
  constructor
  case lines =>
    rw [left_out, given, written_lines]
  case outcome =>
    cases preset : character.presetState character.presets with
    | error cycle =>
        refine .inl ⟨cycle, fun json => ?_⟩
        rw [left_out, given, preset]
        exact ⟨rfl, rfl⟩
    | ok state =>
        refine .inr ⟨state.activeLayers character.catalog, fun json => ?_⟩
        rw [left_out, given, preset]
        exact ⟨rfl, rfl⟩

/-- The layers that are rendered without an expression are those of the presets as a text, in the same
    order, and a preset in a cycle ends both with the same error. -/
theorem rendersPresets_ofSources (sources : CharacterSources) :
    (ofSources sources).RendersPresets := by
  apply rendersPresets_of_chosen
  -- A preset was read between commas and is no op, so it is classified as itself or not at all.
  exact Expression.read_intercalate fun _ mem => Baseline.isField_of_mem_presetNames_read mem

end Character

end LayerComposition
