import LayerComposition.Proofs.History
import LayerComposition.Proofs.RoundTrip

/-! # Sharing

Applying the expression of a workbench to that workbench leaves what is seen as it was. On the way
there a workbench is reached by any run of editing steps. Its active names come from the registry
or from the presets of its character; presets that no composition bears are written, and passed
over when the expression is read.
-/

namespace LayerComposition

namespace Character

/-- A character that was read from texts and whose layers and compositions can all be named in an
    expression: no composition looks like an op, or like the expression without tokens. -/
structure Shareable (character : Character) : Prop where
  read : ∃ sources, character = ofSources sources
  addressable : character.addressFindings = []
  plain : ∀ name, character.registry.contains name = true →
    ',' ∉ name.toList ∧ Op.read? name = none ∧ name ≠ Expression.defaultText

end Character

namespace Workbench

/-- A step that switches to a shareable character, if it switches at all. -/
def Action.Allowed : Action → Prop
  | .switch character => character.Shareable
  | .toggle _ | .pin _ _ | .unpin _ | .reset | .applyExpression _ => True

/-- Active names are those of compositions or presets of the character at hand, which can be
    shared. -/
structure Settled (bench : Workbench) : Prop where
  shareable : bench.character.Shareable
  known : ∀ name ∈ bench.active.names, bench.character.registry.contains name = true ∨
    name ∈ bench.character.baseline.presetNames

theorem settled_start {character : Character} (shareable : character.Shareable) :
    (start character).Settled where
  shareable := shareable
  known := namesKnown_start character

theorem Settled.perform {bench : Workbench} (settled : bench.Settled) {action : Action}
    (allowed : action.Allowed) : (bench.perform action).Settled where
  shareable := by
    cases action with
    | switch character => exact allowed
    | toggle name => exact (character_toggle bench name).symm ▸ settled.shareable
    | pin | unpin | reset | applyExpression => exact settled.shareable
  known := NamesKnown.perform settled.known action

theorem Settled.performAll {bench : Workbench} (settled : bench.Settled) {actions : List Action}
    (allowed : ∀ action ∈ actions, action.Allowed) : (bench.performAll actions).Settled := by
  induction actions generalizing bench with
  | nil => exact settled
  | cons action rest ih =>
      obtain ⟨first_allowed, rest_allowed⟩ := List.forall_mem_cons.1 allowed
      exact ih (settled.perform first_allowed) rest_allowed

/-- Active names can be written in an expression. -/
theorem Settled.writable {bench : Workbench} (settled : bench.Settled) {name : String}
    (mem : name ∈ bench.active.names) :
    (bench.character.registry.contains name = true ∨ Op.read? name = none) ∧
      Text.IsField ',' name := by
  obtain ⟨sources, read⟩ := settled.shareable.read
  rcases settled.known name mem with contained | preset
  · have plain := (settled.shareable.plain name contained).1
    rw [read] at contained ⊢
    exact ⟨.inl contained, (Registry.isField_of_contains_read contained).of_not_mem plain⟩
  · rw [read] at preset
    obtain ⟨field, no_op⟩ := Baseline.isField_of_mem_presetNames_read preset
    exact ⟨.inr no_op, field⟩

theorem Settled.recoverable {bench : Workbench} (settled : bench.Settled) (state : Activation) :
    bench.character.Recoverable state bench.active where
  addressable := settled.shareable.addressable
  named := fun _ mem => settled.writable mem
  unshadowed := by
    intro ops diff_eq op mem
    obtain ⟨sources, read⟩ := settled.shareable.read
    have addressable := settled.shareable.addressable
    rw [read] at diff_eq addressable
    -- The text of such an op reads as an op, which the name of a composition does not.
    have found := (Character.read?_text_of_diff addressable diff_eq mem).1
    cases contained : bench.character.registry.contains op.text with
    | false => rfl
    | true =>
        have no_op := (settled.shareable.plain op.text contained).2.1
        exact nomatch found.symm.trans no_op
  silent := by
    cases contained : bench.character.registry.contains Expression.defaultText with
    | false => rfl
    | true => exact absurd rfl (settled.shareable.plain _ contained).2.2

theorem expression_eq_ok_iff {bench : Workbench} {text : String} :
    bench.expression = .ok text ↔
      ∃ state, bench.state = .ok state ∧
        bench.character.synthesize state bench.active = .ok text :=
  bind_eq_ok_iff

/-- After any run of steps, applying the expression of a workbench leaves the layers that are on,
    takes out of the active names those without a composition, and comes to an expression that
    stays as it is when it is applied in turn. -/
theorem applyExpression_expression {character : Character} (shareable : character.Shareable)
    {actions : List Action} (allowed : ∀ action ∈ actions, action.Allowed) {bench : Workbench}
    (reached : (start character).performAll actions = bench) {text : String}
    (written : bench.expression = .ok text) :
    ∃ before after canonical, bench.state = .ok before ∧
      (bench.applyExpression text).state = .ok after ∧
      after.sameLayers before bench.character.catalog = true ∧
      (bench.applyExpression text).active.names =
        bench.active.names.filter bench.character.registry.contains ∧
      (bench.applyExpression text).expression = .ok canonical ∧
      ((bench.applyExpression text).applyExpression canonical).expression = .ok canonical := by
  have settled : bench.Settled := reached ▸ (settled_start shareable).performAll allowed
  obtain ⟨before, state_eq, synthesized⟩ := expression_eq_ok_iff.1 written
  obtain ⟨sources, read⟩ := settled.shareable.read
  have recoverable := settled.recoverable before
  rw [read] at synthesized recoverable
  obtain ⟨active_eq, ⟨after, resolved, same⟩, canonical, canonical_eq, again⟩ :=
    Character.recover_synthesize recoverable synthesized
  rw [← read] at active_eq resolved same canonical_eq again
  refine ⟨before, after, canonical, state_eq, resolved, same, ?_, canonical_eq, again⟩
  exact congrArg ActiveSet.names active_eq

end Workbench

namespace Character

/-- Of two texts that differ in the baseline, the definitions differ in the baseline. -/
theorem toDefinitions_with_baseline (sources : CharacterSources) (text : String) :
    (ofSources { sources with baseline := text }).toDefinitions =
      { (ofSources sources).toDefinitions with baseline := Baseline.read text } := rfl

/-- The portrait with two presets, of which the first is no composition. -/
def sleeperSources : CharacterSources :=
  { portraitSources with baseline := "Awake,Sleepy:Eyes>Open,Hat+Cap,Tail+Wag,odd" }

theorem toDefinitions_sleeperSources :
    (ofSources sleeperSources).toDefinitions =
      { Definitions.portrait with
        baseline := ⟨["Awake", "Sleepy"], Definitions.portrait.baseline.baseOps⟩ } := by
  have baseline : Baseline.read "Awake,Sleepy:Eyes>Open,Hat+Cap,Tail+Wag,odd" =
      ⟨["Awake", "Sleepy"], Definitions.portrait.baseline.baseOps⟩ := by decide
  rw [sleeperSources, toDefinitions_with_baseline, toDefinitions_portraitSources,
    baseline]

theorem presetState_sleeperSources :
    (ofSources sleeperSources).presetState (ActiveSet.ofList ["Awake", "Sleepy"]) =
      .ok (Activation.ofList [("Eyes/Open", false), ("Eyes/Shut", true), ("Hat/Cap", false),
        ("Tail/Wag", true)]) := by
  have known : Definitions.portrait.registry.known (ActiveSet.ofList ["Awake", "Sleepy"]) =
      ActiveSet.ofList ["Sleepy"] := ActiveSet.ext (by decide)
  rw [toDefinitions_sleeperSources, ← Definitions.presetState_known, known]
  exact Definitions.presetState_portrait

theorem shareable_portrait {sources : CharacterSources}
    (catalog : (ofSources sources).catalog = Definitions.portrait.catalog)
    (registry : (ofSources sources).registry = Definitions.portrait.registry) :
    (ofSources sources).Shareable where
  read := ⟨sources, rfl⟩
  addressable := by
    rw [addressFindings, catalog]
    decide
  plain := by
    intro name contained
    rw [registry] at contained
    have mem : name ∈ ["Blink", "Sleepy"] := Roster.contains_iff_mem_keys.1 contained
    simp only [List.mem_cons, List.not_mem_nil, or_false] at mem
    rcases mem with rfl | rfl <;> decide

end Character

namespace Workbench

/-- Steps that leave one portrait for the other, and there open the eyes, put on the cap and stop
    a tail that is no layer. -/
def errands : List Action :=
  [.toggle "Blink", .switch (.ofSources Character.sleeperSources), .pin "Eyes/Open" true,
    .pin "Hat/Cap" true, .pin "Tail/Wag" false]

theorem performAll_errands :
    (start (.ofSources Character.portraitSources)).performAll errands =
      ⟨.ofSources Character.sleeperSources, ActiveSet.ofList ["Awake", "Sleepy"],
        Roster.ofList [("Eyes/Open", true), ("Hat/Cap", true), ("Tail/Wag", false)]⟩ := by
  have presets : (Character.ofSources Character.sleeperSources).presets =
      ActiveSet.ofList ["Awake", "Sleepy"] := by
    rw [Character.toDefinitions_sleeperSources]
    rfl
  rw [← presets]
  rfl

theorem expression_errands :
    ((start (.ofSources Character.portraitSources)).performAll errands).expression =
      .ok "Awake,Sleepy,Eyes+Open,Hat>Cap" := by
  rw [performAll_errands]
  have ops_eq : (Character.ofSources Character.sleeperSources).diff Character.awake
      (ActiveSet.ofList ["Awake", "Sleepy"]) =
        .ok [.enable "Eyes" "Open", .exclusive "Hat" "Cap"] := by
    refine Definitions.diff_eq_ok_iff.2 ⟨_, Character.presetState_sleeperSources, Eq.symm ?_⟩
    rw [Character.toDefinitions_sleeperSources]
    exact List.mergeSort_of_pairwise (by decide)
  refine expression_eq_ok_iff.2 ⟨Character.awake, ?_, ?_⟩
  · exact Definitions.resolve_eq_ok_iff.2 ⟨_, Character.presetState_sleeperSources, by decide⟩
  · exact Definitions.synthesize_eq_ok_iff.2 ⟨_, ops_eq, by decide⟩

/-- The preset without a composition is written and lost, the eyes and the cap stay as they are
    pinned. -/
theorem applyExpression_expression_errands :
    ∃ before after canonical,
      ((start (.ofSources Character.portraitSources)).performAll errands).state = .ok before ∧
      (((start (.ofSources Character.portraitSources)).performAll errands).applyExpression
        "Awake,Sleepy,Eyes+Open,Hat>Cap").state = .ok after ∧
      after.sameLayers before Definitions.portrait.catalog = true ∧
      (((start (.ofSources Character.portraitSources)).performAll errands).applyExpression
        "Awake,Sleepy,Eyes+Open,Hat>Cap").active.names = ["Sleepy"] ∧
      (((start (.ofSources Character.portraitSources)).performAll errands).applyExpression
        "Awake,Sleepy,Eyes+Open,Hat>Cap").expression = .ok canonical := by
  have first : (Character.ofSources Character.portraitSources).Shareable := by
    refine Character.shareable_portrait ?_ ?_ <;> rw [Character.toDefinitions_portraitSources]
  have second : (Character.ofSources Character.sleeperSources).Shareable := by
    refine Character.shareable_portrait ?_ ?_ <;> rw [Character.toDefinitions_sleeperSources]
  have allowed : ∀ action ∈ errands, action.Allowed := by
    simp [errands, Action.Allowed, second]
  obtain ⟨before, after, canonical, state_eq, resolved, same, names, written, _⟩ :=
    applyExpression_expression first allowed rfl expression_errands
  rw [performAll_errands, Character.toDefinitions_sleeperSources] at same names
  exact ⟨before, after, canonical, state_eq, resolved, same, names, written⟩

end Workbench

end LayerComposition
