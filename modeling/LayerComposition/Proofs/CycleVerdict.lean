import LayerComposition.Proofs.Inclusion
import LayerComposition.Proofs.Precedence
import LayerComposition.Validation

/-! # The verdict on cycles

Validation looks for cycles once, before anything is chosen; resolution runs into them when a
choice is made. A report has an error exactly if some choice fails.
-/

namespace LayerComposition

namespace Finding

theorem isError_diagnostic {finding : Finding} :
    finding.diagnostic.isError = true ↔ ∃ names, finding = .cycle names := by
  cases finding <;> simp [diagnostic, Diagnostic.isError, severity]

end Finding

namespace Character

theorem cycle_notMem_targetFindings (catalog : Catalog) (place : Place) (op : Op)
    (names : Cycle) : Finding.cycle names ∉ op.targetFindings catalog place := by
  unfold Op.targetFindings
  split
  · simp
  · cases op.target? with
    | none => simp
    | some id =>
        cases contained : catalog.contains id <;> simp [contained]

theorem cycle_notMem_partFindings (character : Character) (composition part : String)
    (names : Cycle) : Finding.cycle names ∉ character.partFindings composition part := by
  unfold partFindings
  cases character.registry.classify part with
  | composition inner => simp
  | op op => exact cycle_notMem_targetFindings _ _ op names
  | unknown => simp

theorem cycle_notMem_baseOpFindings (character : Character) (token : String) (names : Cycle) :
    Finding.cycle names ∉ character.baseOpFindings token := by
  unfold baseOpFindings
  cases Op.read? token with
  | some op => exact cycle_notMem_targetFindings _ _ op names
  | none => simp

/-- The cycles that a report tells of are those of the reference graph. -/
theorem cycle_mem_findings_iff {character : Character} {names : Cycle} :
    Finding.cycle names ∈ character.findings ↔ names ∈ character.registry.graph.cycles := by
  simp [findings, cycleFindings, duplicateFindings, addressFindings, skippedFindings,
    partsFindings, baselineFindings, cycle_notMem_partFindings, cycle_notMem_baseOpFindings]

theorem hasErrors_validate_iff {character : Character} :
    character.validate.hasErrors = true ↔ character.registry.graph.cycles ≠ [] := by
  constructor
  · intro reported
    obtain ⟨diagnostic, mem, isError⟩ := List.any_eq_true.1 reported
    obtain ⟨finding, finding_mem, rfl⟩ := List.mem_map.1 mem
    obtain ⟨names, rfl⟩ := Finding.isError_diagnostic.1 isError
    exact List.ne_nil_of_mem (cycle_mem_findings_iff.1 finding_mem)
  · intro nonempty
    obtain ⟨names, mem⟩ := List.exists_mem_of_ne_nil _ nonempty
    refine List.any_eq_true.2 ⟨(Finding.cycle names).diagnostic, ?_, ?_⟩
    · exact List.mem_map_of_mem (cycle_mem_findings_iff.2 mem)
    · exact Finding.isError_diagnostic.2 ⟨names, rfl⟩

end Character

namespace Definitions

theorem exists_presetState_iff {definitions : Definitions} {active : ActiveSet} :
    (∃ preset, definitions.presetState active = .ok preset) ↔
      ∀ name ∈ active.names, (definitions.registry.flatten name).2 = none := by
  constructor
  · rintro ⟨preset, preset_eq⟩
    exact (presetState_eq_ok_iff.1 preset_eq).1
  · intro flattens
    exact ⟨_, presetState_eq_ok_iff.2 ⟨flattens, rfl⟩⟩

theorem exists_resolve_iff {definitions : Definitions} {active : ActiveSet} {pins : Pins} :
    (∃ result, definitions.resolve active pins = .ok result) ↔
      ∃ preset, definitions.presetState active = .ok preset := by
  constructor
  · rintro ⟨result, resolved⟩
    obtain ⟨preset, preset_eq, _⟩ := resolve_eq_ok_iff.1 resolved
    exact ⟨preset, preset_eq⟩
  · rintro ⟨preset, preset_eq⟩
    exact ⟨_, resolve_eq_ok_iff.2 ⟨preset, preset_eq, rfl⟩⟩

theorem exists_synthesize_iff {definitions : Definitions} {state : Activation}
    {active : ActiveSet} :
    (∃ text, definitions.synthesize state active = .ok text) ↔
      ∃ preset, definitions.presetState active = .ok preset := by
  unfold synthesize diff
  cases definitions.presetState active <;> simp [Except.map]

/-- Every choice of active compositions has a state exactly if every composition flattens. -/
theorem forall_exists_presetState_iff {definitions : Definitions} :
    (∀ active, ∃ preset, definitions.presetState active = .ok preset) ↔
      ∀ name, (definitions.registry.flatten name).2 = none := by
  simp only [exists_presetState_iff]
  constructor
  · intro all name
    exact all ⟨[name], by simp⟩ name List.mem_cons_self
  · intro flattens active name _
    exact flattens name

end Definitions

/-- A report has an error exactly if resolution fails for some choice of active compositions and
    pins. Without one, every choice resolves, and every state can be written with it. -/
theorem Character.hasErrors_iff_exists_resolve_error (character : Character) :
    (character.validate.hasErrors = true ↔
        ∃ active pins cycle, character.resolve active pins = .error cycle) ∧
      (character.validate.hasErrors = false ↔
        ∀ active pins state, (∃ result, character.resolve active pins = .ok result) ∧
          (∃ preset, character.presetState active = .ok preset) ∧
          ∃ text, character.synthesize state active = .ok text) := by
  -- Both sides come down to whether every composition flattens.
  have clean : character.validate.hasErrors = false ↔
      ∀ active, ∃ preset, character.presetState active = .ok preset := by
    rw [Definitions.forall_exists_presetState_iff, ← Registry.cycles_graph_eq_nil_iff,
      ← Bool.not_eq_true, hasErrors_validate_iff, not_not]
  constructor
  · rw [← not_iff_not, Bool.not_eq_true, clean]
    constructor
    · rintro all ⟨active, pins, cycle, failed⟩
      obtain ⟨result, resolved⟩ := Definitions.exists_resolve_iff.2 (all active)
      exact nomatch failed.symm.trans resolved
    · intro none_fails active
      cases resolved : character.resolve active ∅ with
      | error cycle => exact absurd ⟨active, ∅, cycle, resolved⟩ none_fails
      | ok result => exact Definitions.exists_resolve_iff.1 ⟨result, resolved⟩
  · rw [clean]
    constructor
    · intro all active pins state
      exact ⟨Definitions.exists_resolve_iff.2 (all active), all active,
        Definitions.exists_synthesize_iff.2 (all active)⟩
    · intro all active
      exact (all active ∅ ∅).2.1

end LayerComposition
