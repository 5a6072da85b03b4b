import LayerComposition.Proofs.History

/-! # Toggling

Toggling changes one name at most, and answers whether that name is active now. The one name of which
the answer is not true is a preset that no composition bears. It cannot be toggled, so it stays
active, and the answer is that it is not. Such a preset is active from a start, a reset or a switch
until an expression takes the place of the presets.
-/

namespace LayerComposition

/-- Toggling a name leaves the other ones, and their order. -/
theorem ActiveSet.filter_ne_names_toggle (active : ActiveSet) (name : String) :
    (active.toggle name).2.names.filter (· ≠ name) = active.names.filter (· ≠ name) := by
  rw [names_toggle]
  split
  · rw [List.filter_filter]
    simp
  · rw [List.filter_append]
    simp

theorem ActiveSet.mem_names_toggle_of_ne {active : ActiveSet} {name other : String}
    (differ : other ≠ name) : other ∈ (active.toggle name).2.names ↔ other ∈ active.names := by
  have others := congrArg (other ∈ ·) (active.filter_ne_names_toggle name)
  simpa [differ] using others

namespace Workbench

variable {bench : Workbench} {standing : Bool}

/-- What toggling a name does to a workbench. -/
structure Toggles (bench : Workbench) (name : String) : Prop where
  flips : (bench.toggle name).2.active.contains name =
    (bench.active.contains name ^^ bench.canToggle name)
  others : (bench.toggle name).2.active.names.filter (· ≠ name) =
    bench.active.names.filter (· ≠ name)
  pins : (bench.toggle name).2.pins = bench.pins
  character : (bench.toggle name).2.character = bench.character

theorem toggle_of_canToggle {name : String} (known : bench.canToggle name = true) :
    bench.toggle name = ((bench.active.toggle name).1,
      { bench with active := (bench.active.toggle name).2 }) :=
  if_pos known

theorem toggle_of_not_canToggle {name : String} (unknown : bench.canToggle name = false) :
    bench.toggle name = (false, bench) :=
  if_neg (by simp [unknown])

theorem toggles (bench : Workbench) (name : String) : bench.Toggles name := by
  constructor
  case flips =>
    cases known : bench.canToggle name with
    | true => simp [toggle_of_canToggle known, ActiveSet.contains_toggle]
    | false => simp [toggle_of_not_canToggle known]
  case others =>
    cases known : bench.canToggle name with
    | true =>
        rw [toggle_of_canToggle known]
        exact bench.active.filter_ne_names_toggle name
    | false => rw [toggle_of_not_canToggle known]
  case pins => exact pins_toggle bench name
  case character => exact character_toggle bench name

/-- The answer is true of all but an active name that cannot be toggled. -/
theorem toggle_answer_iff {name : String} :
    (bench.toggle name).1 = (bench.toggle name).2.active.contains name ↔
      bench.canToggle name = true ∨ name ∉ bench.active.names := by
  cases known : bench.canToggle name with
  | true => simp [toggle_of_canToggle known, ActiveSet.toggle_fst, ActiveSet.contains_toggle]
  | false => simp [toggle_of_not_canToggle known, ActiveSet.contains]

/-! ## Presets without a composition -/

/-- Whether presets can be active after a step, given whether they could be before it. -/
def Action.keepsPresets (standing : Bool) : Action → Bool
  | .reset | .switch _ => true
  | .applyExpression _ => false
  | .toggle _ | .pin _ _ | .unpin _ => standing

/-- Whether no expression has taken the place of the presets since they were made active. -/
def presetsStand (actions : List Action) : Bool :=
  actions.foldl Action.keepsPresets true

/-- The active names that cannot be toggled are the presets that cannot, as long as they stand. -/
def HoldsPresets (bench : Workbench) (standing : Bool) : Prop :=
  ∀ name, bench.canToggle name = false →
    (name ∈ bench.active.names ↔
      standing = true ∧ name ∈ bench.character.baseline.presetNames)

theorem holdsPresets_start (character : Character) : (start character).HoldsPresets true := by
  intro name _
  exact mem_distinct.trans (by simp [start])

theorem HoldsPresets.toggle (holds : bench.HoldsPresets standing) (name : String) :
    (bench.toggle name).2.HoldsPresets standing := by
  cases known : bench.canToggle name with
  | true =>
      rw [toggle_of_canToggle known]
      intro other unknown
      have differ : other ≠ name := by
        rintro rfl
        exact absurd (known.symm.trans unknown) (by decide)
      exact (ActiveSet.mem_names_toggle_of_ne differ).trans (holds other unknown)
  | false =>
      rw [toggle_of_not_canToggle known]
      exact holds

theorem HoldsPresets.perform (holds : bench.HoldsPresets standing) (action : Action) :
    (bench.perform action).HoldsPresets (action.keepsPresets standing) := by
  cases action with
  | toggle name => exact holds.toggle name
  | pin id on => exact holds
  | unpin id => exact holds
  | reset =>
      rw [Workbench.perform, reset_eq_start]
      exact holdsPresets_start bench.character
  | switch character =>
      rw [Workbench.perform, switch_eq_start]
      exact holdsPresets_start character
  | applyExpression text =>
      intro name unknown
      constructor
      · intro mem
        -- An expression activates compositions only.
        have known := (Expression.contains_of_mem_read mem).1
        exact absurd (known.symm.trans unknown) (by decide)
      · rintro ⟨stands, _⟩
        contradiction

theorem HoldsPresets.performAll (holds : bench.HoldsPresets standing) (actions : List Action) :
    (bench.performAll actions).HoldsPresets (actions.foldl Action.keepsPresets standing) := by
  induction actions generalizing bench standing with
  | nil => exact holds
  | cons action rest ih => exact ih (holds.perform action)

/-- After any run of steps, toggling a name flips it if it can be toggled, and leaves the other active
    names in their order, the pins and the character. It answers whether the name is active now,
    except of a preset that no composition bears while the presets stand. -/
theorem toggles_and_answers_performAll (character : Character) (actions : List Action)
    (name : String) :
    ((start character).performAll actions).Toggles name ∧
      ((((start character).performAll actions).toggle name).1 =
          (((start character).performAll actions).toggle name).2.active.contains name ↔
        ((start character).performAll actions).canToggle name = true ∨
          name ∉ ((start character).performAll actions).character.baseline.presetNames ∨
          presetsStand actions = false) := by
  refine ⟨toggles _ name, toggle_answer_iff.trans ?_⟩
  have holds := (holdsPresets_start character).performAll actions name
  cases known : ((start character).performAll actions).canToggle name with
  | true => simp
  | false =>
      rw [holds known, presetsStand]
      cases actions.foldl Action.keepsPresets true <;> simp

/-- A face with a preset that no composition bears. -/
def hauntedSources : CharacterSources where
  name := "hero"
  catalog := "Eyes:Open:1\nEyes:Shut:1\n"
  compositions := "Blink:Eyes>Shut\n"
  baseline := "Ghost:Eyes>Open"

/-- The answer is that the ghost is not active, and it is. -/
theorem toggle_ghost :
    (((start (.ofSources hauntedSources)).performAll [.toggle "Blink"]).toggle "Ghost").1 = false ∧
      (((start (.ofSources hauntedSources)).performAll [.toggle "Blink"]).toggle
        "Ghost").2.active.contains "Ghost" = true := by
  decide

end Workbench

end LayerComposition
