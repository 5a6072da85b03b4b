import LayerComposition.Proofs.Notation
import LayerComposition.Proofs.Precedence
import LayerComposition.Workbench

/-! # History

What a run of editing steps leaves behind. A reset, a switch and an applied expression start over:
of what came before them only the character is left. A pin stands until a step releases it, whatever
is toggled in between.
-/

namespace LayerComposition.Workbench

namespace Action

/-- A step after which the active compositions and the pins have nothing of what they were. -/
def restarts : Action → Bool
  | .reset | .switch _ | .applyExpression _ => true
  | .toggle _ | .pin _ _ | .unpin _ => false

/-- A step that decides whether a layer id is pinned, and how. -/
def touches (id : String) : Action → Bool
  | .pin other _ | .unpin other => other == id
  | .reset | .switch _ | .applyExpression _ => true
  | .toggle _ => false

end Action

/-- The steps from the last restart on, or all of them if there is none. -/
def sinceRestart : List Action → List Action
  | [] => []
  | action :: rest =>
      if rest.any Action.restarts then sinceRestart rest else action :: rest

def lastTouch? (id : String) (actions : List Action) : Option Action :=
  actions.reverse.find? (Action.touches id)

variable {bench : Workbench} {actions : List Action}

@[simp]
theorem character_toggle (bench : Workbench) (name : String) :
    (bench.toggle name).2.character = bench.character := by
  unfold toggle
  split <;> rfl

@[simp]
theorem pins_toggle (bench : Workbench) (name : String) :
    (bench.toggle name).2.pins = bench.pins := by
  unfold toggle
  split <;> rfl

theorem performAll_concat (bench : Workbench) (actions : List Action) (action : Action) :
    bench.performAll (actions ++ [action]) = (bench.performAll actions).perform action := by
  simp [performAll]

/-! ## Active names -/

/-- Active names are those of compositions or presets of the character at hand. -/
def NamesKnown (bench : Workbench) : Prop :=
  ∀ name ∈ bench.active.names, bench.character.registry.contains name = true ∨
    name ∈ bench.character.baseline.presetNames

theorem namesKnown_start (character : Character) : (start character).NamesKnown :=
  fun _ mem => .inr (mem_distinct.1 mem)

/-- What toggling adds is a composition. -/
theorem NamesKnown.toggle (known : bench.NamesKnown) (name : String) :
    (bench.toggle name).2.NamesKnown := by
  unfold Workbench.toggle
  split
  · rename_i contained
    intro other mem
    rw [ActiveSet.names_toggle] at mem
    split at mem
    · exact known other (List.mem_filter.1 mem).1
    · rcases List.mem_append.1 mem with mem | mem
      · exact known other mem
      · obtain rfl := List.mem_singleton.1 mem
        exact .inl contained
  · exact known

theorem NamesKnown.perform (known : bench.NamesKnown) (action : Action) :
    (bench.perform action).NamesKnown := by
  cases action with
  | toggle name => exact known.toggle name
  | pin id on => exact known
  | unpin id => exact known
  | reset =>
      rw [Workbench.perform, reset_eq_start]
      exact namesKnown_start bench.character
  | switch character =>
      rw [Workbench.perform, switch_eq_start]
      exact namesKnown_start character
  | applyExpression text =>
      intro name mem
      exact .inl (Expression.contains_of_mem_read mem).1

theorem NamesKnown.performAll (known : bench.NamesKnown) (actions : List Action) :
    (bench.performAll actions).NamesKnown := by
  induction actions generalizing bench with
  | nil => exact known
  | cons action rest ih => exact ih (known.perform action)

/-! ## Restarts -/

theorem character_perform_of_not_restarts {action : Action} (quiet : action.restarts = false) :
    (bench.perform action).character = bench.character := by
  cases action with
  | toggle name => exact character_toggle bench name
  | pin id on => rfl
  | unpin id => rfl
  | reset | switch | applyExpression => contradiction

theorem character_performAll_of_not_restarts (quiet : actions.any Action.restarts = false) :
    (bench.performAll actions).character = bench.character := by
  induction actions generalizing bench with
  | nil => rfl
  | cons action rest ih =>
      obtain ⟨first, others⟩ := Bool.or_eq_false_iff.1 quiet
      exact (ih others).trans (character_perform_of_not_restarts first)

/-- A restart comes to the same from a workbench that was just started. -/
theorem perform_start_of_restarts {action : Action} (restarts : action.restarts = true) :
    (start (bench.perform action).character).perform action = bench.perform action := by
  cases action with
  | toggle | pin | unpin => contradiction
  | reset => simp only [perform, reset_eq_start, start]
  | switch character => simp only [perform, switch_eq_start, start]
  | applyExpression text => rfl

theorem performAll_sinceRestart_of_any (restarts : actions.any Action.restarts = true) :
    (start (bench.performAll actions).character).performAll (sinceRestart actions) =
      bench.performAll actions := by
  induction actions generalizing bench with
  | nil => contradiction
  | cons action rest ih =>
      rw [sinceRestart]
      cases later : rest.any Action.restarts with
      | true => exact ih later
      | false =>
          -- This is the last restart, so nothing behind it changes the character.
          have first : action.restarts = true := by simpa [later] using restarts
          have character_eq : (bench.performAll (action :: rest)).character =
              (bench.perform action).character :=
            character_performAll_of_not_restarts later
          rw [character_eq]
          exact congrArg (·.performAll rest) (perform_start_of_restarts first)

/-- After any run of steps no name is active twice, each is that of a composition or a preset of
    the character at hand, and the whole workbench, with all that it shows, is as if that character
    had just been taken up and only the steps since the last restart been made. -/
theorem performAll_sinceRestart (character : Character) (actions : List Action) :
    ((start character).performAll actions).active.names.Nodup ∧
      (∀ name ∈ ((start character).performAll actions).active.names,
        ((start character).performAll actions).character.registry.contains name = true ∨
          name ∈ ((start character).performAll actions).character.baseline.presetNames) ∧
      (start ((start character).performAll actions).character).performAll
          (sinceRestart actions) =
        (start character).performAll actions := by
  refine ⟨ActiveSet.nodup _, (namesKnown_start character).performAll actions, ?_⟩
  cases restarts : actions.any Action.restarts with
  | true => exact performAll_sinceRestart_of_any restarts
  | false =>
      have whole : sinceRestart actions = actions := by
        cases actions with
        | nil => rfl
        | cons action rest =>
            have later := (Bool.or_eq_false_iff.1 restarts).2
            rw [sinceRestart, later]
            rfl
      rw [whole, character_performAll_of_not_restarts restarts]
      rfl

/-! ## Pins -/

theorem lastTouch?_concat (id : String) (actions : List Action) (action : Action) :
    lastTouch? id (actions ++ [action]) =
      if action.touches id then some action else lastTouch? id actions := by
  rw [lastTouch?, List.reverse_append, List.reverse_singleton, List.singleton_append,
    List.find?_cons]
  cases action.touches id <;> rfl

/-- Pins of other ids, and compositions, are all that such a step changes. -/
theorem get?_pins_perform_of_not_touches {id : String} {action : Action}
    (quiet : action.touches id = false) :
    (bench.perform action).pins.get? id = bench.pins.get? id := by
  cases action with
  | toggle name => exact congrArg (·.get? id) (pins_toggle bench name)
  | pin other on =>
      have differ : id ≠ other := fun same => by simp [Action.touches, same] at quiet
      exact (Roster.get?_put bench.pins other id on).trans (if_neg differ)
  | unpin other =>
      have differ : id ≠ other := fun same => by simp [Action.touches, same] at quiet
      exact (Roster.get?_remove bench.pins other id).trans (if_neg differ)
  | reset | switch | applyExpression => contradiction

/-- A run leaves of an id the pin that the last step on it leaves, wherever that is made. -/
theorem get?_pins_performAll {id : String} {last : Action} {pin : Option Bool}
    (left : ∀ bench : Workbench, (bench.perform last).pins.get? id = pin)
    (found : lastTouch? id actions = some last) :
    (bench.performAll actions).pins.get? id = pin := by
  induction actions using List.reverseRecOn with
  | nil => contradiction
  | append_singleton before action ih =>
      rw [performAll_concat]
      rw [lastTouch?_concat] at found
      split at found
      · obtain rfl := Option.some.inj found
        exact left _
      · rename_i quiet
        rw [get?_pins_perform_of_not_touches (Bool.not_eq_true _ ▸ quiet)]
        exact ih found

theorem state_eq_ok_iff {state : Activation} :
    bench.state = .ok state ↔
      ∃ preset, bench.character.presetState bench.active = .ok preset ∧
        state = preset.write bench.pins.entries :=
  Definitions.resolve_eq_ok_iff

/-- After any run of steps, an id that was pinned by the last step on it is as it was pinned, and
    one that was released by it is as the active compositions leave it. -/
theorem get?_state_performAll {id : String} {state : Activation}
    (shown : (bench.performAll actions).state = .ok state) :
    (∀ on, lastTouch? id actions = some (.pin id on) → state.get? id = some on) ∧
      (lastTouch? id actions = some (.unpin id) →
        ∃ preset, (bench.performAll actions).character.presetState
            (bench.performAll actions).active = .ok preset ∧
          state.get? id = preset.get? id) := by
  obtain ⟨preset, preset_eq, rfl⟩ := state_eq_ok_iff.1 shown
  rw [Pins.get?_write]
  constructor
  · intro on found
    have pinned (bench : Workbench) : (bench.perform (.pin id on)).pins.get? id = some on :=
      (Roster.get?_put bench.pins id id on).trans (if_pos rfl)
    rw [get?_pins_performAll pinned found]
    rfl
  · intro found
    have released (bench : Workbench) : (bench.perform (.unpin id)).pins.get? id = none :=
      (Roster.get?_remove bench.pins id id).trans (if_pos rfl)
    rw [get?_pins_performAll released found]
    exact ⟨preset, preset_eq, rfl⟩

/-- Open eyes and a cap are pinned, a composition is activated that shuts the eyes and takes off the
    cap, and the cap is released. -/
def fitting : List Action :=
  [.pin "Eyes/Open" true, .pin "Hat/Cap" true, .toggle "Sleepy", .unpin "Hat/Cap"]

theorem performAll_fitting :
    (start (.ofDefinitions "Portrait" Definitions.portrait)).performAll fitting =
      ⟨.ofDefinitions "Portrait" Definitions.portrait, ActiveSet.ofList ["Sleepy"],
        Roster.ofList [("Eyes/Open", true)]⟩ := rfl

/-- The eyes stay open as they are pinned, and the cap is off as the composition leaves it. -/
theorem get?_state_performAll_fitting :
    ∃ state preset,
      ((start (.ofDefinitions "Portrait" Definitions.portrait)).performAll fitting).state =
          .ok state ∧
        lastTouch? "Eyes/Open" fitting = some (.pin "Eyes/Open" true) ∧
        state.get? "Eyes/Open" = some true ∧
        lastTouch? "Hat/Cap" fitting = some (.unpin "Hat/Cap") ∧
        Definitions.portrait.presetState (ActiveSet.ofList ["Sleepy"]) = .ok preset ∧
        state.get? "Hat/Cap" = preset.get? "Hat/Cap" := by
  have shown : ((start (.ofDefinitions "Portrait" Definitions.portrait)).performAll
      fitting).state = .ok (Activation.ofList [("Eyes/Open", true), ("Eyes/Shut", true),
        ("Hat/Cap", false), ("Tail/Wag", true)]) := by
    rw [performAll_fitting]
    exact Definitions.resolve_portrait
  have released : lastTouch? "Hat/Cap" fitting = some (.unpin "Hat/Cap") := rfl
  obtain ⟨preset, preset_eq, same⟩ := (get?_state_performAll shown).2 released
  exact ⟨_, preset, shown, rfl, (get?_state_performAll shown).1 true rfl, released, preset_eq, same⟩

end LayerComposition.Workbench
