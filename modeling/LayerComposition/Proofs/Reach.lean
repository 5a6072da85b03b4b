import LayerComposition.Proofs.Inclusion
import LayerComposition.Proofs.Precedence
import LayerComposition.Synthesis

/-! # Out of reach

A resolution looks up the active names, and the parts of the compositions that it goes into. Two
registries that say the same of all these take the same turns and end alike, whatever else they
define. The one thing to mind is a part that is an op as long as no composition bears its text: the
registries have to agree that none does.
-/

namespace LayerComposition

namespace Registry

variable {first second : Registry} {names : Set String} {active : ActiveSet}

/-- A part is a composition in both of two registries, and then one of a set of names, or in
    neither. -/
def AgreeOnPart (first second : Registry) (names : Set String) (part : String) : Prop :=
  first.contains part = second.contains part ∧ (first.contains part = true → part ∈ names)

/-- Two registries agree on what a set of names stands for, and on the parts of these compositions,
    among which no name outside the set is a composition. -/
structure AgreeOn (first second : Registry) (names : Set String) : Prop where
  definitions : ∀ name ∈ names, first.get? name = second.get? name
  parts : ∀ name ∈ names, ∀ composition, first.get? name = some composition →
    ∀ part ∈ composition.parts, first.AgreeOnPart second names part

theorem AgreeOn.get?_eq_of_part (agree : first.AgreeOn second names) {part : String}
    (known : first.AgreeOnPart second names part) : first.get? part = second.get? part := by
  obtain ⟨same, inside⟩ := known
  cases contained : first.contains part with
  | true => exact agree.definitions part (inside contained)
  | false =>
      rw [get?_of_not_contains contained, get?_of_not_contains (same.symm.trans contained)]

theorem AgreeOn.classify_eq (agree : first.AgreeOn second names) {part : String}
    (known : first.AgreeOnPart second names part) :
    first.classify part = second.classify part := by
  rw [classify, classify, agree.get?_eq_of_part known]

end Registry

/-! ## Turns in step -/

namespace Expansion

variable {catalog : Catalog} {first second : Registry} {names : Set String}
  {state next : Expansion}

/-- All parts that are still to be taken are agreed on. -/
def Within (first second : Registry) (names : Set String) (frames : List Frame) : Prop :=
  ∀ frame ∈ frames, ∀ part ∈ frame.pending, first.AgreeOnPart second names part

theorem Within.step_eq (within : Within first second names state.frames)
    (agree : first.AgreeOn second names) :
    step catalog first state = step catalog second state := by
  obtain ⟨frames, path, activation⟩ := state
  cases frames with
  | nil => rfl
  | cons frame below =>
      obtain ⟨composition, pending⟩ := frame
      cases pending with
      | nil => rfl
      | cons part pending =>
          have same := agree.classify_eq (within _ List.mem_cons_self part List.mem_cons_self)
          simp only [step, same]

/-- Taking a part leaves the other ones. -/
theorem Within.of_taken {composition : Composition} {part : String} {pending : List String}
    {below : List Frame}
    (within : Within first second names (⟨composition, part :: pending⟩ :: below)) :
    Within first second names (⟨composition, pending⟩ :: below) := by
  intro frame mem other other_mem
  rcases List.mem_cons.1 mem with rfl | mem
  · exact within _ List.mem_cons_self other (List.mem_cons_of_mem part other_mem)
  · exact within frame (List.mem_cons_of_mem _ mem) other other_mem

theorem Within.step (within : Within first second names state.frames)
    (agree : first.AgreeOn second names)
    (turn : Expansion.step catalog first state = .running next) :
    Within first second names next.frames := by
  cases advances_of_step turn with
  | close => exact fun frame mem => within frame (List.mem_cons_of_mem _ mem)
  | @enter _ part _ _ _ _ inner classified _ =>
      intro frame mem other other_mem
      rcases List.mem_cons.1 mem with rfl | mem
      · -- The composition that is gone into is one of the names, so its parts are agreed on.
        have known := within _ List.mem_cons_self part List.mem_cons_self
        exact agree.parts part (known.2 (Registry.contains_of_classify classified)) inner
          (Registry.get?_of_classify classified) other other_mem
      · exact within.of_taken frame mem other other_mem
  | apply => exact within.of_taken
  | pass => exact within.of_taken

theorem run_of_halted {registry : Registry} {outcome : Outcome}
    (wellFormed : state.WellFormed registry)
    (turn : Expansion.step catalog registry state = .halted outcome) :
    run catalog registry state wellFormed = outcome := by
  unfold run
  split
  · rename_i turn'
    exact Turn.halted.inj (turn'.symm.trans turn)
  · rename_i turn'
    cases turn'.symm.trans turn

theorem run_of_running {registry : Registry} (wellFormed : state.WellFormed registry)
    (turn : Expansion.step catalog registry state = .running next) :
    run catalog registry state wellFormed =
      run catalog registry next (wellFormed_step wellFormed turn) := by
  rw [run]
  split
  · rename_i turn'
    cases turn'.symm.trans turn
  · rename_i other turn'
    obtain rfl := Turn.running.inj (turn'.symm.trans turn)
    rfl

theorem Within.run_eq (within : Within first second names state.frames)
    (agree : first.AgreeOn second names) (firstFormed : state.WellFormed first)
    (secondFormed : state.WellFormed second) :
    run catalog first state firstFormed = run catalog second state secondFormed := by
  fun_induction run catalog first state firstFormed with
  | case1 state _ outcome turn =>
      exact (run_of_halted secondFormed ((within.step_eq agree).symm.trans turn)).symm
  | case2 state _ next turn ih =>
      rw [run_of_running secondFormed ((within.step_eq agree).symm.trans turn)]
      exact ih (within.step agree turn) _

end Expansion

namespace Registry

variable {first second : Registry} {names : Set String} {active : ActiveSet}

theorem AgreeOn.expand_eq (agree : first.AgreeOn second names) {name : String} (mem : name ∈ names)
    (catalog : Catalog) (activation : Activation) :
    first.expand catalog name activation = second.expand catalog name activation := by
  have same := agree.definitions name mem
  cases found : first.get? name with
  | none => rw [expand_of_get?_eq_none found, expand_of_get?_eq_none (same.symm.trans found)]
  | some composition =>
      rw [expand_of_get?_eq_some found, expand_of_get?_eq_some (same.symm.trans found)]
      refine Expansion.Within.run_eq (fun frame frame_mem part part_mem => ?_) agree _ _
      rw [List.mem_singleton.1 frame_mem] at part_mem
      exact agree.parts name mem composition found part part_mem

/-! ## What is mentioned -/

/-- The active names, and the compositions that these include, directly or through others. -/
def reached (registry : Registry) (active : ActiveSet) : Set String :=
  {name | ∃ outer ∈ active.names, Relation.ReflTransGen registry.Includes outer name}

/-- A name is active, or a part of a composition that is reached. -/
def Mentions (registry : Registry) (active : ActiveSet) (name : String) : Prop :=
  name ∈ active.names ∨
    ∃ outer ∈ registry.reached active, ∃ composition, registry.get? outer = some composition ∧
      name ∈ composition.parts

theorem mentions_of_mem_reached {registry : Registry} {name : String}
    (mem : name ∈ registry.reached active) : registry.Mentions active name := by
  obtain ⟨outer, outer_mem, leads⟩ := mem
  rcases leads.cases_tail with rfl | ⟨before, leads, composition, found, part_mem, _⟩
  · exact .inl outer_mem
  · exact .inr ⟨before, ⟨outer, outer_mem, leads⟩, composition, found, part_mem⟩

theorem agreeOn_reached
    (same : ∀ name, first.Mentions active name → first.get? name = second.get? name) :
    first.AgreeOn second (first.reached active) where
  definitions := fun name mem => same name (mentions_of_mem_reached mem)
  parts := by
    intro name mem composition found part part_mem
    have looked_up := same part (.inr ⟨name, mem, composition, found, part_mem⟩)
    constructor
    · rw [Bool.eq_iff_iff, contains_iff, contains_iff, looked_up]
    · intro contained
      obtain ⟨outer, outer_mem, leads⟩ := mem
      exact ⟨outer, outer_mem, leads.tail ⟨composition, found, part_mem, contained⟩⟩

/-- A set of names that is agreed on is not left by way of inclusions. -/
theorem AgreeOn.reached_subset (agree : first.AgreeOn second names)
    (inside : ∀ name ∈ active.names, name ∈ names) : first.reached active ⊆ names := by
  rintro name ⟨outer, outer_mem, leads⟩
  induction leads with
  | refl => exact inside outer outer_mem
  | tail _ includes ih =>
      obtain ⟨composition, found, part_mem, contained⟩ := includes
      exact (agree.parts _ ih composition found _ part_mem).2 contained

/-- Registries agree on some set with the active names exactly if they give the same for every name
    that is mentioned. -/
theorem exists_agreeOn_iff :
    (∃ names : Set String, (∀ name ∈ active.names, name ∈ names) ∧ first.AgreeOn second names) ↔
      ∀ name, first.Mentions active name → first.get? name = second.get? name := by
  constructor
  · rintro ⟨names, inside, agree⟩ name (mem | ⟨outer, outer_mem, composition, found, part_mem⟩)
    · exact agree.definitions name (inside name mem)
    · exact agree.get?_eq_of_part
        (agree.parts outer (agree.reached_subset inside outer_mem) composition found name part_mem)
  · intro same
    exact ⟨first.reached active, fun name mem => ⟨name, mem, .refl⟩, agreeOn_reached same⟩

end Registry

namespace Definitions

variable {first second : Registry} {names : Set String} {active : ActiveSet}

/-- Two characters cannot be told apart while some names are active: every choice of pins resolves
    to the same or fails with the same cycle, and so does writing any state. -/
structure Alike (first second : Definitions) (active : ActiveSet) : Prop where
  resolve : ∀ pins, first.resolve active pins = second.resolve active pins
  synthesize : ∀ state, first.synthesize state active = second.synthesize state active

theorem alike_of_presetState_eq {one other : Definitions} (catalog : one.catalog = other.catalog)
    (same : one.presetState active = other.presetState active) : one.Alike other active where
  resolve := fun pins => by rw [Definitions.resolve, Definitions.resolve, same]
  synthesize := fun state => by
    rw [Definitions.synthesize, Definitions.synthesize, diff, diff, same, catalog]

theorem presetState_eq_of_agreeOn (agree : first.AgreeOn second names)
    (inside : ∀ name ∈ active.names, name ∈ names) (catalog : Catalog) (baseline : Baseline) :
    presetState ⟨catalog, first, baseline⟩ active =
      presetState ⟨catalog, second, baseline⟩ active := by
  have expanded (list : List String) (inside : ∀ name ∈ list, name ∈ names)
      (activation : Activation) :
      list.foldlM (expandInto ⟨catalog, first, baseline⟩) activation =
        list.foldlM (expandInto ⟨catalog, second, baseline⟩) activation := by
    induction list generalizing activation with
    | nil => rfl
    | cons name rest ih =>
        obtain ⟨name_mem, rest_mem⟩ := List.forall_mem_cons.1 inside
        have same : expandInto ⟨catalog, first, baseline⟩ activation name =
            expandInto ⟨catalog, second, baseline⟩ activation name := by
          rw [expandInto, expandInto, agree.expand_eq name_mem]
        simp only [List.foldlM_cons, same, ih rest_mem]
  exact expanded active.names inside _

/-- Registries that agree on a set with the active names leave a character as it is while these are
    active. So nothing comes of a change to compositions that none of the reached ones mentions. -/
theorem alike_of_agreeOn (catalog : Catalog) (baseline : Baseline) (active : ActiveSet)
    (first second : Registry) :
    (∀ names : Set String, (∀ name ∈ active.names, name ∈ names) → first.AgreeOn second names →
        Alike ⟨catalog, first, baseline⟩ ⟨catalog, second, baseline⟩ active) ∧
      ((∀ name, first.Mentions active name → first.get? name = second.get? name) →
        Alike ⟨catalog, first, baseline⟩ ⟨catalog, second, baseline⟩ active) := by
  have alike (names : Set String) (inside : ∀ name ∈ active.names, name ∈ names)
      (agree : first.AgreeOn second names) :
      Alike ⟨catalog, first, baseline⟩ ⟨catalog, second, baseline⟩ active :=
    alike_of_presetState_eq rfl (presetState_eq_of_agreeOn agree inside catalog baseline)
  refine ⟨alike, fun same => ?_⟩
  obtain ⟨names, inside, agree⟩ := Registry.exists_agreeOn_iff.2 same
  exact alike names inside agree

/-- The compositions of the portrait in another order, between others that include them and
    themselves. -/
def crowded : Registry :=
  Registry.ofDefinitions [⟨"Loop", ["Sleepy", "Loop"]⟩, ⟨"Sleepy", ["Blink", "Hat-", "odd"]⟩,
    ⟨"Hat+Cap", ["Blink"]⟩, ⟨"Blink", ["Eyes>Shut"]⟩]

theorem agreeOn_crowded : portrait.registry.AgreeOn crowded {"Sleepy", "Blink"} where
  definitions := by
    rintro name (rfl | rfl) <;> decide
  parts := by
    rintro name (rfl | rfl) composition found part part_mem
    · have sleepy : portrait.registry.get? "Sleepy" =
          some ⟨"Sleepy", ["Blink", "Hat-", "odd"]⟩ := by decide
      obtain rfl := Option.some.inj (sleepy.symm.trans found)
      simp only [List.mem_cons, List.not_mem_nil, or_false] at part_mem
      rcases part_mem with rfl | rfl | rfl
      · exact ⟨by decide, fun _ => .inr rfl⟩
      · exact ⟨by decide, fun contained => absurd contained (by decide)⟩
      · exact ⟨by decide, fun contained => absurd contained (by decide)⟩
    · have blink : portrait.registry.get? "Blink" = some ⟨"Blink", ["Eyes>Shut"]⟩ := by decide
      obtain rfl := Option.some.inj (blink.symm.trans found)
      obtain rfl := List.mem_singleton.1 part_mem
      exact ⟨by decide, fun contained => absurd contained (by decide)⟩

/-- Among the others, one of which has no end, the portrait falls asleep as it does alone. -/
theorem alike_of_agreeOn_crowded :
    (∀ name ∈ (ActiveSet.ofList ["Sleepy"]).names, name ∈ ({"Sleepy", "Blink"} : Set String)) ∧
      portrait.registry.AgreeOn crowded {"Sleepy", "Blink"} ∧
      (∀ name, portrait.registry.Mentions (ActiveSet.ofList ["Sleepy"]) name →
        portrait.registry.get? name = crowded.get? name) ∧
      resolve ⟨portrait.catalog, crowded, portrait.baseline⟩ (ActiveSet.ofList ["Sleepy"])
          (Roster.ofList [("Eyes/Open", true)]) =
        .ok (Activation.ofList [("Eyes/Open", true), ("Eyes/Shut", true), ("Hat/Cap", false),
          ("Tail/Wag", true)]) ∧
      Alike portrait ⟨portrait.catalog, crowded, portrait.baseline⟩ (ActiveSet.ofList ["Sleepy"]) := by
  have inside : ∀ name ∈ (ActiveSet.ofList ["Sleepy"]).names,
      name ∈ ({"Sleepy", "Blink"} : Set String) := by
    intro name mem
    exact .inl (List.mem_singleton.1 mem)
  have same := Registry.exists_agreeOn_iff.1 ⟨_, inside, agreeOn_crowded⟩
  obtain ⟨by_set, by_mention⟩ := alike_of_agreeOn portrait.catalog portrait.baseline
    (ActiveSet.ofList ["Sleepy"]) portrait.registry crowded
  refine ⟨inside, agreeOn_crowded, same, ?_, by_mention same⟩
  exact ((by_set _ inside agreeOn_crowded).resolve _).symm.trans resolve_portrait

end Definitions

end LayerComposition
