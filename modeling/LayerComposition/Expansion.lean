import LayerComposition.Cycle
import LayerComposition.Registry

/-! # Expansion

Expanding a composition applies its parts in order, going into the compositions among them.
The work is done on a stack of frames, so it is not limited by how deeply compositions nest.
A composition that is entered while it is still being expanded ends the work with a cycle.

`Expansion.step` is one turn of the work. It keeps `Expansion.WellFormed` and lowers
`Expansion.weight`, which is why `Expansion.run` comes to an end on every registry.
-/

namespace LayerComposition

/-- A composition that is being expanded, and its parts that are still to be taken. -/
structure Frame where
  composition : Composition
  pending : List String
  deriving Repr, DecidableEq

/-- The state of an expansion: the open frames and the names being expanded, innermost first,
    and what has been written so far. -/
structure Expansion where
  frames : List Frame
  inProgress : List String
  activation : Activation

namespace Expansion

/-- What an expansion leaves: all that was written before it ended, and the cycle that ended it
    early, if one did. -/
structure Outcome where
  activation : Activation
  cycle : Option Cycle

/-- The result of one turn. -/
inductive Turn where
  | running (next : Expansion)
  | halted (outcome : Outcome)

/-- The state in which a composition is about to be expanded. -/
def start (composition : Composition) (activation : Activation) : Expansion :=
  ⟨[⟨composition, composition.parts⟩], [composition.name], activation⟩

/-- Take the next part of the innermost frame, or close that frame if it has none. -/
def step (catalog : Catalog) (registry : Registry) (state : Expansion) : Turn :=
  match state.frames with
  | [] => .halted ⟨state.activation, none⟩
  | ⟨_, []⟩ :: below => .running ⟨below, state.inProgress.tail, state.activation⟩
  | ⟨composition, part :: pending⟩ :: below =>
      let frames := ⟨composition, pending⟩ :: below
      match registry.classify part with
      | .composition inner =>
          if inner.name ∈ state.inProgress then
            .halted ⟨state.activation, some (Cycle.close state.inProgress inner.name)⟩
          else
            .running ⟨⟨inner, inner.parts⟩ :: frames, inner.name :: state.inProgress,
              state.activation⟩
      | .op op => .running ⟨frames, state.inProgress, op.apply catalog state.activation⟩
      | .unknown => .running ⟨frames, state.inProgress, state.activation⟩

/-- How a turn goes on: it closes a frame that has no part left, opens one for a composition,
    applies an op, or passes over a part without a meaning. -/
inductive Advances (catalog : Catalog) (registry : Registry) : Expansion → Expansion → Prop where
  | close {composition below path activation} :
      Advances catalog registry ⟨⟨composition, []⟩ :: below, path, activation⟩
        ⟨below, path.tail, activation⟩
  | enter {composition part pending below path activation inner}
      (classified : registry.classify part = .composition inner) (fresh : inner.name ∉ path) :
      Advances catalog registry ⟨⟨composition, part :: pending⟩ :: below, path, activation⟩
        ⟨⟨inner, inner.parts⟩ :: ⟨composition, pending⟩ :: below, inner.name :: path, activation⟩
  | apply {composition part pending below path activation op}
      (classified : registry.classify part = .op op) :
      Advances catalog registry ⟨⟨composition, part :: pending⟩ :: below, path, activation⟩
        ⟨⟨composition, pending⟩ :: below, path, op.apply catalog activation⟩
  | pass {composition part pending below path activation}
      (classified : registry.classify part = .unknown) :
      Advances catalog registry ⟨⟨composition, part :: pending⟩ :: below, path, activation⟩
        ⟨⟨composition, pending⟩ :: below, path, activation⟩

theorem advances_of_step {catalog : Catalog} {registry : Registry} {state next : Expansion}
    (turn : step catalog registry state = .running next) :
    Advances catalog registry state next := by
  obtain ⟨frames, path, activation⟩ := state
  unfold step at turn
  split at turn
  · contradiction
  · rename_i frames_eq
    obtain rfl : frames = _ := frames_eq
    obtain rfl := Turn.running.inj turn
    exact .close
  · rename_i frames_eq
    obtain rfl : frames = _ := frames_eq
    split at turn
    · rename_i classified
      split at turn
      · contradiction
      · rename_i fresh
        obtain rfl := Turn.running.inj turn
        exact .enter classified fresh
    · rename_i classified
      obtain rfl := Turn.running.inj turn
      exact .apply classified
    · rename_i classified
      obtain rfl := Turn.running.inj turn
      exact .pass classified

/-- The names being expanded are those of the frames, none of them twice, and every frame holds
    a composition of the registry with the rest of its parts. -/
structure WellFormed (registry : Registry) (state : Expansion) : Prop where
  inProgress_eq : state.inProgress = state.frames.map (·.composition.name)
  nodup : state.inProgress.Nodup
  registered : ∀ frame ∈ state.frames,
    registry.get? frame.composition.name = some frame.composition ∧
      frame.pending <:+ frame.composition.parts

theorem wellFormed_start {registry : Registry} {name : String} {composition : Composition}
    (found : registry.get? name = some composition) (activation : Activation) :
    (start composition activation).WellFormed registry where
  inProgress_eq := rfl
  nodup := by simp [start]
  registered := by
    intro frame mem
    rw [List.mem_singleton.1 mem, Registry.name_of_get? found]
    exact ⟨found, List.suffix_refl _⟩

/-- A frame holds a composition of the registry with the rest of its parts also when a part is
    taken from it. -/
theorem registered_of_taken {registry : Registry} {composition : Composition} {part : String}
    {pending : List String} {below : List Frame}
    (registered : ∀ frame ∈ (⟨composition, part :: pending⟩ :: below : List Frame),
      registry.get? frame.composition.name = some frame.composition ∧
        frame.pending <:+ frame.composition.parts) :
    ∀ frame ∈ (⟨composition, pending⟩ :: below : List Frame),
      registry.get? frame.composition.name = some frame.composition ∧
        frame.pending <:+ frame.composition.parts := by
  intro frame mem
  rcases List.mem_cons.1 mem with rfl | mem
  · obtain ⟨found, suffix⟩ := registered _ List.mem_cons_self
    exact ⟨found, (List.suffix_cons part pending).trans suffix⟩
  · exact registered frame (List.mem_cons_of_mem _ mem)

theorem wellFormed_step {catalog : Catalog} {registry : Registry} {state next : Expansion}
    (wellFormed : state.WellFormed registry)
    (turn : step catalog registry state = .running next) : next.WellFormed registry := by
  obtain ⟨inProgress_eq, nodup, registered⟩ := wellFormed
  cases advances_of_step turn with
  | close =>
      refine ⟨congrArg List.tail inProgress_eq, nodup.sublist (List.tail_sublist _), ?_⟩
      intro frame mem
      exact registered frame (List.mem_cons_of_mem _ mem)
  | enter classified fresh =>
      refine ⟨congrArg (List.cons _) inProgress_eq, List.nodup_cons.2 ⟨fresh, nodup⟩, ?_⟩
      intro frame mem
      rcases List.mem_cons.1 mem with rfl | mem
      · have found := Registry.get?_of_classify classified
        exact ⟨(Registry.name_of_get? found) ▸ found, List.suffix_refl _⟩
      · exact registered_of_taken registered frame mem
  | apply => exact ⟨inProgress_eq, nodup, registered_of_taken registered⟩
  | pass => exact ⟨inProgress_eq, nodup, registered_of_taken registered⟩

/-- A bound on the turns that one part can take while that many frames fit above its own: as
    many as the parts of any composition with one frame less above them, and two more. -/
def reach (registry : Registry) : (room : Nat) → Nat
  | 0 => 1
  | room + 1 => (registry.longest + 2) * reach registry room

/-- A bound on the turns that frames can still take: a part weighs more than all the frames
    that could be opened above it. -/
def weight (registry : Registry) : List Frame → Nat
  | [] => 0
  | frame :: below =>
      (frame.pending.length + 1) * reach registry (registry.size - below.length) +
        weight registry below

theorem reach_pos (registry : Registry) (room : Nat) : 0 < reach registry room := by
  induction room with
  | zero => exact Nat.one_pos
  | succ room ih => exact Nat.mul_pos (by omega) ih

/-- There are never more frames than compositions. -/
theorem WellFormed.length_frames_le {registry : Registry} {state : Expansion}
    (wellFormed : state.WellFormed registry) : state.frames.length ≤ registry.size := by
  have subset : state.inProgress ⊆ registry.names := fun name mem => by
    rw [wellFormed.inProgress_eq] at mem
    obtain ⟨frame, frame_mem, rfl⟩ := List.mem_map.1 mem
    exact Registry.mem_names_of_get? (wellFormed.registered frame frame_mem).1
  have le := wellFormed.nodup.length_le_of_subset subset
  rw [wellFormed.inProgress_eq, List.length_map] at le
  simpa [Registry.names, Roster.keys, Registry.size, Roster.size] using le

theorem weight_step_lt {catalog : Catalog} {registry : Registry} {state next : Expansion}
    (wellFormed : state.WellFormed registry)
    (turn : step catalog registry state = .running next) :
    weight registry next.frames < weight registry state.frames := by
  have bound := wellFormed.length_frames_le
  cases advances_of_step turn with
  | @close composition below =>
      have := reach_pos registry (registry.size - below.length)
      simp only [weight, List.length_nil]
      omega
  | @enter composition part pending below path activation inner classified =>
      have parts_le := Registry.length_parts_le_longest (Registry.get?_of_classify classified)
      simp only [List.length_cons] at bound
      -- The frame below keeps room for at least one more above it.
      obtain ⟨above, above_eq⟩ : ∃ above, registry.size - below.length = above + 1 :=
        ⟨registry.size - below.length - 1, by omega⟩
      have above_eq' : registry.size - (below.length + 1) = above := by omega
      have inner_lt : (inner.parts.length + 1) * reach registry above <
          reach registry (above + 1) :=
        Nat.mul_lt_mul_of_pos_right (by omega) (reach_pos registry above)
      simp only [weight, List.length_cons, above_eq, above_eq', Nat.add_mul] at *
      omega
  | @apply composition part pending below =>
      have := reach_pos registry (registry.size - below.length)
      simp only [weight, List.length_cons, Nat.add_mul]
      omega
  | @pass composition part pending below =>
      have := reach_pos registry (registry.size - below.length)
      simp only [weight, List.length_cons, Nat.add_mul]
      omega

def run (catalog : Catalog) (registry : Registry) (state : Expansion)
    (wellFormed : state.WellFormed registry) : Outcome :=
  match turn : step catalog registry state with
  | .halted outcome => outcome
  | .running next => run catalog registry next (wellFormed_step wellFormed turn)
termination_by weight registry state.frames
decreasing_by exact weight_step_lt wellFormed turn

end Expansion

/-- Expand the composition with a name into an activation. A name without a composition leaves
    the activation as it is. -/
def Registry.expand (registry : Registry) (catalog : Catalog) (name : String)
    (activation : Activation) : Expansion.Outcome :=
  match found : registry.get? name with
  | none => ⟨activation, none⟩
  | some composition =>
      Expansion.run catalog registry (Expansion.start composition activation)
        (Expansion.wellFormed_start found activation)

theorem Registry.expand_of_get?_eq_some {registry : Registry} {catalog : Catalog} {name : String}
    {composition : Composition} (found : registry.get? name = some composition)
    (activation : Activation) :
    registry.expand catalog name activation =
      Expansion.run catalog registry (Expansion.start composition activation)
        (Expansion.wellFormed_start found activation) := by
  unfold expand
  split
  · rename_i missing
    exact nomatch found.symm.trans missing
  · rename_i other found'
    obtain rfl := Option.some.inj (found.symm.trans found')
    rfl

/-- A name without a composition expands to nothing. -/
theorem Registry.expand_of_get?_eq_none {registry : Registry} {catalog : Catalog} {name : String}
    (missing : registry.get? name = none) (activation : Activation) :
    registry.expand catalog name activation = ⟨activation, none⟩ := by
  unfold expand
  split
  · rfl
  · rename_i found
    exact nomatch missing.symm.trans found

end LayerComposition
