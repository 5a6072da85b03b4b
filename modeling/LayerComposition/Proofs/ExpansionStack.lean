import LayerComposition.Proofs.Entering

/-! # The stack of an expansion

On every registry an expansion halts after finitely many turns. In each state on the way the
frames are those of the compositions being expanded, none of them twice, and each frame was opened
by the part that was taken last from the one below it.
-/

namespace LayerComposition

namespace Expansion

variable {catalog : Catalog} {registry : Registry} {state next : Expansion}

/-- A frame was opened by the part that was taken last from the frame below it. -/
def OpenedBy (upper lower : Frame) : Prop :=
  ∃ taken, lower.composition.parts[taken]? = some upper.composition.name ∧
    lower.pending = lower.composition.parts.drop (taken + 1)

/-- Frames and names in progress, both innermost first, stand for one path through the
    compositions of a registry. -/
structure Stacked (registry : Registry) (state : Expansion) : Prop where
  inProgress_eq : state.inProgress = state.frames.map (·.composition.name)
  distinct : state.inProgress.Nodup
  registered : ∀ frame ∈ state.frames,
    registry.get? frame.composition.name = some frame.composition
  /-- Of the parts of a frame's composition, the first ones have been taken. -/
  taken : ∀ frame ∈ state.frames, ∃ taken ≤ frame.composition.parts.length,
    frame.pending = frame.composition.parts.drop taken
  opened : state.frames.IsChain OpenedBy
  bounded : state.frames.length ≤ registry.size

theorem WellFormed.stacked (wellFormed : state.WellFormed registry)
    (opened : state.frames.IsChain OpenedBy) : state.Stacked registry where
  inProgress_eq := wellFormed.inProgress_eq
  distinct := wellFormed.nodup
  registered := fun frame mem => (wellFormed.registered frame mem).1
  taken := by
    intro frame mem
    obtain ⟨front, parts_eq⟩ := (wellFormed.registered frame mem).2
    refine ⟨front.length, ?_, ?_⟩
    · simp [← parts_eq]
    · rw [← parts_eq, List.drop_left]
  opened := opened
  bounded := wellFormed.length_frames_le

/-- Taking a part from a frame leaves what it was opened by. -/
theorem isChain_openedBy_of_taken {composition : Composition} {part : String}
    {pending : List String} {below : List Frame}
    (opened : (⟨composition, part :: pending⟩ :: below : List Frame).IsChain OpenedBy) :
    (⟨composition, pending⟩ :: below : List Frame).IsChain OpenedBy := by
  cases below with
  | nil => exact List.isChain_singleton _
  | cons lower rest =>
      obtain ⟨openedBy, opened⟩ := List.isChain_cons_cons.1 opened
      exact List.isChain_cons_cons.2 ⟨openedBy, opened⟩

theorem isChain_openedBy_step (wellFormed : state.WellFormed registry)
    (opened : state.frames.IsChain OpenedBy)
    (turn : step catalog registry state = .running next) : next.frames.IsChain OpenedBy := by
  have registered := wellFormed.registered
  cases advances_of_step turn with
  | close => exact opened.tail
  | @enter composition part pending below path activation inner classified =>
      refine List.isChain_cons_cons.2 ⟨?_, isChain_openedBy_of_taken opened⟩
      obtain ⟨front, parts_eq⟩ := (registered ⟨composition, part :: pending⟩ List.mem_cons_self).2
      have parts_eq : composition.parts = front ++ part :: pending := parts_eq.symm
      have named : inner.name = part := Registry.name_of_classify classified
      exact ⟨front.length, by simp [parts_eq, named], by simp [parts_eq]⟩
  | apply => exact isChain_openedBy_of_taken opened
  | pass => exact isChain_openedBy_of_taken opened

/-- Every state that turns lead to from a well-formed one has its frames in order. -/
theorem stacked_of_reaches (wellFormed : state.WellFormed registry)
    (opened : state.frames.IsChain OpenedBy) (reaches : Reaches catalog registry state next) :
    next.Stacked registry := by
  have kept : next.WellFormed registry ∧ next.frames.IsChain OpenedBy := by
    induction reaches with
    | refl => exact ⟨wellFormed, opened⟩
    | tail _ turn ih =>
        exact ⟨wellFormed_step ih.1 turn, isChain_openedBy_step ih.1 ih.2 turn⟩
  exact kept.1.stacked kept.2

/-- Turns lead from a well-formed state to one whose turn is the last, and that leaves the
    outcome. -/
theorem exists_reaches_halted (state : Expansion) (wellFormed : state.WellFormed registry) :
    ∃ last, Reaches catalog registry state last ∧
      step catalog registry last = .halted (run catalog registry state wellFormed) := by
  fun_induction run catalog registry state wellFormed with
  | case1 state wellFormed outcome turn => exact ⟨state, .refl, turn⟩
  | case2 state wellFormed next turn ih =>
      obtain ⟨last, reaches, halted⟩ := ih
      exact ⟨last, .head turn reaches, halted⟩

end Expansion

namespace Registry

/-- The work on the composition with a name passes through a state. -/
def Passes (registry : Registry) (catalog : Catalog) (name : String) (activation : Activation)
    (state : Expansion) : Prop :=
  ∃ composition, registry.get? name = some composition ∧
    Expansion.Reaches catalog registry (Expansion.start composition activation) state

/-- Expansion halts for every name of every registry, with cycles or without, and all states that
    it passes through have their frames in order and no more of them than there are
    compositions. -/
theorem expand_halts_stacked (registry : Registry) (catalog : Catalog) (name : String)
    (activation : Activation) :
    (registry.get? name = none ∧ registry.expand catalog name activation = ⟨activation, none⟩ ∨
        ∃ last, registry.Passes catalog name activation last ∧
          Expansion.step catalog registry last =
            .halted (registry.expand catalog name activation)) ∧
      ∀ state, registry.Passes catalog name activation state → state.Stacked registry := by
  constructor
  · cases found : registry.get? name with
    | none => exact .inl ⟨rfl, expand_of_get?_eq_none found activation⟩
    | some composition =>
        obtain ⟨last, reaches, halted⟩ := Expansion.exists_reaches_halted _
          (Expansion.wellFormed_start found activation)
        rw [← expand_of_get?_eq_some found] at halted
        exact .inr ⟨last, ⟨composition, found, reaches⟩, halted⟩
  · rintro state ⟨composition, found, reaches⟩
    exact Expansion.stacked_of_reaches (Expansion.wellFormed_start found activation)
      (List.isChain_singleton _) reaches

end Registry

end LayerComposition
