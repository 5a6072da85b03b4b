import LayerComposition.Expansion

/-! # Depth-first expansion

What an expansion means, said without its stack: parts are taken in order, a part that is the name
of a composition is expanded in its place, any other part that is the text of an op is applied, and
coming back to a composition that is being expanded ends everything. `DepthFirst.unique` says that
this settles the outcome, and `Registry.expand_eq_iff` that `Registry.expand` computes it.
-/

namespace LayerComposition

/-- Expanding parts inside the compositions of `path`, innermost first, from an activation has
    an outcome. -/
inductive DepthFirst (catalog : Catalog) (registry : Registry) :
    (path parts : List String) → Activation → Expansion.Outcome → Prop where
  /-- Nothing is left to do. -/
  | done {path activation} :
      DepthFirst catalog registry path [] activation ⟨activation, none⟩
  /-- An op is applied. -/
  | op {path part parts activation op outcome}
      (unnamed : registry.get? part = none) (reads : Op.read? part = some op)
      (after : DepthFirst catalog registry path parts (op.apply catalog activation) outcome) :
      DepthFirst catalog registry path (part :: parts) activation outcome
  /-- A part without a meaning is passed over. -/
  | unknown {path part parts activation outcome}
      (unnamed : registry.get? part = none) (refused : Op.read? part = none)
      (after : DepthFirst catalog registry path parts activation outcome) :
      DepthFirst catalog registry path (part :: parts) activation outcome
  /-- A composition is expanded, then the parts behind it. -/
  | composition {path part parts activation inner between outcome}
      (found : registry.get? part = some inner) (fresh : part ∉ path)
      (within : DepthFirst catalog registry (part :: path) inner.parts activation ⟨between, none⟩)
      (after : DepthFirst catalog registry path parts between outcome) :
      DepthFirst catalog registry path (part :: parts) activation outcome
  /-- A composition is expanded and ends with a cycle, which ends all. -/
  | cycleWithin {path part parts activation inner between cycle}
      (found : registry.get? part = some inner) (fresh : part ∉ path)
      (within : DepthFirst catalog registry (part :: path) inner.parts activation
        ⟨between, some cycle⟩) :
      DepthFirst catalog registry path (part :: parts) activation ⟨between, some cycle⟩
  /-- A composition is being expanded already. -/
  | cycle {path part parts activation inner}
      (found : registry.get? part = some inner) (entered : part ∈ path) :
      DepthFirst catalog registry path (part :: parts) activation
        ⟨activation, some (Cycle.close path part)⟩

namespace DepthFirst

variable {catalog : Catalog} {registry : Registry}

/-- Expansion has one outcome. -/
theorem unique {path parts : List String} {activation : Activation}
    {first second : Expansion.Outcome}
    (firstRun : DepthFirst catalog registry path parts activation first)
    (secondRun : DepthFirst catalog registry path parts activation second) :
    first = second := by
  induction firstRun generalizing second with
  | done =>
      cases secondRun
      rfl
  | op unnamed reads _ ih =>
      cases secondRun with
      | op _ other after =>
          obtain rfl := Option.some.inj (reads.symm.trans other)
          exact ih after
      | unknown _ refused _ => exact nomatch reads.symm.trans refused
      | composition found _ _ _ => exact nomatch found.symm.trans unnamed
      | cycleWithin found _ _ => exact nomatch found.symm.trans unnamed
      | cycle found _ => exact nomatch found.symm.trans unnamed
  | unknown unnamed refused _ ih =>
      cases secondRun with
      | op _ reads _ => exact nomatch reads.symm.trans refused
      | unknown _ _ after => exact ih after
      | composition found _ _ _ => exact nomatch found.symm.trans unnamed
      | cycleWithin found _ _ => exact nomatch found.symm.trans unnamed
      | cycle found _ => exact nomatch found.symm.trans unnamed
  | composition found fresh _ _ withinIh afterIh =>
      cases secondRun with
      | op unnamed _ _ => exact nomatch found.symm.trans unnamed
      | unknown unnamed _ _ => exact nomatch found.symm.trans unnamed
      | composition other _ within after =>
          obtain rfl := Option.some.inj (found.symm.trans other)
          obtain ⟨rfl, _⟩ := Expansion.Outcome.mk.inj (withinIh within)
          exact afterIh after
      | cycleWithin other _ within =>
          obtain rfl := Option.some.inj (found.symm.trans other)
          exact nomatch (Expansion.Outcome.mk.inj (withinIh within)).2
      | cycle _ entered => exact absurd entered fresh
  | cycleWithin found fresh _ withinIh =>
      cases secondRun with
      | op unnamed _ _ => exact nomatch found.symm.trans unnamed
      | unknown unnamed _ _ => exact nomatch found.symm.trans unnamed
      | composition other _ within _ =>
          obtain rfl := Option.some.inj (found.symm.trans other)
          exact nomatch (Expansion.Outcome.mk.inj (withinIh within)).2
      | cycleWithin other _ within =>
          obtain rfl := Option.some.inj (found.symm.trans other)
          exact withinIh within
      | cycle _ entered => exact absurd entered fresh
  | cycle found entered =>
      cases secondRun with
      | op unnamed _ _ => exact nomatch found.symm.trans unnamed
      | unknown unnamed _ _ => exact nomatch found.symm.trans unnamed
      | composition _ fresh _ _ => exact absurd entered fresh
      | cycleWithin _ fresh _ => exact absurd entered fresh
      | cycle _ _ => rfl

end DepthFirst

namespace Expansion

/-- What the frames of a stack still amount to: the rest of the innermost one, then, unless that
    ends with a cycle, those below it. -/
inductive Unwinds (catalog : Catalog) (registry : Registry) :
    List Frame → Activation → Outcome → Prop where
  | empty {activation} : Unwinds catalog registry [] activation ⟨activation, none⟩
  | frame {frame below activation between outcome}
      (rest : DepthFirst catalog registry ((frame :: below).map (·.composition.name))
        frame.pending activation ⟨between, none⟩)
      (under : Unwinds catalog registry below between outcome) :
      Unwinds catalog registry (frame :: below) activation outcome
  | cycle {frame below activation between cycle}
      (rest : DepthFirst catalog registry ((frame :: below).map (·.composition.name))
        frame.pending activation ⟨between, some cycle⟩) :
      Unwinds catalog registry (frame :: below) activation ⟨between, some cycle⟩

variable {catalog : Catalog} {registry : Registry}

theorem Unwinds.of_single {frame : Frame} {activation : Activation} {outcome : Outcome}
    (unwinds : Unwinds catalog registry [frame] activation outcome) :
    DepthFirst catalog registry [frame.composition.name] frame.pending activation outcome := by
  cases unwinds with
  | frame rest under =>
      cases under
      exact rest
  | cycle rest => exact rest

/-- A turn that halts leaves what the stack amounts to. -/
theorem unwinds_of_halted {state : Expansion} {outcome : Outcome}
    (wellFormed : state.WellFormed registry)
    (turn : step catalog registry state = .halted outcome) :
    Unwinds catalog registry state.frames state.activation outcome := by
  unfold step at turn
  split at turn
  · rename_i frames_eq
    obtain rfl := Turn.halted.inj turn
    rw [frames_eq]
    exact .empty
  · contradiction
  · rename_i composition part pending below frames_eq
    split at turn
    · rename_i inner classified
      split at turn
      · rename_i entered
        obtain rfl := Turn.halted.inj turn
        have path_eq := wellFormed.inProgress_eq
        rw [frames_eq] at path_eq ⊢
        rw [path_eq] at entered ⊢
        obtain rfl := Registry.name_of_classify classified
        exact .cycle (.cycle (Registry.get?_of_classify classified) entered)
      · contradiction
    all_goals contradiction

/-- A turn leaves a stack that amounts to the same. -/
theorem unwinds_of_running {state next : Expansion} {outcome : Outcome}
    (wellFormed : state.WellFormed registry)
    (turn : step catalog registry state = .running next)
    (unwinds : Unwinds catalog registry next.frames next.activation outcome) :
    Unwinds catalog registry state.frames state.activation outcome := by
  have path_eq := wellFormed.inProgress_eq
  cases advances_of_step turn with
  | close => exact .frame .done unwinds
  | enter classified fresh =>
      obtain rfl := Registry.name_of_classify classified
      have found := Registry.get?_of_classify classified
      simp only at path_eq
      rw [path_eq] at fresh
      cases unwinds with
      | frame within under =>
          cases under with
          | frame rest under => exact .frame (.composition found fresh within rest) under
          | cycle rest => exact .cycle (.composition found fresh within rest)
      | cycle within => exact .cycle (.cycleWithin found fresh within)
  | apply classified =>
      obtain ⟨unnamed, reads⟩ := Registry.classify_eq_op_iff.1 classified
      cases unwinds with
      | frame rest under => exact .frame (.op unnamed reads rest) under
      | cycle rest => exact .cycle (.op unnamed reads rest)
  | pass classified =>
      obtain ⟨unnamed, refused⟩ := Registry.classify_eq_unknown_iff.1 classified
      cases unwinds with
      | frame rest under => exact .frame (.unknown unnamed refused rest) under
      | cycle rest => exact .cycle (.unknown unnamed refused rest)

/-- Taking turns to the end leaves what the stack amounts to. -/
theorem unwinds_run (state : Expansion) (wellFormed : state.WellFormed registry) :
    Unwinds catalog registry state.frames state.activation
      (run catalog registry state wellFormed) := by
  fun_induction run catalog registry state wellFormed with
  | case1 state wellFormed outcome turn => exact unwinds_of_halted wellFormed turn
  | case2 state wellFormed next turn ih => exact unwinds_of_running wellFormed turn ih

end Expansion

namespace Registry

/-- The expansion of a composition has the depth-first outcome of its parts. -/
theorem expand_eq_iff {registry : Registry} {catalog : Catalog} {name : String}
    {composition : Composition} (found : registry.get? name = some composition)
    (activation : Activation) (outcome : Expansion.Outcome) :
    registry.expand catalog name activation = outcome ↔
      DepthFirst catalog registry [name] composition.parts activation outcome := by
  have depthFirst : DepthFirst catalog registry [name] composition.parts activation
      (registry.expand catalog name activation) := by
    rw [expand_of_get?_eq_some found]
    have unwinds : Expansion.Unwinds catalog registry _ _ _ :=
      Expansion.unwinds_run _ (Expansion.wellFormed_start found activation)
    obtain rfl := name_of_get? found
    exact unwinds.of_single
  exact ⟨fun eq => eq ▸ depthFirst, fun other => depthFirst.unique other⟩

end Registry

end LayerComposition
