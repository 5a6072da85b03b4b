import LayerComposition.ReferenceGraph.Search

/-! # Depth-first search

What a search finds, said without its stack: references are followed in order, and a node that is
entered has all of its references followed before the next one is. `Follows.unique` says that this
settles what is found, and `Search.run_start_eq_iff` that the frames of a search find it.
-/

namespace LayerComposition.ReferenceGraph

/-- Following references from a node to targets, on a path on which the nodes `above` have led to
    it, leads from one walk to another. -/
inductive Follows (graph : ReferenceGraph) :
    (node : String) → (above targets : List String) → Walk → Walk → Prop where
  /-- Nothing is left to follow. -/
  | done {node above walk} : Follows graph node above [] walk walk
  /-- A reference leads back into the path. -/
  | report {node above target targets walk final} (entered : target ∈ node :: above)
      (after : Follows graph node above targets
        (walk.report (Cycle.close (node :: above) target)) final) :
      Follows graph node above (target :: targets) walk final
  /-- A reference leads to a node that was left. -/
  | pass {node above target targets walk final} (off : target ∉ node :: above)
      (visited : target ∈ walk.visited) (after : Follows graph node above targets walk final) :
      Follows graph node above (target :: targets) walk final
  /-- A reference leads to a node that is entered. -/
  | enter {node above target targets walk between final} (off : target ∉ node :: above)
      (unvisited : target ∉ walk.visited)
      (within : Follows graph target (node :: above) (graph.references target)
        (walk.enter target) between)
      (after : Follows graph node above targets between final) :
      Follows graph node above (target :: targets) walk final

/-- Following references leads to one walk. -/
theorem Follows.unique {graph : ReferenceGraph} {node : String} {above targets : List String}
    {walk first second : Walk} (firstRun : Follows graph node above targets walk first)
    (secondRun : Follows graph node above targets walk second) : first = second := by
  induction firstRun generalizing second with
  | done =>
      cases secondRun
      rfl
  | report entered _ ih =>
      cases secondRun with
      | report _ after => exact ih after
      | pass off _ _ => exact absurd entered off
      | enter off _ _ _ => exact absurd entered off
  | pass off visited _ ih =>
      cases secondRun with
      | report entered _ => exact absurd entered off
      | pass _ _ after => exact ih after
      | enter _ unvisited _ _ => exact absurd visited unvisited
  | enter off unvisited _ _ withinIh afterIh =>
      cases secondRun with
      | report entered _ => exact absurd entered off
      | pass _ visited _ => exact absurd visited unvisited
      | enter _ _ within after =>
          obtain rfl := withinIh within
          exact afterIh after

namespace Search

/-- What the frames of a stack still come to: the rest of the innermost one, then those below. -/
inductive Unwinds (graph : ReferenceGraph) : List Frame → Walk → Walk → Prop where
  | empty {walk} : Unwinds graph [] walk walk
  | frame {frame below walk between final}
      (rest : Follows graph frame.node (below.map (·.node)) frame.pending walk between)
      (under : Unwinds graph below between final) : Unwinds graph (frame :: below) walk final

variable {graph : ReferenceGraph} {search next : Search} {final : Walk}

/-- A turn leaves a stack that comes to the same. -/
theorem unwinds_of_step (wellFormed : search.WellFormed graph)
    (turn : step graph search = some next) (unwinds : Unwinds graph next.frames next.walk final) :
    Unwinds graph search.frames search.walk final := by
  have path_eq := wellFormed.path_eq
  cases advances_of_step turn with
  | close => exact .frame .done unwinds
  | report entered =>
      simp only at path_eq
      subst path_eq
      cases unwinds with
      | frame rest under => exact .frame (.report entered rest) under
  | pass off visited =>
      simp only at path_eq
      subst path_eq
      cases unwinds with
      | frame rest under => exact .frame (.pass off visited rest) under
  | enter off unvisited =>
      simp only at path_eq
      subst path_eq
      cases unwinds with
      | frame within under =>
          cases under with
          | frame rest under => exact .frame (.enter off unvisited within rest) under

/-- Taking turns to the end leaves what the stack comes to. -/
theorem unwinds_run (search : Search) (wellFormed : search.WellFormed graph) :
    Unwinds graph search.frames search.walk (run graph search wellFormed) := by
  fun_induction run graph search wellFormed with
  | case1 search wellFormed ended =>
      rw [frames_eq_nil_of_step ended]
      exact .empty
  | case2 search wellFormed next turn ih => exact unwinds_of_step wellFormed turn ih

/-- A search from a node finds what following its references finds. -/
theorem run_start_eq_iff {node : String} {walk : Walk} :
    run graph (start graph node walk) (wellFormed_start graph node walk) = final ↔
      Follows graph node [] (graph.references node) (walk.enter node) final := by
  have follows : Follows graph node [] (graph.references node) (walk.enter node)
      (run graph (start graph node walk) (wellFormed_start graph node walk)) := by
    have unwinds : Unwinds graph [⟨node, graph.references node⟩] (walk.enter node) _ :=
      unwinds_run _ (wellFormed_start graph node walk)
    cases unwinds with
    | frame rest under =>
        cases under
        exact rest
  exact ⟨fun same => same ▸ follows, fun other => follows.unique other⟩

end Search

/-- Searching from a node leaves the walk as it is, or follows the references of the node. -/
theorem searchFrom_cases (graph : ReferenceGraph) (walk : Walk) (node : String) :
    node ∈ walk.visited ∧ graph.searchFrom walk node = walk ∨
      node ∉ walk.visited ∧ Follows graph node [] (graph.references node) (walk.enter node)
        (graph.searchFrom walk node) := by
  unfold searchFrom
  split
  · rename_i visited
    exact .inl ⟨visited, rfl⟩
  · rename_i unvisited
    exact .inr ⟨unvisited, Search.run_start_eq_iff.1 rfl⟩

end LayerComposition.ReferenceGraph
