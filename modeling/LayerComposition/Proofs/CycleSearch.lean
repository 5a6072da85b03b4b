import LayerComposition.Proofs.Cycle
import LayerComposition.ReferenceGraph.DepthFirst

/-! # The search for cycles

The search of a reference graph enters every node once, so most paths are never taken. It
reports closed paths only, and it reports one wherever there is one: apart from the references
that close reported cycles, every node that the search has left is accessible against the
references, and such a node is on no cycle. All of this is proved of following references, which is
what the frames of the search come to.
-/

namespace LayerComposition.ReferenceGraph

/-- A graph has a reference from one composition to another. -/
def Refers (graph : ReferenceGraph) (source target : String) : Prop :=
  (source, target) ∈ graph.edges

/-- A reference of the graph that closes none of the reported cycles. -/
def Keeps (graph : ReferenceGraph) (reported : List Cycle) (source target : String) : Prop :=
  graph.Refers source target ∧ some (source, target) ∉ reported.map Cycle.closing?

/-- A node with no infinite sequence out of it of references that close no reported cycle. -/
abbrev Grounded (graph : ReferenceGraph) (reported : List Cycle) (node : String) : Prop :=
  Acc (fun target source => graph.Keeps reported source target) node

variable {graph : ReferenceGraph}

theorem mem_references {source target : String} :
    target ∈ graph.references source ↔ graph.Refers source target := by
  simp [references, Refers]

/-! ## Paths -/

/-- The path of a walk, innermost node first. -/
structure IsPath (graph : ReferenceGraph) (path : List String) : Prop where
  linked : path.IsChain fun inner outer => graph.Refers outer inner
  nodup : path.Nodup
  subset : path ⊆ graph.nodes

theorem isPath_singleton {node : String} (mem : node ∈ graph.nodes) : graph.IsPath [node] :=
  ⟨List.isChain_singleton node, List.nodup_singleton node, by simpa using mem⟩

theorem IsPath.enter {node target : String} {above : List String}
    (isPath : graph.IsPath (node :: above)) (refers : graph.Refers node target)
    (fresh : target ∉ node :: above) : graph.IsPath (target :: node :: above) where
  linked := List.isChain_cons_cons.2 ⟨refers, isPath.linked⟩
  nodup := List.nodup_cons.2 ⟨fresh, isPath.nodup⟩
  subset := List.cons_subset.2 ⟨(graph.ends_mem _ refers).2, isPath.subset⟩

/-- What a walk reports is a closed path. -/
theorem IsPath.traces_close {node target : String} {above : List String}
    (isPath : graph.IsPath (node :: above)) (refers : graph.Refers node target)
    (entered : target ∈ node :: above) :
    Cycle.Traces graph.Refers (Cycle.close (node :: above) target) := by
  have nodup : (node :: above).reverse.Nodup := List.nodup_reverse.2 isPath.nodup
  have entered' : target ∈ (node :: above).reverse := List.mem_reverse.2 entered
  have closes := Cycle.close_reverse nodup entered'
  rw [List.reverse_reverse] at closes
  rw [closes]
  refine Cycle.traces_of_return (List.isChain_reverse.2 isPath.linked) nodup entered' ?_
  intro last last_mem
  obtain rfl : node = last := by simpa using last_mem
  exact refers

/-! ## Reported cycles are closed paths -/

/-- All that a walk has reported so far is a closed path. -/
def Walk.Sound (graph : ReferenceGraph) (walk : Walk) : Prop :=
  ∀ cycle ∈ walk.cycles, Cycle.Traces graph.Refers cycle

theorem Follows.sound {node : String} {above targets : List String} {walk final : Walk}
    (follows : graph.Follows node above targets walk final) (isPath : graph.IsPath (node :: above))
    (refers : ∀ target ∈ targets, graph.Refers node target) (sound : walk.Sound graph) :
    final.Sound graph := by
  induction follows with
  | done => exact sound
  | report entered _ ih =>
      obtain ⟨target_refers, refers⟩ := List.forall_mem_cons.1 refers
      refine ih isPath refers fun cycle mem => ?_
      rcases List.mem_append.1 mem with old | new
      · exact sound cycle old
      · rw [List.mem_singleton.1 new]
        exact isPath.traces_close target_refers entered
  | pass _ _ _ ih => exact ih isPath (List.forall_mem_cons.1 refers).2 sound
  | enter off _ _ _ withinIh afterIh =>
      obtain ⟨target_refers, refers⟩ := List.forall_mem_cons.1 refers
      have below := withinIh (isPath.enter target_refers off)
        (fun other mem => mem_references.1 mem) sound
      exact afterIh isPath refers below

/-- Every reported cycle is a closed path of references. -/
theorem traces_of_mem_cycles {cycle : Cycle} (mem : cycle ∈ graph.cycles) :
    Cycle.Traces graph.Refers cycle := by
  have sound : (graph.nodes.foldl graph.searchFrom ⟨[], []⟩).Sound graph := by
    apply List.foldlRecOn _ _ (by simp [Walk.Sound])
    intro walk sound start start_mem
    rcases graph.searchFrom_cases walk start with ⟨-, same⟩ | ⟨-, follows⟩
    · rw [same]
      exact sound
    · exact follows.sound (isPath_singleton start_mem) (fun other mem => mem_references.1 mem) sound
  exact sound cycle mem

/-! ## Without the references that close reported cycles there is no cycle -/

theorem Follows.cycles_prefix {node : String} {above targets : List String} {walk final : Walk}
    (follows : graph.Follows node above targets walk final) : walk.cycles <+: final.cycles := by
  induction follows with
  | done => exact List.prefix_refl _
  | report _ _ ih => exact (List.prefix_append _ _).trans ih
  | pass _ _ _ ih => exact ih
  | enter _ _ _ _ withinIh afterIh => exact withinIh.trans afterIh

theorem cycles_searchFrom_prefix (graph : ReferenceGraph) (walk : Walk) (start : String) :
    walk.cycles <+: (graph.searchFrom walk start).cycles := by
  rcases graph.searchFrom_cases walk start with ⟨-, same⟩ | ⟨-, follows⟩
  · simp only [same, List.prefix_refl]
  · exact follows.cycles_prefix

theorem cycles_foldl_searchFrom_prefix (graph : ReferenceGraph) (starts : List String)
    (walk : Walk) : walk.cycles <+: (starts.foldl graph.searchFrom walk).cycles := by
  induction starts generalizing walk with
  | nil => exact List.prefix_refl _
  | cons start rest ih =>
      rw [List.foldl_cons]
      exact (graph.cycles_searchFrom_prefix walk start).trans (ih _)

variable {reported : List Cycle}

/-- Every node that was visited is on the path or grounded. -/
def Walk.Settled (graph : ReferenceGraph) (reported : List Cycle) (path : List String)
    (walk : Walk) : Prop :=
  ∀ node ∈ walk.visited, node ∈ path ∨ graph.Grounded reported node

theorem Walk.Settled.enter {path : List String} {walk : Walk}
    (settled : walk.Settled graph reported path) (target : String) :
    (walk.enter target).Settled graph reported (target :: path) := by
  intro node mem
  rcases List.mem_cons.1 mem with rfl | mem
  · exact .inl List.mem_cons_self
  · exact (settled node mem).imp_left (List.mem_cons_of_mem _)

theorem Walk.Settled.leave {node : String} {above : List String} {walk : Walk}
    (settled : walk.Settled graph reported (node :: above))
    (grounded : graph.Grounded reported node) : walk.Settled graph reported above := by
  intro other mem
  rcases settled other mem with on_path | other_grounded
  · rcases List.mem_cons.1 on_path with rfl | on_path
    · exact .inr grounded
    · exact .inl on_path
  · exact .inr other_grounded

/-- A node is grounded if all nodes are that it refers to without closing a reported cycle. -/
theorem grounded_of_references {node : String}
    (grounded : ∀ target ∈ graph.references node,
      graph.Keeps reported node target → graph.Grounded reported target) :
    graph.Grounded reported node :=
  .intro node fun target keeps => grounded target (mem_references.2 keeps.1) keeps

/-- Following references grounds the nodes they lead to, and leaves only grounded nodes behind, if
    all that has been closed by then is among the reported cycles. -/
theorem Follows.grounds {node : String} {above targets : List String} {walk final : Walk}
    (follows : graph.Follows node above targets walk final)
    (settled : walk.Settled graph reported (node :: above)) (known : final.cycles ⊆ reported) :
    (∀ target ∈ targets, graph.Keeps reported node target → graph.Grounded reported target) ∧
      final.Settled graph reported (node :: above) := by
  induction follows with
  | done => exact ⟨by simp, settled⟩
  | @report node above target _ _ _ _ after ih =>
      obtain ⟨rest_grounded, settled⟩ := ih settled known
      refine ⟨List.forall_mem_cons.2 ⟨fun keeps => ?_, rest_grounded⟩, settled⟩
      have closed : Cycle.close (node :: above) target ∈ reported :=
        known (after.cycles_prefix.subset (List.mem_append_right _ (List.mem_singleton_self _)))
      have closes : some (node, target) ∈ reported.map Cycle.closing? :=
        List.mem_map.2 ⟨_, closed, Cycle.closing?_close node above target⟩
      exact absurd closes keeps.2
  | @pass _ _ target _ _ _ off visited _ ih =>
      obtain ⟨rest_grounded, after_settled⟩ := ih settled known
      -- A visited node off the path has been left, so it is grounded.
      have grounded := (settled target visited).resolve_left off
      exact ⟨List.forall_mem_cons.2 ⟨fun _ => grounded, rest_grounded⟩, after_settled⟩
  | @enter _ _ target _ _ _ _ _ _ _ after withinIh afterIh =>
      have early := List.Subset.trans after.cycles_prefix.subset known
      obtain ⟨targets_grounded, settled⟩ := withinIh (settled.enter target) early
      have grounded := grounded_of_references targets_grounded
      obtain ⟨rest_grounded, settled⟩ := afterIh (settled.leave grounded) known
      exact ⟨List.forall_mem_cons.2 ⟨fun _ => grounded, rest_grounded⟩, settled⟩

/-- Searching from a node grounds it. -/
theorem grounded_searchFrom {walk : Walk} (settled : walk.Settled graph reported [])
    (start : String) (known : (graph.searchFrom walk start).cycles ⊆ reported) :
    graph.Grounded reported start ∧ (graph.searchFrom walk start).Settled graph reported [] := by
  rcases graph.searchFrom_cases walk start with ⟨visited, same⟩ | ⟨-, follows⟩
  · rw [same]
    exact ⟨(settled start visited).resolve_left List.not_mem_nil, settled⟩
  · obtain ⟨targets_grounded, settled⟩ := follows.grounds (settled.enter start) known
    have grounded := grounded_of_references targets_grounded
    exact ⟨grounded, settled.leave grounded⟩

private theorem grounded_foldl_searchFrom {walk : Walk} (settled : walk.Settled graph reported [])
    (starts : List String) (known : (starts.foldl graph.searchFrom walk).cycles ⊆ reported) :
    ∀ start ∈ starts, graph.Grounded reported start := by
  induction starts generalizing walk with
  | nil => simp
  | cons start rest ih =>
      rw [List.foldl_cons] at known
      have later := graph.cycles_foldl_searchFrom_prefix rest (graph.searchFrom walk start)
      obtain ⟨grounded, settled⟩ :=
        grounded_searchFrom settled start (List.Subset.trans later.subset known)
      exact List.forall_mem_cons.2 ⟨grounded, ih settled known⟩

/-- Every node is grounded when the search has ended. -/
theorem grounded_cycles {node : String} (mem : node ∈ graph.nodes) :
    graph.Grounded graph.cycles node := by
  have settled : Walk.Settled graph graph.cycles [] ⟨[], []⟩ := by simp [Walk.Settled]
  exact grounded_foldl_searchFrom settled graph.nodes (List.Subset.refl _) node mem

/-- Without the references that close reported cycles, no composition reaches itself. -/
theorem not_transGen_keeps_cycles (graph : ReferenceGraph) (node : String) :
    ¬Relation.TransGen (graph.Keeps graph.cycles) node node := by
  intro around
  obtain ⟨target, step, _⟩ := Relation.TransGen.head'_iff.1 around
  exact Cycle.not_transGen_of_acc (grounded_cycles (graph.ends_mem _ step.1).1) around

/-- The search reports nothing exactly if no composition reaches itself. -/
theorem cycles_eq_nil_iff :
    graph.cycles = [] ↔ ∀ node, ¬Relation.TransGen graph.Refers node node := by
  constructor
  · intro clean node around
    have kept : ∀ source target, graph.Refers source target →
        graph.Keeps graph.cycles source target := by
      intro source target refers
      exact ⟨refers, by simp [clean]⟩
    exact graph.not_transGen_keeps_cycles node (Relation.TransGen.mono kept _ _ around)
  · intro acyclic
    apply List.eq_nil_iff_forall_not_mem.2
    intro cycle mem
    obtain ⟨node, around⟩ := (traces_of_mem_cycles mem).exists_transGen
    exact acyclic node around

/-- In a graph without references there is nothing to find. -/
theorem cycles_eq_nil_of_edges_eq_nil (unlinked : graph.edges = []) : graph.cycles = [] := by
  refine cycles_eq_nil_iff.2 fun node around => ?_
  obtain ⟨target, refers, _⟩ := Relation.TransGen.head'_iff.1 around
  simp [Refers, unlinked] at refers

end LayerComposition.ReferenceGraph
