import LayerComposition.Proofs.CycleSearch
import LayerComposition.Proofs.References

/-! # Reported cycles

The search enters a node once and so follows a reference once, which makes the references that
close reported cycles distinct. Without them the graph has no cycle. So wherever compositions
reach each other, the search reports a cycle among them.
-/

namespace LayerComposition

namespace Cycle

/-- A way around a name is a way by every relation that holds all along it. -/
theorem transGen_of_around {refers kept : String → String → Prop} {name : String}
    (around : Relation.TransGen refers name name)
    (keeps : ∀ source target, Relation.ReflTransGen refers name source → refers source target →
      Relation.ReflTransGen refers target name → kept source target) :
    Relation.TransGen kept name name := by
  -- Induction on the way out, with a way back from wherever it has come to.
  have outward (there : String) (out : Relation.TransGen refers name there)
      (back : Relation.ReflTransGen refers there name) : Relation.TransGen kept name there := by
    induction out with
    | single step => exact .single (keeps _ _ .refl step back)
    | tail out step ih =>
        have kept_step := keeps _ _ out.to_reflTransGen step back
        exact (ih (back.head step)).tail kept_step
  exact outward name around .refl

/-- Cycles are closed paths of a relation, no two of them closed by the same reference, and
    without the references that close them the relation has no closed path left. -/
structure Breaks (refers : String → String → Prop) (cycles : List Cycle) : Prop where
  traces : ∀ cycle ∈ cycles, Traces refers cycle
  closingsDistinct : (cycles.map closing?).Nodup
  broken : ∀ name, ¬Relation.TransGen
    (fun source target => refers source target ∧ some (source, target) ∉ cycles.map closing?)
    name name
  eq_nil_iff : cycles = [] ↔ ∀ name, ¬Relation.TransGen refers name name
  /-- A name that reaches itself has a reported cycle among the names that reach it and are
      reached by it. -/
  covers : ∀ name, Relation.TransGen refers name name →
    ∃ cycle ∈ cycles, ∀ other ∈ cycle,
      Relation.TransGen refers name other ∧ Relation.TransGen refers other name

end Cycle

namespace ReferenceGraph

variable {graph : ReferenceGraph}

theorem nodup_references (graph : ReferenceGraph) (name : String) :
    (graph.references name).Nodup := by
  refine List.Nodup.map_on ?_ (graph.edges_nodup.filter _)
  intro first first_mem second second_mem same
  have first_from := of_decide_eq_true (List.mem_filter.1 first_mem).2
  have second_from := of_decide_eq_true (List.mem_filter.1 second_mem).2
  exact Prod.ext (first_from.trans second_from.symm) same

/-! ## A reference closes one cycle at most -/

/-- The references that close what a walk has reported. -/
def Walk.closings (walk : Walk) : List (Option (String × String)) :=
  walk.cycles.map Cycle.closing?

/-- A walk has closed no two cycles by one reference, and closed them from visited nodes only. -/
structure Walk.Tidy (walk : Walk) : Prop where
  distinct : walk.closings.Nodup
  visited : ∀ source target, some (source, target) ∈ walk.closings → source ∈ walk.visited

/-- A walk has gone on to a tidy state, and what it has closed since then it closed from `node`
    to some of `targets`, or else from nodes that it had not visited. -/
structure Walk.Continues (node : String) (targets : List String) (before after : Walk) :
    Prop where
  tidy : after.Tidy
  visited : before.visited ⊆ after.visited
  closed : ∀ source target, some (source, target) ∈ after.closings →
    some (source, target) ∈ before.closings ∨ source = node ∧ target ∈ targets ∨
      source ∉ before.visited

theorem Walk.Continues.refl {node : String} {targets : List String} {walk : Walk}
    (tidy : walk.Tidy) : walk.Continues node targets walk :=
  ⟨tidy, List.Subset.refl _, fun _ _ => .inl⟩

theorem closings_report (walk : Walk) (node : String) (above : List String) (target : String) :
    (walk.report (Cycle.close (node :: above) target)).closings =
      walk.closings ++ [some (node, target)] := by
  simp [Walk.closings, Cycle.closing?_close]

/-- A walk stays tidy when a cycle is reported that is closed from a visited node by a reference
    that has closed none. -/
theorem Walk.Tidy.report {walk : Walk} (tidy : walk.Tidy) {node target : String}
    (visited : node ∈ walk.visited) (unclosed : some (node, target) ∉ walk.closings)
    (above : List String) : (walk.report (Cycle.close (node :: above) target)).Tidy where
  distinct := by
    rw [closings_report]
    exact nodup_concat tidy.distinct unclosed
  visited := by
    intro source other mem
    rw [closings_report] at mem
    rcases List.mem_append.1 mem with old | new
    · exact tidy.visited source other old
    · obtain ⟨rfl, -⟩ : source = node ∧ other = target := by simpa using new
      exact visited

theorem Walk.Tidy.enter {walk : Walk} (tidy : walk.Tidy) (node : String) :
    (walk.enter node).Tidy :=
  ⟨tidy.distinct, fun source other mem => List.mem_cons_of_mem _ (tidy.visited source other mem)⟩

/-- Targets that are followed one after the other are followed together. -/
theorem Walk.Continues.cons {node target : String} {rest : List String}
    {before between after : Walk} (first : Walk.Continues node [target] before between)
    (later : Walk.Continues node rest between after) :
    Walk.Continues node (target :: rest) before after where
  tidy := later.tidy
  visited := List.Subset.trans first.visited later.visited
  closed := by
    intro source other mem
    rcases later.closed source other mem with mem | ⟨rfl, mem⟩ | unvisited
    · refine (first.closed source other mem).imp_right (Or.imp_left ?_)
      rintro ⟨rfl, mem⟩
      exact ⟨rfl, List.mem_cons.2 (.inl (List.mem_singleton.1 mem))⟩
    · exact .inr (.inl ⟨rfl, List.mem_cons_of_mem _ mem⟩)
    · exact .inr (.inr fun visited => unvisited (first.visited visited))

/-- Reporting a cycle closes it by its reference. -/
theorem Walk.Tidy.continues_report {walk : Walk} (tidy : walk.Tidy) {node target : String}
    (visited : node ∈ walk.visited) (unclosed : some (node, target) ∉ walk.closings)
    (above : List String) :
    walk.Continues node [target] (walk.report (Cycle.close (node :: above) target)) where
  tidy := tidy.report visited unclosed above
  visited := List.Subset.refl _
  closed := by
    intro source other mem
    rw [closings_report] at mem
    refine (List.mem_append.1 mem).imp_right fun new => .inl ?_
    simpa using new

/-- What is closed below a node that is entered is not closed from a node that was visited. -/
theorem Walk.Continues.of_enter {walk final : Walk} {target : String} {targets : List String}
    (inner : Walk.Continues target targets (walk.enter target) final)
    (unvisited : target ∉ walk.visited) (node : String) (others : List String) :
    walk.Continues node others final := by
  refine ⟨inner.tidy, (List.cons_subset.1 inner.visited).2, fun source other mem => ?_⟩
  rcases inner.closed source other mem with mem | ⟨rfl, _⟩ | not_entered
  · exact .inl mem
  · exact .inr (.inr unvisited)
  · exact .inr (.inr fun mem => not_entered (List.mem_cons_of_mem _ mem))

/-- A walk has closed nothing from a node yet that it has not visited. -/
theorem Walk.Tidy.unclosed {walk : Walk} (tidy : walk.Tidy) {node : String}
    (unvisited : node ∉ walk.visited) (target : String) :
    some (node, target) ∉ (walk.enter node).closings :=
  fun closed => unvisited (tidy.visited node target closed)

/-- After the first of several targets the others have still closed nothing. -/
theorem Walk.Continues.unclosed {node target : String} {rest : List String} {before after : Walk}
    (first : Walk.Continues node [target] before after) (visited : node ∈ before.visited)
    (absent : target ∉ rest) (unclosed : ∀ other ∈ rest, some (node, other) ∉ before.closings) :
    ∀ other ∈ rest, some (node, other) ∉ after.closings := by
  intro other other_mem mem
  rcases first.closed node other mem with mem | ⟨_, same⟩ | unvisited
  · exact unclosed other other_mem mem
  · exact absent (List.mem_singleton.1 same ▸ other_mem)
  · exact unvisited visited

/-- Following references from a visited node that have closed nothing yet goes on by them. It is by
    entering every node once that what lies below it leaves its references alone. -/
theorem Follows.continues {node : String} {above targets : List String} {walk final : Walk}
    (follows : graph.Follows node above targets walk final) (tidy : walk.Tidy)
    (visited : node ∈ walk.visited) (nodup : targets.Nodup)
    (unclosed : ∀ target ∈ targets, some (node, target) ∉ walk.closings) :
    walk.Continues node targets final := by
  induction follows with
  | done => exact .refl tidy
  | @report node above target _ walk _ _ _ ih =>
      obtain ⟨target_unclosed, rest_unclosed⟩ := List.forall_mem_cons.1 unclosed
      obtain ⟨absent, rest_nodup⟩ := List.nodup_cons.1 nodup
      have first := tidy.continues_report visited target_unclosed above
      exact first.cons (ih first.tidy (first.visited visited) rest_nodup
        (first.unclosed visited absent rest_unclosed))
  | pass _ _ _ ih =>
      exact (Walk.Continues.refl tidy).cons
        (ih tidy visited (List.nodup_cons.1 nodup).2 (List.forall_mem_cons.1 unclosed).2)
  | @enter node _ target _ walk _ _ _ unvisited _ _ withinIh afterIh =>
      obtain ⟨absent, rest_nodup⟩ := List.nodup_cons.1 nodup
      have inner := withinIh (tidy.enter target) List.mem_cons_self (graph.nodup_references target)
        fun other _ => tidy.unclosed unvisited other
      have first := inner.of_enter unvisited node [target]
      exact first.cons (afterIh first.tidy (first.visited visited) rest_nodup
        (first.unclosed visited absent (List.forall_mem_cons.1 unclosed).2))

/-- No reference closes two of the reported cycles. -/
theorem nodup_closings_cycles (graph : ReferenceGraph) :
    (graph.cycles.map Cycle.closing?).Nodup := by
  have tidy : (graph.nodes.foldl graph.searchFrom ⟨[], []⟩).Tidy := by
    apply List.foldlRecOn _ _ ⟨List.nodup_nil, by simp [Walk.closings]⟩
    intro walk tidy start _
    rcases graph.searchFrom_cases walk start with ⟨-, same⟩ | ⟨unvisited, follows⟩
    · rw [same]
      exact tidy
    · exact (follows.continues (tidy.enter start) List.mem_cons_self (graph.nodup_references start)
        fun target _ => tidy.unclosed unvisited target).tidy
  exact tidy.distinct

/-! ## Every circle has a report -/

/-- Where a composition reaches itself, a reported cycle runs through compositions that it reaches
    and that reach it. -/
theorem exists_cycle_around {name : String} (around : Relation.TransGen graph.Refers name name) :
    ∃ cycle ∈ graph.cycles, ∀ other ∈ cycle,
      Relation.TransGen graph.Refers name other ∧ Relation.TransGen graph.Refers other name := by
  by_contra unreported
  refine graph.not_transGen_keeps_cycles name (Cycle.transGen_of_around around ?_)
  intro source target out refers back
  refine ⟨refers, fun closes => unreported ?_⟩
  obtain ⟨cycle, mem, closed⟩ := List.mem_map.1 closes
  have target_mem : target ∈ cycle := (Cycle.closing?_eq_some_iff.1 closed).subset (by simp)
  have traces := traces_of_mem_cycles mem
  refine ⟨cycle, mem, fun other other_mem => ⟨?_, ?_⟩⟩
  · exact (Relation.TransGen.tail' out refers).trans (traces.transGen target_mem other_mem)
  · exact (traces.transGen other_mem target_mem).trans_left back

theorem breaks_cycles (graph : ReferenceGraph) : Cycle.Breaks graph.Refers graph.cycles where
  traces := fun _ => traces_of_mem_cycles
  closingsDistinct := graph.nodup_closings_cycles
  broken := graph.not_transGen_keeps_cycles
  eq_nil_iff := cycles_eq_nil_iff
  covers := fun _ => exists_cycle_around

theorem refers_ofCalls_iff {calls : List Call} {source target : String} :
    (ofCalls calls).Refers source target ↔ .addReference source target ∈ calls :=
  mem_references.symm.trans ((records_ofCalls calls).references source target)

/-- Whatever calls build a graph, the search reports closed paths of what they have said, no two
    of them closed by the same reference, and taking the references away that close them leaves
    no closed path. -/
theorem breaks_cycles_ofCalls (calls : List Call) :
    Cycle.Breaks (fun source target => .addReference source target ∈ calls)
      (ofCalls calls).cycles := by
  have same : (ofCalls calls).Refers =
      fun source target => .addReference source target ∈ calls := by
    funext source target
    exact propext refers_ofCalls_iff
  rw [← same]
  exact (ofCalls calls).breaks_cycles

end ReferenceGraph

end LayerComposition
