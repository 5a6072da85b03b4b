import LayerComposition.Proofs.References

/-! # Entering compositions

The reference graph of a registry is built by calls for its compositions and what is included in
them. So it has the compositions for nodes, and it refers from one to another exactly if an
expansion that is inside the first can turn into the second. Where no cycle ends an expansion
early, it does turn into all of them.
-/

namespace LayerComposition

namespace Expansion

/-- A turn goes into a composition: it opens a frame for it, or it ends with the cycle that is
    closed by going in. -/
def Turn.Enters (state : Expansion) (name : String) : Turn → Prop
  | .running next => next.inProgress = name :: state.inProgress
  | .halted outcome =>
      name ∈ state.inProgress ∧ outcome.cycle = some (Cycle.close state.inProgress name)

variable {catalog : Catalog} {registry : Registry} {state : Expansion}

/-- A turn goes into the composition that is the next part, and into no other. -/
theorem enters_step_iff {name : String} :
    (step catalog registry state).Enters state name ↔
      ∃ composition pending below inner,
        state.frames = ⟨composition, name :: pending⟩ :: below ∧
          registry.classify name = .composition inner := by
  constructor
  · intro enters
    unfold step at enters
    split at enters
    · exact nomatch enters.2
    · have lengths := congrArg List.length (show state.inProgress.tail = _ from enters)
      simp only [List.length_tail, List.length_cons] at lengths
      omega
    · rename_i composition part pending below frames_eq
      split at enters
      · rename_i inner classified
        have named : part = name := by
          rw [← Registry.name_of_classify classified]
          split at enters
          · exact (List.cons.inj (Option.some.inj enters.2)).1
          · exact (List.cons.inj enters).1
        exact ⟨composition, pending, below, inner, named ▸ frames_eq, named ▸ classified⟩
      · exact absurd enters (List.cons_ne_self _ _).symm
      · exact absurd enters (List.cons_ne_self _ _).symm
  · rintro ⟨composition, pending, below, inner, frames_eq, classified⟩
    unfold step
    rw [frames_eq]
    simp only [classified, Registry.name_of_classify classified]
    split
    · rename_i entered
      exact ⟨entered, rfl⟩
    · rfl

def Leads (catalog : Catalog) (registry : Registry) (state next : Expansion) : Prop :=
  step catalog registry state = .running next

/-- Turns lead from one state to another. -/
abbrev Reaches (catalog : Catalog) (registry : Registry) : Expansion → Expansion → Prop :=
  Relation.ReflTransGen (Leads catalog registry)

section frames

variable {path parts : List String} {part : String} {activation between : Activation}
  {composition inner : Composition} {below : List Frame}

theorem reaches_behind_op {op : Op} (unnamed : registry.get? part = none)
    (reads : Op.read? part = some op) :
    Reaches catalog registry ⟨⟨composition, part :: parts⟩ :: below, path, activation⟩
      ⟨⟨composition, parts⟩ :: below, path, op.apply catalog activation⟩ := by
  have classified := Registry.classify_eq_op_iff.2 ⟨unnamed, reads⟩
  exact .single (by simp only [Leads, step, classified])

theorem reaches_behind_unknown (unnamed : registry.get? part = none)
    (refused : Op.read? part = none) :
    Reaches catalog registry ⟨⟨composition, part :: parts⟩ :: below, path, activation⟩
      ⟨⟨composition, parts⟩ :: below, path, activation⟩ := by
  have classified := Registry.classify_eq_unknown_iff.2 ⟨unnamed, refused⟩
  exact .single (by simp only [Leads, step, classified])

/-- The frame of a composition is opened, and closed when it is empty. -/
theorem reaches_behind_composition (found : registry.get? part = some inner)
    (fresh : part ∉ path)
    (within : Reaches catalog registry
      ⟨⟨inner, inner.parts⟩ :: ⟨composition, parts⟩ :: below, part :: path, activation⟩
      ⟨⟨inner, []⟩ :: ⟨composition, parts⟩ :: below, part :: path, between⟩) :
    Reaches catalog registry ⟨⟨composition, part :: parts⟩ :: below, path, activation⟩
      ⟨⟨composition, parts⟩ :: below, path, between⟩ := by
  have classified := Registry.classify_eq_composition_iff.2 found
  have opens : Leads catalog registry ⟨⟨composition, part :: parts⟩ :: below, path, activation⟩
      ⟨⟨inner, inner.parts⟩ :: ⟨composition, parts⟩ :: below, part :: path, activation⟩ := by
    simp only [Leads, step, classified, Registry.name_of_get? found, if_neg fresh]
  have closes : Leads catalog registry
      ⟨⟨inner, []⟩ :: ⟨composition, parts⟩ :: below, part :: path, between⟩
      ⟨⟨composition, parts⟩ :: below, path, between⟩ := rfl
  exact (Relation.ReflTransGen.head opens within).tail closes

end frames

/-- Parts that expand to their end are taken one after the other, in a frame on any stack. -/
theorem reaches_of_depthFirst {path parts : List String} {activation : Activation}
    {outcome : Outcome} (expands : DepthFirst catalog registry path parts activation outcome)
    (ended : outcome.cycle = none) (composition : Composition) (below : List Frame) :
    Reaches catalog registry ⟨⟨composition, parts⟩ :: below, path, activation⟩
      ⟨⟨composition, []⟩ :: below, path, outcome.activation⟩ := by
  induction expands generalizing composition below with
  | done => exact .refl
  | op unnamed reads _ ih =>
      exact (reaches_behind_op unnamed reads).trans (ih ended composition below)
  | unknown unnamed refused _ ih =>
      exact (reaches_behind_unknown unnamed refused).trans (ih ended composition below)
  | composition found fresh _ _ withinIh afterIh =>
      exact (reaches_behind_composition found fresh (withinIh rfl _ _)).trans
        (afterIh ended composition below)
  | cycleWithin => contradiction
  | cycle => contradiction

/-- Each of the parts that expand to their end comes to be the next one. -/
theorem exists_reaches_of_mem {path parts : List String} {activation : Activation}
    {outcome : Outcome} (expands : DepthFirst catalog registry path parts activation outcome)
    (ended : outcome.cycle = none) {part : String} (mem : part ∈ parts)
    (composition : Composition) :
    ∃ pending between, Reaches catalog registry ⟨[⟨composition, parts⟩], path, activation⟩
      ⟨[⟨composition, part :: pending⟩], path, between⟩ := by
  induction expands with
  | done => contradiction
  | op unnamed reads _ ih =>
      rcases List.mem_cons.1 mem with rfl | mem
      · exact ⟨_, _, .refl⟩
      · obtain ⟨pending, between, reaches⟩ := ih ended mem
        exact ⟨pending, between, (reaches_behind_op unnamed reads).trans reaches⟩
  | unknown unnamed refused _ ih =>
      rcases List.mem_cons.1 mem with rfl | mem
      · exact ⟨_, _, .refl⟩
      · obtain ⟨pending, between, reaches⟩ := ih ended mem
        exact ⟨pending, between, (reaches_behind_unknown unnamed refused).trans reaches⟩
  | composition found fresh within _ _ afterIh =>
      rcases List.mem_cons.1 mem with rfl | mem
      · exact ⟨_, _, .refl⟩
      · obtain ⟨pending, between, reaches⟩ := afterIh ended mem
        refine ⟨pending, between, Relation.ReflTransGen.trans ?_ reaches⟩
        exact reaches_behind_composition found fresh (reaches_of_depthFirst within rfl _ _)
  | cycleWithin => contradiction
  | cycle => contradiction

end Expansion

namespace Registry

variable {registry : Registry} {outer inner : String}

/-- Some state that an expansion can be in is inside `outer`, and its next turn goes into
    `inner`. -/
def CanEnter (registry : Registry) (catalog : Catalog) (outer inner : String) : Prop :=
  ∃ state : Expansion, state.WellFormed registry ∧ state.inProgress.head? = some outer ∧
    (Expansion.step catalog registry state).Enters state inner

theorem canEnter_iff_includes {catalog : Catalog} :
    registry.CanEnter catalog outer inner ↔ registry.Includes outer inner := by
  constructor
  · rintro ⟨state, wellFormed, inside, enters⟩
    obtain ⟨composition, pending, below, entered, frames_eq, classified⟩ :=
      Expansion.enters_step_iff.1 enters
    have named : composition.name = outer := by
      rw [wellFormed.inProgress_eq, frames_eq] at inside
      exact Option.some.inj inside
    obtain ⟨found, suffix⟩ := wellFormed.registered ⟨composition, inner :: pending⟩
      (frames_eq ▸ List.mem_cons_self)
    exact ⟨composition, named ▸ found, suffix.subset List.mem_cons_self,
      contains_of_classify classified⟩
  · rintro ⟨composition, found, mem, contained⟩
    obtain ⟨before, pending, parts_eq⟩ := List.append_of_mem mem
    obtain ⟨entered, classified⟩ := classify_of_contains contained
    obtain rfl := name_of_get? found
    refine ⟨⟨[⟨composition, inner :: pending⟩], [composition.name], ∅⟩, ?_, rfl, ?_⟩
    · refine ⟨rfl, List.nodup_singleton _, fun frame frame_mem => ?_⟩
      rw [List.mem_singleton.1 frame_mem]
      exact ⟨found, before, parts_eq.symm⟩
    · exact Expansion.enters_step_iff.2 ⟨composition, pending, [], entered, rfl, classified⟩

/-- An expansion that comes to its end goes into all that the composition includes. -/
theorem exists_reaches_enters {catalog : Catalog} {activation : Activation}
    (ended : (registry.expand catalog outer activation).cycle = none)
    (includes : registry.Includes outer inner) :
    ∃ composition state, registry.get? outer = some composition ∧
      Expansion.Reaches catalog registry (Expansion.start composition activation) state ∧
      state.inProgress = [outer] ∧
      (Expansion.step catalog registry state).Enters state inner := by
  obtain ⟨composition, found, mem, contained⟩ := includes
  obtain ⟨entered, classified⟩ := classify_of_contains contained
  have expands := (expand_eq_iff found activation (registry.expand catalog outer activation)).1 rfl
  obtain ⟨pending, between, reaches⟩ :=
    Expansion.exists_reaches_of_mem expands ended mem composition
  obtain rfl := name_of_get? found
  exact ⟨composition, _, found, reaches, rfl,
    Expansion.enters_step_iff.2 ⟨composition, pending, [], entered, rfl, classified⟩⟩

/-! ## The graph of a registry -/

/-- The calls that build the graph of a registry. -/
def calls (registry : Registry) : List ReferenceGraph.Call :=
  registry.compositions.flatMap fun composition =>
    .register composition.name ::
      (composition.parts.filter registry.contains).map (.addReference composition.name)

theorem graph_eq_ofCalls (registry : Registry) : registry.graph = .ofCalls registry.calls := by
  rw [graph, ReferenceGraph.ofCalls, calls, List.foldl_flatMap]
  simp only [List.foldl_cons, List.foldl_map, ReferenceGraph.perform]

theorem mem_names_iff {name : String} :
    name ∈ registry.names ↔ ∃ composition ∈ registry.compositions, composition.name = name := by
  rw [names_eq_map_compositions, List.mem_map]

theorem mem_nodes_graph_iff {name : String} :
    name ∈ registry.graph.nodes ↔ name ∈ registry.names := by
  rw [graph_eq_ofCalls, ReferenceGraph.nodes_ofCalls, mem_firstsOn_id, List.mem_flatMap]
  constructor
  · rintro ⟨call, call_mem, named⟩
    obtain ⟨composition, mem, call_mem⟩ := List.mem_flatMap.1 call_mem
    have own : composition.name ∈ registry.names := mem_names_iff.2 ⟨composition, mem, rfl⟩
    rcases List.mem_cons.1 call_mem with rfl | call_mem
    · exact List.mem_singleton.1 named ▸ own
    · obtain ⟨part, part_mem, rfl⟩ := List.mem_map.1 call_mem
      have inside := Roster.contains_iff_mem_keys.1 (List.mem_filter.1 part_mem).2
      rcases List.mem_pair.1 named with rfl | rfl
      · exact own
      · exact inside
  · intro mem
    obtain ⟨composition, kept, rfl⟩ := mem_names_iff.1 mem
    exact ⟨_, List.mem_flatMap.2 ⟨composition, kept, List.mem_cons_self⟩,
      List.mem_singleton_self _⟩

/-- A graph has the compositions of a registry for nodes, and refers from each of them to those
    into which an expansion inside it can turn, and does turn if it comes to its end. -/
structure Depicts (registry : Registry) (graph : ReferenceGraph) : Prop where
  built : graph = .ofCalls registry.calls
  nodes : ∀ name, name ∈ graph.nodes ↔ name ∈ registry.names
  references : ∀ outer inner, inner ∈ graph.references outer ↔ registry.Includes outer inner
  referencedBy : ∀ outer inner, outer ∈ graph.referencedBy inner ↔ registry.Includes outer inner
  canEnter : ∀ catalog outer inner,
    inner ∈ graph.references outer ↔ registry.CanEnter catalog outer inner
  enters : ∀ catalog activation outer, (registry.expand catalog outer activation).cycle = none →
    ∀ inner ∈ graph.references outer, ∃ composition state,
      registry.get? outer = some composition ∧
      Expansion.Reaches catalog registry (Expansion.start composition activation) state ∧
      state.inProgress = [outer] ∧
      (Expansion.step catalog registry state).Enters state inner

theorem depicts_graph (registry : Registry) : registry.Depicts registry.graph := by
  have references (outer inner : String) :
      inner ∈ registry.graph.references outer ↔ registry.Includes outer inner :=
    ReferenceGraph.mem_references.trans refers_graph_iff
  constructor
  case built => exact registry.graph_eq_ofCalls
  case nodes => exact fun _ => mem_nodes_graph_iff
  case references => exact references
  case referencedBy =>
    intro outer inner
    rw [← references, graph_eq_ofCalls, (ReferenceGraph.records_ofCalls _).references,
      (ReferenceGraph.records_ofCalls _).referencedBy]
  case canEnter =>
    intro catalog outer inner
    rw [references, canEnter_iff_includes]
  case enters =>
    intro catalog activation outer ended inner mem
    exact exists_reaches_enters ended ((references outer inner).1 mem)

end Registry

/-- A graph tells from both ends what the calls that build it have said, however it is kept, and the
    graph of a registry tells what its compositions include. -/
theorem ReferenceGraph.records_calls_and_depicts_registry (calls : List Call)
    (registry : Registry) :
    (ofCalls calls).Records calls ∧ (Adjacency.ofCalls calls).Represents (ofCalls calls) ∧
      registry.Depicts registry.graph :=
  ⟨records_ofCalls calls, Adjacency.represents_ofCalls calls, registry.depicts_graph⟩

end LayerComposition
