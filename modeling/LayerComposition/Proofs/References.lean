import LayerComposition.Proofs.Inclusion
import LayerComposition.Proofs.Occurrences
import LayerComposition.ReferenceGraph.Adjacency

/-! # References from both ends

Whatever calls build a graph, a composition refers to another one exactly if it is listed among
those that refer to it, and exactly if a call said so. All that the graph lists stands in the order
in which it was first said. Two tables that are written one beside the other give the same lists.
-/

namespace LayerComposition

/-! ## First occurrences of values -/

section firsts

variable {α β : Type} [DecidableEq α] [DecidableEq β]

theorem mem_firstsOn_id {values : List α} {value : α} : value ∈ firstsOn id values ↔ value ∈ values := by
  rw [← distinctOn_eq_firstsOn]
  exact mem_distinct

theorem nodup_firstsOn_id (values : List α) : (firstsOn id values).Nodup := by
  rw [← distinctOn_eq_firstsOn]
  exact nodup_distinct values

theorem firstsOn_id_concat (values : List α) (value : α) :
    firstsOn id (values ++ [value]) =
      if value ∈ values then firstsOn id values else firstsOn id values ++ [value] := by
  rw [firstsOn_concat]
  simp only [id_eq, List.map_id]
  split <;> simp

/-- Choosing values and reading something off them that tells the chosen ones apart keeps first
    occurrences. -/
theorem map_filter_firstsOn {chosen : α → Bool} {read : α → β}
    (injective : ∀ a b, chosen a = true → chosen b = true → read a = read b → a = b)
    (values : List α) :
    ((firstsOn id values).filter chosen).map read =
      firstsOn id ((values.filter chosen).map read) := by
  induction values using List.reverseRecOn with
  | nil => rfl
  | append_singleton before value ih =>
      rw [firstsOn_id_concat, List.filter_append, List.map_append]
      cases is_chosen : chosen value with
      | false => split <;> simp [is_chosen, ih]
      | true =>
          have present_iff : read value ∈ (before.filter chosen).map read ↔ value ∈ before := by
            constructor
            · intro mem
              obtain ⟨other, other_mem, same⟩ := List.mem_map.1 mem
              obtain ⟨other_in, other_chosen⟩ := List.mem_filter.1 other_mem
              exact injective other value other_chosen is_chosen same ▸ other_in
            · intro mem
              exact List.mem_map_of_mem (List.mem_filter.2 ⟨mem, is_chosen⟩)
          rw [List.filter_singleton, is_chosen, cond_true, List.map_singleton,
            firstsOn_id_concat, ← ih]
          simp only [present_iff]
          split <;> simp [is_chosen]

end firsts

namespace ReferenceGraph

namespace Call

/-- The compositions that a call names, in the order in which it adds them. -/
def names : Call → List String
  | register name => [name]
  | addReference source target => [source, target]

def reference? : Call → Option (String × String)
  | register _ => none
  | addReference source target => some (source, target)

end Call

/-- The references that calls add, each time they do. -/
def said (calls : List Call) : List (String × String) :=
  calls.filterMap Call.reference?

/-- What calls say is included by `source`. -/
def targetsSaid (calls : List Call) (source : String) : List String :=
  ((said calls).filter (·.1 = source)).map Prod.snd

/-- What calls say includes `target`. -/
def sourcesSaid (calls : List Call) (target : String) : List String :=
  ((said calls).filter (·.2 = target)).map Prod.fst

@[simp]
theorem said_concat_register (calls : List Call) (name : String) :
    said (calls ++ [.register name]) = said calls := by
  rw [said, List.filterMap_append]
  exact List.append_nil _

@[simp]
theorem said_concat_addReference (calls : List Call) (source target : String) :
    said (calls ++ [.addReference source target]) = said calls ++ [(source, target)] :=
  List.filterMap_append

theorem mem_said {calls : List Call} {source target : String} :
    (source, target) ∈ said calls ↔ .addReference source target ∈ calls := by
  rw [said, List.mem_filterMap]
  constructor
  · rintro ⟨call, mem, adds⟩
    cases call with
    | register name => contradiction
    | addReference here there =>
        obtain ⟨rfl, rfl⟩ := Prod.mk.inj (Option.some.inj adds)
        exact mem
  · intro mem
    exact ⟨_, mem, rfl⟩

theorem mem_targetsSaid {calls : List Call} {source target : String} :
    target ∈ targetsSaid calls source ↔ .addReference source target ∈ calls := by
  simp [targetsSaid, ← mem_said]

theorem mem_sourcesSaid {calls : List Call} {source target : String} :
    source ∈ sourcesSaid calls target ↔ .addReference source target ∈ calls := by
  simp [sourcesSaid, ← mem_said]

/-! ## A list of references -/

theorem ofCalls_concat (calls : List Call) (call : Call) :
    ofCalls (calls ++ [call]) = (ofCalls calls).perform call := by
  simp [ofCalls]

theorem nodes_register (graph : ReferenceGraph) (name : String) :
    (graph.register name).nodes = Adjacency.enter name graph.nodes := by
  unfold register Adjacency.enter
  split <;> rfl

theorem nodes_addReference (graph : ReferenceGraph) (source target : String) :
    (graph.addReference source target).nodes =
      Adjacency.enter target (Adjacency.enter source graph.nodes) := by
  rw [← nodes_register, ← nodes_register]
  simp only [addReference]
  split <;> rfl

theorem edges_addReference (graph : ReferenceGraph) (source target : String) :
    (graph.addReference source target).edges =
      if (source, target) ∈ graph.edges then graph.edges
      else graph.edges ++ [(source, target)] := by
  have kept : ((graph.register source).register target).edges = graph.edges := by
    rw [edges_register, edges_register]
  unfold addReference
  simp only [kept]
  split <;> simp [kept]

theorem edges_ofCalls (calls : List Call) : (ofCalls calls).edges = firstsOn id (said calls) := by
  induction calls using List.reverseRecOn with
  | nil => rfl
  | append_singleton before call ih =>
      rw [ofCalls_concat]
      cases call with
      | register name => rw [perform, edges_register, ih, said_concat_register]
      | addReference source target =>
          rw [perform, edges_addReference, ih, said_concat_addReference, firstsOn_id_concat]
          simp only [mem_firstsOn_id]
          split <;> rfl

theorem enter_firstsOn (value : String) (values : List String) :
    Adjacency.enter value (firstsOn id values) = firstsOn id (values ++ [value]) := by
  rw [firstsOn_id_concat, Adjacency.enter]
  simp only [mem_firstsOn_id]

theorem nodes_ofCalls (calls : List Call) :
    (ofCalls calls).nodes = firstsOn id (calls.flatMap Call.names) := by
  induction calls using List.reverseRecOn with
  | nil => rfl
  | append_singleton before call ih =>
      rw [ofCalls_concat, List.flatMap_append, List.flatMap_singleton]
      cases call with
      | register name => rw [perform, nodes_register, ih, enter_firstsOn, Call.names]
      | addReference source target =>
          rw [perform, nodes_addReference, ih, enter_firstsOn, enter_firstsOn, Call.names,
            List.append_assoc, List.singleton_append]

theorem references_ofCalls (calls : List Call) (source : String) :
    (ofCalls calls).references source = firstsOn id (targetsSaid calls source) := by
  rw [references, edges_ofCalls]
  refine map_filter_firstsOn (fun first second from_first from_second same => ?_) _
  exact Prod.ext ((of_decide_eq_true from_first).trans (of_decide_eq_true from_second).symm) same

theorem referencedBy_ofCalls (calls : List Call) (target : String) :
    (ofCalls calls).referencedBy target = firstsOn id (sourcesSaid calls target) := by
  rw [referencedBy, edges_ofCalls]
  refine map_filter_firstsOn (fun first second to_first to_second same => ?_) _
  exact Prod.ext same ((of_decide_eq_true to_first).trans (of_decide_eq_true to_second).symm)

/-! ## Two tables -/

namespace Adjacency

theorem ofCalls_concat (calls : List Call) (call : Call) :
    ofCalls (calls ++ [call]) = (ofCalls calls).perform call := by
  simp [ofCalls]

theorem nodes_ofCalls (calls : List Call) :
    (ofCalls calls).nodes = firstsOn id (calls.flatMap Call.names) := by
  induction calls using List.reverseRecOn with
  | nil => rfl
  | append_singleton before call ih =>
      rw [ofCalls_concat, List.flatMap_append, List.flatMap_singleton]
      cases call with
      | register name => rw [perform, register, ih, enter_firstsOn, Call.names]
      | addReference source target =>
          rw [perform, addReference, register, register, ih, enter_firstsOn, enter_firstsOn,
            Call.names, List.append_assoc, List.singleton_append]

/-- The table into which pairs of a name and a value are entered one after the other. -/
def tableOf (pairs : List (String × String)) : Roster (List String) :=
  pairs.foldl (fun table (name, value) => enterInRow name value table) ∅

theorem tableOf_concat (pairs : List (String × String)) (name value : String) :
    tableOf (pairs ++ [(name, value)]) = enterInRow name value (tableOf pairs) := by
  simp [tableOf]

theorem row_tableOf (pairs : List (String × String)) (name : String) :
    row (tableOf pairs) name = firstsOn id ((pairs.filter (·.1 = name)).map Prod.snd) := by
  induction pairs using List.reverseRecOn with
  | nil => rfl
  | append_singleton before pair ih =>
      obtain ⟨other, value⟩ := pair
      rw [tableOf_concat, row_enterInRow]
      by_cases same : name = other
      · subst same
        simp [ih, enter_firstsOn]
      · simp [ih, same, Ne.symm same]

theorem targets_ofCalls (calls : List Call) : (ofCalls calls).targets = tableOf (said calls) := by
  induction calls using List.reverseRecOn with
  | nil => rfl
  | append_singleton before call ih =>
      rw [ofCalls_concat]
      cases call with
      | register name => rw [said_concat_register, ← ih]; rfl
      | addReference source target => rw [said_concat_addReference, tableOf_concat, ← ih]; rfl

theorem sources_ofCalls (calls : List Call) :
    (ofCalls calls).sources = tableOf ((said calls).map Prod.swap) := by
  induction calls using List.reverseRecOn with
  | nil => rfl
  | append_singleton before call ih =>
      rw [ofCalls_concat]
      cases call with
      | register name => rw [said_concat_register, ← ih]; rfl
      | addReference source target =>
          rw [said_concat_addReference, List.map_append, List.map_singleton, Prod.swap_prod_mk,
            tableOf_concat, ← ih]
          rfl

theorem references_ofCalls (calls : List Call) (source : String) :
    (ofCalls calls).references source = firstsOn id (targetsSaid calls source) := by
  rw [references, targets_ofCalls, row_tableOf, targetsSaid]

theorem referencedBy_ofCalls (calls : List Call) (target : String) :
    (ofCalls calls).referencedBy target = firstsOn id (sourcesSaid calls target) := by
  rw [referencedBy, sources_ofCalls, row_tableOf, sourcesSaid, List.filter_map, List.map_map]
  rfl

/-- Tables list what a graph lists. -/
structure Represents (adjacency : Adjacency) (graph : ReferenceGraph) : Prop where
  nodes : adjacency.nodes = graph.nodes
  references : ∀ name, adjacency.references name = graph.references name
  referencedBy : ∀ name, adjacency.referencedBy name = graph.referencedBy name

theorem represents_ofCalls (calls : List Call) :
    (ofCalls calls).Represents (ReferenceGraph.ofCalls calls) where
  nodes := by rw [nodes_ofCalls, ReferenceGraph.nodes_ofCalls]
  references := fun _ => by rw [references_ofCalls, ReferenceGraph.references_ofCalls]
  referencedBy := fun _ => by rw [referencedBy_ofCalls, ReferenceGraph.referencedBy_ofCalls]

end Adjacency

/-! ## The graph of calls -/

/-- A graph tells what calls have said of it, from both ends and in their order. -/
structure Records (graph : ReferenceGraph) (calls : List Call) : Prop where
  references : ∀ source target,
    target ∈ graph.references source ↔ .addReference source target ∈ calls
  referencedBy : ∀ source target,
    source ∈ graph.referencedBy target ↔ .addReference source target ∈ calls
  ends : ∀ source target, .addReference source target ∈ calls →
    source ∈ graph.nodes ∧ target ∈ graph.nodes
  nodesInOrder : graph.nodes = firstsOn id (calls.flatMap Call.names)
  referencesInOrder : ∀ source, graph.references source = firstsOn id (targetsSaid calls source)
  referencedByInOrder : ∀ target,
    graph.referencedBy target = firstsOn id (sourcesSaid calls target)
  nodesDistinct : graph.nodes.Nodup
  referencesDistinct : ∀ source, (graph.references source).Nodup
  referencedByDistinct : ∀ target, (graph.referencedBy target).Nodup

theorem records_ofCalls (calls : List Call) : (ofCalls calls).Records calls where
  references := by
    intro source target
    rw [references_ofCalls, mem_firstsOn_id, mem_targetsSaid]
  referencedBy := by
    intro source target
    rw [referencedBy_ofCalls, mem_firstsOn_id, mem_sourcesSaid]
  ends := by
    intro source target mem
    simp only [nodes_ofCalls, mem_firstsOn_id, List.mem_flatMap]
    exact ⟨⟨_, mem, by simp [Call.names]⟩, ⟨_, mem, by simp [Call.names]⟩⟩
  nodesInOrder := nodes_ofCalls calls
  referencesInOrder := references_ofCalls calls
  referencedByInOrder := referencedBy_ofCalls calls
  nodesDistinct := (ofCalls calls).nodes_nodup
  referencesDistinct := by
    intro source
    rw [references_ofCalls]
    exact nodup_firstsOn_id _
  referencedByDistinct := by
    intro target
    rw [referencedBy_ofCalls]
    exact nodup_firstsOn_id _

end ReferenceGraph

end LayerComposition
