import LayerComposition.Registry

/-! # Reference graphs

The graph of a registry tells which compositions include which.
-/

namespace LayerComposition

/-- Compositions and the references between them, each once and in the order of addition. -/
structure ReferenceGraph where
  nodes : List String
  edges : List (String × String)
  nodes_nodup : nodes.Nodup
  edges_nodup : edges.Nodup
  ends_mem : ∀ edge ∈ edges, edge.1 ∈ nodes ∧ edge.2 ∈ nodes

namespace ReferenceGraph

def empty : ReferenceGraph :=
  ⟨[], [], List.nodup_nil, List.nodup_nil, by simp⟩

instance : EmptyCollection ReferenceGraph := ⟨empty⟩

def register (graph : ReferenceGraph) (name : String) : ReferenceGraph :=
  if present : name ∈ graph.nodes then graph
  else
    { graph with
      nodes := graph.nodes ++ [name]
      nodes_nodup := nodup_concat graph.nodes_nodup present
      ends_mem := fun edge mem =>
        (graph.ends_mem edge mem).imp (List.mem_append_left _) (List.mem_append_left _) }

theorem mem_nodes_register (graph : ReferenceGraph) (name other : String) :
    other ∈ (graph.register name).nodes ↔ other ∈ graph.nodes ∨ other = name := by
  unfold register
  split
  · rename_i present
    exact ⟨.inl, fun h => h.elim (fun mem => mem) fun eq => eq ▸ present⟩
  · simp

theorem edges_register (graph : ReferenceGraph) (name : String) :
    (graph.register name).edges = graph.edges := by
  unfold register
  split <;> rfl

/-- Record that `source` includes `target`, adding both if need be. -/
def addReference (graph : ReferenceGraph) (source target : String) : ReferenceGraph :=
  let both := (graph.register source).register target
  if present : (source, target) ∈ both.edges then both
  else
    { both with
      edges := both.edges ++ [(source, target)]
      edges_nodup := nodup_concat both.edges_nodup present
      ends_mem := by
        intro edge mem
        rcases List.mem_append.1 mem with mem | mem
        · exact both.ends_mem edge mem
        · rw [List.mem_singleton.1 mem]
          simp [both, mem_nodes_register] }

/-- The compositions that `name` includes directly. -/
def references (graph : ReferenceGraph) (name : String) : List String :=
  (graph.edges.filter (·.1 = name)).map Prod.snd

def referencedBy (graph : ReferenceGraph) (name : String) : List String :=
  (graph.edges.filter (·.2 = name)).map Prod.fst

end ReferenceGraph

def Registry.graph (registry : Registry) : ReferenceGraph :=
  registry.compositions.foldl (fun graph composition =>
    (composition.parts.filter registry.contains).foldl
      (fun graph part => graph.addReference composition.name part)
      (graph.register composition.name)) ∅

end LayerComposition
