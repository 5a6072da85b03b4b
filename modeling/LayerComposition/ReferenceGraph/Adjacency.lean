import LayerComposition.ReferenceGraph

/-! # Adjacency

The references of a graph can be kept in two tables, by their sources and by their targets. Adding
a reference then writes a row of each. A graph or its tables are built by a sequence of calls.
-/

namespace LayerComposition.ReferenceGraph

/-- One call on a graph that is being built. -/
inductive Call where
  | register (name : String)
  | addReference (source target : String)
  deriving Repr, DecidableEq

def perform (graph : ReferenceGraph) : Call → ReferenceGraph
  | .register name => graph.register name
  | .addReference source target => graph.addReference source target

/-- The graph that calls build from nothing. -/
def ofCalls (calls : List Call) : ReferenceGraph :=
  calls.foldl perform ∅

/-- The compositions of a graph, and the references in rows by source and in rows by target. -/
structure Adjacency where
  nodes : List String
  targets : Roster (List String)
  sources : Roster (List String)

namespace Adjacency

def empty : Adjacency :=
  ⟨[], ∅, ∅⟩

instance : EmptyCollection Adjacency := ⟨empty⟩

/-- Put a value behind the others, unless it is one of them. -/
def enter (value : String) (values : List String) : List String :=
  if value ∈ values then values else values ++ [value]

/-- What a table has under a name, nothing if there is no such row. -/
def row (table : Roster (List String)) (name : String) : List String :=
  (table.get? name).getD []

def enterInRow (name value : String) (table : Roster (List String)) : Roster (List String) :=
  table.put name (enter value (row table name))

def register (adjacency : Adjacency) (name : String) : Adjacency :=
  { adjacency with nodes := enter name adjacency.nodes }

def addReference (adjacency : Adjacency) (source target : String) : Adjacency :=
  let both := (adjacency.register source).register target
  { both with
    targets := enterInRow source target both.targets
    sources := enterInRow target source both.sources }

def references (adjacency : Adjacency) (name : String) : List String :=
  row adjacency.targets name

def referencedBy (adjacency : Adjacency) (name : String) : List String :=
  row adjacency.sources name

def perform (adjacency : Adjacency) : Call → Adjacency
  | .register name => adjacency.register name
  | .addReference source target => adjacency.addReference source target

def ofCalls (calls : List Call) : Adjacency :=
  calls.foldl perform ∅

/-- A row that is written to is the only one that changes. -/
theorem row_enterInRow (table : Roster (List String)) (name other value : String) :
    row (enterInRow name value table) other =
      if other = name then enter value (row table name) else row table other := by
  unfold row enterInRow
  rw [Roster.get?_put]
  split <;> rfl

end Adjacency

end LayerComposition.ReferenceGraph
