import LayerComposition.Cycle
import LayerComposition.ReferenceGraph

/-! # The search for cycles

`ReferenceGraph.cycles` goes through a graph depth first, from every node in turn that it has not
been to yet, and reports each reference that leads back into the path it is on. The path is kept on
a stack of frames, so the search is not limited by how deeply compositions nest.

`Search.step` is one turn of the search. It keeps `Search.WellFormed`, and unless it enters a node
for the first time it takes something off the stack, which is why `Search.run` comes to an end on
every graph.
-/

namespace LayerComposition.ReferenceGraph

/-- What a search has found so far. -/
structure Walk where
  /-- The nodes that were entered, latest first. -/
  visited : List String
  /-- The cycles that were closed, in order. -/
  cycles : List Cycle

namespace Walk

def enter (walk : Walk) (node : String) : Walk :=
  { walk with visited := node :: walk.visited }

def report (walk : Walk) (cycle : Cycle) : Walk :=
  { walk with cycles := walk.cycles ++ [cycle] }

@[simp] theorem visited_enter (walk : Walk) (node : String) :
    (walk.enter node).visited = node :: walk.visited := rfl

@[simp] theorem cycles_enter (walk : Walk) (node : String) :
    (walk.enter node).cycles = walk.cycles := rfl

@[simp] theorem visited_report (walk : Walk) (cycle : Cycle) :
    (walk.report cycle).visited = walk.visited := rfl

@[simp] theorem cycles_report (walk : Walk) (cycle : Cycle) :
    (walk.report cycle).cycles = walk.cycles ++ [cycle] := rfl

end Walk

namespace Search

/-- A node that is being searched, and its references that are still to be followed. -/
structure Frame where
  node : String
  pending : List String
  deriving Repr, DecidableEq

end Search

/-- The state of a search from one start: the open frames and the path of their nodes, innermost
    first, and what has been found so far. -/
structure Search where
  frames : List Search.Frame
  path : List String
  walk : Walk

namespace Search

/-- The state in which a node is about to be searched that was not entered before. -/
def start (graph : ReferenceGraph) (node : String) (walk : Walk) : Search :=
  ⟨[⟨node, graph.references node⟩], [node], walk.enter node⟩

/-- Follow the next reference of the innermost frame, or close that frame if it has none. A search
    without frames is over. -/
def step (graph : ReferenceGraph) (search : Search) : Option Search :=
  match search.frames with
  | [] => none
  | ⟨_, []⟩ :: below => some ⟨below, search.path.tail, search.walk⟩
  | ⟨node, target :: pending⟩ :: below =>
      let frames := ⟨node, pending⟩ :: below
      if target ∈ search.path then
        some ⟨frames, search.path, search.walk.report (Cycle.close search.path target)⟩
      else if target ∈ search.walk.visited then some ⟨frames, search.path, search.walk⟩
      else
        some ⟨⟨target, graph.references target⟩ :: frames, target :: search.path,
          search.walk.enter target⟩

/-- How a turn goes on: it closes a frame that has no reference left, or follows a reference, which
    closes a cycle, leads to a node that was left, or enters one. -/
inductive Advances (graph : ReferenceGraph) : Search → Search → Prop where
  | close {node below path walk} :
      Advances graph ⟨⟨node, []⟩ :: below, path, walk⟩ ⟨below, path.tail, walk⟩
  | report {node target pending below path walk} (entered : target ∈ path) :
      Advances graph ⟨⟨node, target :: pending⟩ :: below, path, walk⟩
        ⟨⟨node, pending⟩ :: below, path, walk.report (Cycle.close path target)⟩
  | pass {node target pending below path walk} (off : target ∉ path)
      (visited : target ∈ walk.visited) :
      Advances graph ⟨⟨node, target :: pending⟩ :: below, path, walk⟩
        ⟨⟨node, pending⟩ :: below, path, walk⟩
  | enter {node target pending below path walk} (off : target ∉ path)
      (unvisited : target ∉ walk.visited) :
      Advances graph ⟨⟨node, target :: pending⟩ :: below, path, walk⟩
        ⟨⟨target, graph.references target⟩ :: ⟨node, pending⟩ :: below, target :: path,
          walk.enter target⟩

variable {graph : ReferenceGraph} {search next : Search}

theorem advances_of_step (turn : step graph search = some next) : Advances graph search next := by
  obtain ⟨frames, path, walk⟩ := search
  unfold step at turn
  split at turn
  · contradiction
  · rename_i frames_eq
    obtain rfl : frames = _ := frames_eq
    obtain rfl := Option.some.inj turn
    exact .close
  · rename_i frames_eq
    obtain rfl : frames = _ := frames_eq
    split at turn
    · rename_i entered
      obtain rfl := Option.some.inj turn
      exact .report entered
    · rename_i off
      split at turn
      · rename_i visited
        obtain rfl := Option.some.inj turn
        exact .pass off visited
      · rename_i unvisited
        obtain rfl := Option.some.inj turn
        exact .enter off unvisited

theorem frames_eq_nil_of_step (ended : step graph search = none) : search.frames = [] := by
  unfold step at ended
  split at ended
  · assumption
  · contradiction
  · split at ended
    · contradiction
    · split at ended <;> contradiction

/-- The path is that of the frames, and every frame holds the rest of the references of its node. -/
structure WellFormed (graph : ReferenceGraph) (search : Search) : Prop where
  path_eq : search.path = search.frames.map (·.node)
  pending : ∀ frame ∈ search.frames, frame.pending <:+ graph.references frame.node

theorem wellFormed_start (graph : ReferenceGraph) (node : String) (walk : Walk) :
    (start graph node walk).WellFormed graph where
  path_eq := rfl
  pending := by
    intro frame mem
    obtain rfl := List.mem_singleton.1 mem
    exact List.suffix_refl _

/-- A frame holds the rest of the references of its node also when one of them is followed. -/
theorem pending_of_followed {node target : String} {pending : List String} {below : List Frame}
    (held : ∀ frame ∈ (⟨node, target :: pending⟩ :: below : List Frame),
      frame.pending <:+ graph.references frame.node) :
    ∀ frame ∈ (⟨node, pending⟩ :: below : List Frame),
      frame.pending <:+ graph.references frame.node := by
  obtain ⟨first, later⟩ := List.forall_mem_cons.1 held
  exact List.forall_mem_cons.2 ⟨(List.suffix_cons target pending).trans first, later⟩

theorem wellFormed_step (wellFormed : search.WellFormed graph)
    (turn : step graph search = some next) : next.WellFormed graph := by
  obtain ⟨path_eq, held⟩ := wellFormed
  cases advances_of_step turn with
  | close => exact ⟨congrArg List.tail path_eq, (List.forall_mem_cons.1 held).2⟩
  | report => exact ⟨path_eq, pending_of_followed held⟩
  | pass => exact ⟨path_eq, pending_of_followed held⟩
  | enter =>
      refine ⟨congrArg (List.cons _) path_eq, List.forall_mem_cons.2 ⟨?_, ?_⟩⟩
      · exact List.suffix_refl _
      · exact pending_of_followed held

/-- The nodes of the graph that a search has not entered yet. -/
def unvisited (graph : ReferenceGraph) (walk : Walk) : List String :=
  graph.nodes.filter (· ∉ walk.visited)

/-- The turns that a stack takes if no other node is entered. -/
def work : List Frame → Nat
  | [] => 0
  | frame :: below => frame.pending.length + 1 + work below

/-- A node that is entered is one less to enter. -/
theorem length_unvisited_enter_lt {walk : Walk} {node : String} (mem : node ∈ graph.nodes)
    (fresh : node ∉ walk.visited) :
    (unvisited graph (walk.enter node)).length < (unvisited graph walk).length := by
  have less : unvisited graph (walk.enter node) =
      (unvisited graph walk).filter (· ≠ node) := by
    simp [unvisited, List.filter_filter]
  rw [less, List.length_filter_lt_length_iff_exists]
  exact ⟨node, by simpa [unvisited] using ⟨mem, fresh⟩, by simp⟩

/-- A turn enters a node that was not entered before, or else takes something off the stack. -/
theorem decreases_of_step (wellFormed : search.WellFormed graph)
    (turn : step graph search = some next) :
    Prod.Lex (· < ·) (· < ·) ((unvisited graph next.walk).length, work next.frames)
      ((unvisited graph search.walk).length, work search.frames) := by
  cases advances_of_step turn with
  | close => exact .right _ (by simp [work])
  | report => exact .right _ (by simp [work])
  | pass => exact .right _ (by simp [work])
  | @enter node target _ _ _ _ _ fresh =>
      have held := wellFormed.pending _ List.mem_cons_self
      have followed : target ∈ graph.references node := held.subset List.mem_cons_self
      obtain ⟨edge, edge_mem, rfl⟩ := List.mem_map.1 followed
      have mem := (graph.ends_mem edge (List.mem_filter.1 edge_mem).1).2
      exact .left _ _ (length_unvisited_enter_lt mem fresh)

def run (graph : ReferenceGraph) (search : Search) (wellFormed : search.WellFormed graph) : Walk :=
  match turn : step graph search with
  | none => search.walk
  | some next => run graph next (wellFormed_step wellFormed turn)
termination_by ((unvisited graph search.walk).length, work search.frames)
decreasing_by exact decreases_of_step wellFormed turn

end Search

/-- Search from a node, unless it was entered already. -/
def searchFrom (graph : ReferenceGraph) (walk : Walk) (node : String) : Walk :=
  if node ∈ walk.visited then walk
  else (Search.start graph node walk).run graph (Search.wellFormed_start graph node walk)

/-- The cycles that searching from every node in turn closes. -/
def cycles (graph : ReferenceGraph) : List Cycle :=
  (graph.nodes.foldl graph.searchFrom ⟨[], []⟩).cycles

end LayerComposition.ReferenceGraph
