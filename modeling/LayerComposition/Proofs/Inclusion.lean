import LayerComposition.Proofs.CycleSearch
import LayerComposition.Proofs.Flattening

/-! # Inclusion

A composition includes those that stand among its parts. The reference graph holds exactly
these pairs, and flattening a composition comes to its end exactly if no composition that it
can enter includes itself. Hence the search in the graph, which takes each reference once, and
the expansions, which take every path, agree about cycles.
-/

namespace LayerComposition.Registry

/-- One composition has another among its parts. -/
def Includes (registry : Registry) (outer inner : String) : Prop :=
  ∃ composition, registry.get? outer = some composition ∧ inner ∈ composition.parts ∧
    registry.contains inner

/-- A name with no infinite sequence of inclusions out of it. -/
abbrev Grounded (registry : Registry) (name : String) : Prop :=
  Acc (fun inner outer => registry.Includes outer inner) name

variable {registry : Registry}

/-! ## The reference graph -/

theorem mem_edges_addReference (graph : ReferenceGraph) (source target : String)
    (edge : String × String) :
    edge ∈ (graph.addReference source target).edges ↔
      edge ∈ graph.edges ∨ edge = (source, target) := by
  have kept : ((graph.register source).register target).edges = graph.edges := by
    rw [ReferenceGraph.edges_register, ReferenceGraph.edges_register]
  by_cases present : (source, target) ∈ ((graph.register source).register target).edges
  · simp only [ReferenceGraph.addReference, dif_pos present]
    rw [kept] at present ⊢
    exact ⟨.inl, fun h => h.elim id fun same => same ▸ present⟩
  · simp only [ReferenceGraph.addReference, dif_neg present]
    rw [kept, List.mem_append, List.mem_singleton]

theorem mem_edges_foldl_addReference (graph : ReferenceGraph) (source : String)
    (targets : List String) (edge : String × String) :
    edge ∈ (targets.foldl (fun graph target => graph.addReference source target) graph).edges ↔
      edge ∈ graph.edges ∨ ∃ target ∈ targets, edge = (source, target) := by
  induction targets generalizing graph with
  | nil => simp
  | cons target rest ih =>
      rw [List.foldl_cons, ih, mem_edges_addReference]
      simp [or_assoc]

/-- The graph of a registry refers from one composition to another exactly if the first has the
    second among its parts. -/
theorem refers_graph_iff {outer inner : String} :
    registry.graph.Refers outer inner ↔ registry.Includes outer inner := by
  have folded (graph : ReferenceGraph) (compositions : List Composition) :
      (outer, inner) ∈ (compositions.foldl (fun graph composition =>
          (composition.parts.filter registry.contains).foldl
            (fun graph part => graph.addReference composition.name part)
            (graph.register composition.name)) graph).edges ↔
        (outer, inner) ∈ graph.edges ∨ ∃ composition ∈ compositions,
          composition.name = outer ∧ inner ∈ composition.parts ∧
            registry.contains inner = true := by
    induction compositions generalizing graph with
    | nil => simp
    | cons composition rest ih =>
        rw [List.foldl_cons, ih, mem_edges_foldl_addReference, ReferenceGraph.edges_register]
        simp only [List.mem_filter, Prod.mk.injEq, List.exists_mem_cons_iff, or_assoc]
        refine or_congr_right (or_congr_left ?_)
        constructor
        · rintro ⟨part, ⟨part_mem, contained⟩, rfl, rfl⟩
          exact ⟨rfl, part_mem, contained⟩
        · rintro ⟨rfl, part_mem, contained⟩
          exact ⟨inner, ⟨part_mem, contained⟩, rfl, rfl⟩
  refine (folded ∅ registry.compositions).trans ?_
  constructor
  · rintro (absurd | ⟨composition, mem, rfl, part_mem, contained⟩)
    · exact nomatch absurd
    · exact ⟨composition, get?_of_mem_compositions mem, part_mem, contained⟩
  · rintro ⟨composition, found, part_mem, contained⟩
    exact .inr ⟨composition, mem_compositions_of_get? found, name_of_get? found, part_mem,
      contained⟩

/-! ## Expansions -/

/-- The compositions among the parts are included in the last one of the path. -/
def Onward (registry : Registry) (path parts : List String) : Prop :=
  ∀ last ∈ path.getLast?, ∀ part ∈ parts, registry.contains part = true →
    registry.Includes last part

theorem Onward.tail {path parts : List String} {part : String}
    (onward : registry.Onward path (part :: parts)) : registry.Onward path parts := by
  intro last last_mem other mem
  exact onward last last_mem other (List.mem_cons_of_mem _ mem)

theorem Onward.isChain_concat {path parts : List String} {part : String}
    (onward : registry.Onward path (part :: parts)) (contained : registry.contains part = true)
    (linked : path.IsChain registry.Includes) :
    (path ++ [part]).IsChain registry.Includes := by
  refine linked.append (List.isChain_singleton part) ?_
  intro last last_mem next next_mem
  obtain rfl : part = next := by simpa using next_mem
  exact onward last last_mem part List.mem_cons_self contained

theorem onward_concat {name : String} {composition : Composition} (path : List String)
    (found : registry.get? name = some composition) :
    registry.Onward (path ++ [name]) composition.parts := by
  intro last last_mem part mem contained
  obtain rfl : name = last := by simpa using last_mem
  exact ⟨composition, found, mem, contained⟩

/-- A path of inclusions whose last name includes a name of the path. -/
structure Returns (registry : Registry) (path : List String) (name : String) : Prop where
  linked : path.IsChain registry.Includes
  nodup : path.Nodup
  entered : name ∈ path
  back : ∀ last ∈ path.getLast?, registry.Includes last name

section foldOps

variable {σ : Type} {useOp : σ → Op → σ} {path parts : List String} {state : σ}

/-- A composition among parts of which the first has no composition is among the others. -/
theorem mem_of_contains {first part : String} (unnamed : registry.get? first = none)
    (mem : part ∈ first :: parts) (contained : registry.contains part = true) : part ∈ parts := by
  refine (List.mem_cons.1 mem).resolve_left ?_
  rintro rfl
  obtain ⟨inner, found⟩ := contains_iff.1 contained
  cases found.symm.trans unnamed

/-- Where a walk comes to its end, the compositions among its parts are grounded. -/
theorem grounded_of_foldOps_eq_none (ended : (registry.foldOps useOp path parts state).2 = none)
    {part : String} (mem : part ∈ parts) (contained : registry.contains part = true) :
    registry.Grounded part := by
  fun_induction foldOps registry useOp path parts state generalizing part with
  | case1 => contradiction
  | case2 => contradiction
  | case3 path first parts state inner found fresh between within withinIh afterIh =>
      rcases List.mem_cons.1 mem with rfl | mem
      · refine .intro _ ?_
        rintro next ⟨composition, also_found, next_mem, next_contained⟩
        obtain rfl := Option.some.inj (found.symm.trans also_found)
        exact withinIh (by rw [within]) next_mem next_contained
      · exact afterIh ended mem contained
  | case4 => contradiction
  | case5 path first parts state unnamed op reads ih =>
      exact ih ended (mem_of_contains unnamed mem contained) contained
  | case6 path first parts state unnamed refused ih =>
      exact ih ended (mem_of_contains unnamed mem contained) contained

/-- A walk that ends early has gone on along inclusions, and has come back to a name that it is
    inside of. -/
theorem exists_path_of_foldOps_eq_some {cycle : Cycle}
    (ended : (registry.foldOps useOp path parts state).2 = some cycle)
    (linked : path.IsChain registry.Includes) (nodup : path.Nodup)
    (onward : registry.Onward path parts) :
    ∃ longer name, path <+: longer ∧ registry.Returns longer name ∧
      cycle = longer.dropWhile (· ≠ name) ++ [name] := by
  fun_induction foldOps registry useOp path parts state with
  | case1 => contradiction
  | case2 path first parts state inner found entered =>
      obtain rfl := Option.some.inj ended
      refine ⟨path, first, List.prefix_refl path, ⟨linked, nodup, entered, ?_⟩, rfl⟩
      intro last last_mem
      exact onward last last_mem first List.mem_cons_self (contains_iff.2 ⟨inner, found⟩)
  | case3 path first parts state inner found fresh between within withinIh afterIh =>
      exact afterIh ended linked nodup onward.tail
  | case4 path first parts state inner found fresh between other within withinIh =>
      have longer := onward.isChain_concat (contains_iff.2 ⟨inner, found⟩) linked
      rw [within] at withinIh
      obtain ⟨path', name, prefixed, returns, cycle_eq⟩ :=
        withinIh ended longer (nodup_concat nodup fresh) (onward_concat path found)
      exact ⟨path', name, (List.prefix_append path [first]).trans prefixed, returns, cycle_eq⟩
  | case5 path first parts state unnamed op reads ih => exact ih ended linked nodup onward.tail
  | case6 path first parts state unnamed refused ih => exact ih ended linked nodup onward.tail

end foldOps

theorem grounded_of_flatten_eq_none {name : String}
    (ended : (registry.flatten name).2 = none) : registry.Grounded name := by
  refine .intro _ ?_
  rintro next ⟨composition, found, mem, contained⟩
  unfold flatten at ended
  rw [found] at ended
  exact grounded_of_foldOps_eq_none ended mem contained

/-- A composition that does not flatten leads along inclusions to a name that they come back to,
    and its cycle is this way back. -/
theorem exists_path_of_flatten {name : String} {cycle : Cycle}
    (ended : (registry.flatten name).2 = some cycle) :
    ∃ rest back, registry.Returns (name :: rest) back ∧
      cycle = (name :: rest).dropWhile (· ≠ back) ++ [back] := by
  unfold flatten at ended
  cases found : registry.get? name with
  | none => simp [found] at ended
  | some composition =>
      rw [found] at ended
      obtain ⟨_, back, ⟨rest, rfl⟩, returns, cycle_eq⟩ :=
        exists_path_of_foldOps_eq_some ended (List.isChain_singleton name)
          (List.nodup_singleton name) (onward_concat [] found)
      exact ⟨rest, back, returns, cycle_eq⟩

/-- Where a composition does not flatten, its cycle is a closed path of inclusions. -/
theorem traces_of_flatten {name : String} {cycle : Cycle}
    (ended : (registry.flatten name).2 = some cycle) :
    Cycle.Traces registry.Includes cycle := by
  obtain ⟨rest, back, returns, rfl⟩ := exists_path_of_flatten ended
  exact Cycle.traces_of_return returns.linked returns.nodup returns.entered returns.back

/-- The search in the graph finds nothing exactly if every composition flattens. -/
theorem cycles_graph_eq_nil_iff :
    registry.graph.cycles = [] ↔ ∀ name, (registry.flatten name).2 = none := by
  have same : registry.graph.Refers = registry.Includes := by
    funext outer inner
    exact propext refers_graph_iff
  rw [ReferenceGraph.cycles_eq_nil_iff, same]
  constructor
  · intro acyclic name
    cases ended : (registry.flatten name).2 with
    | none => rfl
    | some cycle =>
        obtain ⟨node, around⟩ := (traces_of_flatten ended).exists_transGen
        exact absurd around (acyclic node)
  · intro flattens name around
    exact Cycle.not_transGen_of_acc (grounded_of_flatten_eq_none (flattens name)) around

end LayerComposition.Registry
