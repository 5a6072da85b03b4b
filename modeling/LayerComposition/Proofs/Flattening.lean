import LayerComposition.Expansion.DepthFirst
import LayerComposition.Proofs.Cycle

/-! # Recursive expansion

Expansion as a recursive function: parts in order, a composition in its place and on every
mention again, and an end to everything where a composition of the current path comes back.
`Registry.foldOps` is this walk for any use of the ops. Applying them is what `Registry.expand`
does with its stack, and collecting them flattens a composition into one sequence of ops.

The walk asks only whether a composition bears the name of a part, and whether the part reads as an
op; nothing of the step that `Registry.expand` takes goes into it.
-/

namespace LayerComposition

namespace Registry

/-- The compositions that may still be entered inside those of a path. -/
def unentered (registry : Registry) (path : List String) : List String :=
  registry.names.filter (· ∉ path)

theorem length_unentered_lt {registry : Registry} {path : List String} {part : String}
    {inner : Composition} (found : registry.get? part = some inner) (fresh : part ∉ path) :
    (registry.unentered (path ++ [part])).length < (registry.unentered path).length := by
  have enterable : part ∈ registry.unentered path :=
    List.mem_filter.2 ⟨mem_names_of_get? found, by simpa using fresh⟩
  have fewer : registry.unentered (path ++ [part]) =
      (registry.unentered path).filter (· ≠ part) := by
    simp only [unentered, List.filter_filter]
    apply List.filter_congr
    intro name _
    simp [and_comm]
  rw [fewer]
  refine List.length_filter_lt_length_iff_exists.2 ⟨part, enterable, ?_⟩
  simp

/-- Take parts in order inside the compositions of `path`, outermost first, and fold over the
    ops among them. A part that names a composition stands for the parts of that, whatever else it
    could be read as. A part that is neither a name nor an op is passed over. Entering a composition
    of the path ends everything with the cycle that this closes. -/
def foldOps {σ : Type} (registry : Registry) (useOp : σ → Op → σ) (path : List String) :
    List String → σ → σ × Option Cycle
  | [], state => (state, none)
  | part :: parts, state =>
      match _found : registry.get? part with
      | some inner =>
          if _entered : part ∈ path then
            (state, some (path.dropWhile (· ≠ part) ++ [part]))
          else
            match foldOps registry useOp (path ++ [part]) inner.parts state with
            | (between, none) => foldOps registry useOp path parts between
            | (between, some cycle) => (between, some cycle)
      | none =>
          match Op.read? part with
          | some op => foldOps registry useOp path parts (useOp state op)
          | none => foldOps registry useOp path parts state
termination_by parts => ((registry.unentered path).length, parts.length)
decreasing_by
  · exact Prod.Lex.left _ _ (length_unentered_lt _found _entered)
  · exact Prod.Lex.right _ (by simp)
  · exact Prod.Lex.right _ (by simp)
  · exact Prod.Lex.right _ (by simp)

section foldOps

variable {σ : Type} {registry : Registry} {useOp : σ → Op → σ} {path parts : List String}
  {part : String} {state : σ}

@[simp]
theorem foldOps_nil : registry.foldOps useOp path [] state = (state, none) := by
  rw [foldOps]

theorem foldOps_op {op : Op} (unnamed : registry.get? part = none)
    (reads : Op.read? part = some op) :
    registry.foldOps useOp path (part :: parts) state =
      registry.foldOps useOp path parts (useOp state op) := by
  rw [foldOps, unnamed, reads]

theorem foldOps_unknown (unnamed : registry.get? part = none) (refused : Op.read? part = none) :
    registry.foldOps useOp path (part :: parts) state =
      registry.foldOps useOp path parts state := by
  rw [foldOps, unnamed, refused]

theorem foldOps_cycle {inner : Composition} (found : registry.get? part = some inner)
    (entered : part ∈ path) :
    registry.foldOps useOp path (part :: parts) state =
      (state, some (path.dropWhile (· ≠ part) ++ [part])) := by
  rw [foldOps, found]
  exact dif_pos entered

theorem foldOps_composition {inner : Composition} (found : registry.get? part = some inner)
    (fresh : part ∉ path) :
    registry.foldOps useOp path (part :: parts) state =
      match registry.foldOps useOp (path ++ [part]) inner.parts state with
      | (between, none) => registry.foldOps useOp path parts between
      | (between, some cycle) => (between, some cycle) := by
  rw [foldOps, found]
  exact dif_neg fresh

end foldOps

/-- The recursive expansion of the composition with a name. A name without a composition does
    nothing. -/
def expandRecursively (registry : Registry) (catalog : Catalog) (name : String)
    (activation : Activation) : Expansion.Outcome :=
  match registry.get? name with
  | none => ⟨activation, none⟩
  | some composition =>
      let (written, cycle) :=
        registry.foldOps (Op.apply catalog) [name] composition.parts activation
      ⟨written, cycle⟩

/-- The ops of the composition with a name in depth-first order, up to where a cycle closes. -/
def flatten (registry : Registry) (name : String) : List Op × Option Cycle :=
  match registry.get? name with
  | none => ([], none)
  | some composition =>
      registry.foldOps (fun ops op => ops ++ [op]) [name] composition.parts []

/-- The recursion has the depth-first outcome of the parts. -/
theorem depthFirst_foldOps (registry : Registry) (catalog : Catalog) {path : List String}
    (nodup : path.Nodup) (parts : List String) (activation : Activation) :
    DepthFirst catalog registry path.reverse parts activation
      ⟨(registry.foldOps (Op.apply catalog) path parts activation).1,
        (registry.foldOps (Op.apply catalog) path parts activation).2⟩ := by
  -- The relation has its path innermost first, the recursion outermost first.
  fun_induction foldOps registry (Op.apply catalog) path parts activation with
  | case1 path activation => exact .done
  | case2 path part parts activation inner found entered =>
      rw [← Cycle.close_reverse nodup entered]
      exact .cycle found (List.mem_reverse.2 entered)
  | case3 path part parts activation inner found fresh between within withinIh afterIh =>
      have withinRun := withinIh (nodup_concat nodup fresh)
      rw [within, List.reverse_append] at withinRun
      exact .composition found (by simpa using fresh) withinRun (afterIh nodup)
  | case4 path part parts activation inner found fresh between cycle within withinIh =>
      have withinRun := withinIh (nodup_concat nodup fresh)
      rw [within, List.reverse_append] at withinRun
      exact .cycleWithin found (by simpa using fresh) withinRun
  | case5 path part parts activation unnamed op reads ih => exact .op unnamed reads (ih nodup)
  | case6 path part parts activation unnamed refused ih =>
      exact .unknown unnamed refused (ih nodup)

/-- Folding over the ops as they are met is folding over the collected ops. -/
theorem foldOps_eq_foldl {σ : Type} (registry : Registry) (useOp : σ → Op → σ)
    (path parts : List String) (before : List Op) (state : σ) :
    registry.foldOps useOp path parts (before.foldl useOp state) =
      ((registry.foldOps (fun ops op => ops ++ [op]) path parts before).1.foldl useOp state,
        (registry.foldOps (fun ops op => ops ++ [op]) path parts before).2) := by
  -- Induction on the walk that collects, with any ops collected before it.
  fun_induction foldOps registry (fun ops op => ops ++ [op]) path parts before with
  | case1 path before => rw [foldOps_nil]
  | case2 path part parts before inner found entered => rw [foldOps_cycle found entered]
  | case3 path part parts before inner found fresh between within withinIh afterIh =>
      rw [foldOps_composition found fresh, withinIh, within]
      exact afterIh
  | case4 path part parts before inner found fresh between cycle within withinIh =>
      rw [foldOps_composition found fresh, withinIh, within]
  | case5 path part parts before unnamed op reads ih =>
      rw [foldOps_op unnamed reads, ← ih, List.foldl_append]
      rfl
  | case6 path part parts before unnamed refused ih =>
      rw [foldOps_unknown unnamed refused]
      exact ih

/-- What an expansion leaves is what the flattened composition writes. -/
theorem expand_eq_flatten (registry : Registry) (catalog : Catalog) (name : String)
    (activation : Activation) :
    registry.expand catalog name activation =
      ⟨Op.applyAll catalog activation (registry.flatten name).1, (registry.flatten name).2⟩ := by
  unfold flatten
  cases found : registry.get? name with
  | none =>
      rw [expand_of_get?_eq_none found]
      rfl
  | some composition =>
      have recursion := depthFirst_foldOps registry catalog (List.nodup_singleton name)
        composition.parts activation
      have collected := foldOps_eq_foldl registry (Op.apply catalog) [name] composition.parts []
        activation
      rw [List.foldl_nil] at collected
      rw [collected] at recursion
      exact (expand_eq_iff found activation _).2 recursion

/-- The stack of frames computes the recursive expansion: the same outcome from every
    activation, with the ops before the end written in depth-first order. -/
theorem expand_eq_expandRecursively (registry : Registry) (catalog : Catalog) (name : String)
    (activation : Activation) :
    registry.expand catalog name activation =
        registry.expandRecursively catalog name activation ∧
      (registry.expand catalog name activation).activation =
        Op.applyAll catalog activation (registry.flatten name).1 := by
  refine ⟨?_, congrArg Expansion.Outcome.activation (expand_eq_flatten ..)⟩
  unfold expandRecursively
  cases found : registry.get? name with
  | none => exact expand_of_get?_eq_none found activation
  | some composition =>
      exact (expand_eq_iff found activation _).2
        (depthFirst_foldOps registry catalog (List.nodup_singleton name) composition.parts
          activation)

end Registry

end LayerComposition
