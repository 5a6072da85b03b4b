import LayerComposition.Proofs.CycleVerdict

/-! # Choices that fail

A choice of active compositions fails exactly if one of them leads, along the parts that are
compositions, to one that includes itself. The first of them that does so is to blame, and the
error shows a closed path of inclusions that it leads to.
-/

namespace LayerComposition

namespace Registry

variable {registry : Registry} {name : String}

/-- A composition is, or includes directly or through others, one that includes itself. -/
def LeadsIntoCycle (registry : Registry) (name : String) : Prop :=
  ∃ inner, Relation.ReflTransGen registry.Includes name inner ∧
    Relation.TransGen registry.Includes inner inner

/-- The cycle with which a composition ends begins with a name that the composition leads to. -/
theorem exists_head_of_flatten {cycle : Cycle}
    (ended : (registry.flatten name).2 = some cycle) :
    ∃ back, cycle.head? = some back ∧ Relation.ReflTransGen registry.Includes name back := by
  obtain ⟨rest, back, returns, rfl⟩ := exists_path_of_flatten ended
  refine ⟨back, Cycle.head?_dropWhile_concat returns.entered, ?_⟩
  have onward : (name :: rest).Pairwise (Relation.ReflTransGen registry.Includes) :=
    List.isChain_iff_pairwise.1 (returns.linked.imp fun _ _ step => .single step)
  rcases List.mem_cons.1 returns.entered with rfl | mem
  · exact .refl
  · exact (List.pairwise_cons.1 onward).1 back mem

theorem leadsIntoCycle_iff : registry.LeadsIntoCycle name ↔ (registry.flatten name).2 ≠ none := by
  constructor
  · rintro ⟨inner, reaches, around⟩ ended
    have grounded := Cycle.acc_of_reflTransGen (grounded_of_flatten_eq_none ended) reaches
    exact Cycle.not_transGen_of_acc grounded around
  · intro fails
    obtain ⟨cycle, ended⟩ := Option.ne_none_iff_exists'.1 fails
    obtain ⟨back, first, reaches⟩ := exists_head_of_flatten ended
    have back_mem := List.mem_of_mem_head? first
    exact ⟨back, reaches, (traces_of_flatten ended).transGen back_mem back_mem⟩

end Registry

namespace Definitions

variable {definitions : Definitions} {active : ActiveSet} {pins : Pins} {cycle : Cycle}

/-- Expanding names one after the other fails with the cycle of the first one that has one. -/
theorem foldlM_expandInto_eq_error {names : List String} {activation : Activation} :
    names.foldlM definitions.expandInto activation = .error cycle ↔
      names.findSome? (fun name => (definitions.registry.flatten name).2) = some cycle := by
  induction names generalizing activation with
  | nil =>
      constructor
      · intro failed
        exact nomatch failed
      · intro found
        exact nomatch found
  | cons name rest ih =>
      rw [List.foldlM_cons, expandInto_eq, List.findSome?_cons]
      cases (definitions.registry.flatten name).2 with
      | some other =>
          constructor
          · intro failed
            exact congrArg some (Except.error.inj failed)
          · intro found
            exact congrArg Except.error (Option.some.inj found)
      | none => exact ih

theorem resolve_eq_error_iff :
    definitions.resolve active pins = .error cycle ↔
      definitions.presetState active = .error cycle := by
  unfold resolve
  cases definitions.presetState active <;> simp [Except.map]

/-- A cycle is what ends the first active composition that leads into one: a closed path of
    inclusions, which begins with a name that the composition leads to. -/
structure Blames (definitions : Definitions) (active : ActiveSet) (cycle : Cycle)
    (name : String) : Prop where
  first : ∃ before after, active.names = before ++ name :: after ∧
    ∀ other ∈ before, ¬definitions.registry.LeadsIntoCycle other
  leads : definitions.registry.LeadsIntoCycle name
  expands : ∀ activation, definitions.expandInto activation name = .error cycle
  traces : Cycle.Traces definitions.registry.Includes cycle
  reached : ∃ back, cycle.head? = some back ∧
    Relation.ReflTransGen definitions.registry.Includes name back

theorem expandInto_eq_error_iff {activation : Activation} {name : String} :
    definitions.expandInto activation name = .error cycle ↔
      (definitions.registry.flatten name).2 = some cycle := by
  rw [expandInto_eq]
  cases (definitions.registry.flatten name).2 <;> simp

theorem blames_iff {name : String} :
    definitions.Blames active cycle name ↔
      ∃ before after, active.names = before ++ name :: after ∧
        (definitions.registry.flatten name).2 = some cycle ∧
        ∀ other ∈ before, (definitions.registry.flatten other).2 = none := by
  have flattens (other : String) : ¬definitions.registry.LeadsIntoCycle other ↔
      (definitions.registry.flatten other).2 = none := by
    rw [Registry.leadsIntoCycle_iff, not_not]
  constructor
  · rintro ⟨⟨before, after, split, acyclic⟩, _, expands, _, _⟩
    exact ⟨before, after, split, expandInto_eq_error_iff.1 (expands ∅),
      fun other mem => (flattens other).1 (acyclic other mem)⟩
  · rintro ⟨before, after, split, cyclic, acyclic⟩
    constructor
    case first =>
      exact ⟨before, after, split, fun other mem => (flattens other).2 (acyclic other mem)⟩
    case leads => exact Registry.leadsIntoCycle_iff.2 (by simp [cyclic])
    case expands => exact fun _ => expandInto_eq_error_iff.2 cyclic
    case traces => exact Registry.traces_of_flatten cyclic
    case reached => exact Registry.exists_head_of_flatten cyclic

/-- A choice fails exactly if an active composition leads into a cycle, whatever is pinned. It
    fails with the cycle that ends the first such composition. -/
theorem resolve_eq_error_iff_blames (definitions : Definitions) (active : ActiveSet)
    (pins : Pins) :
    ((∃ cycle, definitions.resolve active pins = .error cycle) ↔
        ∃ name ∈ active.names, definitions.registry.LeadsIntoCycle name) ∧
      ∀ cycle, definitions.resolve active pins = .error cycle ↔
        ∃ name, definitions.Blames active cycle name := by
  have blamed (cycle : Cycle) : definitions.resolve active pins = .error cycle ↔
      ∃ name, definitions.Blames active cycle name := by
    rw [resolve_eq_error_iff, presetState, foldlM_expandInto_eq_error,
      List.findSome?_eq_some_iff, exists_comm]
    exact exists_congr fun name => blames_iff.symm
  refine ⟨?_, blamed⟩
  constructor
  · rintro ⟨cycle, failed⟩
    obtain ⟨name, blames⟩ := (blamed cycle).1 failed
    obtain ⟨before, after, split, _⟩ := blames.first
    exact ⟨name, by simp [split], blames.leads⟩
  · rintro ⟨name, mem, leads⟩
    cases resolved : definitions.resolve active pins with
    | error cycle => exact ⟨cycle, rfl⟩
    | ok result =>
        obtain ⟨preset, preset_eq, _⟩ := resolve_eq_ok_iff.1 resolved
        exact absurd ((presetState_eq_ok_iff.1 preset_eq).1 name mem)
          (Registry.leadsIntoCycle_iff.1 leads)

end Definitions

end LayerComposition
