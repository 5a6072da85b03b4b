import LayerComposition.Distinct

/-! # Active compositions

The compositions that are switched on, in the order in which they were switched on. The order
decides which composition wins where two of them write the same layer.
-/

namespace LayerComposition

/-- Names in the order of activation, each once. -/
structure ActiveSet where
  names : List String
  nodup : names.Nodup
  deriving DecidableEq

namespace ActiveSet

def empty : ActiveSet :=
  ⟨[], List.nodup_nil⟩

instance : EmptyCollection ActiveSet := ⟨empty⟩

/-- Activate the names of a list in order. A repeated name keeps its first place. -/
def ofList (names : List String) : ActiveSet :=
  ⟨distinct names, nodup_distinct names⟩

def contains (active : ActiveSet) (name : String) : Bool :=
  name ∈ active.names

/-- Activate a name at the end. An active name keeps its place. -/
def insert (active : ActiveSet) (name : String) : ActiveSet :=
  if present : name ∈ active.names then active
  else
    ⟨active.names ++ [name], by
      rw [List.nodup_append]
      refine ⟨active.nodup, by simp, ?_⟩
      rintro a ha _ hb rfl
      exact present (List.mem_singleton.1 hb ▸ ha)⟩

def remove (active : ActiveSet) (name : String) : ActiveSet :=
  ⟨active.names.filter (· ≠ name), active.nodup.sublist List.filter_sublist⟩

/-- Deactivate an active name, or activate an inactive one at the end, and tell which of the two it
    was: `false` of the first, `true` of the second. -/
def toggle (active : ActiveSet) (name : String) : Bool × ActiveSet :=
  if active.contains name then (false, active.remove name) else (true, active.insert name)

/-- One edit of an active set. -/
inductive Edit where
  | insert (name : String)
  | remove (name : String)
  | toggle (name : String)
  | clear
  deriving Repr, DecidableEq

/-- Make an edit. It tells of an insertion whether the name is new, of a removal whether the name
    was there, and of a toggle what the toggle tells. -/
def edit (active : ActiveSet) : Edit → Option Bool × ActiveSet
  | .insert name => (some (!active.contains name), active.insert name)
  | .remove name => (some (active.contains name), active.remove name)
  | .toggle name => (some (active.toggle name).1, (active.toggle name).2)
  | .clear => (none, ∅)

@[ext]
theorem ext {first second : ActiveSet} (h : first.names = second.names) : first = second := by
  cases first
  cases second
  simp only at h
  subst h
  rfl

@[simp]
theorem names_empty : (∅ : ActiveSet).names = [] := rfl

theorem names_insert (active : ActiveSet) (name : String) :
    (active.insert name).names =
      if name ∈ active.names then active.names else active.names ++ [name] := by
  unfold insert
  split <;> simp_all

@[simp]
theorem names_remove (active : ActiveSet) (name : String) :
    (active.remove name).names = active.names.filter (· ≠ name) := rfl

/-- Toggling takes an active name out and puts an inactive one last. -/
theorem names_toggle (active : ActiveSet) (name : String) :
    (active.toggle name).2.names =
      if name ∈ active.names then active.names.filter (· ≠ name)
      else active.names ++ [name] := by
  unfold toggle contains
  by_cases present : name ∈ active.names <;> simp [present, names_insert]

/-- A toggle tells that the name is active exactly if it was not. -/
theorem toggle_fst (active : ActiveSet) (name : String) :
    (active.toggle name).1 = !active.contains name := by
  unfold toggle
  cases active.contains name <;> rfl

theorem contains_toggle (active : ActiveSet) (name : String) :
    (active.toggle name).2.contains name = !active.contains name := by
  unfold contains
  rw [names_toggle]
  by_cases present : name ∈ active.names <;> simp [present]

end ActiveSet

end LayerComposition
