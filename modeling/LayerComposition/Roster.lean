import LayerComposition.Entries

/-! # Rosters

A roster keeps one value for each key, in the order in which the keys were entered. Giving a
present key a new value leaves it at its place, and removing a key closes the gap.
-/

namespace LayerComposition

/-- Values by name, in the order of entry, each name once. -/
structure Roster (α : Type) where
  entries : List (String × α)
  keys_nodup : (entries.map Prod.fst).Nodup

namespace Roster

variable {α : Type}

def empty : Roster α :=
  ⟨[], List.nodup_nil⟩

instance : EmptyCollection (Roster α) := ⟨empty⟩

def keys (roster : Roster α) : List String :=
  roster.entries.map Prod.fst

def get? (roster : Roster α) (key : String) : Option α :=
  roster.entries.lookup key

def contains (roster : Roster α) (key : String) : Bool :=
  (roster.get? key).isSome

def size (roster : Roster α) : Nat :=
  roster.entries.length

/-- Give the entry named `key` the value `value`, if there is such an entry. -/
def replaceAt (key : String) (value : α) (entries : List (String × α)) : List (String × α) :=
  entries.map fun entry => if entry.1 = key then (key, value) else entry

theorem map_fst_replaceAt (key : String) (value : α) (entries : List (String × α)) :
    (replaceAt key value entries).map Prod.fst = entries.map Prod.fst := by
  simp only [replaceAt, List.map_map]
  refine List.map_congr_left fun entry _ => ?_
  by_cases h : entry.1 = key <;> simp [h]

/-- Enter a value. A present name keeps its place, a new one goes to the end. -/
def put (roster : Roster α) (key : String) (value : α) : Roster α :=
  if present : key ∈ roster.entries.map Prod.fst then
    ⟨replaceAt key value roster.entries, by
      rw [map_fst_replaceAt]
      exact roster.keys_nodup⟩
  else
    ⟨roster.entries ++ [(key, value)], by
      rw [List.map_append, List.nodup_append]
      refine ⟨roster.keys_nodup, by simp, ?_⟩
      rintro a ha _ hb rfl
      simp only [List.map_cons, List.map_nil, List.mem_singleton] at hb
      exact present (hb ▸ ha)⟩

def remove (roster : Roster α) (key : String) : Roster α :=
  ⟨roster.entries.filter (·.1 ≠ key), roster.keys_nodup.sublist (List.filter_sublist.map _)⟩

/-- Remove all names. -/
def clear (_roster : Roster α) : Roster α :=
  ∅

def ofList (pairs : List (String × α)) : Roster α :=
  pairs.foldl (fun roster (key, value) => roster.put key value) ∅

/-- One edit of a roster. -/
inductive Edit (α : Type) where
  | put (key : String) (value : α)
  | remove (key : String)
  | clear
  deriving Repr, DecidableEq

/-- Make an edit. It tells of a removal which value was held. -/
def edit (roster : Roster α) : Edit α → Option α × Roster α
  | .put key value => (none, roster.put key value)
  | .remove key => (roster.get? key, roster.remove key)
  | .clear => (none, roster.clear)

@[ext]
theorem ext {first second : Roster α} (h : first.entries = second.entries) : first = second := by
  cases first
  cases second
  simp only at h
  subst h
  rfl

@[simp]
theorem entries_empty : (∅ : Roster α).entries = [] := rfl

/-- Entering a value keeps the names and their order, with a new name last. -/
theorem keys_put (roster : Roster α) (key : String) (value : α) :
    (roster.put key value).keys =
      if key ∈ roster.keys then roster.keys else roster.keys ++ [key] := by
  unfold put keys
  split
  · exact map_fst_replaceAt key value roster.entries
  · simp_all

/-- A name is entered exactly if it is one of the names. -/
theorem contains_iff_mem_keys {roster : Roster α} {key : String} :
    roster.contains key = true ↔ key ∈ roster.keys :=
  Entries.isSome_lookup key roster.entries

/-- The names of a list of pairs are entered, and no others. -/
theorem mem_keys_ofList {pairs : List (String × α)} {key : String} :
    key ∈ (ofList pairs).keys ↔ key ∈ pairs.map Prod.fst := by
  have entered (roster : Roster α) :
      key ∈ (pairs.foldl (fun roster (key, value) => roster.put key value) roster).keys ↔
        key ∈ roster.keys ∨ key ∈ pairs.map Prod.fst := by
    induction pairs generalizing roster with
    | nil => simp
    | cons pair rest ih =>
        have put : key ∈ (roster.put pair.1 pair.2).keys ↔ key ∈ roster.keys ∨ key = pair.1 := by
          rw [keys_put]
          split
          · rename_i present
            exact ⟨.inl, fun h => h.elim id fun same => same ▸ present⟩
          · simp
        rw [List.foldl_cons, ih, put, List.map_cons, List.mem_cons, or_assoc]
  refine (entered ∅).trans ?_
  simp [keys]

/-- After a value was entered, an entry is the one of that value or was there before. -/
theorem eq_or_mem_of_mem_put {roster : Roster α} {key : String} {value : α} {entry : String × α}
    (mem : entry ∈ (roster.put key value).entries) :
    entry = (key, value) ∨ entry ∈ roster.entries := by
  unfold put at mem
  split at mem
  · obtain ⟨old, old_mem, rfl⟩ := List.mem_map.1 mem
    split
    · exact .inl rfl
    · exact .inr old_mem
  · rcases List.mem_append.1 mem with old | new
    · exact .inr old
    · exact .inl (List.mem_singleton.1 new)

/-- Nothing is entered but the pairs of a list. -/
theorem mem_of_mem_ofList {pairs : List (String × α)} {entry : String × α}
    (mem : entry ∈ (ofList pairs).entries) : entry ∈ pairs := by
  have entered (roster : Roster α) :
      entry ∈ (pairs.foldl (fun roster (key, value) => roster.put key value) roster).entries →
        entry ∈ roster.entries ∨ entry ∈ pairs := by
    clear mem
    induction pairs generalizing roster with
    | nil => exact .inl
    | cons pair rest ih =>
        intro mem
        rcases ih (roster.put pair.1 pair.2) mem with before | later
        · rcases eq_or_mem_of_mem_put before with new | old
          · exact .inr (List.mem_cons.2 (.inl new))
          · exact .inl old
        · exact .inr (List.mem_cons_of_mem _ later)
  exact (entered ∅ mem).resolve_left List.not_mem_nil

private theorem lookup_replaceAt (key other : String) (value : α)
    (entries : List (String × α)) (present : key ∈ entries.map Prod.fst) :
    (replaceAt key value entries).lookup other =
      if other = key then some value else entries.lookup other := by
  induction entries with
  | nil => simp at present
  | cons entry rest ih =>
      have unfolded : replaceAt key value (entry :: rest) =
          (if entry.1 = key then (key, value) else entry) :: replaceAt key value rest := rfl
      rw [unfolded, Entries.lookup_cons, Entries.lookup_cons]
      by_cases first : entry.1 = key
      · by_cases same : other = key
        · simp [first, same]
        · have rest_eq : (replaceAt key value rest).lookup other = rest.lookup other := by
            by_cases later : key ∈ rest.map Prod.fst
            · rw [ih later, if_neg same]
            · rw [replaceAt, List.map_congr_left (g := id), List.map_id]
              intro entry mem
              refine if_neg fun eq => later ?_
              exact eq ▸ List.mem_map_of_mem mem
          simp [first, same, rest_eq]
      · have later : key ∈ rest.map Prod.fst := by
          rcases List.mem_cons.1 present with eq | mem
          · exact absurd eq.symm first
          · exact mem
        rw [if_neg first, ih later]
        by_cases same : other = entry.1
        · have differ : other ≠ key := fun eq => first (same.symm.trans eq)
          simp [same, first]
        · simp [same]

@[simp]
theorem get?_empty (key : String) : (∅ : Roster α).get? key = none := rfl

/-- Entering a value changes what is held for its name and for no other. -/
theorem get?_put (roster : Roster α) (key other : String) (value : α) :
    (roster.put key value).get? other =
      if other = key then some value else roster.get? other := by
  unfold put get?
  split
  · rename_i present
    exact lookup_replaceAt key other value roster.entries present
  · rename_i absent
    rw [Entries.lookup_append]
    by_cases same : other = key
    · have missing : roster.entries.lookup other = none := by
        rw [← Option.not_isSome_iff_eq_none, Entries.isSome_lookup, same]
        exact absent
      rw [missing, if_pos same, Entries.lookup_cons, if_pos same]
      rfl
    · rw [if_neg same, Entries.lookup_cons, if_neg same]
      simp

/-- Of a list of pairs, the last one of a name holds its value. -/
theorem get?_ofList (pairs : List (String × α)) (key : String) :
    (ofList pairs).get? key = pairs.reverse.lookup key := by
  have entered (roster : Roster α) :
      (pairs.foldl (fun roster (key, value) => roster.put key value) roster).get? key =
        (pairs.reverse.lookup key).or (roster.get? key) := by
    induction pairs generalizing roster with
    | nil => simp
    | cons pair rest ih =>
        rw [List.foldl_cons, ih, get?_put, List.reverse_cons, Entries.lookup_append,
          Entries.lookup_cons]
        cases rest.reverse.lookup key <;> split <;> simp
  exact (entered ∅).trans (by simp)

/-- Removing a name leaves what is held for the others. -/
theorem get?_remove (roster : Roster α) (key other : String) :
    (roster.remove key).get? other = if other = key then none else roster.get? other := by
  simp only [remove, get?]
  induction roster.entries with
  | nil => simp
  | cons entry rest ih =>
      by_cases kept : entry.1 = key
      · rw [List.filter_cons_of_neg (by simp [kept]), ih, Entries.lookup_cons, kept]
        by_cases same : other = key <;> simp [same]
      · rw [List.filter_cons_of_pos (by simp [kept]), Entries.lookup_cons, ih,
          Entries.lookup_cons]
        by_cases same : other = key
        · simp [same, Ne.symm kept]
        · simp [same]

/-- Removing a name takes it out of the names and leaves the others in order. -/
theorem keys_remove (roster : Roster α) (key : String) :
    (roster.remove key).keys = roster.keys.filter (· ≠ key) := by
  simp only [remove, keys, List.filter_map, Function.comp_def]

end Roster

end LayerComposition
