/-! # Keyed entries

Lists of pairs are read as finite maps: the first pair of a key holds its value.
-/

namespace LayerComposition.Entries

variable {α : Type}

theorem lookup_cons (key : String) (entry : String × α) (rest : List (String × α)) :
    (entry :: rest).lookup key = if key = entry.1 then some entry.2 else rest.lookup key := by
  obtain ⟨_, _⟩ := entry
  rw [List.lookup_cons]
  split <;> simp_all

/-- The entries of the first list come before those of the second. -/
theorem lookup_append (key : String) (first second : List (String × α)) :
    (first ++ second).lookup key = (first.lookup key).or (second.lookup key) := by
  induction first with
  | nil => simp
  | cons entry rest ih =>
      rw [List.cons_append, lookup_cons, lookup_cons, ih]
      split <;> simp

/-- A key has a value exactly when it is one of the keys. -/
theorem isSome_lookup (key : String) (entries : List (String × α)) :
    (entries.lookup key).isSome ↔ key ∈ entries.map Prod.fst := by
  induction entries with
  | nil => simp
  | cons entry rest ih => by_cases h : key = entry.1 <;> simp [lookup_cons, h, ih]

theorem mem_of_lookup {key : String} {value : α} {entries : List (String × α)}
    (found : entries.lookup key = some value) : (key, value) ∈ entries := by
  induction entries with
  | nil => simp at found
  | cons entry rest ih =>
      rw [lookup_cons] at found
      split at found
      · rename_i eq
        rw [eq, ← Option.some.inj found]
        exact List.mem_cons_self
      · exact List.mem_cons_of_mem _ (ih found)

/-- Where no key comes twice, an entry is the one of its key. -/
theorem lookup_of_mem {key : String} {value : α} {entries : List (String × α)}
    (nodup : (entries.map Prod.fst).Nodup) (mem : (key, value) ∈ entries) :
    entries.lookup key = some value := by
  induction entries with
  | nil => contradiction
  | cons entry rest ih =>
      obtain ⟨absent, rest_nodup⟩ := List.nodup_cons.1 nodup
      rcases List.mem_cons.1 mem with rfl | mem
      · rw [lookup_cons, if_pos rfl]
      · have differs : key ≠ entry.1 := fun same => absent (same ▸ List.mem_map_of_mem mem)
        rw [lookup_cons, if_neg differs, ih rest_nodup mem]

end LayerComposition.Entries
