import LayerComposition.Entries

/-! # Activation

An activation tells of some layer ids whether they are on. It is kept sorted by id, so two
activations that answer every question alike are equal (`Activation.ext_get?`).
-/

namespace LayerComposition

/-- On or off for some layer ids, in the order of the ids. An id without an entry is off. -/
structure Activation where
  entries : List (String × Bool)
  sorted : entries.Pairwise (·.1 < ·.1)
  deriving DecidableEq

namespace Activation

/-- Put an entry at its place among sorted entries, over an entry with the same id. -/
def place (id : String) (on : Bool) : List (String × Bool) → List (String × Bool)
  | [] => [(id, on)]
  | entry :: rest =>
      if id < entry.1 then (id, on) :: entry :: rest
      else if id = entry.1 then (id, on) :: rest
      else entry :: place id on rest

theorem mem_place {id : String} {on : Bool} {entries : List (String × Bool)}
    {entry : String × Bool} (h : entry ∈ place id on entries) :
    entry = (id, on) ∨ entry ∈ entries := by
  induction entries with
  | nil => simpa [place] using h
  | cons first rest ih =>
      rw [place] at h
      split at h
      · simpa using h
      · split at h
        · rcases List.mem_cons.1 h with h | h
          · exact .inl h
          · exact .inr (List.mem_cons_of_mem _ h)
        · rcases List.mem_cons.1 h with rfl | h
          · exact .inr List.mem_cons_self
          · exact (ih h).imp_right (List.mem_cons_of_mem _)

private theorem lt_of_not_lt_of_ne {a b : String} (not_lt : ¬a < b) (ne : a ≠ b) : b < a := by
  rcases String.le_total a b with h | h
  · exact absurd (String.le_antisymm h (String.not_lt.1 not_lt)) ne
  · exact String.not_le.1 fun h' => ne (String.le_antisymm h' h)

theorem sorted_place (id : String) (on : Bool) {entries : List (String × Bool)}
    (sorted : entries.Pairwise (·.1 < ·.1)) : (place id on entries).Pairwise (·.1 < ·.1) := by
  induction entries with
  | nil => simp [place]
  | cons first rest ih =>
      obtain ⟨first_lt, rest_sorted⟩ := List.pairwise_cons.1 sorted
      rw [place]
      split
      · rename_i lt
        refine List.pairwise_cons.2 ⟨fun entry mem => ?_, sorted⟩
        rcases List.mem_cons.1 mem with rfl | mem
        · exact lt
        · exact String.lt_trans lt (first_lt entry mem)
      · rename_i not_lt
        split
        · rename_i eq
          exact List.pairwise_cons.2 ⟨fun entry mem => eq ▸ first_lt entry mem, rest_sorted⟩
        · rename_i ne
          refine List.pairwise_cons.2 ⟨fun entry mem => ?_, ih rest_sorted⟩
          rcases mem_place mem with rfl | mem
          · exact lt_of_not_lt_of_ne not_lt ne
          · exact first_lt entry mem

def empty : Activation :=
  ⟨[], List.Pairwise.nil⟩

instance : EmptyCollection Activation := ⟨empty⟩

def get? (activation : Activation) (id : String) : Option Bool :=
  activation.entries.lookup id

def isOn (activation : Activation) (id : String) : Bool :=
  (activation.get? id).getD false

def set (activation : Activation) (id : String) (on : Bool) : Activation :=
  ⟨place id on activation.entries, sorted_place id on activation.sorted⟩

/-- Set the entries of a list one after the other, so that the last one of an id stands. -/
def write (activation : Activation) (writes : List (String × Bool)) : Activation :=
  writes.foldl (fun written (id, on) => written.set id on) activation

def ofList (writes : List (String × Bool)) : Activation :=
  write ∅ writes

def size (activation : Activation) : Nat :=
  activation.entries.length

theorem lookup_place (id other : String) (on : Bool) (entries : List (String × Bool)) :
    (place id on entries).lookup other =
      if other = id then some on else entries.lookup other := by
  induction entries with
  | nil => simp [place, Entries.lookup_cons]
  | cons first rest ih =>
      rw [place]
      split
      · simp [Entries.lookup_cons]
      · split
        · rename_i eq
          by_cases h : other = id
          · simp [h]
          · have other_ne : other ≠ first.1 := fun same => h (same.trans eq.symm)
            simp [Entries.lookup_cons, h, other_ne]
        · rename_i ne
          by_cases h : other = first.1
          · have other_ne : other ≠ id := fun same => ne (same.symm.trans h)
            rw [if_neg other_ne, Entries.lookup_cons, Entries.lookup_cons, if_pos h, if_pos h]
          · rw [Entries.lookup_cons, Entries.lookup_cons, if_neg h, if_neg h, ih]

/-- Setting an id changes the entry of that id and of no other. -/
theorem get?_set (activation : Activation) (id other : String) (on : Bool) :
    (activation.set id on).get? other = if other = id then some on else activation.get? other :=
  lookup_place id other on activation.entries

/-- What was written last to an id is its entry, and an id without a write keeps the one it
    had. -/
theorem get?_write (activation : Activation) (writes : List (String × Bool)) (id : String) :
    (activation.write writes).get? id = (writes.reverse.lookup id).or (activation.get? id) := by
  induction writes generalizing activation with
  | nil => simp [write]
  | cons first rest ih =>
      have step : activation.write (first :: rest) =
          (activation.set first.1 first.2).write rest := rfl
      rw [step, ih, get?_set, List.reverse_cons, Entries.lookup_append, Entries.lookup_cons]
      cases rest.reverse.lookup id <;> split <;> simp

theorem keys_nodup (activation : Activation) : (activation.entries.map Prod.fst).Nodup := by
  rw [List.Nodup, List.pairwise_map]
  refine activation.sorted.imp fun {a b} lt => ?_
  intro eq
  rw [eq] at lt
  exact String.lt_irrefl _ lt

private theorem lookup_eq_none_of_lt {id : String} {entries : List (String × Bool)}
    (lt : ∀ entry ∈ entries, id < entry.1) : entries.lookup id = none := by
  rw [← Option.not_isSome_iff_eq_none, Entries.isSome_lookup]
  rintro mem
  obtain ⟨entry, entry_mem, rfl⟩ := List.mem_map.1 mem
  exact String.lt_irrefl _ (lt entry entry_mem)

private theorem entries_eq_of_lookup_eq {first second : List (String × Bool)}
    (first_sorted : first.Pairwise (·.1 < ·.1)) (second_sorted : second.Pairwise (·.1 < ·.1))
    (same : ∀ id, first.lookup id = second.lookup id) : first = second := by
  induction first generalizing second with
  | nil =>
      cases second with
      | nil => rfl
      | cons entry rest => simpa [Entries.lookup_cons] using same entry.1
  | cons a as ih =>
      obtain ⟨a_lt, as_sorted⟩ := List.pairwise_cons.1 first_sorted
      cases second with
      | nil => simpa [Entries.lookup_cons] using same a.1
      | cons b bs =>
          obtain ⟨b_lt, bs_sorted⟩ := List.pairwise_cons.1 second_sorted
          have keys_eq : a.1 = b.1 := by
            by_cases eq : a.1 = b.1
            · exact eq
            by_cases lt : a.1 < b.1
            · have := same a.1
              rw [Entries.lookup_cons, if_pos rfl, lookup_eq_none_of_lt] at this
              · contradiction
              · rintro entry mem
                rcases List.mem_cons.1 mem with rfl | mem
                · exact lt
                · exact String.lt_trans lt (b_lt entry mem)
            · have lt := lt_of_not_lt_of_ne lt eq
              have := same b.1
              rw [Entries.lookup_cons b.1 b, if_pos rfl, lookup_eq_none_of_lt] at this
              · contradiction
              · rintro entry mem
                rcases List.mem_cons.1 mem with rfl | mem
                · exact lt
                · exact String.lt_trans lt (a_lt entry mem)
          have values_eq : a.2 = b.2 := by
            have := same a.1
            rwa [Entries.lookup_cons, if_pos rfl, Entries.lookup_cons, if_pos keys_eq,
              Option.some.injEq] at this
          have rests_eq : as = bs := by
            refine ih as_sorted bs_sorted fun id => ?_
            by_cases h : id = a.1
            · rw [h, lookup_eq_none_of_lt a_lt, lookup_eq_none_of_lt (keys_eq ▸ b_lt)]
            · simpa [Entries.lookup_cons, h, keys_eq ▸ h] using same id
          rw [rests_eq, Prod.ext keys_eq values_eq]

/-- Activations with the same entry, or absence of one, for every id are equal. -/
theorem ext_get? {first second : Activation} (same : ∀ id, first.get? id = second.get? id) :
    first = second := by
  cases first
  cases second
  simp only [mk.injEq]
  exact entries_eq_of_lookup_eq ‹_› ‹_› same

@[simp]
theorem get?_empty (id : String) : (∅ : Activation).get? id = none := rfl

end Activation

end LayerComposition
