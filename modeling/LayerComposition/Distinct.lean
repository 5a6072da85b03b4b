/-! # First occurrences

Names, ids and references are often listed more than once. `distinctOn` keeps the first entry
of each key, and `repeatsOn` tells which keys came again, in the order in which they came.
-/

namespace LayerComposition

theorem nodup_concat {α : Type} {values : List α} {value : α} (nodup : values.Nodup)
    (absent : value ∉ values) : (values ++ [value]).Nodup := by
  rw [List.nodup_append]
  refine ⟨nodup, by simp, ?_⟩
  rintro a ha _ hb rfl
  exact absent (List.mem_singleton.1 hb ▸ ha)

variable {α β : Type} [DecidableEq β]

/-- The entries whose key is neither in `seen` nor the key of an earlier entry. -/
def distinctFrom (key : α → β) (seen : List β) : List α → List α
  | [] => []
  | a :: rest =>
      if key a ∈ seen then distinctFrom key seen rest
      else a :: distinctFrom key (key a :: seen) rest

/-- The keys of the entries whose key is in `seen` or is the key of an earlier entry. -/
def repeatsFrom (key : α → β) (seen : List β) : List α → List β
  | [] => []
  | a :: rest =>
      if key a ∈ seen then key a :: repeatsFrom key seen rest
      else repeatsFrom key (key a :: seen) rest

def distinctOn (key : α → β) (entries : List α) : List α :=
  distinctFrom key [] entries

/-- The key of each entry that is not the first of its key, in order. -/
def repeatsOn (key : α → β) (entries : List α) : List β :=
  repeatsFrom key [] entries

/-- Each value once, in the order of first occurrence. -/
abbrev distinct (values : List β) : List β :=
  distinctOn id values

theorem not_mem_of_mem_distinctFrom {key : α → β} {seen : List β} {entries : List α} {a : α}
    (h : a ∈ distinctFrom key seen entries) : key a ∉ seen := by
  induction entries generalizing seen with
  | nil => simp [distinctFrom] at h
  | cons b rest ih =>
      rw [distinctFrom] at h
      split at h
      · exact ih h
      · rcases List.mem_cons.1 h with rfl | h
        · assumption
        · exact fun hmem => ih h (List.mem_cons_of_mem _ hmem)

theorem nodup_map_distinctFrom (key : α → β) (seen : List β) (entries : List α) :
    ((distinctFrom key seen entries).map key).Nodup := by
  induction entries generalizing seen with
  | nil => simp [distinctFrom]
  | cons a rest ih =>
      rw [distinctFrom]
      split
      · exact ih seen
      · rw [List.map_cons, List.nodup_cons]
        refine ⟨fun hmem => ?_, ih _⟩
        obtain ⟨b, hb, hkey⟩ := List.mem_map.1 hmem
        exact not_mem_of_mem_distinctFrom hb (hkey ▸ List.mem_cons_self)

theorem distinctFrom_sublist (key : α → β) (seen : List β) (entries : List α) :
    (distinctFrom key seen entries).Sublist entries := by
  induction entries generalizing seen with
  | nil => simp [distinctFrom]
  | cons a rest ih =>
      rw [distinctFrom]
      split
      · exact (ih seen).cons a
      · exact (ih _).cons_cons a

theorem nodup_map_distinctOn (key : α → β) (entries : List α) :
    ((distinctOn key entries).map key).Nodup :=
  nodup_map_distinctFrom key [] entries

theorem nodup_distinct (values : List β) : (distinct values).Nodup := by
  simpa using nodup_map_distinctOn id values

/-- The values that are kept are those of the list. -/
theorem mem_distinct {values : List β} {b : β} : b ∈ distinct values ↔ b ∈ values := by
  have kept (seen : List β) : b ∈ distinctFrom id seen values ↔ b ∈ values ∧ b ∉ seen := by
    induction values generalizing seen with
    | nil => simp [distinctFrom]
    | cons first rest ih =>
        rw [distinctFrom]
        by_cases same : b = first
        · subst same
          split <;> simp_all
        · split <;> simp [ih, same]
  exact (kept []).trans (by simp)

theorem distinctFrom_eq_self {key : α → β} {seen : List β} {entries : List α}
    (nodup : (entries.map key).Nodup) (free : ∀ a ∈ entries, key a ∉ seen) :
    distinctFrom key seen entries = entries := by
  induction entries generalizing seen with
  | nil => rfl
  | cons first rest ih =>
      obtain ⟨absent, rest_nodup⟩ := List.nodup_cons.1 nodup
      rw [distinctFrom, if_neg (free first List.mem_cons_self), ih rest_nodup]
      intro other mem entered
      rcases List.mem_cons.1 entered with same | entered
      · exact absent (same ▸ List.mem_map_of_mem mem)
      · exact free other (List.mem_cons_of_mem _ mem) entered

theorem distinctOn_eq_self {key : α → β} {entries : List α} (nodup : (entries.map key).Nodup) :
    distinctOn key entries = entries :=
  distinctFrom_eq_self nodup (by simp)

theorem distinct_eq_self {values : List β} (nodup : values.Nodup) : distinct values = values :=
  distinctOn_eq_self (by simpa using nodup)

theorem repeatsFrom_eq_nil_iff {key : α → β} {seen : List β} {entries : List α} :
    repeatsFrom key seen entries = [] ↔
      (entries.map key).Nodup ∧ ∀ a ∈ entries, key a ∉ seen := by
  induction entries generalizing seen with
  | nil => simp [repeatsFrom]
  | cons first rest ih =>
      rw [repeatsFrom]
      split
      · rename_i again
        simp [again]
      · rename_i fresh
        rw [ih]
        simp only [List.mem_cons, not_or, forall_eq_or_imp, List.map_cons, List.nodup_cons,
          List.mem_map, not_exists, not_and]
        constructor
        · rintro ⟨nodup, free⟩
          exact ⟨⟨fun a mem => (free a mem).1, nodup⟩, fresh, fun a mem => (free a mem).2⟩
        · rintro ⟨⟨absent, nodup⟩, _, free⟩
          exact ⟨nodup, fun a mem => ⟨absent a mem, free a mem⟩⟩

/-- Nothing comes again exactly if no two entries have one key. -/
theorem repeatsOn_eq_nil_iff {key : α → β} {entries : List α} :
    repeatsOn key entries = [] ↔ (entries.map key).Nodup :=
  repeatsFrom_eq_nil_iff.trans (by simp)

end LayerComposition
