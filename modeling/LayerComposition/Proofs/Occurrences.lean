import Mathlib.Data.List.Induction
import LayerComposition.Distinct
import LayerComposition.Roster

/-! # Occurrences

Which entries of a list are the first ones with their key, and which come after another one with
it, told by where they stand. Keeping the first definitions of a list, and listing what is defined
again, is described by this; so is the order in which a roster holds its names.
-/

namespace LayerComposition

section Positions

variable {α β : Type} [DecidableEq β]

/-- The entries with a key that no entry before them has. -/
def firstsOn (key : α → β) (entries : List α) : List α :=
  (entries.zipIdx.filter fun (entry, position) =>
    key entry ∉ (entries.take position).map key).map Prod.fst

/-- The entries with a key that an entry before them has. -/
def latersOn (key : α → β) (entries : List α) : List α :=
  (entries.zipIdx.filter fun (entry, position) =>
    key entry ∈ (entries.take position).map key).map Prod.fst

/-- Entries that are chosen by what stands before them: a further entry changes nothing for those
    before it. -/
private theorem map_fst_filter_zipIdx_concat (chosen : α → List α → Bool) (entries : List α)
    (entry : α) :
    ((entries ++ [entry]).zipIdx.filter fun (other, position) =>
        chosen other ((entries ++ [entry]).take position)).map Prod.fst =
      (entries.zipIdx.filter fun (other, position) =>
        chosen other (entries.take position)).map Prod.fst ++
          if chosen entry entries then [entry] else [] := by
  have before : ∀ pair ∈ entries.zipIdx,
      chosen pair.1 ((entries ++ [entry]).take pair.2) =
        chosen pair.1 (entries.take pair.2) := by
    intro pair mem
    have inside := List.snd_lt_of_mem_zipIdx mem
    rw [List.take_append_of_le_length (by omega)]
  rw [List.zipIdx_append, List.filter_append, List.map_append, List.filter_congr before]
  congr 1
  cases holds : chosen entry entries <;> simp [holds]

theorem firstsOn_concat (key : α → β) (entries : List α) (entry : α) :
    firstsOn key (entries ++ [entry]) =
      firstsOn key entries ++ if key entry ∈ entries.map key then [] else [entry] := by
  have concat := map_fst_filter_zipIdx_concat (fun other earlier => key other ∉ earlier.map key)
    entries entry
  rw [firstsOn, concat, firstsOn]
  simp only [decide_eq_true_eq, ite_not]

theorem latersOn_concat (key : α → β) (entries : List α) (entry : α) :
    latersOn key (entries ++ [entry]) =
      latersOn key entries ++ if key entry ∈ entries.map key then [entry] else [] := by
  have concat := map_fst_filter_zipIdx_concat (fun other earlier => key other ∈ earlier.map key)
    entries entry
  rw [latersOn, concat, latersOn]
  simp only [decide_eq_true_eq]

theorem firstsOn_map (key : α → β) (entries : List α) :
    firstsOn id (entries.map key) = (firstsOn key entries).map key := by
  induction entries using List.reverseRecOn with
  | nil => rfl
  | append_singleton before entry ih =>
      rw [List.map_append, List.map_singleton, firstsOn_concat, firstsOn_concat, ih,
        List.map_append, apply_ite (List.map key)]
      simp

/-- Every entry is either the first of its key or a later one. -/
theorem length_firstsOn_add_length_latersOn (key : α → β) (entries : List α) :
    (firstsOn key entries).length + (latersOn key entries).length = entries.length := by
  induction entries using List.reverseRecOn with
  | nil => rfl
  | append_singleton before entry ih =>
      rw [firstsOn_concat, latersOn_concat]
      split <;> simp only [List.length_append, List.length_cons, List.length_nil] <;> omega

private theorem distinctFrom_concat (key : α → β) (seen : List β) (entries : List α)
    (entry : α) :
    distinctFrom key seen (entries ++ [entry]) = distinctFrom key seen entries ++
      if key entry ∈ seen ∨ key entry ∈ entries.map key then [] else [entry] := by
  induction entries generalizing seen with
  | nil => by_cases old : key entry ∈ seen <;> simp [distinctFrom, old]
  | cons first rest ih =>
      rw [List.cons_append, distinctFrom, distinctFrom]
      by_cases old : key first ∈ seen
      · rw [if_pos old, if_pos old, ih]
        by_cases same : key entry = key first <;> simp_all
      · rw [if_neg old, if_neg old, ih, List.cons_append]
        simp [or_assoc, or_left_comm]

private theorem repeatsFrom_concat (key : α → β) (seen : List β) (entries : List α)
    (entry : α) :
    repeatsFrom key seen (entries ++ [entry]) = repeatsFrom key seen entries ++
      if key entry ∈ seen ∨ key entry ∈ entries.map key then [key entry] else [] := by
  induction entries generalizing seen with
  | nil => by_cases old : key entry ∈ seen <;> simp [repeatsFrom, old]
  | cons first rest ih =>
      rw [List.cons_append, repeatsFrom, repeatsFrom]
      by_cases old : key first ∈ seen
      · rw [if_pos old, if_pos old, ih, List.cons_append]
        by_cases same : key entry = key first <;> simp_all
      · rw [if_neg old, if_neg old, ih]
        simp [or_assoc, or_left_comm]

/-- What is kept of each key is its first entry. -/
theorem distinctOn_eq_firstsOn (key : α → β) (entries : List α) :
    distinctOn key entries = firstsOn key entries := by
  induction entries using List.reverseRecOn with
  | nil => rfl
  | append_singleton before entry ih =>
      rw [firstsOn_concat, ← ih, distinctOn, distinctFrom_concat]
      simp [distinctOn]

theorem distinct_concat (values : List β) (value : β) :
    distinct (values ++ [value]) =
      distinct values ++ if value ∈ values then [] else [value] := by
  rw [distinct, distinct, distinctOn_eq_firstsOn, firstsOn_concat, distinctOn_eq_firstsOn]
  simp

/-- Behind other values those count that are not among them. -/
theorem distinct_append (first second : List β) :
    distinct (first ++ second) = distinct first ++ (distinct second).filter (· ∉ first) := by
  induction second using List.reverseRecOn with
  | nil => simp [distinctOn, distinctFrom]
  | append_singleton before value ih =>
      rw [← List.append_assoc, distinct_concat, distinct_concat, ih, List.filter_append,
        List.append_assoc]
      by_cases early : value ∈ first <;> by_cases late : value ∈ before <;> simp [early, late]

/-- Values that are chosen stand in the order in which they first occur among all. -/
theorem distinct_filter (chosen : β → Bool) (values : List β) :
    distinct (values.filter chosen) = (distinct values).filter chosen := by
  induction values using List.reverseRecOn with
  | nil => rfl
  | append_singleton before value ih =>
      rw [distinct_concat, List.filter_append, List.filter_append, ← ih]
      cases kept : chosen value with
      | false =>
          rw [List.filter_cons_of_neg (by simp [kept]), List.filter_nil, List.append_nil]
          split <;> simp [kept]
      | true =>
          rw [List.filter_cons_of_pos kept, List.filter_nil, distinct_concat]
          by_cases present : value ∈ before <;> simp [kept, present]

theorem repeatsOn_eq_map_latersOn (key : α → β) (entries : List α) :
    repeatsOn key entries = (latersOn key entries).map key := by
  induction entries using List.reverseRecOn with
  | nil => rfl
  | append_singleton before entry ih =>
      rw [latersOn_concat, List.map_append, ← ih, repeatsOn, repeatsFrom_concat,
        apply_ite (List.map key)]
      simp [repeatsOn]

end Positions

namespace Roster

variable {α : Type}

theorem ofList_concat (pairs : List (String × α)) (pair : String × α) :
    ofList (pairs ++ [pair]) = (ofList pairs).put pair.1 pair.2 := by
  simp [ofList]

/-- The names of a roster stand in the order in which they were entered first. -/
theorem keys_ofList (pairs : List (String × α)) :
    (ofList pairs).keys = firstsOn id (pairs.map Prod.fst) := by
  induction pairs using List.reverseRecOn with
  | nil => rfl
  | append_singleton before pair ih =>
      rw [ofList_concat, keys_put, List.map_append, List.map_singleton, firstsOn_concat, ← ih]
      simp only [mem_keys_ofList, id_eq, List.map_id]
      split <;> simp

/-- Entering the names of a roster one by one, in its order, makes the roster again. -/
theorem ofList_entries (roster : Roster α) : ofList roster.entries = roster := by
  have entered (pairs : List (String × α)) (nodup : (pairs.map Prod.fst).Nodup) :
      (ofList pairs).entries = pairs := by
    induction pairs using List.reverseRecOn with
    | nil => rfl
    | append_singleton before pair ih =>
        rw [List.map_append, List.nodup_append] at nodup
        obtain ⟨before_nodup, _, apart⟩ := nodup
        have absent : pair.1 ∉ (ofList before).entries.map Prod.fst := by
          rw [ih before_nodup]
          exact fun mem => apart _ mem _ (by simp) rfl
        rw [ofList_concat, put, dif_neg absent]
        exact congrArg (· ++ [pair]) (ih before_nodup)
  exact ext (entered roster.entries roster.keys_nodup)

end Roster

end LayerComposition
