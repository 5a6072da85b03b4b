import Mathlib.Data.List.Chain
import Mathlib.Data.List.Nodup
import LayerComposition.Cycle

/-! # Closed paths

A reported cycle is a closed path of a relation. The walks keep their path as a chain without
repetitions, and `traces_of_return` is what they report by coming back to it.
-/

namespace LayerComposition.Cycle

/-- What is left of a path from the first occurrence of a name on. -/
private theorem exists_dropWhile_eq {path : List String} {name : String} (entered : name ∈ path) :
    ∃ front rest, path = front ++ name :: rest ∧
      path.dropWhile (· ≠ name) = name :: rest := by
  obtain ⟨front, rest, rfl, not_front⟩ := List.eq_append_cons_of_mem entered
  have differs : ∀ other ∈ front, decide (other ≠ name) = true := by
    intro other mem
    simpa using fun same : other = name => not_front (same ▸ mem)
  refine ⟨front, rest, rfl, ?_⟩
  rw [List.dropWhile_append_of_pos differs]
  simp

/-- The cycle that a walk closes is its path from the name on, closed with the name. -/
theorem close_reverse {path : List String} {name : String} (nodup : path.Nodup)
    (entered : name ∈ path) :
    close path.reverse name = path.dropWhile (· ≠ name) ++ [name] := by
  obtain ⟨front, rest, rfl, dropped⟩ := exists_dropWhile_eq entered
  have not_rest : name ∉ rest := (List.nodup_cons.1 (List.nodup_append.1 nodup).2.1).1
  have differs : ∀ other ∈ rest.reverse, decide (other ≠ name) = true := by
    intro other mem
    simpa using fun same : other = name => not_rest (same ▸ List.mem_reverse.1 mem)
  have taken : (front ++ name :: rest).reverse.takeWhile (· ≠ name) = rest.reverse := by
    rw [List.reverse_append, List.reverse_cons, List.append_assoc,
      List.takeWhile_append_of_pos differs]
    simp
  rw [close, taken, dropped, List.reverse_reverse]
  rfl

/-- The cycle that a path closes by coming back to a name begins with that name. -/
theorem head?_dropWhile_concat {path : List String} {name : String} (entered : name ∈ path) :
    (path.dropWhile (· ≠ name) ++ [name]).head? = some name := by
  obtain ⟨_, _, _, dropped⟩ := exists_dropWhile_eq entered
  rw [dropped]
  rfl

/-- A path of references from a name back to it, which meets no name twice on its way. -/
structure Traces (refers : String → String → Prop) (cycle : Cycle) : Prop where
  long : 2 ≤ cycle.length
  closed : cycle.head? = cycle.getLast?
  simple : cycle.dropLast.Nodup
  linked : cycle.IsChain refers

variable {refers : String → String → Prop}

/-- The part of a path from a name on, closed with the name, if its last name refers back. -/
theorem traces_of_return {path : List String} {name : String} (linked : path.IsChain refers)
    (nodup : path.Nodup) (entered : name ∈ path)
    (back : ∀ last ∈ path.getLast?, refers last name) :
    Traces refers (path.dropWhile (· ≠ name) ++ [name]) := by
  obtain ⟨front, rest, rfl, dropped⟩ := exists_dropWhile_eq entered
  rw [dropped]
  constructor
  case long => simp
  case closed =>
    rw [List.getLast?_concat]
    rfl
  case simple =>
    rw [List.dropLast_concat]
    exact (List.nodup_append.1 nodup).2.1
  case linked =>
    refine linked.right_of_append.append (List.isChain_singleton name) ?_
    intro last last_mem other other_mem
    obtain rfl : name = other := by simpa using other_mem
    exact back last (by simpa [List.getLast?_append] using last_mem)

/-- A closed path begins and ends with one name. -/
theorem Traces.exists_eq {cycle : Cycle} (traces : Traces refers cycle) :
    ∃ name between, cycle = name :: (between ++ [name]) := by
  obtain ⟨long, closed, _, _⟩ := traces
  cases cycle using List.reverseRecOn with
  | nil => simp at long
  | append_singleton front last =>
      cases front with
      | nil => simp at long
      | cons name between =>
          rw [List.getLast?_concat] at closed
          obtain rfl : name = last := Option.some.inj closed
          exact ⟨name, between, rfl⟩

/-- All names on a closed path reach each other, and themselves. -/
theorem Traces.transGen {cycle : Cycle} (traces : Traces refers cycle) {first second : String}
    (first_mem : first ∈ cycle) (second_mem : second ∈ cycle) :
    Relation.TransGen refers first second := by
  have onward : cycle.Pairwise (Relation.TransGen refers) :=
    List.isChain_iff_pairwise.1 (traces.linked.imp fun _ _ step => .single step)
  obtain ⟨name, between, rfl⟩ := traces.exists_eq
  obtain ⟨from_name, rest⟩ := List.pairwise_cons.1 onward
  have around : Relation.TransGen refers name name := from_name name (by simp)
  have to_name : Relation.TransGen refers first name := by
    rcases List.mem_cons.1 first_mem with rfl | mem
    · exact around
    · rcases List.mem_append.1 mem with mem | mem
      · exact (List.pairwise_append.1 rest).2.2 first mem name (List.mem_singleton_self name)
      · exact List.mem_singleton.1 mem ▸ around
  rcases List.mem_cons.1 second_mem with rfl | mem
  · exact to_name
  · exact to_name.trans (from_name second mem)

/-- A name on a closed path reaches itself. -/
theorem Traces.exists_transGen {cycle : Cycle} (traces : Traces refers cycle) :
    ∃ name, Relation.TransGen refers name name := by
  obtain ⟨name, between, rfl⟩ := traces.exists_eq
  exact ⟨name, traces.transGen List.mem_cons_self List.mem_cons_self⟩

/-- A name that no infinite sequence of references leaves does not reach itself. -/
theorem not_transGen_of_acc {name : String}
    (grounded : Acc (fun target source => refers source target) name) :
    ¬Relation.TransGen refers name name := by
  induction grounded with
  | intro name _ ih =>
      intro around
      obtain ⟨target, step, onward⟩ := Relation.TransGen.head'_iff.1 around
      exact ih target step (.tail' onward step)

/-- What is reached from a name that no infinite sequence of references leaves is such a name. -/
theorem acc_of_reflTransGen {name other : String}
    (grounded : Acc (fun target source => refers source target) name)
    (reaches : Relation.ReflTransGen refers name other) :
    Acc (fun target source => refers source target) other := by
  induction reaches with
  | refl => exact grounded
  | tail _ step ih => exact ih.inv step

/-! ## The reference that closes a cycle -/

/-- The last reference of a cycle, which leads back to its first name. -/
def closing? (cycle : Cycle) : Option (String × String) :=
  match cycle.reverse with
  | target :: source :: _ => some (source, target)
  | _ => none

theorem closing?_eq_some_iff {cycle : Cycle} {source target : String} :
    cycle.closing? = some (source, target) ↔ [source, target] <:+ cycle := by
  rw [← List.reverse_prefix, closing?]
  split
  · rename_i reversed
    rw [reversed]
    simp [and_comm, eq_comm]
  · rename_i short
    simp only [reduceCtorEq, false_iff]
    rintro ⟨rest, reversed⟩
    exact short target source rest reversed.symm

/-- A walk closes a cycle by the reference from the name in front of its path. -/
theorem closing?_close (name : String) (above : List String) (target : String) :
    (close (name :: above) target).closing? = some (name, target) := by
  rw [closing?_eq_some_iff, close]
  by_cases same : name = target
  · simp [same]
  · rw [List.takeWhile_cons_of_pos (by simpa using same)]
    exact ⟨target :: (above.takeWhile (· ≠ target)).reverse, by simp⟩

end LayerComposition.Cycle
