import LayerComposition.ActiveSet
import LayerComposition.Proofs.Occurrences

/-! # Edit histories

Active sets and rosters keep their names in the order in which these last came in. When that was is
told by the edits alone: it is the last time at which a name was absent before an edit and present
after it. Whatever a set or roster is made from counts as edits too, so that every name has come in
at some time.
-/

namespace LayerComposition

section Entrances

variable {ε : Type} {edits : List ε}

/-- The last time at which an edit made present what was absent before it. `present` tells after
    which edits it is there. -/
def lastEntrance? (present : List ε → Bool) (edits : List ε) : Option Nat :=
  (List.range edits.length).reverse.find? fun time =>
    !present (edits.take time) && present (edits.take (time + 1))

theorem lastEntrance?_concat (present : List ε → Bool) (edits : List ε) (edit : ε) :
    lastEntrance? present (edits ++ [edit]) =
      if !present edits && present (edits ++ [edit]) then some edits.length
      else lastEntrance? present edits := by
  have before (times : List Nat) (inside : ∀ time ∈ times, time < edits.length) :
      (times.find? fun time => !present ((edits ++ [edit]).take time) &&
          present ((edits ++ [edit]).take (time + 1))) =
        times.find? fun time => !present (edits.take time) && present (edits.take (time + 1)) := by
    induction times with
    | nil => rfl
    | cons time rest ih =>
        have first : time < edits.length := inside time List.mem_cons_self
        rw [List.find?_cons, List.find?_cons, ih fun later mem => inside later (.tail _ mem),
          List.take_append_of_le_length (by omega), List.take_append_of_le_length (by omega)]
  have now : (edits ++ [edit]).take edits.length = edits := by simp
  have next : (edits ++ [edit]).take (edits.length + 1) = edits ++ [edit] :=
    List.take_of_length_le (by simp)
  simp only [lastEntrance?, List.length_append, List.length_singleton, List.range_succ,
    List.reverse_append, List.reverse_singleton, List.singleton_append, List.find?_cons, now, next]
  cases entered : !present edits && present (edits ++ [edit]) with
  | true => simp
  | false => simpa using before _ (by simp)

theorem lt_length_of_lastEntrance? {present : List ε → Bool} {time : Nat}
    (entrance : lastEntrance? present edits = some time) : time < edits.length := by
  simpa using List.mem_of_find?_eq_some entrance

/-- What is present has come in. -/
theorem exists_lastEntrance? {present : List ε → Bool} (never : present [] = false)
    (there : present edits = true) : ∃ time, lastEntrance? present edits = some time := by
  induction edits using List.reverseRecOn with
  | nil => simp [never] at there
  | append_singleton edits edit ih =>
      cases before : present edits with
      | false => exact ⟨edits.length, by simp [lastEntrance?_concat, before, there]⟩
      | true => simpa [lastEntrance?_concat, before] using ih before

/-- Names stand in the order of their last entrances, those that are present, each once. -/
structure InOrderOfEntrance (present : String → List ε → Bool) (edits : List ε)
    (names : List String) : Prop where
  nodup : names.Nodup
  mem_iff : ∀ name, name ∈ names ↔ present name edits = true
  sorted : names.Pairwise fun first second => ∃ earlier later,
    lastEntrance? (present first) edits = some earlier ∧
      lastEntrance? (present second) edits = some later ∧ earlier < later

/-- An edit keeps the order if those that stay keep their places and at most one comes in, behind
    them. -/
theorem InOrderOfEntrance.concat {present : String → List ε → Bool} {edit : ε}
    {names entering : List String} (order : InOrderOfEntrance present edits names)
    (never : ∀ name, present name [] = false) (single : entering.length ≤ 1)
    (enters : ∀ name, name ∈ entering ↔
      present name edits = false ∧ present name (edits ++ [edit]) = true) :
    InOrderOfEntrance present (edits ++ [edit])
      (names.filter (present · (edits ++ [edit])) ++ entering) := by
  have stays {name : String} (mem : name ∈ names) :
      lastEntrance? (present name) (edits ++ [edit]) = lastEntrance? (present name) edits := by
    simp [lastEntrance?_concat, (order.mem_iff name).1 mem]
  have comes {name : String} (mem : name ∈ entering) :
      lastEntrance? (present name) (edits ++ [edit]) = some edits.length := by
    simp [lastEntrance?_concat, (enters name).1 mem]
  have sorted : (names.filter (present · (edits ++ [edit])) ++ entering).Pairwise
      fun first second => ∃ earlier later,
        lastEntrance? (present first) (edits ++ [edit]) = some earlier ∧
          lastEntrance? (present second) (edits ++ [edit]) = some later ∧ earlier < later := by
    refine List.pairwise_append.2 ⟨?_, ?_, ?_⟩
    · refine List.Pairwise.filter _ (order.sorted.imp_of_mem ?_)
      intro first second mem mem' before
      simpa [stays mem, stays mem'] using before
    · cases entering with
      | nil => exact .nil
      | cons name rest =>
          cases rest with
          | nil => simp
          | cons other others => simp at single
    · intro first mem second mem'
      obtain ⟨there, -⟩ := List.mem_filter.1 mem
      obtain ⟨time, entrance⟩ := exists_lastEntrance? (never first) ((order.mem_iff first).1 there)
      exact ⟨time, edits.length, (stays there).trans entrance, comes mem',
        lt_length_of_lastEntrance? entrance⟩
  refine ⟨sorted.imp ?_, fun name => ?_, sorted⟩
  · rintro first _ ⟨earlier, later, entrance, entrance', before⟩ rfl
    have same : earlier = later := Option.some.inj (entrance.symm.trans entrance')
    omega
  · cases before : present name edits <;> simp [order.mem_iff, enters, before]

end Entrances

/-! ## Active sets -/

namespace ActiveSet

/-- Whether a name is present after an edit. -/
def Edit.leaves (name : String) (before : Bool) : Edit → Bool
  | .insert other => if other = name then true else before
  | .remove other => if other = name then false else before
  | .toggle other => if other = name then !before else before
  | .clear => false

/-- Whether a name is present after edits that began with none. -/
def present (name : String) (edits : List Edit) : Bool :=
  edits.foldl (fun before edit => edit.leaves name before) false

/-- What an edit should tell when it is made after others: of an insertion whether the name was
    absent, of a removal whether it was present, and of a toggle whether it is present now. -/
def Edit.answer (edits : List Edit) : Edit → Option Bool
  | .insert name => some (!present name edits)
  | .remove name => some (present name edits)
  | .toggle name => some (present name (edits ++ [.toggle name]))
  | .clear => none

def editAll (active : ActiveSet) (edits : List Edit) : ActiveSet :=
  edits.foldl (fun active edit => (active.edit edit).2) active

/-- An active set is what its edits made of it. -/
structure Follows (active : ActiveSet) (edits : List Edit) : Prop where
  order : InOrderOfEntrance present edits active.names
  answer : ∀ edit, (active.edit edit).1 = edit.answer edits
  insert_present : ∀ name ∈ active.names, (active.edit (.insert name)).2 = active
  toggle_twice : ∀ name ∈ active.names,
    (active.editAll [.toggle name, .toggle name]).names =
      active.names.filter (· ≠ name) ++ [name]

/-- The name that comes in by an edit, if one does. -/
def Edit.entering (names : List String) : Edit → List String
  | .insert name | .toggle name => if name ∈ names then [] else [name]
  | .remove _ | .clear => []

theorem present_concat (name : String) (edits : List Edit) (edit : Edit) :
    present name (edits ++ [edit]) = edit.leaves name (present name edits) := by
  simp [present]

theorem editAll_concat (active : ActiveSet) (edits : List Edit) (edit : Edit) :
    active.editAll (edits ++ [edit]) = ((active.editAll edits).edit edit).2 := by
  simp [editAll]

/-- Those that an edit leaves stay in their order, and what comes in comes last. -/
theorem names_edit (active : ActiveSet) (edit : Edit) :
    (active.edit edit).2.names =
      active.names.filter (edit.leaves · true) ++ edit.entering active.names := by
  cases edit with
  | insert name =>
      have all : active.names.filter (Edit.leaves · true (.insert name)) = active.names :=
        List.filter_eq_self.2 (by simp [Edit.leaves])
      by_cases present : name ∈ active.names <;>
        simp [ActiveSet.edit, names_insert, Edit.entering, present, all]
  | remove name => simp [ActiveSet.edit, Edit.leaves, Edit.entering, eq_comm]
  | toggle name =>
      simp only [ActiveSet.edit, names_toggle]
      by_cases present : name ∈ active.names
      · simp [Edit.leaves, Edit.entering, present, eq_comm]
      · have all : active.names.filter (Edit.leaves · true (.toggle name)) = active.names := by
          refine List.filter_eq_self.2 fun other mem => ?_
          have differ : name ≠ other := fun same => present (same ▸ mem)
          simp [Edit.leaves, differ]
        simp [Edit.entering, present, all]
  | clear => simp [ActiveSet.edit, Edit.leaves, Edit.entering]

theorem mem_entering_iff {name : String} {names : List String} {edit : Edit} :
    name ∈ edit.entering names ↔ name ∉ names ∧ edit.leaves name false = true := by
  cases edit with
  | insert other | toggle other => grind [Edit.entering, Edit.leaves]
  | remove | clear => simp [Edit.entering, Edit.leaves]

theorem length_entering_le (names : List String) (edit : Edit) :
    (edit.entering names).length ≤ 1 := by
  cases edit with
  | insert name | toggle name => by_cases present : name ∈ names <;> simp [Edit.entering, present]
  | remove | clear => simp [Edit.entering]

/-- A run of edits leaves the names in the order of their last entrances. -/
theorem order_editAll (edits : List Edit) :
    InOrderOfEntrance present edits (editAll ∅ edits).names := by
  induction edits using List.reverseRecOn with
  | nil => exact ⟨.nil, by simp [editAll, present], .nil⟩
  | append_singleton edits edit ih =>
      have kept : (editAll ∅ edits).names.filter (edit.leaves · true) =
          (editAll ∅ edits).names.filter (present · (edits ++ [edit])) := by
        refine List.filter_congr fun name mem => ?_
        rw [present_concat, (ih.mem_iff name).1 mem]
      rw [editAll_concat, names_edit, kept]
      refine ih.concat (fun _ => rfl) (length_entering_le _ edit) fun name => ?_
      cases before : present name edits <;>
        simp [mem_entering_iff, ih.mem_iff, present_concat, before]

/-- What a set is made from comes in one after the other. -/
theorem ofList_eq_editAll (names : List String) : ofList names = editAll ∅ (names.map .insert) := by
  induction names using List.reverseRecOn with
  | nil => rfl
  | append_singleton names name ih =>
      rw [List.map_append, List.map_singleton, editAll_concat, ← ih]
      refine ext ?_
      simp only [edit, names_insert, ofList, distinct_concat, mem_distinct]
      split <;> simp

/-- What the order of the names says of a set is all that its edits say. -/
theorem follows_of_order {active : ActiveSet} {edits : List Edit}
    (order : InOrderOfEntrance present edits active.names) : active.Follows edits := by
  have contains (name : String) : active.contains name = present name edits := by
    rw [Bool.eq_iff_iff, contains, decide_eq_true_iff, order.mem_iff]
  refine ⟨order, fun edit => ?_, fun name mem => ?_, fun name mem => ?_⟩
  · cases edit with
    | insert name | remove name => simp [edit, Edit.answer, contains]
    | toggle name =>
        cases before : present name edits <;>
          simp [edit, toggle_fst, Edit.answer, contains, present_concat, Edit.leaves, before]
    | clear => rfl
  · simp [edit, insert, mem]
  · simp [editAll, edit, names_toggle, mem]

theorem follows_editAll (names : List String) (edits : List Edit) :
    ((ofList names).editAll edits).Follows (names.map .insert ++ edits) := by
  have whole : (ofList names).editAll edits = editAll ∅ (names.map .insert ++ edits) := by
    rw [ofList_eq_editAll, editAll, editAll, editAll, List.foldl_append]
  rw [whole]
  exact follows_of_order (order_editAll _)

end ActiveSet

/-! ## Rosters -/

namespace Roster

variable {α : Type} {roster : Roster α}

/-- The names of a roster as an active set. -/
def nameSet (roster : Roster α) : ActiveSet :=
  ⟨roster.keys, roster.keys_nodup⟩

/-- What an edit does to the names. -/
def Edit.onNames : Edit α → ActiveSet.Edit
  | .put key _ => .insert key
  | .remove key => .remove key
  | .clear => .clear

/-- The value that an edit enters for a name, if it enters one. -/
def Edit.value? (key : String) : Edit α → Option α
  | .put other value => if other = key then some value else none
  | .remove _ | .clear => none

/-- The value that was entered last for a name. -/
def lastValue? (key : String) (edits : List (Edit α)) : Option α :=
  edits.reverse.findSome? (Edit.value? key)

def editAll (roster : Roster α) (edits : List (Edit α)) : Roster α :=
  edits.foldl (fun roster edit => (roster.edit edit).2) roster

/-- What a roster holds for a name by its edits: the last value, if the name is present. -/
def holds (key : String) (edits : List (Edit α)) : Option α :=
  if ActiveSet.present key (edits.map Edit.onNames) then lastValue? key edits else none

/-- A roster is what its edits made of it. -/
structure Follows (roster : Roster α) (edits : List (Edit α)) : Prop where
  order : InOrderOfEntrance ActiveSet.present (edits.map Edit.onNames) roster.keys
  value : ∀ entry ∈ roster.entries, lastValue? entry.1 edits = some entry.2
  answer_remove : ∀ key, (roster.edit (.remove key)).1 = holds key edits

theorem lastValue?_concat (key : String) (edits : List (Edit α)) (edit : Edit α) :
    lastValue? key (edits ++ [edit]) = (edit.value? key).or (lastValue? key edits) := by
  cases entered : edit.value? key <;> simp [lastValue?, entered]

theorem editAll_concat (roster : Roster α) (edits : List (Edit α)) (edit : Edit α) :
    roster.editAll (edits ++ [edit]) = ((roster.editAll edits).edit edit).2 := by
  simp [editAll]

/-- The names of a roster are edited like an active set. -/
theorem nameSet_edit (roster : Roster α) (edit : Edit α) :
    (roster.edit edit).2.nameSet = (roster.nameSet.edit edit.onNames).2 := by
  refine ActiveSet.ext ?_
  cases edit with
  | put key value =>
      exact (keys_put roster key value).trans (ActiveSet.names_insert roster.nameSet key).symm
  | remove key => exact keys_remove roster key
  | clear => rfl

theorem nameSet_editAll (roster : Roster α) (edits : List (Edit α)) :
    (roster.editAll edits).nameSet = roster.nameSet.editAll (edits.map Edit.onNames) := by
  induction edits using List.reverseRecOn with
  | nil => rfl
  | append_singleton edits edit ih =>
      rw [editAll_concat, nameSet_edit, ih, List.map_append, List.map_singleton,
        ActiveSet.editAll_concat]

theorem get?_editAll (edits : List (Edit α)) (key : String) :
    (editAll ∅ edits).get? key = holds key edits := by
  induction edits using List.reverseRecOn with
  | nil => rfl
  | append_singleton edits edit ih =>
      rw [editAll_concat, holds, List.map_append, List.map_singleton, ActiveSet.present_concat,
        lastValue?_concat]
      cases edit with
      | put other value =>
          by_cases same : key = other
          · simp [edit, get?_put, Edit.onNames, ActiveSet.Edit.leaves, Edit.value?, same]
          · simp [edit, get?_put, Edit.onNames, ActiveSet.Edit.leaves, Edit.value?, same,
              Ne.symm same, ih, holds]
      | remove other =>
          by_cases same : key = other
          · simp [edit, get?_remove, Edit.onNames, ActiveSet.Edit.leaves, same]
          · simp [edit, get?_remove, Edit.onNames, ActiveSet.Edit.leaves, Edit.value?, same,
              Ne.symm same, ih, holds]
      | clear => simp [edit, clear, Edit.onNames, ActiveSet.Edit.leaves]

/-- What a roster is made from is entered one after the other. -/
theorem ofList_eq_editAll (pairs : List (String × α)) :
    ofList pairs = editAll ∅ (pairs.map fun (key, value) => .put key value) := by
  rw [ofList, editAll, List.foldl_map]
  rfl

theorem order_editAll (edits : List (Edit α)) :
    InOrderOfEntrance ActiveSet.present (edits.map Edit.onNames) (editAll ∅ edits).keys := by
  have names : (editAll ∅ edits).keys = (ActiveSet.editAll ∅ (edits.map Edit.onNames)).names :=
    congrArg ActiveSet.names (nameSet_editAll ∅ edits)
  rw [names]
  exact ActiveSet.order_editAll _

/-- A name that is there holds the value that was entered last for it. -/
theorem lastValue?_of_mem {edits : List (Edit α)} {entry : String × α}
    (mem : entry ∈ (editAll ∅ edits).entries) : lastValue? entry.1 edits = some entry.2 := by
  have held : holds entry.1 edits = some entry.2 :=
    (get?_editAll edits entry.1).symm.trans (Entries.lookup_of_mem (keys_nodup _) mem)
  unfold holds at held
  split at held
  · exact held
  · contradiction

theorem follows_editAll (pairs : List (String × α)) (edits : List (Edit α)) :
    ((ofList pairs).editAll edits).Follows
      ((pairs.map fun (key, value) => .put key value) ++ edits) := by
  have whole : (ofList pairs).editAll edits =
      editAll ∅ ((pairs.map fun (key, value) => .put key value) ++ edits) := by
    rw [ofList_eq_editAll, editAll, editAll, editAll, List.foldl_append]
  rw [whole]
  exact ⟨order_editAll _, fun _ => lastValue?_of_mem, get?_editAll _⟩

end Roster

/-- Whatever an active set and a roster are made from, and however they are edited then, they keep
    each name that is present once, in the order in which the names last came in, and tell of every
    edit what it did; and the roster holds of each name the value that was entered last. -/
theorem follow_edits {α : Type} (names : List String) (edits : List ActiveSet.Edit)
    (pairs : List (String × α)) (rosterEdits : List (Roster.Edit α)) :
    ((ActiveSet.ofList names).editAll edits).Follows (names.map .insert ++ edits) ∧
      ((Roster.ofList pairs).editAll rosterEdits).Follows
        ((pairs.map fun (key, value) => .put key value) ++ rosterEdits) :=
  ⟨ActiveSet.follows_editAll names edits, Roster.follows_editAll pairs rosterEdits⟩

/-- Inserting a name again leaves it first, and toggling it off and on makes it last. -/
example : ((ActiveSet.ofList ["Smile", "Wave"]).editAll
    [.insert "Smile", .insert "Blink", .toggle "Smile", .toggle "Smile"]).names =
      ["Wave", "Blink", "Smile"] := by decide

end LayerComposition
