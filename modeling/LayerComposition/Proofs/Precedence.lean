import LayerComposition.Proofs.Flattening
import LayerComposition.Resolution

/-! # Precedence

Resolution is one sequence of writes: those of the base ops, then those of each active
composition as it is flattened, then the pins. The last write to an id decides.
-/

namespace LayerComposition

/-- The value that a sequence of writes gives an id last, if it writes that id. -/
def lastWrite? (writes : List (String × Bool)) (id : String) : Option Bool :=
  ((writes.filter (·.1 = id)).getLast?).map Prod.snd

theorem lastWrite?_append (first second : List (String × Bool)) (id : String) :
    lastWrite? (first ++ second) id = (lastWrite? second id).or (lastWrite? first id) := by
  simp only [lastWrite?, List.filter_append, List.getLast?_append]
  cases (second.filter (·.1 = id)).getLast? <;> simp

theorem lastWrite?_singleton (write : String × Bool) (id : String) :
    lastWrite? [write] id = if id = write.1 then some write.2 else none := by
  by_cases same : write.1 = id
  · simp [lastWrite?, same]
  · simp [lastWrite?, same, Ne.symm same]

theorem lastWrite?_eq_none_iff {writes : List (String × Bool)} {id : String} :
    lastWrite? writes id = none ↔ ∀ write ∈ writes, write.1 ≠ id := by
  simp [lastWrite?]

/-- A write that is last is one of the writes. -/
theorem mem_of_lastWrite? {writes : List (String × Bool)} {id : String} {on : Bool}
    (last : lastWrite? writes id = some on) : (id, on) ∈ writes := by
  obtain ⟨⟨key, value⟩, is_last, rfl⟩ := Option.map_eq_some_iff.1 last
  have mem := List.mem_filter.1 (List.mem_of_getLast? is_last)
  obtain rfl : key = id := by simpa using mem.2
  exact mem.1

theorem lookup_reverse_eq_lastWrite? (writes : List (String × Bool)) (id : String) :
    writes.reverse.lookup id = lastWrite? writes id := by
  induction writes with
  | nil => rfl
  | cons write rest ih =>
      rw [List.reverse_cons, Entries.lookup_append, ih, Entries.lookup_cons,
        ← List.singleton_append, lastWrite?_append, lastWrite?_singleton]
      rfl

/-- Where no key comes twice, the last write to an id is its only one. -/
theorem lastWrite?_of_nodup {entries : List (String × Bool)} (nodup : (entries.map Prod.fst).Nodup)
    (id : String) : lastWrite? entries id = entries.lookup id := by
  induction entries with
  | nil => rfl
  | cons entry rest ih =>
      obtain ⟨absent, rest_nodup⟩ := List.nodup_cons.1 nodup
      rw [← List.singleton_append, lastWrite?_append, lastWrite?_singleton, ih rest_nodup,
        List.singleton_append, Entries.lookup_cons]
      by_cases same : id = entry.1
      · subst same
        have missing : rest.lookup entry.1 = none := by
          rw [← Option.not_isSome_iff_eq_none, Entries.isSome_lookup]
          exact absent
        simp [missing]
      · simp [same]

namespace Activation

/-- The entry of an id after some writes is the last of them to it, or else what it was. -/
theorem get?_write_eq (activation : Activation) (writes : List (String × Bool)) (id : String) :
    (activation.write writes).get? id = (lastWrite? writes id).or (activation.get? id) := by
  rw [get?_write, lookup_reverse_eq_lastWrite?]

theorem write_append (activation : Activation) (first second : List (String × Bool)) :
    activation.write (first ++ second) = (activation.write first).write second :=
  List.foldl_append

end Activation

namespace Op

/-- Applying ops in order writes all that they write, in order. -/
theorem applyAll_eq_write (catalog : Catalog) (activation : Activation) (ops : List Op) :
    applyAll catalog activation ops = activation.write (ops.flatMap (writes catalog)) := by
  induction ops generalizing activation with
  | nil => rfl
  | cons op rest ih =>
      rw [List.flatMap_cons, Activation.write_append]
      exact ih (op.apply catalog activation)

variable {catalog : Catalog} {op : Op} {ops : List Op} {id : String} {on : Bool}

/-- An op writes no id twice. -/
theorem nodup_map_fst_writes (catalog : Catalog) (op : Op) :
    ((op.writes catalog).map Prod.fst).Nodup := by
  have group_nodup (group : String) : ((catalog.group group).map Layer.id).Nodup :=
    catalog.ids_nodup.sublist (List.filter_sublist.map Layer.id)
  cases op with
  | enable group name => exact List.nodup_singleton _
  | disable group name => exact List.nodup_singleton _
  | exclusive group name =>
      rw [writes, List.map_map]
      exact group_nodup group
  | clearGroup group =>
      rw [writes, List.map_map]
      exact group_nodup group

/-- No write to an id is the last one exactly if no op writes it. -/
theorem lastWrite?_flatMap_eq_none_iff :
    lastWrite? (ops.flatMap (writes catalog)) id = none ↔
      ∀ op ∈ ops, ∀ value, (id, value) ∉ op.writes catalog := by
  rw [lastWrite?_eq_none_iff]
  constructor
  · intro unwritten op op_mem value mem
    exact unwritten _ (List.mem_flatMap.2 ⟨op, op_mem, mem⟩) rfl
  · rintro unwritten write mem rfl
    obtain ⟨op, op_mem, mem⟩ := List.mem_flatMap.1 mem
    exact unwritten op op_mem write.2 mem

/-- Some op writes a value to an id, and no op behind it writes that id. -/
def WritesLast (catalog : Catalog) (ops : List Op) (id : String) (on : Bool) : Prop :=
  ∃ before op after, ops = before ++ op :: after ∧ (id, on) ∈ op.writes catalog ∧
    ∀ later ∈ after, ∀ value, (id, value) ∉ later.writes catalog

theorem writesLast_cons :
    WritesLast catalog (op :: ops) id on ↔
      WritesLast catalog ops id on ∨
        (∀ later ∈ ops, ∀ value, (id, value) ∉ later.writes catalog) ∧
          (id, on) ∈ op.writes catalog := by
  constructor
  · rintro ⟨before, other, after, split, written, unwritten⟩
    cases before with
    | nil =>
        obtain ⟨rfl, rfl⟩ := List.cons.inj split
        exact .inr ⟨unwritten, written⟩
    | cons first before =>
        obtain ⟨rfl, rfl⟩ := List.cons.inj split
        exact .inl ⟨before, other, after, rfl, written, unwritten⟩
  · rintro (⟨before, other, after, rfl, written, unwritten⟩ | ⟨unwritten, written⟩)
    · exact ⟨op :: before, other, after, rfl, written, unwritten⟩
    · exact ⟨[], op, ops, rfl, written, unwritten⟩

theorem lastWrite?_writes_eq_some_iff :
    lastWrite? (op.writes catalog) id = some on ↔ (id, on) ∈ op.writes catalog := by
  have nodup := nodup_map_fst_writes catalog op
  rw [lastWrite?_of_nodup nodup]
  exact ⟨Entries.mem_of_lookup, Entries.lookup_of_mem nodup⟩

theorem lastWrite?_flatMap_eq_some_iff :
    lastWrite? (ops.flatMap (writes catalog)) id = some on ↔ WritesLast catalog ops id on := by
  induction ops with
  | nil => simp [lastWrite?, WritesLast]
  | cons op rest ih =>
      rw [List.flatMap_cons, lastWrite?_append, Option.or_eq_some_iff, ih, writesLast_cons,
        lastWrite?_flatMap_eq_none_iff, lastWrite?_writes_eq_some_iff]

/-- What an op says of an id. An op on one layer is about the id that it spells, whether or not the
    catalog has it, and an op on a group is about every layer that the catalog has in it. -/
inductive Sets (catalog : Catalog) : Op → String → Bool → Prop where
  | enable {group name : String} : Sets catalog (.enable group name) (Layer.idOf group name) true
  | disable {group name : String} : Sets catalog (.disable group name) (Layer.idOf group name) false
  | exclusive {layer : Layer} {name : String} (mem : layer ∈ catalog.layers) :
      Sets catalog (.exclusive layer.group name) layer.id (layer.name == name)
  | clearGroup {layer : Layer} {name : String} (mem : layer ∈ catalog.layers) :
      Sets catalog (@clearGroup layer.group name) layer.id false

theorem mem_writes_iff : (id, on) ∈ op.writes catalog ↔ op.Sets catalog id on := by
  constructor
  · intro written
    cases op with
    | enable group name | disable group name =>
        obtain ⟨rfl, rfl⟩ := Prod.mk.inj (List.mem_singleton.1 written)
        constructor
    | exclusive group name | clearGroup group =>
        obtain ⟨layer, held, same⟩ := List.mem_map.1 written
        obtain ⟨mem, rfl⟩ := Catalog.mem_group.1 held
        obtain ⟨rfl, rfl⟩ := Prod.mk.inj same
        constructor
        exact mem
  · rintro (_ | _ | mem | mem)
    · exact List.mem_singleton_self _
    · exact List.mem_singleton_self _
    · exact List.mem_map.2 ⟨_, Catalog.mem_group.2 ⟨mem, rfl⟩, rfl⟩
    · exact List.mem_map.2 ⟨_, Catalog.mem_group.2 ⟨mem, rfl⟩, rfl⟩

end Op

/-- Pins lie over whatever is written below them. -/
theorem Pins.get?_write (pins : Pins) (activation : Activation) (id : String) :
    (activation.write pins.entries).get? id = (pins.get? id).or (activation.get? id) := by
  rw [Activation.get?_write_eq, lastWrite?_of_nodup pins.keys_nodup]
  rfl

/-- A value that is mapped is there exactly if the value itself is. -/
theorem map_eq_ok_iff {ε α β : Type} {f : α → β} {value : Except ε α} {b : β} :
    value.map f = .ok b ↔ ∃ a, value = .ok a ∧ b = f a := by
  cases value with
  | error e => simp [Except.map]
  | ok a => simp [Except.map, eq_comm]

theorem bind_eq_ok_iff {ε α β : Type} {f : α → Except ε β} {value : Except ε α} {b : β} :
    value.bind f = .ok b ↔ ∃ a, value = .ok a ∧ f a = .ok b := by
  cases value with
  | error e => simp [Except.bind]
  | ok a => simp [Except.bind]

namespace Definitions

/-- What the active compositions write, flattened and in the order of activation. -/
def activeWrites (definitions : Definitions) (names : List String) : List (String × Bool) :=
  names.flatMap fun name =>
    (definitions.registry.flatten name).1.flatMap (Op.writes definitions.catalog)

/-- All that a resolution writes, in order: base ops, active compositions, pins. -/
def writes (definitions : Definitions) (active : ActiveSet) (pins : Pins) :
    List (String × Bool) :=
  definitions.baseline.ops.flatMap (Op.writes definitions.catalog) ++
    definitions.activeWrites active.names ++ pins.entries

theorem expandInto_eq (definitions : Definitions) (activation : Activation) (name : String) :
    definitions.expandInto activation name =
      match (definitions.registry.flatten name).2 with
      | none => .ok (activation.write (definitions.activeWrites [name]))
      | some cycle => .error cycle := by
  rw [expandInto, Registry.expand_eq_flatten, Op.applyAll_eq_write]
  cases (definitions.registry.flatten name).2 with
  | none => simp [activeWrites]
  | some cycle => rfl

/-- Expanding names one after the other writes all that they write, unless a cycle ends it. -/
theorem foldlM_expandInto_eq_ok {definitions : Definitions} {names : List String}
    {activation result : Activation} :
    names.foldlM definitions.expandInto activation = .ok result ↔
      (∀ name ∈ names, (definitions.registry.flatten name).2 = none) ∧
        result = activation.write (definitions.activeWrites names) := by
  induction names generalizing activation with
  | nil =>
      constructor
      · intro done
        obtain rfl := Except.ok.inj done
        exact ⟨by simp, rfl⟩
      · rintro ⟨_, rfl⟩
        rfl
  | cons name rest ih =>
      rw [List.foldlM_cons, expandInto_eq]
      cases ends : (definitions.registry.flatten name).2 with
      | some cycle =>
          constructor
          · intro done
            exact nomatch done
          · rintro ⟨acyclic, _⟩
            exact nomatch ends.symm.trans (acyclic name List.mem_cons_self)
      | none =>
          have split : definitions.activeWrites (name :: rest) =
              definitions.activeWrites [name] ++ definitions.activeWrites rest := by
            simp [activeWrites]
          rw [split, Activation.write_append]
          refine Iff.trans ih ?_
          simp [ends]

/-- The state without pins exists exactly if no active composition ends with a cycle, and is
    then what the base ops and the active compositions write. -/
theorem presetState_eq_ok_iff {definitions : Definitions} {active : ActiveSet}
    {preset : Activation} :
    definitions.presetState active = .ok preset ↔
      (∀ name ∈ active.names, (definitions.registry.flatten name).2 = none) ∧
        preset = definitions.baseState.write (definitions.activeWrites active.names) :=
  foldlM_expandInto_eq_ok

theorem resolve_eq_ok_iff {definitions : Definitions} {active : ActiveSet} {pins : Pins}
    {result : Activation} :
    definitions.resolve active pins = .ok result ↔
      ∃ preset, definitions.presetState active = .ok preset ∧
        result = preset.write pins.entries :=
  map_eq_ok_iff

/-- A resolution that comes to an end leaves its writes, and nothing else. -/
theorem eq_write_of_resolve {definitions : Definitions} {active : ActiveSet} {pins : Pins}
    {result : Activation} (resolved : definitions.resolve active pins = .ok result) :
    result = Activation.write ∅ (definitions.writes active pins) := by
  obtain ⟨preset, preset_eq, rfl⟩ := resolve_eq_ok_iff.1 resolved
  obtain ⟨_, rfl⟩ := presetState_eq_ok_iff.1 preset_eq
  rw [writes, Activation.write_append, Activation.write_append, baseState, Op.applyAll_eq_write]

theorem get?_eq_lastWrite?_of_resolve {definitions : Definitions} {active : ActiveSet}
    {pins : Pins} {result : Activation}
    (resolved : definitions.resolve active pins = .ok result) (id : String) :
    result.get? id = lastWrite? (definitions.writes active pins) id := by
  rw [eq_write_of_resolve resolved, Activation.get?_write_eq, Activation.get?_empty, Option.or_none]

/-- The last write to an id decides what a resolution says of it. Hence a pin stands as it is,
    and without a pin the id is as the base ops and the active compositions leave it. -/
theorem get?_resolve {definitions : Definitions} {active : ActiveSet} {pins : Pins}
    {result : Activation} (resolved : definitions.resolve active pins = .ok result)
    (id : String) :
    result.get? id = lastWrite? (definitions.writes active pins) id ∧
      (result.get? id = none ↔ ∀ write ∈ definitions.writes active pins, write.1 ≠ id) ∧
      (∀ on, pins.get? id = some on → result.get? id = some on) ∧
      (pins.get? id = none →
        ∃ preset, definitions.presetState active = .ok preset ∧
          result.get? id = preset.get? id) := by
  have last := get?_eq_lastWrite?_of_resolve resolved id
  obtain ⟨preset, preset_eq, overlaid⟩ := resolve_eq_ok_iff.1 resolved
  have laid_over : result.get? id = (pins.get? id).or (preset.get? id) := by
    rw [overlaid, Pins.get?_write]
  refine ⟨last, ?_, ?_, ?_⟩
  · rw [last]
    exact lastWrite?_eq_none_iff
  · intro on pinned
    rw [laid_over, pinned]
    rfl
  · intro unpinned
    refine ⟨preset, preset_eq, ?_⟩
    rw [laid_over, unpinned]
    rfl

/-- The ops that a resolution applies, in order: those of the baseline, then those of each active
    composition as it is flattened. -/
def applied (definitions : Definitions) (active : ActiveSet) : List Op :=
  definitions.baseline.ops ++
    active.names.flatMap fun name => (definitions.registry.flatten name).1

theorem writes_eq (definitions : Definitions) (active : ActiveSet) (pins : Pins) :
    definitions.writes active pins =
      (definitions.applied active).flatMap (Op.writes definitions.catalog) ++ pins.entries := by
  simp only [writes, activeWrites, applied, List.flatMap_append, List.flatMap_assoc]

/-- Precedence in terms of ops: a pin decides, and where there is none, the last of the ops that
    says something of the id. -/
theorem get?_resolve_iff_sets {definitions : Definitions} {active : ActiveSet} {pins : Pins}
    {result : Activation} (resolved : definitions.resolve active pins = .ok result) (id : String)
    (on : Bool) :
    result.get? id = some on ↔
      pins.get? id = some on ∨ pins.get? id = none ∧
        ∃ before op after, definitions.applied active = before ++ op :: after ∧
          op.Sets definitions.catalog id on ∧
          ∀ later ∈ after, ∀ value, ¬later.Sets definitions.catalog id value := by
  have pinned : lastWrite? pins.entries id = pins.get? id := lastWrite?_of_nodup pins.keys_nodup id
  rw [get?_eq_lastWrite?_of_resolve resolved, writes_eq, lastWrite?_append, pinned,
    Option.or_eq_some_iff, Op.lastWrite?_flatMap_eq_some_iff]
  simp only [Op.WritesLast, Op.mem_writes_iff]

/-- Open eyes and a cap, which the one active composition shuts and takes off. -/
def portrait : Definitions where
  catalog :=
    ⟨[⟨"Eyes", "Open", 1⟩, ⟨"Eyes", "Shut", 1⟩, ⟨"Hat", "Cap", 2⟩], [], by decide, by decide⟩
  registry :=
    Registry.ofDefinitions [⟨"Blink", ["Eyes>Shut"]⟩, ⟨"Sleepy", ["Blink", "Hat-", "odd"]⟩]
  baseline := ⟨[], ["Eyes>Open", "Hat+Cap", "Tail+Wag", "odd"]⟩

theorem flatten_portrait :
    portrait.registry.flatten "Sleepy" =
      ([.exclusive "Eyes" "Shut", .clear "Hat"], none) := by
  have sleepy : portrait.registry.get? "Sleepy" =
      some ⟨"Sleepy", ["Blink", "Hat-", "odd"]⟩ := by decide
  have blink : portrait.registry.get? "Blink" = some ⟨"Blink", ["Eyes>Shut"]⟩ := by decide
  have others : portrait.registry.get? "Eyes>Shut" = none ∧
      portrait.registry.get? "Hat-" = none ∧ portrait.registry.get? "odd" = none := by decide
  have shut : Op.read? "Eyes>Shut" = some (.exclusive "Eyes" "Shut") := by decide
  have bare : Op.read? "Hat-" = some (.clear "Hat") := by decide
  have odd : Op.read? "odd" = none := by decide
  simp [Registry.flatten, sleepy, Registry.foldOps_composition blink,
    Registry.foldOps_op others.1 shut, Registry.foldOps_op others.2.1 bare,
    Registry.foldOps_unknown others.2.2 odd]

theorem presetState_portrait :
    portrait.presetState (ActiveSet.ofList ["Sleepy"]) =
      .ok (Activation.ofList [("Eyes/Open", false), ("Eyes/Shut", true), ("Hat/Cap", false),
        ("Tail/Wag", true)]) := by
  have written : portrait.activeWrites (ActiveSet.ofList ["Sleepy"]).names =
      [("Eyes/Open", false), ("Eyes/Shut", true), ("Hat/Cap", false)] := by
    have names : (ActiveSet.ofList ["Sleepy"]).names = ["Sleepy"] := rfl
    simp only [names, activeWrites, List.flatMap_singleton, flatten_portrait]
    decide
  refine presetState_eq_ok_iff.2 ⟨?_, ?_⟩
  · intro name mem
    rw [List.mem_singleton.1 mem, flatten_portrait]
  · rw [written]
    decide

theorem resolve_portrait :
    portrait.resolve (ActiveSet.ofList ["Sleepy"]) (Roster.ofList [("Eyes/Open", true)]) =
      .ok (Activation.ofList [("Eyes/Open", true), ("Eyes/Shut", true), ("Hat/Cap", false),
        ("Tail/Wag", true)]) :=
  resolve_eq_ok_iff.2 ⟨_, presetState_portrait, by decide⟩

/-- The pinned eye stays open, the cap is off as the composition leaves it, and nothing is said
    of a nose. -/
theorem get?_resolve_portrait :
    ∃ result preset,
      portrait.resolve (ActiveSet.ofList ["Sleepy"]) (Roster.ofList [("Eyes/Open", true)]) =
          .ok result ∧
        result.get? "Eyes/Shut" = lastWrite? (portrait.writes (ActiveSet.ofList ["Sleepy"])
          (Roster.ofList [("Eyes/Open", true)])) "Eyes/Shut" ∧
        result.get? "Eyes/Open" = some true ∧
        (∀ write ∈ portrait.writes (ActiveSet.ofList ["Sleepy"])
          (Roster.ofList [("Eyes/Open", true)]), write.1 ≠ "Nose/Red") ∧
        portrait.presetState (ActiveSet.ofList ["Sleepy"]) = .ok preset ∧
        result.get? "Hat/Cap" = preset.get? "Hat/Cap" := by
  obtain ⟨last, _, _, _⟩ := get?_resolve resolve_portrait "Eyes/Shut"
  obtain ⟨_, _, pinned, _⟩ := get?_resolve resolve_portrait "Eyes/Open"
  obtain ⟨_, unwritten, _, _⟩ := get?_resolve resolve_portrait "Nose/Red"
  obtain ⟨_, _, _, unpinned⟩ := get?_resolve resolve_portrait "Hat/Cap"
  obtain ⟨preset, preset_eq, same⟩ := unpinned (by decide)
  exact ⟨_, preset, resolve_portrait, last, pinned true (by decide), unwritten.1 (by decide),
    preset_eq, same⟩

end Definitions

end LayerComposition
