import Mathlib.Algebra.Order.BigOperators.Group.List
import Mathlib.Algebra.Order.Group.Nat
import LayerComposition.Proofs.CatalogContents
import LayerComposition.Proofs.RoundTrip
import LayerComposition.Proofs.Targets

/-! # Shortest op lists

A difference is a shortest one of the op lists that are sorted by text and lead from the preset
to the state. Among the ops of one group, those that switch a layer on come first in this order,
so that behind an op on the whole group at most one layer of it is on. Where more are on in the
end, every layer that differs has an op to itself. Ops of one group do nothing for another as
long as ids have no slash but the one between group and name.
-/

namespace LayerComposition

/-- No group and no name has a slash in it. -/
def Catalog.Slashless (catalog : Catalog) : Prop :=
  ∀ layer ∈ catalog.layers, '/' ∉ layer.group.toList ∧ '/' ∉ layer.name.toList

instance (catalog : Catalog) : Decidable catalog.Slashless :=
  inferInstanceAs (Decidable (∀ layer ∈ catalog.layers,
    '/' ∉ layer.group.toList ∧ '/' ∉ layer.name.toList))

/-- An op list that is sorted by text and brings a preset to a state. -/
structure Synthesis.Bridges (catalog : Catalog) (preset state : Activation) (ops : List Op) :
    Prop where
  sorted : ops.Pairwise fun first second => first.text ≤ second.text
  arrives : (Op.applyAll catalog preset ops).sameLayers state catalog = true

/-! ## Ids without further slashes -/

/-- Around its only slash, an id is divided into group and name. -/
theorem Layer.eq_of_idOf_eq {group name otherGroup otherName : String}
    (same : idOf group name = idOf otherGroup otherName) (groupFree : '/' ∉ otherGroup.toList)
    (nameFree : '/' ∉ otherName.toList) : group = otherGroup ∧ name = otherName := by
  have chars : group.toList ++ '/' :: name.toList =
      otherGroup.toList ++ '/' :: otherName.toList := by
    simpa [idOf] using congrArg String.toList same
  rcases List.append_eq_append_iff.1 chars with ⟨between, longer, rest⟩ | ⟨between, longer, rest⟩
  · cases between with
    | nil => simp_all [String.toList_inj]
    | cons slash others =>
        obtain ⟨rfl, _⟩ := List.cons.inj rest
        simp [longer] at groupFree
  · cases between with
    | nil => simp_all [String.toList_inj]
    | cons slash others =>
        obtain ⟨_, name_eq⟩ := List.cons.inj rest
        simp [name_eq] at nameFree

namespace Op

variable {catalog : Catalog} {op : Op}

/-- Whether an op switches all layers of its group. -/
def isWide : Op → Bool
  | enable _ _ | disable _ _ => false
  | exclusive _ _ | clearGroup _ => true

theorem group_of_mem_writes (slashless : catalog.Slashless) {layer : Layer}
    (mem : layer ∈ catalog.layers) {on : Bool} (written : (layer.id, on) ∈ op.writes catalog) :
    op.group = layer.group := by
  obtain ⟨groupFree, nameFree⟩ := slashless layer mem
  cases op with
  | enable group name | disable group name =>
      obtain ⟨id_eq, _⟩ := Prod.mk.inj (List.mem_singleton.1 written)
      exact (Layer.eq_of_idOf_eq id_eq.symm groupFree nameFree).1
  | exclusive group name | clearGroup group =>
      obtain ⟨other, other_mem, same⟩ := List.mem_map.1 written
      obtain ⟨other_in, group_eq⟩ := Catalog.mem_group.1 other_mem
      obtain rfl := Catalog.eq_of_id_eq other_in mem (Prod.mk.inj same).1
      exact group_eq.symm

theorem name_of_mem_writes (slashless : catalog.Slashless) (narrow : op.isWide = false)
    {layer : Layer} (mem : layer ∈ catalog.layers) {on : Bool}
    (written : (layer.id, on) ∈ op.writes catalog) : op.name = layer.name := by
  obtain ⟨groupFree, nameFree⟩ := slashless layer mem
  cases op with
  | enable group name | disable group name =>
      obtain ⟨id_eq, _⟩ := Prod.mk.inj (List.mem_singleton.1 written)
      exact (Layer.eq_of_idOf_eq id_eq.symm groupFree nameFree).2
  | exclusive | clearGroup => contradiction

/-- What an op leaves on it has switched on, or it was on before. -/
theorem mem_writes_or_isOn_of_isOn_apply {activation : Activation} {id : String}
    (on : (op.apply catalog activation).isOn id = true) :
    (id, true) ∈ op.writes catalog ∨ activation.isOn id = true := by
  rw [apply, Activation.isOn, Activation.get?_write_eq] at on
  cases last : lastWrite? (op.writes catalog) id with
  | some value =>
      rw [last] at on
      obtain rfl : value = true := on
      exact .inl (mem_of_lastWrite? last)
  | none =>
      rw [last] at on
      exact .inr on

/-- Where the ops change a layer, one of them writes it. -/
theorem exists_write_of_isOn_applyAll_ne {ops : List Op} {activation : Activation} {id : String}
    (changed : (applyAll catalog activation ops).isOn id ≠ activation.isOn id) :
    ∃ op ∈ ops, ∃ on, (id, on) ∈ op.writes catalog := by
  rw [applyAll_eq_write, Activation.isOn, Activation.get?_write_eq] at changed
  cases last : lastWrite? (ops.flatMap (writes catalog)) id with
  | some on =>
      obtain ⟨op, op_mem, written⟩ := List.mem_flatMap.1 (mem_of_lastWrite? last)
      exact ⟨op, op_mem, on, written⟩
  | none =>
      rw [last] at changed
      exact absurd rfl changed

/-- Of the ops of a group, those that switch a layer on stand before those that switch all. -/
theorem text_enable_lt_of_isWide (wide : op.isWide = true) (name : String) :
    (enable op.group name).text < op.text := by
  rw [String.lt_iff]
  cases op with
  | enable | disable => contradiction
  | exclusive group other =>
      have later : '+' :: name.toList < '>' :: other.toList :=
        List.cons_lt_cons_iff.2 (.inl (by decide))
      simpa [text, Op.group] using List.append_left_lt later
  | clearGroup group =>
      have later : '+' :: name.toList < ['-'] := List.cons_lt_cons_iff.2 (.inl (by decide))
      simpa [text, Op.group] using List.append_left_lt later

end Op

/-! ## One layer of a group -/

/-- At most one layer of a group is on. -/
def Activation.AtMostOne (activation : Activation) (catalog : Catalog) (group : String) : Prop :=
  ∀ first ∈ catalog.group group, ∀ second ∈ catalog.group group,
    activation.isOn first.id = true → activation.isOn second.id = true → first = second

namespace Op

variable {catalog : Catalog} {op : Op}

theorem atMostOne_apply_of_isWide (wide : op.isWide = true) (activation : Activation) :
    (op.apply catalog activation).AtMostOne catalog op.group := by
  cases op with
  | enable | disable => contradiction
  | exclusive group name =>
      intro first (first_mem : first ∈ catalog.group group) second second_mem first_on second_on
      rw [isOn_apply_exclusive first_mem, beq_iff_eq] at first_on
      have second_is_first :=
        (isOn_apply_exclusive_iff first_mem first_on activation second second_mem).1 second_on
      exact second_is_first.symm
  | @clearGroup group name =>
      intro first first_mem second second_mem first_on
      have written : (first.id, false) ∈ (@clearGroup group name).writes catalog :=
        List.mem_map.2 ⟨first, first_mem, rfl⟩
      rw [apply, Activation.isOn, Activation.get?_write_eq,
        lastWrite?_of_nodup (nodup_map_fst_writes catalog _),
        Entries.lookup_of_mem (nodup_map_fst_writes catalog _) written] at first_on
      contradiction

/-- An op that switches no layer of a group on leaves at most one of them on. -/
theorem atMostOne_apply (slashless : catalog.Slashless) {group : String}
    {activation : Activation} (atMostOne : activation.AtMostOne catalog group)
    (notEnabling : ∀ name, op ≠ enable group name) :
    (op.apply catalog activation).AtMostOne catalog group := by
  by_cases wide : op.isWide = true ∧ op.group = group
  · obtain ⟨wide, rfl⟩ := wide
    exact atMostOne_apply_of_isWide wide activation
  · have on_before {layer : Layer} (mem : layer ∈ catalog.group group)
        (on : (op.apply catalog activation).isOn layer.id = true) :
        activation.isOn layer.id = true := by
      refine (mem_writes_or_isOn_of_isOn_apply on).resolve_left fun written => ?_
      obtain ⟨layer_mem, rfl⟩ := Catalog.mem_group.1 mem
      have same_group := group_of_mem_writes slashless layer_mem written
      cases op with
      | enable other name => exact notEnabling name (congrArg (enable · name) same_group)
      | disable => simp [writes] at written
      | exclusive | clearGroup => exact wide ⟨rfl, same_group⟩
    intro first first_mem second second_mem first_on second_on
    exact atMostOne first first_mem second second_mem (on_before first_mem first_on)
      (on_before second_mem second_on)

theorem atMostOne_applyAll (slashless : catalog.Slashless) {group : String} {ops : List Op}
    {activation : Activation} (atMostOne : activation.AtMostOne catalog group)
    (notEnabling : ∀ op ∈ ops, ∀ name, op ≠ enable group name) :
    (applyAll catalog activation ops).AtMostOne catalog group := by
  induction ops generalizing activation with
  | nil => exact atMostOne
  | cons op rest ih =>
      have after := atMostOne_apply slashless atMostOne (notEnabling op List.mem_cons_self)
      exact ih after fun other mem => notEnabling other (List.mem_cons_of_mem _ mem)

end Op

/-! ## Counting by groups -/

namespace Synthesis

variable {catalog : Catalog} {preset state : Activation} {ops : List Op}

/-- Sorted ops with one on a whole group among them leave at most one layer of it on. -/
theorem Bridges.atMostOne (bridges : Bridges catalog preset state ops)
    (slashless : catalog.Slashless) {op : Op} (mem : op ∈ ops) (wide : op.isWide = true) :
    state.AtMostOne catalog op.group := by
  obtain ⟨before, after, rfl⟩ := List.append_of_mem mem
  obtain ⟨_, rest_sorted, _⟩ := List.pairwise_append.1 bridges.sorted
  have later : ∀ other ∈ after, ∀ name, other ≠ .enable op.group name := by
    rintro other other_mem name rfl
    have le := (List.pairwise_cons.1 rest_sorted).1 _ other_mem
    exact String.not_le.2 (Op.text_enable_lt_of_isWide wide name) le
  have arrived : (Op.applyAll catalog preset (before ++ op :: after)).AtMostOne catalog
      op.group := by
    rw [Op.applyAll, List.foldl_append, List.foldl_cons]
    exact Op.atMostOne_applyAll slashless (Op.atMostOne_apply_of_isWide wide _) later
  have same_on := Activation.sameLayers_iff.1 bridges.arrives
  intro first first_mem second second_mem
  rw [← same_on first (Catalog.mem_group.1 first_mem).1,
    ← same_on second (Catalog.mem_group.1 second_mem).1]
  exact arrived first first_mem second second_mem

/-- Every layer that differs is written by an op of its group. -/
theorem Bridges.exists_write (bridges : Bridges catalog preset state ops)
    (slashless : catalog.Slashless) {layer : Layer} (mem : layer ∈ catalog.layers)
    (differ : differs preset state layer = true) :
    ∃ op ∈ ops, op.group = layer.group ∧ ∃ on, (layer.id, on) ∈ op.writes catalog := by
  have changed : (Op.applyAll catalog preset ops).isOn layer.id ≠ preset.isOn layer.id := by
    rw [Activation.sameLayers_iff.1 bridges.arrives layer mem]
    exact differs_eq_true_iff.1 differ
  obtain ⟨op, op_mem, on, written⟩ := Op.exists_write_of_isOn_applyAll_ne changed
  exact ⟨op, op_mem, Op.group_of_mem_writes slashless mem written, on, written⟩

/-- Where the layers of a group cannot be switched together, each that differs has its op. -/
theorem Bridges.length_filter_differs_le (bridges : Bridges catalog preset state ops)
    (slashless : catalog.Slashless) {group : String}
    (several : ¬state.AtMostOne catalog group) :
    ((catalog.group group).filter (differs preset state)).length ≤
      (ops.filter (·.group = group)).length := by
  have names_nodup : (((catalog.group group).filter (differs preset state)).map
      Layer.name).Nodup :=
    (catalog.nodup_map_name_group group).sublist (List.filter_sublist.map _)
  have names_subset : ((catalog.group group).filter (differs preset state)).map Layer.name ⊆
      (ops.filter (·.group = group)).map Op.name := by
    intro name name_mem
    obtain ⟨layer, layer_mem, rfl⟩ := List.mem_map.1 name_mem
    obtain ⟨in_group, differ⟩ := List.mem_filter.1 layer_mem
    obtain ⟨mem, rfl⟩ := Catalog.mem_group.1 in_group
    obtain ⟨op, op_mem, group_eq, on, written⟩ := bridges.exists_write slashless mem differ
    have narrow : op.isWide = false := by
      by_contra wide
      exact several (group_eq ▸ bridges.atMostOne slashless op_mem (by simpa using wide))
    refine List.mem_map.2 ⟨op, List.mem_filter.2 ⟨op_mem, by simpa using group_eq⟩, ?_⟩
    exact Op.name_of_mem_writes slashless narrow mem written
  simpa using names_nodup.length_le_of_subset names_subset

/-- No bridge has fewer ops for a changed group than the difference. -/
theorem Bridges.length_groupOps_le (bridges : Bridges catalog preset state ops)
    (slashless : catalog.Slashless) {group : String}
    (changed : group ∈ changedGroups catalog preset state) :
    (groupOps catalog preset state group).length ≤ (ops.filter (·.group = group)).length := by
  have one_at_least : 1 ≤ (ops.filter (·.group = group)).length := by
    obtain ⟨layer, layer_mem, differ⟩ := mem_changedGroups.1 changed
    obtain ⟨mem, rfl⟩ := Catalog.mem_group.1 layer_mem
    obtain ⟨op, op_mem, group_eq, _⟩ := bridges.exists_write slashless mem differ
    exact List.length_pos_of_mem (List.mem_filter.2 ⟨op_mem, by simpa using group_eq⟩)
  have on_nodup : ((catalog.group group).filter fun layer => state.isOn layer.id).Nodup :=
    ((catalog.nodup_map_name_group group).of_map _).filter _
  unfold groupOps
  split
  · exact one_at_least
  · exact one_at_least
  · rename_i not_none not_single
    rw [List.length_map]
    apply bridges.length_filter_differs_le slashless
    intro atMostOne
    match on_eq : (catalog.group group).filter fun layer => state.isOn layer.id with
    | [] => exact not_none on_eq
    | [only] => exact not_single only on_eq
    | first :: second :: rest =>
        have on_of_mem (layer : Layer) (mem : layer ∈ first :: second :: rest) :
            layer ∈ catalog.group group ∧ state.isOn layer.id = true :=
          List.mem_filter.1 (on_eq ▸ mem)
        obtain ⟨first_mem, first_on⟩ := on_of_mem first (by simp)
        obtain ⟨second_mem, second_on⟩ := on_of_mem second (by simp)
        obtain rfl := atMostOne first first_mem second second_mem first_on second_on
        rw [on_eq] at on_nodup
        simp at on_nodup

theorem bridges_opsBetween (catalog : Catalog) (preset state : Activation) :
    Bridges catalog preset state (opsBetween catalog preset state) where
  sorted := by
    refine (List.pairwise_mergeSort ?_ ?_ _).imp of_decide_eq_true
    · intro first second third
      simpa using String.le_trans
    · intro first second
      simpa using String.le_total first.text second.text
  arrives := sameLayers_applyAll_opsBetween catalog preset state

/-- No bridge is shorter than the difference. -/
theorem Bridges.length_opsBetween_le (bridges : Bridges catalog preset state ops)
    (slashless : catalog.Slashless) :
    (opsBetween catalog preset state).length ≤ ops.length := by
  let groups := changedGroups catalog preset state
  have groups_nodup : groups.Nodup := nodup_distinct _
  have gathered := Catalog.flatMap_filter_perm Op.group ops groups_nodup
  calc (opsBetween catalog preset state).length
      = (groups.map fun group => (groupOps catalog preset state group).length).sum := by
        rw [opsBetween, sortByText, List.length_mergeSort, List.length_flatMap]
    _ ≤ (groups.map fun group => (ops.filter (·.group = group)).length).sum :=
        List.sum_le_sum fun group changed => bridges.length_groupOps_le slashless changed
    _ = (ops.filter (·.group ∈ groups)).length := by
        rw [← List.length_flatMap, gathered.length_eq]
    _ ≤ ops.length := List.length_filter_le _ _

end Synthesis

namespace Definitions

/-- Where a preset exists, the difference to a state is a shortest one of the sorted op lists
    that lead to it. -/
theorem diff_isLeast_bridges {definitions : Definitions}
    (slashless : definitions.catalog.Slashless) {active : ActiveSet} {preset : Activation}
    (found : definitions.presetState active = .ok preset) (state : Activation) :
    ∃ diff, definitions.diff state active = .ok diff ∧
      Synthesis.Bridges definitions.catalog preset state diff ∧
      ∀ ops, Synthesis.Bridges definitions.catalog preset state ops →
        diff.length ≤ ops.length := by
  refine ⟨_, diff_eq_ok_iff.2 ⟨preset, found, rfl⟩, Synthesis.bridges_opsBetween .., ?_⟩
  intro ops bridges
  exact bridges.length_opsBetween_le slashless

/-- Both eyes and the cap are on beside the sleepy portrait, which takes two ops. Three lead there
    too, one of them on an eye that is on already. -/
theorem diff_isLeast_bridges_portrait :
    ∃ preset, portrait.catalog.Slashless ∧
      portrait.presetState (ActiveSet.ofList ["Sleepy"]) = .ok preset ∧
      Synthesis.Bridges portrait.catalog preset
        (Activation.ofList [("Eyes/Open", true), ("Eyes/Shut", true), ("Hat/Cap", true)])
        [.enable "Eyes" "Open", .enable "Eyes" "Shut", .exclusive "Hat" "Cap"] ∧
      ∃ diff, portrait.diff
          (Activation.ofList [("Eyes/Open", true), ("Eyes/Shut", true), ("Hat/Cap", true)])
          (ActiveSet.ofList ["Sleepy"]) = .ok diff ∧ diff.length ≤ 3 := by
  have slashless : portrait.catalog.Slashless := by decide
  have bridges : Synthesis.Bridges portrait.catalog
      (Activation.ofList [("Eyes/Open", false), ("Eyes/Shut", true), ("Hat/Cap", false),
        ("Tail/Wag", true)])
      (Activation.ofList [("Eyes/Open", true), ("Eyes/Shut", true), ("Hat/Cap", true)])
      [.enable "Eyes" "Open", .enable "Eyes" "Shut", .exclusive "Hat" "Cap"] :=
    ⟨by decide, by decide⟩
  obtain ⟨diff, diff_eq, _, least⟩ := diff_isLeast_bridges slashless presetState_portrait
    (Activation.ofList [("Eyes/Open", true), ("Eyes/Shut", true), ("Hat/Cap", true)])
  exact ⟨_, slashless, presetState_portrait, bridges, diff, diff_eq, least _ bridges⟩

end Definitions

end LayerComposition
