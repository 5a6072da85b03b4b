import Mathlib.Data.List.Perm.Basic
import LayerComposition.Proofs.Difference

/-! # Render order

When a layer is drawn has no part in what is switched on. Catalogs that hold the same layers
resolve every choice alike and give every state the same expression, in whichever order the
layers stand: what an op writes is the same up to order and writes no id twice, and the ops of a
difference are the same up to order, which sorting them by text takes away.
-/

namespace LayerComposition

/-- Where no key comes twice, the order of the entries is of no account. -/
theorem Entries.lookup_eq_of_perm {α : Type} {first second : List (String × α)}
    (perm : first.Perm second) (nodup : (first.map Prod.fst).Nodup) (key : String) :
    first.lookup key = second.lookup key := by
  cases found : second.lookup key with
  | some value => exact lookup_of_mem nodup (perm.mem_iff.2 (mem_of_lookup found))
  | none =>
      rw [← Option.not_isSome_iff_eq_none, isSome_lookup] at found ⊢
      exact fun mem => found ((perm.map Prod.fst).mem_iff.1 mem)

theorem Activation.write_eq_of_perm {first second : List (String × Bool)}
    (perm : first.Perm second) (nodup : (first.map Prod.fst).Nodup) (activation : Activation) :
    activation.write first = activation.write second := by
  have second_nodup : (second.map Prod.fst).Nodup := (perm.map Prod.fst).nodup_iff.1 nodup
  apply Activation.ext_get?
  intro id
  rw [get?_write_eq, get?_write_eq, lastWrite?_of_nodup nodup, lastWrite?_of_nodup second_nodup,
    Entries.lookup_eq_of_perm perm nodup]

/-- What tells a layer from every other one of its catalog. -/
def Layer.address (layer : Layer) : String × String :=
  (layer.group, layer.name)

def Layer.idAt (address : String × String) : String :=
  idOf address.1 address.2

namespace Catalog

def addresses (catalog : Catalog) : List (String × String) :=
  catalog.layers.map Layer.address

/-- Two catalogs hold the same layers, whenever these are drawn. -/
def SameAddresses (first second : Catalog) : Prop :=
  ∀ address, address ∈ first.addresses ↔ address ∈ second.addresses

theorem addresses_nodup (catalog : Catalog) : catalog.addresses.Nodup := by
  have ids_eq : catalog.layers.map Layer.id =
      catalog.addresses.map Layer.idAt := by
    rw [addresses, List.map_map]
    rfl
  have nodup := catalog.ids_nodup
  rw [ids_eq] at nodup
  exact nodup.of_map _

variable {first second : Catalog}

theorem SameAddresses.perm (same : first.SameAddresses second) :
    first.addresses.Perm second.addresses :=
  (List.perm_ext_iff_of_nodup first.addresses_nodup second.addresses_nodup).2 same

/-- Layers that are chosen by their addresses are the same in both catalogs. -/
theorem SameAddresses.perm_filter (same : first.SameAddresses second)
    (keep : String × String → Bool) :
    ((first.layers.filter fun layer => keep layer.address).map Layer.address).Perm
      ((second.layers.filter fun layer => keep layer.address).map Layer.address) := by
  have chosen (catalog : Catalog) :
      (catalog.layers.filter fun layer => keep layer.address).map Layer.address =
        catalog.addresses.filter keep := by
    rw [addresses, List.filter_map]
    rfl
  rw [chosen, chosen]
  exact same.perm.filter keep

theorem SameAddresses.perm_filter_group (same : first.SameAddresses second) (group : String)
    (keep : String × String → Bool) :
    (((first.group group).filter fun layer => keep layer.address).map Layer.address).Perm
      (((second.group group).filter fun layer => keep layer.address).map Layer.address) := by
  simp only [Catalog.group, List.filter_filter]
  exact same.perm_filter fun address => keep address && decide (address.1 = group)

theorem SameAddresses.perm_group (same : first.SameAddresses second) (group : String) :
    ((first.group group).map Layer.address).Perm ((second.group group).map Layer.address) :=
  same.perm_filter fun address => decide (address.1 = group)

end Catalog

namespace Op

/-- What an op writes stands in every activation to which it was applied. -/
theorem get?_apply_of_mem_writes {catalog : Catalog} {op : Op} {id : String} {on : Bool}
    (written : (id, on) ∈ op.writes catalog) (activation : Activation) :
    (op.apply catalog activation).get? id = some on := by
  have nodup := nodup_map_fst_writes catalog op
  rw [apply, Activation.get?_write_eq, lastWrite?_of_nodup nodup,
    Entries.lookup_of_mem nodup written]
  rfl

variable {first second : Catalog}

theorem writes_perm (same : first.SameAddresses second) (op : Op) :
    (op.writes first).Perm (op.writes second) := by
  -- The writes to a group are told by the addresses of its layers.
  have by_address (catalog : Catalog) (group : String) (value : String → Bool) :
      (catalog.group group).map (fun layer => (layer.id, value layer.name)) =
        ((catalog.group group).map Layer.address).map fun address =>
          (Layer.idAt address, value address.2) := by
    rw [List.map_map]
    rfl
  cases op with
  | enable group name => exact .refl _
  | disable group name => exact .refl _
  | exclusive group name =>
      rw [writes, writes, by_address first group (· == name), by_address second group (· == name)]
      exact (same.perm_group group).map _
  | clearGroup group =>
      rw [writes, writes, by_address first group fun _ => false,
        by_address second group fun _ => false]
      exact (same.perm_group group).map _

theorem apply_eq_of_sameAddresses (same : first.SameAddresses second) :
    apply first = apply second := by
  funext activation op
  exact Activation.write_eq_of_perm (writes_perm same op) (nodup_map_fst_writes first op) activation

theorem applyAll_eq_of_sameAddresses (same : first.SameAddresses second) :
    applyAll first = applyAll second := by
  funext activation ops
  rw [applyAll, applyAll, apply_eq_of_sameAddresses same]

end Op

namespace Synthesis

variable {first second : Catalog} {preset state : Activation}

theorem changedGroups_perm (same : first.SameAddresses second) :
    (changedGroups first preset state).Perm (changedGroups second preset state) := by
  have by_address (catalog : Catalog) :
      (catalog.layers.filter (differs preset state)).map Layer.group =
        ((catalog.layers.filter (differs preset state)).map Layer.address).map Prod.fst := by
    rw [List.map_map]
    rfl
  have differing := same.perm_filter fun address =>
    state.isOn (Layer.idAt address) != preset.isOn (Layer.idAt address)
  refine (List.perm_ext_iff_of_nodup (nodup_distinct _) (nodup_distinct _)).2 fun group => ?_
  rw [mem_distinct, mem_distinct, by_address, by_address]
  exact (differing.map Prod.fst).mem_iff

theorem groupOps_perm (same : first.SameAddresses second) (group : String) :
    (groupOps first preset state group).Perm (groupOps second preset state group) := by
  have on : (((first.group group).filter fun layer => state.isOn layer.id).map Layer.address).Perm
      (((second.group group).filter fun layer => state.isOn layer.id).map Layer.address) :=
    same.perm_filter_group group fun address => state.isOn (Layer.idAt address)
  have differing := same.perm_filter_group group fun address =>
    state.isOn (Layer.idAt address) != preset.isOn (Layer.idAt address)
  have switched := differing.map fun address =>
    if state.isOn (Layer.idAt address) then Op.enable group address.2
    else Op.disable group address.2
  rw [List.map_map, List.map_map] at switched
  unfold groupOps
  -- How many layers are on decides the form of the ops, and both catalogs have as many.
  generalize (first.group group).filter (fun layer => state.isOn layer.id) = firstOn at on ⊢
  generalize (second.group group).filter (fun layer => state.isOn layer.id) = secondOn at on ⊢
  match firstOn, secondOn, on with
  | [], [], _ => exact .refl _
  | [only], [other], on =>
      have address_eq : only.address = other.address := by simpa using on
      have name_eq : only.name = other.name := (Prod.mk.inj address_eq).2
      show List.Perm [Op.exclusive group only.name] [Op.exclusive group other.name]
      rw [name_eq]
  | _ :: _ :: _, _ :: _ :: _, _ => exact switched
  | [], _ :: _, on => simp at on
  | _ :: _, [], on => simp at on
  | [_], _ :: _ :: _, on => simpa using on.length_eq
  | _ :: _ :: _, [_], on => simpa using on.length_eq

/-- The texts of a difference do not depend on the order in which its ops are made. -/
theorem map_text_sortByText_eq {ops others : List Op} (perm : ops.Perm others) :
    (sortByText ops).map Op.text = (sortByText others).map Op.text := by
  have sorted (ops : List Op) : ((sortByText ops).map Op.text).Pairwise (· ≤ ·) := by
    rw [List.pairwise_map]
    refine (List.pairwise_mergeSort ?_ ?_ ops).imp fun {a b} le => of_decide_eq_true le
    · intro a b c ab bc
      exact decide_eq_true (String.le_trans (of_decide_eq_true ab) (of_decide_eq_true bc))
    · intro a b
      simpa using String.le_total a.text b.text
  have same_ops : (sortByText ops).Perm (sortByText others) :=
    (List.mergeSort_perm ops _).trans (perm.trans (List.mergeSort_perm others _).symm)
  exact List.Perm.eq_of_pairwise (fun _ _ _ _ ab ba => String.le_antisymm ab ba) (sorted ops)
    (sorted others) (same_ops.map Op.text)

theorem map_text_opsBetween_eq (same : first.SameAddresses second) :
    (opsBetween first preset state).map Op.text =
      (opsBetween second preset state).map Op.text :=
  map_text_sortByText_eq
    ((changedGroups_perm same).flatMap fun group _ => groupOps_perm same group)

theorem expressionText_congr {active : ActiveSet} {ops others : List Op}
    (same : ops.map Op.text = others.map Op.text) :
    expressionText active ops = expressionText active others := by
  rw [expressionText, expressionText, same]

end Synthesis

namespace Definitions

variable {first second : Catalog}

theorem presetState_eq_of_sameAddresses (same : first.SameAddresses second) (registry : Registry)
    (baseline : Baseline) (active : ActiveSet) :
    presetState ⟨first, registry, baseline⟩ active =
      presetState ⟨second, registry, baseline⟩ active := by
  have expand_eq (name : String) (activation : Activation) :
      registry.expand first name activation = registry.expand second name activation := by
    rw [Registry.expand_eq_flatten, Registry.expand_eq_flatten,
      Op.applyAll_eq_of_sameAddresses same]
  have expandInto_eq :
      expandInto ⟨first, registry, baseline⟩ = expandInto ⟨second, registry, baseline⟩ := by
    funext activation name
    rw [expandInto, expandInto, expand_eq]
  have base_eq :
      baseState ⟨first, registry, baseline⟩ = baseState ⟨second, registry, baseline⟩ := by
    rw [baseState, baseState, Op.applyAll_eq_of_sameAddresses same]
  rw [presetState, presetState, expandInto_eq, base_eq]

/-- Two catalogs with the same layers resolve alike, have one expression for a state, and draw the
    same layers for it, if not in the same order. -/
theorem agree_of_sameAddresses (same : first.SameAddresses second) (registry : Registry)
    (baseline : Baseline) (active : ActiveSet) (pins : Pins) (state : Activation) :
    resolve ⟨first, registry, baseline⟩ active pins =
        resolve ⟨second, registry, baseline⟩ active pins ∧
      synthesize ⟨first, registry, baseline⟩ state active =
        synthesize ⟨second, registry, baseline⟩ state active ∧
      ((state.activeLayers first).map Layer.address).Perm
        ((state.activeLayers second).map Layer.address) := by
  have preset_eq := presetState_eq_of_sameAddresses same registry baseline active
  have text_eq (preset : Activation) :
      Synthesis.expressionText active (Synthesis.opsBetween first preset state) =
        Synthesis.expressionText active (Synthesis.opsBetween second preset state) :=
    Synthesis.expressionText_congr (Synthesis.map_text_opsBetween_eq same)
  refine ⟨?_, ?_, ?_⟩
  · rw [resolve, resolve, preset_eq]
  · rw [synthesize, synthesize, diff, diff, preset_eq]
    cases presetState ⟨second, registry, baseline⟩ active with
    | error cycle => rfl
    | ok preset => exact congrArg Except.ok (text_eq preset)
  · exact same.perm_filter fun address => state.isOn (Layer.idAt address)

/-- The layers of the portrait, drawn the other way round. -/
def redrawn : Catalog :=
  ⟨[⟨"Hat", "Cap", -7⟩, ⟨"Eyes", "Shut", 0⟩, ⟨"Eyes", "Open", 4⟩], [], by decide, by decide⟩

/-- Drawn the other way round, the portrait resolves as before, and its difference is written in
    the same order though it is found in another. -/
theorem agree_of_sameAddresses_redrawn :
    portrait.catalog.SameAddresses redrawn ∧
      resolve ⟨redrawn, portrait.registry, portrait.baseline⟩ (ActiveSet.ofList ["Sleepy"])
          (Roster.ofList [("Eyes/Open", true)]) =
        .ok (Activation.ofList [("Eyes/Open", true), ("Eyes/Shut", true), ("Hat/Cap", false),
          ("Tail/Wag", true)]) ∧
      synthesize ⟨redrawn, portrait.registry, portrait.baseline⟩
          (Activation.ofList [("Eyes/Open", true), ("Eyes/Shut", true), ("Hat/Cap", true)])
          (ActiveSet.ofList ["Sleepy"]) = .ok "Sleepy,Eyes+Open,Hat>Cap" := by
  have same : portrait.catalog.SameAddresses redrawn := by
    have perm : portrait.catalog.addresses.Perm redrawn.addresses := by decide
    exact fun _ => perm.mem_iff
  have written : portrait.synthesize
      (Activation.ofList [("Eyes/Open", true), ("Eyes/Shut", true), ("Hat/Cap", true)])
      (ActiveSet.ofList ["Sleepy"]) = .ok "Sleepy,Eyes+Open,Hat>Cap" := by
    have ops_eq : Synthesis.opsBetween portrait.catalog
        (Activation.ofList [("Eyes/Open", false), ("Eyes/Shut", true), ("Hat/Cap", false),
          ("Tail/Wag", true)])
        (Activation.ofList [("Eyes/Open", true), ("Eyes/Shut", true), ("Hat/Cap", true)]) =
          [.enable "Eyes" "Open", .exclusive "Hat" "Cap"] :=
      List.mergeSort_of_pairwise (by decide)
    rw [synthesize, diff, presetState_portrait]
    simp only [Except.map, ops_eq]
    decide
  obtain ⟨resolve_eq, synthesize_eq, _⟩ := agree_of_sameAddresses same portrait.registry
    portrait.baseline (ActiveSet.ofList ["Sleepy"]) (Roster.ofList [("Eyes/Open", true)])
    (Activation.ofList [("Eyes/Open", true), ("Eyes/Shut", true), ("Hat/Cap", true)])
  exact ⟨same, resolve_eq.symm.trans resolve_portrait, synthesize_eq.symm.trans written⟩

end Definitions

end LayerComposition
