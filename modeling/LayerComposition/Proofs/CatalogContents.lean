import Mathlib.Data.List.Perm.Basic
import LayerComposition.Catalog.Index
import LayerComposition.Proofs.Difference
import LayerComposition.Proofs.Occurrences

/-! # What a catalog holds

A catalog is the stable sort of the first definitions of its ids. Looking layers up by the positions
of an index finds what a search finds, whatever was sorted or left out on the way.
-/

namespace LayerComposition

/-- A list sorted by a key, in which the entries of each key stand as they stood in the source. -/
structure IsStableSort {α β : Type} [LE β] [DecidableEq β] (key : α → β)
    (source sorted : List α) : Prop where
  perm : sorted.Perm source
  ordered : (sorted.map key).Pairwise (· ≤ ·)
  stable : ∀ value, sorted.filter (key · = value) = source.filter (key · = value)

namespace Catalog

theorem isStableSort_inRenderOrder (layers : List Layer) :
    IsStableSort Layer.order layers (inRenderOrder layers) := by
  have trans (a b c : Layer) (ab : decide (a.order ≤ b.order) = true)
      (bc : decide (b.order ≤ c.order) = true) : decide (a.order ≤ c.order) = true :=
    decide_eq_true (Int64.le_trans (of_decide_eq_true ab) (of_decide_eq_true bc))
  have total (a b : Layer) :
      (decide (a.order ≤ b.order) || decide (b.order ≤ a.order)) = true := by
    simpa using Int64.le_total a.order b.order
  have perm : (inRenderOrder layers).Perm layers := List.mergeSort_perm layers _
  refine ⟨perm, ?_, fun order => ?_⟩
  · rw [List.pairwise_map]
    exact (List.pairwise_mergeSort trans total layers).imp of_decide_eq_true
  · -- The layers of one order are sorted already, so sorting keeps them as they stand.
    have sorted : (layers.filter (·.order = order)).Pairwise
        fun a b => decide (a.order ≤ b.order) = true := by
      refine List.pairwise_of_forall_mem_list fun a a_mem b b_mem => ?_
      have a_order : a.order = order := by simpa using (List.mem_filter.1 a_mem).2
      have b_order : b.order = order := by simpa using (List.mem_filter.1 b_mem).2
      rw [a_order, b_order]
      exact decide_eq_true (Int64.le_refl order)
    have kept : (layers.filter (·.order = order)).Sublist (inRenderOrder layers) :=
      List.sublist_mergeSort trans total sorted List.filter_sublist
    have within := kept.filter (·.order = order)
    rw [List.filter_filter] at within
    simp only [Bool.and_self] at within
    exact (within.eq_of_length (perm.filter _).length_eq.symm).symm

/-! ## Indexes -/

namespace Index

def positionsOf (layers : List Layer) (group : String) : List Nat :=
  (layers.zipIdx.filter (·.1.group = group)).map Prod.snd

theorem positionsOf_concat (layers : List Layer) (layer : Layer) (group : String) :
    positionsOf (layers ++ [layer]) group =
      positionsOf layers group ++ if layer.group = group then [layers.length] else [] := by
  rw [positionsOf, List.zipIdx_append, List.filter_append, List.map_append]
  by_cases same : layer.group = group <;> simp [positionsOf, same]

theorem get?_byId_ofLayers {layers : List Layer} (nodup : (layers.map Layer.id).Nodup)
    {id : String} {position : Nat} :
    (ofLayers layers).byId.get? id = some position ↔
      ∃ layer, layers[position]? = some layer ∧ layer.id = id := by
  simp only [← List.mk_mem_zipIdx_iff_getElem?]
  induction layers using List.reverseRecOn with
  | nil => simp [ofLayers]
  | append_singleton before layer ih =>
      rw [List.map_append, List.nodup_append] at nodup
      obtain ⟨before_nodup, _, apart⟩ := nodup
      rw [ofLayers_concat, enter, Roster.get?_put, List.zipIdx_append]
      split
      · rename_i same
        constructor
        · intro found
          obtain rfl := Option.some.inj found
          exact ⟨layer, by simp, same.symm⟩
        · rintro ⟨other, mem, other_id⟩
          rcases List.mem_append.1 mem with mem | mem
          · have other_mem : other ∈ before := List.fst_mem_of_mem_zipIdx mem
            refine absurd (other_id.trans same) (apart _ (List.mem_map_of_mem other_mem) _ ?_)
            exact List.mem_singleton_self _
          · simp_all
      · rename_i differ
        rw [ih before_nodup]
        constructor
        · rintro ⟨other, mem, other_id⟩
          exact ⟨other, List.mem_append_left _ mem, other_id⟩
        · rintro ⟨other, mem, other_id⟩
          rcases List.mem_append.1 mem with mem | mem
          · exact ⟨other, mem, other_id⟩
          · simp_all

theorem get?_byGroup_ofLayers (layers : List Layer) (group : String) :
    (ofLayers layers).byGroup.get? group =
      if positionsOf layers group = [] then none else some (positionsOf layers group) := by
  induction layers using List.reverseRecOn with
  | nil => rfl
  | append_singleton before layer ih =>
      rw [ofLayers_concat, enter, Roster.get?_put, positionsOf_concat]
      by_cases same : group = layer.group
      · subst same
        have entered : ((ofLayers before).byGroup.get? layer.group).getD [] =
            positionsOf before layer.group := by
          rw [ih]
          split <;> simp_all
        simp [entered]
      · rw [if_neg same, if_neg (Ne.symm same), ih, List.append_nil]

private theorem map_fst_filter_zipIdx (layers : List Layer) (group : String) :
    (layers.zipIdx.filter (·.1.group = group)).map Prod.fst = layers.filter (·.group = group) := by
  conv_rhs => rw [← List.zipIdx_map_fst 0 layers, List.filter_map]
  rfl

theorem filterMap_positionsOf (layers : List Layer) (group : String) :
    ((positionsOf layers group).filterMap fun position => layers[position]?) =
      layers.filter (·.group = group) := by
  have stands : ∀ entry ∈ layers.zipIdx.filter (·.1.group = group),
      layers[entry.2]? = some entry.1 := by
    intro entry mem
    exact List.mk_mem_zipIdx_iff_getElem?.1 (List.mem_filter.1 mem).1
  rw [positionsOf, List.filterMap_map, ← map_fst_filter_zipIdx, ← List.filterMap_eq_map']
  exact List.filterMap_congr stands

theorem positionsOf_eq_nil_iff {layers : List Layer} {group : String} :
    positionsOf layers group = [] ↔ ¬∃ layer ∈ layers, layer.group = group := by
  rw [positionsOf, List.map_eq_nil_iff, ← List.map_eq_nil_iff (f := Prod.fst),
    map_fst_filter_zipIdx]
  simp

theorem lt_length_of_mem_positionsOf {layers : List Layer} {group : String} {position : Nat}
    (mem : position ∈ positionsOf layers group) : position < layers.length := by
  obtain ⟨entry, entry_mem, rfl⟩ := List.mem_map.1 mem
  simpa using List.snd_lt_of_mem_zipIdx (List.mem_filter.1 entry_mem).1

end Index

variable {catalog : Catalog}

theorem get?_eq_some_iff {id : String} {layer : Layer} :
    catalog.get? id = some layer ↔ layer ∈ catalog.layers ∧ layer.id = id := by
  constructor
  · intro found
    exact ⟨List.mem_of_find?_eq_some found, by simpa using List.find?_some found⟩
  · rintro ⟨mem, same⟩
    cases found : catalog.get? id with
    | none =>
        have missing := List.find?_eq_none.1 found layer mem
        simp [same] at missing
    | some other =>
        have other_mem : other ∈ catalog.layers := List.mem_of_find?_eq_some found
        have other_id : other.id = id := by simpa using List.find?_some found
        rw [eq_of_id_eq other_mem mem (other_id.trans same.symm)]

theorem get?_byId_index {id : String} {position : Nat} :
    catalog.index.byId.get? id = some position ↔
      ∃ layer, catalog.layers[position]? = some layer ∧ layer.id = id :=
  Index.get?_byId_ofLayers catalog.ids_nodup

/-- An index serves a catalog: it finds what a search finds, and holds no position that is not one
    of the catalog. -/
structure Index.Serves (index : Index) (catalog : Catalog) : Prop where
  find? : ∀ id, index.find? catalog.layers id = catalog.get? id
  knows : ∀ id, index.byId.contains id = catalog.contains id
  members : ∀ group, index.members catalog.layers group = catalog.group group
  knowsGroup : ∀ group, index.byGroup.contains group = catalog.hasGroup group
  inside : ∀ id position, index.byId.get? id = some position → position < catalog.layers.length
  groupInside : ∀ group positions, index.byGroup.get? group = some positions →
    ∀ position ∈ positions, position < catalog.layers.length

theorem serves_index (catalog : Catalog) : catalog.index.Serves catalog where
  find? := by
    intro id
    ext layer
    rw [get?_eq_some_iff, Index.find?, Option.bind_eq_some_iff]
    constructor
    · rintro ⟨position, held, stands⟩
      obtain ⟨other, other_stands, other_id⟩ := get?_byId_index.1 held
      obtain rfl := Option.some.inj (stands.symm.trans other_stands)
      exact ⟨List.mem_of_getElem? stands, other_id⟩
    · rintro ⟨mem, same⟩
      obtain ⟨position, stands⟩ := List.mem_iff_getElem?.1 mem
      exact ⟨position, get?_byId_index.2 ⟨layer, stands, same⟩, stands⟩
  knows := by
    intro id
    rw [Bool.eq_iff_iff, contains_iff, Roster.contains, Option.isSome_iff_exists]
    simp only [get?_byId_index, List.mem_iff_getElem?]
    constructor
    · rintro ⟨position, layer, stands, same⟩
      exact ⟨layer, ⟨position, stands⟩, same⟩
    · rintro ⟨layer, ⟨position, stands⟩, same⟩
      exact ⟨position, layer, stands, same⟩
  members := by
    intro group
    have held : (catalog.index.byGroup.get? group).getD [] =
        Index.positionsOf catalog.layers group := by
      rw [index, Index.get?_byGroup_ofLayers]
      split <;> simp_all
    rw [Index.members, held, Index.filterMap_positionsOf]
    rfl
  knowsGroup := by
    intro group
    rw [Bool.eq_iff_iff, hasGroup_iff, Roster.contains, index, Index.get?_byGroup_ofLayers]
    split
    · rename_i none_stands
      simpa using Index.positionsOf_eq_nil_iff.1 none_stands
    · rename_i some_stands
      simpa using not_not.1 (mt Index.positionsOf_eq_nil_iff.2 some_stands)
  inside := by
    intro id position held
    obtain ⟨layer, stands, _⟩ := get?_byId_index.1 held
    exact (List.getElem?_eq_some_iff.1 stands).1
  groupInside := by
    intro group positions held position mem
    rw [index, Index.get?_byGroup_ofLayers] at held
    split at held
    · contradiction
    · obtain rfl := Option.some.inj held
      exact Index.lt_length_of_mem_positionsOf mem

/-! ## Groups -/

theorem flatMap_filter_perm {α β : Type} [DecidableEq β] (key : α → β) (entries : List α)
    {keys : List β} (nodup : keys.Nodup) :
    (keys.flatMap fun value => entries.filter (key · = value)).Perm
      (entries.filter (key · ∈ keys)) := by
  induction keys with
  | nil => simp
  | cons value others ih =>
      obtain ⟨absent, others_nodup⟩ := List.nodup_cons.1 nodup
      have here : (entries.filter (key · ∈ value :: others)).filter (key · = value) =
          entries.filter (key · = value) := by
        rw [List.filter_filter]
        refine List.filter_congr fun entry _ => ?_
        by_cases same : key entry = value <;> simp [same]
      have elsewhere :
          (entries.filter (key · ∈ value :: others)).filter
              (fun entry => !decide (key entry = value)) =
            entries.filter (key · ∈ others) := by
        rw [List.filter_filter]
        refine List.filter_congr fun entry _ => ?_
        by_cases same : key entry = value <;> simp [same, absent]
      have parted := List.filter_append_perm (key · = value)
        (entries.filter (key · ∈ value :: others))
      rw [here, elsewhere] at parted
      rw [List.flatMap_cons]
      exact ((ih others_nodup).append_left _).trans parted

theorem nodup_groups (catalog : Catalog) : catalog.groups.Nodup :=
  nodup_distinct _

theorem flatMap_groups_perm (catalog : Catalog) :
    (catalog.groups.flatMap catalog.group).Perm catalog.layers := by
  have whole : catalog.layers.filter (·.group ∈ catalog.groups) = catalog.layers := by
    rw [List.filter_eq_self]
    intro layer mem
    simpa [groups, mem_distinct] using ⟨layer, mem, rfl⟩
  have gathered := flatMap_filter_perm Layer.group catalog.layers catalog.nodup_groups
  rw [whole] at gathered
  exact gathered

theorem nodup_map_name_group (catalog : Catalog) (group : String) :
    ((catalog.group group).map Layer.name).Nodup := by
  have ids_nodup : ((catalog.group group).map Layer.id).Nodup :=
    catalog.ids_nodup.sublist (List.filter_sublist.map Layer.id)
  have ids_eq : (catalog.group group).map Layer.id =
      ((catalog.group group).map Layer.name).map (Layer.idOf group) := by
    rw [List.map_map]
    refine List.map_congr_left fun layer mem => ?_
    exact congrArg (Layer.idOf · layer.name) (mem_group.1 mem).2
  rw [ids_eq] at ids_nodup
  exact ids_nodup.of_map _

/-! ## Contents -/

theorem length_ofLayers (definitions : List Layer) :
    (ofLayers definitions).layers.length + (ofLayers definitions).duplicates.length =
      definitions.length := by
  have kept : (ofLayers definitions).layers.length = (firstsOn Layer.id definitions).length := by
    rw [← distinctOn_eq_firstsOn]
    exact List.length_mergeSort _
  have told : (ofLayers definitions).duplicates.length =
      (latersOn Layer.id definitions).length := by
    rw [← List.length_map Layer.id, ← repeatsOn_eq_map_latersOn]
    rfl
  rw [kept, told, length_firstsOn_add_length_latersOn]

/-- What a catalog holds of the definitions that it was made of, and how it is asked for it. -/
structure Holds (catalog : Catalog) (definitions : List Layer) : Prop where
  sorted : IsStableSort Layer.order (firstsOn Layer.id definitions) catalog.layers
  duplicates : catalog.duplicates = (latersOn Layer.id definitions).map Layer.id
  length : catalog.layers.length + catalog.duplicates.length = definitions.length
  idsDistinct : (catalog.layers.map Layer.id).Nodup
  get? : ∀ id layer, catalog.get? id = some layer ↔ layer ∈ catalog.layers ∧ layer.id = id
  contains : ∀ id, catalog.contains id = true ↔ ∃ layer, catalog.get? id = some layer
  group : ∀ group, catalog.group group = catalog.layers.filter (·.group = group)
  namesDistinct : ∀ group, ((catalog.group group).map Layer.name).Nodup
  hasGroup : ∀ group, catalog.hasGroup group = true ↔ catalog.group group ≠ []
  groups : catalog.groups = firstsOn id (catalog.layers.map Layer.group)
  groupsDistinct : catalog.groups.Nodup
  partition : (catalog.groups.flatMap catalog.group).Perm catalog.layers
  indexed : catalog.index.Serves catalog
  active : ∀ activation : Activation,
    (activation.activeLayers catalog).Sublist catalog.layers ∧
      (∀ layer, layer ∈ activation.activeLayers catalog ↔
        layer ∈ catalog.layers ∧ activation.isOn layer.id = true) ∧
      ((activation.activeLayers catalog).map Layer.order).Pairwise (· ≤ ·)

/-- The catalog of any list of definitions holds the first one of each id and tells of the others,
    in order, and every way of asking for layers gives those that it holds. -/
theorem holds_ofLayers (definitions : List Layer) : (ofLayers definitions).Holds definitions where
  sorted := by
    rw [← distinctOn_eq_firstsOn]
    exact isStableSort_inRenderOrder _
  duplicates := repeatsOn_eq_map_latersOn Layer.id definitions
  length := length_ofLayers definitions
  idsDistinct := (ofLayers definitions).ids_nodup
  get? := fun _ _ => get?_eq_some_iff
  contains := fun _ => Option.isSome_iff_exists
  group := fun _ => rfl
  namesDistinct := nodup_map_name_group _
  hasGroup := by
    intro group
    rw [hasGroup_iff, Catalog.group, ne_eq, List.filter_eq_nil_iff]
    simp
  groups := distinctOn_eq_firstsOn id _
  groupsDistinct := nodup_groups _
  partition := flatMap_groups_perm _
  indexed := serves_index _
  active := by
    intro activation
    refine ⟨List.filter_sublist, fun layer => List.mem_filter, ?_⟩
    rw [List.pairwise_map]
    exact ((ofLayers definitions).ordered.imp of_decide_eq_true).sublist List.filter_sublist

end Catalog

end LayerComposition
