import LayerComposition.Proofs.CleanReport
import LayerComposition.Proofs.RenderOrder

/-! # Targets

A report tells which ops aim at nothing in the catalog. It compares ids, in which a slash joins
group and name, while an op that sets a group compares names: the two agree as long as no group
goes on, behind a slash, where another one ends.
-/

namespace LayerComposition

/-- An op aims at the layers of its group, or at the one of them that it names. -/
def Op.AimsAt : Op → Layer → Prop
  | .clearGroup group, layer => layer.group = group
  | .enable group name, layer | .disable group name, layer | .exclusive group name, layer =>
      layer.group = group ∧ layer.name = name

instance : (op : Op) → (layer : Layer) → Decidable (op.AimsAt layer)
  | .clearGroup group, layer => inferInstanceAs (Decidable (layer.group = group))
  | .enable group name, layer | .disable group name, layer | .exclusive group name, layer =>
      inferInstanceAs (Decidable (layer.group = group ∧ layer.name = name))

def Op.Dangles (catalog : Catalog) (op : Op) : Prop :=
  ∀ layer ∈ catalog.layers, ¬op.AimsAt layer

instance (catalog : Catalog) (op : Op) : Decidable (op.Dangles catalog) :=
  inferInstanceAs (Decidable (∀ layer ∈ catalog.layers, ¬op.AimsAt layer))

/-- No group begins with another one and a slash, so an id tells where its group ends. -/
def Catalog.Separated (catalog : Catalog) : Prop :=
  ∀ first ∈ catalog.layers, ∀ second ∈ catalog.layers,
    ¬first.group.toList ++ ['/'] <+: second.group.toList

instance (catalog : Catalog) : Decidable catalog.Separated :=
  inferInstanceAs (Decidable (∀ first ∈ catalog.layers, ∀ second ∈ catalog.layers,
    ¬first.group.toList ++ ['/'] <+: second.group.toList))

/-- A finding says that an op at a place aims at nothing. -/
def Finding.IsDangling (op : Op) (place : Place) (finding : Finding) : Prop :=
  finding = .unknownGroup op place ∨ ∃ id, finding = .unknownLayer op place id

/-! ## Ids -/

/-- Where one id is made of two groups and names, these are the same, or one group begins with
    the other and a slash. -/
theorem Layer.cases_of_idOf_eq {group name otherGroup otherName : String}
    (same : idOf group name = idOf otherGroup otherName) :
    (group = otherGroup ∧ name = otherName) ∨
      group.toList ++ ['/'] <+: otherGroup.toList ∨
      otherGroup.toList ++ ['/'] <+: group.toList := by
  have chars : group.toList ++ '/' :: name.toList =
      otherGroup.toList ++ '/' :: otherName.toList := by
    simpa [idOf] using congrArg String.toList same
  -- The longer group goes on behind the shorter one: not at all, or with the slash.
  rcases List.append_eq_append_iff.1 chars with ⟨between, longer, rest⟩ | ⟨between, longer, rest⟩
  · cases between with
    | nil => simp_all [String.toList_inj]
    | cons slash others =>
        obtain ⟨rfl, _⟩ := List.cons.inj rest
        exact .inr (.inl ⟨others, by simp [longer]⟩)
  · cases between with
    | nil => simp_all [String.toList_inj]
    | cons slash others =>
        obtain ⟨rfl, _⟩ := List.cons.inj rest
        exact .inr (.inr ⟨others, by simp [longer]⟩)

namespace Catalog

variable {catalog : Catalog}

/-- In a known group of a separated catalog, an id belongs to the layer of the name. -/
theorem Separated.contains_idOf_iff (separated : catalog.Separated) {group name : String}
    (known : catalog.hasGroup group = true) :
    catalog.contains (Layer.idOf group name) = true ↔
      ∃ layer ∈ catalog.layers, layer.group = group ∧ layer.name = name := by
  obtain ⟨member, member_mem, rfl⟩ := hasGroup_iff.1 known
  rw [contains_iff]
  constructor
  · rintro ⟨layer, mem, same⟩
    rcases Layer.cases_of_idOf_eq same with equal | longer | longer
    · exact ⟨layer, mem, equal⟩
    · exact absurd longer (separated layer mem member member_mem)
    · exact absurd longer (separated member member_mem layer mem)
  · rintro ⟨layer, mem, group_eq, rfl⟩
    exact ⟨layer, mem, congrArg (Layer.idOf · layer.name) group_eq⟩

end Catalog

/-! ## Findings -/

theorem Finding.IsDangling.unique {finding : Finding} {op other : Op} {place elsewhere : Place}
    (first : finding.IsDangling op place) (second : finding.IsDangling other elsewhere) :
    op = other ∧ place = elsewhere := by
  rcases first with rfl | ⟨id, rfl⟩ <;> rcases second with same | ⟨_, same⟩ <;> cases same
  · exact ⟨rfl, rfl⟩
  · exact ⟨rfl, rfl⟩

namespace Op

variable {catalog : Catalog} {op : Op} {place : Place}

theorem isDangling_of_mem_targetFindings {finding : Finding}
    (mem : finding ∈ op.targetFindings catalog place) : finding.IsDangling op place := by
  unfold targetFindings at mem
  split at mem
  · exact .inl (List.mem_singleton.1 mem)
  · split at mem
    · contradiction
    · split at mem
      · contradiction
      · exact .inr ⟨_, List.mem_singleton.1 mem⟩

theorem group_of_aimsAt {layer : Layer} (aims : op.AimsAt layer) : layer.group = op.group := by
  cases op with
  | clearGroup group => exact aims
  | enable | disable | exclusive => exact aims.1

/-- The check of a target finds nothing exactly if there is something that the op aims at. -/
theorem targetFindings_eq_nil_iff (separated : catalog.Separated) :
    op.targetFindings catalog place = [] ↔ ¬op.Dangles catalog := by
  simp only [Dangles, not_forall, not_not, exists_prop]
  unfold targetFindings
  cases known : catalog.hasGroup op.group with
  | false =>
      simp only [Bool.not_false, if_true, reduceCtorEq, false_iff, not_exists, not_and]
      intro layer mem aims
      rw [Catalog.hasGroup_iff.2 ⟨layer, mem, group_of_aimsAt aims⟩] at known
      contradiction
  | true =>
      rw [Bool.not_true, if_neg Bool.false_ne_true]
      cases op with
      | clearGroup group => exact ⟨fun _ => Catalog.hasGroup_iff.1 known, fun _ => rfl⟩
      | enable group name | disable group name | exclusive group name =>
          refine Iff.trans ?_ (separated.contains_idOf_iff known)
          simp [target?]

theorem exists_isDangling_targetFindings_iff (separated : catalog.Separated) {other : Op}
    {elsewhere : Place} :
    (∃ finding ∈ other.targetFindings catalog elsewhere, finding.IsDangling op place) ↔
      other = op ∧ elsewhere = place ∧ op.Dangles catalog := by
  constructor
  · rintro ⟨finding, mem, dangling⟩
    obtain ⟨rfl, rfl⟩ := (isDangling_of_mem_targetFindings mem).unique dangling
    refine ⟨rfl, rfl, ?_⟩
    by_contra aimed
    rw [(targetFindings_eq_nil_iff separated).2 aimed] at mem
    contradiction
  · rintro ⟨rfl, rfl, dangles⟩
    have found : other.targetFindings catalog elsewhere ≠ [] :=
      fun none => (targetFindings_eq_nil_iff separated).1 none dangles
    obtain ⟨finding, mem⟩ := List.exists_mem_of_ne_nil _ found
    exact ⟨finding, mem, isDangling_of_mem_targetFindings mem⟩

/-- Setting a group to a layer decides for each layer of the group by its name. -/
theorem isOn_apply_exclusive {group name : String} {layer : Layer}
    (mem : layer ∈ catalog.group group) (activation : Activation) :
    ((exclusive group name).apply catalog activation).isOn layer.id = (layer.name == name) := by
  have written : (layer.id, layer.name == name) ∈ (exclusive group name).writes catalog :=
    List.mem_map.2 ⟨layer, mem, rfl⟩
  rw [Activation.isOn, get?_apply_of_mem_writes written]
  rfl

/-- Setting a group to a layer that it has leaves that layer on and no other of the group. -/
theorem isOn_apply_exclusive_iff {group name : String} {only : Layer}
    (only_mem : only ∈ catalog.group group) (named : only.name = name) (activation : Activation) :
    ∀ layer ∈ catalog.group group,
      ((exclusive group name).apply catalog activation).isOn layer.id = true ↔ layer = only := by
  intro layer mem
  rw [isOn_apply_exclusive mem, beq_iff_eq]
  obtain ⟨only_kept, rfl⟩ := Catalog.mem_group.1 only_mem
  obtain ⟨kept, group_eq⟩ := Catalog.mem_group.1 mem
  constructor
  · intro same
    refine Catalog.eq_of_id_eq kept only_kept ?_
    rw [Layer.id, Layer.id, group_eq, same, named]
  · rintro rfl
    exact named

end Op

namespace Character

/-- An op is written at a place: as a part of the composition of a name, or as a base op. -/
def Mentions (character : Character) (op : Op) : Place → Prop
  | .composition name =>
      ∃ composition ∈ character.registry.compositions, composition.name = name ∧
        ∃ part ∈ composition.parts, character.registry.classify part = .op op
  | .baseline => op ∈ character.baseline.ops

def findingsAt (character : Character) : Place → List Finding
  | .composition _ => character.partsFindings
  | .baseline => character.baselineFindings

variable {character : Character} {op : Op} {place : Place}

theorem exists_isDangling_partFindings_iff (separated : character.catalog.Separated)
    {name part : String} :
    (∃ finding ∈ character.partFindings name part, finding.IsDangling op place) ↔
      character.registry.classify part = .op op ∧ .composition name = place ∧
        op.Dangles character.catalog := by
  unfold partFindings
  cases character.registry.classify part with
  | composition composition => simp
  | op other => simpa using Op.exists_isDangling_targetFindings_iff separated
  | unknown => simp [Finding.IsDangling]

theorem exists_isDangling_baseOpFindings_iff (separated : character.catalog.Separated)
    {token : String} :
    (∃ finding ∈ character.baseOpFindings token, finding.IsDangling op place) ↔
      Op.read? token = some op ∧ .baseline = place ∧ op.Dangles character.catalog := by
  unfold baseOpFindings
  cases Op.read? token with
  | none => simp [Finding.IsDangling]
  | some other => simpa using Op.exists_isDangling_targetFindings_iff separated

theorem exists_isDangling_partsFindings_iff (separated : character.catalog.Separated)
    {name : String} :
    (∃ finding ∈ character.partsFindings, finding.IsDangling op (.composition name)) ↔
      character.Mentions op (.composition name) ∧ op.Dangles character.catalog := by
  constructor
  · rintro ⟨finding, mem, dangling⟩
    obtain ⟨composition, composition_mem, mem⟩ := List.mem_flatMap.1 mem
    obtain ⟨part, part_mem, mem⟩ := List.mem_flatMap.1 mem
    obtain ⟨classified, same, dangles⟩ :=
      (exists_isDangling_partFindings_iff separated).1 ⟨finding, mem, dangling⟩
    exact ⟨⟨composition, composition_mem, Place.composition.inj same, part, part_mem, classified⟩,
      dangles⟩
  · rintro ⟨⟨composition, composition_mem, rfl, part, part_mem, classified⟩, dangles⟩
    obtain ⟨finding, mem, dangling⟩ :=
      (exists_isDangling_partFindings_iff separated).2 ⟨classified, rfl, dangles⟩
    have listed : finding ∈ character.partsFindings :=
      List.mem_flatMap.2 ⟨composition, composition_mem, List.mem_flatMap.2 ⟨part, part_mem, mem⟩⟩
    exact ⟨finding, listed, dangling⟩

theorem exists_isDangling_baselineFindings_iff (separated : character.catalog.Separated) :
    (∃ finding ∈ character.baselineFindings, finding.IsDangling op .baseline) ↔
      character.Mentions op .baseline ∧ op.Dangles character.catalog := by
  constructor
  · rintro ⟨finding, mem, dangling⟩
    rcases List.mem_append.1 mem with mem | mem
    · obtain ⟨name, _, rfl⟩ := List.mem_map.1 mem
      simp [Finding.IsDangling] at dangling
    · obtain ⟨token, token_mem, mem⟩ := List.mem_flatMap.1 mem
      obtain ⟨read, _, dangles⟩ :=
        (exists_isDangling_baseOpFindings_iff separated).1 ⟨finding, mem, dangling⟩
      exact ⟨List.mem_filterMap.2 ⟨token, token_mem, read⟩, dangles⟩
  · rintro ⟨written, dangles⟩
    obtain ⟨token, token_mem, read⟩ := List.mem_filterMap.1 written
    obtain ⟨finding, mem, dangling⟩ :=
      (exists_isDangling_baseOpFindings_iff separated).2 ⟨read, rfl, dangles⟩
    exact ⟨finding, List.mem_append_right _ (List.mem_flatMap.2 ⟨token, token_mem, mem⟩), dangling⟩

theorem exists_isDangling_findingsAt_iff (separated : character.catalog.Separated) :
    (∃ finding ∈ character.findingsAt place, finding.IsDangling op place) ↔
      character.Mentions op place ∧ op.Dangles character.catalog := by
  cases place with
  | composition name => exact exists_isDangling_partsFindings_iff separated
  | baseline => exact exists_isDangling_baselineFindings_iff separated

/-- In a separated catalog the findings on targets are exact: they are made for the ops that are
    written and aim at nothing, and for no others. Where there are none, setting a group as it is
    written anywhere leaves one layer of the group on, the one that is named. -/
theorem exists_isDangling_iff_dangles (separated : character.catalog.Separated) :
    (∀ op place, (∃ finding ∈ character.findingsAt place, finding.IsDangling op place) ↔
        character.Mentions op place ∧ op.Dangles character.catalog) ∧
      ((∀ op place, ¬∃ finding ∈ character.findingsAt place, finding.IsDangling op place) →
        ∀ group name place, character.Mentions (.exclusive group name) place →
          ∀ activation : Activation, ∃ only ∈ character.catalog.group group, only.name = name ∧
            ∀ layer ∈ character.catalog.group group,
              ((Op.exclusive group name).apply character.catalog activation).isOn layer.id =
                true ↔ layer = only) := by
  refine ⟨fun op place => exists_isDangling_findingsAt_iff separated, ?_⟩
  intro unreported group name place written activation
  have aimed : ¬(Op.exclusive group name).Dangles character.catalog := by
    intro dangles
    exact unreported _ place ((exists_isDangling_findingsAt_iff separated).2 ⟨written, dangles⟩)
  simp only [Op.Dangles, not_forall, not_not] at aimed
  obtain ⟨only, kept, group_eq, named⟩ := aimed
  have only_mem : only ∈ character.catalog.group group := Catalog.mem_group.2 ⟨kept, group_eq⟩
  exact ⟨only, only_mem, named, Op.isOn_apply_exclusive_iff only_mem named activation⟩

/-- A tail that the portrait does not have is told of, a hat that it has is not, and a wink shuts
    the eyes. -/
theorem exists_isDangling_iff_dangles_portrait :
    (∃ finding ∈ (ofSources portraitSources).baselineFindings,
        finding.IsDangling (.enable "Tail" "Wag") .baseline) ∧
      (¬∃ finding ∈ (ofSources portraitSources).partsFindings,
        finding.IsDangling (.clear "Hat") (.composition "Sleepy")) ∧
      ∃ only ∈ (ofSources (winkSources "Wink")).catalog.group "Eyes", only.name = "Shut" ∧
        ∀ layer ∈ (ofSources (winkSources "Wink")).catalog.group "Eyes",
          ((Op.exclusive "Eyes" "Shut").apply (ofSources (winkSources "Wink")).catalog
            (Activation.ofList [("Eyes/Open", true)])).isOn layer.id = true ↔ layer = only := by
  have portrait_separated : (ofSources portraitSources).catalog.Separated := by
    rw [toDefinitions_portraitSources]
    decide
  have loaded : ofSources (winkSources "Wink") = ofDefinitions "Wink" (wink "Wink") :=
    ofSources_winkSources rfl
  have wink_separated : (ofSources (winkSources "Wink")).catalog.Separated := by
    rw [loaded]
    decide
  obtain ⟨exact_iff, _⟩ := exists_isDangling_iff_dangles portrait_separated
  obtain ⟨_, sets⟩ := exists_isDangling_iff_dangles wink_separated
  refine ⟨(exact_iff _ .baseline).2 ?_, fun told => ?_, sets ?_ _ _ (.composition "Wink") ?_ _⟩
  · rw [Mentions, toDefinitions_portraitSources]
    decide
  · have dangles := ((exact_iff _ (.composition "Sleepy")).1 told).2
    rw [toDefinitions_portraitSources] at dangles
    revert dangles
    decide
  · have nothing : (ofSources (winkSources "Wink")).partsFindings = [] ∧
        (ofSources (winkSources "Wink")).baselineFindings = [] := by
      rw [loaded]
      decide
    intro op place
    cases place <;> simp [findingsAt, nothing]
  · rw [loaded]
    exact ⟨⟨"Wink", ["Eyes>Shut"]⟩, by decide, rfl, "Eyes>Shut", by decide, by decide⟩

/-- An arm, and a left arm that is a group of its own. -/
def waveSources : CharacterSources where
  name := "Wave"
  catalog := "Arm/Left:Up:1\nArm:Down:2\n"
  compositions := "Wave:Arm>Left/Up\n"
  baseline := ""

/-- The definitions of `waveSources`. -/
def wave : Definitions where
  catalog := ⟨[⟨"Arm/Left", "Up", 1⟩, ⟨"Arm", "Down", 2⟩], [], by decide, by decide⟩
  registry := Registry.ofDefinitions [⟨"Wave", ["Arm>Left/Up"]⟩]
  baseline := ⟨[], []⟩

theorem ofSources_waveSources : ofSources waveSources = ofDefinitions "Wave" wave :=
  ofSources_eq (Prod.ext (Catalog.ofLayers_eq (by decide) rfl) (by decide)) rfl rfl

/-- An op that names a layer which its group does not have goes unreported where another group has
    a layer of that id, and it leaves nothing of its group on. -/
theorem isClean_of_dangles_wave :
    (ofSources waveSources).validate.isClean = true ∧
      (ofSources waveSources).Mentions (.exclusive "Arm" "Left/Up") (.composition "Wave") ∧
      (Op.exclusive "Arm" "Left/Up").Dangles (ofSources waveSources).catalog ∧
      (¬∃ finding ∈ (ofSources waveSources).partsFindings,
        finding.IsDangling (.exclusive "Arm" "Left/Up") (.composition "Wave")) ∧
      ∀ activation : Activation, ∀ layer ∈ (ofSources waveSources).catalog.group "Arm",
        ((Op.exclusive "Arm" "Left/Up").apply (ofSources waveSources).catalog
          activation).isOn layer.id = false := by
  rw [ofSources_waveSources]
  refine ⟨isClean_validate_of_unlinked (by decide) (by decide), ?_, by decide, ?_, ?_⟩
  · exact ⟨⟨"Wave", ["Arm>Left/Up"]⟩, by decide, rfl, "Arm>Left/Up", by decide, by decide⟩
  · have nothing : (ofDefinitions "Wave" wave).partsFindings = [] := by decide
    simp [nothing]
  · intro activation layer mem
    rw [Op.isOn_apply_exclusive mem]
    revert layer
    decide

end Character

end LayerComposition
