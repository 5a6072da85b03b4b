import Mathlib.Data.List.TakeWhile
import LayerComposition.Validation

/-! # Notation

Ops are read back from their text, and the text of an op stands between commas as it is if its
group and name do. What the source files define is trimmed, so it can stand there.
-/

namespace LayerComposition

namespace Text

/-- The blanks at the ends of a text decide whether it is trimmed. -/
theorem trim_eq_self_iff {cs : List Char} :
    trim cs = cs ↔
      (∀ c ∈ cs.head?, isBlank c = false) ∧ ∀ c ∈ cs.getLast?, isBlank c = false := by
  constructor
  · intro trimmed
    have ends := trim_ends cs
    rw [trimmed] at ends
    exact ends
  · rintro ⟨front, back⟩
    exact trim_eq_self front back

/-- What trimming leaves of a text can stand before a separator that the text is free of. -/
theorem isField_of_trim {separator : Char} {cs : List Char} {text : String}
    (free : separator ∉ cs) (trimmed : text.toList = trim cs) (filled : text ≠ "") :
    IsField separator text where
  filled := filled
  not_mem := by
    rw [trimmed]
    exact fun mem => free (mem_of_mem_trim mem)
  trimmed := by rw [trimmed, trim_trim]

/-- A text that can stand before one separator can stand before another that it is free of. -/
theorem IsField.of_not_mem {separator other : Char} {text : String}
    (isField : IsField separator text) (free : other ∉ text.toList) : IsField other text where
  filled := isField.filled
  not_mem := free
  trimmed := isField.trimmed

/-- Text is taken apart at the first separator: the front holds none, and what follows it is the
    rest. -/
theorem splitAtFirst_eq_some_iff {separator : Char} {cs front back : List Char} :
    splitAtFirst separator cs = (front, some back) ↔
      cs = front ++ separator :: back ∧ separator ∉ front := by
  constructor
  · intro split
    obtain ⟨front_eq, back_eq⟩ := Prod.mk.inj split
    have free : separator ∉ front := by
      intro mem
      rw [← front_eq] at mem
      simpa using List.mem_takeWhile_imp mem
    refine ⟨?_, free⟩
    rw [← List.takeWhile_append_dropWhile (p := (· ≠ separator)) (l := cs), front_eq]
    have first := List.head?_dropWhile_not (fun c => decide (c ≠ separator)) cs
    split at back_eq
    · contradiction
    · rename_i c rest dropped
      obtain rfl := Option.some.inj back_eq
      rw [dropped] at first ⊢
      simp_all
  · rintro ⟨rfl, free⟩
    exact splitAtFirst_append free back

end Text

namespace Op

/-- The operator character of an op. -/
def operator : Op → Char
  | enable _ _ => '+'
  | disable _ _ | clearGroup _ => '-'
  | exclusive _ _ => '>'

/-- What stands behind the operator in the text of an op: its name, but for an op that clears a
    group. -/
def ending : Op → String
  | enable _ name | disable _ name | exclusive _ name => name
  | clearGroup _ => ""

theorem ending_eq_name {op : Op} (cleared : op.kind = .clearGroup → op.name = "") :
    op.ending = op.name := by
  cases op with
  | enable | disable | exclusive => rfl
  | clearGroup => exact (cleared rfl).symm

theorem toList_text (op : Op) :
    op.text.toList = op.group.toList ++ op.operator :: op.ending.toList := by
  cases op <;> simp [text, group, operator, ending]

theorem isOperator_operator (op : Op) : isOperator op.operator = true := by
  cases op <;> rfl

/-- An operator character is neither a comma nor a blank. -/
theorem plain_of_isOperator {c : Char} (isOp : isOperator c = true) :
    c ≠ ',' ∧ Text.isBlank c = false := by
  have cases_c : c = '+' ∨ c = '-' ∨ c = '>' := by simpa [isOperator, or_assoc] using isOp
  rcases cases_c with rfl | rfl | rfl <;> decide

/-- The text of an op up to its operator is its group, if that holds no operator itself. -/
theorem span_text {op : Op} (free : ∀ c ∈ op.group.toList, isOperator c = false) :
    op.text.toList.takeWhile (fun c => !isOperator c) = op.group.toList ∧
      op.text.toList.dropWhile (fun c => !isOperator c) = op.operator :: op.ending.toList := by
  have before : ∀ c ∈ op.group.toList, (!isOperator c) = true := by
    intro c mem
    rw [free c mem]
    rfl
  rw [toList_text, List.takeWhile_append_of_pos before, List.dropWhile_append_of_pos before]
  simp [isOperator_operator]

/-- An op is read back from its text if its group is filled and free of operators, no name is
    missing where that would clear the group, and none is kept where it is not written. -/
theorem read?_text {op : Op} (filled : op.group ≠ "")
    (free : ∀ c ∈ op.group.toList, isOperator c = false)
    (cleared : op.kind = .clearGroup → op.name = "")
    (disabled : op.kind = .disable → op.name ≠ "") : read? op.text = some op := by
  obtain ⟨group_eq, rest_eq⟩ := span_text free
  have group_filled : op.group.toList ≠ [] := by simpa using filled
  rw [read?, group_eq, rest_eq, ofPieces?, if_neg group_filled]
  cases op with
  | enable group name => simp [operator, Op.group, ending]
  | disable group name =>
      have name_filled : name ≠ "" := disabled rfl
      simp [operator, Op.group, ending, name_filled]
  | exclusive group name => simp [operator, Op.group, ending]
  | @clearGroup group name =>
      obtain rfl : name = "" := cleared rfl
      simp [operator, Op.group, ending]

/-- The text of an op holds a comma only if its group or what stands behind its operator does. -/
theorem comma_notMem_text {op : Op} (group : ',' ∉ op.group.toList)
    (ending : ',' ∉ op.ending.toList) : ',' ∉ op.text.toList := by
  have other := (plain_of_isOperator (isOperator_operator op)).1.symm
  rw [toList_text]
  simp [group, ending, other]

/-- The text of an op can stand between commas if its group can, and what stands behind its
    operator, if anything does. -/
theorem isField_text {op : Op} (group : Text.IsField ',' op.group)
    (ending : op.ending = "" ∨ Text.IsField ',' op.ending) : Text.IsField ',' op.text where
  filled := by
    intro empty
    have chars := toList_text op
    rw [empty] at chars
    simp at chars
  not_mem := by
    refine comma_notMem_text group.not_mem ?_
    rcases ending with empty | ending
    · simp [empty]
    · exact ending.not_mem
  trimmed := by
    rw [toList_text, Text.trim_eq_self_iff]
    have group_filled : op.group.toList ≠ [] := by simpa using group.filled
    constructor
    · intro c mem
      rw [List.head?_append, List.head?_eq_some_head group_filled, Option.some_or,
        ← List.head?_eq_some_head] at mem
      exact (Text.trim_eq_self_iff.1 group.trimmed).1 c mem
    · intro c mem
      rcases ending with empty | ending
      · have last : op.operator = c := by simpa [empty] using mem
        rw [← last]
        exact (plain_of_isOperator (isOperator_operator op)).2
      · have ending_filled : op.ending.toList ≠ [] := by simpa using ending.filled
        rw [List.getLast?_append, List.getLast?_cons_of_ne_nil ending_filled] at mem
        refine (Text.trim_eq_self_iff.1 ending.trimmed).2 c ?_
        simpa [List.getLast?_eq_some_getLast ending_filled] using mem

end Op

theorem Layer.isAddressable_iff {layer : Layer} :
    layer.isAddressable = true ↔
      (∀ c ∈ layer.group.toList, Op.isOperator c = false) ∧
        ',' ∉ layer.group.toList ∧ ',' ∉ layer.name.toList := by
  simp only [isAddressable, Bool.and_eq_true, Bool.not_eq_true', List.any_eq_false,
    Bool.or_eq_true, beq_iff_eq, not_or, Bool.not_eq_true, imp_and, forall_and,
    List.forall_mem_ne', and_assoc]

/-! ## Definitions from source texts -/

/-- A line states a layer: its group and its name, each up to a colon, and its order. -/
def Layer.StatedBy (layer : Layer) (line : List Char) : Prop :=
  ∃ group name order, line = group ++ ':' :: (name ++ ':' :: order) ∧
    ':' ∉ group ∧ ':' ∉ name ∧
    layer.group.toList = Text.trim group ∧ layer.name.toList = Text.trim name ∧
    Text.readInteger? (Text.trim order) = some layer.order

/-- A line states a composition: its name up to the first colon, and its parts. -/
def Composition.StatedBy (composition : Composition) (line : List Char) : Prop :=
  ∃ name parts, line = name ++ ':' :: parts ∧ ':' ∉ name ∧
    composition.name.toList = Text.trim name ∧
    composition.parts = Text.items (String.ofList parts)

/-- What is read from a catalog line is the layer that the line states, if group and name are
    filled. -/
theorem Layer.read?_eq_some_iff {line : String} {layer : Layer} :
    read? line = some layer ↔
      layer.StatedBy line.toList ∧ layer.group ≠ "" ∧ layer.name ≠ "" := by
  constructor
  · intro found
    unfold read? at found
    split at found
    · contradiction
    · rename_i group rest split_line
      split at found
      · contradiction
      · rename_i name order split_rest
        split at found
        · contradiction
        · rename_i filled
          obtain ⟨number, read, rfl⟩ := Option.map_eq_some_iff.1 found
          obtain ⟨line_eq, group_free⟩ := Text.splitAtFirst_eq_some_iff.1 split_line
          obtain ⟨rest_eq, name_free⟩ := Text.splitAtFirst_eq_some_iff.1 split_rest
          refine ⟨⟨group, name, order, rest_eq ▸ line_eq, group_free, name_free,
            String.toList_ofList, String.toList_ofList, read⟩, ?_⟩
          simpa [← String.toList_inj] using filled
  · rintro ⟨⟨group, name, order, line_eq, group_free, name_free, group_eq, name_eq, order_eq⟩,
      group_filled, name_filled⟩
    rw [read?, line_eq, Text.splitAtFirst_append group_free]
    simp only [Text.splitAtFirst_append name_free, ← group_eq, ← name_eq, order_eq]
    rw [if_neg (by simp [group_filled, name_filled])]
    simp

theorem Composition.read?_eq_some_iff {line : String} {composition : Composition} :
    read? line = some composition ↔
      composition.StatedBy line.toList ∧ composition.name ≠ "" := by
  constructor
  · intro found
    unfold read? at found
    split at found
    · contradiction
    · rename_i name parts split_line
      split at found
      · contradiction
      · rename_i filled
        obtain rfl := Option.some.inj found
        obtain ⟨line_eq, name_free⟩ := Text.splitAtFirst_eq_some_iff.1 split_line
        refine ⟨⟨name, parts, line_eq, name_free, String.toList_ofList, rfl⟩, ?_⟩
        simpa [← String.toList_inj] using filled
  · rintro ⟨⟨name, parts, line_eq, name_free, name_eq, parts_eq⟩, name_filled⟩
    rw [read?, line_eq, Text.splitAtFirst_append name_free]
    simp only [← name_eq, ← parts_eq]
    rw [if_neg (by simp [name_filled])]
    simp

theorem Layer.isField_of_read? {line : String} {layer : Layer}
    (found : read? line = some layer) :
    Text.IsField ':' layer.group ∧ Text.IsField ':' layer.name := by
  obtain ⟨⟨group, name, _, _, group_free, name_free, group_eq, name_eq, _⟩, filled⟩ :=
    read?_eq_some_iff.1 found
  exact ⟨Text.isField_of_trim group_free group_eq filled.1,
    Text.isField_of_trim name_free name_eq filled.2⟩

theorem Composition.isField_of_read? {line : String} {composition : Composition}
    (found : read? line = some composition) : Text.IsField ':' composition.name := by
  obtain ⟨⟨name, _, _, name_free, name_eq, _⟩, filled⟩ := read?_eq_some_iff.1 found
  exact Text.isField_of_trim name_free name_eq filled

/-- Every layer of a catalog that was read stands on a line. -/
theorem Catalog.exists_line_of_mem_read {text : String} {layer : Layer}
    (mem : layer ∈ (Catalog.read text).1.layers) :
    ∃ line ∈ SourceLine.all text, Layer.read? line.text = some layer := by
  have defined : layer ∈ distinctOn Layer.id (Reading.ofText Layer.read? text).accepted :=
    List.mem_mergeSort.1 mem
  exact List.mem_filterMap.1 ((distinctFrom_sublist Layer.id [] _).subset defined)

/-- Groups and names of a catalog that was read can stand before a colon. -/
theorem Catalog.isField_of_mem_read {text : String} {layer : Layer}
    (mem : layer ∈ (Catalog.read text).1.layers) :
    Text.IsField ':' layer.group ∧ Text.IsField ':' layer.name := by
  obtain ⟨line, _, found⟩ := exists_line_of_mem_read mem
  exact Layer.isField_of_read? found

/-- The names of a registry that was read can stand before a colon. -/
theorem Registry.isField_of_contains_read {text name : String}
    (contained : (Registry.read text).1.contains name = true) : Text.IsField ':' name := by
  have defined := Roster.mem_keys_ofList.1 (Roster.contains_iff_mem_keys.1 contained)
  obtain ⟨_, pair_mem, rfl⟩ := List.mem_map.1 defined
  obtain ⟨composition, accepted, rfl⟩ := List.mem_map.1 pair_mem
  obtain ⟨line, _, found⟩ := List.mem_filterMap.1 accepted
  exact Composition.isField_of_read? found

/-- The presets of a baseline that was read can stand between commas and are no ops. -/
theorem Baseline.isField_of_mem_presetNames_read {text name : String}
    (mem : name ∈ (Baseline.read text).presetNames) :
    Text.IsField ',' name ∧ Op.read? name = none := by
  unfold Baseline.read at mem
  split at mem
  · contradiction
  · rename_i line _ _
    simp only [Baseline.ofLine, List.partition_eq_filter_filter] at mem
    obtain ⟨item_mem, no_op⟩ := List.mem_filter.1 mem
    exact ⟨Text.isField_of_mem_items item_mem, by simpa using no_op⟩

/-- The names that an expression activates are those of compositions, and can stand between
    commas. -/
theorem Expression.contains_of_mem_read {registry : Registry} {text name : String}
    (mem : name ∈ (Expression.read registry text).active.names) :
    registry.contains name = true ∧ Text.IsField ',' name := by
  obtain ⟨part, part_mem, named⟩ := List.mem_filterMap.1 (mem_distinct.1 mem)
  obtain ⟨item, item_mem, rfl⟩ := List.mem_map.1 part_mem
  cases classified : registry.classify item with
  | composition composition =>
      rw [classified] at named
      obtain rfl := Option.some.inj named
      obtain rfl := Registry.name_of_classify classified
      exact ⟨Registry.contains_of_classify classified, Text.isField_of_mem_items item_mem⟩
  | op op =>
      rw [classified] at named
      contradiction
  | unknown =>
      rw [classified] at named
      contradiction

end LayerComposition
