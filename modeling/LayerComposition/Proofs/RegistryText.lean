import LayerComposition.Proofs.Occurrences
import LayerComposition.Proofs.SourceText

/-! # Compositions texts

Which lines define a composition, and what becomes of the others. A registry keeps every name at
the place of its first definition with the parts of its last one, and it is read again from its own
text.
-/

namespace LayerComposition

namespace Text

theorem subset_of_mem_splitOn {separator : Char} {cs piece : List Char}
    (mem : piece ∈ cs.splitOn separator) : piece ⊆ cs := by
  induction cs generalizing piece with
  | nil => simp_all
  | cons c rest ih =>
      rw [List.splitOn_cons_eq_if_modifyHead] at mem
      split at mem
      · rcases List.mem_cons.1 mem with rfl | mem
        · exact List.nil_subset _
        · exact List.subset_cons_of_subset c (ih mem)
      · cases pieces : rest.splitOn separator with
        | nil => simp_all
        | cons first others =>
            rw [pieces, List.modifyHead_cons] at mem
            rcases List.mem_cons.1 mem with rfl | mem
            · exact List.cons_subset_cons c (ih (by simp [pieces]))
            · exact List.subset_cons_of_subset c (ih (by simp [pieces, mem]))

theorem subset_of_mem_items {text item : String} (mem : item ∈ items text) :
    item.toList ⊆ text.toList := by
  obtain ⟨trimmed, trimmed_mem, kept⟩ := List.mem_filterMap.1 mem
  obtain ⟨piece, piece_mem, rfl⟩ := List.mem_map.1 trimmed_mem
  split at kept
  · contradiction
  · obtain rfl := Option.some.inj kept
    rw [String.toList_ofList]
    exact fun c c_mem => subset_of_mem_splitOn piece_mem (mem_of_mem_trim c_mem)

/-- Items that are joined by commas can stand on a line if each of them can. -/
theorem isField_intercalate {items : List String} (filled : items ≠ [])
    (fields : ∀ item ∈ items, IsField '\n' item) : IsField '\n' (",".intercalate items) := by
  induction items with
  | nil => contradiction
  | cons item rest ih =>
      have first := fields item List.mem_cons_self
      cases rest with
      | nil => simpa using first
      | cons next others =>
          have later := ih (by simp) fun other mem => fields other (List.mem_cons_of_mem _ mem)
          rw [String.intercalate_cons_cons]
          exact first.join later (by decide)

end Text

namespace Composition

/-- A line that defines a composition: a name in front of the first colon that is not blank. -/
def IsLine (line : List Char) : Prop :=
  ∃ name parts, line = name ++ ':' :: parts ∧ ':' ∉ name ∧ Text.trim name ≠ []

theorem isSome_read?_iff {line : String} : (read? line).isSome = true ↔ IsLine line.toList := by
  rw [Option.isSome_iff_exists]
  simp only [read?_eq_some_iff, StatedBy]
  constructor
  · rintro ⟨composition, ⟨name, parts, line_eq, free, name_eq, _⟩, filled⟩
    refine ⟨name, parts, line_eq, free, ?_⟩
    rw [← name_eq]
    simpa using filled
  · rintro ⟨name, parts, line_eq, free, filled⟩
    refine ⟨⟨String.ofList (Text.trim name), Text.items (String.ofList parts)⟩,
      ⟨name, parts, line_eq, free, String.toList_ofList, rfl⟩, ?_⟩
    simpa [← String.toList_inj] using filled

/-- The name can stand on a line in front of a colon, and the parts can between commas. -/
structure Writable (composition : Composition) : Prop where
  name : Text.IsField ':' composition.name
  nameUnbroken : '\n' ∉ composition.name.toList
  parts : ∀ part ∈ composition.parts, Text.IsField ',' part
  partsUnbroken : ∀ part ∈ composition.parts, '\n' ∉ part.toList

instance (composition : Composition) : Decidable composition.Writable :=
  decidable_of_iff
    (Text.IsField ':' composition.name ∧ '\n' ∉ composition.name.toList ∧
      (∀ part ∈ composition.parts, Text.IsField ',' part) ∧
      ∀ part ∈ composition.parts, '\n' ∉ part.toList)
    ⟨fun ⟨name, nameUnbroken, parts, partsUnbroken⟩ =>
        ⟨name, nameUnbroken, parts, partsUnbroken⟩,
      fun ⟨name, nameUnbroken, parts, partsUnbroken⟩ =>
        ⟨name, nameUnbroken, parts, partsUnbroken⟩⟩

theorem Writable.isField_line {composition : Composition} (writable : composition.Writable) :
    Text.IsField '\n' composition.line := by
  have name := writable.name.of_not_mem writable.nameUnbroken
  have fields (part : String) (mem : part ∈ composition.parts) : Text.IsField '\n' part :=
    (writable.parts part mem).of_not_mem (writable.partsUnbroken part mem)
  unfold line
  cases parts : composition.parts with
  | nil =>
      have colon : Text.IsField '\n' ":" := by decide
      have ended : '\n' ∉ "".toList := by simp
      simpa using name.join colon ended
  | cons part rest =>
      have joined := Text.isField_intercalate (by simp [parts]) fields
      rw [parts] at joined
      exact name.join joined (by decide)

end Composition

namespace Registry

/-! ## Definitions -/

theorem names_ofDefinitions (definitions : List Composition) :
    (ofDefinitions definitions).names = firstsOn id (definitions.map Composition.name) := by
  rw [names, roster_ofDefinitions, Roster.keys_ofList, List.map_map]
  rfl

theorem get?_ofDefinitions (definitions : List Composition) (name : String) :
    (ofDefinitions definitions).get? name = (definitions.filter (·.name = name)).getLast? := by
  rw [get?, roster_ofDefinitions]
  induction definitions using List.reverseRecOn with
  | nil => rfl
  | append_singleton before definition ih =>
      rw [List.map_append, List.map_singleton, Roster.ofList_concat, Roster.get?_put,
        List.filter_append]
      by_cases same : name = definition.name
      · simp [same]
      · rw [if_neg same, ih]
        simp [Ne.symm same]

theorem map_some_compositions (registry : Registry) :
    registry.compositions.map some = registry.names.map registry.get? := by
  rw [names_eq_map_compositions, List.map_map]
  refine List.map_congr_left fun composition mem => ?_
  exact (get?_of_mem_compositions mem).symm

theorem length_ofDefinitions (definitions : List Composition) :
    (ofDefinitions definitions).compositions.length +
        (ofDefinitions definitions).duplicates.length = definitions.length := by
  have kept : (ofDefinitions definitions).compositions.length =
      (firstsOn Composition.name definitions).length := by
    have lengths := congrArg List.length (map_some_compositions (ofDefinitions definitions))
    rw [names_ofDefinitions, firstsOn_map] at lengths
    simpa using lengths
  have told : (ofDefinitions definitions).duplicates.length =
      (latersOn Composition.name definitions).length := by
    rw [← List.length_map Composition.name, ← repeatsOn_eq_map_latersOn]
    rfl
  rw [kept, told, length_firstsOn_add_length_latersOn]

/-- What a registry holds of the definitions that it was made of: every name once, at the place of
    its first definition, with the last one. -/
structure Holds (registry : Registry) (definitions : List Composition) : Prop where
  names : registry.names = firstsOn id (definitions.map Composition.name)
  namesDistinct : registry.names.Nodup
  get? : ∀ name, registry.get? name = (definitions.filter (·.name = name)).getLast?
  known : ∀ name, name ∈ registry.names ↔
    ∃ composition, registry.get? name = some composition ∧ composition.name = name
  compositions : registry.compositions.map some = registry.names.map registry.get?
  duplicates : registry.duplicates = (latersOn Composition.name definitions).map Composition.name

theorem holds_ofDefinitions (definitions : List Composition) :
    (ofDefinitions definitions).Holds definitions where
  names := names_ofDefinitions definitions
  namesDistinct := (ofDefinitions definitions).roster.keys_nodup
  get? := get?_ofDefinitions definitions
  known := by
    intro name
    constructor
    · intro mem
      obtain ⟨composition, found⟩ := contains_iff.1 (Roster.contains_iff_mem_keys.2 mem)
      exact ⟨composition, found, name_of_get? found⟩
    · rintro ⟨composition, found, _⟩
      exact mem_names_of_get? found
  compositions := map_some_compositions _
  duplicates := repeatsOn_eq_map_latersOn Composition.name definitions

/-! ## Reading again -/

theorem text_eq_ofLines (registry : Registry) :
    registry.text = Text.ofLines (registry.compositions.map Composition.line) := by
  rw [text, Text.ofLines, List.map_map]
  rfl

theorem read_ofLines {definitions : List Composition}
    (writable : ∀ definition ∈ definitions, definition.Writable) :
    read (Text.ofLines (definitions.map Composition.line)) = (ofDefinitions definitions, []) ∧
      read ("\n".intercalate (definitions.map Composition.line)) =
        (ofDefinitions definitions, []) := by
  obtain ⟨closed, unclosed⟩ := Reading.ofText_ofLines Composition.read?
    (fun definition mem => (writable definition mem).isField_line)
    fun definition mem =>
      Composition.read?_line (writable definition mem).name (writable definition mem).parts
  rw [read, read, closed, unclosed]
  exact ⟨rfl, rfl⟩

/-- What was read can be written: no name and no part reaches over the end of its line. -/
theorem writable_of_mem_read {text : String} {composition : Composition}
    (mem : composition ∈ (read text).1.compositions) : composition.Writable := by
  have held := get?_of_mem_compositions mem
  rw [read, get?_ofDefinitions] at held
  have accepted := (List.mem_filter.1 (List.mem_of_getLast? held)).1
  obtain ⟨line, line_mem, found⟩ := List.mem_filterMap.1 accepted
  have unbroken := SourceLine.newline_notMem_of_mem_all line_mem
  obtain ⟨⟨name, parts, line_eq, _, name_eq, parts_eq⟩, _⟩ := Composition.read?_eq_some_iff.1 found
  rw [line_eq] at unbroken
  refine ⟨Composition.isField_of_read? found, fun newline => unbroken ?_, fun part part_mem => ?_,
    fun part part_mem newline => unbroken ?_⟩
  · rw [name_eq] at newline
    simp [Text.mem_of_mem_trim newline]
  · rw [parts_eq] at part_mem
    exact Text.isField_of_mem_items part_mem
  · rw [parts_eq] at part_mem
    have within := Text.subset_of_mem_items part_mem newline
    rw [String.toList_ofList] at within
    simp [within]

/-- The compositions of a registry define it, but for what was defined again. -/
theorem ofDefinitions_compositions (registry : Registry) :
    ofDefinitions registry.compositions = { registry with duplicates := [] } := by
  have pairs : registry.compositions.map (fun held => (held.name, held)) =
      registry.roster.entries := by
    rw [compositions, List.map_map]
    refine (List.map_congr_left fun entry mem => ?_).trans (List.map_id _)
    exact Prod.ext (registry.named entry mem) rfl
  have distinct : (registry.compositions.map Composition.name).Nodup := by
    rw [← names_eq_map_compositions]
    exact registry.roster.keys_nodup
  simp only [ofDefinitions, pairs, Roster.ofList_entries, repeatsOn_eq_nil_iff.2 distinct]

theorem read_text_read (text : String) :
    read (read text).1.text = ({ (read text).1 with duplicates := [] }, []) := by
  rw [text_eq_ofLines, (read_ofLines fun definition mem => writable_of_mem_read mem).1,
    ofDefinitions_compositions]

theorem length_read (text : String) :
    (read text).1.compositions.length + (read text).1.duplicates.length + (read text).2.length =
      (Text.filledLines text).length := by
  have shared := Reading.length_accepted_add_length_skipped Composition.read? text
  rw [← shared, ← length_ofDefinitions (Reading.ofText Composition.read? text).accepted]
  rfl

/-- Reading compositions shares out the lines that are not blank: those that define a composition
    make the registry, which holds every name at the place of its first definition with the last
    one, the others are told of, and each is counted once. Compositions that can be written are read
    from their lines, so a registry that was read is read again from its own text. -/
theorem read_keeps_definitions (text : String) :
    (∃ lines definitions, SourceLine.Selects Composition.IsLine text lines ∧
        List.Forall₂ (fun line composition => composition.StatedBy line.text.toList) lines
          definitions ∧
        (read text).1 = ofDefinitions definitions ∧ (read text).1.Holds definitions) ∧
      SourceLine.Selects (fun line => ¬Composition.IsLine line) text (read text).2 ∧
      (read text).1.compositions.length + (read text).1.duplicates.length + (read text).2.length =
        (Text.filledLines text).length ∧
      (∀ composition ∈ (read text).1.compositions, ∀ part ∈ composition.parts,
        Text.IsField ',' part) ∧
      (∀ definitions : List Composition, (∀ definition ∈ definitions, definition.Writable) →
        read (Text.ofLines (definitions.map Composition.line)) = (ofDefinitions definitions, []) ∧
          read ("\n".intercalate (definitions.map Composition.line)) =
            (ofDefinitions definitions, [])) ∧
      read (read text).1.text = ({ (read text).1 with duplicates := [] }, []) := by
  obtain ⟨lines, selects, stated, skips⟩ :=
    Reading.shares (fun _ => Composition.isSome_read?_iff) text
  refine ⟨⟨lines, _, selects, stated.imp ?_, rfl, holds_ofDefinitions _⟩, skips,
    length_read text, fun composition mem => (writable_of_mem_read mem).parts,
    fun _ => read_ofLines, read_text_read text⟩
  intro line composition found
  exact (Composition.read?_eq_some_iff.1 found).1

/-- A pose that is defined again around a name without parts. -/
def poses : List Composition :=
  [⟨"Rest", ["Eyes>Closed"]⟩, ⟨"Bare Face", []⟩, ⟨"Rest", ["Eyes>Open", "Arms:Down"]⟩]

/-- Only the first colon of a line ends a name, and nothing has to stand behind it. -/
theorem read_keeps_definitions_poses :
    (∀ definition ∈ poses, definition.Writable) ∧
      read "Rest:Eyes>Closed\nBare Face:\nRest:Eyes>Open,Arms:Down" =
        (ofDefinitions poses, []) := by
  have writable : ∀ definition ∈ poses, definition.Writable := by decide
  have text_eq : "\n".intercalate (poses.map Composition.line) =
      "Rest:Eyes>Closed\nBare Face:\nRest:Eyes>Open,Arms:Down" := by decide
  obtain ⟨_, _, _, _, reads, _⟩ := read_keeps_definitions ""
  exact ⟨writable, text_eq ▸ (reads poses writable).2⟩

end Registry

end LayerComposition
