import LayerComposition.Proofs.CatalogContents
import LayerComposition.Proofs.SourceText

/-! # Catalog texts

Which lines define a layer, and what becomes of the others. A catalog that is written out and read
again is the same, but for the ids that were defined more than once.
-/

namespace LayerComposition

namespace Text

/-- A decimal numeral and its value: at most one sign, then ASCII digits. -/
inductive IsDecimal : List Char → Int → Prop where
  | unsigned {digits : List Char} (filled : digits ≠ []) (digit : ∀ c ∈ digits, c.isDigit = true) :
      IsDecimal digits (Nat.ofDigitChars 10 digits 0)
  | plus {digits : List Char} (filled : digits ≠ []) (digit : ∀ c ∈ digits, c.isDigit = true) :
      IsDecimal ('+' :: digits) (Nat.ofDigitChars 10 digits 0)
  | minus {digits : List Char} (filled : digits ≠ []) (digit : ∀ c ∈ digits, c.isDigit = true) :
      IsDecimal ('-' :: digits) (-(Nat.ofDigitChars 10 digits 0))

theorem readDigits?_eq_some_iff {cs : List Char} {n : Nat} :
    readDigits? cs = some n ↔
      (cs ≠ [] ∧ ∀ c ∈ cs, c.isDigit = true) ∧ Nat.ofDigitChars 10 cs 0 = n := by
  simp [readDigits?, and_assoc]

theorem readSigned?_eq_some_iff {cs : List Char} {value : Int} :
    readSigned? cs = some value ↔ IsDecimal cs value := by
  constructor
  · intro found
    unfold readSigned? at found
    split at found <;> obtain ⟨n, digits, rfl⟩ := Option.map_eq_some_iff.1 found <;>
      obtain ⟨⟨filled, digit⟩, rfl⟩ := readDigits?_eq_some_iff.1 digits
    · exact .minus filled digit
    · exact .plus filled digit
    · exact .unsigned filled digit
  · intro decimal
    cases decimal with
    | unsigned filled digit =>
        have read := readDigits?_eq_some_iff.2 ⟨⟨filled, digit⟩, rfl⟩
        unfold readSigned?
        split
        · exact absurd (digit '-' List.mem_cons_self) (by decide)
        · exact absurd (digit '+' List.mem_cons_self) (by decide)
        · rw [read]
          rfl
    | plus filled digit =>
        rw [readSigned?, readDigits?_eq_some_iff.2 ⟨⟨filled, digit⟩, rfl⟩]
        rfl
    | minus filled digit =>
        rw [readSigned?, readDigits?_eq_some_iff.2 ⟨⟨filled, digit⟩, rfl⟩]
        rfl

theorem fit64?_eq_some_iff {value : Int} {n : Int64} : fit64? value = some n ↔ n.toInt = value := by
  unfold fit64?
  constructor
  · intro fits
    split at fits
    · rename_i bounds
      obtain rfl := Option.some.inj fits
      exact Int64.toInt_ofInt_of_le bounds.1 (Int.lt_add_one_of_le bounds.2)
    · contradiction
  · rintro rfl
    rw [if_pos ⟨Int64.minValue_le_toInt n, Int64.toInt_le n⟩, Int64.ofInt_toInt]

/-- An integer is read from the decimal numerals that have its value, and from nothing else. -/
theorem readInteger?_eq_some_iff {cs : List Char} {n : Int64} :
    readInteger? cs = some n ↔ IsDecimal cs n.toInt := by
  simp [readInteger?, Option.bind_eq_some_iff, readSigned?_eq_some_iff, fit64?_eq_some_iff]

theorem IsDecimal.filled {cs : List Char} {value : Int} (decimal : IsDecimal cs value) :
    cs ≠ [] := by
  cases decimal with
  | unsigned filled _ => exact filled
  | plus | minus => simp

theorem IsDecimal.isBlank_eq_false {cs : List Char} {value : Int} (decimal : IsDecimal cs value) :
    ∀ c ∈ cs, isBlank c = false := by
  intro c mem
  cases decimal with
  | unsigned _ digit => exact isBlank_of_isDigit (digit c mem)
  | plus _ digit =>
      rcases List.mem_cons.1 mem with rfl | mem
      · decide
      · exact isBlank_of_isDigit (digit c mem)
  | minus _ digit =>
      rcases List.mem_cons.1 mem with rfl | mem
      · decide
      · exact isBlank_of_isDigit (digit c mem)

theorem IsDecimal.isField {cs : List Char} {value : Int} (decimal : IsDecimal cs value) :
    IsField '\n' (String.ofList cs) where
  filled := by simpa [← String.toList_inj] using decimal.filled
  not_mem := by
    rw [String.toList_ofList]
    exact fun mem => absurd (decimal.isBlank_eq_false _ mem) (by decide)
  trimmed := by
    rw [String.toList_ofList]
    exact trim_of_no_blank decimal.isBlank_eq_false

end Text

namespace Layer

/-- A line that defines a layer: group, name and order between the first two colons, group and name
    filled, and the order a numeral with a value of 64 bits. -/
def IsLine (line : List Char) : Prop :=
  ∃ group name order value, line = group ++ ':' :: (name ++ ':' :: order) ∧
    ':' ∉ group ∧ ':' ∉ name ∧ Text.trim group ≠ [] ∧ Text.trim name ≠ [] ∧
    Text.IsDecimal (Text.trim order) value ∧
    Int64.minValue.toInt ≤ value ∧ value ≤ Int64.maxValue.toInt

theorem isSome_read?_iff {line : String} : (read? line).isSome = true ↔ IsLine line.toList := by
  rw [Option.isSome_iff_exists]
  simp only [read?_eq_some_iff, StatedBy, Text.readInteger?_eq_some_iff]
  constructor
  · rintro ⟨layer, ⟨group, name, order, line_eq, group_free, name_free, group_eq, name_eq, decimal⟩,
      group_filled, name_filled⟩
    refine ⟨group, name, order, _, line_eq, group_free, name_free, ?_, ?_, decimal,
      layer.order.minValue_le_toInt, layer.order.toInt_le⟩
    · rw [← group_eq]
      simpa using group_filled
    · rw [← name_eq]
      simpa using name_filled
  · rintro ⟨group, name, order, value, line_eq, group_free, name_free, group_filled, name_filled,
      decimal, low, high⟩
    refine ⟨⟨String.ofList (Text.trim group), String.ofList (Text.trim name), Int64.ofInt value⟩,
      ⟨group, name, order, line_eq, group_free, name_free, String.toList_ofList,
        String.toList_ofList, ?_⟩, ?_, ?_⟩
    · rwa [Int64.toInt_ofInt_of_le low (Int.lt_add_one_of_le high)]
    · simpa [← String.toList_inj] using group_filled
    · simpa [← String.toList_inj] using name_filled

/-- Group and name can stand on a line, each in front of a colon. -/
structure Writable (layer : Layer) : Prop where
  group : Text.IsField ':' layer.group
  name : Text.IsField ':' layer.name
  groupUnbroken : '\n' ∉ layer.group.toList
  nameUnbroken : '\n' ∉ layer.name.toList

instance (layer : Layer) : Decidable layer.Writable :=
  decidable_of_iff
    (Text.IsField ':' layer.group ∧ Text.IsField ':' layer.name ∧ '\n' ∉ layer.group.toList ∧
      '\n' ∉ layer.name.toList)
    ⟨fun ⟨group, name, groupUnbroken, nameUnbroken⟩ => ⟨group, name, groupUnbroken, nameUnbroken⟩,
      fun ⟨group, name, groupUnbroken, nameUnbroken⟩ => ⟨group, name, groupUnbroken, nameUnbroken⟩⟩

theorem Writable.isField_line {layer : Layer} (writable : layer.Writable) :
    Text.IsField '\n' layer.line := by
  have group := writable.group.of_not_mem writable.groupUnbroken
  have decimal := Text.readInteger?_eq_some_iff.1 (Text.readInteger?_writeInteger layer.order)
  have between : '\n' ∉ (":" ++ layer.name ++ ":").toList := by simp [writable.nameUnbroken]
  have joined := group.join decimal.isField between
  rw [line]
  simpa only [String.append_assoc] using joined

end Layer

namespace Catalog

theorem text_eq_ofLines (catalog : Catalog) :
    catalog.text = Text.ofLines (catalog.layers.map Layer.line) := by
  rw [text, Text.ofLines, List.map_map]
  rfl

theorem read_ofLines {layers : List Layer} (writable : ∀ layer ∈ layers, layer.Writable) :
    read (Text.ofLines (layers.map Layer.line)) = (ofLayers layers, []) ∧
      read ("\n".intercalate (layers.map Layer.line)) = (ofLayers layers, []) := by
  obtain ⟨closed, unclosed⟩ := Reading.ofText_ofLines Layer.read?
    (fun layer mem => (writable layer mem).isField_line)
    fun layer mem => Layer.read?_line (writable layer mem).group (writable layer mem).name
  rw [read, read, closed, unclosed]
  exact ⟨rfl, rfl⟩

/-- What was read can be written: no field reaches over the end of its line. -/
theorem writable_of_mem_read {text : String} {layer : Layer} (mem : layer ∈ (read text).1.layers) :
    layer.Writable := by
  obtain ⟨line, line_mem, found⟩ := exists_line_of_mem_read mem
  have unbroken := SourceLine.newline_notMem_of_mem_all line_mem
  obtain ⟨⟨group, name, order, line_eq, _, _, group_eq, name_eq, _⟩, _⟩ :=
    Layer.read?_eq_some_iff.1 found
  rw [line_eq] at unbroken
  obtain ⟨group_field, name_field⟩ := Layer.isField_of_read? found
  refine ⟨group_field, name_field, fun newline => unbroken ?_, fun newline => unbroken ?_⟩
  · rw [group_eq] at newline
    simp [Text.mem_of_mem_trim newline]
  · rw [name_eq] at newline
    simp [Text.mem_of_mem_trim newline]

theorem read_text_read (text : String) :
    read (read text).1.text = ({ (read text).1 with duplicates := [] }, []) := by
  rw [text_eq_ofLines, (read_ofLines fun layer mem => writable_of_mem_read mem).1]
  exact Prod.ext (ofLayers_eq rfl rfl) rfl

theorem length_read (text : String) :
    (read text).1.layers.length + (read text).1.duplicates.length + (read text).2.length =
      (Text.filledLines text).length := by
  have shared := Reading.length_accepted_add_length_skipped Layer.read? text
  rw [← shared, ← length_ofLayers (Reading.ofText Layer.read? text).accepted]
  rfl

/-- Reading a catalog shares out the lines that are not blank: those that define a layer make the
    catalog, the others are told of, and each is counted once. Layers that can be written are read
    from their lines, so a catalog that was read is read again from its own text. -/
theorem read_shares_lines (text : String) :
    (∃ lines definitions, SourceLine.Selects Layer.IsLine text lines ∧
        List.Forall₂ (fun line layer => layer.StatedBy line.text.toList) lines definitions ∧
        (read text).1 = ofLayers definitions) ∧
      SourceLine.Selects (fun line => ¬Layer.IsLine line) text (read text).2 ∧
      (read text).1.layers.length + (read text).1.duplicates.length + (read text).2.length =
        (Text.filledLines text).length ∧
      (∀ layers : List Layer, (∀ layer ∈ layers, layer.Writable) →
        read (Text.ofLines (layers.map Layer.line)) = (ofLayers layers, []) ∧
          read ("\n".intercalate (layers.map Layer.line)) = (ofLayers layers, [])) ∧
      read (read text).1.text = ({ (read text).1 with duplicates := [] }, []) := by
  obtain ⟨lines, selects, stated, skips⟩ :=
    Reading.shares (fun _ => Layer.isSome_read?_iff) text
  refine ⟨⟨lines, _, selects, stated.imp ?_, rfl⟩, skips, length_read text,
    fun _ => read_ofLines, read_text_read text⟩
  intro line layer found
  exact (Layer.read?_eq_some_iff.1 found).1

/-- A shadow behind everything, under a name that holds a blank, and eyes that are defined again. -/
def shadows : List Layer :=
  [⟨"Shadow", "Drop Far", Int64.minValue⟩, ⟨"Eyes", "Open", 7⟩, ⟨"Eyes", "Open", -7⟩]

/-- The smallest order is written and read like any other, and so is a line that defines an id
    again. -/
theorem read_shares_lines_shadows :
    (∀ layer ∈ shadows, layer.Writable) ∧
      read "Shadow:Drop Far:-9223372036854775808\nEyes:Open:7\nEyes:Open:-7" =
        (ofLayers shadows, []) := by
  have writable : ∀ layer ∈ shadows, layer.Writable := by decide
  have text_eq : "\n".intercalate (shadows.map Layer.line) =
      "Shadow:Drop Far:-9223372036854775808\nEyes:Open:7\nEyes:Open:-7" := by decide
  obtain ⟨_, _, _, reads, _⟩ := read_shares_lines ""
  exact ⟨writable, text_eq ▸ (reads shadows writable).2⟩

end Catalog

end LayerComposition
