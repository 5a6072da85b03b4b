import LayerComposition.Proofs.LineEnds
import LayerComposition.Proofs.SourceLines

/-! # Source texts

A reader shares out the lines of a text that are not blank: each is accepted or skipped, in order
and under its number. A text that is made of lines which a reader accepts is read as their values,
with nothing skipped.
-/

namespace LayerComposition

namespace SourceLine

/-- A line that is not blank stands in a text: trimmed, and under its number counted from one. -/
def StandsIn (line : SourceLine) (text : String) : Prop :=
  ∃ position raw, (Text.lines text.toList)[position]? = some raw ∧
    line.number = position + 1 ∧ line.text.toList = Text.trim raw ∧ line.text ≠ ""

/-- The lines of a text that meet a condition, all of them and in order. -/
structure Selects (condition : List Char → Prop) (text : String) (lines : List SourceLine) :
    Prop where
  mem_iff : ∀ line, line ∈ lines ↔ line.StandsIn text ∧ condition line.text.toList
  ordered : lines.Pairwise (·.number < ·.number)

variable {line : SourceLine} {text : String}

theorem ofTrimmed?_eq_some_iff {number : Nat} {trimmed : List Char} :
    ofTrimmed? number trimmed = some line ↔
      line.number = number ∧ line.text.toList = trimmed ∧ line.text ≠ "" := by
  obtain ⟨counted, content⟩ := line
  unfold ofTrimmed?
  split
  · constructor
    · intro kept
      contradiction
    · rintro ⟨_, empty, filled⟩
      exact absurd (String.toList_eq_nil_iff.1 empty) filled
  · rename_i filled
    constructor
    · intro kept
      cases kept
      exact ⟨rfl, String.toList_ofList, by simpa [← String.toList_inj] using filled⟩
    · rintro ⟨rfl, rfl, _⟩
      simp

theorem mem_all_iff : line ∈ all text ↔ line.StandsIn text := by
  simp only [all_eq_numbered_lines, numbered, StandsIn, List.mem_filterMap, Prod.exists,
    List.mk_mem_zipIdx_iff_le_and_getElem?_sub, ofTrimmed?_eq_some_iff, List.getElem?_map,
    Option.map_eq_some_iff]
  constructor
  · rintro ⟨trimmed, number, ⟨counted, raw, stands, rfl⟩, rfl, content, filled⟩
    exact ⟨line.number - 1, raw, stands, by omega, content, filled⟩
  · rintro ⟨position, raw, stands, number_eq, content, filled⟩
    refine ⟨Text.trim raw, position + 1, ⟨by omega, raw, ?_, rfl⟩, number_eq, content, filled⟩
    simpa using stands

theorem pairwise_number_all (text : String) : (all text).Pairwise (·.number < ·.number) := by
  have counted : (((Text.lines text.toList).map Text.trim).zipIdx 1).Pairwise
      fun first second => first.2 < second.2 := by
    rw [← List.pairwise_map (f := Prod.snd) (R := (· < ·)), List.zipIdx_map_snd]
    exact List.pairwise_lt_range'
  rw [all_eq_numbered_lines, numbered]
  refine List.Pairwise.filterMap _ ?_ counted
  intro first second lt line line_eq other other_eq
  rw [(ofTrimmed?_eq_some_iff.1 line_eq).1, (ofTrimmed?_eq_some_iff.1 other_eq).1]
  exact lt

theorem newline_notMem_of_mem_all (mem : line ∈ all text) : '\n' ∉ line.text.toList := by
  simp only [all_eq_numbered_splitOn, numbered, List.mem_filterMap, Prod.exists,
    ofTrimmed?_eq_some_iff] at mem
  obtain ⟨trimmed, number, counted, _, content, _⟩ := mem
  obtain ⟨piece, piece_mem, rfl⟩ := List.mem_map.1 (List.fst_mem_of_mem_zipIdx counted)
  rw [content]
  exact fun newline => Text.not_mem_of_mem_splitOn piece_mem (Text.mem_of_mem_trim newline)

theorem length_all (text : String) : (all text).length = (Text.filledLines text).length := by
  rw [← map_toList_all, List.length_map]

theorem selects_filter_all {condition : List Char → Prop} {keep : SourceLine → Bool}
    (decides : ∀ line, keep line = true ↔ condition line.text.toList) (text : String) :
    Selects condition text ((all text).filter keep) where
  mem_iff := fun line => by rw [List.mem_filter, mem_all_iff, decides]
  ordered := (pairwise_number_all text).filter keep

end SourceLine

/-! ## Lines that are put together -/

instance (separator : Char) (text : String) : Decidable (Text.IsField separator text) :=
  decidable_of_iff
    (text ≠ "" ∧ separator ∉ text.toList ∧ Text.trim text.toList = text.toList)
    ⟨fun ⟨filled, free, trimmed⟩ => ⟨filled, free, trimmed⟩,
      fun ⟨filled, free, trimmed⟩ => ⟨filled, free, trimmed⟩⟩

/-- Texts that can stand before a separator can do so together, with anything between them that is
    free of it. -/
theorem Text.IsField.join {separator : Char} {front back middle : String}
    (first : IsField separator front) (last : IsField separator back)
    (free : separator ∉ middle.toList) : IsField separator (front ++ middle ++ back) where
  filled := by
    intro empty
    have chars := congrArg String.toList empty
    simp [first.filled] at chars
  not_mem := by simp [first.not_mem, last.not_mem, free]
  trimmed := by
    have front_filled : front.toList ≠ [] := by simpa using first.filled
    have back_filled : back.toList ≠ [] := by simpa using last.filled
    rw [String.toList_append, String.toList_append, Text.trim_eq_self_iff]
    constructor
    · intro c mem
      rw [List.append_assoc, List.head?_append, List.head?_eq_some_head front_filled,
        Option.some_or, ← List.head?_eq_some_head] at mem
      exact (Text.trim_eq_self_iff.1 first.trimmed).1 c mem
    · intro c mem
      rw [List.getLast?_append, List.getLast?_eq_some_getLast back_filled, Option.some_or,
        ← List.getLast?_eq_some_getLast] at mem
      exact (Text.trim_eq_self_iff.1 last.trimmed).2 c mem

/-- The text of some lines, each closed by a newline. -/
def Text.ofLines (lines : List String) : String :=
  String.join (lines.map (· ++ "\n"))

theorem Text.splitOn_ofLines {lines : List String} (free : ∀ line ∈ lines, '\n' ∉ line.toList) :
    (ofLines lines).toList.splitOn '\n' = lines.map String.toList ++ [[]] := by
  induction lines with
  | nil => simp [ofLines]
  | cons line rest ih =>
      have rest_eq := ih fun other mem => free other (List.mem_cons_of_mem _ mem)
      have line_free : ∀ piece ∈ [line.toList], '\n' ∉ piece := by
        simpa using free line List.mem_cons_self
      have alone : line.toList.splitOn '\n' = [line.toList] := by
        simpa using List.splitOn_intercalate '\n' line_free (by simp)
      have chars : (ofLines (line :: rest)).toList =
          line.toList ++ '\n' :: (ofLines rest).toList := by
        simp [ofLines]
      rw [chars, List.splitOn_append_cons_self, alone, rest_eq]
      rfl

theorem SourceLine.map_text_all_ofLines {lines : List String}
    (fields : ∀ line ∈ lines, Text.IsField '\n' line) :
    (all (Text.ofLines lines)).map (·.text) = lines := by
  have raw : Text.lines (Text.ofLines lines).toList =
      lines.map fun line => Text.dropReturn line.toList := by
    simp [Text.lines, Text.splitOn_ofLines fun line mem => (fields line mem).not_mem]
  have trimmed : (lines.map fun line => Text.dropReturn line.toList).map Text.trim =
      lines.map String.toList := by
    rw [List.map_map]
    refine List.map_congr_left fun line mem => ?_
    exact (Text.trim_dropReturn line.toList).trans (fields line mem).trimmed
  have content : ((all (Text.ofLines lines)).map (·.text)).map String.toList =
      lines.map String.toList := by
    rw [List.map_map]
    refine (map_toList_all _).trans ?_
    rw [Text.filledLines, raw, trimmed, List.filter_eq_self]
    intro cs mem
    obtain ⟨line, line_mem, rfl⟩ := List.mem_map.1 mem
    simpa using (fields line line_mem).filled
  exact List.map_injective_iff.2 (fun _ _ => String.toList_inj.1) content

theorem SourceLine.all_intercalate (lines : List String) :
    all ("\n".intercalate lines) = all (Text.ofLines lines) := by
  cases lines with
  | nil => rfl
  | cons first rest =>
      have closed : Text.ofLines (first :: rest) = "\n".intercalate (first :: rest) ++ "\n" := by
        induction rest generalizing first with
        | nil => simp [Text.ofLines]
        | cons second others ih =>
            rw [String.intercalate_cons_cons, String.append_assoc, ← ih second]
            simp [Text.ofLines, String.append_assoc]
      rw [closed, all_append_newline]

namespace Reading

variable {α : Type} {read? : String → Option α}

theorem length_accepted_add_length_skipped (read? : String → Option α) (text : String) :
    (ofText read? text).accepted.length + (ofText read? text).skipped.length =
      (Text.filledLines text).length := by
  rw [length_ofText, SourceLine.length_all]

theorem shares {condition : List Char → Prop}
    (accepts : ∀ line, (read? line).isSome = true ↔ condition line.toList) (text : String) :
    ∃ lines, SourceLine.Selects condition text lines ∧
      List.Forall₂ (fun line value => read? line.text = some value) lines
        (ofText read? text).accepted ∧
      SourceLine.Selects (fun line => ¬condition line) text (ofText read? text).skipped := by
  have refuses (line : SourceLine) :
      (read? line.text).isNone = true ↔ ¬condition line.text.toList := by
    rw [← accepts, Option.isNone_iff_eq_none, Option.not_isSome_iff_eq_none]
  refine ⟨(SourceLine.all text).filter fun line => (read? line.text).isSome,
    SourceLine.selects_filter_all (fun line => accepts line.text) text, ?_,
    SourceLine.selects_filter_all refuses text⟩
  simp only [ofText]
  induction SourceLine.all text with
  | nil => exact .nil
  | cons line rest ih =>
      cases found : read? line.text with
      | none => simpa [found] using ih
      | some value => simpa [found] using ih

/-- What a writer writes on lines is read again with nothing skipped, whether or not the last line
    is closed. -/
theorem ofText_ofLines (read? : String → Option α) {write : α → String} {values : List α}
    (fields : ∀ value ∈ values, Text.IsField '\n' (write value))
    (reads : ∀ value ∈ values, read? (write value) = some value) :
    ofText read? (Text.ofLines (values.map write)) = ⟨values, []⟩ ∧
      ofText read? ("\n".intercalate (values.map write)) = ⟨values, []⟩ := by
  have lines_eq : (SourceLine.all (Text.ofLines (values.map write))).map (·.text) =
      values.map write :=
    SourceLine.map_text_all_ofLines (by simpa using fields)
  rw [ofText, ofText, SourceLine.all_intercalate]
  generalize SourceLine.all (Text.ofLines (values.map write)) = lines at lines_eq ⊢
  have accepted : lines.filterMap (fun line => read? line.text) = values := by
    calc lines.filterMap (fun line => read? line.text)
        = (lines.map (·.text)).filterMap read? := List.filterMap_map.symm
      _ = values.filterMap fun value => read? (write value) := by
        rw [lines_eq, List.filterMap_map]
        rfl
      _ = values := by rw [List.filterMap_congr reads, List.filterMap_some]
  have skipped : lines.filter (fun line => (read? line.text).isNone) = [] := by
    rw [List.filter_eq_nil_iff]
    intro line mem
    have written : line.text ∈ values.map write := lines_eq ▸ List.mem_map_of_mem mem
    obtain ⟨value, value_mem, text_eq⟩ := List.mem_map.1 written
    simp [← text_eq, reads value value_mem]
  rw [accepted, skipped]
  exact ⟨rfl, rfl⟩

end Reading

end LayerComposition
