import LayerComposition.Text.Blank

/-! # Lines and items

Source files are read line by line and lists are written with commas. A line that a reader
refuses is kept with its number, so that nothing is dropped without a trace.
-/

namespace LayerComposition.Text

/-- Drop one carriage return from the end of a line that a newline closed. -/
def dropReturn (line : List Char) : List Char :=
  if line.getLast? = some '\r' then line.dropLast else line

/-- The lines of a text. A newline closes a line, and one carriage return right before it
    belongs to the line end; what follows the last newline is a line only if it is not empty. -/
def lines (cs : List Char) : List (List Char) :=
  let pieces := cs.splitOn '\n'
  let last := pieces.getLastD []
  pieces.dropLast.map dropReturn ++ if last = [] then [] else [last]

/-- The items of a comma-separated list: trimmed, with empty items left out. -/
def items (text : String) : List String :=
  ((text.toList.splitOn ',').map trim).filterMap fun item =>
    if item = [] then none else some (String.ofList item)

/-- What may stand between separators so that it is read as it is: a text that is not empty,
    holds no separator, and has a blank at neither end. -/
structure IsField (separator : Char) (text : String) : Prop where
  filled : text ≠ ""
  not_mem : separator ∉ text.toList
  trimmed : trim text.toList = text.toList

theorem not_mem_of_mem_splitOn {separator : Char} {cs piece : List Char}
    (mem : piece ∈ cs.splitOn separator) : separator ∉ piece := by
  induction cs generalizing piece with
  | nil => simp_all
  | cons c rest ih =>
      rw [List.splitOn_cons_eq_if_modifyHead] at mem
      split at mem
      · rcases List.mem_cons.1 mem with rfl | mem
        · simp
        · exact ih mem
      · rename_i differ
        cases pieces : rest.splitOn separator with
        | nil => simp_all
        | cons first others =>
            rw [pieces, List.modifyHead_cons] at mem
            rcases List.mem_cons.1 mem with rfl | mem
            · have absent : separator ∉ first := ih (by simp [pieces])
              intro mem
              rcases List.mem_cons.1 mem with rfl | mem
              · simp at differ
              · exact absent mem
            · exact ih (by simp [pieces, mem])

/-- An item is not empty, holds no comma, and has a blank at neither end. -/
theorem isField_of_mem_items {text item : String} (mem : item ∈ items text) :
    IsField ',' item := by
  obtain ⟨trimmed, trimmed_mem, kept⟩ := List.mem_filterMap.1 mem
  obtain ⟨piece, piece_mem, rfl⟩ := List.mem_map.1 trimmed_mem
  split at kept
  · contradiction
  · rename_i filled
    obtain rfl := Option.some.inj kept
    refine ⟨?_, ?_, ?_⟩
    · intro eq
      exact filled (by simpa using congrArg String.toList eq)
    · rw [String.toList_ofList]
      exact fun mem => not_mem_of_mem_splitOn piece_mem (mem_of_mem_trim mem)
    · rw [String.toList_ofList, trim_trim]

/-- Lists that are joined by a comma have the items of both. -/
theorem items_append (first second : String) :
    items (first ++ "," ++ second) = items first ++ items second := by
  simp [items, List.splitOn_append_cons_self]

/-- What can be an item is the only one of its list. -/
theorem items_of_isField {item : String} (isField : IsField ',' item) :
    items item = [item] := by
  have no_comma : ∀ piece ∈ [item.toList], ',' ∉ piece := by simpa using isField.not_mem
  have alone : item.toList.splitOn ',' = [item.toList] := by
    simpa using List.splitOn_intercalate ',' no_comma (by simp)
  simp [items, alone, isField.trimmed, isField.filled]

/-- Joining items by commas and taking the list apart again gives the items. -/
theorem items_intercalate {list : List String} (fields : ∀ item ∈ list, IsField ',' item) :
    items (",".intercalate list) = list := by
  induction list with
  | nil => simp [items, trim, trimEnd, trimStart]
  | cons item rest ih =>
      have alone := items_of_isField (fields item List.mem_cons_self)
      have ih := ih fun other mem => fields other (List.mem_cons_of_mem _ mem)
      cases rest with
      | nil => simpa using alone
      | cons next others =>
          rw [String.intercalate_cons_cons, items_append, alone, ih]
          rfl

/-- The text before the first `separator`, and the text after it if there is one. -/
def splitAtFirst (separator : Char) (cs : List Char) : List Char × Option (List Char) :=
  (cs.takeWhile (· ≠ separator),
    match cs.dropWhile (· ≠ separator) with
    | [] => none
    | _ :: rest => some rest)

/-- The separator that is put behind a text without one is the first. -/
theorem splitAtFirst_append {separator : Char} {front : List Char} (absent : separator ∉ front)
    (back : List Char) :
    splitAtFirst separator (front ++ separator :: back) = (front, some back) := by
  have other : ∀ c ∈ front, (decide (c ≠ separator)) = true := fun c mem => by
    simpa using fun eq : c = separator => absent (eq ▸ mem)
  rw [splitAtFirst, List.takeWhile_append_of_pos other, List.dropWhile_append_of_pos other]
  simp

end LayerComposition.Text

namespace LayerComposition

/-- A line of a source text that is not blank: its number, counted from one over all lines,
    and its trimmed text. -/
structure SourceLine where
  number : Nat
  text : String
  deriving Repr, DecidableEq

/-- What reading a source text line by line gives: the values of the accepted lines, and the
    refused lines, each in the order of the text. -/
structure Reading (α : Type) where
  accepted : List α
  skipped : List SourceLine
  deriving Repr, DecidableEq

namespace SourceLine

def display (line : SourceLine) : String :=
  s!"line {line.number}: {line.text}"

def all (text : String) : List SourceLine :=
  ((Text.lines text.toList).zipIdx 1).filterMap fun (line, number) =>
    match Text.trim line with
    | [] => none
    | cs => some ⟨number, String.ofList cs⟩

end SourceLine

namespace Reading

/-- Read every line that is not blank; a line on which `read?` gives nothing is skipped. -/
def ofText {α : Type} (read? : String → Option α) (text : String) : Reading α where
  accepted := (SourceLine.all text).filterMap fun line => read? line.text
  skipped := (SourceLine.all text).filter fun line => (read? line.text).isNone

/-- Every line that is not blank is either accepted or skipped. -/
theorem length_ofText {α : Type} (read? : String → Option α) (text : String) :
    (ofText read? text).accepted.length + (ofText read? text).skipped.length =
      (SourceLine.all text).length := by
  simp only [ofText]
  induction SourceLine.all text with
  | nil => rfl
  | cons line lines ih => cases h : read? line.text <;> simp [h] <;> omega

end Reading

end LayerComposition
