import LayerComposition.Yaml.Scalar
import LayerComposition.Yaml.Text

/-! # Where a cursor gets to

A cursor that goes over a text knows how far it came, in which line it is and in which column of it.
A gap between words is gone over at once, up to the next character of a word.
-/

namespace LayerComposition.Yaml

variable {cursor : Cursor} {text tail : List Char} {c : Char}

namespace Cursor

/-- The column behind a text that starts in a column. -/
def columnAfter (column : Nat) (text : List Char) : Nat :=
  text.foldl (fun column c => if isBreak c then 0 else column + 1) column

/-- The length of a text in bytes. -/
def bytes (text : List Char) : Nat :=
  text.foldr (fun c size => c.utf8Size + size) 0

theorem bytes_cons (c : Char) (rest : List Char) :
    bytes (c :: rest) = c.utf8Size + bytes rest := rfl

theorem skip_add (cursor : Cursor) (m n : Nat) :
    cursor.skip (m + n) = (cursor.skip m).skip n := by
  induction m generalizing cursor with
  | zero => simp [skip]
  | succ m ih => rw [Nat.succ_add, skip, skip, ih]

theorem skip_of_rest (starts : cursor.rest = text ++ tail) : cursor.skip text.length =
    ⟨tail, cursor.index + bytes text, cursor.line + text.countP isBreak,
      columnAfter cursor.column text⟩ := by
  induction text generalizing cursor with
  | nil =>
      obtain ⟨rest, index, line, column⟩ := cursor
      obtain rfl : rest = tail := starts
      rfl
  | cons c rest ih =>
      obtain ⟨_, index, line, column⟩ := cursor
      obtain rfl : _ = c :: rest ++ tail := starts
      rw [List.length_cons, skip]
      cases breaks : isBreak c with
      | true =>
          have lines : line + 1 + rest.countP isBreak = line + (rest.countP isBreak + 1) := by omega
          simp [next, breaks, ih, columnAfter, bytes_cons, Nat.add_assoc, lines]
      | false => simp [next, breaks, ih, columnAfter, bytes_cons, Nat.add_assoc]

theorem rest_skip (starts : cursor.rest = text ++ tail) :
    (cursor.skip text.length).rest = tail := by
  rw [skip_of_rest starts]

theorem rest_next (starts : cursor.rest = c :: tail) : cursor.next.rest = tail := by
  have starts : cursor.rest = [c] ++ tail := starts
  exact rest_skip starts

theorem column_next_of_break (starts : cursor.rest = c :: tail) (breaks : isBreak c = true) :
    cursor.next.column = 0 := by
  simp [next, starts, breaks]

theorem column_skip (starts : cursor.rest = text ++ tail)
    (onLine : ∀ c ∈ text, isBreak c = false) :
    (cursor.skip text.length).column = cursor.column + text.length := by
  rw [skip_of_rest starts]
  clear starts
  generalize cursor.column = column
  induction text generalizing column with
  | nil => rfl
  | cons c rest ih =>
      have first : isBreak c = false := onLine c List.mem_cons_self
      have later := ih (fun c mem => onLine c (.tail _ mem)) (column + 1)
      simp only [columnAfter, List.foldl_cons, first] at later ⊢
      simp only [Bool.false_eq_true, if_false, later, List.length_cons]
      omega

theorem skip_spaces {width : Nat} (starts : cursor.rest = List.replicate width ' ' ++ tail) :
    (cursor.skip width).rest = tail ∧ (cursor.skip width).column = cursor.column + width := by
  have rest := rest_skip starts
  have column := column_skip starts fun c mem => (List.mem_replicate.1 mem).2 ▸ rfl
  rw [List.length_replicate] at rest column
  exact ⟨rest, column⟩

theorem skip_one (starts : cursor.rest = c :: tail) (onLine : isBreak c = false) :
    (cursor.skip 1).rest = tail ∧ (cursor.skip 1).column = cursor.column + 1 := by
  simp [skip, next, starts, onLine]

/-- Behind a character of a line the cursor is in that line. -/
theorem column_skip_pos {front : List Char} (starts : cursor.rest = front ++ [c] ++ tail)
    (onLine : isBreak c = false) : 0 < (cursor.skip (front ++ [c]).length).column := by
  rw [skip_of_rest starts]
  simp [columnAfter, onLine]

/-- In front of the first character of a line stands its indentation. -/
theorem column_skip_indentation {width : Nat}
    (starts : cursor.rest = (c :: List.replicate width ' ') ++ tail) (breaks : isBreak c = true) :
    (cursor.skip (c :: List.replicate width ' ').length).column = width := by
  have spaces (column : Nat) : columnAfter column (List.replicate width ' ') = column + width := by
    clear starts
    induction width generalizing column with
    | zero => rfl
    | succ width ih =>
        have step : columnAfter column (' ' :: List.replicate width ' ') =
            columnAfter (column + 1) (List.replicate width ' ') := rfl
        rw [List.replicate_succ, step, ih]
        omega
  have first : columnAfter cursor.column (c :: List.replicate width ' ') =
      columnAfter 0 (List.replicate width ' ') := by
    simp [columnAfter, breaks]
  rw [skip_of_rest starts]
  show columnAfter cursor.column (c :: List.replicate width ' ') = width
  rw [first, spaces, Nat.zero_add]

theorem index_lt_skip (starts : cursor.rest = text ++ tail) (notEmpty : text ≠ []) :
    cursor.index < (cursor.skip text.length).index := by
  rw [skip_of_rest starts]
  cases text with
  | nil => contradiction
  | cons c rest =>
      have size := c.utf8Size_pos
      simp only [bytes_cons]
      omega

theorem length_rest_skip_lt (starts : cursor.rest = text ++ tail) (notEmpty : text ≠ []) :
    (cursor.skip text.length).rest.length < cursor.rest.length := by
  have positive := List.length_pos_iff.2 notEmpty
  rw [rest_skip starts, starts, List.length_append]
  omega

/-- A document marker stands at the start of a line. -/
theorem atMarker_eq_false (inLine : 0 < cursor.column) (mark : Char) :
    cursor.atMarker mark = false := by
  simp [atMarker, Nat.ne_of_gt inLine]

theorem atDocumentMarker_eq_false (inLine : 0 < cursor.column) :
    cursor.atDocumentMarker = false := by
  simp [atDocumentMarker, atMarker_eq_false inLine]

end Cursor

/-- What a character adds to a gap. -/
def Gap.push (gap : Gap) (c : Char) : Gap :=
  if isBreak c then { gap with breaks := gap.breaks ++ [c] }
  else if gap.breaks = [] then { gap with blanks := gap.blanks ++ [c] }
  else gap

/-- Whether no space and no line end comes first. -/
def endsGap (tail : List Char) : Bool :=
  tail.head?.all fun c => !isBlank c && !isBreak c

theorem endsGap_append (ends : endsGap text = true) (notBlank : isBlank c = false)
    (onLine : isBreak c = false) : endsGap (text ++ c :: tail) = true := by
  cases text with
  | nil => simp [endsGap, notBlank, onLine]
  | cons first rest => simpa [endsGap] using ends

theorem readGap_of_rest {indent size : Nat} {gap : Gap} (starts : cursor.rest = text ++ tail)
    (between : ∀ c ∈ text, c = ' ' ∨ isBreak c = true) (ends : endsGap tail = true)
    (enough : text.length ≤ size) :
    readGap indent size cursor gap = .ok (cursor.skip text.length, text.foldl Gap.push gap) := by
  induction size generalizing cursor text gap with
  | zero =>
      obtain rfl : text = [] := List.length_eq_zero_iff.1 (Nat.le_zero.1 enough)
      rfl
  | succ size ih =>
      cases text with
      | nil =>
          cases tail with
          | nil => simp [readGap, starts, Cursor.skip]
          | cons c rest =>
              obtain ⟨blank, breaks⟩ : isBlank c = false ∧ isBreak c = false := by
                simpa [endsGap] using ends
              simp [readGap, starts, blank, breaks, Cursor.skip]
      | cons c rest =>
          have later {gap : Gap} : readGap indent size cursor.next gap =
              .ok (cursor.next.skip rest.length, rest.foldl Gap.push gap) :=
            ih (Cursor.rest_next starts) (fun c mem => between c (.tail _ mem))
              (by simpa using enough)
          rcases between c List.mem_cons_self with rfl | breaks
          · have blank : isBlank ' ' = true ∧ isBreak ' ' = false := by decide
            by_cases onLine : gap.breaks = []
            · simp [readGap, starts, blank, later, onLine, Cursor.skip, Gap.push]
            · simp [readGap, starts, blank, later, onLine, Cursor.skip, Gap.push]
          · simp [readGap, starts, breaks, later, Cursor.skip, Gap.push]

/-- Spaces in a line are kept. -/
theorem foldl_push_spaces (blanks : List Char) (width : Nat) :
    (List.replicate width ' ').foldl Gap.push ⟨blanks, []⟩ =
      ⟨blanks ++ List.replicate width ' ', []⟩ := by
  induction width generalizing blanks with
  | zero => simp
  | succ width ih =>
      have push : Gap.push ⟨blanks, []⟩ ' ' = ⟨blanks ++ [' '], []⟩ := rfl
      rw [List.replicate_succ, List.foldl_cons, push, ih]
      simp

/-- Spaces in front of a line are its indentation and not kept. -/
theorem foldl_push_indentation {gap : Gap} (ended : gap.breaks ≠ []) (width : Nat) :
    (List.replicate width ' ').foldl Gap.push gap = gap := by
  have push : gap.push ' ' = gap := by
    have blank : isBreak ' ' = false := by decide
    simp [Gap.push, blank, ended]
  induction width with
  | zero => rfl
  | succ width ih => rw [List.replicate_succ, List.foldl_cons, push, ih]

theorem foldl_push_breaks {breaks : List Char} (each : ∀ c ∈ breaks, isBreak c = true) (gap : Gap) :
    breaks.foldl Gap.push gap = { gap with breaks := gap.breaks ++ breaks } := by
  induction breaks generalizing gap with
  | nil => simp
  | cons c rest ih =>
      have first : isBreak c = true := each c List.mem_cons_self
      rw [List.foldl_cons, ih fun c mem => each c (.tail _ mem)]
      simp [Gap.push, first]

/-- A line is not indented where it has begun. -/
theorem indentLines_onLine {front : List Char} (onLine : ∀ c ∈ front, isBreak c = false)
    (indent : Nat) (rest : List Char) :
    Scalar.indentLines indent false (front ++ rest) =
      front ++ Scalar.indentLines indent false rest := by
  induction front with
  | nil => rfl
  | cons c more ih =>
      have first : isBreak c = false := onLine c List.mem_cons_self
      simp [Scalar.indentLines, first, ih fun c mem => onLine c (.tail _ mem)]

/-- A text is gone through from its end, by single characters and whole runs of others. -/
@[elab_as_elim]
theorem induction_on_runs (isRun : Char → Bool) {motive : List Char → Prop} (nil : motive [])
    (char : ∀ c rest, isRun c = false → motive rest → motive (c :: rest))
    (run : ∀ run rest, run ≠ [] → (∀ c ∈ run, isRun c = true) →
      (∀ c ∈ rest.head?, isRun c = false) → motive rest → motive (run ++ rest))
    (text : List Char) : motive text := by
  induction length : text.length using Nat.strongRecOn generalizing text with
  | ind n ih =>
      cases text with
      | nil => exact nil
      | cons c rest =>
          cases first : isRun c with
          | false => exact char c rest first (ih rest.length (by simp [← length]) rest rfl)
          | true =>
              rw [← List.takeWhile_append_dropWhile (p := isRun) (l := c :: rest)]
              refine run _ _ (by simp [first]) (List.all_eq_true.1 List.all_takeWhile) ?_
                (ih _ ?_ _ rfl)
              · intro d head
                have stops := List.head?_dropWhile_not isRun (c :: rest)
                rwa [head] at stops
              · have shorter := (List.dropWhile_suffix isRun (l := rest)).length_le
                simp only [List.dropWhile_cons, first, if_true, List.length_cons, ← length]
                omega

end LayerComposition.Yaml
