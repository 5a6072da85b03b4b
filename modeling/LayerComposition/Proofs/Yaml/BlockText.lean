import LayerComposition.Proofs.Yaml.Cursors

/-! # Block texts

The lines of a block are read one by one, each behind its indentation, with the empty lines behind
it. What has been read is what was written, up to the line ends at the very end, with which the head
of the block tells what to do.
-/

namespace LayerComposition.Yaml

open Scalar

variable {c : Char} {text tail breaks : List Char} {cursor : Cursor} {block : Block}
  {size indent width widest : Nat}

/-- Where a cursor is behind the indentation of a line: at a line of the block, or behind it. -/
inductive BehindIndent (indent width : Nat) (tail : List Char) (cursor : Cursor) :
    (text : List Char) → Prop where
  | done (starts : cursor.rest = tail) (column : cursor.column = width) :
      BehindIndent indent width tail cursor []
  | line {c : Char} {more : List Char} (onLine : isBreak c = false)
      (starts : cursor.rest =
        indentLines indent false (c :: more) ++ (List.replicate width ' ' ++ tail))
      (column : cursor.column = indent) : BehindIndent indent width tail cursor (c :: more)

theorem readBlockIndent_spaces {indent? : Option Nat} {spaces : Nat}
    (starts : cursor.rest = List.replicate spaces ' ' ++ tail)
    (outside : ∀ indent ∈ indent?, cursor.column + spaces ≤ indent) :
    readBlockIndent indent? (size + spaces) cursor widest breaks =
      readBlockIndent indent? size (cursor.skip spaces) widest breaks := by
  induction spaces generalizing cursor with
  | zero => rfl
  | succ spaces ih =>
      have starts : cursor.rest = ' ' :: (List.replicate spaces ' ' ++ tail) := starts
      have column : cursor.next.column = cursor.column + 1 :=
        (Cursor.skip_one starts (by decide)).2
      have before : indent?.any (cursor.column ≥ ·) = false := by
        cases indent? with
        | none => rfl
        | some indent =>
            have less := outside indent rfl
            simp only [Option.any_some, decide_eq_false_iff_not]
            omega
      have later := ih (Cursor.rest_next starts) fun indent mem => by
        have less := outside indent mem
        omega
      rw [← Nat.add_assoc, readBlockIndent, starts, before]
      exact later

/-- The reader of an indentation stops where neither a line end nor more of it follows. -/
theorem readBlockIndent_stop {indent? : Option Nat}
    (onLine : ∀ c ∈ cursor.rest.head?, isBreak c = false)
    (solid : indent?.any (cursor.column ≥ ·) = true ∨ ∀ c ∈ cursor.rest.head?, isBlank c = false) :
    readBlockIndent indent? (size + 1) cursor widest breaks =
      .ok (cursor, max widest cursor.column, breaks) := by
  rw [readBlockIndent]
  cases starts : cursor.rest with
  | nil => rfl
  | cons c rest =>
      have onLine : isBreak c = false := onLine c (by simp [starts])
      rcases solid with inside | solid
      · simp [onLine, inside]
      · have notBlank : c ≠ ' ' ∧ c ≠ '\t' := by
          simpa [isBlank] using solid c (by simp [starts])
        simp [onLine, notBlank]

/-- An empty line is passed over and its end kept. -/
theorem readBlockIndent_break {indent? : Option Nat} (starts : cursor.rest = c :: tail)
    (breaks_eq : isBreak c = true) : readBlockIndent indent? (size + 1) cursor widest breaks =
      readBlockIndent indent? size cursor.next (max widest cursor.column) (breaks ++ [c]) := by
  have notBlank : c ≠ ' ' ∧ c ≠ '\t' := by
    constructor <;> rintro rfl <;> contradiction
  rw [readBlockIndent, starts]
  simp [notBlank, breaks_eq]

/-- The indentation of a line is skipped up to where the line starts, or up to the end of the
    block. -/
theorem exists_readBlockIndent_spaces {spaces : Nat}
    (starts : cursor.rest = List.replicate spaces ' ' ++ tail) (atStart : cursor.column = 0)
    (outside : spaces ≤ indent) (onLine : ∀ c ∈ tail.head?, isBreak c = false)
    (solid : spaces = indent ∨ ∀ c ∈ tail.head?, isBlank c = false) (enough : spaces ≤ size) :
    ∃ widest', readBlockIndent (some indent) size cursor widest breaks =
      .ok (cursor.skip spaces, widest', breaks) := by
  obtain ⟨size, rfl⟩ := Nat.exists_eq_add_of_le' enough
  obtain ⟨rest, column⟩ := Cursor.skip_spaces starts
  rw [readBlockIndent_spaces starts (by simpa [atStart] using outside)]
  cases size with
  | zero => exact ⟨widest, rfl⟩
  | succ size =>
      refine ⟨_, readBlockIndent_stop (by rwa [rest]) ?_⟩
      rw [rest]
      refine solid.imp (fun same => ?_) id
      have inside : indent ≤ (cursor.skip spaces).column := by omega
      simpa using inside

/-- The indentation of a line is skipped together with the empty lines in front of it. -/
theorem exists_readBlockIndent
    (starts : cursor.rest = indentLines indent true text ++ (List.replicate width ' ' ++ tail))
    (atStart : cursor.column = 0) (shallow : width < indent) (ends : endsGap tail = true)
    (enough : cursor.rest.length ≤ size) :
    ∃ after widest', readBlockIndent (some indent) size cursor widest breaks =
        .ok (after, widest', breaks ++ text.takeWhile isBreak) ∧
      BehindIndent indent width tail after (text.dropWhile isBreak) := by
  induction text generalizing cursor size widest breaks with
  | nil =>
      have starts : cursor.rest = List.replicate width ' ' ++ tail := starts
      have solid : ∀ c ∈ tail.head?, isBlank c = false ∧ isBreak c = false := by
        simpa [endsGap, Option.all_eq_true] using ends
      obtain ⟨rest, column⟩ := Cursor.skip_spaces starts
      have enough : width ≤ size := by
        simp only [starts, List.length_append, List.length_replicate] at enough
        omega
      obtain ⟨widest', read_eq⟩ := exists_readBlockIndent_spaces starts atStart
        (Nat.le_of_lt shallow) (fun c mem => (solid c mem).2)
        (.inr fun c mem => (solid c mem).1) enough
      exact ⟨_, widest', by simpa using read_eq, .done rest (by simpa [atStart] using column)⟩
  | cons c more ih =>
      cases breaks_eq : isBreak c with
      | true =>
          have starts : cursor.rest =
              c :: (indentLines indent true more ++ (List.replicate width ' ' ++ tail)) := by
            simpa [indentLines, breaks_eq] using starts
          have rest := Cursor.rest_next starts
          have atStart' := Cursor.column_next_of_break starts breaks_eq
          cases size with
          | zero => simp [starts] at enough
          | succ size =>
              have enough : cursor.next.rest.length ≤ size := by
                rw [rest]
                simpa [starts] using enough
              have whole : breaks ++ c :: more.takeWhile isBreak =
                  breaks ++ [c] ++ more.takeWhile isBreak := by simp
              rw [readBlockIndent_break starts breaks_eq, List.takeWhile_cons_of_pos breaks_eq,
                List.dropWhile_cons_of_pos breaks_eq, whole]
              exact ih rest atStart' enough
      | false =>
          have starts : cursor.rest = List.replicate indent ' ' ++
              (indentLines indent false (c :: more) ++ (List.replicate width ' ' ++ tail)) := by
            simpa [indentLines, breaks_eq] using starts
          have enough : indent ≤ size := by
            simp only [starts, List.length_append, List.length_replicate] at enough
            omega
          obtain ⟨rest, column⟩ := Cursor.skip_spaces starts
          obtain ⟨widest', read_eq⟩ := exists_readBlockIndent_spaces starts atStart
            (Nat.le_refl indent) (by simp [indentLines, breaks_eq]) (.inl rfl) enough
          refine ⟨_, widest', by simpa [breaks_eq] using read_eq, ?_⟩
          rw [List.dropWhile_cons_of_neg (by simp [breaks_eq])]
          exact .line breaks_eq rest (by simpa [atStart] using column)

/-- What is known of a block while its lines are read: its text ends within a line, if there is one,
    and behind it there are line ends only, the first of which is that of the line. -/
structure Block.Ends (block : Block) : Prop where
  text : ∀ c ∈ block.text.getLast?, isBreak c = false
  lineEnd : block.text ≠ [] → block.lineEnd.length = 1
  breaks : ∀ c ∈ block.lineEnd ++ block.emptyLines, isBreak c = true

/-- A line ends somewhere in a text that ends with a line. -/
theorem exists_line (onLine : isBreak c = false)
    (ended : ∀ d ∈ (c :: text).getLast?, isBreak d = true) :
    ∃ line e others, text = line ++ e :: others ∧ (∀ d ∈ line, isBreak d = false) ∧
      isBreak e = true := by
  have inLine : ∀ d ∈ text.takeWhile (!isBreak ·), isBreak d = false := by
    simpa using List.all_eq_true.1 (List.all_takeWhile (l := text) (p := (!isBreak ·)))
  have stops := List.head?_dropWhile_not (!isBreak ·) text
  cases rest : text.dropWhile (!isBreak ·) with
  | nil =>
      have whole : text.takeWhile (!isBreak ·) = text := by
        have whole := List.takeWhile_append_dropWhile (l := text) (p := (!isBreak ·))
        rwa [rest, List.append_nil] at whole
      rw [whole] at inLine
      have last := ended _ (List.getLast?_eq_some_getLast (List.cons_ne_nil c text))
      rcases List.mem_cons.1 (List.getLast_mem (List.cons_ne_nil c text)) with same | mem
      · simp [same, onLine] at last
      · simp [inLine _ mem] at last
  | cons e others =>
      refine ⟨_, e, others, ?_, inLine, ?_⟩
      · rw [← rest, List.takeWhile_append_dropWhile]
      · simpa [rest] using stops

/-- Without its first line ends a text ends as it did. -/
theorem mem_getLast?_of_dropWhile {isRun : Char → Bool}
    (last : c ∈ (text.dropWhile isRun).getLast?) : c ∈ text.getLast? := by
  rw [← List.takeWhile_append_dropWhile (p := isRun) (l := text), List.getLast?_append,
    Option.mem_def.1 last]
  rfl

theorem Block.ends_of_line {line front others : List Char} {e : Char} {indented : Bool}
    (onLine : ∀ d ∈ c :: line, isBreak d = false) (breaks : isBreak e = true) :
    Block.Ends ⟨front ++ (c :: line), [e], others.takeWhile isBreak, indented⟩ := by
  have empties := List.all_eq_true.1 (List.all_takeWhile (l := others) (p := isBreak))
  refine ⟨fun d last => onLine d ?_, fun _ => rfl, by simpa [breaks] using empties⟩
  have last : (c :: line).getLast? = some d := by
    rw [List.getLast?_append, List.getLast?_cons, Option.some_or] at last
    rw [List.getLast?_cons, last]
  exact List.mem_of_getLast? last

/-- One turn of the reader goes over a line and the empty lines behind it. -/
theorem exists_readBlockLines_line {line others : List Char} {e : Char}
    (onLine : ∀ d ∈ c :: line, isBreak d = false) (breaks : isBreak e = true)
    (starts : cursor.rest = indentLines indent false (c :: (line ++ e :: others)) ++
      (List.replicate width ' ' ++ tail))
    (column : cursor.column = indent) (shallow : width < indent) (ends : endsGap tail = true) :
    ∃ after, BehindIndent indent width tail after (others.dropWhile isBreak) ∧
      readBlockLines false indent (size + 1) cursor block =
        readBlockLines false indent size after
          ⟨block.text ++ block.lineEnd ++ block.emptyLines ++ (c :: line), [e],
            others.takeWhile isBreak, isBlank c⟩ := by
  have whole : c :: (line ++ e :: others) = (c :: line) ++ e :: others := rfl
  have starts : cursor.rest = (c :: line) ++
      e :: (indentLines indent true others ++ (List.replicate width ' ' ++ tail)) := by
    rw [starts, whole, indentLines_onLine onLine]
    simp [indentLines, breaks]
  have rest_eq := Cursor.rest_skip starts
  have next_eq := Cursor.rest_next rest_eq
  generalize next_line : indentLines indent true others ++ (List.replicate width ' ' ++ tail) = rest
    at starts rest_eq
  obtain ⟨after, widest', read_eq, behind⟩ : ∃ after widest',
      readBlockIndent (some indent) (e :: rest).length (cursor.skip (c :: line).length).next 0 [] =
        .ok (after, widest', others.takeWhile isBreak) ∧
      BehindIndent indent width tail after (others.dropWhile isBreak) := by
    refine exists_readBlockIndent next_eq (Cursor.column_next_of_break rest_eq breaks) shallow
      ends ?_
    rw [next_eq, next_line, List.length_cons]
    exact Nat.le_succ _
  have line_eq : cursor.rest.takeWhile (fun d => !isBreak d) = c :: line := by
    rw [starts, List.takeWhile_append_of_pos (by simpa using onLine),
      List.takeWhile_cons_of_neg (by simp [breaks]), List.append_nil]
  refine ⟨after, behind, ?_⟩
  rw [readBlockLines]
  simp only [line_eq, rest_eq, read_eq, column]
  simp [starts, bind, Except.bind]

/-- The lines of a block are read one by one. -/
theorem exists_readBlockLines (behind : BehindIndent indent width tail cursor text)
    (ended : ∀ c ∈ text.getLast?, isBreak c = true) (block_ends : block.Ends)
    (shallow : width < indent) (ends : endsGap tail = true) (enough : text.length ≤ size) :
    ∃ after block', readBlockLines false indent size cursor block = .ok (after, block') ∧
      after.rest = tail ∧ after.column = width ∧ block'.Ends ∧
      block'.text ++ block'.lineEnd ++ block'.emptyLines =
        block.text ++ block.lineEnd ++ block.emptyLines ++ text := by
  induction size generalizing cursor text block with
  | zero =>
      obtain rfl : text = [] := List.length_eq_zero_iff.1 (Nat.le_zero.1 enough)
      cases behind with
      | done starts column => exact ⟨cursor, block, rfl, starts, column, block_ends, by simp⟩
  | succ size ih =>
      cases behind with
      | done starts column =>
          refine ⟨cursor, block, ?_, starts, column, block_ends, by simp⟩
          rw [readBlockLines]
          cases tail with
          | nil => simp [starts, pure, Except.pure]
          | cons c rest => simp [starts, column, Nat.ne_of_lt shallow, pure, Except.pure]
      | @line c more onLine starts column =>
          obtain ⟨line, e, others, rfl, inLine, breaks⟩ := exists_line onLine ended
          have whole : c :: (line ++ e :: others) = (c :: line) ++ e :: others := rfl
          have inText : ∀ d ∈ c :: line, isBreak d = false := by simpa [onLine] using inLine
          obtain ⟨after, behind, turn⟩ :=
            exists_readBlockLines_line inText breaks starts column shallow ends
          have ended : ∀ d ∈ (others.dropWhile isBreak).getLast?, isBreak d = true := by
            intro d last
            refine ended d ?_
            rw [whole, List.getLast?_append, List.getLast?_cons]
            have last := Option.mem_def.1 (mem_getLast?_of_dropWhile last)
            simp [last]
          have enough : (others.dropWhile isBreak).length ≤ size := by
            have shorter := (List.dropWhile_suffix isBreak (l := others)).length_le
            simp only [whole, List.length_append, List.length_cons] at enough
            omega
          obtain ⟨final, block', lines_eq, rest, column', ends', same⟩ :=
            ih behind ended (Block.ends_of_line inText breaks) enough
          exact ⟨final, block', turn.trans lines_eq, rest, column', ends', by simpa using same⟩

/-- Where the last line of a text ends is told by the text. -/
theorem eq_of_append_breaks {front front' breaks' : List Char}
    (same : front ++ breaks = front' ++ breaks') (last : ∀ c ∈ front.getLast?, isBreak c = false)
    (last' : ∀ c ∈ front'.getLast?, isBreak c = false) (each : ∀ c ∈ breaks, isBreak c = true)
    (each' : ∀ c ∈ breaks', isBreak c = true) : front = front' ∧ breaks = breaks' := by
  have front_eq {front breaks : List Char} (last : ∀ c ∈ front.getLast?, isBreak c = false)
      (each : ∀ c ∈ breaks, isBreak c = true) :
      (front ++ breaks).reverse.dropWhile isBreak = front.reverse := by
    rw [List.reverse_append, List.dropWhile_append_of_pos (by simpa using each)]
    rw [← List.head?_reverse] at last
    cases reversed : front.reverse with
    | nil => rfl
    | cons c rest => exact List.dropWhile_cons_of_neg (by simp [last c (by simp [reversed])])
  have reversed := front_eq last each
  rw [same, front_eq last' each'] at reversed
  obtain rfl : front' = front := List.reverse_inj.1 reversed
  exact ⟨rfl, List.append_cancel_left same⟩

/-- What is done with the line ends at the end of a block. -/
def Chomping.ending (chomping : Chomping) (block : Block) : List Char :=
  match chomping with
  | .strip => []
  | .clip => block.lineEnd
  | .keep => block.lineEnd ++ block.emptyLines

/-- A block text is read in three steps: its head, the indentation of its first line, its lines. -/
theorem readBlockText_of_steps {chomping : Chomping} {width? : Option Nat} {parent : Nat}
    {body empties : List Char} {line after : Cursor}
    (head_eq : readBlockHead cursor.rest = .ok (chomping, width?, size))
    (starts : (cursor.skip size).rest = '\n' :: body)
    (indent_eq : readBlockIndent (width?.map (parent + ·)) body.length (cursor.skip size).next 0 [] =
      .ok (line, widest, empties))
    (lines_eq : readBlockLines false ((width?.map (parent + ·)).getD (max widest (parent + 1)))
      (line.rest.length + 1) line ⟨[], [], empties, false⟩ = .ok (after, block)) :
    readBlockText false (some parent) cursor = .ok (after, block.text ++ chomping.ending block) := by
  have rest_eq := Cursor.rest_next starts
  have stays (cursor : Cursor) : cursor.skip 0 = cursor := rfl
  have lineEnd : isBlank '\n' = false ∧ isBreak '\n' = true := by decide
  rw [readBlockText, head_eq]
  cases chomping <;> simp [starts, lineEnd, stays, rest_eq, indent_eq, lines_eq, bind, Except.bind,
    pure, Except.pure, Chomping.ending]

/-! ## Written blocks -/

/-- A text with the end of its last line. -/
def endLine (text : List Char) : List Char :=
  if text.getLast?.any isBreak then text else text ++ ['\n']

theorem endLine_of_onLine (onLine : ∀ c ∈ text.getLast?, isBreak c = false) :
    endLine text = text ++ ['\n'] := by
  rw [endLine, if_neg]
  cases last : text.getLast? with
  | none => simp
  | some c => simp [onLine c last]

theorem isBreak_of_mem_getLast?_endLine : ∀ c ∈ (endLine text).getLast?, isBreak c = true := by
  intro c last
  unfold endLine at last
  split at last
  · next ended =>
      rw [Option.mem_def.1 last] at ended
      exact ended
  · obtain rfl : '\n' = c := by simpa using last
    rfl

theorem getLast?_indentLines (indent : Nat) (behindEnd : Bool) (text : List Char) :
    (indentLines indent behindEnd text).getLast? = text.getLast? := by
  induction text generalizing behindEnd with
  | nil => rfl
  | cons c rest ih =>
      rw [indentLines]
      split <;> simp [List.getLast?_append, List.getLast?_cons, ih]

theorem indentLines_append_lineEnd (indent : Nat) (behindEnd : Bool) (text : List Char) :
    indentLines indent behindEnd (text ++ ['\n']) = indentLines indent behindEnd text ++ ['\n'] := by
  induction text generalizing behindEnd with
  | nil => rfl
  | cons c rest ih =>
      rw [List.cons_append, indentLines, indentLines, ih, ih]
      split <;> simp

theorem endLine_append_indentLines {head : List Char} (notEmpty : text ≠ []) (indent : Nat) :
    endLine (head ++ indentLines indent true text) =
      head ++ indentLines indent true (endLine text) := by
  have last : (head ++ indentLines indent true text).getLast? = text.getLast? := by
    rw [List.getLast?_append, getLast?_indentLines, List.getLast?_eq_some_getLast notEmpty]
    rfl
  rw [endLine, endLine, last]
  split
  · rfl
  · rw [indentLines_append_lineEnd, List.append_assoc]

/-- What stands in the head of a block for the line ends at the end of its text. -/
inductive Ends (text : List Char) : (mark : List Char) → Chomping → Prop where
  | strip (last : ∀ c ∈ text.getLast?, isBreak c = false) : Ends text ['-'] .strip
  | clip {front : List Char} {c e : Char} (onLine : isBreak c = false) (breaks : isBreak e = true)
      (text_eq : text = front ++ [c] ++ [e]) : Ends text [] .clip
  | keep (last : ∀ c ∈ text.getLast?, isBreak c = true) : Ends text ['+'] .keep

/-- What has been read of a block is its text, up to the line ends that are dropped. -/
theorem Ends.text_eq {mark : List Char} {chomping : Chomping} (kind : Ends text mark chomping)
    (notEmpty : text ≠ []) (block_ends : block.Ends)
    (same : block.text ++ block.lineEnd ++ block.emptyLines = endLine text) :
    block.text ++ chomping.ending block = text := by
  rw [List.append_assoc] at same
  cases kind with
  | strip last =>
      rw [endLine_of_onLine last] at same
      have text_eq := (eq_of_append_breaks same block_ends.text last block_ends.breaks
        (by simp [isBreak])).1
      rw [text_eq, Chomping.ending, List.append_nil]
  | @clip front c e onLine breaks text_eq =>
      have ended : endLine text = front ++ [c] ++ [e] := by
        simp [endLine, text_eq, breaks]
      rw [ended] at same
      obtain ⟨front_eq, ends_eq⟩ := eq_of_append_breaks same block_ends.text (by simpa using onLine)
        block_ends.breaks (by simpa using breaks)
      have single : block.lineEnd.length = 1 := block_ends.lineEnd (by simp [front_eq])
      obtain ⟨d, single⟩ := List.length_eq_one_iff.1 single
      obtain ⟨rfl, -⟩ : d = e ∧ block.emptyLines = [] := by simpa [single] using ends_eq
      rw [front_eq, Chomping.ending, single, text_eq]
  | keep last =>
      have ended : endLine text = text := by
        have last := last _ (List.getLast?_eq_some_getLast notEmpty)
        simp [endLine, List.getLast?_eq_some_getLast notEmpty, last]
      rw [Chomping.ending, same, ended]

theorem exists_ends (notEmpty : text ≠ []) (indent : Nat) : ∃ mark chomping,
    Ends text mark chomping ∧ Scalar.block indent text =
      '|' :: ((if text.head?.any fun c => c == ' ' || isBreak c then ['2'] else []) ++ mark ++
        '\n' :: indentLines indent true text) := by
  obtain ⟨front, last, rfl⟩ : ∃ front last, text = front ++ [last] :=
    ⟨_, _, (List.dropLast_concat_getLast notEmpty).symm⟩
  cases ended : isBreak last with
  | false => exact ⟨['-'], .strip, .strip (by simpa using ended), by simp [Scalar.block, ended]⟩
  | true =>
      cases inner : front.getLast?.all isBreak with
      | true =>
          exact ⟨['+'], .keep, .keep (by simpa using ended), by simp [Scalar.block, ended, inner]⟩
      | false =>
          cases last_eq : front.getLast? with
          | none => simp [last_eq] at inner
          | some c =>
              have onLine : isBreak c = false := by simpa [last_eq] using inner
              obtain ⟨before, rfl⟩ := List.getLast?_eq_some_iff.1 last_eq
              exact ⟨[], .clip, .clip onLine ended rfl, by simp [Scalar.block, ended, onLine]⟩

theorem length_le_indentLines (indent : Nat) (behindEnd : Bool) (text : List Char) :
    text.length ≤ (indentLines indent behindEnd text).length := by
  induction text generalizing behindEnd with
  | nil => exact Nat.le_refl _
  | cons c rest ih =>
      have ended := ih true
      have onLine := ih false
      rw [indentLines]
      split <;> simp <;> omega

theorem BehindIndent.length_le (behind : BehindIndent indent width tail cursor text) :
    text.length ≤ cursor.rest.length := by
  cases behind with
  | done => exact Nat.zero_le _
  | @line c more onLine starts =>
      have shorter := length_le_indentLines indent false (c :: more)
      rw [starts, List.length_append]
      omega

/-- The width of the indentation, in the head of a block or else told by its first line. -/
def Finds (text : List Char) (width? : Option Nat) : Prop :=
  width? = some 2 ∨
    width? = none ∧ ∃ c rest, text = c :: rest ∧ isBlank c = false ∧ isBreak c = false

/-- The indentation of the first line is found. -/
theorem exists_readBlockIndent_first {parent : Nat} {width? : Option Nat} (finds : Finds text width?)
    (starts : cursor.rest =
      indentLines (parent + 2) true text ++ (List.replicate width ' ' ++ tail))
    (atStart : cursor.column = 0) (shallow : width < parent + 2) (ends : endsGap tail = true) :
    ∃ line widest, readBlockIndent (width?.map (parent + ·)) cursor.rest.length cursor 0 [] =
        .ok (line, widest, text.takeWhile isBreak) ∧
      (width?.map (parent + ·)).getD (max widest (parent + 1)) = parent + 2 ∧
      BehindIndent (parent + 2) width tail line (text.dropWhile isBreak) := by
  rcases finds with rfl | ⟨rfl, c, rest, rfl, notBlank, onLine⟩
  · obtain ⟨line, widest, read_eq, behind⟩ : ∃ line widest, readBlockIndent (some (parent + 2)) _
        cursor 0 [] = _ ∧ _ := exists_readBlockIndent starts atStart shallow ends (Nat.le_refl _)
    exact ⟨line, widest, read_eq, rfl, behind⟩
  · have starts : cursor.rest = List.replicate (parent + 2) ' ' ++
        (indentLines (parent + 2) false (c :: rest) ++ (List.replicate width ' ' ++ tail)) := by
      simpa [indentLines, onLine] using starts
    obtain ⟨rest_eq, column⟩ := Cursor.skip_spaces starts
    have room : parent + 3 ≤ cursor.rest.length := by
      have more := length_le_indentLines (parent + 2) false (c :: rest)
      simp only [starts, List.length_append, List.length_replicate, List.length_cons] at more ⊢
      omega
    obtain ⟨size, length⟩ := Nat.exists_eq_add_of_le' room
    have length : cursor.rest.length = size + 1 + (parent + 2) := by omega
    have head : (cursor.skip (parent + 2)).rest.head? = Option.some c := by
      simp [rest_eq, indentLines, onLine]
    refine ⟨cursor.skip (parent + 2), parent + 2, ?_, ?_, ?_⟩
    · rw [length, readBlockIndent_spaces starts (by simp),
        readBlockIndent_stop (by simpa [head] using onLine) (.inr (by simpa [head] using notBlank)),
        column, atStart, List.takeWhile_cons_of_neg (by simp [onLine])]
      simp
    · exact Nat.max_eq_left (Nat.le_succ _)
    · rw [List.dropWhile_cons_of_neg (by simp [onLine])]
      exact .line onLine rest_eq (by simpa [atStart] using column)

/-- The head of a block tells how its end is treated, and how far it is indented if its first line
    does not. -/
theorem exists_readBlockHead {mark : List Char} {chomping : Chomping}
    (kind : Ends text mark chomping) (notEmpty : text ≠ []) (noTab : '\t' ∉ text) :
    ∃ head width?, Finds (endLine text) width? ∧
      (if text.head?.any fun c => c == ' ' || isBreak c then ['2'] else []) ++ mark = head ∧
      ∀ body, readBlockHead (head ++ '\n' :: body) = .ok (chomping, width?, head.length) := by
  obtain ⟨c, rest, rfl⟩ := List.exists_cons_of_ne_nil notEmpty
  cases wide : c == ' ' || isBreak c with
  | true =>
      refine ⟨['2'] ++ mark, some 2, .inl rfl, by simp [wide], fun body => ?_⟩
      cases kind <;> rfl
  | false =>
      obtain ⟨notSpace, onLine⟩ : c ≠ ' ' ∧ isBreak c = false := by simpa using wide
      have notTab : c ≠ '\t' := fun same => noTab (by simp [same])
      obtain ⟨more, starts⟩ : ∃ more, endLine (c :: rest) = c :: more := by
        unfold endLine
        split
        · exact ⟨rest, rfl⟩
        · exact ⟨rest ++ ['\n'], rfl⟩
      refine ⟨mark, none, .inr ⟨rfl, c, more, starts, ?_, onLine⟩, by simp [wide], fun body => ?_⟩
      · simp [isBlank, notSpace, notTab]
      · cases kind <;> rfl

/-- What is written as a block is read as the text, and over the indentation of the next line. -/
theorem exists_readBlockText {parent : Nat} (notEmpty : text ≠ []) (noTab : '\t' ∉ text)
    (starts : '|' :: cursor.rest =
      endLine (Scalar.block (parent + 2) text) ++ (List.replicate width ' ' ++ tail))
    (shallow : width < parent + 2) (ends : endsGap tail = true) :
    ∃ after, readBlockText false (some parent) cursor = .ok (after, text) ∧ after.rest = tail ∧
      after.column = width := by
  obtain ⟨mark, chomping, kind, written⟩ := exists_ends notEmpty (parent + 2)
  obtain ⟨head, width?, finds, head_eq, read_eq⟩ := exists_readBlockHead kind notEmpty noTab
  have starts : cursor.rest = head ++ '\n' ::
      (indentLines (parent + 2) true (endLine text) ++ (List.replicate width ' ' ++ tail)) := by
    have ended : endLine ('|' :: head ++ ['\n'] ++ indentLines (parent + 2) true text) =
        '|' :: head ++ ['\n'] ++ indentLines (parent + 2) true (endLine text) :=
      endLine_append_indentLines notEmpty (parent + 2)
    have whole : Scalar.block (parent + 2) text =
        '|' :: head ++ ['\n'] ++ indentLines (parent + 2) true text := by
      rw [written, head_eq]
      simp
    rw [whole, ended] at starts
    simpa using starts
  have body_eq := Cursor.rest_skip starts
  have rest_eq := Cursor.rest_next body_eq
  have atStart := Cursor.column_next_of_break body_eq rfl
  obtain ⟨line, widest, indent_eq, indent, behind⟩ :=
    exists_readBlockIndent_first finds rest_eq atStart shallow ends
  have block_ends : Block.Ends ⟨[], [], (endLine text).takeWhile isBreak, false⟩ := by
    refine ⟨by simp, by simp, ?_⟩
    simpa using List.all_eq_true.1 (List.all_takeWhile (l := endLine text) (p := isBreak))
  have ended : ∀ c ∈ ((endLine text).dropWhile isBreak).getLast?, isBreak c = true :=
    fun c last => isBreak_of_mem_getLast?_endLine c (mem_getLast?_of_dropWhile last)
  obtain ⟨after, block, lines_eq, tail_eq, column, block_ends, same⟩ :=
    exists_readBlockLines behind ended block_ends shallow ends (Nat.le_succ_of_le behind.length_le)
  refine ⟨after, ?_, tail_eq, column⟩
  rw [← indent] at lines_eq
  rw [rest_eq] at indent_eq
  rw [readBlockText_of_steps (starts ▸ read_eq _) body_eq indent_eq lines_eq,
    kind.text_eq notEmpty block_ends (by simpa using same)]

end LayerComposition.Yaml
