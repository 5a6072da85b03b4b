import LayerComposition.Proofs.Yaml.Cursors
import LayerComposition.Proofs.Yaml.Escapes
import Mathlib.Data.List.Chain

/-! # Quoted texts

A text in quotes is spelled piece by piece: a character for itself, a quote by two, a character by
its escape, and a gap by spaces and line ends that are read as it. What is spelled so is read back,
and both ways of quoting spell the texts that they are chosen for.
-/

namespace LayerComposition.Yaml

open Scalar

variable {quote c : Char} {piece kept written text tail soFar : List Char} {cursor : Cursor}
  {size : Nat}

/-- What is written between quotes, in front of something, for a part of a text. A gap ends in a
    space, so no line starts behind it with what could be taken for the end of the document. -/
inductive Piece (quote : Char) (behind : List Char) : (written kept : List Char) → Prop where
  | char {c : Char} (notQuote : c ≠ quote) (notEscape : quote = '\x22' → c ≠ '\\')
      (notBlank : isBlank c = false) (onLine : isBreak c = false) : Piece quote behind [c] [c]
  | doubled (single : quote = '\x27') : Piece quote behind ['\x27', '\x27'] ['\x27']
  | escaped {c : Char} {code : List Char} (double : quote = '\x22') (escaped : Escaped c code) :
      Piece quote behind ('\\' :: code) [c]
  | gap {front kept : List Char} (between : ∀ c ∈ front, c = ' ' ∨ isBreak c = true)
      (keeps : ((front ++ [' ']).foldl Gap.push ⟨[], []⟩).text = kept)
      (ends : endsGap behind = true) : Piece quote behind (front ++ [' ']) kept

/-- What is written between quotes for a text. -/
inductive Spells (quote : Char) : (written text : List Char) → Prop where
  | nil : Spells quote [] []
  | cons {piece kept written text : List Char} :
      Piece quote written piece kept → Spells quote written text →
      Spells quote (piece ++ written) (kept ++ text)

/-- A piece ends within a line. -/
theorem Piece.exists_last (isPiece : Piece quote tail piece kept) :
    ∃ front c, piece = front ++ [c] ∧ isBreak c = false := by
  cases isPiece with
  | @char c _ _ _ onLine => exact ⟨[], c, rfl, onLine⟩
  | doubled => exact ⟨['\x27'], '\x27', rfl, by decide⟩
  | @escaped c code _ escaped =>
      obtain ⟨front, last, rfl⟩ : ∃ front last, code = front ++ [last] :=
        ⟨_, _, (List.dropLast_concat_getLast escaped.ne_nil).symm⟩
      exact ⟨'\\' :: front, last, rfl, escaped.onLine last (by simp)⟩
  | @gap front => exact ⟨front, ' ', rfl, by decide⟩

/-- Spaces within a line are a piece of their own. -/
theorem Piece.spaces {run : List Char} (notEmpty : run ≠ []) (each : ∀ c ∈ run, c = ' ')
    (ends : endsGap tail = true) : Piece quote tail run run := by
  have keeps : (run.foldl Gap.push ⟨[], []⟩).text = run := by
    rw [List.eq_replicate_of_mem each, foldl_push_spaces]
    rfl
  obtain ⟨front, last, rfl⟩ : ∃ front last, run = front ++ [last] :=
    ⟨_, _, (List.dropLast_concat_getLast notEmpty).symm⟩
  obtain rfl : last = ' ' := each last (by simp)
  exact .gap (fun c mem => .inl (each c (by simp [mem]))) keeps ends

/-- A piece is still one if the closing quote follows. -/
theorem Piece.append_quote (isPiece : Piece quote written piece kept)
    (isQuote : quote = '\x27' ∨ quote = '\x22') (tail : List Char) :
    Piece quote (written ++ quote :: tail) piece kept := by
  obtain ⟨notBlank, onLine⟩ : isBlank quote = false ∧ isBreak quote = false := by
    rcases isQuote with rfl | rfl <;> decide
  cases isPiece with
  | char notQuote notEscape notBlank onLine => exact .char notQuote notEscape notBlank onLine
  | doubled single => exact .doubled single
  | escaped double escaped => exact .escaped double escaped
  | gap between keeps ends => exact .gap between keeps (endsGap_append ends notBlank onLine)

section Steps

variable (inLine : 0 < cursor.column)

include inLine

theorem readQuoted_close (starts : cursor.rest = quote :: tail) (closed : tail.head? ≠ some '\x27') :
    readQuoted quote (size + 1) cursor soFar = .ok (cursor.next, soFar) := by
  have noMarker := Cursor.atDocumentMarker_eq_false inLine
  simp [readQuoted, noMarker, starts, closed, pure, Except.pure]

/-- One turn of the reader goes over a piece. -/
theorem readQuoted_piece (isPiece : Piece quote tail piece kept)
    (starts : cursor.rest = piece ++ tail) (isQuote : quote = '\x27' ∨ quote = '\x22') :
    readQuoted quote (size + 1) cursor soFar =
      readQuoted quote size (cursor.skip piece.length) (soFar ++ kept) := by
  have noMarker := Cursor.atDocumentMarker_eq_false inLine
  cases isPiece with
  | @char c notQuote notEscape notBlank onLine =>
      have starts : cursor.rest = c :: tail := starts
      have notDoubled : ¬(quote = '\x27' ∧ c = '\x27') := fun ⟨single, same⟩ =>
        notQuote (same.trans single.symm)
      have notEscaped : ¬(quote = '\x22' ∧ c = '\\') := fun ⟨double, same⟩ => notEscape double same
      rw [readQuoted]
      simp [noMarker, starts, notQuote, notBlank, onLine, notDoubled, notEscaped, Cursor.skip]
  | doubled single =>
      have starts : cursor.rest = '\x27' :: '\x27' :: tail := starts
      simp [readQuoted, noMarker, starts, single]
  | @escaped c code double escaped =>
      obtain ⟨mark, rest, rfl⟩ := List.exists_cons_of_ne_nil escaped.ne_nil
      have starts : cursor.rest = '\\' :: mark :: (rest ++ tail) := starts
      have onLine : isBreak mark = false := escaped.onLine mark List.mem_cons_self
      have reads : readEscape? (mark :: (rest ++ tail)) = some (c, (mark :: rest).length) :=
        escaped.reads tail
      simp [readQuoted, noMarker, starts, onLine, reads, double, Nat.add_comm]
  | @gap front kept between keeps ends =>
      have between : ∀ c ∈ front ++ [' '], c = ' ' ∨ isBreak c = true := by
        simpa [or_imp, forall_and] using between
      obtain ⟨first, rest, gap_eq⟩ : ∃ first rest, front ++ [' '] = first :: rest :=
        List.exists_cons_of_ne_nil (by simp)
      rw [gap_eq] at starts between keeps ⊢
      obtain ⟨noMark, blank⟩ : (first ≠ '\x27' ∧ first ≠ '\x22' ∧ first ≠ '\\') ∧
          (isBlank first = true ∨ isBreak first = true) := by
        rcases between first List.mem_cons_self with rfl | breaks
        · decide
        · refine ⟨⟨?_, ?_, ?_⟩, .inr breaks⟩ <;> rintro rfl <;> contradiction
      have notQuote : first ≠ quote := by
        rcases isQuote with rfl | rfl
        · exact noMark.1
        · exact noMark.2.1
      have read_eq : readGap 0 (rest.length + tail.length + 1) cursor ⟨[], []⟩ =
          .ok (cursor.skip (first :: rest).length, (first :: rest).foldl Gap.push ⟨[], []⟩) :=
        readGap_of_rest starts between ends (by simp)
      have starts : cursor.rest = first :: (rest ++ tail) := starts
      rw [readQuoted]
      simp [noMarker, starts, noMark, notQuote, blank, read_eq, bind, Except.bind, ← keeps]

end Steps

/-- What spells a text in quotes is read as the text. -/
theorem readQuoted_of_spells (spells : Spells quote written text)
    (isQuote : quote = '\x27' ∨ quote = '\x22') (starts : cursor.rest = written ++ quote :: tail)
    (closed : tail.head? ≠ some '\x27') (inLine : 0 < cursor.column)
    (enough : written.length < size) :
    readQuoted quote size cursor soFar =
      .ok (cursor.skip (written.length + 1), soFar ++ text) := by
  induction spells generalizing cursor soFar size with
  | nil =>
      obtain ⟨size, rfl⟩ := Nat.exists_eq_succ_of_ne_zero (Nat.ne_zero_of_lt enough)
      rw [readQuoted_close inLine starts closed]
      simp [Cursor.skip]
  | @cons piece kept written text isPiece spells ih =>
      obtain ⟨size, rfl⟩ := Nat.exists_eq_succ_of_ne_zero (Nat.ne_zero_of_lt enough)
      have isPiece : Piece quote (written ++ quote :: tail) piece kept :=
        isPiece.append_quote isQuote tail
      have starts : cursor.rest = piece ++ (written ++ quote :: tail) := by simpa using starts
      obtain ⟨front, c, rfl, onLine⟩ := isPiece.exists_last
      have inLine' := Cursor.column_skip_pos starts onLine
      have enough : written.length < size := by simp at enough; omega
      have length : (front ++ [c]).length + (written.length + 1) =
          (front ++ [c] ++ written).length + 1 := by simp; omega
      rw [readQuoted_piece inLine isPiece starts isQuote,
        ih (Cursor.rest_skip starts) inLine' enough, ← Cursor.skip_add, length,
        List.append_assoc soFar]

/-! ## Single quotes -/

theorem indentLines_breaks {breaks : List Char} (each : ∀ c ∈ breaks, isBreak c = true)
    (notEmpty : breaks ≠ []) (indent : Nat) (behindEnd : Bool) (rest : List Char) :
    indentLines indent behindEnd (breaks ++ rest) = breaks ++ indentLines indent true rest := by
  induction breaks generalizing behindEnd with
  | nil => exact absurd rfl notEmpty
  | cons c more ih =>
      have first : isBreak c = true := each c List.mem_cons_self
      have later := ih fun c mem => each c (.tail _ mem)
      cases more with
      | nil => simp [indentLines, first]
      | cons d more =>
          rw [List.cons_append, indentLines, if_pos first, later (List.cons_ne_nil d more)]
          rfl

/-- A gap of line ends that do not start with a newline is kept. -/
theorem Gap.text_of_breaks {blanks breaks : List Char} (notEmpty : breaks ≠ [])
    (noNewline : '\n' ∉ breaks) : (⟨blanks, breaks⟩ : Gap).text = breaks := by
  unfold Gap.text
  split <;> simp_all

theorem hasPair_eq_false_iff {first second : Char → Bool} : hasPair first second text = false ↔
    text.IsChain fun a b => ¬(first a = true ∧ second b = true) := by
  induction text with
  | nil => simp [hasPair]
  | cons a rest ih =>
      cases rest with
      | nil => simp [hasPair]
      | cons b rest => simp [hasPair, ih]

/-- A text that may stand in single quotes: it has no tab, no newline, and no space beside a line
    end. -/
structure Quotable (text : List Char) : Prop where
  noTab : '\t' ∉ text
  noNewline : '\n' ∉ text
  chain : text.IsChain fun a b =>
    ¬(a = ' ' ∧ isBreak b = true) ∧ ¬(isBreak a = true ∧ b = ' ')

theorem Quotable.of_append {front : List Char} (quotable : Quotable (front ++ text)) :
    Quotable front ∧ Quotable text := by
  obtain ⟨chain, chain', -⟩ := List.isChain_append.1 quotable.chain
  have noTab := quotable.noTab
  have noNewline := quotable.noNewline
  simp only [List.mem_append, not_or] at noTab noNewline
  exact ⟨⟨noTab.1, noNewline.1, chain⟩, ⟨noTab.2, noNewline.2, chain'⟩⟩

theorem noTab_of_needsEscape (plainly : needsEscape text = false) : '\t' ∉ text := by
  intro mem
  have printable := List.any_eq_false.1 (Bool.or_eq_false_iff.1 plainly).1 '\t' mem
  contradiction

theorem quotable_of_keeps (noNewline : '\n' ∉ text) (keeps : Style.singleQuoted.keeps text = true) :
    Quotable text := by
  simp only [Style.keeps, Bool.and_eq_true, Bool.not_eq_true'] at keeps
  obtain ⟨plainly, noPair⟩ := keeps
  refine ⟨noTab_of_needsEscape plainly, noNewline, ?_⟩
  have before := hasPair_eq_false_iff.1 (Bool.or_eq_false_iff.1 plainly).2
  have behind := hasPair_eq_false_iff.1 noPair
  clear noNewline plainly noPair
  induction text with
  | nil => exact .nil
  | cons a rest ih =>
      cases rest with
      | nil => exact .singleton a
      | cons b more =>
          simp only [List.isChain_cons_cons, beq_iff_eq] at before behind ih ⊢
          exact ⟨⟨before.1, behind.1⟩, ih before.2 behind.2⟩

/-- A gap in such a text is all spaces or all line ends. -/
theorem Quotable.gap_cases (quotable : Quotable text)
    (each : ∀ c ∈ text, isBlank c = true ∨ isBreak c = true) :
    (∀ c ∈ text, c = ' ') ∨ ∀ c ∈ text, isBreak c = true := by
  have between (c : Char) (mem : c ∈ text) : c = ' ' ∨ isBreak c = true := by
    have noTab : c ≠ '\t' := fun same => quotable.noTab (same ▸ mem)
    simpa [isBlank, noTab] using each c mem
  have chain := quotable.chain
  clear quotable each
  induction text with
  | nil => exact .inl (by simp)
  | cons a rest ih =>
      cases rest with
      | nil => simpa using between a
      | cons b more =>
          obtain ⟨beside, chain⟩ := List.isChain_cons_cons.1 chain
          have later := ih (fun c mem => between c (.tail _ mem)) chain
          simp only [List.forall_mem_cons] at later between ⊢
          grind

/-- What stands between single quotes before it is indented. -/
def doubleQuotes (text : List Char) : List Char :=
  text.flatMap fun c => if c == '\x27' then ['\x27', '\x27'] else [c]

theorem doubleQuotes_append (front text : List Char) :
    doubleQuotes (front ++ text) = doubleQuotes front ++ doubleQuotes text := by
  simp [doubleQuotes]

theorem doubleQuotes_of_notMem (noQuote : '\x27' ∉ text) : doubleQuotes text = text := by
  induction text with
  | nil => rfl
  | cons c rest ih =>
      simp only [List.mem_cons, not_or] at noQuote
      have kept : c ≠ '\x27' := Ne.symm noQuote.1
      have later : doubleQuotes rest = rest := ih noQuote.2
      rw [doubleQuotes, List.flatMap_cons, ← doubleQuotes, later]
      simp [kept]

theorem head?_doubleQuotes (text : List Char) : (doubleQuotes text).head? = text.head? := by
  cases text with
  | nil => rfl
  | cons c rest => by_cases mark : c = '\x27' <;> simp [doubleQuotes, mark]

/-- Behind a line end what does not end the line at once is indented. -/
theorem indentLines_behindEnd {c : Char} (onLine : isBreak c = false) (indent : Nat)
    (rest : List Char) : indentLines indent true (c :: rest) =
      List.replicate indent ' ' ++ indentLines indent false (c :: rest) := by
  simp [indentLines, onLine]

/-- A character of a word is kept, or doubled if it is a quote. -/
theorem piece_doubleQuotes (notBlank : isBlank c = false) (onLine : isBreak c = false)
    (tail : List Char) : Piece '\x27' tail (doubleQuotes [c]) [c] ∧
      (doubleQuotes [c]).head? = some c ∧ ∀ d ∈ doubleQuotes [c], isBreak d = false := by
  by_cases mark : c = '\x27'
  · subst mark
    exact ⟨.doubled rfl, rfl, by simp [doubleQuotes, isBreak]⟩
  · rw [doubleQuotes_of_notMem (by simpa using Ne.symm mark)]
    exact ⟨.char mark (by simp) notBlank onLine, rfl, by simpa using onLine⟩

/-- A run of line ends is kept with the indentation that is written behind it. -/
theorem Piece.breaks {run : List Char} (breaks : ∀ c ∈ run, isBreak c = true) (notEmpty : run ≠ [])
    (noNewline : '\n' ∉ run) (width : Nat) (ends : endsGap tail = true) :
    Piece quote tail (run ++ List.replicate (width + 1) ' ') run := by
  have keeps : ((run ++ List.replicate width ' ' ++ [' ']).foldl Gap.push ⟨[], []⟩).text = run := by
    rw [List.append_assoc, ← List.replicate_succ', List.foldl_append, foldl_push_breaks breaks,
      foldl_push_indentation (by simpa using notEmpty)]
    exact Gap.text_of_breaks notEmpty noNewline
  rw [List.replicate_succ', ← List.append_assoc]
  refine .gap (fun c mem => ?_) keeps ends
  rcases List.mem_append.1 mem with mem | mem
  · exact .inr (breaks c mem)
  · exact .inl (List.mem_replicate.1 mem).2

/-- What is written behind a run of line ends starts within a line. -/
theorem exists_start_doubleQuotes (onLine : ∀ c ∈ text.head?, isBreak c = false) :
    ∃ c more, doubleQuotes text ++ ['\x27'] = c :: more ∧ isBreak c = false := by
  cases text with
  | nil => exact ⟨'\x27', [], rfl, by decide⟩
  | cons c others =>
      obtain ⟨more, starts⟩ := List.head?_eq_some_iff.1 (head?_doubleQuotes (c :: others))
      exact ⟨c, more ++ ['\x27'], by rw [starts]; rfl, onLine c rfl⟩

/-- What stands between single quotes spells the text. -/
theorem exists_spells_single (quotable : Quotable text) {indent : Nat} (positive : 0 < indent) :
    ∃ written, Spells '\x27' written text ∧ written.head? = text.head? ∧
      indentLines indent false (doubleQuotes text ++ ['\x27']) = written ++ ['\x27'] := by
  induction text using induction_on_runs (fun c => isBlank c || isBreak c) with
  | nil => exact ⟨[], .nil, rfl, by simp [indentLines, isBreak, doubleQuotes]⟩
  | char c rest single ih =>
      have quotable : Quotable ([c] ++ rest) := quotable
      obtain ⟨written, spells, head, indented⟩ := ih quotable.of_append.2
      obtain ⟨notBlank, onLine⟩ : isBlank c = false ∧ isBreak c = false := by simpa using single
      have whole : doubleQuotes (c :: rest) = doubleQuotes [c] ++ doubleQuotes rest :=
        doubleQuotes_append [c] rest
      obtain ⟨piece, first, inLine⟩ := piece_doubleQuotes notBlank onLine written
      refine ⟨doubleQuotes [c] ++ written, .cons piece spells, ?_, ?_⟩
      · rw [List.head?_append, first]
        rfl
      · rw [whole, List.append_assoc, indentLines_onLine inLine, indented, List.append_assoc]
  | run run rest notEmpty each ends ih =>
      obtain ⟨inRun, inRest⟩ := quotable.of_append
      obtain ⟨written, spells, head, indented⟩ := ih inRest
      have noQuote : '\x27' ∉ run := fun mem => absurd (each _ mem) (by decide)
      have ends' : endsGap written = true := by
        rw [endsGap, head]
        cases rest with
        | nil => rfl
        | cons c more => simpa using ends c rfl
      have first (behind : List Char) : (run ++ behind).head? = run.head? := by
        cases run with
        | nil => contradiction
        | cons c more => rfl
      rw [doubleQuotes_append, doubleQuotes_of_notMem noQuote, List.append_assoc]
      rcases inRun.gap_cases (by simpa using each) with spaces | breaks
      · have onLine : ∀ c ∈ run, isBreak c = false := fun c mem => spaces c mem ▸ by decide
        refine ⟨run ++ written, .cons (.spaces notEmpty spaces ends') spells, ?_, ?_⟩
        · rw [first, first]
        · rw [indentLines_onLine onLine, indented, List.append_assoc]
      · obtain ⟨width, rfl⟩ := Nat.exists_eq_succ_of_ne_zero (Nat.ne_of_gt positive)
        obtain ⟨c, more, starts, onLine⟩ := exists_start_doubleQuotes fun c head =>
          (Bool.or_eq_false_iff.1 (ends c head)).2
        refine ⟨run ++ List.replicate (width + 1) ' ' ++ written,
          .cons (.breaks breaks notEmpty inRun.noNewline width ends') spells, ?_, ?_⟩
        · rw [List.append_assoc, first, first]
        · rw [indentLines_breaks breaks notEmpty, starts, indentLines_behindEnd onLine, ← starts,
            indented]
          simp

theorem singleQuoted_eq (indent : Nat) (text : List Char) : Scalar.singleQuoted indent text =
    '\x27' :: indentLines indent false (doubleQuotes text ++ ['\x27']) := by
  have onLine : ∀ c ∈ ['\x27'], isBreak c = false := by simp [isBreak]
  rw [Scalar.singleQuoted, List.append_assoc, indentLines_onLine onLine]
  rfl

/-! ## Double quotes -/

/-- The only blank that needs no escape is the space. -/
theorem isBlank_eq_false (printable : isPrintable c = true) (notSpace : c ≠ ' ') :
    isBlank c = false := by
  have notTab : c ≠ '\t' := by
    rintro rfl
    contradiction
  simp [isBlank, notSpace, notTab]

theorem spells_double (text : List Char) : Spells '\x22' (text.flatMap escape) text := by
  induction text using induction_on_runs (· == ' ') with
  | nil => exact .nil
  | char c rest other ih =>
      have notSpace : c ≠ ' ' := by simpa using other
      rw [List.flatMap_cons]
      rcases escape_cases c with
        ⟨kept, printable, onLine, notQuote, notEscape⟩ | ⟨code, coded, escaped⟩
      · rw [kept]
        have notBlank := isBlank_eq_false printable notSpace
        exact .cons (.char notQuote (fun _ => notEscape) notBlank onLine) ih
      · rw [coded]
        exact .cons (.escaped rfl escaped) ih
  | run run rest notEmpty each ends ih =>
      have spaces : ∀ c ∈ run, c = ' ' := by simpa using each
      have kept : run.flatMap escape = run := by
        rw [List.eq_replicate_of_mem spaces]
        simp [escape, isPrintable, isBreak, List.flatMap_replicate]
      have ends : endsGap (rest.flatMap escape) = true := by
        cases rest with
        | nil => rfl
        | cons c more =>
            have notSpace : c ≠ ' ' := by simpa using ends c rfl
            rw [List.flatMap_cons]
            rcases escape_cases c with ⟨kept, printable, onLine, -⟩ | ⟨code, coded, -⟩
            · simp [kept, endsGap, isBlank_eq_false printable notSpace, onLine]
            · simp [coded, endsGap, isBlank, isBreak]
      rw [List.flatMap_append, kept]
      exact .cons (.spaces notEmpty spaces ends) ih

end LayerComposition.Yaml
