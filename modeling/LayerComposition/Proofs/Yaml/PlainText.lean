import LayerComposition.Proofs.Yaml.Cursors

/-! # Plain texts

A plain text is read word by word, with the spaces between its words. It ends with the line if the
next line is not indented deeply enough to go on with it.
-/

namespace LayerComposition.Yaml

open Scalar

variable {c : Char} {word text tail soFar blanks : List Char} {cursor : Cursor}
  {size indent width : Nat}

/-- No colon in the text stands in front of a blank. -/
def ColonsInside (text behind : List Char) : Prop :=
  ∀ front rest, text = front ++ ':' :: rest → startsBlank (rest ++ behind) = false

theorem ColonsInside.of_append {front : List Char} (inside : ColonsInside (front ++ text) tail) :
    ColonsInside front (text ++ tail) ∧ ColonsInside text tail := by
  constructor
  · rintro first rest rfl
    simpa using inside first (rest ++ text) (by simp)
  · rintro first rest rfl
    exact inside (front ++ first) rest (by simp)

/-- A word ends in front of a blank, or of a colon that a blank follows. -/
def endsWord (tail : List Char) : Bool :=
  startsBlank tail || (tail.head? == some ':' && startsBlank tail.tail)

theorem readWord_of_rest (solid : ∀ c ∈ word, isBlank c = false ∧ isBreak c = false)
    (inside : ColonsInside word tail) (ends : endsWord tail = true) :
    readWord false (word ++ tail) = .ok (word, tail) := by
  induction word with
  | nil =>
      cases tail with
      | nil => rfl
      | cons c rest =>
          have first : startsBlank (c :: rest) = (isBlank c || isBreak c) := rfl
          rw [List.nil_append, readWord]
          split
          · rfl
          · next solid =>
              have last : (c == ':' && startsBlank rest) = true := by
                rw [endsWord, first, Bool.eq_false_iff.2 solid] at ends
                simpa using ends
              simp [last]
  | cons c rest ih =>
      obtain ⟨notBlank, onLine⟩ := solid c List.mem_cons_self
      have inside : ColonsInside ([c] ++ rest) tail := inside
      have later := ih (fun c mem => solid c (.tail _ mem)) inside.of_append.2
      have goesOn : (c == ':' && startsBlank (rest ++ tail)) = false := by
        by_cases colon : c = ':'
        · subst colon
          simp [inside [] rest rfl]
        · simp [colon]
      rw [List.cons_append, readWord]
      simp [notBlank, onLine, goesOn, later, Except.map]

/-- What can be written without quotes: words on one line, none of which starts a comment or is
    taken for a key. -/
structure Unquoted (text : List Char) : Prop where
  starts : ∃ c rest, text = c :: rest ∧ c ≠ ' ' ∧ c ≠ '#'
  onLine : ∀ c ∈ text, isBreak c = false
  noTab : '\t' ∉ text
  inside : ColonsInside text []
  noComment : ∀ front rest, text ≠ front ++ ' ' :: '#' :: rest
  ends : ∀ front, text ≠ front ++ [' ']

/-- Behind a space such a text goes on with a word. -/
theorem Unquoted.of_append {front : List Char} (unquoted : Unquoted (front ++ ' ' :: text))
    (notEmpty : text ≠ []) (notSpace : text.head? ≠ some ' ') : Unquoted text := by
  obtain ⟨c, rest, rfl⟩ := List.exists_cons_of_ne_nil notEmpty
  constructor
  case starts =>
    refine ⟨c, rest, rfl, by simpa using notSpace, ?_⟩
    rintro rfl
    exact unquoted.noComment front rest rfl
  case onLine => exact fun d mem => unquoted.onLine d (by simp [mem])
  case noTab => exact fun mem => unquoted.noTab (by simp [mem])
  case inside =>
    have inside : ColonsInside ((front ++ [' ']) ++ c :: rest) [] := by simpa using unquoted.inside
    exact inside.of_append.2
  case noComment =>
    intro first more same
    exact unquoted.noComment (front ++ ' ' :: first) more (by simp [same])
  case ends =>
    intro first same
    exact unquoted.ends (front ++ ' ' :: first) (by simp [same])

theorem Unquoted.isBlank_eq_false (unquoted : Unquoted text) (mem : c ∈ text) (notSpace : c ≠ ' ') :
    isBlank c = false := by
  have notTab : c ≠ '\t' := fun same => unquoted.noTab (same ▸ mem)
  simp [isBlank, notSpace, notTab]

/-- Such a text starts with a character of a word that starts no comment. -/
theorem Unquoted.exists_start (unquoted : Unquoted text) : ∃ c rest, text = c :: rest ∧
    isBlank c = false ∧ isBreak c = false ∧ c ≠ '#' := by
  obtain ⟨c, rest, rfl, notSpace, notSign⟩ := unquoted.starts
  have mem : c ∈ c :: rest := List.mem_cons_self
  exact ⟨c, rest, rfl, unquoted.isBlank_eq_false mem notSpace, unquoted.onLine c mem, notSign⟩

theorem Unquoted.endsGap (unquoted : Unquoted text) (tail : List Char) :
    endsGap (text ++ tail) = true := by
  obtain ⟨c, rest, rfl, notBlank, onLine, -⟩ := unquoted.exists_start
  simp [Yaml.endsGap, notBlank, onLine]

theorem exists_spaces (text : List Char) : ∃ width others,
    text = List.replicate width ' ' ++ others ∧ others.head? ≠ some ' ' := by
  have spaces : ∀ c ∈ text.takeWhile (· == ' '), c = ' ' := by
    simpa using List.all_eq_true.1 (List.all_takeWhile (l := text) (p := (· == ' ')))
  refine ⟨(text.takeWhile (· == ' ')).length, text.dropWhile (· == ' '), ?_, fun head => ?_⟩
  · rw [← List.eq_replicate_of_mem spaces, List.takeWhile_append_dropWhile]
  · have stops := List.head?_dropWhile_not (· == ' ') text
    rw [head] at stops
    contradiction

/-- Behind its first word such a text ends, or a word follows behind spaces. -/
theorem Unquoted.cases (unquoted : Unquoted text) : ∃ word rest, text = word ++ rest ∧ word ≠ [] ∧
    (∀ c ∈ word, isBlank c = false ∧ isBreak c = false) ∧ (rest = [] ∨ ∃ width more,
      rest = List.replicate (width + 1) ' ' ++ more ∧ Unquoted more) := by
  obtain ⟨first, others, text_eq, notSpace, -⟩ := unquoted.starts
  have whole : text.takeWhile (· != ' ') ++ text.dropWhile (· != ' ') = text :=
    List.takeWhile_append_dropWhile
  refine ⟨text.takeWhile (· != ' '), text.dropWhile (· != ' '), whole.symm, ?_, ?_, ?_⟩
  · simp [text_eq, notSpace]
  · intro c mem
    have inText : c ∈ text := (List.takeWhile_prefix _).subset mem
    have notSpace : c ≠ ' ' := by simpa using List.all_eq_true.1 List.all_takeWhile c mem
    exact ⟨unquoted.isBlank_eq_false inText notSpace, unquoted.onLine c inText⟩
  · generalize text.takeWhile (· != ' ') = word at whole
    have stops := List.head?_dropWhile_not (· != ' ') text
    generalize text.dropWhile (· != ' ') = rest at whole stops
    cases rest with
    | nil => exact .inl rfl
    | cons c more =>
        obtain rfl : c = ' ' := by simpa using stops
        obtain ⟨width, others, rfl, notSpace⟩ := exists_spaces more
        have spaces : List.replicate width ' ' ++ ' ' :: others =
            List.replicate (width + 1) ' ' ++ others := by
          rw [List.replicate_succ', List.append_assoc, List.singleton_append]
        have whole : word ++ List.replicate width ' ' ++ ' ' :: others = text := by
          rw [List.append_assoc, spaces]
          exact whole
        refine .inr ⟨width, others, rfl, ?_⟩
        rw [← whole] at unquoted
        refine unquoted.of_append ?_ notSpace
        rintro rfl
        exact unquoted.ends _ rfl

theorem ColonsInside.append (inside : ColonsInside text []) : ColonsInside text tail := by
  intro front rest same
  have solid := inside front rest same
  cases rest with
  | nil => contradiction
  | cons c more => simpa [startsBlank] using solid

theorem readGap_spaces (starts : cursor.rest = List.replicate width ' ' ++ tail)
    (ends : endsGap tail = true) (enough : width ≤ size) :
    readGap indent size cursor ⟨[], []⟩ =
      .ok (cursor.skip (List.replicate width ' ').length, ⟨List.replicate width ' ', []⟩) := by
  have between (c : Char) (mem : c ∈ List.replicate width ' ') : c = ' ' ∨ isBreak c = true :=
    .inl (List.mem_replicate.1 mem).2
  rw [readGap_of_rest starts between ends (by simpa using enough), foldl_push_spaces,
    List.nil_append]

theorem readGap_lineEnd (starts : cursor.rest = '\n' :: List.replicate width ' ' ++ tail)
    (ends : endsGap tail = true) (enough : width < size) :
    readGap indent size cursor ⟨[], []⟩ =
      .ok (cursor.skip ('\n' :: List.replicate width ' ').length, ⟨[], ['\n']⟩) := by
  have between (c : Char) (mem : c ∈ '\n' :: List.replicate width ' ') :
      c = ' ' ∨ isBreak c = true := by
    rcases List.mem_cons.1 mem with rfl | mem
    · exact .inr rfl
    · exact .inl (List.mem_replicate.1 mem).2
  have push : Gap.push ⟨[], []⟩ '\n' = ⟨[], ['\n']⟩ := rfl
  rw [readGap_of_rest starts between ends (by simpa using Nat.succ_le_of_lt enough),
    List.foldl_cons, push, foldl_push_indentation (by simp)]

/-- One turn of the reader goes over a word and the gap behind it. -/
theorem readPlain_word {gap next : Gap} {after : Cursor} (notEmpty : word ≠ [])
    (solid : ∀ c ∈ word, isBlank c = false ∧ isBreak c = false)
    (noComment : cursor.rest.head? ≠ some '#') (starts : cursor.rest = word ++ tail)
    (inside : ColonsInside word tail)
    (ends : endsWord tail = true) (noMarker : cursor.atDocumentMarker = false)
    (gap_eq : readGap indent tail.length (cursor.skip word.length) ⟨[], []⟩ = .ok (after, next)) :
    readPlain false indent (size + 1) cursor soFar gap =
      if after.index = (cursor.skip word.length).index then
        .ok (cursor.skip word.length, soFar ++ gap.text ++ word, false)
      else if after.column < indent then
        .ok (after, soFar ++ gap.text ++ word, decide (next.breaks ≠ []))
      else readPlain false indent size after (soFar ++ gap.text ++ word) next := by
  have word_eq : readWord false cursor.rest = .ok (word, tail) := by
    rw [starts]
    exact readWord_of_rest solid inside ends
  have rest_eq := Cursor.rest_skip starts
  rw [readPlain]
  simp [noMarker, noComment, word_eq, bind, Except.bind, pure, Except.pure, notEmpty, rest_eq,
    gap_eq]

section Words

variable (notEmpty : word ≠ []) (solid : ∀ c ∈ word, isBlank c = false ∧ isBreak c = false)
  (noComment : cursor.rest.head? ≠ some '#') (noMarker : cursor.atDocumentMarker = false)

include notEmpty solid noComment noMarker

/-- The last word of a line ends the text if the next line does not go on with it. -/
theorem readPlain_lastWord
    (starts : cursor.rest = word ++ '\n' :: (List.replicate width ' ' ++ tail))
    (inside : ColonsInside word ('\n' :: (List.replicate width ' ' ++ tail)))
    (ends : endsGap tail = true) (shallow : width < indent) :
    readPlain false indent (size + 1) cursor soFar ⟨blanks, []⟩ =
      .ok (cursor.skip (word ++ '\n' :: List.replicate width ' ').length, soFar ++ blanks ++ word,
        true) := by
  have rest_eq : (cursor.skip word.length).rest = '\n' :: List.replicate width ' ' ++ tail :=
    Cursor.rest_skip starts
  have length : width < ('\n' :: (List.replicate width ' ' ++ tail)).length := by
    simp only [List.length_cons, List.length_append, List.length_replicate]
    omega
  have further : ¬((cursor.skip word.length).skip ('\n' :: List.replicate width ' ').length).index =
      (cursor.skip word.length).index := Nat.ne_of_gt (Cursor.index_lt_skip rest_eq (by simp))
  rw [readPlain_word notEmpty solid noComment starts inside rfl noMarker
      (readGap_lineEnd rest_eq ends length),
    if_neg further, if_pos (by rwa [Cursor.column_skip_indentation rest_eq (by decide)])]
  simp [← Cursor.skip_add, Gap.text]

/-- Behind spaces reading goes on in the line. -/
theorem readPlain_spaces {spaces : Nat}
    (starts : cursor.rest = word ++ (List.replicate (spaces + 1) ' ' ++ tail))
    (inside : ColonsInside word (List.replicate (spaces + 1) ' ' ++ tail))
    (ends : endsGap tail = true) (deep : indent ≤ cursor.column) :
    readPlain false indent (size + 1) cursor soFar ⟨blanks, []⟩ =
      readPlain false indent size (cursor.skip (word ++ List.replicate (spaces + 1) ' ').length)
        (soFar ++ blanks ++ word) ⟨List.replicate (spaces + 1) ' ', []⟩ := by
  have rest_eq := Cursor.rest_skip starts
  have further : ¬((cursor.skip word.length).skip (List.replicate (spaces + 1) ' ').length).index =
      (cursor.skip word.length).index := Nat.ne_of_gt (Cursor.index_lt_skip rest_eq (by simp))
  have column := Cursor.column_skip starts fun c mem => (solid c mem).2
  have column' := Cursor.column_skip rest_eq fun c mem => (List.mem_replicate.1 mem).2 ▸ rfl
  rw [readPlain_word notEmpty solid noComment starts inside rfl noMarker
      (readGap_spaces rest_eq ends (by simp)),
    if_neg further, if_neg (by omega), List.length_append, Cursor.skip_add]
  rfl

end Words

/-- A text without quotes is read to the end of its line, and over the indentation of the next line,
    which does not go on with it. -/
theorem readPlain_of_unquoted (unquoted : Unquoted text)
    (starts : cursor.rest = text ++ '\n' :: (List.replicate width ' ' ++ tail))
    (ends : endsGap tail = true) (shallow : width < indent) (deep : indent ≤ cursor.column)
    (enough : text.length ≤ size) : readPlain false indent size cursor soFar ⟨blanks, []⟩ =
      .ok (cursor.skip (text ++ '\n' :: List.replicate width ' ').length, soFar ++ blanks ++ text,
        true) := by
  induction size generalizing text cursor soFar blanks with
  | zero =>
      obtain ⟨c, rest, rfl, -⟩ := unquoted.starts
      contradiction
  | succ size ih =>
      have noMarker : cursor.atDocumentMarker = false :=
        Cursor.atDocumentMarker_eq_false (by omega)
      have noComment : cursor.rest.head? ≠ some '#' := by
        obtain ⟨c, rest, rfl, -, notSign⟩ := unquoted.starts
        simpa [starts] using notSign
      obtain ⟨word, rest, rfl, notEmpty, solid, next⟩ := unquoted.cases
      have inside : ColonsInside (word ++ rest) ('\n' :: (List.replicate width ' ' ++ tail)) :=
        unquoted.inside.append
      rcases next with rfl | ⟨spaces, more, rfl, later⟩
      · rw [List.append_nil] at starts inside ⊢
        exact readPlain_lastWord notEmpty solid noComment noMarker starts inside ends shallow
      · have inside := inside.of_append.1
        rw [List.append_assoc] at inside
        have starts' : cursor.rest = word ++ (List.replicate (spaces + 1) ' ' ++
            (more ++ '\n' :: (List.replicate width ' ' ++ tail))) := by
          simpa using starts
        have whole : cursor.rest = (word ++ List.replicate (spaces + 1) ' ') ++
            (more ++ '\n' :: (List.replicate width ' ' ++ tail)) := by
          simpa using starts
        have onLine : ∀ c ∈ word ++ List.replicate (spaces + 1) ' ', isBreak c = false := by
          intro c mem
          refine unquoted.onLine c ?_
          rw [← List.append_assoc]
          exact List.mem_append_left more mem
        have column := Cursor.column_skip whole onLine
        have shorter : more.length ≤ size := by
          have positive := List.length_pos_iff.2 notEmpty
          simp only [List.length_append] at enough
          omega
        rw [readPlain_spaces notEmpty solid noComment noMarker starts' inside (later.endsGap _) deep,
          ih later (Cursor.rest_skip whole) (by omega) shorter]
        simp [← Cursor.skip_add, Nat.add_assoc]

/-- A word in front of a colon is read up to the colon. -/
theorem readPlain_of_colon (notEmpty : word ≠ [])
    (solid : ∀ c ∈ word, isBlank c = false ∧ isBreak c = false) (noColon : ':' ∉ word)
    (noComment : cursor.rest.head? ≠ some '#') (starts : cursor.rest = word ++ ':' :: tail)
    (ends : startsBlank tail = true) (noMarker : cursor.atDocumentMarker = false) :
    readPlain false indent (size + 1) cursor [] ⟨[], []⟩ =
      .ok (cursor.skip word.length, word, false) := by
  have inside : ColonsInside word (':' :: tail) := by
    rintro front rest rfl
    simp at noColon
  have ends : endsWord (':' :: tail) = true := by simp [endsWord, ends]
  have rest_eq : (cursor.skip word.length).rest = [] ++ ':' :: tail := Cursor.rest_skip starts
  have gap_eq : readGap indent (':' :: tail).length (cursor.skip word.length) ⟨[], []⟩ =
      .ok (cursor.skip word.length, ⟨[], []⟩) :=
    readGap_of_rest rest_eq (by simp) rfl (by simp)
  rw [readPlain_word notEmpty solid noComment starts inside ends noMarker gap_eq, if_pos rfl]
  rfl

theorem ColonsInside.cons (colon : c = ':' → startsBlank text = false)
    (inside : ColonsInside text []) : ColonsInside (c :: text) [] := by
  intro front rest same
  cases front with
  | nil =>
      obtain ⟨rfl, rfl⟩ := List.cons.inj same
      simpa using colon rfl
  | cons d front => exact inside front rest (List.cons.inj same).2

/-- A text in which no indicator is found has its colons inside of words and no comment. -/
theorem inside_of_hasInnerIndicator {before : Char}
    (clear : hasInnerIndicator before text = false) : ColonsInside text [] ∧
      ∀ front rest, before :: text ≠ front ++ ' ' :: '#' :: rest := by
  induction text generalizing before with
  | nil =>
      refine ⟨fun front rest same => by simp at same, fun front rest same => ?_⟩
      have length := congrArg List.length same
      simp only [List.length_append, List.length_cons, List.length_nil] at length
      omega
  | cons c more ih =>
      simp only [hasInnerIndicator, Bool.or_eq_false_iff] at clear
      obtain ⟨⟨colon, sign⟩, later⟩ := clear
      obtain ⟨inside, noComment⟩ := ih later
      refine ⟨inside.cons (by simpa using colon), fun front rest same => ?_⟩
      cases front with
      | nil =>
          obtain ⟨rfl, rfl, -⟩ : before = ' ' ∧ c = '#' ∧ more = rest := by simpa using same
          contradiction
      | cons d front => exact noComment front rest (List.cons.inj same).2

/-- What is kept plainly can be written without quotes. -/
theorem unquoted_of_keeps (notEmpty : text ≠ []) (keeps : Style.plain.keeps text = true) :
    Unquoted text := by
  obtain ⟨c, rest, rfl⟩ := List.exists_cons_of_ne_nil notEmpty
  simp only [Style.keeps, needsEscape, hasIndicator, Bool.and_eq_true, Bool.not_eq_true',
    Bool.or_eq_false_iff] at keeps
  obtain ⟨⟨⟨⟨⟨printable, -⟩, onLine⟩, first⟩, last⟩, ⟨⟨⟨leading, start⟩, -⟩, -⟩, inner⟩ := keeps
  obtain ⟨inside, noComment⟩ := inside_of_hasInnerIndicator inner
  constructor
  case starts =>
    refine ⟨c, rest, rfl, by simpa using first, ?_⟩
    rintro rfl
    contradiction
  case onLine => simpa using List.any_eq_false.1 onLine
  case noTab =>
    intro mem
    have tab := List.any_eq_false.1 printable '\t' mem
    contradiction
  case inside =>
    refine inside.cons ?_
    rintro rfl
    simpa using start
  case noComment => exact noComment
  case ends =>
    intro front same
    simp [same] at last

end LayerComposition.Yaml
