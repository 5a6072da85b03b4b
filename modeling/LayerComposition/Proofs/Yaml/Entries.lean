import LayerComposition.Proofs.Yaml.Values

/-! # Entries

An entry of a block mapping is a key with its value; an item of a list stands behind a dash. A key
opens a mapping in its column unless one is open there, and what is deeper is closed in front of it.
-/

namespace LayerComposition.Yaml

open Scalar

/-- A word that can be written as a key: a short one that is kept plainly and has nothing in it that
    could end it or the document. -/
structure IsKey (key : List Char) : Prop where
  notEmpty : key ≠ []
  keeps : Style.plain.keeps key = true
  solid : ' ' ∉ key ∧ ':' ∉ key
  noMark : '-' ∉ key ∧ '.' ∉ key
  short : Cursor.bytes key ≤ Scan.maxKeyDistance

/-- What is closed and opened in front of a key in a column. -/
def brackets (column : Nat) : (indents : List Nat) → List Token
  | [] => [.blockMapStart]
  | indent :: outer =>
      if column < indent then .blockEnd :: brackets column outer
      else if indent = column then []
      else [.blockMapStart]

/-- The columns of the collections around the mapping of a key in a column. -/
def enclosing (column : Nat) : (indents : List Nat) → List Nat
  | [] => []
  | indent :: outer =>
      if column < indent then enclosing column outer
      else if indent = column then outer
      else indent :: outer

/-- The tokens of a key up to its value. -/
def Token.keyed (key : String) : List Token :=
  [.key, .scalar key true, .value]

namespace Scan

variable {scan : Scan} {cursor : Cursor} {tokens : List Token} {indents outer : List Nat}
  {keyAllowed : Bool} {c : Char} {key text rest tail : List Char} {column parent width : Nat}

/-- In front of a key collections are closed down to one that is not deeper, and then the mapping of
    the key is opened unless it is that one. -/
theorem exists_closeBlocks (column : Nat) (indents : List Nat) : ∃ closers openers kept,
    (∀ (cursor : Cursor) (tokens : List Token) (keyAllowed : Bool),
      closeBlocks ⟨cursor, tokens, indents, keyAllowed, [none]⟩ (some column) =
        ⟨cursor, tokens ++ closers, kept, keyAllowed, [none]⟩) ∧
    brackets column indents = closers ++ openers ∧
    (kept = column :: enclosing column indents ∧ openers = [] ∨
      kept = enclosing column indents ∧ openers = [.blockMapStart] ∧
        ∀ indent ∈ kept.head?, indent < column) := by
  induction indents with
  | nil => exact ⟨[], [.blockMapStart], [], by simp [closeBlocks, inFlow], rfl, by simp [enclosing]⟩
  | cons indent outer ih =>
      by_cases deeper : column < indent
      · obtain ⟨closers, openers, kept, closes, brackets_eq, opens⟩ := ih
        refine ⟨.blockEnd :: closers, openers, kept, fun cursor tokens keyAllowed => ?_, ?_, ?_⟩
        · have step : closeBlocks ⟨cursor, tokens, indent :: outer, keyAllowed, [none]⟩
                (some column) =
              closeBlocks ⟨cursor, tokens ++ [.blockEnd], outer, keyAllowed, [none]⟩
                (some column) := by
            simp [closeBlocks, inFlow, deeper]
          rw [step, closes]
          simp
        · simp [brackets, deeper, brackets_eq]
        · simpa [enclosing, deeper] using opens
      · refine ⟨[], brackets column (indent :: outer), indent :: outer,
          by simp [closeBlocks, inFlow, deeper], rfl, ?_⟩
        by_cases same : indent = column
        · simp [enclosing, brackets, same]
        · have shallower : indent < column := by omega
          simp [enclosing, brackets, deeper, same, shallower]

/-- A word is read as a candidate for a key. -/
theorem exists_token_of_isKey (isKey : IsKey (c :: text))
    (starts : cursor.rest = c :: (text ++ ':' :: tail)) (ends : startsBlank tail = true)
    (tokens : List Token) (indents : List Nat) :
    ∃ candidate : KeyCandidate,
      token ⟨cursor, tokens, indents, true, [none]⟩ c (text ++ ':' :: tail) =
        .ok ⟨cursor.skip (c :: text).length,
          tokens ++ [.scalar (String.ofList (c :: text)) true], indents, false, [some candidate]⟩ ∧
      candidate.position = tokens.length ∧ candidate.index = cursor.index ∧
      candidate.line = cursor.line ∧ candidate.column = cursor.column := by
  have unquoted := unquoted_of_keeps isKey.notEmpty isKey.keeps
  have noMarker : cursor.atDocumentMarker = false := by
    obtain ⟨notDash, notDot⟩ : c ≠ '-' ∧ c ≠ '.' := by
      constructor <;> rintro rfl
      · exact isKey.noMark.1 List.mem_cons_self
      · exact isKey.noMark.2 List.mem_cons_self
    simp [Cursor.atDocumentMarker, Cursor.atMarker, starts, notDash, notDot]
  have solid : ∀ d ∈ c :: text, isBlank d = false ∧ isBreak d = false := by
    intro d mem
    have notSpace : d ≠ ' ' := fun same => isKey.solid.1 (same ▸ mem)
    exact ⟨unquoted.isBlank_eq_false mem notSpace, unquoted.onLine d mem⟩
  have noComment : cursor.rest.head? ≠ some '#' := by
    obtain ⟨d, others, same, -, notSign⟩ := unquoted.starts
    obtain ⟨rfl, rfl⟩ := List.cons.inj same
    simpa [starts] using notSign
  have read_eq (indent : Nat) : readPlain false indent (cursor.rest.length + 1) cursor [] ⟨[], []⟩ =
      .ok (cursor.skip (c :: text).length, c :: text, false) :=
    readPlain_of_colon isKey.notEmpty solid isKey.solid.2 noComment starts ends noMarker
  refine ⟨⟨tokens.length, indents.head? == some cursor.column, cursor.index, cursor.line,
    cursor.column⟩, ?_, rfl, rfl, rfl, rfl⟩
  rw [token_of_keeps isKey.keeps noMarker]
  simp [plain, markCandidate, dropCandidate, inFlow, emit, read_eq, bind, Except.bind, pure,
    Except.pure]

/-- The word is read and stays a candidate up to the character behind it. -/
theorem exists_reaches_candidate {kept : List Nat} {tokens' : List Token} (isKey : IsKey key)
    (ends : startsBlank tail = true) (starts : cursor.rest = key ++ ':' :: tail)
    (advances : scan.advance = .ok ⟨cursor, tokens, indents, true, [none]⟩)
    (closes : closeBlocks ⟨cursor, tokens, indents, true, [none]⟩ (some cursor.column) =
      ⟨cursor, tokens', kept, true, [none]⟩) :
    ∃ (behind : Cursor) (candidate : KeyCandidate) (word : Scan),
      word = ⟨behind, tokens' ++ [.scalar (String.ofList key) true], kept, false,
        [some candidate]⟩ ∧
      scan.Reaches word ∧ word.advance = .ok word ∧ behind.rest = ':' :: tail ∧
      cursor.column < behind.column ∧ candidate.position = tokens'.length ∧
      candidate.column = cursor.column := by
  obtain ⟨c, text, rfl⟩ := List.exists_cons_of_ne_nil isKey.notEmpty
  obtain ⟨candidate, token_eq, position, index, line, column⟩ :=
    exists_token_of_isKey isKey starts ends tokens' kept
  have onLine := (unquoted_of_keeps isKey.notEmpty isKey.keeps).onLine
  have rest_eq := Cursor.rest_skip starts
  refine ⟨cursor.skip (c :: text).length, candidate, _, rfl, ?_, ?_, rest_eq, ?_, position, column⟩
  · have shorter := Cursor.length_rest_skip_lt starts (List.cons_ne_nil c text)
    rw [starts] at shorter
    refine reaches_of_token advances starts ?_ (Nat.le_of_lt_succ shorter)
    rw [closes, List.append_eq, token_eq]
  · have isToken : startsToken (cursor.skip (c :: text).length).rest = true := by
      rw [rest_eq]
      rfl
    refine advance_of_near isToken ?_ ?_
    · rw [Cursor.skip_of_rest starts, line, List.countP_eq_zero.2 (by simpa using onLine)]
      rfl
    · rw [Cursor.skip_of_rest starts, index]
      exact Nat.add_le_add_left isKey.short _
  · rw [Cursor.column_skip starts onLine, List.length_cons]
    omega

theorem insertIdx_length {α : Type} (front behind : List α) (a : α) :
    (front ++ behind).insertIdx front.length a = front ++ a :: behind := by
  induction front with
  | nil => rfl
  | cons b front ih => simp [ih]

/-- At the colon the candidate becomes a key, and opens a mapping unless one is open in its
    column. -/
theorem token_colon {candidate : KeyCandidate} {openers : List Token} (token : Token)
    (ends : startsBlank tail = true) (inLine : 0 < cursor.column)
    (place : candidate.position = tokens.length)
    (opens : indents = candidate.column :: outer ∧ openers = [] ∨
      indents = outer ∧ openers = [.blockMapStart] ∧
        ∀ indent ∈ indents.head?, indent < candidate.column) :
    Scan.token ⟨cursor, tokens ++ [token], indents, false, [some candidate]⟩ ':' tail =
      .ok ⟨cursor.skip 1, tokens ++ openers ++ [.key, token, .value], candidate.column :: outer,
        false, [none]⟩ := by
  have noMarker := Cursor.atMarker_eq_false inLine
  have token_eq :
      Scan.token ⟨cursor, tokens ++ [token], indents, false, [some candidate]⟩ ':' tail = colon
        ⟨cursor, tokens ++ [token], indents, false, [some candidate]⟩ := by
    simp [Scan.token, noMarker, ends]
  have key_eq : (tokens ++ [token]).insertIdx tokens.length .key = tokens ++ [.key, token] :=
    insertIdx_length tokens [token] .key
  have map_eq : (tokens ++ [.key, token]).insertIdx tokens.length .blockMapStart =
      tokens ++ [.blockMapStart, .key, token] :=
    insertIdx_length tokens [.key, token] .blockMapStart
  rw [token_eq]
  rcases opens with ⟨rfl, rfl⟩ | ⟨rfl, rfl, shallower⟩
  · simp [colon, openBlock, inFlow, place, key_eq, take, emit, pure, Except.pure]
  · have shallower : indents.head?.all (· < candidate.column) = true := by
      cases indents with
      | nil => rfl
      | cons indent outer => simpa using shallower
    simp [colon, openBlock, inFlow, place, key_eq, map_eq, shallower, take, emit, pure, Except.pure]

/-- A key is read with its colon, in the mapping of its column. -/
theorem exists_reaches_colon (isKey : IsKey key) (ends : startsBlank tail = true)
    (awaits : scan.Awaits tokens indents column (key ++ ':' :: tail)) :
    ∃ cursor : Cursor, cursor.rest = tail ∧ column ≤ cursor.column ∧
      scan.Reaches ⟨cursor, tokens ++ brackets column indents ++
          Token.keyed (String.ofList key), column :: enclosing column indents, false, [none]⟩ := by
  obtain ⟨cursor, advances, starts, rfl⟩ := awaits
  obtain ⟨closers, openers, kept, closes, brackets_eq, opens⟩ :=
    exists_closeBlocks cursor.column indents
  obtain ⟨behind, candidate, word, rfl, reaches, stays, rest_eq, inLine, position, column⟩ :=
    exists_reaches_candidate isKey ends starts advances (closes cursor tokens true)
  obtain ⟨tail_eq, column_succ⟩ := Cursor.skip_one rest_eq (by decide)
  have shallow : ∀ indent ∈ kept.head?, indent ≤ behind.column := by
    intro indent first
    rcases opens with ⟨rfl, -⟩ | ⟨-, -, shallower⟩
    · obtain rfl : cursor.column = indent := by simpa using first
      omega
    · have shallower := shallower indent first
      omega
  rw [← column] at opens brackets_eq ⊢
  have colon_eq := token_colon (.scalar (String.ofList key) true) ends (Nat.zero_lt_of_lt inLine)
    position opens
  refine ⟨behind.skip 1, tail_eq, by omega, reaches.trans
    (reaches_of_token stays rest_eq ?_ (by simp [tail_eq]))⟩
  rw [closeBlocks_of_le shallow, colon_eq, brackets_eq, Token.keyed]
  simp

/-! ## Entries and items -/

variable {key text : String}

/-- Behind a key its value is read. -/
theorem ComesTo.behindKey {tokens' : List Token} {indents' : List Nat} {column' : Nat}
    (comesTo : scan.ComesTo tokens indents column (key.toList ++ ':' :: tail))
    (isKey : IsKey key.toList) (ends : startsBlank tail = true)
    (value : ∀ cursor : Cursor, cursor.rest = tail → column ≤ cursor.column →
      ComesTo ⟨cursor, tokens ++ brackets column indents ++ Token.keyed key,
        column :: enclosing column indents, false, [none]⟩ tokens' indents' column' rest) :
    scan.ComesTo tokens' indents' column' rest := by
  obtain ⟨next, reaches, awaits⟩ := comesTo
  obtain ⟨cursor, starts, deep, later⟩ := exists_reaches_colon isKey ends awaits
  rw [String.ofList_toList] at later
  exact (reaches.trans later).comesTo (value cursor starts deep)

/-- The line of a key and a text. -/
theorem ComesTo.line
    (comesTo : scan.ComesTo tokens indents column (key.toList ++ ':' :: ' ' ::
      ((Scalar.write (column + 2) text).toList ++ (List.replicate width ' ' ++ rest))))
    (isKey : IsKey key.toList) (isToken : startsToken rest = true) (shallow : width ≤ column) :
    scan.ComesTo (tokens ++ brackets column indents ++ Token.keyed key ++ [.ofValue text])
      (column :: enclosing column indents) width rest :=
  comesTo.behindKey isKey rfl fun _ starts deep => comesTo_value text starts isToken shallow deep

/-- The line of a key and a text that is kept plainly. -/
theorem ComesTo.plainLine
    (comesTo : scan.ComesTo tokens indents column (key.toList ++ ':' :: ' ' ::
      (text.toList ++ '\n' :: (List.replicate width ' ' ++ rest))))
    (isKey : IsKey key.toList) (notEmpty : text.toList ≠ [])
    (keeps : Style.plain.keeps text.toList = true)
    (isToken : startsToken rest = true) (shallow : width ≤ column) :
    scan.ComesTo (tokens ++ brackets column indents ++ Token.keyed key ++
        [.scalar text true])
      (column :: enclosing column indents) width rest := by
  refine comesTo.behindKey isKey rfl fun cursor starts deep => ?_
  rw [← String.ofList_toList (s := text)]
  exact comesTo_plain notEmpty keeps starts isToken shallow deep

/-- A key whose value is in the lines below. -/
theorem ComesTo.heading
    (comesTo : scan.ComesTo tokens indents column (key.toList ++ ':' :: '\n' ::
      (List.replicate width ' ' ++ rest)))
    (isKey : IsKey key.toList) (isToken : startsToken rest = true) :
    scan.ComesTo (tokens ++ brackets column indents ++ Token.keyed key)
      (column :: enclosing column indents) width rest :=
  comesTo.behindKey isKey rfl fun _ starts _ => (awaits_of_lineEnd starts isToken (by simp)).comesTo

theorem exists_reaches_emptyList (starts : cursor.rest = ' ' :: '[' :: ']' :: tail)
    (deep : parent ≤ cursor.column) (tokens : List Token) (outer : List Nat) :
    ∃ behind : Cursor, behind.rest = tail ∧
      Reaches ⟨cursor, tokens, parent :: outer, false, [none]⟩
        ⟨behind, tokens ++ [.flowListStart, .flowListEnd], parent :: outer, false, [none]⟩ := by
  have spaced : cursor.rest = List.replicate 1 ' ' ++ '[' :: ']' :: tail := starts
  obtain ⟨opening, column_eq⟩ := Cursor.skip_one starts (by decide)
  have advances : advance ⟨cursor, tokens, parent :: outer, false, [none]⟩ =
      .ok ⟨cursor.skip 1, tokens, parent :: outer, false, [none]⟩ := advance_spaces spaced rfl
  generalize cursor.skip 1 = start at *
  obtain ⟨closing, column_eq'⟩ := Cursor.skip_one opening (by decide)
  have opened : Reaches ⟨cursor, tokens, parent :: outer, false, [none]⟩
      ⟨start.skip 1, tokens ++ [.flowListStart], parent :: outer, true, [none, none]⟩ := by
    have noMarker : ∀ mark, start.atMarker mark = false := Cursor.atMarker_eq_false (by omega)
    refine reaches_of_token advances opening ?_ (by simp [closing])
    rw [closeBlocks_of_le (by simp; omega)]
    simp [token, noMarker, openFlow, markCandidate, take, emit, bind, Except.bind, pure,
      Except.pure]
  have advances : advance
        ⟨start.skip 1, tokens ++ [.flowListStart], parent :: outer, true, [none, none]⟩ =
      .ok ⟨start.skip 1, tokens ++ [.flowListStart], parent :: outer, true, [none, none]⟩ := by
    have starts : (start.skip 1).rest = List.replicate 0 ' ' ++ ']' :: tail := closing
    rw [advance, skipBlanks_spaces starts rfl (Nat.zero_le _)]
    rfl
  generalize start.skip 1 = inside at *
  obtain ⟨ending, -⟩ := Cursor.skip_one closing (by decide)
  have closed : Reaches
      ⟨inside, tokens ++ [.flowListStart], parent :: outer, true, [none, none]⟩
      ⟨inside.skip 1, tokens ++ [.flowListStart, .flowListEnd], parent :: outer, false, [none]⟩ := by
    have noMarker : ∀ mark, inside.atMarker mark = false := Cursor.atMarker_eq_false (by omega)
    refine reaches_of_token advances closing ?_ (by simp [ending])
    simp [closeBlocks, inFlow, token, noMarker, closeFlow, dropCandidate, take, emit, bind,
      Except.bind, pure, Except.pure]
  exact ⟨inside.skip 1, ending, opened.trans closed⟩

/-- The line of a key with an empty list. -/
theorem ComesTo.emptyList
    (comesTo : scan.ComesTo tokens indents column (key.toList ++ ':' :: ' ' :: '[' :: ']' :: '\n' ::
      (List.replicate width ' ' ++ rest)))
    (isKey : IsKey key.toList) (isToken : startsToken rest = true) :
    scan.ComesTo (tokens ++ brackets column indents ++ Token.keyed key ++
        [.flowListStart, .flowListEnd])
      (column :: enclosing column indents) width rest := by
  refine comesTo.behindKey isKey rfl fun cursor starts deep => ?_
  obtain ⟨behind, ending, reaches⟩ := exists_reaches_emptyList starts deep
    (tokens ++ brackets column indents ++ Token.keyed key) (enclosing column indents)
  exact reaches.comesTo (awaits_of_lineEnd ending isToken (by simp)).comesTo

/-- The line of a list item. -/
theorem ComesTo.item
    (comesTo : scan.ComesTo tokens (column :: outer) column ('-' :: ' ' ::
      ((Scalar.write (column + 2) text).toList ++ (List.replicate width ' ' ++ rest))))
    (isToken : startsToken rest = true) (shallow : width ≤ column) :
    scan.ComesTo (tokens ++ [.dash, .ofValue text]) (column :: outer) width rest := by
  obtain ⟨next, reaches, cursor, advances, starts, rfl⟩ := comesTo
  obtain ⟨value, column_eq⟩ := Cursor.skip_one starts (by decide)
  have dashed : next.Reaches
      ⟨cursor.skip 1, tokens ++ [.dash], cursor.column :: outer, true, [none]⟩ := by
    refine reaches_of_token advances starts ?_ (by simp [value])
    rw [closeBlocks_of_le (by simp)]
    simp [token, Cursor.atMarker, starts, startsBlank, isBlank, inFlow, listItem, openBlock,
      dropCandidate, take, emit, bind, Except.bind, pure, Except.pure]
  have item := (reaches.trans dashed).comesTo (comesTo_value text value isToken shallow (by omega))
  rwa [List.append_assoc] at item

end Scan

end LayerComposition.Yaml
