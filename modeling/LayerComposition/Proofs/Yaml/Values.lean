import LayerComposition.Proofs.Yaml.BlockText
import LayerComposition.Proofs.Yaml.PlainText
import LayerComposition.Proofs.Yaml.Progress
import LayerComposition.Proofs.Yaml.QuotedText

/-! # Values

A text that is written behind a key or a dash is one token, whatever its style, and the line behind
it is the next one to be read.
-/

namespace LayerComposition.Yaml

open Scalar

/-- What a text is like for which a style is chosen. -/
inductive Scalar.Style.Suits (text : String) : Style → Prop where
  | plain (clear : isAmbiguous text = false) (keeps : Style.plain.keeps text.toList = true) :
      Suits text .plain
  | singleQuoted (noNewline : '\n' ∉ text.toList)
      (keeps : Style.singleQuoted.keeps text.toList = true) : Suits text .singleQuoted
  | doubleQuoted : Suits text .doubleQuoted
  | block (newline : '\n' ∈ text.toList) (keeps : Style.block.keeps text.toList = true) :
      Suits text .block

theorem Scalar.Style.suits_ofText (text : String) : Style.Suits text (.ofText text) := by
  unfold Style.ofText
  simp only []
  split
  · next newline =>
      have newline : '\n' ∈ text.toList := by simpa using newline
      cases keeps : Style.block.keeps text.toList with
      | false => simpa [List.find?, keeps] using .doubleQuoted
      | true => simpa [List.find?, keeps] using .block newline keeps
  · next noNewline =>
      have noNewline : '\n' ∉ text.toList := by simpa using noNewline
      have quoted : Style.Suits text
          (([Style.singleQuoted].find? (Style.keeps text.toList)).getD .doubleQuoted) := by
        cases keeps : Style.singleQuoted.keeps text.toList with
        | false => simpa [List.find?, keeps] using .doubleQuoted
        | true => simpa [List.find?, keeps] using .singleQuoted noNewline keeps
      split
      · exact quoted
      · next clear =>
          cases keeps : Style.plain.keeps text.toList with
          | false => simpa [List.find?, keeps] using quoted
          | true => simpa [List.find?, keeps] using .plain (by simpa using clear) keeps

theorem Scalar.toList_write (indent : Nat) (text : String) : (Scalar.write indent text).toList =
    endLine (match Style.ofText text with
      | .plain => text.toList
      | .singleQuoted => Scalar.singleQuoted indent text.toList
      | .doubleQuoted => doubleQuoted text.toList
      | .block => Scalar.block indent text.toList) :=
  String.toList_ofList

/-- The token of a text that is written as a value. -/
def Token.ofValue (text : String) : Token :=
  .scalar text (Style.ofText text == .plain)

namespace Scan

variable {cursor : Cursor} {tokens : List Token} {indents outer : List Nat} {keyAllowed : Bool}
  {c : Char} {text rest : List Char} {parent width : Nat}

/-! ## Scalars -/

/-- A scalar in a deeper column than its collection need not be a key. -/
theorem exists_markCandidate (cursor : Cursor) (tokens : List Token) (outer : List Nat)
    (keyAllowed : Bool) (deep : parent < cursor.column) : ∃ candidate?,
    markCandidate ⟨cursor, tokens, parent :: outer, keyAllowed, [none]⟩ =
      .ok ⟨cursor, tokens, parent :: outer, keyAllowed, [candidate?]⟩ ∧
    ∀ candidate ∈ candidate?, candidate.required = false ∧ candidate.line = cursor.line := by
  cases keyAllowed with
  | false => exact ⟨none, rfl, by simp⟩
  | true =>
      have other : (some parent == some cursor.column) = false := by simp; omega
      refine ⟨some ⟨tokens.length, false, cursor.index, cursor.line, cursor.column⟩, ?_, by simp⟩
      simp [markCandidate, dropCandidate, other, bind, Except.bind, pure, Except.pure]

theorem readsTo_plain (unquoted : Unquoted text)
    (starts : cursor.rest = text ++ '\n' :: (List.replicate width ' ' ++ rest))
    (isToken : startsToken rest = true) (shallow : width ≤ parent) (deep : parent < cursor.column) :
    ReadsTo (plain ⟨cursor, tokens, parent :: outer, keyAllowed, [none]⟩) cursor
      (tokens ++ [.scalar (String.ofList text) true]) (parent :: outer) width rest := by
  obtain ⟨candidate?, mark_eq, gone⟩ := exists_markCandidate cursor tokens outer keyAllowed deep
  have read_eq : readPlain false (parent + 1) (cursor.rest.length + 1) cursor [] ⟨[], []⟩ =
      .ok (cursor.skip (text ++ '\n' :: List.replicate width ' ').length, [] ++ [] ++ text, true) :=
    readPlain_of_unquoted unquoted starts (endsGap_of_startsToken isToken)
      (Nat.lt_succ_of_le shallow) deep (by simp [starts]; omega)
  have whole : cursor.rest = (text ++ '\n' :: List.replicate width ' ') ++ rest := by simp [starts]
  have rest_eq := Cursor.rest_skip whole
  have later : cursor.line <
      (cursor.skip (text ++ '\n' :: List.replicate width ' ').length).line := by
    rw [Cursor.skip_of_rest whole]
    simp [isBreak]
  have column : (cursor.skip (text ++ '\n' :: List.replicate width ' ').length).column = width := by
    have lineEnd : (cursor.skip text.length).rest = '\n' :: List.replicate width ' ' ++ rest :=
      Cursor.rest_skip starts
    rw [List.length_append, Cursor.skip_add, Cursor.column_skip_indentation lineEnd (by decide)]
  refine ⟨⟨_, _, _, true, [candidate?]⟩, ?_,
    awaits_of_place rest_eq isToken column fun candidate mem => ?_, ?_⟩
  · simp [plain, mark_eq, inFlow, read_eq, bind, Except.bind, pure, Except.pure, emit]
  · obtain ⟨optional, line⟩ := gone candidate mem
    exact ⟨optional, line ▸ later⟩
  · exact Cursor.length_rest_skip_lt whole (by simp)

theorem readsTo_quoted {quote : Char} {written : List Char} (spells : Spells quote written text)
    (isQuote : quote = '\x27' ∨ quote = '\x22')
    (starts : cursor.rest =
      quote :: (written ++ quote :: '\n' :: (List.replicate width ' ' ++ rest)))
    (isToken : startsToken rest = true) (deep : parent < cursor.column) :
    ReadsTo (quoted ⟨cursor, tokens, parent :: outer, keyAllowed, [none]⟩ quote) cursor
      (tokens ++ [.scalar (String.ofList text) false]) (parent :: outer) width rest := by
  obtain ⟨candidate?, mark_eq, gone⟩ := exists_markCandidate cursor tokens outer keyAllowed deep
  have onLine : isBreak quote = false := by rcases isQuote with rfl | rfl <;> decide
  have starts' : cursor.rest = [] ++ [quote] ++
      (written ++ quote :: '\n' :: (List.replicate width ' ' ++ rest)) := starts
  have room : written.length < cursor.rest.length := by
    simp only [starts, List.length_append, List.length_cons]
    omega
  have read_eq : readQuoted quote cursor.rest.length cursor.next [] =
      .ok (cursor.next.skip (written.length + 1), [] ++ text) :=
    readQuoted_of_spells spells isQuote (Cursor.rest_next starts) (by simp)
      (Cursor.column_skip_pos starts' onLine) room
  have whole : cursor.rest = (quote :: (written ++ [quote])) ++
      ('\n' :: List.replicate width ' ' ++ rest) := by simp [starts]
  have behind : cursor.next.skip (written.length + 1) =
      cursor.skip (quote :: (written ++ [quote])).length := by simp [Cursor.skip]
  have rest_eq := Cursor.rest_skip whole
  have later : cursor.line ≤ (cursor.skip (quote :: (written ++ [quote])).length).line := by
    rw [Cursor.skip_of_rest whole]
    exact Nat.le_add_right _ _
  refine ⟨⟨_, _, _, false, [candidate?]⟩, ?_,
    awaits_of_lineEnd rest_eq isToken fun candidate mem => ?_, ?_⟩
  · simp [quoted, mark_eq, read_eq, behind, bind, Except.bind, pure, Except.pure, emit]
  · obtain ⟨optional, line⟩ := gone candidate mem
    exact ⟨optional, line ▸ later⟩
  · exact Cursor.length_rest_skip_lt whole (by simp)

theorem exists_endLine_block (indent : Nat) (text : List Char) :
    ∃ more, endLine (Scalar.block indent text) = '|' :: more := by
  unfold endLine
  split
  · exact ⟨_, rfl⟩
  · exact ⟨_, rfl⟩

theorem readsTo_block (notEmpty : text ≠ []) (noTab : '\t' ∉ text)
    (starts : cursor.rest =
      endLine (Scalar.block (parent + 2) text) ++ (List.replicate width ' ' ++ rest))
    (isToken : startsToken rest = true) (shallow : width ≤ parent) :
    ReadsTo (block ⟨cursor, tokens, parent :: outer, keyAllowed, [none]⟩ false) cursor
      (tokens ++ [.scalar (String.ofList text) false]) (parent :: outer) width rest := by
  obtain ⟨more, head⟩ := exists_endLine_block (parent + 2) text
  have starts' : cursor.rest = '|' :: (more ++ (List.replicate width ' ' ++ rest)) := by
    rw [starts, head, List.cons_append]
  obtain ⟨after, read_eq, rest_eq, column⟩ : ∃ after,
      readBlockText false (some parent) cursor.next = .ok (after, text) ∧ after.rest = rest ∧
        after.column = width := by
    refine exists_readBlockText notEmpty noTab ?_ (by omega) (endsGap_of_startsToken isToken)
    rw [Cursor.rest_next starts', ← starts', starts]
  refine ⟨⟨_, _, _, true, [none]⟩, ?_, awaits_of_place rest_eq isToken column (by simp), ?_⟩
  · simp [block, dropCandidate, read_eq, bind, Except.bind, pure, Except.pure, emit]
  · simp [rest_eq, starts']
    omega

/-! ## Values -/

/-- What is kept plainly starts like a plain text, whatever stands behind it. -/
theorem token_of_keeps (keeps : Style.plain.keeps (c :: text) = true)
    (noMarker : cursor.atDocumentMarker = false) (tail : List Char) :
    token ⟨cursor, tokens, indents, keyAllowed, [none]⟩ c (text ++ tail) =
      plain ⟨cursor, tokens, indents, keyAllowed, [none]⟩ := by
  have unquoted := unquoted_of_keeps (List.cons_ne_nil c text) keeps
  simp only [Style.keeps, hasIndicator, Bool.and_eq_true, Bool.not_eq_true',
    Bool.or_eq_false_iff] at keeps
  obtain ⟨⟨⟨⟨leading, start⟩, -⟩, -⟩, -⟩ := keeps.2
  have goesOn (indicates : c = '?' ∨ c = ':' ∨ c = '-') : startsBlank (text ++ tail) = false := by
    have solid : startsBlank text = false := by
      rcases indicates with rfl | rfl | rfl <;> simpa using start
    cases text with
    | nil => contradiction
    | cons d more => exact solid
  have notBlank : isBlank c = false := by
    obtain ⟨d, others, same, notBlank, -⟩ := unquoted.exists_start
    obtain ⟨rfl, rfl⟩ := List.cons.inj same
    exact notBlank
  have noMarker := Bool.or_eq_false_iff.1 noMarker
  simp only [isLeadingIndicator, List.contains_cons, List.contains_nil, Bool.or_false,
    Bool.or_eq_false_iff, beq_eq_false_iff_ne] at leading
  generalize text ++ tail = rest at goesOn
  by_cases indicates : c = '?' ∨ c = ':' ∨ c = '-'
  · have goesOn := goesOn indicates
    obtain ⟨d, rest, rfl⟩ : ∃ d others, rest = d :: others := by
      cases rest with
      | nil => contradiction
      | cons d others => exact ⟨d, others, rfl⟩
    have solid : isBlank d = false := (Bool.or_eq_false_iff.1 goesOn).1
    rcases indicates with rfl | rfl | rfl <;>
      simp [token, noMarker, goesOn, inFlow, canStartPlain, solid]
  · simp only [not_or] at indicates
    simp [token, noMarker, leading, indicates, inFlow, canStartPlain, notBlank, isFlowIndicator]

theorem startsToken_of_keeps (notEmpty : text ≠ []) (keeps : Style.plain.keeps text = true)
    (tail : List Char) : startsToken (text ++ tail) = true := by
  obtain ⟨c, more, rfl, notBlank, onLine, notSign⟩ :=
    (unquoted_of_keeps notEmpty keeps).exists_start
  have notMark : c ≠ '\ufeff' := by
    rintro rfl
    simp [Style.keeps, needsEscape, isPrintable] at keeps
  simp [startsToken, notBlank, notSign, onLine, notMark]

/-- Behind a space a token is read in the column of what follows. -/
theorem comesTo_of_space {tokens' : List Token} (starts : cursor.rest = ' ' :: c :: text)
    (isToken : startsToken (c :: text) = true) (deep : parent ≤ cursor.column)
    (readsTo : ∀ next : Cursor, next.rest = c :: text → parent < next.column →
      ReadsTo (token ⟨next, tokens, parent :: outer, keyAllowed, [none]⟩ c text) next tokens'
        (parent :: outer) width rest) :
    ComesTo ⟨cursor, tokens, parent :: outer, keyAllowed, [none]⟩ tokens' (parent :: outer) width
      rest := by
  have starts : cursor.rest = List.replicate 1 ' ' ++ c :: text := starts
  obtain ⟨rest_eq, column⟩ := Cursor.skip_spaces starts
  exact (readsTo _ rest_eq (by omega)).comesTo (advance_spaces starts isToken) rest_eq (by omega)

/-- A text that is kept plainly is read behind a space. -/
theorem comesTo_plain (notEmpty : text ≠ []) (keeps : Style.plain.keeps text = true)
    (starts : cursor.rest = ' ' :: (text ++ '\n' :: (List.replicate width ' ' ++ rest)))
    (isToken : startsToken rest = true) (shallow : width ≤ parent) (deep : parent ≤ cursor.column) :
    ComesTo ⟨cursor, tokens, parent :: outer, keyAllowed, [none]⟩
      (tokens ++ [.scalar (String.ofList text) true]) (parent :: outer) width rest := by
  have unquoted := unquoted_of_keeps notEmpty keeps
  have first := startsToken_of_keeps notEmpty keeps ('\n' :: (List.replicate width ' ' ++ rest))
  obtain ⟨c, more, rfl⟩ := List.exists_cons_of_ne_nil notEmpty
  rw [List.cons_append] at starts first
  refine comesTo_of_space starts first deep fun next starts inLine => ?_
  rw [token_of_keeps keeps (Cursor.atDocumentMarker_eq_false (Nat.zero_lt_of_lt inLine))]
  exact readsTo_plain unquoted starts isToken shallow inLine

theorem comesTo_quoted {quote : Char} {written : List Char} (spells : Spells quote written text)
    (isQuote : quote = '\x27' ∨ quote = '\x22')
    (starts : cursor.rest =
      ' ' :: (endLine (quote :: written ++ [quote]) ++ (List.replicate width ' ' ++ rest)))
    (isToken : startsToken rest = true) (deep : parent ≤ cursor.column) :
    ComesTo ⟨cursor, tokens, parent :: outer, keyAllowed, [none]⟩
      (tokens ++ [.scalar (String.ofList text) false]) (parent :: outer) width rest := by
  have first (tail : List Char) : startsToken (quote :: tail) = true := by
    rcases isQuote with rfl | rfl <;> rfl
  have ended : endLine (quote :: written ++ [quote]) = quote :: written ++ [quote] ++ ['\n'] := by
    refine endLine_of_onLine fun c last => ?_
    rw [List.getLast?_concat, Option.mem_some_iff] at last
    obtain rfl := last
    rcases isQuote with rfl | rfl <;> rfl
  have starts : cursor.rest =
      ' ' :: quote :: (written ++ quote :: '\n' :: (List.replicate width ' ' ++ rest)) := by
    rw [starts, ended]
    simp
  refine comesTo_of_space starts (first _) deep fun next starts inLine => ?_
  have token_eq (tail : List Char) :
      token ⟨next, tokens, parent :: outer, keyAllowed, [none]⟩ quote tail =
        quoted ⟨next, tokens, parent :: outer, keyAllowed, [none]⟩ quote := by
    have inLine : 0 < next.column := Nat.zero_lt_of_lt inLine
    rcases isQuote with rfl | rfl <;> simp [token, Cursor.atMarker_eq_false inLine, inFlow]
  rw [token_eq]
  exact readsTo_quoted spells isQuote starts isToken inLine

theorem comesTo_block (notEmpty : text ≠ []) (noTab : '\t' ∉ text)
    (starts : cursor.rest =
      ' ' :: (endLine (Scalar.block (parent + 2) text) ++ (List.replicate width ' ' ++ rest)))
    (isToken : startsToken rest = true) (shallow : width ≤ parent) (deep : parent ≤ cursor.column) :
    ComesTo ⟨cursor, tokens, parent :: outer, keyAllowed, [none]⟩
      (tokens ++ [.scalar (String.ofList text) false]) (parent :: outer) width rest := by
  obtain ⟨more, head⟩ := exists_endLine_block (parent + 2) text
  rw [head, List.cons_append] at starts
  refine comesTo_of_space starts rfl deep fun next starts inLine => ?_
  have token_eq (tail : List Char) :
      token ⟨next, tokens, parent :: outer, keyAllowed, [none]⟩ '|' tail =
        block ⟨next, tokens, parent :: outer, keyAllowed, [none]⟩ false := by
    simp [token, Cursor.atMarker_eq_false (Nat.zero_lt_of_lt inLine), inFlow]
  rw [token_eq]
  rw [← List.cons_append, ← head] at starts
  exact readsTo_block notEmpty noTab starts isToken shallow

/-- What is written for a text is read behind a space. -/
theorem comesTo_value (text : String)
    (starts : cursor.rest =
      ' ' :: ((Scalar.write (parent + 2) text).toList ++ (List.replicate width ' ' ++ rest)))
    (isToken : startsToken rest = true) (shallow : width ≤ parent) (deep : parent ≤ cursor.column) :
    ComesTo ⟨cursor, tokens, parent :: outer, keyAllowed, [none]⟩ (tokens ++ [.ofValue text])
      (parent :: outer) width rest := by
  have suits := Style.suits_ofText text
  rw [Scalar.toList_write] at starts
  unfold Token.ofValue
  generalize Style.ofText text = style at suits starts
  rw [← String.ofList_toList (s := text)]
  cases suits with
  | plain clear keeps =>
      have notEmpty : text.toList ≠ [] := by
        intro empty
        obtain rfl := String.toList_eq_nil_iff.1 empty
        contradiction
      have onLine := (unquoted_of_keeps notEmpty keeps).onLine
      refine comesTo_plain notEmpty keeps ?_ isToken shallow deep
      rw [starts, endLine_of_onLine fun c last => onLine c (List.mem_of_getLast? last)]
      simp
  | singleQuoted noNewline keeps =>
      obtain ⟨written, spells, -, written_eq⟩ :=
        exists_spells_single (quotable_of_keeps noNewline keeps) (Nat.succ_pos (parent + 1))
      refine comesTo_quoted spells (.inl rfl) ?_ isToken deep
      have quoted_eq := singleQuoted_eq (parent + 2) text.toList
      rw [written_eq] at quoted_eq
      simpa only [quoted_eq, List.cons_append] using starts
  | doubleQuoted =>
      exact comesTo_quoted (spells_double text.toList) (.inr rfl) starts isToken deep
  | block newline keeps =>
      have notEmpty : text.toList ≠ [] := List.ne_nil_of_mem newline
      simp only [Style.keeps, Bool.and_eq_true, Bool.not_eq_true'] at keeps
      exact comesTo_block notEmpty (noTab_of_needsEscape keeps.1) starts isToken shallow deep

end Scan

end LayerComposition.Yaml
