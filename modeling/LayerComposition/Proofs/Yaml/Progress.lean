import LayerComposition.Proofs.Yaml.Cursors
import LayerComposition.Yaml.Token

/-! # How reading tokens goes on

Reading goes from token to token. Behind what is written for an entry the next line is looked at
from its first character, and what was a candidate for a key is forgotten.
-/

namespace LayerComposition.Yaml

open Scalar

namespace Scan

variable {scan ready next : Scan} {c : Char} {rest tail text : List Char} {size : Nat}

/-- That reading on from one scan is reading on from another one. -/
def Reaches (scan next : Scan) : Prop :=
  ∀ size, scan.cursor.rest.length ≤ size → ∃ size', next.cursor.rest.length ≤ size' ∧
    scan.toEnd size = next.toEnd size'

theorem Reaches.trans (first : scan.Reaches ready) (second : ready.Reaches next) :
    scan.Reaches next := by
  intro size enough
  obtain ⟨size', enough', same⟩ := first size enough
  obtain ⟨size'', enough'', same'⟩ := second size' enough'
  exact ⟨size'', enough'', same.trans same'⟩

theorem length_skipBlanks_le (size : Nat) (inComment : Bool) (scan : Scan) :
    (scan.skipBlanks size inComment).cursor.rest.length ≤ scan.cursor.rest.length := by
  induction size generalizing scan inComment with
  | zero => exact Nat.le_refl _
  | succ size ih =>
      rw [skipBlanks]
      cases starts : scan.cursor.rest with
      | nil => simp [starts]
      | cons c rest =>
          have next : scan.cursor.next.rest.length ≤ rest.length :=
            Nat.le_of_eq (congrArg List.length (Cursor.rest_next starts))
          have shorter (inComment : Bool) (past : Scan) (same : past.cursor = scan.cursor.next) :
              (past.skipBlanks size inComment).cursor.rest.length ≤ rest.length + 1 := by
            have less := ih inComment past
            rw [same] at less
            omega
          simp only [List.length_cons]
          split
          · exact shorter _ _ rfl
          · split
            · exact shorter _ _ rfl
            · split
              · exact shorter _ _ rfl
              · simp [starts]

theorem cursor_of_dropStale (dropped : scan.dropStale = .ok ready) :
    ready.cursor = scan.cursor := by
  unfold dropStale at dropped
  simp only [bind, Except.bind, pure, Except.pure] at dropped
  split at dropped
  · contradiction
  · obtain rfl := Except.ok.inj dropped
    rfl

theorem reaches_of_token (advances : scan.advance = .ok ready)
    (starts : ready.cursor.rest = c :: rest)
    (token_eq : (ready.closeBlocks (some ready.cursor.column)).token c rest = .ok next)
    (shorter : next.cursor.rest.length ≤ rest.length) : scan.Reaches next := by
  intro size enough
  have less := length_skipBlanks_le scan.cursor.rest.length false scan
  rw [← cursor_of_dropStale advances, starts, List.length_cons] at less
  obtain ⟨size, rfl⟩ := Nat.exists_eq_add_of_le' (Nat.le_trans less enough)
  refine ⟨size + rest.length, by omega, ?_⟩
  rw [← Nat.add_assoc, toEnd]
  simp only [advances, starts, token_eq, bind, Except.bind]

/-- Where nothing follows the tokens are complete. -/
theorem toEnd_of_end (advances : scan.advance = .ok ready) (ended : ready.cursor.rest = [])
    (size : Nat) : scan.toEnd size = ready.finish := by
  cases size with
  | zero => simp [toEnd, advances, ended, bind, Except.bind]
  | succ size => simp [toEnd, advances, ended, bind, Except.bind]

/-! ## The start of a line -/

/-- Whether no blank, line end or comment comes first. -/
def startsToken (rest : List Char) : Bool :=
  rest.head?.all fun c => !isBlank c && !isBreak c && c != '#' && c != '\ufeff'

theorem endsGap_of_startsToken (starts : startsToken rest = true) : endsGap rest = true := by
  cases rest with
  | nil => rfl
  | cons c more =>
      simp only [startsToken, endsGap, List.head?_cons, Option.all_some, Bool.and_eq_true]
        at starts ⊢
      exact starts.1.1

variable {cursor : Cursor} {tokens : List Token} {indents : List Nat} {keyAllowed : Bool}
  {candidate? : Option KeyCandidate} {width : Nat}

theorem skipBlanks_spaces {candidates : List (Option KeyCandidate)}
    (starts : cursor.rest = List.replicate width ' ' ++ rest) (isToken : startsToken rest = true)
    (enough : width ≤ size) :
    skipBlanks size false ⟨cursor, tokens, indents, keyAllowed, candidates⟩ =
      ⟨cursor.skip width, tokens, indents, keyAllowed, candidates⟩ := by
  induction width generalizing cursor size with
  | zero =>
      have starts : cursor.rest = rest := starts
      cases size with
      | zero => rfl
      | succ size =>
          rw [skipBlanks]
          cases rest with
          | nil => simp [starts, Cursor.skip]
          | cons c more =>
              obtain ⟨⟨⟨notBlank, onLine⟩, notSign⟩, notMark⟩ : ((isBlank c = false ∧
                  isBreak c = false) ∧ c ≠ '#') ∧ c ≠ '\ufeff' := by
                simpa [startsToken] using isToken
              have notSpace : c ≠ ' ' ∧ c ≠ '\t' := by simpa [isBlank] using notBlank
              simp [starts, onLine, notSign, notMark, notSpace, Cursor.skip]
  | succ width ih =>
      obtain ⟨size, rfl⟩ := Nat.exists_eq_add_of_le' enough
      have starts : cursor.rest = ' ' :: (List.replicate width ' ' ++ rest) := starts
      have onLine : isBreak ' ' = false := by decide
      rw [← Nat.add_assoc, skipBlanks]
      simp only [starts, onLine]
      exact ih (Cursor.rest_next starts) (Nat.le_add_left width size)

theorem skipBlanks_lineEnd (starts : cursor.rest = '\n' :: List.replicate width ' ' ++ rest)
    (isToken : startsToken rest = true) (enough : width < size) :
    skipBlanks size false ⟨cursor, tokens, indents, keyAllowed, [candidate?]⟩ =
      ⟨cursor.skip ('\n' :: List.replicate width ' ').length, tokens, indents, true,
        [candidate?]⟩ := by
  obtain ⟨size, rfl⟩ := Nat.exists_eq_add_of_le' enough
  have breaks : isBreak '\n' = true := by decide
  have notFlow :
      (keyAllowed || !inFlow ⟨cursor, tokens, indents, keyAllowed, [candidate?]⟩) = true := by
    simp [inFlow]
  rw [Nat.add_succ, skipBlanks]
  simp only [starts, List.cons_append, breaks, if_true, notFlow]
  rw [skipBlanks_spaces (Cursor.rest_next starts) isToken (Nat.le_add_left width size)]
  simp [Cursor.skip]

/-- A candidate of an earlier line is forgotten. -/
theorem dropStale_of_gone
    (gone : ∀ candidate ∈ candidate?, candidate.required = false ∧ candidate.line < cursor.line) :
    dropStale ⟨cursor, tokens, indents, keyAllowed, [candidate?]⟩ =
      .ok ⟨cursor, tokens, indents, keyAllowed, [none]⟩ := by
  cases candidate? with
  | none => rfl
  | some candidate =>
      obtain ⟨optional, earlier⟩ := gone candidate rfl
      simp [dropStale, optional, earlier, bind, Except.bind, pure, Except.pure]

/-- A candidate of this line is kept if it is not too far away. -/
theorem dropStale_of_near {candidate : KeyCandidate} (sameLine : candidate.line = cursor.line)
    (near : cursor.index ≤ candidate.index + maxKeyDistance) :
    dropStale ⟨cursor, tokens, indents, keyAllowed, [some candidate]⟩ =
      .ok ⟨cursor, tokens, indents, keyAllowed, [some candidate]⟩ := by
  simp [dropStale, sameLine, Nat.not_lt_of_le near, bind, Except.bind, pure, Except.pure]

/-- That the next line is looked at from its first character, in a column and with nothing
    pending. -/
def Awaits (scan : Scan) (tokens : List Token) (indents : List Nat) (column : Nat)
    (rest : List Char) : Prop :=
  ∃ cursor : Cursor, scan.advance = .ok ⟨cursor, tokens, indents, true, [none]⟩ ∧
    cursor.rest = rest ∧ cursor.column = column

/-- That reading comes to such a line. -/
def ComesTo (scan : Scan) (tokens : List Token) (indents : List Nat) (column : Nat)
    (rest : List Char) : Prop :=
  ∃ next : Scan, scan.Reaches next ∧ next.Awaits tokens indents column rest

theorem Reaches.refl (scan : Scan) : scan.Reaches scan :=
  fun size enough => ⟨size, enough, rfl⟩

theorem Awaits.comesTo {column : Nat} (awaits : scan.Awaits tokens indents column rest) :
    scan.ComesTo tokens indents column rest :=
  ⟨scan, .refl scan, awaits⟩

theorem Reaches.comesTo {column : Nat} (reaches : scan.Reaches next)
    (comesTo : next.ComesTo tokens indents column rest) :
    scan.ComesTo tokens indents column rest := by
  obtain ⟨last, later, awaits⟩ := comesTo
  exact ⟨last, reaches.trans later, awaits⟩

theorem awaits_of_place (starts : cursor.rest = rest) (isToken : startsToken rest = true)
    (column : cursor.column = width)
    (gone : ∀ candidate ∈ candidate?, candidate.required = false ∧ candidate.line < cursor.line) :
    Awaits ⟨cursor, tokens, indents, true, [candidate?]⟩ tokens indents width rest := by
  have starts' : cursor.rest = List.replicate 0 ' ' ++ rest := starts
  refine ⟨cursor, ?_, starts, column⟩
  rw [advance, skipBlanks_spaces starts' isToken (Nat.zero_le _)]
  exact dropStale_of_gone gone

theorem awaits_of_lineEnd (starts : cursor.rest = '\n' :: List.replicate width ' ' ++ rest)
    (isToken : startsToken rest = true)
    (gone : ∀ candidate ∈ candidate?, candidate.required = false ∧ candidate.line ≤ cursor.line) :
    Awaits ⟨cursor, tokens, indents, keyAllowed, [candidate?]⟩ tokens indents width rest := by
  have later : cursor.line < (cursor.skip ('\n' :: List.replicate width ' ').length).line := by
    rw [Cursor.skip_of_rest starts]
    simp [isBreak]
  have room : width < cursor.rest.length := by
    simp only [starts, List.length_append, List.length_cons, List.length_replicate]
    omega
  refine ⟨_, ?_, Cursor.rest_skip starts, Cursor.column_skip_indentation starts (by decide)⟩
  rw [advance, skipBlanks_lineEnd starts isToken room]
  refine dropStale_of_gone fun candidate mem => ?_
  obtain ⟨optional, earlier⟩ := gone candidate mem
  exact ⟨optional, Nat.lt_of_le_of_lt earlier later⟩

theorem advance_spaces (starts : cursor.rest = List.replicate width ' ' ++ rest)
    (isToken : startsToken rest = true) :
    advance ⟨cursor, tokens, indents, keyAllowed, [none]⟩ =
      .ok ⟨cursor.skip width, tokens, indents, keyAllowed, [none]⟩ := by
  rw [advance, skipBlanks_spaces starts isToken (by simp [starts])]
  exact dropStale_of_gone (by simp)

theorem advance_of_near {candidate : KeyCandidate} (isToken : startsToken cursor.rest = true)
    (sameLine : candidate.line = cursor.line)
    (near : cursor.index ≤ candidate.index + maxKeyDistance) :
    advance ⟨cursor, tokens, indents, keyAllowed, [some candidate]⟩ =
      .ok ⟨cursor, tokens, indents, keyAllowed, [some candidate]⟩ := by
  have starts : cursor.rest = List.replicate 0 ' ' ++ cursor.rest := rfl
  rw [advance, skipBlanks_spaces starts isToken (Nat.zero_le _)]
  exact dropStale_of_near sameLine near

/-- A collection stays open in its own column and in deeper ones. -/
theorem closeBlocks_of_le {column : Nat} (deep : ∀ indent ∈ indents.head?, indent ≤ column) :
    closeBlocks ⟨cursor, tokens, indents, keyAllowed, [candidate?]⟩ (some column) =
      ⟨cursor, tokens, indents, keyAllowed, [candidate?]⟩ := by
  cases indents with
  | nil => simp [closeBlocks, inFlow]
  | cons indent outer => simp [closeBlocks, inFlow, Nat.not_lt_of_le (deep indent rfl)]

/-- That a token is read and the next line is looked at behind it. -/
def ReadsTo (outcome : Except Error Scan) (cursor : Cursor) (tokens : List Token)
    (indents : List Nat) (column : Nat) (rest : List Char) : Prop :=
  ∃ next : Scan, outcome = .ok next ∧ next.Awaits tokens indents column rest ∧
    next.cursor.rest.length < cursor.rest.length

theorem ReadsTo.comesTo {parent column : Nat} {outer : List Nat} {tokens' : List Token}
    (advances : scan.advance = .ok ⟨cursor, tokens, parent :: outer, keyAllowed, [candidate?]⟩)
    (starts : cursor.rest = c :: rest) (deep : parent ≤ cursor.column)
    (readsTo : ReadsTo (token ⟨cursor, tokens, parent :: outer, keyAllowed, [candidate?]⟩ c rest)
      cursor tokens' indents column tail) :
    scan.ComesTo tokens' indents column tail := by
  obtain ⟨next, token_eq, awaits, shorter⟩ := readsTo
  rw [starts, List.length_cons] at shorter
  refine ⟨next, reaches_of_token advances starts ?_ (Nat.le_of_lt_succ shorter), awaits⟩
  rw [closeBlocks_of_le (by simpa using deep), token_eq]

end Scan

end LayerComposition.Yaml
