import Mathlib.Data.List.TakeWhile
import LayerComposition.Proofs.Yaml.Entries

/-! # Whole documents

What is written holds only characters that need no escape, so that it is read as it stands, from the
start of its first line to the end, where all that is open is closed.
-/

namespace LayerComposition.Yaml

open Scalar

variable {c : Char} {text : List Char} {tokens : List Token} {indents : List Nat}

/-! ## Characters -/

namespace Scalar

theorem mem_of_mem_indentLines {indent : Nat} {behindEnd : Bool}
    (mem : c ∈ indentLines indent behindEnd text) : c ∈ text ∨ c = ' ' := by
  induction text generalizing behindEnd with
  | nil => cases mem
  | cons d rest ih =>
      rw [indentLines] at mem
      split at mem
      · rcases List.mem_cons.1 mem with rfl | mem
        · exact .inl List.mem_cons_self
        · exact (ih mem).imp_left (.tail d)
      · rcases List.mem_append.1 mem with indentation | mem
        · split at indentation
          · exact .inr (List.mem_replicate.1 indentation).2
          · cases indentation
        · rcases List.mem_cons.1 mem with rfl | mem
          · exact .inl List.mem_cons_self
          · exact (ih mem).imp_left (.tail d)

theorem isPrintable_of_mem_indentLines {indent : Nat} {behindEnd : Bool}
    (printable : ∀ c ∈ text, isPrintable c = true)
    (mem : c ∈ indentLines indent behindEnd text) : isPrintable c = true := by
  rcases mem_of_mem_indentLines mem with mem | rfl
  · exact printable c mem
  · rfl

theorem isPrintable_of_needsEscape (plainly : needsEscape text = false) :
    ∀ c ∈ text, isPrintable c = true := by
  intro c mem
  simpa using List.any_eq_false.1 (Bool.or_eq_false_iff.1 plainly).1 c mem

theorem isPrintable_of_mem_doubleQuotes (printable : ∀ c ∈ text, isPrintable c = true)
    (mem : c ∈ doubleQuotes text) : isPrintable c = true := by
  obtain ⟨d, mem, doubled⟩ := List.mem_flatMap.1 mem
  split at doubled
  · obtain rfl : c = '\x27' := by simpa using doubled
    rfl
  · obtain rfl := List.mem_singleton.1 doubled
    exact printable c mem

theorem isPrintable_of_mem_escape {d : Char} (mem : d ∈ escape c) : isPrintable d = true := by
  rcases escape_cases c with ⟨kept, printable, -⟩ | ⟨code, coded, escaped⟩
  · rw [kept, List.mem_singleton] at mem
    exact mem ▸ printable
  · rw [coded] at mem
    rcases List.mem_cons.1 mem with rfl | mem
    · rfl
    · exact escaped.printable d mem

theorem isPrintable_of_mem_block {indent : Nat} (notEmpty : text ≠ [])
    (printable : ∀ c ∈ text, isPrintable c = true) (mem : c ∈ Scalar.block indent text) :
    isPrintable c = true := by
  obtain ⟨mark, chomping, kind, written⟩ := exists_ends notEmpty indent
  have inMark : ∀ c ∈ mark, isPrintable c = true := by
    cases kind <;> simp [isPrintable]
  have inHead : ∀ c ∈ if text.head?.any fun c => c == ' ' || isBreak c then ['2'] else [],
      isPrintable c = true := by
    split <;> simp [isPrintable]
  rw [written, List.mem_cons, List.mem_append, List.mem_append, List.mem_cons] at mem
  rcases mem with rfl | (head | mark) | rfl | line
  · rfl
  · exact inHead c head
  · exact inMark c mark
  · rfl
  · exact isPrintable_of_mem_indentLines printable line

theorem isPrintable_of_mem_endLine (printable : ∀ c ∈ text, isPrintable c = true)
    (mem : c ∈ endLine text) : isPrintable c = true := by
  unfold endLine at mem
  split at mem
  · exact printable c mem
  · rcases List.mem_append.1 mem with mem | lineEnd
    · exact printable c mem
    · obtain rfl := List.mem_singleton.1 lineEnd
      rfl

/-- What is written for a text needs no escape. -/
theorem isPrintable_of_mem_write {indent : Nat} {text : String}
    (mem : c ∈ (Scalar.write indent text).toList) : isPrintable c = true := by
  have suits := Style.suits_ofText text
  rw [toList_write] at mem
  refine isPrintable_of_mem_endLine (fun d mem => ?_) mem
  generalize Style.ofText text = style at suits mem
  cases suits with
  | plain clear keeps =>
      simp only [Style.keeps, Bool.and_eq_true, Bool.not_eq_true'] at keeps
      exact isPrintable_of_needsEscape keeps.1.1.1.1 d mem
  | singleQuoted noNewline keeps =>
      simp only [Style.keeps, Bool.and_eq_true, Bool.not_eq_true'] at keeps
      have printable := isPrintable_of_needsEscape keeps.1
      rw [singleQuoted_eq] at mem
      rcases List.mem_cons.1 mem with rfl | mem
      · rfl
      · refine isPrintable_of_mem_indentLines (fun c mem => ?_) mem
        rcases List.mem_append.1 mem with doubled | quote
        · exact isPrintable_of_mem_doubleQuotes printable doubled
        · obtain rfl := List.mem_singleton.1 quote
          rfl
  | doubleQuoted =>
      rw [doubleQuoted, List.mem_append, List.mem_append, List.mem_singleton] at mem
      rcases mem with (rfl | mem) | rfl
      · rfl
      · obtain ⟨c, -, mem⟩ := List.mem_flatMap.1 mem
        exact isPrintable_of_mem_escape mem
      · rfl
  | block newline keeps =>
      simp only [Style.keeps, Bool.and_eq_true, Bool.not_eq_true'] at keeps
      exact isPrintable_of_mem_block (List.ne_nil_of_mem newline)
        (isPrintable_of_needsEscape keeps.1) mem

end Scalar

theorem uniformLines_of_printable (printable : ∀ c ∈ text, isPrintable c = true) :
    uniformLines text = text := by
  induction text with
  | nil => rfl
  | cons c rest ih =>
      have first : c ≠ '\r' ∧ c ≠ '\u0085' := by
        have printable := printable c List.mem_cons_self
        constructor <;> rintro rfl <;> contradiction
      have later := ih fun d mem => printable d (.tail c mem)
      rw [uniformLines]
      · simp [first, later]
      · rintro _ rfl
        exact absurd rfl first.1

theorem isAllowed_of_printable (printable : isPrintable c = true) : isAllowed c = true := by
  simp only [isPrintable, isAllowed, Bool.or_eq_true, Bool.and_eq_true, beq_iff_eq,
    decide_eq_true_eq] at printable ⊢
  omega

/-! ## Documents -/

theorem Scan.comesTo_start (isToken : startsToken text = true) :
    (Scan.start text).ComesTo [] [] 0 text :=
  (awaits_of_place rfl isToken rfl (by simp)).comesTo

/-- What is written is cut into the tokens that reading comes to, and the collections that are open
    then end. -/
theorem Token.ofText_of_comesTo {text : String}
    (printable : ∀ c ∈ text.toList, isPrintable c = true)
    (comesTo : (Scan.start text.toList).ComesTo tokens indents 0 []) :
    Token.ofText text = .ok (tokens ++ indents.map fun _ => .blockEnd) := by
  have allowed : (text.toList.any fun c => !isAllowed c) = false := by
    refine List.any_eq_false.2 fun c mem => ?_
    simp [isAllowed_of_printable (printable c mem)]
  obtain ⟨next, reaches, cursor, advances, ended, -⟩ := comesTo
  obtain ⟨size, -, same⟩ := reaches (Scan.start text.toList).cursor.rest.length (Nat.le_refl _)
  have all : indents.takeWhile (fun _ => true) = indents :=
    List.takeWhile_eq_self_iff.2 fun _ _ => rfl
  have finished : (Scan.start text.toList).toEnd (Scan.start text.toList).cursor.rest.length =
      .ok ⟨cursor, tokens ++ indents.map fun _ => .blockEnd, [], true, [none]⟩ := by
    rw [same, Scan.toEnd_of_end advances ended]
    simp [Scan.finish, Scan.closeBlocks, Scan.inFlow, Scan.dropCandidate, all]
  simp [Token.ofText, allowed, uniformLines_of_printable printable, finished, bind, Except.bind,
    pure, Except.pure]

end LayerComposition.Yaml
