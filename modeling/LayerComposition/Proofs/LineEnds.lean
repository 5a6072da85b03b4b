import Mathlib.Data.List.Forall2
import LayerComposition.Validation

/-! # Line ends

How lines end is of no account. A carriage return in front of a newline is a blank at the end of a
line, which is trimmed away, and a newline at the end of a text only opens a line that is blank.
So the lines that are read are those between newlines, trimmed, with blank ones left out but
counted.
-/

namespace LayerComposition

namespace Text

theorem trim_concat_of_isBlank {c : Char} (blank : isBlank c = true) (cs : List Char) :
    trim (cs ++ [c]) = trim cs := by
  have back (rest : List Char) : trimEnd (rest ++ [c]) = trimEnd rest := by
    simp [trimEnd, trimStart, blank]
  rw [trim, trim, trimStart, trimStart, List.dropWhile_append]
  split
  · rename_i nothing
    rw [List.isEmpty_iff.1 nothing, List.dropWhile_cons_of_pos blank]
    rfl
  · exact back _

theorem trim_dropReturn (line : List Char) : trim (dropReturn line) = trim line := by
  unfold dropReturn
  split
  · rename_i last
    conv_rhs => rw [← List.dropLast_append_getLast? _ last, trim_concat_of_isBlank (by decide)]
  · rfl

/-- A carriage return in front of every newline. -/
def returns (cs : List Char) : List Char :=
  cs.flatMap fun c => if c = '\n' then ['\r', '\n'] else [c]

/-- Between newlines stands what stood there, if need be with a carriage return behind it. -/
private theorem forall₂_splitOn_returns (cs : List Char) :
    List.Forall₂ (fun returned piece => returned = piece ∨ returned = piece ++ ['\r'])
      ((returns cs).splitOn '\n') (cs.splitOn '\n') := by
  induction cs with
  | nil => exact .cons (.inl rfl) .nil
  | cons c rest ih =>
      by_cases newline : c = '\n'
      · subst newline
        have pieces : (returns ('\n' :: rest)).splitOn '\n' =
            ['\r'] :: (returns rest).splitOn '\n' := by
          simp [returns, List.splitOn_cons_eq_if_modifyHead]
        rw [pieces, List.splitOn_cons_eq_if_modifyHead, if_pos (by simp)]
        exact .cons (.inr rfl) ih
      · have pieces : (returns (c :: rest)).splitOn '\n' =
            ((returns rest).splitOn '\n').modifyHead (c :: ·) := by
          simp [returns, newline, List.splitOn_cons_eq_if_modifyHead]
        rw [pieces, List.splitOn_cons_eq_if_modifyHead, if_neg (by simpa using newline)]
        -- The first pieces go on as before, and the character is put in front of both.
        generalize (returns rest).splitOn '\n' = returned at ih ⊢
        generalize rest.splitOn '\n' = plain at ih ⊢
        cases ih with
        | nil => exact .nil
        | cons first others =>
            refine .cons ?_ others
            rcases first with rfl | rfl
            · exact .inl rfl
            · exact .inr rfl

theorem map_trim_splitOn_returns (cs : List Char) :
    ((returns cs).splitOn '\n').map trim = (cs.splitOn '\n').map trim := by
  have pieces := forall₂_splitOn_returns cs
  generalize (returns cs).splitOn '\n' = returned at pieces
  generalize cs.splitOn '\n' = plain at pieces
  induction pieces with
  | nil => rfl
  | cons first _ ih =>
      rw [List.map_cons, List.map_cons, ih]
      rcases first with rfl | rfl
      · rfl
      · rw [trim_concat_of_isBlank (by decide)]

end Text

namespace SourceLine

/-- A trimmed line with its number, if the line is not blank. -/
def ofTrimmed? (number : Nat) : List Char → Option SourceLine
  | [] => none
  | cs => some ⟨number, String.ofList cs⟩

/-- The lines that stand in pieces of a text, counted from one. -/
def numbered (pieces : List (List Char)) : List SourceLine :=
  ((pieces.map Text.trim).zipIdx 1).filterMap fun (trimmed, number) => ofTrimmed? number trimmed

theorem numbered_congr {first second : List (List Char)}
    (same : first.map Text.trim = second.map Text.trim) : numbered first = numbered second := by
  rw [numbered, numbered, same]

theorem numbered_concat_of_blank {piece : List Char} (blank : Text.trim piece = [])
    (pieces : List (List Char)) : numbered (pieces ++ [piece]) = numbered pieces := by
  simp [numbered, List.zipIdx_append, blank, ofTrimmed?]

theorem all_eq_numbered_lines (text : String) : all text = numbered (Text.lines text.toList) := by
  rw [numbered, List.zipIdx_map, List.filterMap_map]
  rfl

/-- The lines of a text are what stands between its newlines. -/
theorem all_eq_numbered_splitOn (text : String) :
    all text = numbered (text.toList.splitOn '\n') := by
  have pieces_ne : text.toList.splitOn '\n' ≠ [] := List.splitOn_ne_nil _ _
  rw [all_eq_numbered_lines, Text.lines]
  obtain ⟨front, last, pieces⟩ := (List.eq_nil_or_concat _).resolve_left pieces_ne
  rw [List.concat_eq_append] at pieces
  have ended : (front.map Text.dropReturn ++ [last]).map Text.trim =
      (front ++ [last]).map Text.trim := by
    simp [Text.trim_dropReturn]
  simp only [pieces, List.dropLast_concat, List.getLastD_concat]
  rw [← numbered_congr ended]
  split
  · rename_i nothing
    subst nothing
    rw [List.append_nil, numbered_concat_of_blank rfl]
  · rfl

theorem all_append_newline (text : String) : all (text ++ "\n") = all text := by
  have pieces : (text ++ "\n").toList.splitOn '\n' = text.toList.splitOn '\n' ++ [[]] := by
    simp [List.splitOn_append_cons_self]
  rw [all_eq_numbered_splitOn, pieces, numbered_concat_of_blank rfl, all_eq_numbered_splitOn]

end SourceLine

/-! ## Respelled sources -/

/-- A way to write the same lines with other ends. Only a newline at the end can be dropped. -/
inductive Respelling where
  | keep
  | addReturns
  | addNewline
  | dropNewline
  deriving Repr, DecidableEq

namespace Respelling

def apply : Respelling → String → String
  | keep, text => text
  | addReturns, text => String.ofList (Text.returns text.toList)
  | addNewline, text => text ++ "\n"
  | dropNewline, text =>
      if text.toList.getLast? = some '\n' then String.ofList text.toList.dropLast else text

theorem all_apply (respelling : Respelling) (text : String) :
    SourceLine.all (respelling.apply text) = SourceLine.all text := by
  cases respelling with
  | keep => rfl
  | addReturns =>
      rw [SourceLine.all_eq_numbered_splitOn, SourceLine.all_eq_numbered_splitOn, apply,
        String.toList_ofList]
      exact SourceLine.numbered_congr (Text.map_trim_splitOn_returns text.toList)
  | addNewline => exact SourceLine.all_append_newline text
  | dropNewline =>
      rw [apply]
      split
      · rename_i last
        have whole : String.ofList text.toList.dropLast ++ "\n" = text := by
          rw [← String.toList_inj]
          simpa using List.dropLast_append_getLast? _ last
        rw [← SourceLine.all_append_newline, whole]
      · rfl

theorem ofText_apply {α : Type} (read? : String → Option α) (respelling : Respelling)
    (text : String) :
    Reading.ofText read? (respelling.apply text) = Reading.ofText read? text := by
  rw [Reading.ofText, Reading.ofText, all_apply]

end Respelling

def CharacterSources.respell (sources : CharacterSources)
    (catalog compositions baseline : Respelling) : CharacterSources where
  name := sources.name
  catalog := catalog.apply sources.catalog
  compositions := compositions.apply sources.compositions
  baseline := baseline.apply sources.baseline

namespace Character

/-- Respelling any of the three texts leaves the character that is made of them as it is: what is
    read, the lines that are passed over with their numbers, and so whatever follows from them. -/
theorem ofSources_respell (sources : CharacterSources)
    (catalog compositions baseline : Respelling) :
    ofSources (sources.respell catalog compositions baseline) = ofSources sources ∧
      (∀ active pins,
        (ofSources (sources.respell catalog compositions baseline)).resolve active pins =
          (ofSources sources).resolve active pins) ∧
      (∀ text,
        (ofSources (sources.respell catalog compositions baseline)).canonicalize text =
          (ofSources sources).canonicalize text) ∧
      (ofSources (sources.respell catalog compositions baseline)).validate =
        (ofSources sources).validate := by
  have catalog_eq : Catalog.read (catalog.apply sources.catalog) =
      Catalog.read sources.catalog := by
    rw [Catalog.read, Catalog.read, Respelling.ofText_apply]
  have registry_eq : Registry.read (compositions.apply sources.compositions) =
      Registry.read sources.compositions := by
    rw [Registry.read, Registry.read, Respelling.ofText_apply]
  have baseline_eq : Baseline.read (baseline.apply sources.baseline) =
      Baseline.read sources.baseline := by
    rw [Baseline.read, Baseline.read, Respelling.all_apply]
  have same : ofSources (sources.respell catalog compositions baseline) = ofSources sources := by
    simp only [ofSources, CharacterSources.respell, catalog_eq, registry_eq, baseline_eq]
  rw [same]
  exact ⟨rfl, fun _ _ => rfl, fun _ => rfl, rfl⟩

end Character

end LayerComposition
