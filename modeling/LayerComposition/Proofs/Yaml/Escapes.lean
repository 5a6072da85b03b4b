import Mathlib.Tactic.IntervalCases
import LayerComposition.Yaml.Scalar
import LayerComposition.Yaml.Text

/-! # Escaped characters

Double quotes keep every text, for every character that could not stand in them by itself has an
escape, which is read as that character. An escape is made of printable characters on one line.
-/

namespace LayerComposition.Yaml

open Scalar

/-- A digit behind others counts sixteen times less than they do. -/
theorem hexValue?_concat (digits : List Char) {digit : Nat} (small : digit < 16) :
    hexValue? (digits ++ [digit.digitChar.toUpper]) =
      (hexValue? digits).map fun value => value * 16 + digit := by
  rw [hexValue?, List.foldlM_append, ← hexValue?]
  cases hexValue? digits with
  | none => rfl
  | some value => interval_cases digit <;> rfl

theorem hexValue?_replicate_append (zeros : Nat) (digits : List Char) :
    hexValue? (List.replicate zeros '0' ++ digits) = hexValue? digits := by
  induction zeros with
  | zero => rfl
  | succ zeros ih => exact ih

theorem hexValue?_hex (width n : Nat) : hexValue? (hex width n) = some n := by
  rw [hex, hexValue?_replicate_append]
  induction n using Nat.strongRecOn with
  | ind n ih =>
      rw [Nat.toDigits_eq_if (by decide)]
      split
      · next small =>
          have none : hexValue? [] = some 0 := rfl
          simpa [none] using hexValue?_concat [] small
      · rw [List.map_append, List.map_singleton, hexValue?_concat _ (Nat.mod_lt n (by decide)),
          ih (n / 16) (by omega)]
        simp only [Option.map_some, Option.some.injEq]
        omega

theorem length_hex {width n : Nat} (positive : 0 < width) (small : n < 16 ^ width) :
    (hex width n).length = width := by
  have short := (Nat.length_toDigits_le_iff (by decide) positive).2 small
  simp only [hex, List.length_append, List.length_replicate, List.length_map]
  omega

theorem exists_digit_of_mem_hex {width n : Nat} {c : Char} (mem : c ∈ hex width n) :
    ∃ digit < 16, c = (Nat.digitChar digit).toUpper := by
  have digits (n : Nat) : ∀ c ∈ Nat.toDigits 16 n, ∃ digit < 16, c = Nat.digitChar digit := by
    induction n using Nat.strongRecOn with
    | ind n ih =>
        rw [Nat.toDigits_eq_if (by decide)]
        split
        · next small => simpa using ⟨n, small, rfl⟩
        · intro c mem
          rcases List.mem_append.1 mem with front | last
          · exact ih (n / 16) (by omega) c front
          · exact ⟨n % 16, Nat.mod_lt n (by decide), by simpa using last⟩
  rcases List.mem_append.1 mem with zero | upper
  · exact ⟨0, by decide, (List.mem_replicate.1 zero).2⟩
  · obtain ⟨lower, listed, rfl⟩ := List.mem_map.1 upper
    obtain ⟨digit, small, rfl⟩ := digits n lower listed
    exact ⟨digit, small, rfl⟩

theorem readCodePoint?_hex {width : Nat} {c : Char} (positive : 0 < width)
    (small : c.toNat < 16 ^ width) (rest : List Char) :
    readCodePoint? width (hex width c.toNat ++ rest) = some c := by
  have length := length_hex positive small
  have digits : (hex width c.toNat ++ rest).take width = hex width c.toNat := List.take_left' length
  have valid : c.toNat.isValidChar := c.valid
  have decoded : Char.ofNatAux c.toNat valid = c := by
    have whole := Char.ofNat_toNat c
    rwa [Char.ofNat, dif_pos valid] at whole
  have enough : ¬(hex width c.toNat).length < width := by omega
  rw [readCodePoint?, digits, if_neg enough, hexValue?_hex]
  exact (dif_pos valid).trans (congrArg some decoded)

/-- What stands behind a backslash for a character. -/
structure Escaped (c : Char) (code : List Char) : Prop where
  reads : ∀ rest, readEscape? (code ++ rest) = some (c, code.length)
  printable : ∀ d ∈ code, isPrintable d = true
  onLine : ∀ d ∈ code, isBreak d = false

theorem Escaped.ne_nil {c : Char} {code : List Char} (escaped : Escaped c code) : code ≠ [] := by
  rintro rfl
  cases escaped.reads []

theorem Escaped.of_hex {mark c : Char} {width : Nat} (positive : 0 < width)
    (small : c.toNat < 16 ^ width) (printable : isPrintable mark = true)
    (onLine : isBreak mark = false)
    (reads : ∀ rest, readEscape? (mark :: rest) =
      (readCodePoint? width rest).map fun c => (c, width + 1)) :
    Escaped c (mark :: hex width c.toNat) := by
  have digits {d : Char} (mem : d ∈ hex width c.toNat) :
      isPrintable d = true ∧ isBreak d = false := by
    obtain ⟨digit, small, rfl⟩ := exists_digit_of_mem_hex mem
    interval_cases digit <;> decide
  constructor
  case reads =>
    intro rest
    rw [List.cons_append, reads, readCodePoint?_hex positive small, Option.map_some,
      List.length_cons, length_hex positive small]
  case printable =>
    intro d mem
    rcases List.mem_cons.1 mem with rfl | mem
    · exact printable
    · exact (digits mem).1
  case onLine =>
    intro d mem
    rcases List.mem_cons.1 mem with rfl | mem
    · exact onLine
    · exact (digits mem).2

/-- The characters that have an escape of their own. -/
def namedEscapes : List Char :=
  ['\x22', '\\', '\x00', '\x07', '\x08', '\t', '\n', '\x0b', '\x0c', '\r', '\x1b', '\u0085',
    '\u2028', '\u2029']

theorem escaped_of_named {c : Char} (named : c ∈ namedEscapes) :
    ∃ code, escape c = '\\' :: code ∧ Escaped c code := by
  simp only [namedEscapes, List.mem_cons, List.not_mem_nil, or_false] at named
  rcases named with rfl | rfl | rfl | rfl | rfl | rfl | rfl | rfl | rfl | rfl | rfl | rfl | rfl | rfl
  all_goals exact ⟨_, rfl, fun rest => rfl, by simp [isPrintable], by simp [isBreak]⟩

/-- A character is kept as it is or escaped. -/
theorem escape_cases (c : Char) :
    (escape c = [c] ∧ isPrintable c = true ∧ isBreak c = false ∧ c ≠ '\x22' ∧ c ≠ '\\') ∨
      ∃ code, escape c = '\\' :: code ∧ Escaped c code := by
  by_cases named : c ∈ namedEscapes
  · exact .inr (escaped_of_named named)
  · simp only [namedEscapes, List.mem_cons, List.not_mem_nil, or_false, not_or] at named
    simp only [escape, beq_iff_eq, named, if_false]
    split
    · next kept =>
        obtain ⟨printable, onLine⟩ : isPrintable c = true ∧ isBreak c = false := by simpa using kept
        exact .inl ⟨rfl, printable, onLine, named.1, named.2.1⟩
    · have valid : c.toNat < 0xD800 ∨ 0xDFFF < c.toNat ∧ c.toNat < 0x110000 := c.valid
      refine .inr ?_
      split
      · exact ⟨_, rfl, .of_hex (by decide) (by omega) (by decide) (by decide) fun _ => rfl⟩
      · split
        · exact ⟨_, rfl, .of_hex (by decide) (by omega) (by decide) (by decide) fun _ => rfl⟩
        · exact ⟨_, rfl, .of_hex (by decide) (by omega) (by decide) (by decide) fun _ => rfl⟩

end LayerComposition.Yaml
