/-! # Signed 64-bit integers in decimal

The number of a layer is written in decimal with at most one sign. A number that does not fit
in 64 bits is refused, never wrapped.
-/

namespace LayerComposition.Text

def readDigits? (cs : List Char) : Option Nat :=
  if cs ≠ [] ∧ cs.all Char.isDigit then some (Nat.ofDigitChars 10 cs 0) else none

def readSigned? : List Char → Option Int
  | '-' :: digits => (readDigits? digits).map fun n => -Int.ofNat n
  | '+' :: digits => (readDigits? digits).map Int.ofNat
  | digits => (readDigits? digits).map Int.ofNat

/-- The 64-bit integer with a value, if there is one. -/
def fit64? (value : Int) : Option Int64 :=
  if Int64.minValue.toInt ≤ value ∧ value ≤ Int64.maxValue.toInt then
    some (Int64.ofInt value)
  else none

/-- Read an integer: one optional sign, then ASCII digits, with a value from `-2^63` to
    `2^63 - 1`. -/
def readInteger? (cs : List Char) : Option Int64 :=
  (readSigned? cs).bind fit64?

/-- Write an integer: a minus sign if it is negative, then its digits without leading zeros. -/
def writeInteger (n : Int64) : List Char :=
  if n.toInt < 0 then '-' :: Nat.toDigits 10 n.toInt.natAbs else Nat.toDigits 10 n.toInt.natAbs

private theorem readDigits?_toDigits (n : Nat) : readDigits? (Nat.toDigits 10 n) = some n := by
  rw [readDigits?, if_pos, Nat.ofDigitChars_toDigits (by decide) (by decide)]
  exact ⟨Nat.toDigits_ne_nil,
    List.all_eq_true.2 fun c mem => Nat.isDigit_of_mem_toDigits (by decide) (by decide) mem⟩

private theorem readSigned?_toDigits (n : Nat) :
    readSigned? (Nat.toDigits 10 n) = some (Int.ofNat n) := by
  have digit (c : Char) (mem : c ∈ Nat.toDigits 10 n) : c.isDigit = true :=
    Nat.isDigit_of_mem_toDigits (by decide) (by decide) mem
  unfold readSigned?
  split
  · rename_i digits eq
    exact absurd (digit '-' (by simp [eq])) (by decide)
  · rename_i digits eq
    exact absurd (digit '+' (by simp [eq])) (by decide)
  · rw [readDigits?_toDigits]
    rfl

/-- An integer is read back as it was written. -/
theorem readInteger?_writeInteger (n : Int64) : readInteger? (writeInteger n) = some n := by
  have signed : readSigned? (writeInteger n) = some n.toInt := by
    unfold writeInteger
    split
    · rename_i negative
      rw [readSigned?, readDigits?_toDigits, Option.map_some, Option.some.injEq]
      simp only [Int.ofNat_eq_natCast]
      omega
    · rename_i nonneg
      rw [readSigned?_toDigits, Option.some.injEq]
      simp only [Int.ofNat_eq_natCast]
      omega
  rw [readInteger?, signed, Option.bind_some, fit64?,
    if_pos ⟨Int64.minValue_le_toInt n, Int64.toInt_le n⟩, Int64.ofInt_toInt]

end LayerComposition.Text
