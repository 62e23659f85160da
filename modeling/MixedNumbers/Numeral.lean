import MixedNumbers.Text.Basic

/-!
# Whole numbers in decimal notation

A whole number is written as an optional minus sign and one or more of the digits from
`0` to `9`. Leading zeros and `-0` are read, but never written. `read_write` says that
what is written for an integer is read as that integer.
-/

namespace MixedNumbers.Numeral

/-- The value of a text of digits, or nothing for a text that is empty or has another
character in it. -/
def readDigits (text : Text) : Option Nat :=
  if !text.isEmpty && text.all Char.isDigit then some (Nat.ofDigitChars 10 text 0) else none

/-- The integer that a text denotes. A minus sign in front negates the value of the digits. -/
def read (text : Text) : Option Int :=
  match text with
  | '-' :: digits => (readDigits digits).map fun (magnitude : Nat) ↦ -(magnitude : Int)
  | digits => (readDigits digits).map fun (magnitude : Nat) ↦ (magnitude : Int)

/-- The digits of a natural number without leading zeros. -/
def writeNat (n : Nat) : Text :=
  Nat.toDigits 10 n

/-- The integer in decimal digits, after a minus sign when it is negative. -/
def write (i : Int) : Text :=
  if i < 0 then '-' :: writeNat i.natAbs else writeNat i.natAbs

/-- What is written for a natural number is a digit followed by digits. -/
theorem writeNat_eq_cons (n : Nat) :
    ∃ digit rest, writeNat n = digit :: rest ∧ (writeNat n).all Char.isDigit = true := by
  have hdigits : (writeNat n).all Char.isDigit = true := by
    rw [List.all_eq_true]
    exact fun c hc ↦ Nat.isDigit_of_mem_toDigits (by decide) (by decide) hc
  cases hwritten : writeNat n with
  | nil => exact absurd hwritten Nat.toDigits_ne_nil
  | cons digit rest => exact ⟨digit, rest, rfl, hwritten ▸ hdigits⟩

/-- Reading the digits of a natural number gives the number back. -/
@[simp]
theorem readDigits_writeNat (n : Nat) : readDigits (writeNat n) = some n := by
  obtain ⟨digit, rest, hwritten, hdigits⟩ := writeNat_eq_cons n
  have hvalue : Nat.ofDigitChars 10 (writeNat n) 0 = n := Nat.ofDigitChars_ten_toDigits
  have hne : (writeNat n).isEmpty = false := by simp [hwritten]
  simp only [readDigits, hne, hdigits, hvalue, Bool.not_false, Bool.and_true, if_true]

/-- Reading what is written for an integer gives the integer back. -/
@[simp]
theorem read_write (i : Int) : read (write i) = some i := by
  by_cases hneg : i < 0
  · have hi : -((i.natAbs : Nat) : Int) = i := by omega
    simp only [write, if_pos hneg, read, readDigits_writeNat, Option.map_some, hi]
  · obtain ⟨digit, rest, hwritten, hdigits⟩ := writeNat_eq_cons i.natAbs
    have hdigit : digit ≠ '-' := by
      rintro rfl
      simp [hwritten, Char.isDigit] at hdigits
    have hi : ((i.natAbs : Nat) : Int) = i := by omega
    have hread :
        read (write i) = (readDigits (writeNat i.natAbs)).map fun (n : Nat) ↦ (n : Int) := by
      simp only [write, hneg, if_false, hwritten, read]
      split
      · rename_i heq
        exact absurd (List.cons.inj heq).1 hdigit
      · rfl
    rw [hread, readDigits_writeNat, Option.map_some, hi]

end MixedNumbers.Numeral
