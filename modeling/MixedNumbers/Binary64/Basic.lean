/-!
# Binary64 numbers

A finite binary64 number is a sign, a significand below 2 ^ 53 and an exponent from -1074
to 971; its value is the significand times two to the exponent, with the sign. `Canonical`
picks one of the several pairs of significand and exponent with the same value: the
significand has all 53 binary digits unless the exponent is the least one. So two finite
numbers of the type are equal exactly when their signs and values are, zero being the
only value with two signs. There are two infinities, and all the encodings of "not a
number" are one.
-/

namespace MixedNumbers

/-- The significand and the exponent are those of a binary64 number in its only form: 53 binary
digits at most, and exactly 53 unless the exponent is the least one. -/
def Canonical (significand : Nat) (exponent : Int) : Prop :=
  significand < 0x20000000000000 ∧ -1074 ≤ exponent ∧ exponent ≤ 971 ∧
    (0x10000000000000 ≤ significand ∨ exponent = -1074)

/-- Being canonical is decided by comparisons of integers. -/
instance (significand : Nat) (exponent : Int) : Decidable (Canonical significand exponent) :=
  inferInstanceAs (Decidable (_ ∧ _ ∧ _ ∧ _))

/-- A binary64 number: not a number, an infinity of either sign, or a finite number. -/
inductive Binary64 where
  | nan
  | infinity (negative : Bool)
  | finite (negative : Bool) (significand : Nat) (exponent : Int)
      (canonical : Canonical significand exponent)
deriving DecidableEq

namespace Binary64

/-- Zero with a sign. -/
def zero (negative : Bool) : Binary64 :=
  .finite negative 0 (-1074) (by decide)

/-- The rational number `significand * 2 ^ exponent` with a sign. -/
def scaled (negative : Bool) (significand : Nat) (exponent : Int) : Rat :=
  let magnitude := (significand : Rat) * (2 : Rat) ^ exponent
  if negative then -magnitude else magnitude

/-- The exact value of a finite number, and nothing for the others. -/
def toRat? : Binary64 → Option Rat
  | .finite negative significand exponent _ => some (scaled negative significand exponent)
  | _ => none

/-- The number is neither an infinity nor not-a-number. -/
def isFinite : Binary64 → Bool
  | .finite .. => true
  | _ => false

/-- The number is finite and greater than zero. -/
def isPositiveFinite : Binary64 → Bool
  | .finite negative significand _ _ => !negative && significand != 0
  | _ => false

/-- The finite numbers are those that have a rational value. -/
theorem isFinite_iff (x : Binary64) : x.isFinite = true ↔ ∃ q, x.toRat? = some q := by
  cases x <;> simp [isFinite, toRat?]

end Binary64

end MixedNumbers
