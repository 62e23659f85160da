import MixedNumbers.Binary64.Basic

/-!
# Rounding a rational to binary64

`roundHalfEven` gives the integer nearest to a rational, and the even one of the two when
the rational lies half-way between integers. `ofRat` gives the binary64 number nearest to a
rational. The unit is the distance between neighbouring numbers around the rational: two to
an exponent that leaves 53 binary digits before the point, but never below the least
exponent. The rational is measured in units, rounded to the nearest integer, and that many
units make the result. A result beyond the largest finite number is an infinity, and one
that is rounded to zero keeps the sign of the rational.
-/

namespace MixedNumbers

/-- The integer nearest to a rational; of two equally near ones, the even one. -/
def roundHalfEven (q : Rat) : Int :=
  let below := q.floor
  let rest := q - below
  if rest < 1 / 2 then below
  else if 1 / 2 < rest then below + 1
  else if below % 2 = 0 then below
  else below + 1

/-- An integer is its own nearest integer. -/
@[simp]
theorem roundHalfEven_intCast (i : Int) : roundHalfEven (i : Rat) = i := by
  have hrest : (i : Rat) - (i : Rat) < 1 / 2 := by
    rw [Rat.sub_self]
    decide +kernel
  simp only [roundHalfEven, Rat.floor_intCast, if_pos hrest]

namespace Binary64

/-- The exponent of the leading binary digit of a positive rational: the greatest `n` with
`2 ^ n` not above it. -/
def leadingExponent (magnitude : Rat) : Int :=
  let estimate : Int := (magnitude.num.natAbs.log2 : Int) - (magnitude.den.log2 : Int)
  if (2 : Rat) ^ estimate ≤ magnitude then estimate else estimate - 1

/-- The exponent of the distance between neighbouring binary64 numbers around a positive
rational. -/
def unitExponent (magnitude : Rat) : Int :=
  max (-1074) (leadingExponent magnitude - 52)

/-- The number made of so many units of size `2 ^ exponent`. Units that fill 54 binary digits are
halved, and an exponent that is still too large gives an infinity. -/
def ofUnits (negative : Bool) (units : Nat) (exponent : Int) : Binary64 :=
  if h : Canonical units exponent then .finite negative units exponent h
  else if h : Canonical (units / 2) (exponent + 1) then
    .finite negative (units / 2) (exponent + 1) h
  else .infinity negative

/-- The binary64 number nearest to a rational, ties going to the even significand. The rational
zero has no sign of its own and takes the given one. -/
def ofRat (q : Rat) (zeroNegative : Bool) : Binary64 :=
  if q = 0 then zero zeroNegative
  else
    let negative := decide (q < 0)
    let magnitude := if negative then -q else q
    let exponent := unitExponent magnitude
    ofUnits negative (roundHalfEven (magnitude / (2 : Rat) ^ exponent)).toNat exponent

/-- The binary64 number nearest to an integer; zero is positive. -/
def ofInt (i : Int) : Binary64 :=
  ofRat (i : Rat) false

end Binary64

end MixedNumbers
