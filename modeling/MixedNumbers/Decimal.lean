import MixedNumbers.Numeral

/-!
# Decimals

A decimal is a natural number of units of a power of ten. It is written positionally,
with a point before the fractional digits and without an exponent, and it is read from
digits with an optional point among or around them and an optional power of ten behind
them.
-/

namespace MixedNumbers

/-- The decimal `digits * 10 ^ exponent`. -/
structure Decimal where
  digits : Nat
  exponent : Int
deriving DecidableEq, Repr

namespace Decimal

/-- The rational value of a decimal. -/
def value (d : Decimal) : Rat :=
  (d.digits : Rat) * (10 : Rat) ^ d.exponent

/-- The decimal written with a point before its fractional digits, if it has any, and with at
least one digit before the point. -/
def positional (d : Decimal) : Text :=
  let written := Numeral.writeNat d.digits
  if 0 ≤ d.exponent then written ++ List.replicate d.exponent.toNat '0'
  else
    let places := (-d.exponent).toNat
    let padded := List.replicate (places + 1 - written.length) '0' ++ written
    padded.take (padded.length - places) ++ '.' :: padded.drop (padded.length - places)

/-- The power of ten behind the digits: nothing, or the letter `e` or `E` and an integer that may
have either sign in front. -/
def readExponent : Text → Option Int
  | [] => some 0
  | letter :: rest =>
      if letter = 'e' ∨ letter = 'E' then
        match rest with
        | '+' :: digits => (Numeral.readDigits digits).map fun (n : Nat) ↦ (n : Int)
        | _ => Numeral.read rest
      else none

/-- The fractional digits of a text that begins with a point, and what follows them. A text that
does not begin with a point has no fractional digits. -/
def splitFraction : Text → Text × Text
  | '.' :: rest => (rest.takeWhile Char.isDigit, rest.dropWhile Char.isDigit)
  | rest => ([], rest)

/-- The decimal that a text without a sign denotes. There is a digit before or after the point. -/
def read (text : Text) : Option Decimal :=
  let whole := text.takeWhile Char.isDigit
  let (fraction, tail) := splitFraction (text.dropWhile Char.isDigit)
  if whole.isEmpty && fraction.isEmpty then none
  else
    (readExponent tail).map fun (exponent : Int) ↦
      ⟨Nat.ofDigitChars 10 (whole ++ fraction) 0, exponent - (fraction.length : Int)⟩

end Decimal

end MixedNumbers
