import MixedNumbers.Binary64.Arithmetic
import MixedNumbers.Binary64.Limbs
import MixedNumbers.Literal

/-!
# Recovering a fraction from a binary64 number

The continued fraction of a number starts with its floor; every further quotient is the
floor of the reciprocal of what the quotient before it left over. The convergents `h / k`
that the quotients build come closer and closer to the number, and `expand` computes them
until the part left over is at most the tolerance times `k * k`. The quotients and the
parts left over are binary64 numbers, each operation being rounded, while `h` and `k` are
exact integers. It also stops when a reciprocal is not finite, and after 64 convergents.
`approximate` is the last convergent reached.
-/

namespace MixedNumbers

/-- A stage of the expansion: the number that is being expanded, its floor, and the numerator and
the denominator of the convergent so far and of the one before it. -/
structure Convergent where
  quotient : Binary64
  floor : Binary64
  numerator : Int
  denominator : Int
  previousNumerator : Int
  previousDenominator : Int

namespace Convergent

/-- What the floor leaves over of the number that is being expanded. -/
def remainder (c : Convergent) : Binary64 :=
  c.quotient.sub c.floor

/-- The rational value of the convergent. -/
def value (c : Convergent) : Rat :=
  (c.numerator : Rat) / (c.denominator : Rat)

/-- The first convergent of a number: its floor over one. Only a finite number has one. -/
def first (x : Binary64) : Option Convergent :=
  x.floor.truncate?.map fun (whole : Int) ↦
    { quotient := x
      floor := x.floor
      numerator := whole
      denominator := 1
      previousNumerator := 1
      previousDenominator := 0 }

/-- The part left over is at most the tolerance times the square of the denominator, where the
denominator, as an integer that is held in limbs, and both products are rounded. -/
def withinTolerance (tolerance : Binary64) (c : Convergent) : Bool :=
  let k := Binary64.ofLimbs c.denominator
  c.remainder.le ((tolerance.mul k).mul k)

/-- The convergent after the given one, for the number to be expanded next: the numerator and the
denominator each become the new quotient times themselves plus their predecessors. -/
def next (c : Convergent) (quotient : Binary64) : Option Convergent :=
  quotient.floor.truncate?.map fun (step : Int) ↦
    { quotient := quotient
      floor := quotient.floor
      numerator := step * c.numerator + c.previousNumerator
      denominator := step * c.denominator + c.previousDenominator
      previousNumerator := c.numerator
      previousDenominator := c.denominator }

/-- Why an expansion came to its end. -/
inductive Ending where
  | tolerance
  | overflow
  | exhausted
deriving DecidableEq, Repr

/-- The convergents after a given one, in order, and why there are no more. -/
structure Expansion where
  convergents : List Convergent
  ending : Ending

/-- The expansion that follows a convergent, of at most the given number of convergents. -/
def expandFrom (tolerance : Binary64) : Nat → Convergent → Option Expansion
  | 0, _ => some ⟨[], .exhausted⟩
  | rounds + 1, c =>
      if c.withinTolerance tolerance then some ⟨[], .tolerance⟩
      else
        let quotient := Binary64.one.div c.remainder
        if quotient.isFinite then
          match c.next quotient with
          | none => none
          | some following =>
              (expandFrom tolerance rounds following).map fun (rest : Expansion) ↦
                ⟨following :: rest.convergents, rest.ending⟩
        else some ⟨[], .overflow⟩

/-- The greatest number of convergents after the first. -/
def maxRounds : Nat := 64

/-- The first convergent of a finite number and the expansion that follows it. -/
def expand (tolerance x : Binary64) : Option (Convergent × Expansion) :=
  if x.isFinite then
    match first x with
    | none => none
    | some start =>
        (expandFrom tolerance maxRounds start).map fun (rest : Expansion) ↦ (start, rest)
  else none

/-- The last convergent of an expansion that follows a given one. -/
def Expansion.last (start : Convergent) (expansion : Expansion) : Convergent :=
  expansion.convergents.getLastD start

/-- The fraction recovered from a number within a tolerance; only finite numbers have one. -/
def approximate (tolerance x : Binary64) : Option Rat :=
  (expand tolerance x).map fun (start, expansion) ↦ (expansion.last start).value

/-- The recovered fraction in mixed form. -/
def approximateText (tolerance x : Binary64) : Option Text :=
  (approximate tolerance x).map MixedForm.write

end Convergent

end MixedNumbers
