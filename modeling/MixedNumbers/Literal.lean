import MixedNumbers.Numeral

/-!
# Literals and mixed forms

A literal is a whole number, a ratio of two whole numbers, or a whole number joined by `&`
to a further literal, as in `3&1/4` or `1&2&3/4`. Whole numbers may be negative wherever
they stand. `parse` gives the text of a literal its rational value: the literal behind the
`&` adds to the magnitude of the whole number, so it is added to one that is not negative
and taken away from a negative one. It names the first piece that is not a whole number
where one is needed, and a zero denominator with all of the text. An operand of an
expression is a single whole number or ends in a ratio; `isOperand` looks at the text for
that and parses nothing.

Of the literals with one value, one is its mixed form: `0`, or a whole part, a proper fraction
in lowest terms, or both joined by `&`. The whole part is the rational cut off toward zero. A
minus sign stands in front of the form of a negative number and nowhere else.
-/

namespace MixedNumbers

/-- The reasons why a text does not denote a number: a piece of it is not a whole number where one
is needed, or the denominator of the literal is zero. -/
inductive LiteralError where
  | unreadable (piece : Text)
  | zeroDenominator (literal : Text)
deriving DecidableEq, Repr

namespace LiteralError

/-- The error of a part as one of the text around it. A zero denominator is reported with all of
the text, a piece that cannot be read by itself. -/
def within (text : Text) : LiteralError → LiteralError
  | .unreadable piece => .unreadable piece
  | .zeroDenominator _ => .zeroDenominator text

/-- The wording of a reading error. -/
def message : LiteralError → Text
  | .unreadable piece => '\'' :: piece ++ "' could not be read as a number".toList
  | .zeroDenominator literal => '\'' :: literal ++ "' has a zero denominator".toList

end LiteralError

namespace Literal

/-! ## Values -/

/-- The whole number that a piece denotes. -/
def parseWhole (piece : Text) : Except LiteralError Int :=
  match Numeral.read piece with
  | some n => .ok n
  | none => .error (.unreadable piece)

/-- The ratio that a text denotes which is no whole number and has no `&` in it. -/
def parseRatio (text : Text) : Except LiteralError Rat :=
  match Text.cutAt '/' text with
  | none => .error (.unreadable text)
  | some (numerator, denominator) => do
      let n ← parseWhole numerator
      let d ← parseWhole denominator
      if d = 0 then .error (.zeroDenominator text) else .ok ((n : Rat) / (d : Rat))

/-- The rational number that a text denotes. -/
def parse (text : Text) : Except LiteralError Rat :=
  match Numeral.read text with
  | some n => .ok n
  | none =>
      match _hcut : Text.cutAt '&' text with
      | none => parseRatio text
      | some (whole, rest) => do
          let w ← parseWhole whole
          let part ← (parse rest).mapError (LiteralError.within text)
          return if w < 0 then (w : Rat) - part else (w : Rat) + part
termination_by text.length
decreasing_by exact Text.length_lt_of_cutAt _hcut

/-! ## Checks -/

/-- The text is a whole number. -/
def isWhole (text : Text) : Bool :=
  (Numeral.read text).isSome

/-- The text is a ratio, or a whole number joined to what is itself a fraction. -/
def isFraction (text : Text) : Bool :=
  match _hcut : Text.cutAt '&' text with
  | some (whole, rest) => isWhole whole && isFraction rest
  | none =>
      match Text.cutAt '/' text with
      | none => false
      | some (numerator, denominator) => isWhole numerator && isWhole denominator
termination_by text.length
decreasing_by exact Text.length_lt_of_cutAt _hcut

/-- The text may stand as an operand of an expression. -/
def isOperand (text : Text) : Bool :=
  isWhole text || isFraction text

end Literal

namespace MixedForm

/-! ## Mixed forms -/

/-- The rational cut off toward zero. -/
def wholePart (q : Rat) : Int :=
  q.num.tdiv (q.den : Int)

/-- The numerator of what the whole part leaves, without a sign; the denominator is that of the
rational. -/
def remainder (q : Rat) : Nat :=
  (q.num - (q.den : Int) * wholePart q).natAbs

/-- A numerator and a denominator with a stroke between them. -/
def writeRatio (numerator denominator : Nat) : Text :=
  Numeral.writeNat numerator ++ '/' :: Numeral.writeNat denominator

/-- The rational in mixed form. -/
def write (q : Rat) : Text :=
  if wholePart q = 0 then
    if remainder q = 0 then ['0']
    else if q < 0 then '-' :: writeRatio (remainder q) q.den
    else writeRatio (remainder q) q.den
  else if remainder q = 0 then Numeral.write (wholePart q)
  else Numeral.write (wholePart q) ++ '&' :: writeRatio (remainder q) q.den

/-- The rational as numerator and denominator, or as a whole number if the denominator is one. -/
def writeImproper (q : Rat) : Text :=
  if q.den = 1 then Numeral.write q.num
  else Numeral.write q.num ++ '/' :: Numeral.writeNat q.den

end MixedForm

end MixedNumbers
