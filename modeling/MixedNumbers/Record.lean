import MixedNumbers.Convergent
import MixedNumbers.Expression
import MixedNumbers.Text.Display

/-!
# Records of a calculation

A calculation leaves a record of every stage that it completes and of every convergent
that it computes, and a warning when its result is not finite.
-/

namespace MixedNumbers

/-- How much a record matters. -/
inductive Level where
  | trace
  | debug
  | warn
deriving DecidableEq, Repr

/-- The events that a calculation records. -/
inductive Record where
  | tokenized (expression : Expression)
  | validated (operator : Operator)
  | evaluatedExactly (result : Rat)
  | evaluatedInBinary64 (result : Binary64)
  | convergent (reached : Convergent)
  | notFinite (result : Binary64)

namespace Record

/-- Stages are recorded for debugging, convergents for tracing, and a result that is not finite as
a warning. -/
def level : Record → Level
  | .tokenized _ => .debug
  | .validated _ => .debug
  | .evaluatedExactly _ => .debug
  | .evaluatedInBinary64 _ => .debug
  | .convergent _ => .trace
  | .notFinite _ => .warn

/-- The wording of a record. -/
def message : Record → Text
  | .tokenized e =>
      "tokenized ".toList ++ Text.unwords [e.left.quoted, e.symbol.quoted, e.right.quoted]
  | .validated operator => "validated with operator ".toList ++ operator.symbol
  | .evaluatedExactly result => "evaluated to ".toList ++ MixedForm.writeImproper result
  | .evaluatedInBinary64 result => "evaluated to ".toList ++ result.write
  | .convergent c =>
      "convergent ".toList ++ Numeral.write c.numerator ++ '/' :: Numeral.write c.denominator ++
        " (remainder ".toList ++ c.remainder.write ++ [')']
  | .notFinite result =>
      "float result ".toList ++ result.write ++ " cannot be written as a fraction".toList

end Record

end MixedNumbers
