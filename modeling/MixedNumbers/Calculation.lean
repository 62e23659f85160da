import MixedNumbers.Record

/-!
# Calculations

A calculation reads an expression from a text, applies its operator and writes the result
in mixed form. It is carried out either on exact rationals, or on the binary64 numbers
nearest to the operands with a fraction recovered from the rounded result. `report` gives
the outcome together with the records of the stages; `calculate` is its outcome.
`calculateValue` gives the exact result as a rational.
-/

namespace MixedNumbers

/-- How a calculation is carried out: on exact rationals, or in binary64 with a tolerance for the
recovered fraction. -/
inductive Precision where
  | exact
  | float (tolerance : Binary64)
deriving DecidableEq

namespace Precision

/-- The binary64 number nearest to one millionth. -/
def defaultTolerance : Binary64 :=
  .finite false 0x10c6f7a0b5ed8d (-72) (by decide)

/-- The default tolerance is one millionth, rounded. -/
theorem defaultTolerance_eq_ofRat :
    defaultTolerance = Binary64.ofRat (1 / 1000000) false := by
  decide +kernel

end Precision

/-- What became of a calculation, with its records in the order in which they were made. -/
structure Report where
  records : List Record
  outcome : Except CalculationError Text

namespace Report

/-- The report with one more record in front. -/
def after (record : Record) (report : Report) : Report :=
  { report with records := record :: report.records }

/-- The report of a calculation that failed without a further record. -/
def failed (error : CalculationError) : Report :=
  ⟨[], .error error⟩

end Report

/-- Apply an operator to exact operands and write the result. -/
def evaluateExactly (operator : Operator) (left right : Rat) : Report :=
  let result := operator.apply .rational left right
  ⟨[.evaluatedExactly result], .ok (MixedForm.write result)⟩

/-- Apply an operator to the binary64 numbers nearest to the operands, and recover a fraction from
the result. -/
def evaluateInBinary64 (tolerance : Binary64) (operator : Operator) (left right : Rat) : Report :=
  let result := operator.apply .binary64 (Binary64.ofRat left false) (Binary64.ofRat right false)
  match Convergent.expand tolerance result with
  | none =>
      ⟨[.evaluatedInBinary64 result, .notFinite result], .error (.notFinite result)⟩
  | some (start, expansion) =>
      ⟨.evaluatedInBinary64 result :: expansion.convergents.map Record.convergent,
        .ok (MixedForm.write (expansion.last start).value)⟩

/-- Apply an operator to exact operands with the given precision. -/
def evaluate : Precision → Operator → Rat → Rat → Report
  | .exact => evaluateExactly
  | .float tolerance => evaluateInBinary64 tolerance

/-- The calculation of an expression in a text, with its records. -/
def report (precision : Precision) (text : Text) : Report :=
  match Expression.ofText text with
  | .error count => .failed (.wordCount count)
  | .ok expression =>
      Report.after (.tokenized expression) <|
        match expression.operator with
        | .error error => .failed error
        | .ok operator =>
            Report.after (.validated operator) <|
              match expression.operands operator with
              | .error error => .failed error
              | .ok (left, right) => evaluate precision operator left right

/-- The result of the expression in a text, in mixed form. -/
def calculate (precision : Precision) (text : Text) : Except CalculationError Text :=
  (report precision text).outcome

/-- The exact value of the expression in a text. -/
def calculateValue (text : Text) : Except CalculationError Rat :=
  match Expression.ofText text with
  | .error count => .error (.wordCount count)
  | .ok expression => do
      let operator ← expression.operator
      let (left, right) ← expression.operands operator
      return operator.apply .rational left right

end MixedNumbers
