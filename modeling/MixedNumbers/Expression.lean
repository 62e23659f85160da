import MixedNumbers.Binary64.Notation
import MixedNumbers.Literal
import MixedNumbers.Operator

/-!
# Expressions

An expression is an operand, an operator symbol and an operand, cut from a text at its
spaces. Its parts are checked in a fixed order: the number of words, the left operand, the
right operand, the symbol, then the value of the left and of the right operand, and last
that nothing is divided by zero. The first check that fails is the error.
-/

namespace MixedNumbers

/-- The reasons why a calculation has no result. -/
inductive CalculationError where
  | wordCount (count : Nat)
  | invalidOperand (word : Text)
  | invalidOperator (word : Text)
  | unreadable (cause : LiteralError)
  | divisionByZero
  | notFinite (value : Binary64)
deriving DecidableEq

namespace CalculationError

/-- The wording of an error. -/
def message : CalculationError → Text
  | .wordCount _ => "Syntax error.".toList
  | .invalidOperand word => word ++ " is not a valid number or fraction.".toList
  | .invalidOperator word => word ++ " is not a valid symbol.".toList
  | .unreadable cause => "Runtime error: ".toList ++ cause.message ++ ['.']
  | .divisionByZero => "Cannot divide with 0.".toList
  | .notFinite value => value.write ++ " cannot be written as a fraction.".toList

/-- What the number of words should have been, and what it was. -/
def wordCountDetail (count : Nat) : Text :=
  "expected 3 tokens, found ".toList ++ Numeral.writeNat count

end CalculationError

/-- The three words of an expression. -/
structure Expression where
  left : Text
  symbol : Text
  right : Text
deriving DecidableEq, Repr

namespace Expression

/-- The expression that a text holds, or the number of its words when that is not three. -/
def ofText (text : Text) : Except Nat Expression :=
  match text.words with
  | [left, symbol, right] => .ok ⟨left, symbol, right⟩
  | words => .error words.length

/-- The operator of an expression both of whose operands are literals. -/
def operator (e : Expression) : Except CalculationError Operator :=
  if !Literal.isOperand e.left then .error (.invalidOperand e.left)
  else if !Literal.isOperand e.right then .error (.invalidOperand e.right)
  else
    match Operator.ofSymbol? e.symbol with
    | none => .error (.invalidOperator e.symbol)
    | some operator => .ok operator

/-- The values of the two operands. The divisor is compared with zero as an exact rational. -/
def operands (e : Expression) (operator : Operator) : Except CalculationError (Rat × Rat) :=
  match Literal.parse e.left with
  | .error cause => .error (.unreadable cause)
  | .ok left =>
      match Literal.parse e.right with
      | .error cause => .error (.unreadable cause)
      | .ok right =>
          if operator = .divide ∧ right = 0 then .error .divisionByZero else .ok (left, right)

end Expression

end MixedNumbers
