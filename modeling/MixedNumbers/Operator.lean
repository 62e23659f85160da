import MixedNumbers.Binary64.Arithmetic
import MixedNumbers.Text.Basic

/-!
# Operators

The four operators, their symbols, and what they do in a number system that has the four
operations. Integer division cuts off toward zero; division by a rational zero is left to
the callers, who rule it out.
-/

namespace MixedNumbers

/-- The four operators. -/
inductive Operator where
  | add
  | subtract
  | multiply
  | divide
deriving DecidableEq, Repr

/-- The four operations of a number system. -/
structure Arithmetic (α : Type) where
  add : α → α → α
  subtract : α → α → α
  multiply : α → α → α
  divide : α → α → α

namespace Arithmetic

/-- The integers, with division that cuts off toward zero. -/
def integer : Arithmetic Int where
  add a b := a + b
  subtract a b := a - b
  multiply a b := a * b
  divide a b := a.tdiv b

/-- The rationals. -/
def rational : Arithmetic Rat where
  add a b := a + b
  subtract a b := a - b
  multiply a b := a * b
  divide a b := a / b

/-- The binary64 numbers, with every result rounded. -/
def binary64 : Arithmetic Binary64 where
  add := Binary64.add
  subtract := Binary64.sub
  multiply := Binary64.mul
  divide := Binary64.div

end Arithmetic

namespace Operator

/-- The symbol of an operator. -/
def symbol : Operator → Text
  | .add => ['+']
  | .subtract => ['-']
  | .multiply => ['*']
  | .divide => ['/']

/-- The operator of a symbol. -/
def ofSymbol? : Text → Option Operator
  | ['+'] => some .add
  | ['-'] => some .subtract
  | ['*'] => some .multiply
  | ['/'] => some .divide
  | _ => none

/-- Apply an operator in a number system. -/
def apply {α : Type} (arithmetic : Arithmetic α) : Operator → α → α → α
  | .add => arithmetic.add
  | .subtract => arithmetic.subtract
  | .multiply => arithmetic.multiply
  | .divide => arithmetic.divide

/-- The symbol of an operator stands for it. -/
@[simp]
theorem ofSymbol?_symbol (operator : Operator) : ofSymbol? operator.symbol = some operator := by
  cases operator <;> rfl

/-- A text that stands for an operator is its symbol. -/
theorem symbol_of_ofSymbol? {text : Text} {operator : Operator}
    (hsymbol : ofSymbol? text = some operator) : text = operator.symbol := by
  unfold ofSymbol? at hsymbol
  split at hsymbol <;> simp_all [symbol] <;> simp [← hsymbol]

end Operator

end MixedNumbers
