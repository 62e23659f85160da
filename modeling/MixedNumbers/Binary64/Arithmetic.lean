import MixedNumbers.Binary64.Rounding

/-!
# Binary64 arithmetic

Every operation on finite numbers is the exact operation on their rational values,
rounded once. What remains is stated case by case: a sum of zeros is negative only when
both are, products and quotients take the sign that differs, infinities absorb, and
`∞ - ∞`, `0 * ∞`, `0 / 0` and `∞ / ∞` are not numbers. Comparing with not-a-number is
always false.
-/

namespace MixedNumbers.Binary64

/-- The number with the opposite sign. -/
def neg : Binary64 → Binary64
  | .nan => .nan
  | .infinity negative => .infinity !negative
  | .finite negative significand exponent h => .finite (!negative) significand exponent h

/-- The rounded sum. -/
def add : Binary64 → Binary64 → Binary64
  | .nan, _ => .nan
  | _, .nan => .nan
  | .infinity s, .infinity t => if s = t then .infinity s else .nan
  | .infinity s, .finite .. => .infinity s
  | .finite .., .infinity t => .infinity t
  | .finite s m e _, .finite t n f _ => ofRat (scaled s m e + scaled t n f) (s && t)

/-- The rounded difference, which is the sum with the opposite number. -/
def sub (x y : Binary64) : Binary64 :=
  add x y.neg

/-- The rounded product. -/
def mul : Binary64 → Binary64 → Binary64
  | .nan, _ => .nan
  | _, .nan => .nan
  | .infinity s, .infinity t => .infinity (s != t)
  | .infinity s, .finite t n _ _ => if n = 0 then .nan else .infinity (s != t)
  | .finite s m _ _, .infinity t => if m = 0 then .nan else .infinity (s != t)
  | .finite s m e _, .finite t n f _ => ofRat (scaled s m e * scaled t n f) (s != t)

/-- The rounded quotient. A finite number other than zero divided by zero is an infinity. -/
def div : Binary64 → Binary64 → Binary64
  | .nan, _ => .nan
  | _, .nan => .nan
  | .infinity _, .infinity _ => .nan
  | .infinity s, .finite t _ _ _ => .infinity (s != t)
  | .finite s _ _ _, .infinity t => zero (s != t)
  | .finite s m e _, .finite t n f _ =>
      if n = 0 then
        if m = 0 then .nan else .infinity (s != t)
      else ofRat (scaled s m e / scaled t n f) (s != t)

/-- The greatest whole number not above the number; infinities, not-a-number and the sign of zero
stay as they are. -/
def floor : Binary64 → Binary64
  | .nan => .nan
  | .infinity negative => .infinity negative
  | .finite s m e _ => ofRat ((scaled s m e).floor : Rat) s

/-- The first number is at most the second. -/
def le : Binary64 → Binary64 → Bool
  | .nan, _ => false
  | _, .nan => false
  | .infinity s, .infinity t => s || !t
  | .infinity s, .finite .. => s
  | .finite .., .infinity t => !t
  | .finite s m e _, .finite t n f _ => decide (scaled s m e ≤ scaled t n f)

/-- The value of a finite number with its fractional digits cut off, and nothing for the others. -/
def truncate? : Binary64 → Option Int
  | .finite s m e _ =>
      let q := scaled s m e
      some (q.num.tdiv q.den)
  | _ => none

/-- One. -/
def one : Binary64 :=
  .finite false 0x10000000000000 (-52) (by decide)

end MixedNumbers.Binary64
