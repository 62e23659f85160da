import MixedNumbers.Proofs.FloatCalculation
import MixedNumbers.Proofs.Recovery

/-!
# Whole results of calculations in binary64

Where a calculation in binary64 does not round anything. A rational is `Representable` when it
is the value of a finite number, and then it is rounded to itself. So an operator on
representable operands is exact as soon as its result is representable (`toRat?_applyNearest`),
and if that result is a whole number, its floor leaves nothing over and the recovered fraction
is the number itself, whatever the tolerance. `calculate_float_eq_exact` says of whole texts
that the two ways of calculating agree there.
-/

namespace MixedNumbers

namespace Binary64

/-- The rational is the value of a finite number. -/
def Representable (q : Rat) : Prop :=
  ∃ x : Binary64, x.toRat? = some q

/-- Rounding a representable rational gives a number of this value. -/
theorem Representable.toRat?_ofRat {q : Rat} (h : Representable q) (zeroNegative : Bool) :
    (ofRat q zeroNegative).toRat? = some q := by
  obtain ⟨x, hx⟩ := h
  have hround : rounded q = q := rounded_of_toRat? hx
  have hlt : |rounded q| < 2 ^ (1024 : Int) := by
    rw [hround]
    exact abs_lt_of_toRat? hx
  rw [Binary64.toRat?_ofRat hlt, hround]

end Binary64

open Binary64

/-- An operator is exact on the values of the nearest numbers when its result is representable. A
zero may have either sign. -/
theorem toRat?_applyNearest_of_toRat? {o : Operator} {a b v w : Rat}
    (hleft : (ofRat a false).toRat? = some v) (hright : (ofRat b false).toRat? = some w)
    (hdivisor : ¬ (o = .divide ∧ w = 0)) (hresult : Representable (o.apply .rational v w)) :
    (o.applyNearest a b).toRat? = some (o.apply .rational v w) := by
  -- each operation rounds the exact result, and the sign of a zero does not touch its value
  have hrounded : ∃ zeroNegative,
      o.applyNearest a b = ofRat (o.apply .rational v w) zeroNegative := by
    cases o with
    | add => exact add_eq_ofRat hleft hright
    | subtract => exact sub_eq_ofRat hleft hright
    | multiply => exact mul_eq_ofRat hleft hright
    | divide => exact div_eq_ofRat hleft hright fun hzero ↦ hdivisor ⟨rfl, hzero⟩
  obtain ⟨zeroNegative, hround⟩ := hrounded
  rw [hround]
  exact hresult.toRat?_ofRat zeroNegative

/-- An operator on representable operands has an exact result when that is representable. -/
theorem toRat?_applyNearest {o : Operator} {a b : Rat} (ha : Representable a)
    (hb : Representable b) (hdivisor : ¬ (o = .divide ∧ b = 0))
    (hresult : Representable (o.apply .rational a b)) :
    (o.applyNearest a b).toRat? = some (o.apply .rational a b) :=
  toRat?_applyNearest_of_toRat? (ha.toRat?_ofRat false) (hb.toRat?_ofRat false) hdivisor hresult

/-- The outcome of an evaluation in binary64 is the recovered fraction in mixed form. -/
theorem evaluateInBinary64_outcome_of_approximate {tolerance : Binary64} {o : Operator}
    {a b q : Rat} (h : Convergent.approximate tolerance (o.applyNearest a b) = some q) :
    (evaluateInBinary64 tolerance o a b).outcome = .ok (MixedForm.write q) := by
  unfold Convergent.approximate at h
  cases hexpand : Convergent.expand tolerance (o.applyNearest a b) with
  | none =>
      rw [hexpand] at h
      cases h
  | some expanded =>
      rw [hexpand] at h
      obtain rfl := Option.some.inj h
      simp only [evaluateInBinary64, Operator.apply_binary64, hexpand]

/-- An exact value is that of the operation that the words ask for. -/
theorem exists_checked_of_calculateValue {text : Text} {q : Rat}
    (h : calculateValue text = .ok q) :
    ∃ o a b, checked text.words = .ok ⟨o, a, b⟩ ∧ o.apply .rational a b = q := by
  have hexact : calculate .exact text = .ok (MixedForm.write q) := by
    rw [calculate_exact_eq_map, h]
    rfl
  cases hchecked : checked text.words with
  | error error =>
      rw [calculate_of_checked_error hchecked] at hexact
      cases hexact
  | ok operation =>
      obtain ⟨o, a, b⟩ := operation
      rw [calculate_of_checked hchecked] at hexact
      exact ⟨o, a, b, rfl, MixedForm.write_injective (Except.ok.inj hexact)⟩

/-- If the operands of a calculation are representable and its exact value is a representable whole
number, then the calculation in binary64 has the same result as the exact one, for every operator
and every tolerance: the whole number. -/
theorem calculate_float_eq_exact {text left symbol right : Text} {a b : Rat} {n : Int}
    (hwords : text.words = [left, symbol, right])
    (hleft : Literal.parse left = .ok a) (hright : Literal.parse right = .ok b)
    (ha : Representable a) (hb : Representable b)
    (hvalue : calculateValue text = .ok (n : Rat)) (hn : Representable (n : Rat))
    (tolerance : Binary64) :
    calculate (.float tolerance) text = calculate .exact text ∧
      calculate .exact text = .ok (MixedForm.write n) := by
  obtain ⟨o, x, y, hchecked, hresult⟩ := exists_checked_of_calculateValue hvalue
  obtain ⟨_, _, hparts, -, -, hx, hy, hdivisor⟩ := checked_eq_ok_iff.1 hchecked
  rw [hwords] at hparts
  cases hparts
  obtain rfl := Except.ok.inj (hleft.symm.trans hx)
  obtain rfl := Except.ok.inj (hright.symm.trans hy)
  have hnearest : (o.applyNearest a b).toRat? = some (n : Rat) := by
    rw [← hresult] at hn ⊢
    exact toRat?_applyNearest ha hb hdivisor hn
  have happroximate := Convergent.approximate_intCast tolerance hnearest
  have hexact : calculate .exact text = .ok (MixedForm.write n) := by
    rw [calculate_exact_eq_map, hvalue]
    rfl
  refine ⟨?_, hexact⟩
  rw [hexact, calculate_of_checked hchecked]
  exact evaluateInBinary64_outcome_of_approximate happroximate

/-- A mixed number of value zero times a negative one is a negative zero in binary64. It is written
as zero all the same, also with a tolerance that compares with nothing. -/
theorem calculate_float_eq_exact_at_negative_zero :
    Text.words "1&-1/1 * -7&1/4".toList = ["1&-1/1".toList, ['*'], "-7&1/4".toList] ∧
    Literal.parse "1&-1/1".toList = .ok 0 ∧ Literal.parse "-7&1/4".toList = .ok (-29 / 4) ∧
    Representable 0 ∧ Representable (-29 / 4) ∧
    calculateValue "1&-1/1 * -7&1/4".toList = .ok ((0 : Int) : Rat) ∧
    Representable ((0 : Int) : Rat) ∧
    Operator.multiply.applyNearest 0 (-29 / 4) = zero true ∧
    calculate (.float .nan) "1&-1/1 * -7&1/4".toList = .ok (MixedForm.write ((0 : Int) : Rat)) := by
  have hwords : Text.words "1&-1/1 * -7&1/4".toList =
      ["1&-1/1".toList, ['*'], "-7&1/4".toList] := by
    decide +kernel
  have hleft : Literal.parse "1&-1/1".toList = .ok 0 := by decide +kernel
  have hright : Literal.parse "-7&1/4".toList = .ok (-29 / 4) := by decide +kernel
  have hzero : Representable 0 := ⟨zero false, by decide +kernel⟩
  have hfraction : Representable (-29 / 4) := ⟨ofRat (-29 / 4) false, by decide +kernel⟩
  have hvalue : calculateValue "1&-1/1 * -7&1/4".toList = .ok ((0 : Int) : Rat) := by
    decide +kernel
  have hnegative : Operator.multiply.applyNearest 0 (-29 / 4) = zero true := by decide +kernel
  obtain ⟨hagree, hexact⟩ :=
    calculate_float_eq_exact hwords hleft hright hzero hfraction hvalue hzero .nan
  exact ⟨hwords, hleft, hright, hzero, hfraction, hvalue, hzero, hnegative, hagree.trans hexact⟩

end MixedNumbers
