import Mathlib.Tactic.TFAE
import MixedNumbers.Proofs.Checked
import MixedNumbers.Proofs.NormalForm

/-!
# Operands of the same value

A number can be spelled in many ways, and a calculation cannot tell them apart.
`calculate_exact_unwords` gives the result of an exact calculation on operands with values.
`equal_operands_tfae` says that operands have the same value exactly when their difference is
written as zero, exactly when adding zero gives the same text, and exactly when each may stand
for the other in every calculation. Adding zero and multiplying by one both write an operand in
its normal form, which they leave as it is.
-/

namespace MixedNumbers

open Grammar

/-- Three words are joined by two spaces. -/
theorem Text.unwords_three (first second third : Text) :
    unwords [first, second, third] = first ++ ' ' :: (second ++ ' ' :: third) := by
  simp [unwords]

section

variable {x y : Text} {a b : Rat}

/-- The result of an exact calculation on two operands with values, in mixed form. -/
theorem calculate_exact_unwords (o : Operator) (hx : x ∈ operands) (hy : y ∈ operands)
    (ha : Denotes x (some a)) (hb : Denotes y (some b)) (hdivisor : o = .divide → b ≠ 0) :
    calculate .exact (Text.unwords [x, o.symbol, y]) =
      .ok (MixedForm.write (o.apply .rational a b)) := by
  rw [calculate_exact_eq_map,
    calculateValue_of_words (words_unwords_operands o hx hy) hx hy ha hb,
    if_neg fun h ↦ hdivisor h.1 h.2]
  rfl

/-- Adding zero to an operand writes its value in mixed form. -/
theorem calculate_add_zero (hx : x ∈ operands) (ha : Denotes x (some a)) :
    calculate .exact (Text.unwords [x, ['+'], ['0']]) = .ok (MixedForm.write a) := by
  have hzero := MixedForm.write_mem_operands_and_denotes 0
  have hsum := calculate_exact_unwords .add hx hzero.1 ha hzero.2 nofun
  rwa [show Operator.add.apply .rational a 0 = a from Rat.add_zero a] at hsum

/-- Multiplying an operand by one writes its value in mixed form. -/
theorem calculate_multiply_one (hx : x ∈ operands) (ha : Denotes x (some a)) :
    calculate .exact (Text.unwords [x, ['*'], ['1']]) = .ok (MixedForm.write a) := by
  have hone := MixedForm.write_mem_operands_and_denotes 1
  have hproduct := calculate_exact_unwords .multiply hx hone.1 ha hone.2 nofun
  rwa [show Operator.multiply.apply .rational a 1 = a from Rat.mul_one a] at hproduct

/-- The difference of two operands is written as zero exactly when they have the same value. -/
theorem calculate_subtract_eq_zero_iff (hx : x ∈ operands) (hy : y ∈ operands)
    (ha : Denotes x (some a)) (hb : Denotes y (some b)) :
    calculate .exact (Text.unwords [x, ['-'], y]) = .ok ['0'] ↔ a = b := by
  rw [show (['-'] : Text) = Operator.subtract.symbol from rfl,
    calculate_exact_unwords .subtract hx hy ha hb nofun, Except.ok.injEq,
    MixedForm.write_eq_zero_iff, show Operator.subtract.apply .rational a b = a - b from rfl,
    sub_eq_zero]

end

/-- Two operands without a zero denominator have the same value exactly when adding zero gives the
same text, when their difference is zero, when either may stand for the other on both sides of every
operator, and when either may stand for the other in front of and behind any text. Adding zero and
multiplying by one give the same text, and leave this text as it is. -/
theorem equal_operands_tfae {x y : Text} (hx : x ∈ operands) (hxvalue : ¬ Denotes x none)
    (hy : y ∈ operands) (hyvalue : ¬ Denotes y none) :
    List.TFAE [
      Literal.parse x = Literal.parse y,
      ∃ text, calculate .exact (Text.unwords [x, ['+'], ['0']]) = .ok text ∧
        calculate .exact (Text.unwords [y, ['+'], ['0']]) = .ok text,
      calculate .exact (Text.unwords [x, ['-'], y]) = .ok ['0'],
      ∀ (precision : Precision) (o : Operator) (other : Text), other ≠ [] → ' ' ∉ other →
        calculate precision (Text.unwords [x, o.symbol, other]) =
          calculate precision (Text.unwords [y, o.symbol, other]) ∧
        calculate precision (Text.unwords [other, o.symbol, x]) =
          calculate precision (Text.unwords [other, o.symbol, y]),
      ∀ (precision : Precision) (context : Text),
        calculate precision (x ++ ' ' :: context) = calculate precision (y ++ ' ' :: context) ∧
        calculate precision (context ++ ' ' :: x) = calculate precision (context ++ ' ' :: y)] ∧
    ∃ text, calculate .exact (Text.unwords [x, ['+'], ['0']]) = .ok text ∧
      calculate .exact (Text.unwords [x, ['*'], ['1']]) = .ok text ∧
      calculate .exact (Text.unwords [text, ['+'], ['0']]) = .ok text ∧
      calculate .exact (Text.unwords [text, ['*'], ['1']]) = .ok text := by
  obtain ⟨_ | a, ha⟩ := exists_denotes_of_mem_operands hx
  · exact absurd ha hxvalue
  obtain ⟨_ | b, hb⟩ := exists_denotes_of_mem_operands hy
  · exact absurd hb hyvalue
  have hparsex := (Literal.parse_eq_ok_iff x a).2 ha
  have hparsey := (Literal.parse_eq_ok_iff y b).2 hb
  constructor
  · tfae_have 1 → 5 := by
      intro hparse precision context
      rw [← Literal.isOperand_iff] at hx hy
      exact ⟨calculate_congr (checked_congr_front hx hy hparse context) precision,
        calculate_congr (checked_congr_back hx hy hparse context) precision⟩
    tfae_have 5 → 4 := by
      intro h precision o other _ _
      have hfront := (h precision (o.symbol ++ ' ' :: other)).1
      have hback := (h precision (other ++ ' ' :: o.symbol)).2
      rw [List.append_assoc, List.append_assoc] at hback
      simp only [Text.unwords_three]
      exact ⟨hfront, hback⟩
    tfae_have 4 → 3 := by
      intro h
      obtain ⟨hne, hspace⟩ := word_of_mem_operands hy
      have hleft := (h .exact .subtract y hne hspace).1
      exact hleft.trans ((calculate_subtract_eq_zero_iff hy hy hb hb).2 rfl)
    tfae_have 3 → 2 := by
      intro h
      obtain rfl := (calculate_subtract_eq_zero_iff hx hy ha hb).1 h
      exact ⟨MixedForm.write a, calculate_add_zero hx ha, calculate_add_zero hy hb⟩
    tfae_have 2 → 1 := by
      rintro ⟨text, htextx, htexty⟩
      rw [calculate_add_zero hx ha] at htextx
      rw [calculate_add_zero hy hb, ← htextx] at htexty
      -- the mixed forms agree, and each is parsed as the value that it was written for
      rw [hparsex, hparsey, ← MixedForm.parse_write a, ← MixedForm.parse_write b,
        Except.ok.inj htexty]
    tfae_finish
  · obtain ⟨hnormal, hvalue⟩ := MixedForm.write_mem_operands_and_denotes a
    exact ⟨MixedForm.write a, calculate_add_zero hx ha, calculate_multiply_one hx ha,
      calculate_add_zero hnormal hvalue, calculate_multiply_one hnormal hvalue⟩

/-- Three halves can be spelled as a mixed number with an improper fraction behind a negative zero,
and each spelling may stand for the other. -/
theorem equal_operands_tfae_at_three_halves :
    "-0&6/4".toList ∈ operands ∧ ¬ Denotes "-0&6/4".toList none ∧
    "3/2".toList ∈ operands ∧ ¬ Denotes "3/2".toList none ∧
    calculate .exact "-0&6/4 - 3/2".toList = .ok ['0'] ∧
    ∀ precision context, calculate precision ("-0&6/4".toList ++ ' ' :: context) =
      calculate precision ("3/2".toList ++ ' ' :: context) := by
  have hx : "-0&6/4".toList ∈ operands := (Literal.isOperand_iff _).1 (by decide +kernel)
  have hy : "3/2".toList ∈ operands := (Literal.isOperand_iff _).1 (by decide +kernel)
  have hxvalue : ¬ Denotes "-0&6/4".toList none := by
    intro h
    exact absurd ((Literal.parse_eq_zeroDenominator_iff _ _).2 ⟨h, rfl⟩) (by decide +kernel)
  have hyvalue : ¬ Denotes "3/2".toList none := by
    intro h
    exact absurd ((Literal.parse_eq_zeroDenominator_iff _ _).2 ⟨h, rfl⟩) (by decide +kernel)
  have hparse : Literal.parse "-0&6/4".toList = Literal.parse "3/2".toList := by decide +kernel
  have htfae := (equal_operands_tfae hx hxvalue hy hyvalue).1
  exact ⟨hx, hxvalue, hy, hyvalue, (htfae.out 0 2).1 hparse,
    fun precision context ↦ ((htfae.out 0 4 rfl rfl).1 hparse precision context).1⟩

end MixedNumbers
