import Mathlib.Data.Rat.Lemmas
import Mathlib.Tactic.Linarith
import MixedNumbers.Proofs.ExactCalculation

/-!
# Reading the mixed form

The mixed form of a rational is an operand that denotes this rational. `write_is_read_back`
draws the conclusions: it is parsed as the rational, different rationals have different mixed
forms, and the result of one calculation can stand as an operand of the next.
-/

namespace MixedNumbers.MixedForm

open Grammar

/-! ## Whole part and remainder -/

/-- The whole part changes its sign with the rational. -/
theorem wholePart_neg (q : Rat) : wholePart (-q) = -wholePart q := by
  rw [wholePart, Rat.neg_num, Rat.neg_den, Int.neg_tdiv, wholePart]

/-- The remainder does not depend on the sign. -/
theorem remainder_neg (q : Rat) : remainder (-q) = remainder q := by
  have hnum : (-q).num - ((-q).den : Int) * wholePart (-q) =
      -(q.num - (q.den : Int) * wholePart q) := by
    rw [wholePart_neg, Rat.neg_num, Rat.neg_den, Int.mul_neg]
    omega
  rw [remainder, hnum, Int.natAbs_neg, remainder]

/-- The whole part of a rational that is not negative is not negative. -/
theorem wholePart_nonneg {q : Rat} (hq : 0 ≤ q) : 0 ≤ wholePart q :=
  Int.tdiv_nonneg (Rat.num_nonneg.2 hq) (Int.natCast_nonneg _)

/-- The whole part of a rational that is not positive is not positive. -/
theorem wholePart_nonpos {q : Rat} (hq : q ≤ 0) : wholePart q ≤ 0 := by
  have hneg := wholePart_nonneg (neg_nonneg.2 hq)
  rw [wholePart_neg] at hneg
  omega

/-- A rational that is not negative is its whole part plus what the remainder is of the
denominator. -/
theorem eq_add_of_nonneg {q : Rat} (hq : 0 ≤ q) :
    q = (wholePart q : Rat) + ((remainder q : Int) : Rat) / ((q.den : Int) : Rat) := by
  have hdivision : (q.den : Int) * wholePart q + q.num.tmod q.den = q.num :=
    Int.mul_tdiv_add_tmod q.num q.den
  have hmod : 0 ≤ q.num.tmod q.den := Int.tmod_nonneg _ (Rat.num_nonneg.2 hq)
  have hnum : q.num = (q.den : Int) * wholePart q + (remainder q : Int) := by
    rw [remainder]
    omega
  have hden : ((q.den : Int) : Rat) ≠ 0 := by exact_mod_cast q.den_nz
  have hcast : (q.num : Rat) =
      ((q.den : Int) : Rat) * wholePart q + ((remainder q : Int) : Rat) := by
    exact_mod_cast congrArg (Int.cast : Int → Rat) hnum
  calc q = (q.num : Rat) / ((q.den : Int) : Rat) := (Rat.num_div_den q).symm
    _ = wholePart q + ((remainder q : Int) : Rat) / ((q.den : Int) : Rat) := by
        rw [hcast, add_div, mul_div_cancel_left₀ _ hden]

/-- A rational that is not positive is its whole part less what the remainder is of the
denominator. -/
theorem eq_sub_of_nonpos {q : Rat} (hq : q ≤ 0) :
    q = (wholePart q : Rat) - ((remainder q : Int) : Rat) / ((q.den : Int) : Rat) := by
  have hneg := eq_add_of_nonneg (neg_nonneg.2 hq)
  rw [wholePart_neg, remainder_neg, Rat.neg_den, Int.cast_neg] at hneg
  linarith

/-- A rational without a remainder is its whole part. -/
theorem eq_wholePart_of_remainder_eq_zero {q : Rat} (hremainder : remainder q = 0) :
    q = (wholePart q : Rat) := by
  rcases le_total 0 q with hsign | hsign
  · simpa [hremainder] using eq_add_of_nonneg hsign
  · simpa [hremainder] using eq_sub_of_nonpos hsign

/-! ## Written texts -/

/-- A rational without a remainder is written as its whole part. -/
theorem write_of_remainder_eq_zero {q : Rat} (hremainder : remainder q = 0) :
    write q = Numeral.write (wholePart q) := by
  by_cases hwhole : wholePart q = 0
  · rw [write, if_pos hwhole, if_pos hremainder, hwhole]
    rfl
  · rw [write, if_neg hwhole, if_pos hremainder]

/-- A rational without a whole part is written as its numerator over its denominator. -/
theorem write_of_wholePart_eq_zero {q : Rat} (hwhole : wholePart q = 0)
    (hremainder : remainder q ≠ 0) :
    write q = Numeral.write q.num ++ '/' :: Numeral.writeNat q.den := by
  have habs : remainder q = q.num.natAbs := by simp [remainder, hwhole]
  by_cases hneg : q < 0
  · have hnum : q.num < 0 := Rat.num_neg.2 hneg
    rw [write, if_pos hwhole, if_neg hremainder, if_pos hneg, Numeral.write, if_pos hnum, habs]
    rfl
  · have hnum : ¬ q.num < 0 := mt Rat.num_neg.1 hneg
    rw [write, if_pos hwhole, if_neg hremainder, if_neg hneg, Numeral.write, if_neg hnum, habs]
    rfl

/-- A rational with a whole part and a remainder is written as the two joined. -/
theorem write_of_ne_zero {q : Rat} (hwhole : wholePart q ≠ 0) (hremainder : remainder q ≠ 0) :
    write q =
      Numeral.write (wholePart q) ++ '&' ::
        (Numeral.writeNat (remainder q) ++ '/' :: Numeral.writeNat q.den) := by
  rw [write, if_neg hwhole, if_neg hremainder, writeRatio]

/-- The digits that are written for a natural number stand for it. -/
theorem whole_writeNat (n : Nat) : Whole (Numeral.writeNat n) n :=
  .unsigned _ n (digits_of_readDigits (Numeral.readDigits_writeNat n))

/-- What is written for an integer is a whole number that stands for it. -/
theorem whole_write (i : Int) : Whole (Numeral.write i) i :=
  whole_of_read (Numeral.read_write i)

/-- A numerator over the written denominator of a rational is a ratio and denotes the quotient. -/
theorem denotes_over_den {numerator : Text} {n : Int} (hn : Whole numerator n) (q : Rat) :
    numerator ++ '/' :: Numeral.writeNat q.den ∈ ratiosOver wholes ∧
      Denotes (numerator ++ '/' :: Numeral.writeNat q.den)
        (some ((n : Rat) / ((q.den : Int) : Rat))) := by
  have hden : Whole (Numeral.writeNat q.den) q.den := whole_writeNat q.den
  have hne : (q.den : Int) ≠ 0 := by exact_mod_cast q.den_nz
  refine ⟨(mem_ratiosOver_iff _ _).2 ?_, .ratio _ _ n q.den hn hden hne⟩
  exact ⟨numerator, hn.mem_wholes, _, hden.mem_wholes, rfl⟩

/-- The mixed form of a rational is an operand and denotes the rational. -/
theorem write_mem_operands_and_denotes (q : Rat) :
    write q ∈ operands ∧ Denotes (write q) (some q) := by
  have hwhole : Whole (Numeral.write (wholePart q)) (wholePart q) := whole_write _
  by_cases hremainder : remainder q = 0
  · rw [write_of_remainder_eq_zero hremainder]
    refine ⟨Or.inl hwhole.mem_wholes, ?_⟩
    have hdenotes := Denotes.whole _ _ hwhole
    rwa [← eq_wholePart_of_remainder_eq_zero hremainder] at hdenotes
  · by_cases hzero : wholePart q = 0
    · obtain ⟨hratio, hdenotes⟩ := denotes_over_den (whole_write q.num) q
      rw [write_of_wholePart_eq_zero hzero hremainder]
      refine ⟨Or.inr (mem_joined_mul_of_mem hratio), ?_⟩
      rwa [Int.cast_natCast, Rat.num_div_den] at hdenotes
    · obtain ⟨hratio, hdenotes⟩ := denotes_over_den (whole_writeNat (remainder q)) q
      rw [write_of_ne_zero hzero hremainder]
      refine ⟨Or.inr (append_mem_joined_mul hwhole.mem_wholes (mem_joined_mul_of_mem hratio)), ?_⟩
      -- the written remainder has no sign: it is that of the whole part, which is not zero here
      rcases le_total 0 q with hsign | hsign
      · have hjoined := Denotes.plus _ _ _ _ hwhole (wholePart_nonneg hsign) hdenotes
        rwa [Option.map_some, ← eq_add_of_nonneg hsign] at hjoined
      · have hneg : wholePart q < 0 := lt_of_le_of_ne (wholePart_nonpos hsign) hzero
        have hjoined := Denotes.minus _ _ _ _ hwhole hneg hdenotes
        rwa [Option.map_some, ← eq_sub_of_nonpos hsign] at hjoined

/-- The mixed form of a rational is a non-empty text without spaces that passes the check for
operands and is parsed as that rational, and no other rational has the same one. On either side
of an operator it stands for the rational, whatever the other operand is. -/
theorem write_is_read_back (q : Rat) :
    write q ≠ [] ∧ ' ' ∉ write q ∧ Literal.isOperand (write q) = true ∧
    Literal.parse (write q) = .ok q ∧
    (∀ r, write r = write q → r = q) ∧
    (∀ (o : Operator) (other : Text) (b : Rat),
      Literal.isOperand other = true → Literal.parse other = .ok b →
      calculateValue (Text.unwords [write q, o.symbol, other]) =
        (if o = .divide ∧ b = 0 then .error .divisionByZero else .ok (o.apply .rational q b)) ∧
      calculateValue (Text.unwords [other, o.symbol, write q]) =
        (if o = .divide ∧ q = 0 then .error .divisionByZero else .ok (o.apply .rational b q))) := by
  obtain ⟨hoperand, hdenotes⟩ := write_mem_operands_and_denotes q
  obtain ⟨hne, hspace⟩ := word_of_mem_operands hoperand
  have hparse : Literal.parse (write q) = .ok q := (Literal.parse_eq_ok_iff _ q).2 hdenotes
  refine ⟨hne, hspace, (Literal.isOperand_iff _).2 hoperand, hparse, ?_, ?_⟩
  · intro r hwrite
    have hr := (Literal.parse_eq_ok_iff _ r).2 (write_mem_operands_and_denotes r).2
    rw [hwrite, hparse] at hr
    exact (Except.ok.inj hr).symm
  · intro o other b hother hb
    rw [Literal.isOperand_iff] at hother
    rw [Literal.parse_eq_ok_iff] at hb
    constructor
    · exact calculateValue_of_words (words_unwords_operands o hoperand hother) hoperand hother
        hdenotes hb
    · exact calculateValue_of_words (words_unwords_operands o hother hoperand) hother hoperand
        hb hdenotes

end MixedNumbers.MixedForm
