import MixedNumbers.Proofs.Checked
import MixedNumbers.Proofs.Convergent
import MixedNumbers.Proofs.NormalForm

/-!
# Calculations in binary64

How calculations in binary64 compare with exact ones. They fail the same checks, since the
divisor is compared with zero before anything is rounded, and they can only go apart once both
operands have values. `evaluateInBinary64_cases` says what a calculation in binary64 comes to from
there. `calculate_float_agrees` says of every text and every tolerance which errors both
calculations share, when the result in binary64 is reported as not finite, and that it is a mixed
form otherwise.
-/

namespace MixedNumbers

/-- The result of an operator on the binary64 numbers nearest to two rationals. -/
def Operator.applyNearest : Operator → Rat → Rat → Binary64
  | .add, a, b => (Binary64.ofRat a false).add (Binary64.ofRat b false)
  | .subtract, a, b => (Binary64.ofRat a false).sub (Binary64.ofRat b false)
  | .multiply, a, b => (Binary64.ofRat a false).mul (Binary64.ofRat b false)
  | .divide, a, b => (Binary64.ofRat a false).div (Binary64.ofRat b false)

/-- An operator is applied to the nearest numbers by the operation of its name. -/
theorem Operator.apply_binary64 (o : Operator) (a b : Rat) :
    o.apply .binary64 (Binary64.ofRat a false) (Binary64.ofRat b false) = o.applyNearest a b := by
  cases o <;> rfl

/-- The numbers that are not finite are the two infinities and not-a-number. -/
theorem Binary64.isFinite_eq_false_iff (x : Binary64) :
    x.isFinite = false ↔ x = .nan ∨ ∃ negative, x = .infinity negative := by
  cases x with
  | nan => simp [isFinite]
  | infinity negative => simp [isFinite]
  | finite negative significand exponent hcanonical => simp [isFinite]

section

variable (tolerance : Binary64) (o : Operator) (a b : Rat)

/-- A result that is not finite is an error. A finite one is expanded from its floor, through proper
convergents only, and the last convergent is written in mixed form. -/
theorem evaluateInBinary64_cases :
    ((o.applyNearest a b).isFinite = false ∧
      evaluateInBinary64 tolerance o a b =
        ⟨[.evaluatedInBinary64 (o.applyNearest a b), .notFinite (o.applyNearest a b)],
          .error (.notFinite (o.applyNearest a b))⟩) ∨
    ∃ (v : Rat) (start : Convergent) (expansion : Convergent.Expansion),
      (o.applyNearest a b).toRat? = some v ∧
      evaluateInBinary64 tolerance o a b =
        ⟨.evaluatedInBinary64 (o.applyNearest a b) ::
            expansion.convergents.map Record.convergent,
          .ok (MixedForm.write (expansion.last start).value)⟩ ∧
      start.value = ⌊v⌋ ∧ ∀ reached ∈ expansion.convergents, reached.Proper := by
  cases hfinite : (o.applyNearest a b).isFinite with
  | false =>
      refine Or.inl ⟨rfl, ?_⟩
      simp only [evaluateInBinary64, Operator.apply_binary64,
        Convergent.expand_of_not_finite tolerance hfinite]
  | true =>
      obtain ⟨v, hv⟩ := (Binary64.isFinite_iff _).1 hfinite
      obtain ⟨start, expansion, hexpand, hfloor, -, hproper⟩ :=
        Convergent.exists_expand tolerance hv
      refine Or.inr ⟨v, start, expansion, hv, ?_, hfloor, hproper⟩
      simp only [evaluateInBinary64, Operator.apply_binary64, hexpand]

/-- The error of an evaluation in binary64 is a result that is not finite. -/
theorem evaluateInBinary64_outcome_eq_error_iff (error : CalculationError) :
    (evaluateInBinary64 tolerance o a b).outcome = .error error ↔
      (o.applyNearest a b).isFinite = false ∧ error = .notFinite (o.applyNearest a b) := by
  rcases evaluateInBinary64_cases tolerance o a b with
    ⟨hfinite, hevaluate⟩ | ⟨v, start, expansion, hv, hevaluate, -⟩
  · rw [hevaluate, hfinite]
    exact ⟨fun h ↦ ⟨rfl, (Except.error.inj h).symm⟩, fun h ↦ congrArg _ h.2.symm⟩
  · rw [hevaluate, Binary64.isFinite_of_toRat? hv]
    exact ⟨nofun, fun h ↦ nomatch h.1⟩

/-- The text of an evaluation in binary64 is a mixed form. -/
theorem evaluateInBinary64_outcome_eq_ok {text : Text}
    (h : (evaluateInBinary64 tolerance o a b).outcome = .ok text) :
    ∃ q, MixedForm.write q = text := by
  rcases evaluateInBinary64_cases tolerance o a b with
    ⟨-, hevaluate⟩ | ⟨v, start, expansion, -, hevaluate, -⟩
  · rw [hevaluate] at h
    cases h
  · rw [hevaluate] at h
    exact ⟨_, Except.ok.inj h⟩

end

section

variable {text : Text}

/-- The words of an exact calculation that fails settle on its error. -/
theorem settles_of_calculate_exact {error : CalculationError}
    (h : calculate .exact text = .error error) : Settles text.words (.error error) := by
  rw [calculate_exact_eq_map] at h
  cases hvalue : calculateValue text with
  | ok q =>
      rw [hvalue] at h
      cases h
  | error other =>
      rw [hvalue] at h
      obtain rfl := Except.error.inj h
      exact (calculateValue_eq_iff text _).1 hvalue

/-- An exact calculation never reports a result that is not finite. -/
theorem calculate_exact_ne_notFinite (text : Text) (x : Binary64) :
    calculate .exact text ≠ .error (.notFinite x) := by
  intro h
  have hsettles := settles_of_calculate_exact h
  generalize text.words = words at hsettles
  -- no rule settles on this error
  cases hsettles

/-- An exact calculation reports a division by zero only where the exact value of the right operand
of a quotient is zero. -/
theorem divisor_of_calculate_exact (h : calculate .exact text = .error .divisionByZero) :
    ∃ left right, text.words = [left, ['/'], right] ∧ Literal.parse right = .ok 0 := by
  have hsettles := settles_of_calculate_exact h
  generalize text.words = words at hsettles ⊢
  cases hsettles with
  | zeroDivisor left right a hleft hright ha hzero =>
      exact ⟨left, right, rfl, (Literal.parse_eq_ok_iff right 0).2 hzero⟩

/-- Only a check can make an exact calculation fail. -/
theorem checked_of_calculate_exact {error : CalculationError}
    (h : calculate .exact text = .error error) : checked text.words = .error error := by
  cases hchecked : checked text.words with
  | error other =>
      rw [calculate_of_checked_error hchecked] at h
      exact congrArg _ (Except.error.inj h)
  | ok operation =>
      rw [calculate_of_checked hchecked] at h
      cases h

/-- An exact calculation and one in binary64 fail the same checks. -/
theorem calculate_float_of_exact_error {error : CalculationError}
    (h : calculate .exact text = .error error) (tolerance : Binary64) :
    calculate (.float tolerance) text = .error error :=
  calculate_of_checked_error (checked_of_calculate_exact h) _

/-- A calculation in any precision reports a division by zero only where the exact value of the
right operand of a quotient is zero. -/
theorem divisor_of_calculate {precision : Precision}
    (h : calculate precision text = .error .divisionByZero) :
    ∃ left right, text.words = [left, ['/'], right] ∧ Literal.parse right = .ok 0 := by
  cases hchecked : checked text.words with
  | error error =>
      rw [calculate_of_checked_error hchecked] at h
      obtain rfl := Except.error.inj h
      exact divisor_of_calculate_exact (calculate_of_checked_error hchecked .exact)
  | ok operation =>
      rw [calculate_of_checked hchecked] at h
      cases precision with
      | exact => cases h
      | float tolerance =>
          cases ((evaluateInBinary64_outcome_eq_error_iff tolerance _ _ _ _).1 h).2

/-- A calculation in binary64 has every error of the exact one. Where the exact one has a result,
the one in binary64 is an error exactly when the result of the operator on the rounded operands is
an infinity or not-a-number, which the error tells, and otherwise gives an operand that parsing and
writing leave as it is. An exact calculation never has this error, and neither reports a division
by zero unless the divisor is zero before rounding. -/
theorem calculate_float_agrees (tolerance : Binary64) (text : Text) :
    (∀ error, calculate .exact text = .error error →
      calculate (.float tolerance) text = .error error) ∧
    (∀ result, calculate .exact text = .ok result →
      ∃ left o right a b, text.words = [left, Operator.symbol o, right] ∧
        Literal.isOperand left = true ∧ Literal.isOperand right = true ∧
        Literal.parse left = .ok a ∧ Literal.parse right = .ok b ∧
        (calculate (.float tolerance) text = .error (.notFinite (o.applyNearest a b)) ∨
          ∃ written q, calculate (.float tolerance) text = .ok written ∧
            Literal.isOperand written = true ∧ Literal.parse written = .ok q ∧
            MixedForm.write q = written) ∧
        (calculate (.float tolerance) text = .error (.notFinite (o.applyNearest a b)) ↔
          o.applyNearest a b = .nan ∨ ∃ negative, o.applyNearest a b = .infinity negative)) ∧
    (∀ x, calculate .exact text ≠ .error (.notFinite x)) ∧
    ∀ precision, calculate precision text = .error .divisionByZero →
      ∃ left right, text.words = [left, ['/'], right] ∧ Literal.parse right = .ok 0 := by
  refine ⟨fun error h ↦ calculate_float_of_exact_error h tolerance, ?_,
    calculate_exact_ne_notFinite text, fun precision h ↦ divisor_of_calculate h⟩
  intro result hexact
  cases hchecked : checked text.words with
  | error error =>
      rw [calculate_of_checked_error hchecked] at hexact
      cases hexact
  | ok operation =>
      obtain ⟨o, a, b⟩ := operation
      obtain ⟨left, right, hwords, hleft, hright, ha, hb, -⟩ := checked_eq_ok_iff.1 hchecked
      have hfloat : calculate (.float tolerance) text =
          (evaluateInBinary64 tolerance o a b).outcome := calculate_of_checked hchecked _
      have herror := evaluateInBinary64_outcome_eq_error_iff tolerance o a b
      rw [hfloat]
      refine ⟨left, o, right, a, b, hwords, hleft, hright, ha, hb, ?_, ?_⟩
      · cases houtcome : (evaluateInBinary64 tolerance o a b).outcome with
        | error error =>
            rw [((herror error).1 houtcome).2]
            exact Or.inl rfl
        | ok written =>
            obtain ⟨q, rfl⟩ := evaluateInBinary64_outcome_eq_ok tolerance o a b houtcome
            obtain ⟨hmem, -⟩ := MixedForm.write_mem_operands_and_denotes q
            exact Or.inr ⟨_, q, rfl, (Literal.isOperand_iff _).2 hmem, MixedForm.parse_write q, rfl⟩
      · rw [herror, ← Binary64.isFinite_eq_false_iff]
        exact ⟨And.left, fun hfinite ↦ ⟨hfinite, rfl⟩⟩

end

end MixedNumbers
