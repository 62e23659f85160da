import MixedNumbers.Proofs.EqualOperands

/-!
# Operands in the other order

What becomes of an exact calculation when its operands change places. A sum and a product stay the
same text, and a difference becomes its opposite, which is the same text with a minus sign more or
less unless it is zero. `failsEitherWay_or_denotes` says that the order does not decide whether a
calculation fails: it fails in both orders as soon as a word has no value, and with the same error,
unless the words have the same fault and each order reports the one that it meets first.
-/

namespace MixedNumbers

open Grammar

/-- `SwappedErrors a b error swapped` says that one error may be reported for two words and the
other one for the words in the other order. -/
inductive SwappedErrors (a b : Text) : CalculationError → CalculationError → Prop where
  | neitherOperand :
      a ∉ operands → b ∉ operands → SwappedErrors a b (.invalidOperand a) (.invalidOperand b)
  | neitherDefined :
      Denotes a none → Denotes b none →
      SwappedErrors a b (.unreadable (.zeroDenominator a)) (.unreadable (.zeroDenominator b))
  | same (error : CalculationError) :
      ¬ (a ∉ operands ∧ b ∉ operands) → ¬ (Denotes a none ∧ Denotes b none) →
      SwappedErrors a b error error

/-- Exact calculations on the words in both orders fail, with errors that go together. -/
def FailsEitherWay (o : Operator) (a b : Text) : Prop :=
  ∃ error swapped, calculate .exact (Text.unwords [a, o.symbol, b]) = .error error ∧
    calculate .exact (Text.unwords [b, o.symbol, a]) = .error swapped ∧
    SwappedErrors a b error swapped

/-- `Opposite text other` says that both are the text of zero, or that one is the other one with a
minus sign in front, the only one in it. -/
inductive Opposite : Text → Text → Prop where
  | zero : Opposite ['0'] ['0']
  | positive (text : Text) : '-' ∉ text → Opposite text ('-' :: text)
  | negative (text : Text) : '-' ∉ text → Opposite ('-' :: text) text

/-! ## Failures -/

variable {a b : Text}

/-- The errors in the other order go together, too. -/
theorem SwappedErrors.symm {error swapped : CalculationError}
    (h : SwappedErrors a b error swapped) : SwappedErrors b a swapped error := by
  cases h with
  | neitherOperand ha hb => exact .neitherOperand hb ha
  | neitherDefined ha hb => exact .neitherDefined hb ha
  | same _ hoperands hdefined =>
      exact .same _ (fun h ↦ hoperands h.symm) fun h ↦ hdefined h.symm

/-- What fails in both orders fails in both orders. -/
theorem FailsEitherWay.symm {o : Operator} (h : FailsEitherWay o a b) : FailsEitherWay o b a := by
  obtain ⟨error, swapped, herror, hswapped, htogether⟩ := h
  exact ⟨swapped, error, hswapped, herror, htogether.symm⟩

section

variable (ha : a ≠ [] ∧ ' ' ∉ a) (hb : b ≠ [] ∧ ' ' ∉ b)

include ha hb

/-- Errors on which the words settle in both orders are reported in both orders. -/
theorem failsEitherWay_of_settles {o : Operator} {error swapped : CalculationError}
    (herror : Settles [a, o.symbol, b] (.error error))
    (hswapped : Settles [b, o.symbol, a] (.error swapped))
    (htogether : SwappedErrors a b error swapped) : FailsEitherWay o a b := by
  rw [← words_unwords_symbol o ha hb] at herror
  rw [← words_unwords_symbol o hb ha] at hswapped
  exact ⟨error, swapped, herror.calculate_eq, hswapped.calculate_eq, htogether⟩

/-- One word that is no operand is reported in both orders. -/
theorem failsEitherWay_of_not_mem (o : Operator) (hleft : a ∉ operands) (hright : b ∈ operands) :
    FailsEitherWay o a b := by
  have htogether : SwappedErrors a b (.invalidOperand a) (.invalidOperand a) :=
    .same _ (fun h ↦ h.2 hright) fun h ↦ hleft (mem_operands_of_denotes_none h.1)
  exact failsEitherWay_of_settles ha hb (.leftOperand _ _ _ hleft) (.rightOperand _ _ _ hright hleft)
    htogether

/-- One operand without a value is reported in both orders, if the other one has a value. -/
theorem failsEitherWay_of_denotes_none (o : Operator) (hleft : a ∈ operands)
    (hright : b ∈ operands) (hnone : Denotes a none) {y : Rat} (hy : Denotes b (some y)) :
    FailsEitherWay o a b := by
  have hsymbol := symbol_mem_symbols o
  have htogether : SwappedErrors a b (.unreadable (.zeroDenominator a))
      (.unreadable (.zeroDenominator a)) :=
    .same _ (fun h ↦ h.1 hleft) fun h ↦ Literal.not_denotes_none hy h.2
  exact failsEitherWay_of_settles ha hb (.leftUndefined _ _ _ hleft hright hsymbol hnone)
    (.rightUndefined _ _ _ y hright hleft hsymbol hy hnone) htogether

/-- Two words fail in both orders, or they are operands with values. -/
theorem failsEitherWay_or_denotes (o : Operator) :
    FailsEitherWay o a b ∨ (a ∈ operands ∧ b ∈ operands ∧
      ∃ x y, Denotes a (some x) ∧ Denotes b (some y)) := by
  by_cases hleft : a ∈ operands
  · by_cases hright : b ∈ operands
    · have hsymbol := symbol_mem_symbols o
      obtain ⟨_ | x, hx⟩ := exists_denotes_of_mem_operands hleft
      · obtain ⟨_ | y, hy⟩ := exists_denotes_of_mem_operands hright
        · exact Or.inl (failsEitherWay_of_settles ha hb
            (.leftUndefined _ _ _ hleft hright hsymbol hx)
            (.leftUndefined _ _ _ hright hleft hsymbol hy) (.neitherDefined hx hy))
        · exact Or.inl (failsEitherWay_of_denotes_none ha hb o hleft hright hx hy)
      · obtain ⟨_ | y, hy⟩ := exists_denotes_of_mem_operands hright
        · exact Or.inl (failsEitherWay_of_denotes_none hb ha o hright hleft hy hx).symm
        · exact Or.inr ⟨hleft, hright, x, y, hx, hy⟩
    · exact Or.inl (failsEitherWay_of_not_mem hb ha o hright hleft).symm
  · by_cases hright : b ∈ operands
    · exact Or.inl (failsEitherWay_of_not_mem ha hb o hleft hright)
    · exact Or.inl (failsEitherWay_of_settles ha hb (.leftOperand _ _ _ hleft)
        (.leftOperand _ _ _ hright) (.neitherOperand hleft hright))

end

/-! ## Results -/

/-- A rational and its opposite are written as opposite texts. -/
theorem MixedForm.opposite_write (q : Rat) : Opposite (write q) (write (-q)) := by
  rcases lt_trichotomy q 0 with hneg | rfl | hpos
  · rw [write_of_neg hneg]
    exact .negative _ (magnitude_write (neg_pos.2 hneg)).minus_not_mem
  · exact .zero
  · rw [write_neg hpos]
    exact .positive _ (magnitude_write hpos).minus_not_mem

/-- When two words change places around an operator, a sum and a product stay the same text or fail
in both orders, and a difference becomes the opposite text or fails in both orders. What fails in
both orders fails with the same error, unless neither word is an operand or neither has a value:
then each order reports its own left word. -/
theorem swapped_operands {a b : Text} (ha : a ≠ [] ∧ ' ' ∉ a) (hb : b ≠ [] ∧ ' ' ∉ b) :
    (∀ o, o = .add ∨ o = .multiply →
      (∃ text, calculate .exact (Text.unwords [a, o.symbol, b]) = .ok text ∧
        calculate .exact (Text.unwords [b, o.symbol, a]) = .ok text) ∨ FailsEitherWay o a b) ∧
    ((∃ text other, calculate .exact (Text.unwords [a, ['-'], b]) = .ok text ∧
      calculate .exact (Text.unwords [b, ['-'], a]) = .ok other ∧ Opposite text other) ∨
      FailsEitherWay .subtract a b) := by
  constructor
  · intro o ho
    rcases failsEitherWay_or_denotes ha hb o with hfails | ⟨hleft, hright, x, y, hx, hy⟩
    · exact Or.inr hfails
    · have hdivisor (q : Rat) (h : o = .divide) : q ≠ 0 := by
        rcases ho with rfl | rfl <;> cases h
      have hcomm : o.apply .rational y x = o.apply .rational x y := by
        rcases ho with rfl | rfl
        · exact add_comm y x
        · exact mul_comm y x
      refine Or.inl ⟨_, calculate_exact_unwords o hleft hright hx hy (hdivisor y), ?_⟩
      rw [calculate_exact_unwords o hright hleft hy hx (hdivisor x), hcomm]
  · rcases failsEitherWay_or_denotes ha hb .subtract with hfails | ⟨hleft, hright, x, y, hx, hy⟩
    · exact Or.inr hfails
    · have hopposite := MixedForm.opposite_write (x - y)
      rw [neg_sub] at hopposite
      exact Or.inl ⟨_, _, calculate_exact_unwords .subtract hleft hright hx hy nofun,
        calculate_exact_unwords .subtract hright hleft hy hx nofun, hopposite⟩

/-- One half less a negative mixed number with an improper fraction is four, and the other way round
it is minus four. -/
theorem swapped_operands_of_half :
    ("1/2".toList ≠ [] ∧ ' ' ∉ "1/2".toList) ∧ ("-2&6/4".toList ≠ [] ∧ ' ' ∉ "-2&6/4".toList) ∧
    calculate .exact "1/2 - -2&6/4".toList = .ok ['4'] ∧
    ∃ other, calculate .exact "-2&6/4 - 1/2".toList = .ok other ∧ Opposite ['4'] other := by
  have hleft : "1/2".toList ≠ [] ∧ ' ' ∉ "1/2".toList := by decide
  have hright : "-2&6/4".toList ≠ [] ∧ ' ' ∉ "-2&6/4".toList := by decide
  have hfour : calculate .exact "1/2 - -2&6/4".toList = .ok ['4'] := by decide +kernel
  refine ⟨hleft, hright, hfour, ?_⟩
  rcases (swapped_operands hleft hright).2 with
    ⟨text, other, htext, hother, hopposite⟩ | ⟨error, swapped, herror, -⟩
  · obtain rfl := Except.ok.inj (htext.symm.trans hfour)
    exact ⟨other, hother, hopposite⟩
  · cases herror.symm.trans hfour

end MixedNumbers
