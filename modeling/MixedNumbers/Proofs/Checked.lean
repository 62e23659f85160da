import MixedNumbers.Proofs.ExactCalculation

/-!
# What is checked before a calculation

A calculation first finds the operation that the words of its text ask for, or the first check
that they fail, and only then does the precision matter. `checked` is that first part, and
`calculate_eq` says how a calculation goes on from it. `checked_eq_ok_iff` tells which words
pass, and `checked_congr_front` and `checked_congr_back` say that one operand may stand for
another of the same value.
-/

namespace MixedNumbers

/-- An operator with the values of its operands. -/
structure Operation where
  operator : Operator
  left : Rat
  right : Rat

/-- The operation that an expression asks for, or the first check that the expression fails. -/
def Expression.operation (e : Expression) : Except CalculationError Operation :=
  match e.operator with
  | .error error => .error error
  | .ok o => (e.operands o).map fun (left, right) ↦ ⟨o, left, right⟩

/-- The operation that words ask for, or the first check that they fail. -/
def checked : List Text → Except CalculationError Operation
  | [left, symbol, right] => Expression.operation ⟨left, symbol, right⟩
  | words => .error (.wordCount words.length)

/-- Any number of words but three fails the first check. -/
theorem checked_of_length_ne {words : List Text} (h : words.length ≠ 3) :
    checked words = .error (.wordCount words.length) := by
  unfold checked
  split
  · exact absurd rfl h
  · rfl

/-! ## Calculations after the checks -/

/-- A calculation carries out the operation of its words, or fails with the check that they
fail. -/
theorem calculate_eq (precision : Precision) (text : Text) :
    calculate precision text =
      match checked text.words with
      | .error error => .error error
      | .ok ⟨o, a, b⟩ => (evaluate precision o a b).outcome := by
  unfold calculate report
  by_cases hlength : text.words.length = 3
  · obtain ⟨left, symbol, right, hwords⟩ := List.length_eq_three.1 hlength
    rw [Expression.ofText_of_words hwords, hwords]
    simp only [checked, Expression.operation]
    cases Expression.operator ⟨left, symbol, right⟩ with
    | error error => rfl
    | ok o =>
        simp only
        cases Expression.operands ⟨left, symbol, right⟩ o with
        | error error => rfl
        | ok values => rfl
  · rw [Expression.ofText_of_length_ne hlength, checked_of_length_ne hlength]
    rfl

section

variable {text : Text}

/-- Words that fail a check fail with it in every precision. -/
theorem calculate_of_checked_error {error : CalculationError}
    (h : checked text.words = .error error) (precision : Precision) :
    calculate precision text = .error error := by
  rw [calculate_eq, h]

/-- Words that pass the checks are calculated by carrying out their operation. -/
theorem calculate_of_checked {o : Operator} {a b : Rat} (h : checked text.words = .ok ⟨o, a, b⟩)
    (precision : Precision) : calculate precision text = (evaluate precision o a b).outcome := by
  rw [calculate_eq, h]

/-- Texts whose words ask for the same come to the same in every precision. -/
theorem calculate_congr {other : Text} (h : checked text.words = checked other.words)
    (precision : Precision) : calculate precision text = calculate precision other := by
  rw [calculate_eq, calculate_eq, h]

end

/-! ## The operation of an expression -/

/-- Between two operands of some values a symbol gives its operation, unless the right value is
zero and would divide. -/
theorem operation_of_symbol {left right : Text} {a b : Rat} (o : Operator)
    (hleft : Literal.isOperand left = true) (hright : Literal.isOperand right = true)
    (ha : Literal.parse left = .ok a) (hb : Literal.parse right = .ok b) :
    Expression.operation ⟨left, o.symbol, right⟩ =
      if o = .divide ∧ b = 0 then .error .divisionByZero else .ok ⟨o, a, b⟩ := by
  rw [Literal.isOperand_iff] at hleft hright
  rw [Literal.parse_eq_ok_iff] at ha hb
  have hoperator : Expression.operator ⟨left, o.symbol, right⟩ = .ok o :=
    Expression.operator_of_mem hleft hright (Operator.ofSymbol?_symbol o)
  have hoperands := Expression.operands_of_some (e := ⟨left, o.symbol, right⟩) o ha hb
  simp only [Expression.operation, hoperator, hoperands]
  split <;> rfl

/-- The outcomes of the checks on the words of an expression: a word that is not an operand, a
symbol that stands for no operator, or the operator of the symbol. -/
theorem Expression.operator_cases (e : Expression) :
    (∃ word, e.operator = .error (.invalidOperand word)) ∨
    (∃ word, e.operator = .error (.invalidOperator word)) ∨
    ∃ o, e.operator = .ok o ∧ e.symbol = o.symbol ∧
      Literal.isOperand e.left = true ∧ Literal.isOperand e.right = true := by
  by_cases hleft : e.left ∈ Grammar.operands
  · by_cases hright : e.right ∈ Grammar.operands
    · by_cases hsymbol : e.symbol ∈ symbols
      · obtain ⟨o, ho⟩ := (mem_symbols_iff e.symbol).1 hsymbol
        exact Or.inr (Or.inr ⟨o, operator_of_mem hleft hright ho,
          Operator.symbol_of_ofSymbol? ho, (Literal.isOperand_iff _).2 hleft,
          (Literal.isOperand_iff _).2 hright⟩)
      · exact Or.inr (Or.inl ⟨_, operator_of_symbol_not_mem hleft hright hsymbol⟩)
    · exact Or.inl ⟨_, operator_of_right_not_mem hleft hright⟩
  · exact Or.inl ⟨_, operator_of_left_not_mem hleft⟩

/-- The outcomes of the checks on the values of an expression: an operand without a value, a zero
divisor, or the values of the operands. -/
theorem Expression.operands_cases (e : Expression) (o : Operator) :
    (∃ cause, e.operands o = .error (.unreadable cause)) ∨
    e.operands o = .error .divisionByZero ∨
    ∃ a b, e.operands o = .ok (a, b) ∧
      Literal.parse e.left = .ok a ∧ Literal.parse e.right = .ok b := by
  unfold operands
  cases hleft : Literal.parse e.left with
  | error cause => exact Or.inl ⟨cause, rfl⟩
  | ok a =>
      cases hright : Literal.parse e.right with
      | error cause => exact Or.inl ⟨cause, rfl⟩
      | ok b =>
          by_cases hdivisor : o = .divide ∧ b = 0
          · exact Or.inr (Or.inl (by simp only [if_pos hdivisor]))
          · exact Or.inr (Or.inr ⟨a, b, by simp only [if_neg hdivisor], rfl, rfl⟩)

/-- The words that pass the checks are two operands with values and the symbol of an operator
between them that would not divide by zero, and the operation has these values. -/
theorem checked_eq_ok_iff {words : List Text} {o : Operator} {a b : Rat} :
    checked words = .ok ⟨o, a, b⟩ ↔ ∃ left right, words = [left, o.symbol, right] ∧
      Literal.isOperand left = true ∧ Literal.isOperand right = true ∧
      Literal.parse left = .ok a ∧ Literal.parse right = .ok b ∧ ¬ (o = .divide ∧ b = 0) := by
  constructor
  · intro h
    by_cases hlength : words.length = 3
    · obtain ⟨left, symbol, right, rfl⟩ := List.length_eq_three.1 hlength
      have hoperation := h
      simp only [checked, Expression.operation] at h
      rcases Expression.operator_cases ⟨left, symbol, right⟩ with
        ⟨word, hword⟩ | ⟨word, hword⟩ | ⟨o, ho, rfl, hleft, hright⟩
      · rw [hword] at h
        cases h
      · rw [hword] at h
        cases h
      · simp only [ho] at h
        rcases Expression.operands_cases ⟨left, o.symbol, right⟩ o with
          ⟨cause, hcause⟩ | hzero | ⟨a, b, hvalues, ha, hb⟩
        · rw [hcause] at h
          cases h
        · rw [hzero] at h
          cases h
        · rw [hvalues] at h
          cases h
          refine ⟨left, right, rfl, hleft, hright, ha, hb, fun hdivisor ↦ ?_⟩
          rw [checked, operation_of_symbol o hleft hright ha hb, if_pos hdivisor] at hoperation
          cases hoperation
    · rw [checked_of_length_ne hlength] at h
      cases h
  · rintro ⟨left, right, rfl, hleft, hright, ha, hb, hdivisor⟩
    rw [checked, operation_of_symbol o hleft hright ha hb, if_neg hdivisor]

/-! ## Operands of the same value -/

section Congruence

variable {x y : Text}

/-- The left operand of an expression may stand for another of the same value. -/
theorem operation_congr_left (hx : Literal.isOperand x = true)
    (hy : Literal.isOperand y = true) (hparse : Literal.parse x = Literal.parse y)
    (symbol right : Text) :
    Expression.operation ⟨x, symbol, right⟩ = Expression.operation ⟨y, symbol, right⟩ := by
  simp only [Expression.operation, Expression.operator, Expression.operands, hx, hy, hparse,
    Bool.not_true, Bool.false_eq_true, if_false]

/-- The right operand of an expression may stand for another of the same value. -/
theorem operation_congr_right (hx : Literal.isOperand x = true)
    (hy : Literal.isOperand y = true) (hparse : Literal.parse x = Literal.parse y)
    (left symbol : Text) :
    Expression.operation ⟨left, symbol, x⟩ = Expression.operation ⟨left, symbol, y⟩ := by
  simp only [Expression.operation, Expression.operator, Expression.operands, hx, hy, hparse,
    Bool.not_true, Bool.false_eq_true, if_false]

/-- The first of some words may stand for another operand of the same value. -/
theorem checked_cons_congr (hx : Literal.isOperand x = true) (hy : Literal.isOperand y = true)
    (hparse : Literal.parse x = Literal.parse y) (rest : List Text) :
    checked (x :: rest) = checked (y :: rest) := by
  by_cases hlength : rest.length = 2
  · obtain ⟨symbol, right, rfl⟩ := List.length_eq_two.1 hlength
    exact operation_congr_left hx hy hparse symbol right
  · -- both have the same wrong number of words
    have hwrong (word : Text) : (word :: rest).length ≠ 3 := by simpa using hlength
    rw [checked_of_length_ne (hwrong x), checked_of_length_ne (hwrong y), List.length_cons,
      List.length_cons]

/-- The last of some words may stand for another operand of the same value. -/
theorem checked_concat_congr (hx : Literal.isOperand x = true) (hy : Literal.isOperand y = true)
    (hparse : Literal.parse x = Literal.parse y) (front : List Text) :
    checked (front ++ [x]) = checked (front ++ [y]) := by
  by_cases hlength : front.length = 2
  · obtain ⟨left, symbol, rfl⟩ := List.length_eq_two.1 hlength
    exact operation_congr_right hx hy hparse left symbol
  · have hwrong (word : Text) : (front ++ [word]).length ≠ 3 := by simpa using hlength
    rw [checked_of_length_ne (hwrong x), checked_of_length_ne (hwrong y), List.length_append,
      List.length_append, List.length_singleton, List.length_singleton]

/-- An operand is the only word of its text. -/
theorem words_of_isOperand (hx : Literal.isOperand x = true) : x.words = [x] := by
  obtain ⟨hne, hspace⟩ := word_of_mem_operands ((Literal.isOperand_iff x).1 hx)
  exact Text.words_of_no_space x hne hspace

/-- An operand at the front of a text may stand for another of the same value. -/
theorem checked_congr_front (hx : Literal.isOperand x = true) (hy : Literal.isOperand y = true)
    (hparse : Literal.parse x = Literal.parse y) (rest : Text) :
    checked (x ++ ' ' :: rest).words = checked (y ++ ' ' :: rest).words := by
  rw [Text.words_append_space, Text.words_append_space, words_of_isOperand hx,
    words_of_isOperand hy]
  exact checked_cons_congr hx hy hparse rest.words

/-- An operand at the end of a text may stand for another of the same value. -/
theorem checked_congr_back (hx : Literal.isOperand x = true) (hy : Literal.isOperand y = true)
    (hparse : Literal.parse x = Literal.parse y) (front : Text) :
    checked (front ++ ' ' :: x).words = checked (front ++ ' ' :: y).words := by
  rw [Text.words_append_space, Text.words_append_space, words_of_isOperand hx,
    words_of_isOperand hy]
  exact checked_concat_congr hx hy hparse front.words

end Congruence

end MixedNumbers
