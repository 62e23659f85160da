import MixedNumbers.Calculation
import MixedNumbers.Proofs.Reading
import MixedNumbers.Proofs.Words

/-!
# Exact calculations

What a calculation on exact rationals comes to, as a relation between the words of an
expression and an outcome. `Settles` gives one rule for every stage at which a calculation
can fail and one for every operator; it is built on the written forms of numbers and their
meanings alone. `calculate_exact_iff_settles` says that a calculation has the outcome on
which its words settle, as a rational and in mixed form.
-/

namespace MixedNumbers

open Grammar

/-- The symbols of the operators. -/
def symbols : List Text :=
  [['+'], ['-'], ['*'], ['/']]

/-- `Settles words outcome` says what the words of an expression come to in exact arithmetic. The
rules for errors are in the order of the stages, and each of them tells what the stages before it
found. -/
inductive Settles : List Text → Except CalculationError Rat → Prop where
  | wordCount (words : List Text) :
      words.length ≠ 3 → Settles words (.error (.wordCount words.length))
  | leftOperand (left symbol right : Text) :
      left ∉ operands → Settles [left, symbol, right] (.error (.invalidOperand left))
  | rightOperand (left symbol right : Text) :
      left ∈ operands → right ∉ operands →
      Settles [left, symbol, right] (.error (.invalidOperand right))
  | symbol (left symbol right : Text) :
      left ∈ operands → right ∈ operands → symbol ∉ symbols →
      Settles [left, symbol, right] (.error (.invalidOperator symbol))
  | leftUndefined (left symbol right : Text) :
      left ∈ operands → right ∈ operands → symbol ∈ symbols → Denotes left none →
      Settles [left, symbol, right] (.error (.unreadable (.zeroDenominator left)))
  | rightUndefined (left symbol right : Text) (a : Rat) :
      left ∈ operands → right ∈ operands → symbol ∈ symbols →
      Denotes left (some a) → Denotes right none →
      Settles [left, symbol, right] (.error (.unreadable (.zeroDenominator right)))
  | zeroDivisor (left right : Text) (a : Rat) :
      left ∈ operands → right ∈ operands → Denotes left (some a) → Denotes right (some 0) →
      Settles [left, ['/'], right] (.error .divisionByZero)
  | sum (left right : Text) (a b : Rat) :
      left ∈ operands → right ∈ operands → Denotes left (some a) → Denotes right (some b) →
      Settles [left, ['+'], right] (.ok (a + b))
  | difference (left right : Text) (a b : Rat) :
      left ∈ operands → right ∈ operands → Denotes left (some a) → Denotes right (some b) →
      Settles [left, ['-'], right] (.ok (a - b))
  | product (left right : Text) (a b : Rat) :
      left ∈ operands → right ∈ operands → Denotes left (some a) → Denotes right (some b) →
      Settles [left, ['*'], right] (.ok (a * b))
  | quotient (left right : Text) (a b : Rat) :
      left ∈ operands → right ∈ operands → Denotes left (some a) → Denotes right (some b) →
      b ≠ 0 → Settles [left, ['/'], right] (.ok (a / b))

/-! ## The stages of a calculation -/

/-- The symbols are the texts that stand for an operator. -/
theorem mem_symbols_iff (text : Text) :
    text ∈ symbols ↔ ∃ operator, Operator.ofSymbol? text = some operator := by
  constructor
  · intro h
    simp only [symbols, List.mem_cons, List.not_mem_nil, or_false] at h
    rcases h with rfl | rfl | rfl | rfl
    · exact ⟨.add, rfl⟩
    · exact ⟨.subtract, rfl⟩
    · exact ⟨.multiply, rfl⟩
    · exact ⟨.divide, rfl⟩
  · rintro ⟨operator, h⟩
    rw [Operator.symbol_of_ofSymbol? h]
    cases operator <;> decide

/-- The symbol of an operator is one. -/
theorem symbol_mem_symbols (o : Operator) : o.symbol ∈ symbols :=
  (mem_symbols_iff _).2 ⟨o, Operator.ofSymbol?_symbol o⟩

namespace Expression

/-- Three words are an expression. -/
theorem ofText_of_words {text left symbol right : Text} (h : text.words = [left, symbol, right]) :
    ofText text = .ok ⟨left, symbol, right⟩ := by
  rw [ofText, h]

/-- Any other number of words is reported. -/
theorem ofText_of_length_ne {text : Text} (h : text.words.length ≠ 3) :
    ofText text = .error text.words.length := by
  unfold ofText
  split
  · rename_i hwords
    rw [hwords] at h
    exact absurd rfl h
  · rfl

variable {e : Expression}

/-- A left word that is not an operand is reported first. -/
theorem operator_of_left_not_mem (hleft : e.left ∉ Grammar.operands) :
    e.operator = .error (.invalidOperand e.left) := by
  rw [← Literal.isOperand_iff, Bool.not_eq_true] at hleft
  rw [operator, hleft]
  rfl

/-- A right word that is not an operand is reported next. -/
theorem operator_of_right_not_mem (hleft : e.left ∈ Grammar.operands)
    (hright : e.right ∉ Grammar.operands) : e.operator = .error (.invalidOperand e.right) := by
  rw [← Literal.isOperand_iff] at hleft
  rw [← Literal.isOperand_iff, Bool.not_eq_true] at hright
  rw [operator, hleft, hright]
  rfl

/-- A symbol that stands for no operator is reported when both operands are literals. -/
theorem operator_of_symbol_not_mem (hleft : e.left ∈ Grammar.operands)
    (hright : e.right ∈ Grammar.operands) (hsymbol : e.symbol ∉ symbols) :
    e.operator = .error (.invalidOperator e.symbol) := by
  have hnone : Operator.ofSymbol? e.symbol = none := by
    rw [mem_symbols_iff, ← Option.isSome_iff_exists, Option.not_isSome_iff_eq_none] at hsymbol
    exact hsymbol
  rw [← Literal.isOperand_iff] at hleft hright
  rw [operator, hleft, hright, hnone]
  rfl

/-- Between two operands a symbol gives its operator. -/
theorem operator_of_mem (hleft : e.left ∈ Grammar.operands) (hright : e.right ∈ Grammar.operands)
    {o : Operator} (hsymbol : Operator.ofSymbol? e.symbol = some o) : e.operator = .ok o := by
  rw [← Literal.isOperand_iff] at hleft hright
  rw [operator, hleft, hright, hsymbol]
  rfl

/-- A left operand without a value is reported before the right one is parsed. -/
theorem operands_of_left_none (o : Operator) (hleft : Denotes e.left none) :
    e.operands o = .error (.unreadable (.zeroDenominator e.left)) := by
  have hparse := (Literal.parse_eq_zeroDenominator_iff e.left e.left).2 ⟨hleft, rfl⟩
  rw [operands, hparse]

/-- A right operand without a value is reported when the left one has a value. -/
theorem operands_of_right_none (o : Operator) {a : Rat} (hleft : Denotes e.left (some a))
    (hright : Denotes e.right none) :
    e.operands o = .error (.unreadable (.zeroDenominator e.right)) := by
  have hparse := (Literal.parse_eq_zeroDenominator_iff e.right e.right).2 ⟨hright, rfl⟩
  rw [operands, (Literal.parse_eq_ok_iff e.left a).2 hleft, hparse]

/-- Two operands with values give them, unless the right one is zero and would divide. -/
theorem operands_of_some (o : Operator) {a b : Rat} (hleft : Denotes e.left (some a))
    (hright : Denotes e.right (some b)) :
    e.operands o = if o = .divide ∧ b = 0 then .error .divisionByZero else .ok (a, b) := by
  rw [operands, (Literal.parse_eq_ok_iff e.left a).2 hleft,
    (Literal.parse_eq_ok_iff e.right b).2 hright]

/-- Two operands with values give them to every operator that would not divide by zero. -/
theorem operands_of_defined {o : Operator} {a b : Rat} (hleft : Denotes e.left (some a))
    (hright : Denotes e.right (some b)) (hdivisor : o = .divide → b ≠ 0) :
    e.operands o = .ok (a, b) := by
  rw [operands_of_some o hleft hright, if_neg fun h ↦ hdivisor h.1 h.2]

end Expression

/-! ## Outcomes -/

section Stages

variable {text left symbol right : Text}

/-- An expression without an operator has no value. -/
theorem calculateValue_of_operator_error (hwords : text.words = [left, symbol, right])
    {error : CalculationError} (h : Expression.operator ⟨left, symbol, right⟩ = .error error) :
    calculateValue text = .error error := by
  rw [calculateValue, Expression.ofText_of_words hwords]
  simp only [h]
  rfl

/-- An expression whose operands have no values has none. -/
theorem calculateValue_of_operands_error (hwords : text.words = [left, symbol, right])
    {o : Operator} (ho : Expression.operator ⟨left, symbol, right⟩ = .ok o)
    {error : CalculationError} (h : Expression.operands ⟨left, symbol, right⟩ o = .error error) :
    calculateValue text = .error error := by
  rw [calculateValue, Expression.ofText_of_words hwords]
  simp only [ho]
  show (Expression.operands ⟨left, symbol, right⟩ o >>= _) = _
  rw [h]
  rfl

/-- An expression with an operator and two values has the value that the operator gives. -/
theorem calculateValue_of_operands (hwords : text.words = [left, symbol, right])
    {o : Operator} (ho : Expression.operator ⟨left, symbol, right⟩ = .ok o)
    {a b : Rat} (h : Expression.operands ⟨left, symbol, right⟩ o = .ok (a, b)) :
    calculateValue text = .ok (o.apply .rational a b) := by
  rw [calculateValue, Expression.ofText_of_words hwords]
  simp only [ho]
  show (Expression.operands ⟨left, symbol, right⟩ o >>= _) = _
  rw [h]
  rfl

end Stages

/-- What a calculation settles on is its exact value or its error. -/
theorem Settles.calculateValue_eq {text : Text} {outcome : Except CalculationError Rat}
    (h : Settles text.words outcome) : calculateValue text = outcome := by
  generalize hwords : text.words = words at h
  cases h with
  | wordCount _ hlength =>
      subst hwords
      rw [calculateValue, Expression.ofText_of_length_ne hlength]
  | leftOperand left symbol right hleft =>
      exact calculateValue_of_operator_error hwords (Expression.operator_of_left_not_mem hleft)
  | rightOperand left symbol right hleft hright =>
      exact calculateValue_of_operator_error hwords
        (Expression.operator_of_right_not_mem hleft hright)
  | symbol left symbol right hleft hright hsymbol =>
      exact calculateValue_of_operator_error hwords
        (Expression.operator_of_symbol_not_mem hleft hright hsymbol)
  | leftUndefined left symbol right hleft hright hsymbol hnone =>
      obtain ⟨o, ho⟩ := (mem_symbols_iff symbol).1 hsymbol
      exact calculateValue_of_operands_error hwords (Expression.operator_of_mem hleft hright ho)
        (Expression.operands_of_left_none o hnone)
  | rightUndefined left symbol right a hleft hright hsymbol ha hnone =>
      obtain ⟨o, ho⟩ := (mem_symbols_iff symbol).1 hsymbol
      exact calculateValue_of_operands_error hwords (Expression.operator_of_mem hleft hright ho)
        (Expression.operands_of_right_none o ha hnone)
  | zeroDivisor left right a hleft hright ha hzero =>
      have hoperands := Expression.operands_of_some (e := ⟨left, ['/'], right⟩) .divide ha hzero
      rw [if_pos ⟨rfl, rfl⟩] at hoperands
      exact calculateValue_of_operands_error hwords (Expression.operator_of_mem hleft hright rfl)
        hoperands
  | sum left right a b hleft hright ha hb =>
      exact calculateValue_of_operands hwords (Expression.operator_of_mem hleft hright rfl)
        (Expression.operands_of_defined (o := .add) ha hb nofun)
  | difference left right a b hleft hright ha hb =>
      exact calculateValue_of_operands hwords (Expression.operator_of_mem hleft hright rfl)
        (Expression.operands_of_defined (o := .subtract) ha hb nofun)
  | product left right a b hleft hright ha hb =>
      exact calculateValue_of_operands hwords (Expression.operator_of_mem hleft hright rfl)
        (Expression.operands_of_defined (o := .multiply) ha hb nofun)
  | quotient left right a b hleft hright ha hb hzero =>
      exact calculateValue_of_operands hwords (Expression.operator_of_mem hleft hright rfl)
        (Expression.operands_of_defined (o := .divide) ha hb fun _ ↦ hzero)

/-- Three words whose operands have values settle on an outcome for every symbol of an operator. -/
theorem exists_settles_of_denotes {left symbol right : Text} {a b : Rat}
    (hleft : left ∈ operands) (hright : right ∈ operands) (hsymbol : symbol ∈ symbols)
    (ha : Denotes left (some a)) (hb : Denotes right (some b)) :
    ∃ outcome, Settles [left, symbol, right] outcome := by
  simp only [symbols, List.mem_cons, List.not_mem_nil, or_false] at hsymbol
  rcases hsymbol with rfl | rfl | rfl | rfl
  · exact ⟨_, .sum left right a b hleft hright ha hb⟩
  · exact ⟨_, .difference left right a b hleft hright ha hb⟩
  · exact ⟨_, .product left right a b hleft hright ha hb⟩
  · by_cases hzero : b = 0
    · subst hzero
      exact ⟨_, .zeroDivisor left right a hleft hright ha hb⟩
    · exact ⟨_, .quotient left right a b hleft hright ha hb hzero⟩

/-- Every list of words settles on an outcome. -/
theorem exists_settles (words : List Text) : ∃ outcome, Settles words outcome := by
  by_cases hlength : words.length = 3
  · obtain ⟨left, symbol, right, rfl⟩ := List.length_eq_three.1 hlength
    by_cases hleft : left ∈ operands
    · by_cases hright : right ∈ operands
      · by_cases hsymbol : symbol ∈ symbols
        · obtain ⟨_ | a, ha⟩ := exists_denotes_of_mem_operands hleft
          · exact ⟨_, .leftUndefined left symbol right hleft hright hsymbol ha⟩
          · obtain ⟨_ | b, hb⟩ := exists_denotes_of_mem_operands hright
            · exact ⟨_, .rightUndefined left symbol right a hleft hright hsymbol ha hb⟩
            · exact exists_settles_of_denotes hleft hright hsymbol ha hb
        · exact ⟨_, .symbol left symbol right hleft hright hsymbol⟩
      · exact ⟨_, .rightOperand left symbol right hleft hright⟩
    · exact ⟨_, .leftOperand left symbol right hleft⟩
  · exact ⟨_, .wordCount words hlength⟩

/-- The exact value or the error of a calculation is what its words settle on. -/
theorem calculateValue_eq_iff (text : Text) (outcome : Except CalculationError Rat) :
    calculateValue text = outcome ↔ Settles text.words outcome := by
  constructor
  · rintro rfl
    -- the words settle on some outcome, and that can only be the one of the calculation
    obtain ⟨outcome, h⟩ := exists_settles text.words
    rwa [h.calculateValue_eq]
  · exact Settles.calculateValue_eq

/-- An exact calculation writes the exact value in mixed form. -/
theorem calculate_exact_eq_map (text : Text) :
    calculate .exact text = (calculateValue text).map MixedForm.write := by
  unfold calculate report calculateValue
  cases Expression.ofText text with
  | error count => rfl
  | ok expression =>
      cases hoperator : expression.operator with
      | error error => simp only [hoperator]; rfl
      | ok o =>
          simp only [hoperator]
          -- both entry points stop or go on with the same operands
          show _ = Except.map _ (expression.operands o >>= _)
          cases expression.operands o with
          | error error => rfl
          | ok values => rfl

/-- An exact calculation writes what its words settle on. -/
theorem Settles.calculate_eq {text : Text} {outcome : Except CalculationError Rat}
    (h : Settles text.words outcome) : calculate .exact text = outcome.map MixedForm.write := by
  rw [calculate_exact_eq_map, h.calculateValue_eq]

/-- An operand is a word: it is not empty and has no space in it. -/
theorem word_of_mem_operands {text : Text} (h : text ∈ operands) : text ≠ [] ∧ ' ' ∉ text := by
  obtain ⟨value, hvalue⟩ := exists_denotes_of_mem_operands h
  exact hvalue.ne_nil_and_no_space

/-- Two operands with values and the symbol of an operator between them have the value that the
operator gives, unless it would divide by zero. -/
theorem calculateValue_of_words {text left right : Text} {a b : Rat} {o : Operator}
    (hwords : text.words = [left, o.symbol, right])
    (hleft : left ∈ operands) (hright : right ∈ operands)
    (ha : Denotes left (some a)) (hb : Denotes right (some b)) :
    calculateValue text =
      if o = .divide ∧ b = 0 then .error .divisionByZero else .ok (o.apply .rational a b) := by
  have ho : Expression.operator ⟨left, o.symbol, right⟩ = .ok o :=
    Expression.operator_of_mem hleft hright (Operator.ofSymbol?_symbol o)
  have hoperands := Expression.operands_of_some (e := ⟨left, o.symbol, right⟩) o ha hb
  by_cases hdivisor : o = .divide ∧ b = 0
  · rw [if_pos hdivisor] at hoperands ⊢
    exact calculateValue_of_operands_error hwords ho hoperands
  · rw [if_neg hdivisor] at hoperands ⊢
    exact calculateValue_of_operands hwords ho hoperands

/-- Two words and the symbol of an operator, joined by spaces, are the words of their text. -/
theorem words_unwords_symbol {left right : Text} (o : Operator) (hleft : left ≠ [] ∧ ' ' ∉ left)
    (hright : right ≠ [] ∧ ' ' ∉ right) :
    (Text.unwords [left, o.symbol, right]).words = [left, o.symbol, right] := by
  have hsymbol : o.symbol ≠ [] ∧ ' ' ∉ o.symbol := by cases o <;> decide
  refine Text.words_unwords _ ?_
  simp [hleft, hright, hsymbol]

/-- Two operands and the symbol of an operator, joined by spaces, are the words of their text. -/
theorem words_unwords_operands {left right : Text} (o : Operator) (hleft : left ∈ operands)
    (hright : right ∈ operands) :
    (Text.unwords [left, o.symbol, right]).words = [left, o.symbol, right] :=
  words_unwords_symbol o (word_of_mem_operands hleft) (word_of_mem_operands hright)

/-- For every text there is one outcome on which its maximal runs settle. It is the exact value or
the error of the calculation, and an exact calculation gives it in mixed form. -/
theorem calculate_exact_iff_settles (text : Text) :
    (∀ outcome, calculateValue text = outcome ↔
      ∃ words, Text.Runs text words ∧ Settles words outcome) ∧
    (∀ outcome, calculate .exact text = outcome ↔
      ∃ words value, Text.Runs text words ∧ Settles words value ∧
        outcome = value.map MixedForm.write) := by
  constructor
  · intro outcome
    simp only [calculateValue_eq_iff, Text.runs_iff, exists_eq_left']
  · intro outcome
    rw [calculate_exact_eq_map]
    constructor
    · rintro rfl
      exact ⟨text.words, calculateValue text, Text.runs_words text,
        (calculateValue_eq_iff text _).1 rfl, rfl⟩
    · rintro ⟨words, value, hwords, hvalue, rfl⟩
      rw [← (Text.runs_iff text words).1 hwords] at hvalue
      rw [hvalue.calculateValue_eq]

end MixedNumbers
