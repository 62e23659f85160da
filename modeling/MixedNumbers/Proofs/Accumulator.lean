import MixedNumbers.Accumulator
import MixedNumbers.Proofs.MixedForm

/-!
# Exact calculations on an accumulator

Steps taken one after the other in exact precision, with the result of one as an operand of
the next. `Carries` is the invariant: the accumulator is an operand and denotes a value.
`attempt_of_applies` and `attempt_of_fails` say what a step makes of an accumulator with a
value, and `run_exact_folds` what a run of any length does: it keeps the value that exact
arithmetic gives to the steps that succeed, and which steps fail, and how, can be told from
the steps alone.
-/

namespace MixedNumbers.Accumulator

open Grammar

/-! ## What a step asks for -/

/-- The result of an operator on two rationals. -/
def exactly : Operator → Rat → Rat → Rat
  | .add, a, b => a + b
  | .subtract, a, b => a - b
  | .multiply, a, b => a * b
  | .divide, a, b => a / b

/-- `Splits step words` says that these are the words of a step, when it is joined to one text. -/
def Splits (step words : List Text) : Prop :=
  ∃ text, Text.Joined step text ∧ Text.Runs text words

/-- `Applies step o b` says that a step applies the operator `o` to the accumulator and the value
`b`: its words are the symbol and an operand of that value, and nothing is divided by zero. -/
def Applies (step : List Text) (o : Operator) (b : Rat) : Prop :=
  ∃ operand, Splits step [o.symbol, operand] ∧ operand ∈ operands ∧
    Denotes operand (some b) ∧ ¬ (o = .divide ∧ b = 0)

/-- `Fails step error` says that a step fails with this error, whatever the accumulator is. -/
inductive Fails (step : List Text) : CalculationError → Prop where
  | wordCount (words : List Text) :
      Splits step words → words.length ≠ 2 → Fails step (.wordCount (words.length + 1))
  | operand (symbol operand : Text) :
      Splits step [symbol, operand] → operand ∉ operands → Fails step (.invalidOperand operand)
  | symbol (symbol operand : Text) :
      Splits step [symbol, operand] → operand ∈ operands → symbol ∉ symbols →
      Fails step (.invalidOperator symbol)
  | undefined (symbol operand : Text) :
      Splits step [symbol, operand] → operand ∈ operands → symbol ∈ symbols →
      Denotes operand none → Fails step (.unreadable (.zeroDenominator operand))
  | zeroDivisor (operand : Text) :
      Splits step [['/'], operand] → operand ∈ operands → Denotes operand (some 0) →
      Fails step .divisionByZero

/-- `Folds a steps b` says that the operations of the steps that do not fail, applied to `a` one
after the other in exact arithmetic, give `b`. -/
inductive Folds : Rat → List (List Text) → Rat → Prop where
  | nil (a : Rat) : Folds a [] a
  | applies (a b c : Rat) (o : Operator) (step : List Text) (steps : List (List Text)) :
      Applies step o b → Folds (exactly o a b) steps c → Folds a (step :: steps) c
  | fails (a c : Rat) (error : CalculationError) (step : List Text) (steps : List (List Text)) :
      Fails step error → Folds a steps c → Folds a (step :: steps) c

/-- An outcome answers a step on an accumulator of value `a` when it is a result exactly if the step
applies an operator, with the new value in mixed form, and an error exactly if the step fails with
it. -/
def Answers (a : Rat) (step : List Text) (outcome : Except CalculationError Text) : Prop :=
  (∀ result, outcome = .ok result ↔
    ∃ o b, Applies step o b ∧ result = MixedForm.write (exactly o a b)) ∧
  ∀ error, outcome = .error error ↔ Fails step error

/-- The accumulator is an operand with this value. -/
structure Carries (accumulator : Text) (q : Rat) : Prop where
  operand : accumulator ∈ operands
  value : Denotes accumulator (some q)

/-! ## One step -/

/-- An operator is applied to rationals by the operation of its name. -/
theorem apply_rational (o : Operator) (a b : Rat) : o.apply .rational a b = exactly o a b := by
  cases o <;> rfl

/-- The words of a step are those of its joined text. -/
theorem splits_iff (step words : List Text) :
    Splits step words ↔ (Text.unwords step).words = words := by
  simp only [Splits, Text.joined_iff, Text.runs_iff, exists_eq_left']

/-- Every step applies an operator or fails. -/
theorem applies_or_fails (step : List Text) :
    (∃ o b, Applies step o b) ∨ ∃ error, Fails step error := by
  have hsplits := (splits_iff step _).2 rfl
  by_cases hlength : (Text.unwords step).words.length = 2
  · obtain ⟨symbol, operand, hwords⟩ := List.length_eq_two.1 hlength
    rw [hwords] at hsplits
    by_cases hoperand : operand ∈ operands
    · by_cases hsymbol : symbol ∈ symbols
      · obtain ⟨o, ho⟩ := (mem_symbols_iff symbol).1 hsymbol
        obtain rfl := Operator.symbol_of_ofSymbol? ho
        obtain ⟨_ | b, hb⟩ := exists_denotes_of_mem_operands hoperand
        · exact Or.inr ⟨_, .undefined _ operand hsplits hoperand hsymbol hb⟩
        · by_cases hdivisor : o = .divide ∧ b = 0
          · obtain ⟨rfl, rfl⟩ := hdivisor
            exact Or.inr ⟨_, .zeroDivisor operand hsplits hoperand hb⟩
          · exact Or.inl ⟨o, b, operand, hsplits, hoperand, hb, hdivisor⟩
      · exact Or.inr ⟨_, .symbol symbol operand hsplits hoperand hsymbol⟩
    · exact Or.inr ⟨_, .operand symbol operand hsplits hoperand⟩
  · exact Or.inr ⟨_, .wordCount _ hsplits hlength⟩

variable {accumulator : Text} {q : Rat} {step : List Text}

/-- The words of an attempt are the accumulator and the words of the step. -/
theorem words_attempt (h : Carries accumulator q) :
    (accumulator ++ ' ' :: Text.unwords step).words =
      accumulator :: (Text.unwords step).words := by
  obtain ⟨hne, hspace⟩ := word_of_mem_operands h.operand
  rw [Text.words_append_space, Text.words_of_no_space accumulator hne hspace,
    List.singleton_append]

/-- A step that applies an operator to an accumulator with a value writes the value that the
operator gives. -/
theorem attempt_of_applies (h : Carries accumulator q) {o : Operator} {b : Rat}
    (happlies : Applies step o b) :
    attempt .exact accumulator step = .ok (MixedForm.write (exactly o q b)) := by
  obtain ⟨operand, hsplits, hoperand, hb, hdivisor⟩ := happlies
  have hwords : (accumulator ++ ' ' :: Text.unwords step).words =
      [accumulator, o.symbol, operand] := by
    rw [words_attempt h, (splits_iff _ _).1 hsplits]
  rw [attempt, calculate_exact_eq_map,
    calculateValue_of_words hwords h.operand hoperand h.value hb, if_neg hdivisor, apply_rational]
  rfl

/-- A step that fails does so on every accumulator with a value. -/
theorem attempt_of_fails (h : Carries accumulator q) {error : CalculationError}
    (hfails : Fails step error) : attempt .exact accumulator step = .error error := by
  have hsettles : Settles (accumulator ++ ' ' :: Text.unwords step).words (.error error) := by
    rw [words_attempt h]
    cases hfails with
    | wordCount words hsplits hlength =>
        rw [(splits_iff _ _).1 hsplits]
        exact .wordCount (accumulator :: words) (by simpa using hlength)
    | operand symbol operand hsplits hoperand =>
        rw [(splits_iff _ _).1 hsplits]
        exact .rightOperand accumulator symbol operand h.operand hoperand
    | symbol symbol operand hsplits hoperand hsymbol =>
        rw [(splits_iff _ _).1 hsplits]
        exact .symbol accumulator symbol operand h.operand hoperand hsymbol
    | undefined symbol operand hsplits hoperand hsymbol hnone =>
        rw [(splits_iff _ _).1 hsplits]
        exact .rightUndefined accumulator symbol operand q h.operand hoperand hsymbol h.value hnone
    | zeroDivisor operand hsplits hoperand hzero =>
        rw [(splits_iff _ _).1 hsplits]
        exact .zeroDivisor accumulator operand q h.operand hoperand h.value hzero
  rw [attempt, hsettles.calculate_eq]
  rfl

/-- A step applies at most one operator to one value. -/
theorem Applies.unique {o o' : Operator} {b b' : Rat} (h : Applies step o b)
    (h' : Applies step o' b') : o' = o ∧ b' = b := by
  obtain ⟨operand, hsplits, -, hb, -⟩ := h
  obtain ⟨operand', hsplits', -, hb', -⟩ := h'
  rw [splits_iff] at hsplits hsplits'
  rw [hsplits, List.cons.injEq, List.cons.injEq] at hsplits'
  obtain ⟨hsymbol, rfl, -⟩ := hsplits'
  have ho : some o = some o' := by
    rw [← Operator.ofSymbol?_symbol, hsymbol, Operator.ofSymbol?_symbol]
  rw [← Literal.parse_eq_ok_iff] at hb hb'
  rw [hb] at hb'
  exact ⟨(Option.some.inj ho).symm, (Except.ok.inj hb').symm⟩

/-- A mixed form carries its rational. -/
theorem carries_write (q : Rat) : Carries (MixedForm.write q) q :=
  ⟨(MixedForm.write_mem_operands_and_denotes q).1, (MixedForm.write_mem_operands_and_denotes q).2⟩

/-- A step that applies an operator does not fail. -/
theorem Applies.not_fails {o : Operator} {b : Rat} (h : Applies step o b)
    (error : CalculationError) : ¬ Fails step error := by
  intro hfails
  -- the outcomes of the two kinds of step differ already on the accumulator for zero
  have hresult := attempt_of_applies (carries_write 0) h
  rw [attempt_of_fails (carries_write 0) hfails] at hresult
  cases hresult

/-- The outcome of an attempt answers the step. -/
theorem answers_attempt (h : Carries accumulator q) :
    Answers q step (attempt .exact accumulator step) := by
  constructor
  · intro result
    constructor
    · intro hresult
      rcases applies_or_fails step with ⟨o, b, happlies⟩ | ⟨error, hfails⟩
      · rw [attempt_of_applies h happlies, Except.ok.injEq] at hresult
        exact ⟨o, b, happlies, hresult.symm⟩
      · rw [attempt_of_fails h hfails] at hresult
        cases hresult
    · rintro ⟨o, b, happlies, rfl⟩
      exact attempt_of_applies h happlies
  · intro error
    constructor
    · intro herror
      rcases applies_or_fails step with ⟨o, b, happlies⟩ | ⟨other, hfails⟩
      · rw [attempt_of_applies h happlies] at herror
        cases herror
      · rw [attempt_of_fails h hfails, Except.error.injEq] at herror
        exact herror ▸ hfails
    · exact attempt_of_fails h

/-- After a step that applies an operator the accumulator is the mixed form of the new value. -/
theorem advance_of_applies (h : Carries accumulator q) {o : Operator} {b : Rat}
    (happlies : Applies step o b) :
    advance .exact accumulator step = MixedForm.write (exactly o q b) := by
  rw [advance, attempt_of_applies h happlies]

/-- After a step that fails the accumulator is what it was. -/
theorem advance_of_fails (h : Carries accumulator q) {error : CalculationError}
    (hfails : Fails step error) : advance .exact accumulator step = accumulator := by
  rw [advance, attempt_of_fails h hfails]

/-! ## Whole runs -/

/-- A step that applies an operator is folded by applying it. -/
theorem folds_cons_of_applies {a b c : Rat} {o : Operator} {steps : List (List Text)}
    (happlies : Applies step o b) :
    Folds a (step :: steps) c ↔ Folds (exactly o a b) steps c := by
  constructor
  · intro h
    cases h with
    | applies _ b' _ o' _ _ happlies' hfolds =>
        obtain ⟨rfl, rfl⟩ := happlies.unique happlies'
        exact hfolds
    | fails _ _ error _ _ hfails _ => exact absurd hfails (happlies.not_fails error)
  · exact .applies a b c o step steps happlies

/-- A step that fails is folded by passing over it. -/
theorem folds_cons_of_fails {a c : Rat} {error : CalculationError} {steps : List (List Text)}
    (hfails : Fails step error) : Folds a (step :: steps) c ↔ Folds a steps c := by
  constructor
  · intro h
    cases h with
    | applies _ _ _ _ _ _ happlies _ => exact absurd hfails (happlies.not_fails error)
    | fails _ _ _ _ _ _ hfolds => exact hfolds
  · exact .fails a c error step steps hfails

/-- Steps are folded to one value. -/
theorem exists_folds_iff (a : Rat) (steps : List (List Text)) :
    ∃ c, ∀ d, Folds a steps d ↔ d = c := by
  induction steps generalizing a with
  | nil =>
      refine ⟨a, fun d ↦ ⟨?_, ?_⟩⟩
      · intro h
        cases h
        rfl
      · rintro rfl
        exact .nil d
  | cons step steps ih =>
      rcases applies_or_fails step with ⟨o, b, happlies⟩ | ⟨error, hfails⟩
      · obtain ⟨c, hc⟩ := ih (exactly o a b)
        exact ⟨c, fun d ↦ (folds_cons_of_applies happlies).trans (hc d)⟩
      · obtain ⟨c, hc⟩ := ih a
        exact ⟨c, fun d ↦ (folds_cons_of_fails hfails).trans (hc d)⟩

/-- A run keeps the value to which its steps are folded. -/
theorem Folds.carries_run {a c : Rat} {steps : List (List Text)} (hfolds : Folds a steps c)
    (h : Carries accumulator a) : Carries (run .exact accumulator steps) c := by
  induction hfolds generalizing accumulator with
  | nil a => exact h
  | applies a b c o step steps happlies _ ih =>
      rw [run_cons, advance_of_applies h happlies]
      exact ih (carries_write _)
  | fails a c error step steps hfails _ ih =>
      rw [run_cons, advance_of_fails h hfails]
      exact ih h

/-- A run leaves a mixed form when it starts from one or has a step that does not fail. -/
theorem Folds.run_eq_write {a c : Rat} {steps : List (List Text)} (hfolds : Folds a steps c)
    (h : Carries accumulator a)
    (hwritten : accumulator = MixedForm.write a ∨ ∃ step ∈ steps, ∃ o b, Applies step o b) :
    run .exact accumulator steps = MixedForm.write c := by
  -- a mixed form stays one, and the first step that does not fail makes one
  induction hfolds generalizing accumulator with
  | nil a => simpa [run] using hwritten
  | applies a b c o step steps happlies _ ih =>
      rw [run_cons, advance_of_applies h happlies]
      exact ih (carries_write _) (Or.inl rfl)
  | fails a c error step steps hfails _ ih =>
      rw [run_cons, advance_of_fails h hfails]
      refine ih h (hwritten.imp_right ?_)
      rintro ⟨other, hother, o, b, happlies⟩
      rcases List.mem_cons.1 hother with rfl | hother
      · exact absurd hfails (happlies.not_fails error)
      · exact ⟨other, hother, o, b, happlies⟩

/-- A run in exact precision from an operand with a value. After any steps the accumulator is an
operand and is parsed as the one value that exact arithmetic gives to the steps that do not fail.
It is the mixed form of that value once a step has not failed. The outcome of the next step is a
result or an error as the step asks for, and the error is told from the step alone. -/
theorem run_exact_folds {start : Text} {a : Rat} (hstart : Literal.isOperand start = true)
    (ha : Literal.parse start = .ok a) (steps : List (List Text)) :
    ∃ c, (∀ d, Folds a steps d ↔ d = c) ∧
      Literal.isOperand (run .exact start steps) = true ∧
      Literal.parse (run .exact start steps) = .ok c ∧
      ((∃ step ∈ steps, ∃ o b, Applies step o b) →
        run .exact start steps = MixedForm.write c) ∧
      ∀ step, ∃ outcome,
        outcomes .exact start (steps ++ [step]) = outcomes .exact start steps ++ [outcome] ∧
        Answers c step outcome := by
  have hcarries : Carries start a :=
    ⟨(Literal.isOperand_iff start).1 hstart, (Literal.parse_eq_ok_iff start a).1 ha⟩
  obtain ⟨c, hc⟩ := exists_folds_iff a steps
  have hfolds : Folds a steps c := (hc c).2 rfl
  have hrun := hfolds.carries_run hcarries
  refine ⟨c, hc, (Literal.isOperand_iff _).2 hrun.operand,
    (Literal.parse_eq_ok_iff _ c).2 hrun.value, ?_, ?_⟩
  · intro happlies
    exact hfolds.run_eq_write hcarries (Or.inr happlies)
  · intro step
    exact ⟨_, outcomes_append .exact start steps [step], answers_attempt hrun⟩

/-- From one half, adding a third gives five sixths; dividing by a zero and a step of one word
change nothing. -/
theorem run_exact_folds_from_half :
    Literal.isOperand ['1', '/', '2'] = true ∧
    Literal.parse ['1', '/', '2'] = .ok (1 / 2) ∧
    Folds (1 / 2) [[['+'], ['1', '/', '3']], [['/', ' ', '-', '0']], [['x']]] (5 / 6) ∧
    run .exact ['1', '/', '2'] [[['+'], ['1', '/', '3']], [['/', ' ', '-', '0']], [['x']]] =
      ['5', '/', '6'] := by
  have hstart : Literal.isOperand ['1', '/', '2'] = true := by decide +kernel
  have ha : Literal.parse ['1', '/', '2'] = .ok (1 / 2) := by decide +kernel
  have hrun : run .exact ['1', '/', '2']
      [[['+'], ['1', '/', '3']], [['/', ' ', '-', '0']], [['x']]] = ['5', '/', '6'] := by
    decide +kernel
  have hfinal : Literal.parse ['5', '/', '6'] = .ok (5 / 6) := by decide +kernel
  obtain ⟨c, hc, -, hparse, -⟩ :=
    run_exact_folds hstart ha [[['+'], ['1', '/', '3']], [['/', ' ', '-', '0']], [['x']]]
  rw [hrun, hfinal] at hparse
  exact ⟨hstart, ha, (hc _).2 (Except.ok.inj hparse), hrun⟩

end MixedNumbers.Accumulator
