import MixedNumbers.Calculation

/-!
# Calculations on an accumulator

An accumulator is a text that serves as the left operand of one calculation after the
other. A step gives the words that follow it; the result takes the accumulator's place,
and a calculation that fails leaves it as it was. The accumulator is all that one step hands
to the next: `outcomes_append` puts the outcomes of a run together from those of its parts.
-/

namespace MixedNumbers.Accumulator

/-- The outcome of one step. -/
def attempt (precision : Precision) (accumulator : Text) (step : List Text) :
    Except CalculationError Text :=
  calculate precision (accumulator ++ ' ' :: Text.unwords step)

/-- The accumulator after one step. -/
def advance (precision : Precision) (accumulator : Text) (step : List Text) : Text :=
  match attempt precision accumulator step with
  | .ok result => result
  | .error _ => accumulator

/-- The outcomes of steps taken one after the other. -/
def outcomes (precision : Precision) :
    Text → List (List Text) → List (Except CalculationError Text)
  | _, [] => []
  | accumulator, step :: steps =>
      attempt precision accumulator step ::
        outcomes precision (advance precision accumulator step) steps

/-- The accumulator after steps taken one after the other. -/
def run (precision : Precision) (start : Text) (steps : List (List Text)) : Text :=
  steps.foldl (advance precision) start

/-- A run takes its first step and then the others. -/
theorem run_cons (precision : Precision) (accumulator : Text) (step : List Text)
    (steps : List (List Text)) :
    run precision accumulator (step :: steps) =
      run precision (advance precision accumulator step) steps :=
  rfl

/-- The outcomes of steps that follow others are those of a run from the accumulator that the others
leave. -/
theorem outcomes_append (precision : Precision) (accumulator : Text)
    (first second : List (List Text)) :
    outcomes precision accumulator (first ++ second) =
      outcomes precision accumulator first ++
        outcomes precision (run precision accumulator first) second := by
  induction first generalizing accumulator with
  | nil => rfl
  | cons step first ih => rw [List.cons_append, outcomes, outcomes, ih, run_cons, List.cons_append]

end MixedNumbers.Accumulator
