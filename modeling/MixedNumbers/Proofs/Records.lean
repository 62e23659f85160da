import MixedNumbers.Proofs.FloatCalculation

/-!
# The records of a calculation

Which records a calculation leaves, and in which order. `Leaves` lists the reports that are
possible: a calculation that fails leaves the records of the stages before the failure, and one
in binary64 that succeeds leaves one more record for every convergent. `leaves_report` says that
every calculation leaves one of these reports, and `records_in_order` reads off the wording and
the levels of the records what they tell about the outcome.
-/

namespace MixedNumbers

/-! ## Stages -/

/-- The number of stages that are completed before an error. -/
def CalculationError.stages : CalculationError → Nat
  | .wordCount _ => 0
  | .invalidOperand _ => 1
  | .invalidOperator _ => 1
  | .unreadable _ => 2
  | .divisionByZero => 2
  | .notFinite _ => 3

/-- The number of stages that are completed before an outcome. -/
def stagesBefore : Except CalculationError Text → Nat
  | .error error => error.stages
  | .ok _ => 3

/-- What the records of the stages start with, in the order of the stages. -/
def stageNames : List Text :=
  ["tokenized".toList, "validated".toList, "evaluated".toList]

/-- `PlainWhole text i` says that the text is the decimal notation of the integer `i` without
leading zeros, with a minus sign in front exactly when it is negative. -/
inductive Grammar.PlainWhole : Text → Int → Prop where
  | nonnegative (text : Text) (n : Nat) : Plain text n → PlainWhole text n
  | negative (text : Text) (n : Nat) : Plain text n → 1 ≤ n → PlainWhole ('-' :: text) (-n)

/-- An integer is written without leading zeros. -/
theorem Grammar.plainWhole_write (i : Int) : PlainWhole (Numeral.write i) i := by
  by_cases hneg : i < 0
  · have hi : -((i.natAbs : Nat) : Int) = i := by omega
    have hplain := PlainWhole.negative _ i.natAbs ((plain_iff _ _).2 rfl) (by omega)
    rwa [hi, ← show Numeral.write i = '-' :: Numeral.writeNat i.natAbs from if_pos hneg] at hplain
  · have hi : ((i.natAbs : Nat) : Int) = i := by omega
    have hplain := PlainWhole.nonnegative _ i.natAbs ((plain_iff _ _).2 rfl)
    rwa [hi, ← show Numeral.write i = Numeral.writeNat i.natAbs from if_neg hneg] at hplain

namespace Record

/-- The first word of a record. -/
def firstWord (record : Record) : Text :=
  record.message.takeWhile (· ≠ ' ')

/-- The record is that of a convergent and prints the fraction `h / k`. -/
def Prints (record : Record) (h k : Int) : Prop :=
  record.level = .trace ∧ ∃ numerator denominator rest,
    Grammar.PlainWhole numerator h ∧ Grammar.PlainWhole denominator k ∧
    record.message = "convergent ".toList ++ numerator ++ '/' :: denominator ++
      " (remainder ".toList ++ rest

/-- The record of a convergent prints its numerator and its denominator. -/
theorem convergent_prints (c : Convergent) :
    (convergent c).Prints c.numerator c.denominator :=
  ⟨rfl, _, _, c.remainder.write ++ [')'], Grammar.plainWhole_write c.numerator,
    Grammar.plainWhole_write c.denominator, List.append_assoc _ _ _⟩

/-- The records of a level, in order. -/
def atLevel (level : Level) (records : List Record) : List Record :=
  records.filter fun record ↦ record.level = level

/-- The records of convergents are for tracing. -/
theorem atLevel_trace_convergents (convergents : List Convergent) :
    atLevel .trace (convergents.map convergent) = convergents.map convergent := by
  rw [atLevel, List.filter_eq_self]
  intro record hrecord
  obtain ⟨c, -, rfl⟩ := List.mem_map.1 hrecord
  rfl

/-- No record of a convergent is of another level. -/
theorem atLevel_convergents (level : Level) (h : level ≠ .trace) (convergents : List Convergent) :
    atLevel level (convergents.map convergent) = [] := by
  rw [atLevel, List.filter_eq_nil_iff]
  intro record hrecord
  obtain ⟨c, -, rfl⟩ := List.mem_map.1 hrecord
  exact fun hlevel ↦ h (of_decide_eq_true hlevel).symm

end Record

/-! ## The reports that are possible -/

/-- `Leaves precision report` says that a calculation with this precision may leave this report.
There is one rule for every stage that can fail and one for every way to succeed. -/
inductive Leaves : Precision → Report → Prop where
  | wordCount (precision : Precision) (count : Nat) :
      Leaves precision ⟨[], .error (.wordCount count)⟩
  | unchecked (precision : Precision) (e : Expression) (error : CalculationError) :
      error.stages = 1 → Leaves precision ⟨[.tokenized e], .error error⟩
  | unread (precision : Precision) (e : Expression) (o : Operator) (error : CalculationError) :
      error.stages = 2 → Leaves precision ⟨[.tokenized e, .validated o], .error error⟩
  | exact (e : Expression) (o : Operator) (q : Rat) :
      Leaves .exact ⟨[.tokenized e, .validated o, .evaluatedExactly q], .ok (MixedForm.write q)⟩
  | notFinite (tolerance : Binary64) (e : Expression) (o : Operator) (x : Binary64) :
      Leaves (.float tolerance)
        ⟨[.tokenized e, .validated o, .evaluatedInBinary64 x, .notFinite x],
          .error (.notFinite x)⟩
  | recovered (tolerance : Binary64) (e : Expression) (o : Operator) (a b v : Rat)
      (start : Convergent) (expansion : Convergent.Expansion) :
      Literal.parse e.left = .ok a → Literal.parse e.right = .ok b →
      (o.applyNearest a b).toRat? = some v → start.value = ⌊v⌋ →
      (∀ reached ∈ expansion.convergents, reached.Proper) →
      Leaves (.float tolerance)
        ⟨.tokenized e :: .validated o :: .evaluatedInBinary64 (o.applyNearest a b) ::
            expansion.convergents.map Record.convergent,
          .ok (MixedForm.write (expansion.last start).value)⟩

/-- The report of an evaluation behind the first two stages. -/
theorem leaves_evaluate (precision : Precision) {e : Expression} (o : Operator) {a b : Rat}
    (ha : Literal.parse e.left = .ok a) (hb : Literal.parse e.right = .ok b) :
    Leaves precision
      (Report.after (.tokenized e) (Report.after (.validated o) (evaluate precision o a b))) := by
  cases precision with
  | exact => exact .exact e o (o.apply .rational a b)
  | float tolerance =>
      show Leaves (.float tolerance)
        (Report.after _ (Report.after _ (evaluateInBinary64 tolerance o a b)))
      rcases evaluateInBinary64_cases tolerance o a b with
        ⟨-, hevaluate⟩ | ⟨v, start, expansion, hv, hevaluate, hfloor, hproper⟩
      · rw [hevaluate]
        exact .notFinite tolerance e o (o.applyNearest a b)
      · rw [hevaluate]
        exact .recovered tolerance e o a b v start expansion ha hb hv hfloor hproper

/-- Every calculation leaves one of the reports. -/
theorem leaves_report (precision : Precision) (text : Text) :
    Leaves precision (report precision text) := by
  unfold report
  cases Expression.ofText text with
  | error count => exact .wordCount precision count
  | ok e =>
      rcases e.operator_cases with ⟨word, hword⟩ | ⟨word, hword⟩ | ⟨o, ho, -⟩
      · simp only [hword]
        exact .unchecked precision e _ rfl
      · simp only [hword]
        exact .unchecked precision e _ rfl
      · simp only [ho]
        rcases e.operands_cases o with ⟨cause, hcause⟩ | hzero | ⟨a, b, hvalues, ha, hb⟩
        · simp only [hcause]
          exact .unread precision e o _ rfl
        · simp only [hzero]
          exact .unread precision e o _ rfl
        · simp only [hvalues]
          exact leaves_evaluate precision o ha hb

/-! ## What the records tell -/

section

variable {precision : Precision} {r : Report}

/-- The records for debugging name the stages before the outcome. -/
theorem Leaves.debug (h : Leaves precision r) :
    (Record.atLevel .debug r.records).map Record.firstWord =
      stageNames.take (stagesBefore r.outcome) := by
  cases h with
  | wordCount _ count => rfl
  | unchecked _ e error hstages =>
      show _ = stageNames.take error.stages
      rw [hstages]
      rfl
  | unread _ e o error hstages =>
      show _ = stageNames.take error.stages
      rw [hstages]
      rfl
  | exact e o q => rfl
  | notFinite tolerance e o x => rfl
  | recovered tolerance e o a b v start expansion =>
      show (_ :: _ :: _ :: Record.atLevel .debug (expansion.convergents.map Record.convergent)).map
        Record.firstWord = stageNames
      rw [Record.atLevel_convergents .debug (by decide)]
      rfl

/-- A result that is not finite leaves one warning, which is the last record. -/
theorem Leaves.warn (h : Leaves precision r) {x : Binary64}
    (houtcome : r.outcome = .error (.notFinite x)) :
    Record.atLevel .warn r.records = [.notFinite x] ∧
      r.records.getLast? = some (.notFinite x) := by
  cases h with
  | wordCount _ count => cases houtcome
  | unchecked _ e error hstages =>
      obtain rfl := Except.error.inj houtcome
      cases hstages
  | unread _ e o error hstages =>
      obtain rfl := Except.error.inj houtcome
      cases hstages
  | exact e o q => cases houtcome
  | notFinite tolerance e o y =>
      cases houtcome
      exact ⟨rfl, rfl⟩
  | recovered tolerance e o a b v start expansion => cases houtcome

/-- No other outcome leaves a warning. -/
theorem Leaves.no_warn (h : Leaves precision r)
    (houtcome : ∀ x, r.outcome ≠ .error (.notFinite x)) :
    Record.atLevel .warn r.records = [] := by
  cases h with
  | wordCount _ count => rfl
  | unchecked _ e error => rfl
  | unread _ e o error => rfl
  | exact e o q => rfl
  | notFinite tolerance e o x => exact absurd rfl (houtcome x)
  | recovered tolerance e o a b v start expansion =>
      exact Record.atLevel_convergents .warn (by decide) expansion.convergents

/-- The records for debugging come first, then those for tracing, and a warning comes last. -/
theorem Leaves.order (h : Leaves precision r) :
    r.records = Record.atLevel .debug r.records ++ Record.atLevel .trace r.records ++
      Record.atLevel .warn r.records := by
  cases h with
  | wordCount _ count => rfl
  | unchecked _ e error => rfl
  | unread _ e o error => rfl
  | exact e o q => rfl
  | notFinite tolerance e o x => rfl
  | recovered tolerance e o a b v start expansion =>
      show _ = (_ :: _ :: _ ::
          Record.atLevel .debug (expansion.convergents.map Record.convergent)) ++
        Record.atLevel .trace (expansion.convergents.map Record.convergent) ++
        Record.atLevel .warn (expansion.convergents.map Record.convergent)
      rw [Record.atLevel_convergents .debug (by decide), Record.atLevel_trace_convergents,
        Record.atLevel_convergents .warn (by decide), List.append_nil]
      rfl

/-- Only a calculation in binary64 that succeeds leaves records for tracing. -/
theorem Leaves.trace (h : Leaves precision r) (htrace : Record.atLevel .trace r.records ≠ []) :
    (∃ tolerance, precision = .float tolerance) ∧ ∃ text, r.outcome = .ok text := by
  cases h with
  | wordCount _ count => exact absurd rfl htrace
  | unchecked _ e error => exact absurd rfl htrace
  | unread _ e o error => exact absurd rfl htrace
  | exact e o q => exact absurd rfl htrace
  | notFinite tolerance e o x => exact absurd rfl htrace
  | recovered tolerance e o a b v start expansion => exact ⟨⟨tolerance, rfl⟩, ⟨_, rfl⟩⟩

/-- The text of a calculation in binary64 is the mixed form of the fraction in the last record for
tracing, which is in lowest terms there, or of the floor of the result when there is none. -/
theorem Leaves.written (h : Leaves precision r) {tolerance : Binary64}
    (hprecision : precision = .float tolerance) {text : Text} (houtcome : r.outcome = .ok text) :
    (∀ record, (Record.atLevel .trace r.records).getLast? = some record →
      ∃ h k : Int, record.Prints h k ∧ 1 ≤ k ∧ h.gcd k = 1 ∧ text = MixedForm.write (h / k)) ∧
    (Record.atLevel .trace r.records = [] → ∃ e o a b v,
      r.records = [.tokenized e, .validated o, .evaluatedInBinary64 (o.applyNearest a b)] ∧
      Literal.parse e.left = .ok a ∧ Literal.parse e.right = .ok b ∧
      (o.applyNearest a b).toRat? = some v ∧ text = MixedForm.write ⌊v⌋) := by
  cases h with
  | wordCount _ count => cases houtcome
  | unchecked _ e error => cases houtcome
  | unread _ e o error => cases houtcome
  | exact e o q => cases hprecision
  | notFinite _ e o x => cases houtcome
  | recovered _ e o a b v start expansion ha hb hv hfloor hproper =>
      obtain rfl := Except.ok.inj houtcome
      have htrace : Record.atLevel .trace (.tokenized e :: .validated o ::
          .evaluatedInBinary64 (o.applyNearest a b) ::
            expansion.convergents.map Record.convergent) =
          expansion.convergents.map Record.convergent :=
        Record.atLevel_trace_convergents expansion.convergents
      simp only [htrace]
      constructor
      · intro record hlast
        rw [List.getLast?_map, Option.map_eq_some_iff] at hlast
        obtain ⟨c, hc, rfl⟩ := hlast
        have hreached := hproper c (List.mem_of_getLast? hc)
        refine ⟨c.numerator, c.denominator, Record.convergent_prints c, hreached.denominator_pos,
          hreached.gcd_eq_one, ?_⟩
        rw [Convergent.Expansion.last, List.getLastD_eq_getLast?, hc]
        rfl
      · intro hnil
        refine ⟨e, o, a, b, v, by rw [hnil], ha, hb, hv, ?_⟩
        rw [Convergent.Expansion.last, List.map_eq_nil_iff.1 hnil, ← hfloor]
        rfl

end

/-- The records for debugging are the first ones and name the stages that the outcome has left
behind it. A warning is left exactly for a result that is not finite, and is the last record.
Records for tracing are left only in binary64 and only with a result, behind those of all three
stages; the fraction in the last of them is in lowest terms there and is what is written, and
without one it is the floor of the result in binary64. -/
theorem records_in_order (precision : Precision) (text : Text) :
    (report precision text).records =
      Record.atLevel .debug (report precision text).records ++
      Record.atLevel .trace (report precision text).records ++
      Record.atLevel .warn (report precision text).records ∧
    (Record.atLevel .debug (report precision text).records).map Record.firstWord =
      stageNames.take (stagesBefore (calculate precision text)) ∧
    (∀ x, calculate precision text = .error (.notFinite x) →
      Record.atLevel .warn (report precision text).records = [.notFinite x] ∧
      (report precision text).records.getLast? = some (.notFinite x)) ∧
    ((∀ x, calculate precision text ≠ .error (.notFinite x)) →
      Record.atLevel .warn (report precision text).records = []) ∧
    (Record.atLevel .trace (report precision text).records ≠ [] →
      (∃ tolerance, precision = .float tolerance) ∧
      ∃ written, calculate precision text = .ok written) ∧
    ∀ tolerance written, precision = .float tolerance → calculate precision text = .ok written →
      (∀ record, (Record.atLevel .trace (report precision text).records).getLast? = some record →
        ∃ h k : Int, record.Prints h k ∧ 1 ≤ k ∧ h.gcd k = 1 ∧
          written = MixedForm.write (h / k)) ∧
      (Record.atLevel .trace (report precision text).records = [] → ∃ e o a b v,
        (report precision text).records =
          [.tokenized e, .validated o, .evaluatedInBinary64 (o.applyNearest a b)] ∧
        Literal.parse e.left = .ok a ∧ Literal.parse e.right = .ok b ∧
        (o.applyNearest a b).toRat? = some v ∧ written = MixedForm.write ⌊v⌋) := by
  have hleaves := leaves_report precision text
  exact ⟨hleaves.order, hleaves.debug, fun x h ↦ hleaves.warn h, fun h ↦ hleaves.no_warn h,
    hleaves.trace, fun tolerance written hprecision h ↦ hleaves.written hprecision h⟩

/-- Three quarters have two convergents after their floor, and the last one is printed in full. -/
example : (Record.atLevel .trace
    (report (.float Precision.defaultTolerance) "1/2 + 1/4".toList).records).map Record.message =
    ["convergent 1/1 (remainder 0.33333333333333326)".toList,
      "convergent 3/4 (remainder 0.0000000000000008881784197001252)".toList] := by
  decide +kernel

end MixedNumbers
