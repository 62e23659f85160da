import MixedNumbers.Proofs.Accuracy
import MixedNumbers.Proofs.EqualOperands
import MixedNumbers.Proofs.WholeResults

/-!
# Small fractions are recovered

With the default tolerance, a fraction whose denominator is at most 500 is recovered from every
number that is very close to it, and the number nearest to a fraction is that close unless the
fraction is large. Different fractions are not close: they are at least one over both denominators
apart (`one_div_le_abs_sub`). So as long as the denominators of the convergents do not exceed that
of the fraction, a convergent passes the test if and only if it is the fraction. `Approaches` says
that they do not, and `Turn.approaches` is the step: with a larger denominator the next convergent
and all that goes on from it would stay nearer to a convergent which is not the fraction than the
fraction itself. Where a rounded reciprocal falls just below an integer, and the floor is one too
small, the denominator is still below and one more turn adds what is missing.
-/

namespace MixedNumbers

open Binary64

namespace Convergent

variable {c reached start : Convergent} {tolerance x : Binary64} {p q v r : Rat} {i : Nat}

/-! ## Fractions are apart -/

/-- Different fractions are at least one over both denominators apart. -/
theorem one_div_le_abs_sub (hne : p ≠ q) : 1 / (p.den * q.den : Rat) ≤ |p - q| := by
  have hdenominators : (0 : Rat) < p.den * q.den := by
    exact_mod_cast Nat.mul_pos p.den_pos q.den_pos
  have hcross : p.num * q.den - q.num * p.den ≠ 0 :=
    sub_ne_zero.2 fun heq ↦ hne (Rat.eq_iff_mul_eq_mul.2 heq)
  have hone : (1 : Rat) ≤ |(p.num * q.den - q.num * p.den : Rat)| := by
    exact_mod_cast Int.one_le_abs hcross
  have hfactor : (p.num * q.den - q.num * p.den : Rat) = (p - q) * (p.den * q.den) := by
    rw [← Rat.mul_den_eq_num p, ← Rat.mul_den_eq_num q]
    ring
  rwa [div_le_iff₀ hdenominators, ← abs_of_pos hdenominators, ← abs_mul, ← hfactor]

/-- A convergent that is not some fraction is at least one over both denominators away from it. -/
theorem Proper.one_div_le_abs_value_sub (h : Proper c) (hne : c.value ≠ q) :
    1 / (c.denominator * q.den : Rat) ≤ |c.value - q| := by
  have hdenominator : (c.value.den : Rat) = c.denominator := by exact_mod_cast h.num_den_value.2
  rw [← hdenominator]
  exact one_div_le_abs_sub hne

/-- When one of two denominators is made larger by one, one over both loses more than all roundings
can make up for. -/
theorem one_div_next_add_lt {k d : Rat} (hk : 1 ≤ k) (hle : k ≤ d) (hd : d ≤ 500) :
    1 / ((d + 1) * k) + 2 ^ (-43 : Int) < 1 / (k * d) := by
  have hkpos : 0 < k := zero_lt_one.trans_le hk
  have hdpos : 0 < d := hkpos.trans_le hle
  have hgap : 1 / (k * d) = 1 / ((d + 1) * k) + 1 / (k * d * (d + 1)) := by
    field_simp
  have hproduct : k * d * (d + 1) ≤ 500 * 500 * (500 + 1) := by
    gcongr
    exact hle.trans hd
  rw [hgap, add_lt_add_iff_left, lt_div_iff₀ (by positivity)]
  calc 2 ^ (-43 : Int) * (k * d * (d + 1)) ≤ 2 ^ (-43 : Int) * (500 * 500 * (500 + 1)) :=
        mul_le_mul_of_nonneg_left hproduct (by positivity)
    _ < 1 := by norm_num

/-! ## Turns -/

/-- `Approaches q v i c` says that the convergent is near to `v` at its place and that its
denominator is not below the one before. At one of the first places it does not exceed that of `q`
either. -/
structure Approaches (q v : Rat) (i : Nat) (c : Convergent) : Prop where
  near : Near v i c
  previous_le : c.previousDenominator ≤ c.denominator
  denominator_le : i ≤ 16 → c.denominator ≤ q.den

/-- The first convergent of a number has the denominator one. -/
theorem approaches_first (q : Rat) (hx : x.toRat? = some v) (hfirst : first x = some start) :
    Approaches q v 0 start := by
  have hnear := near_first hx hfirst
  obtain rfl := Option.some.inj ((first_of_toRat? hx).symm.trans hfirst)
  refine ⟨hnear, zero_le_one, fun _ ↦ ?_⟩
  show (1 : Int) ≤ q.den
  exact_mod_cast q.den_pos

section

variable (hclose : |v - q| ≤ 2 ^ (-44 : Int)) (hden : q.den ≤ 500)

include hclose

/-- What goes on from a near convergent at one of the first places is close to the fraction, too. -/
theorem Near.exists_continued (h : Near v i c) (hi : i ≤ 16) :
    ∃ r, c.remainder.toRat? = some r ∧ 0 ≤ r ∧ r ≤ 1 ∧ |c.continued r - q| ≤ 2 ^ (-43 : Int) := by
  obtain ⟨r, hremainder, herror⟩ := h.error
  obtain ⟨hlow, hhigh⟩ := h.proper.remainder_bounds hremainder
  have hplace : ((i : Rat) + 1) * 2 ^ (-53 : Int) ≤ 17 * 2 ^ (-53 : Int) := by
    have hcast : (i : Rat) ≤ 16 := by exact_mod_cast hi
    exact mul_le_mul_of_nonneg_right (by linarith) (by positivity)
  refine ⟨r, hremainder, hlow, hhigh, ?_⟩
  calc |c.continued r - q| ≤ |c.continued r - v| + |v - q| := abs_sub_le _ _ _
    _ ≤ 17 * 2 ^ (-53 : Int) + 2 ^ (-44 : Int) := add_le_add (herror.trans hplace) hclose
    _ ≤ 2 ^ (-43 : Int) := by norm_num

include hden

/-- A turn from a convergent that is not the fraction does not go beyond its denominator. -/
theorem Turn.denominator_le (h : Turn c reached) (hproper : Proper c)
    (hle : c.denominator ≤ q.den) (hne : c.value ≠ q) (hnear : Near v i reached) (hi : i ≤ 16) :
    reached.denominator ≤ q.den := by
  by_contra hlarge
  obtain ⟨r, -, hr, -, hcontinued⟩ := hnear.exists_continued hclose hi
  have hk : (1 : Rat) ≤ c.denominator := by exact_mod_cast hproper.denominator_pos
  have hkd : (c.denominator : Rat) ≤ q.den := by exact_mod_cast hle
  have hd : (q.den : Rat) ≤ 500 := by exact_mod_cast hden
  have hnext : (q.den + 1 : Rat) ≤ reached.denominator := by exact_mod_cast not_le.1 hlarge
  -- with such a denominator, what goes on from here is nearer to `c` than the fraction is
  have hturn : |reached.continued r - c.value| ≤ 1 / ((q.den + 1) * c.denominator) := by
    rw [h.abs_continued_sub_value hproper hr]
    have hgoes : (q.den + 1 : Rat) ≤ reached.denominator + r * c.denominator :=
      hnext.trans (le_add_of_nonneg_right (by positivity))
    exact one_div_le_one_div_of_le (by positivity)
      (mul_le_mul_of_nonneg_right hgoes (zero_le_one.trans hk))
  rw [abs_sub_comm] at hturn
  refine absurd (hproper.one_div_le_abs_value_sub hne) (not_le.2 ?_)
  calc |c.value - q| ≤ |c.value - reached.continued r| + |reached.continued r - q| :=
        abs_sub_le _ _ _
    _ ≤ 1 / ((q.den + 1) * c.denominator) + 2 ^ (-43 : Int) := add_le_add hturn hcontinued
    _ < 1 / (c.denominator * q.den) := one_div_next_add_lt hk hkd hd

/-- The fraction passes the test when it is reached. -/
theorem Approaches.withinTolerance (h : Approaches q v i c) (hi : i ≤ 16) (hvalue : c.value = q)
    (htolerance : AtLeast (2 ^ (-20 : Int)) tolerance) : c.withinTolerance tolerance = true := by
  have hproper := h.near.proper
  obtain ⟨r, hremainder, hr, hone, hcontinued⟩ := h.near.exists_continued hclose hi
  have hk : (1 : Rat) ≤ c.denominator := by exact_mod_cast hproper.denominator_pos
  have hle : (c.denominator : Rat) ≤ 500 := by
    exact_mod_cast (h.denominator_le hi).trans (Int.ofNat_le.2 hden)
  have hprevious : (c.previousDenominator : Rat) ≤ c.denominator := by exact_mod_cast h.previous_le
  have hnonneg : (0 : Rat) ≤ c.previousDenominator := by
    exact_mod_cast hproper.previousDenominator_nonneg
  have hgoes : r * c.previousDenominator ≤ 1 * 500 :=
    mul_le_mul hone (hprevious.trans hle) hnonneg zero_le_one
  rw [← hvalue, hproper.abs_continued_sub_value hr, div_le_iff₀ (by positivity)] at hcontinued
  refine withinTolerance_of_remainder_le (m := 0) htolerance hproper.denominator_pos (by omega)
    hremainder ?_
  calc r ≤ 2 ^ (-43 : Int) * ((c.denominator + r * c.previousDenominator) * c.denominator) :=
        hcontinued
    _ ≤ 2 ^ (-43 : Int) * ((500 + 1 * 500) * 500) := by gcongr
    _ ≤ 2 ^ (-20 + (0 : Nat) + (0 : Nat) : Int) := by norm_num

/-- A turn that the expansion takes keeps approaching the fraction. -/
theorem Turn.approaches (h : Turn c reached) (hc : Approaches q v i c)
    (htolerance : AtLeast (2 ^ (-20 : Int)) tolerance)
    (hfails : c.withinTolerance tolerance = false) : Approaches q v (i + 1) reached := by
  have hnear := h.near hc.near
  refine ⟨hnear, ?_, fun hi ↦ ?_⟩
  · obtain ⟨w, -, hw, rfl⟩ := h
    exact hc.near.proper.denominator_le_following _ (Int.floor_pos.2 hw)
  · have hplace : i ≤ 16 := by omega
    have hne : c.value ≠ q := by
      intro hvalue
      rw [hc.withinTolerance hclose hden hplace hvalue htolerance] at hfails
      cases hfails
    exact h.denominator_le hclose hden hc.near.proper (hc.denominator_le hplace) hne hnear hi

/-- What passes the test is the fraction. -/
theorem Approaches.value_eq (h : Approaches q v i c) (hi : i ≤ 16)
    (hpasses : c.withinTolerance Precision.defaultTolerance = true) : c.value = q := by
  by_contra hne
  have hproper := h.near.proper
  obtain ⟨r, hremainder, hr, -, hcontinued⟩ := h.near.exists_continued hclose hi
  have hk : (1 : Rat) ≤ c.denominator := by exact_mod_cast hproper.denominator_pos
  have hle : (c.denominator : Rat) ≤ q.den := by exact_mod_cast h.denominator_le hi
  have hd : (q.den : Rat) ≤ 500 := by exact_mod_cast hden
  have hvalue := hproper.abs_continued_sub_value_le hr
    (hproper.remainder_le toRat?_defaultTolerance hremainder (by norm_num) hpasses)
  rw [abs_sub_comm] at hvalue
  have hproduct : (c.denominator * q.den : Rat) ≤ 500 * 500 :=
    mul_le_mul (hle.trans hd) hd (by positivity) (by positivity)
  refine absurd (hproper.one_div_le_abs_value_sub hne) (not_le.2 ?_)
  calc |c.value - q| ≤ |c.value - c.continued r| + |c.continued r - q| := abs_sub_le _ _ _
    _ ≤ 0x10c6f7a0b5ed8d / 2 ^ 72 * (1 + 2 ^ (-50 : Int)) + 2 ^ (-43 : Int) :=
        add_le_add hvalue hcontinued
    _ < 1 / (500 * 500) := by norm_num
    _ ≤ 1 / (c.denominator * q.den) := one_div_le_one_div_of_le (by positivity) hproduct

end

/-! ## Whole expansions -/

/-- With the default tolerance, a fraction whose denominator is at most 500 is recovered from every
number that is at most two to the -44 away from it. -/
theorem approximate_of_close (hx : x.toRat? = some v) (hclose : |v - q| ≤ 2 ^ (-44 : Int))
    (hden : q.den ≤ 500) : approximate Precision.defaultTolerance x = some q := by
  obtain ⟨start, expansion, hfirst, hexpand, -, -, hexpands⟩ :=
    exists_expand_expands Precision.defaultTolerance hx
  have hdefault : Precision.defaultTolerance.le Precision.defaultTolerance = true := by
    decide +kernel
  have htolerance := atLeast_of_default_le hdefault
  have hgrown := grown_first hx hfirst
  have hshort := hexpands.length_le_sixteen hgrown hdefault
  obtain ⟨-, hpasses⟩ := hexpands.ending_of_lt hgrown htolerance (by omega)
    (show expansion.convergents.length < maxRounds by unfold maxRounds; omega)
  have hlast := hexpands.at_places (approaches_first q hx hfirst)
    (fun _ _ _ hc hfails hturn ↦ hturn.approaches hclose hden hc htolerance hfails)
    (Expansion.getElem?_last start expansion)
  rw [Nat.zero_add] at hlast
  rw [approximate, hexpand, ← hlast.value_eq hclose hden hshort hpasses]
  rfl

end Convergent

/-! ## Nearest numbers -/

section

variable {q a b v : Rat} {text other : Text}

/-- The number nearest to a rational of at most one thousand is at most two to the -44 away. -/
theorem abs_rounded_sub_le_of_le_thousand (hsize : |q| ≤ 1000) :
    |rounded q - q| ≤ 2 ^ (-44 : Int) :=
  abs_rounded_sub_le_of_lt (n := 10) (by omega) (hsize.trans_lt (by norm_num))

/-- The number nearest to a rational of at most one thousand is finite. -/
theorem toRat?_ofRat_of_le_thousand (hsize : |q| ≤ 1000) (zeroNegative : Bool) :
    (ofRat q zeroNegative).toRat? = some (rounded q) := by
  refine toRat?_ofRat ?_ zeroNegative
  have hclose := abs_rounded_sub_le_of_le_thousand hsize
  calc |rounded q| = |rounded q - q + q| := by rw [sub_add_cancel]
    _ ≤ |rounded q - q| + |q| := abs_add_le _ _
    _ ≤ 2 ^ (-44 : Int) + 1000 := add_le_add hclose hsize
    _ < 2 ^ (10 : Int) := by norm_num
    _ < 2 ^ (1024 : Int) := zpow_lt_zpow_right₀ one_lt_two (by omega)

/-- A representable right operand that is neutral for an operator keeps the value of the nearest
number. -/
theorem toRat?_applyNearest_of_neutral {o : Operator} (hb : Representable b)
    (hneutral : ∀ w, o.apply .rational w b = w) (ha : (ofRat a false).toRat? = some v) :
    (o.applyNearest a b).toRat? = some v := by
  have hdivisor : ¬ (o = .divide ∧ b = 0) := by
    rintro ⟨rfl, rfl⟩
    exact zero_ne_one ((div_zero (1 : Rat)).symm.trans (hneutral 1))
  have hvalue := toRat?_applyNearest_of_toRat? (o := o) ha (hb.toRat?_ofRat false) hdivisor
    ⟨ofRat a false, by rwa [hneutral]⟩
  rwa [hneutral] at hvalue

/-! ## Calculations -/

/-- The operation that the checks find in two literals with the symbol of an operator between them
is the one of this operator on their values. -/
theorem eq_of_checked_unwords {o : Operator} {operation : Operation}
    (ha : Literal.parse text = .ok a) (hb : Literal.parse other = .ok b)
    (hchecked : checked (Text.unwords [text, o.symbol, other]).words = .ok operation) :
    operation = ⟨o, a, b⟩ := by
  obtain ⟨found, left, right⟩ := operation
  have htext := ((Literal.parse_eq_ok_iff text a).1 ha).ne_nil_and_no_space
  have hother := ((Literal.parse_eq_ok_iff other b).1 hb).ne_nil_and_no_space
  rw [words_unwords_symbol o htext hother] at hchecked
  obtain ⟨_, _, hwords, -, -, hleft, hright, -⟩ := checked_eq_ok_iff.1 hchecked
  simp only [List.cons.injEq, and_true] at hwords
  obtain ⟨rfl, hsymbol, rfl⟩ := hwords
  have hfound := Operator.ofSymbol?_symbol found
  rw [← hsymbol, Operator.ofSymbol?_symbol] at hfound
  obtain rfl := Option.some.inj hfound
  obtain rfl := Except.ok.inj (hleft.symm.trans ha)
  obtain rfl := Except.ok.inj (hright.symm.trans hb)
  rfl

/-- A calculation in binary64 on two literals agrees with the exact one when the exact value is
recovered from its result. -/
theorem calculate_float_eq_exact_of_approximate {tolerance : Binary64} {o : Operator}
    (ha : Literal.parse text = .ok a) (hb : Literal.parse other = .ok b)
    (happroximate : Convergent.approximate tolerance (o.applyNearest a b) =
      some (o.apply .rational a b)) :
    calculate (.float tolerance) (Text.unwords [text, o.symbol, other]) =
      calculate .exact (Text.unwords [text, o.symbol, other]) := by
  cases hchecked : checked (Text.unwords [text, o.symbol, other]).words with
  | error error => rw [calculate_of_checked_error hchecked, calculate_of_checked_error hchecked]
  | ok operation =>
      obtain rfl := eq_of_checked_unwords ha hb hchecked
      rw [calculate_of_checked hchecked, calculate_of_checked hchecked]
      exact evaluateInBinary64_outcome_of_approximate happroximate

/-- A calculation in binary64 on the literal of a small fraction agrees with the exact one when the
right operand is neutral. -/
theorem calculate_float_eq_exact_of_neutral (hden : a.den ≤ 500) (hsize : |a| ≤ 1000)
    (ha : Literal.parse text = .ok a) (hb : Literal.parse other = .ok b) (o : Operator)
    (hrepresentable : Representable b) (hneutral : ∀ w, o.apply .rational w b = w) :
    calculate (.float Precision.defaultTolerance) (Text.unwords [text, o.symbol, other]) =
      calculate .exact (Text.unwords [text, o.symbol, other]) := by
  refine calculate_float_eq_exact_of_approximate ha hb ?_
  rw [hneutral]
  exact Convergent.approximate_of_close
    (toRat?_applyNearest_of_neutral hrepresentable hneutral
      (toRat?_ofRat_of_le_thousand hsize false))
    (abs_rounded_sub_le_of_le_thousand hsize) hden

end

/-- A fraction in lowest terms with a denominator of at most 500 and a size of at most one thousand
is recovered with the default tolerance from the number nearest to it, and written as itself.
Calculations in binary64 that add zero to a literal of this value or multiply it by one agree with
the exact ones, which write the fraction if the literal may stand as an operand. -/
theorem small_fraction_round_trip {q : Rat} (hden : q.den ≤ 500) (hsize : |q| ≤ 1000) :
    Convergent.approximate Precision.defaultTolerance (ofRat q false) = some q ∧
    Convergent.approximateText Precision.defaultTolerance (ofRat q false) =
      some (MixedForm.write q) ∧
    ∀ text, Literal.parse text = .ok q →
      calculate (.float Precision.defaultTolerance) (Text.unwords [text, ['+'], ['0']]) =
        calculate .exact (Text.unwords [text, ['+'], ['0']]) ∧
      calculate (.float Precision.defaultTolerance) (Text.unwords [text, ['*'], ['1']]) =
        calculate .exact (Text.unwords [text, ['*'], ['1']]) ∧
      (Literal.isOperand text = true →
        calculate .exact (Text.unwords [text, ['+'], ['0']]) = .ok (MixedForm.write q) ∧
        calculate .exact (Text.unwords [text, ['*'], ['1']]) = .ok (MixedForm.write q)) := by
  have hrecovered := Convergent.approximate_of_close (toRat?_ofRat_of_le_thousand hsize false)
    (abs_rounded_sub_le_of_le_thousand hsize) hden
  refine ⟨hrecovered, by rw [Convergent.approximateText, hrecovered]; rfl, fun text htext ↦ ?_⟩
  have hzero : Literal.parse ['0'] = .ok 0 := by decide +kernel
  have hone : Literal.parse ['1'] = .ok 1 := by decide +kernel
  refine ⟨calculate_float_eq_exact_of_neutral hden hsize htext hzero .add
      ⟨zero false, by decide +kernel⟩ add_zero,
    calculate_float_eq_exact_of_neutral hden hsize htext hone .multiply ⟨one, toRat?_one⟩ mul_one,
    fun hoperand ↦ ?_⟩
  have hmem := (Literal.isOperand_iff text).1 hoperand
  have hvalue := (Literal.parse_eq_ok_iff text q).1 htext
  exact ⟨calculate_add_zero hmem hvalue, calculate_multiply_one hmem hvalue⟩

/-- Three sevenths are recovered although a floor is one too small on the way: the quotients of the
fraction, two and three, would lead from the denominator two to seven in one turn, where the
expansion takes two turns by way of five. -/
theorem small_fraction_round_trip_of_three_sevenths :
    (3 / 7 : Rat).den ≤ 500 ∧ |(3 / 7 : Rat)| ≤ 1000 ∧
    (Convergent.expand Precision.defaultTolerance (ofRat (3 / 7) false)).map (fun result ↦
      (result.1 :: result.2.convergents).map Convergent.denominator) = some [1, 2, 5, 7] ∧
    Convergent.approximate Precision.defaultTolerance (ofRat (3 / 7) false) = some (3 / 7) ∧
    Literal.parse "6/14".toList = .ok (3 / 7) ∧
    calculate (.float Precision.defaultTolerance) "6/14 + 0".toList = .ok "3/7".toList ∧
    calculate (.float Precision.defaultTolerance) "6/14 * 1".toList = .ok "3/7".toList := by
  have hden : (3 / 7 : Rat).den ≤ 500 := by decide +kernel
  have hsize : |(3 / 7 : Rat)| ≤ 1000 := by norm_num [abs_le]
  have htext : Literal.parse "6/14".toList = .ok (3 / 7) := by decide +kernel
  have hoperand : Literal.isOperand "6/14".toList = true := by decide +kernel
  have hwritten : MixedForm.write (3 / 7) = "3/7".toList := by decide +kernel
  obtain ⟨hrecovered, -, hliterals⟩ := small_fraction_round_trip hden hsize
  obtain ⟨hsum, hproduct, hexact⟩ := hliterals "6/14".toList htext
  rw [(hexact hoperand).1, hwritten] at hsum
  rw [(hexact hoperand).2, hwritten] at hproduct
  exact ⟨hden, hsize, by decide +kernel, hrecovered, htext, hsum, hproduct⟩

end MixedNumbers
