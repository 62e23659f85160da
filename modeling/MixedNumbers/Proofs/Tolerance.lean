import MixedNumbers.Proofs.Convergent

/-!
# The test against the tolerance

When the part that a convergent leaves over passes the test. The right-hand side of the test is
two rounded products, and either of them may be an infinity. `AtLeast` bounds such numbers from
below by a rational, which is all that is needed to see that the test is passed:
`Proper.withinTolerance_of_le` says that it is as soon as the denominator makes up for the
tolerance. The other way round, a part left over that fails the test has a reciprocal that is
finite (`Proper.isFinite_reciprocal`), and one that passes it is hardly above the product without
rounding (`Proper.remainder_le`). With the denominator one no rounding takes place
(`withinTolerance_iff`).
-/

namespace MixedNumbers

namespace Binary64

/-- `AtLeast q x` says that the number is positive infinity or has a value that is not below the
rational. -/
inductive AtLeast (q : Rat) : Binary64 → Prop where
  | infinity : AtLeast q (.infinity false)
  | value (x : Binary64) (v : Rat) : x.toRat? = some v → q ≤ v → AtLeast q x

variable {x y : Binary64} {p q v : Rat}

/-- What is at least some rational is at least every smaller one. -/
theorem AtLeast.mono (h : AtLeast q x) (hle : p ≤ q) : AtLeast p x := by
  cases h with
  | infinity => exact .infinity
  | value _ v hx hv => exact .value x v hx (hle.trans hv)

/-- A lower bound of a number with a value is a lower bound of this value. -/
theorem AtLeast.le_of_toRat? (h : AtLeast q x) (hx : x.toRat? = some v) : q ≤ v := by
  cases h with
  | infinity => cases hx
  | value _ w hw hle => exact hle.trans_eq (Option.some.inj (hw.symm.trans hx))

/-- A number with a value is at most the numbers that are at least this value. -/
theorem le_iff_atLeast (hx : x.toRat? = some v) : x.le y = true ↔ AtLeast v y := by
  obtain ⟨s, m, e, hm, rfl, rfl⟩ := exists_parts hx
  cases y with
  | nan => exact ⟨nofun, nofun⟩
  | infinity negative =>
      cases negative with
      | false => exact ⟨fun _ ↦ .infinity, fun _ ↦ rfl⟩
      | true => exact ⟨nofun, nofun⟩
  | finite t n f hn =>
      rw [le_iff hx (show (finite t n f hn).toRat? = some (scaled t n f) from rfl)]
      exact ⟨fun hle ↦ .value _ _ rfl hle, fun h ↦ h.le_of_toRat? rfl⟩

/-- A lower bound of a number bounds all numbers that are not below it. -/
theorem AtLeast.of_le (h : AtLeast q x) (hle : x.le y = true) : AtLeast q y := by
  cases h with
  | value _ v hx hv => exact ((le_iff_atLeast hx).1 hle).mono hv
  | infinity =>
      cases y with
      | nan => cases hle
      | finite t n f hn => cases hle
      | infinity negative =>
          cases negative with
          | false => exact .infinity
          | true => cases hle

/-- A rational is rounded to at least every smaller positive rational that rounding keeps. -/
theorem atLeast_ofRat (hpos : 0 < p) (hround : rounded p = p) (hle : p ≤ q)
    (zeroNegative : Bool) : AtLeast p (ofRat q zeroNegative) := by
  rcases ofRat_cases q zeroNegative with ⟨-, hvalue⟩ | ⟨-, hinfinity⟩
  · exact .value _ _ hvalue (le_rounded_of_eq hround hle)
  · rw [hinfinity, decide_eq_false (not_lt.2 (hpos.le.trans hle))]
    exact .infinity

/-- Positive infinity times a positive number is positive infinity. -/
theorem infinity_mul (hv : 0 < v) (hx : x.toRat? = some v) :
    (infinity false).mul x = infinity false ∧ x.mul (infinity false) = infinity false := by
  obtain ⟨s, m, e, hm, rfl, rfl⟩ := exists_parts hx
  have hdigits : m ≠ 0 := by
    rintro rfl
    rw [(scaled_eq_zero_iff s 0 e).2 rfl] at hv
    exact lt_irrefl _ hv
  have hsign : s = false := by
    have hpositive := (isPositiveFinite_iff (.finite s m e hm)).2 ⟨_, hx, hv⟩
    simp only [isPositiveFinite, Bool.and_eq_true, Bool.not_eq_true'] at hpositive
    exact hpositive.1
  subst hsign
  exact ⟨if_neg hdigits, if_neg hdigits⟩

/-- A product is at least the product of positive bounds for the factors, if rounding keeps that. -/
theorem AtLeast.mul (hx : AtLeast p x) (hy : AtLeast q y) (hp : 0 < p) (hq : 0 < q)
    (hround : rounded (p * q) = p * q) : AtLeast (p * q) (x.mul y) := by
  cases hx with
  | infinity =>
      cases hy with
      | infinity => exact .infinity
      | value _ w hw hle =>
          rw [(infinity_mul (hq.trans_le hle) hw).1]
          exact .infinity
  | value _ v hv hle =>
      cases hy with
      | infinity =>
          rw [(infinity_mul (hp.trans_le hle) hv).2]
          exact .infinity
      | value _ w hw hle' =>
          obtain ⟨zeroNegative, hproduct⟩ := mul_eq_ofRat hv hw
          rw [hproduct]
          exact atLeast_ofRat (mul_pos hp hq) hround
            (mul_le_mul hle hle' hq.le (hp.le.trans hle)) zeroNegative

/-- A product whose rounded value is not too large has this value. -/
theorem toRat?_mul {w : Rat} (hx : x.toRat? = some v) (hy : y.toRat? = some w)
    (hlt : |rounded (v * w)| < 2 ^ (1024 : Int)) :
    (x.mul y).toRat? = some (rounded (v * w)) := by
  obtain ⟨zeroNegative, hproduct⟩ := mul_eq_ofRat hx hy
  rw [hproduct]
  exact toRat?_ofRat hlt zeroNegative

/-- The leading digit of a number is kept in what is weighed of it. -/
theorem pow_le_weighed {m n : Nat} (h : 2 ^ m ≤ n) : 2 ^ m ≤ weighed n := by
  have hn : n ≠ 0 := by
    have hpos := Nat.two_pow_pos m
    omega
  have hbehind : digitsBehind n ≤ n.log2 := Nat.sub_le _ _
  have hlog : m ≤ n.log2 := (Nat.le_log2 hn).2 h
  have hsplit : 2 ^ n.log2 = 2 ^ (n.log2 - digitsBehind n) * 2 ^ digitsBehind n := by
    rw [← Nat.pow_add, Nat.sub_add_cancel hbehind]
  have hleading : 2 ^ (n.log2 - digitsBehind n) ≤ n / 2 ^ digitsBehind n := by
    rw [Nat.le_div_iff_mul_le (Nat.two_pow_pos _), ← hsplit]
    exact Nat.log2_self_le hn
  calc 2 ^ m ≤ 2 ^ n.log2 := Nat.pow_le_pow_right (by omega) hlog
    _ = 2 ^ (n.log2 - digitsBehind n) * 2 ^ digitsBehind n := hsplit
    _ ≤ n / 2 ^ digitsBehind n * 2 ^ digitsBehind n := Nat.mul_le_mul_right _ hleading
    _ ≤ weighed n := leading_le_weighed n

/-- An integer that is held in limbs is rounded to at least every power of two not above it. -/
theorem atLeast_ofLimbs {m : Nat} {i : Int} (h : 2 ^ m ≤ i) :
    AtLeast (2 ^ (m : Int)) (ofLimbs i) := by
  have hpos : 0 < i := lt_of_lt_of_le (by positivity) h
  have hweighed : 2 ^ m ≤ weighed i.natAbs := pow_le_weighed (by zify; rwa [abs_of_pos hpos])
  unfold ofLimbs ofInt
  rw [Int.sign_eq_one_of_pos hpos, one_mul]
  refine atLeast_ofRat (by positivity) (rounded_zpow (by omega)) ?_ false
  rw [zpow_natCast]
  exact_mod_cast hweighed

/-- An integer of at most 53 binary digits that is held in limbs is not changed. -/
theorem toRat?_ofLimbs {i : Int} (h : |i| < 2 ^ 53) : (ofLimbs i).toRat? = some (i : Rat) := by
  have hround : rounded (i : Rat) = i := by
    have hdigits := rounded_of_digits (e := 0) h (by omega)
    rwa [zpow_zero, mul_one] at hdigits
  have hlt : |rounded (i : Rat)| < 2 ^ (1024 : Int) := by
    have hcast : |(i : Rat)| < 2 ^ (53 : Int) := by exact_mod_cast h
    rw [hround]
    exact hcast.trans (zpow_lt_zpow_right₀ one_lt_two (by omega))
  have hsize : i.natAbs < 2 ^ 53 := by zify; exact h
  rw [ofLimbs_eq_ofInt (hsize.trans (by norm_num))]
  exact (toRat?_ofRat hlt false).trans (congrArg some hround)

/-- A number that is not too small has a finite reciprocal. -/
theorem isFinite_one_div {n : Int} (hx : x.toRat? = some v) (hn : -1000 ≤ n) (hv : 2 ^ n ≤ v) :
    (one.div x).isFinite = true := by
  have hpos : 0 < v := lt_of_lt_of_le (by positivity) hv
  obtain ⟨zeroNegative, hquotient⟩ := div_eq_ofRat toRat?_one hx hpos.ne'
  have hle : 1 / v ≤ 2 ^ (1000 : Int) := by
    calc 1 / v ≤ 1 / 2 ^ n := one_div_le_one_div_of_le (by positivity) hv
      _ = 2 ^ (-n) := by rw [zpow_neg, one_div]
      _ ≤ 2 ^ (1000 : Int) := zpow_le_zpow_right₀ one_le_two (by omega)
  have hlt : |rounded (1 / v)| < 2 ^ (1024 : Int) := by
    rw [abs_of_nonneg (rounded_nonneg (by positivity))]
    exact (rounded_le_of_eq (rounded_zpow (by omega)) hle).trans_lt
      (zpow_lt_zpow_right₀ one_lt_two (by omega))
  rw [hquotient]
  exact isFinite_of_toRat? (toRat?_ofRat hlt zeroNegative)

/-- A product with an integer that is held in limbs is rounded up by at most two to the -53 of its
size, when it is neither very small nor above two. -/
theorem exists_product_le (hx : x.toRat? = some v) (hv : 2 ^ (-20 : Int) ≤ v) {k : Int}
    (hk : 1 ≤ k) (hle : v * k ≤ 2) :
    ∃ p, (x.mul (ofLimbs k)).toRat? = some p ∧ 2 ^ (-20 : Int) ≤ p ∧
      p ≤ v * k * (1 + 2 ^ (-53 : Int)) := by
  have hone : (1 : Rat) ≤ k := by exact_mod_cast hk
  have hpower : (0 : Rat) < 2 ^ (-20 : Int) := by positivity
  have hlimbs : (ofLimbs k).toRat? = some (k : Rat) := by
    have hbound := (mul_le_mul_of_nonneg_right hv (zero_le_one.trans hone)).trans hle
    have hfew : (k : Rat) < 2 ^ 53 := by
      norm_num at hbound
      linarith
    have hcast : k < 2 ^ 53 := by exact_mod_cast hfew
    exact toRat?_ofLimbs (abs_lt.2 ⟨by omega, hcast⟩)
  have hlow : 2 ^ (-20 : Int) ≤ v * k := hv.trans (le_mul_of_one_le_right (hpower.le.trans hv) hone)
  have hkept := le_rounded_of_eq (rounded_zpow (by omega)) hlow
  have hhigh := rounded_le_of_eq (rounded_zpow (by omega))
    (hle.trans (show (2 : Rat) ≤ 2 ^ (1 : Int) by norm_num))
  refine ⟨_, toRat?_mul hx hlimbs ?_, hkept, rounded_le ?_⟩
  · rw [abs_of_nonneg (hpower.le.trans hkept)]
    exact hhigh.trans_lt (zpow_lt_zpow_right₀ one_lt_two (by omega))
  · exact (zpow_le_zpow_right₀ one_le_two (by omega)).trans hlow

end Binary64

namespace Convergent

open Binary64

variable {c : Convergent} {tolerance : Binary64}

/-- The right-hand side of the test is at least a power of two when the tolerance and the
denominator are. -/
theorem atLeast_of_denominator {n : Int} {m : Nat} (htolerance : AtLeast (2 ^ n) tolerance)
    (hdenominator : 2 ^ m ≤ c.denominator) (hn : -1074 ≤ n) :
    AtLeast (2 ^ (n + m + m))
      ((tolerance.mul (ofLimbs c.denominator)).mul (ofLimbs c.denominator)) := by
  have hlimbs := atLeast_ofLimbs hdenominator
  have htwo : (2 : Rat) ≠ 0 := two_ne_zero
  have honce := htolerance.mul hlimbs (by positivity) (by positivity)
    (by rw [← zpow_add₀ htwo]; exact rounded_zpow (by omega))
  rw [← zpow_add₀ htwo] at honce
  have htwice := honce.mul hlimbs (by positivity) (by positivity)
    (by rw [← zpow_add₀ htwo]; exact rounded_zpow (by omega))
  rwa [← zpow_add₀ htwo] at htwice

/-- What is left over passes the test when it is at most the power of two that bounds the right-hand
side from below. -/
theorem withinTolerance_of_remainder_le {n : Int} {m : Nat} {r : Rat}
    (htolerance : AtLeast (2 ^ n) tolerance) (hdenominator : 2 ^ m ≤ c.denominator)
    (hn : -1074 ≤ n) (hremainder : c.remainder.toRat? = some r) (hle : r ≤ 2 ^ (n + m + m)) :
    c.withinTolerance tolerance = true :=
  (le_iff_atLeast hremainder).2
    ((atLeast_of_denominator htolerance hdenominator hn).mono hle)

/-- A denominator whose square makes up for the tolerance is large enough for the test. -/
theorem Proper.withinTolerance_of_le (h : Proper c) {n : Int} {m : Nat}
    (htolerance : AtLeast (2 ^ n) tolerance) (hdenominator : 2 ^ m ≤ c.denominator)
    (hn : -1074 ≤ n) (hm : 0 ≤ n + m + m) : c.withinTolerance tolerance = true := by
  obtain ⟨r, hremainder, -, hone⟩ := h.exists_remainder
  exact withinTolerance_of_remainder_le htolerance hdenominator hn hremainder
    (hone.trans (one_le_zpow₀ one_le_two hm))

/-- What is left over and does not pass the test has a reciprocal that is finite. -/
theorem Proper.isFinite_reciprocal (h : Proper c) {n : Int}
    (htolerance : AtLeast (2 ^ n) tolerance) (hn : -1000 ≤ n)
    (hfails : c.withinTolerance tolerance = false) :
    (one.div c.remainder).isFinite = true := by
  obtain ⟨r, hremainder, -, -⟩ := h.exists_remainder
  have hlarge : (2 : Rat) ^ n < r := by
    by_contra hsmall
    have hpasses := withinTolerance_of_remainder_le (m := 0) htolerance h.denominator_pos (by omega)
      hremainder ((not_lt.1 hsmall).trans (by simp))
    rw [hpasses] at hfails
    cases hfails
  exact isFinite_one_div hremainder hn hlarge.le

/-- What a turn leaves over has a reciprocal that is finite, unless it is nothing. -/
theorem Turn.isFinite_reciprocal {reached : Convergent} {r : Rat} (h : Turn c reached)
    (hremainder : reached.remainder.toRat? = some r) (hr : r ≠ 0) :
    (one.div reached.remainder).isFinite = true := by
  obtain ⟨w, hquotient, hw, rfl⟩ := h
  obtain rfl :=
    Option.some.inj (hremainder.symm.trans (toRat?_remainder_following c hquotient hw))
  exact isFinite_one_div hremainder (by omega)
    ((sub_floor_eq_zero_or_le hquotient hw).resolve_left hr)

section

variable {e r : Rat} (htolerance : tolerance.toRat? = some e)
  (hremainder : c.remainder.toRat? = some r)

include htolerance

include hremainder in
/-- With the denominator one, the part left over is compared with the tolerance itself. -/
theorem withinTolerance_iff (hdenominator : c.denominator = 1) :
    c.withinTolerance tolerance = true ↔ r ≤ e := by
  have hround := rounded_of_toRat? htolerance
  have hlt := abs_lt_of_toRat? htolerance
  have hone : (ofLimbs c.denominator).toRat? = some 1 := by
    rw [hdenominator]
    exact toRat?_ofLimbs (by norm_num)
  have honce := toRat?_mul htolerance hone (by rwa [mul_one, hround])
  rw [mul_one, hround] at honce
  have htwice := toRat?_mul honce hone (by rwa [mul_one, hround])
  rw [mul_one, hround] at htwice
  exact le_iff hremainder htwice

/-- The test of the first convergent, which has the denominator one. -/
theorem first_withinTolerance_iff {x : Binary64} {v : Rat} (hx : x.toRat? = some v)
    (hfirst : first x = some c) : c.withinTolerance tolerance = true ↔ rounded (v - ⌊v⌋) ≤ e := by
  obtain rfl := Option.some.inj ((first_of_toRat? hx).symm.trans hfirst)
  exact withinTolerance_iff htolerance (toRat?_remainder hx (toRat?_floor hx)) rfl

include hremainder in
/-- What passes the test is not above the tolerance times the square of the denominator by more than
the rounding of two products. -/
theorem Proper.remainder_le (h : Proper c) (hlow : 2 ^ (-20 : Int) ≤ e)
    (hpasses : c.withinTolerance tolerance = true) :
    r ≤ e * (1 + 2 ^ (-50 : Int)) * (c.denominator : Rat) ^ 2 := by
  have hk : (1 : Rat) ≤ c.denominator := by exact_mod_cast h.denominator_pos
  have he : (0 : Rat) < e := lt_of_lt_of_le (by positivity) hlow
  have hsquare : 0 ≤ e * (c.denominator : Rat) ^ 2 := by positivity
  rcases lt_or_ge (e * (c.denominator : Rat) ^ 2) 1 with hsmall | hlarge
  · have hfirst : e * c.denominator ≤ e * (c.denominator : Rat) ^ 2 :=
      mul_le_mul_of_nonneg_left (le_self_pow₀ hk two_ne_zero) he.le
    obtain ⟨p, hp, hplow, hple⟩ :=
      exists_product_le htolerance hlow h.denominator_pos (by linarith)
    have hsecond : p * c.denominator ≤ e * (c.denominator : Rat) ^ 2 * (1 + 2 ^ (-53 : Int)) := by
      calc p * c.denominator
          ≤ e * c.denominator * (1 + 2 ^ (-53 : Int)) * c.denominator :=
            mul_le_mul_of_nonneg_right hple (zero_le_one.trans hk)
        _ = e * (c.denominator : Rat) ^ 2 * (1 + 2 ^ (-53 : Int)) := by ring
    have hsize : e * (c.denominator : Rat) ^ 2 * (1 + 2 ^ (-53 : Int)) ≤ 2 := by
      norm_num
      linarith
    obtain ⟨q, hq, -, hqle⟩ := exists_product_le hp hplow h.denominator_pos (hsecond.trans hsize)
    calc r ≤ q := (le_iff hremainder hq).1 hpasses
      _ ≤ p * c.denominator * (1 + 2 ^ (-53 : Int)) := hqle
      _ ≤ e * (c.denominator : Rat) ^ 2 * (1 + 2 ^ (-53 : Int)) * (1 + 2 ^ (-53 : Int)) :=
          mul_le_mul_of_nonneg_right hsecond (by positivity)
      _ = e * (c.denominator : Rat) ^ 2 * ((1 + 2 ^ (-53 : Int)) * (1 + 2 ^ (-53 : Int))) :=
          mul_assoc _ _ _
      _ ≤ e * (c.denominator : Rat) ^ 2 * (1 + 2 ^ (-50 : Int)) :=
          mul_le_mul_of_nonneg_left (by norm_num) hsquare
      _ = e * (1 + 2 ^ (-50 : Int)) * (c.denominator : Rat) ^ 2 := by ring
  · -- what is left over is never more than one
    calc r ≤ e * (c.denominator : Rat) ^ 2 := (h.remainder_bounds hremainder).2.trans hlarge
      _ ≤ e * (c.denominator : Rat) ^ 2 * (1 + 2 ^ (-50 : Int)) :=
          le_mul_of_one_le_right hsquare (by norm_num)
      _ = e * (1 + 2 ^ (-50 : Int)) * (c.denominator : Rat) ^ 2 := by ring

end

end Convergent

end MixedNumbers
