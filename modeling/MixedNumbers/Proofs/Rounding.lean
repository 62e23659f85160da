import Mathlib.Algebra.Order.Field.Power
import Mathlib.Data.Int.Log
import Mathlib.Data.Rat.Floor
import Mathlib.Tactic.Linarith
import Mathlib.Tactic.Positivity
import MixedNumbers.Binary64.Rounding

/-!
# Rounding as a function on rationals

`rounded q` is the rational on which rounding to binary64 settles when the size of exponents
is ignored: the nearest multiple of the unit around `q`. It is monotone and odd, and it keeps
every number of at most 53 binary digits whose exponent is not below the least one.
`ofRat_cases` is what ties it to binary64: rounding `q` gives a finite number of value
`rounded q` when that is below two to the 1024 in magnitude, and an infinity otherwise.
-/

namespace MixedNumbers

/-! ## Rounding to an integer -/

/-- The rounded value is at most one half away. -/
theorem abs_roundHalfEven_sub_le (q : Rat) : |(roundHalfEven q : Rat) - q| ≤ 1 / 2 := by
  have hbelow : ((q.floor : Int) : Rat) ≤ q := Int.floor_le q
  have habove : q < ((q.floor : Int) : Rat) + 1 := Int.lt_floor_add_one q
  rw [abs_le]
  unfold roundHalfEven
  dsimp only
  split
  · constructor <;> linarith
  · split
    · push_cast
      constructor <;> linarith
    · split
      · constructor <;> linarith
      · push_cast
        constructor <;> linarith

/-- Rounding to an integer is monotone. -/
theorem roundHalfEven_mono {p q : Rat} (h : p ≤ q) : roundHalfEven p ≤ roundHalfEven q := by
  by_contra hlt
  have hp := abs_le.1 (abs_roundHalfEven_sub_le p)
  have hq := abs_le.1 (abs_roundHalfEven_sub_le q)
  have hstep : (roundHalfEven q : Rat) + 1 ≤ roundHalfEven p := by
    exact_mod_cast not_le.1 hlt
  -- rounded values one apart leave no room between the two numbers
  obtain rfl : p = q := by linarith
  exact hlt le_rfl

/-- An integer that is not above a number is not above the rounded value. -/
theorem le_roundHalfEven {n : Int} {q : Rat} (h : (n : Rat) ≤ q) : n ≤ roundHalfEven q := by
  have hround := roundHalfEven_mono h
  rwa [roundHalfEven_intCast] at hround

/-- An integer that is not below a number is not below the rounded value. -/
theorem roundHalfEven_le {n : Int} {q : Rat} (h : q ≤ (n : Rat)) : roundHalfEven q ≤ n := by
  have hround := roundHalfEven_mono h
  rwa [roundHalfEven_intCast] at hround

/-- Rounding to an integer does not depend on the sign. -/
theorem roundHalfEven_neg (q : Rat) : roundHalfEven (-q) = -roundHalfEven q := by
  have hbelow : ((q.floor : Int) : Rat) ≤ q := Int.floor_le q
  have habove : q < ((q.floor : Int) : Rat) + 1 := Int.lt_floor_add_one q
  by_cases hwhole : ((q.floor : Int) : Rat) = q
  · rw [← hwhole, ← Int.cast_neg, roundHalfEven_intCast, roundHalfEven_intCast]
  · have hstrict : ((q.floor : Int) : Rat) < q := lt_of_le_of_ne hbelow hwhole
    have hfloor : (-q).floor = -q.floor - 1 := by
      show ⌊-q⌋ = _
      rw [Int.floor_eq_iff]
      push_cast
      constructor <;> linarith
    unfold roundHalfEven
    simp only [hfloor]
    push_cast
    split_ifs <;> first | omega | (exfalso; linarith)

namespace Binary64

/-! ## Units -/

/-- The integer logarithm is the exponent of the power of two below a number. -/
theorem log_eq_of_bounds {q : Rat} {n : Int} (hlow : (2 : Rat) ^ n ≤ q)
    (hhigh : q < (2 : Rat) ^ (n + 1)) : Int.log 2 q = n := by
  have hq : 0 < q := lt_of_lt_of_le (by positivity) hlow
  have hle : n ≤ Int.log 2 q := (Int.zpow_le_iff_le_log one_lt_two hq).1 (by exact_mod_cast hlow)
  have hlt : Int.log 2 q < n + 1 :=
    (Int.lt_zpow_iff_log_lt one_lt_two hq).1 (by exact_mod_cast hhigh)
  omega

/-- The power of two of the binary logarithm is not above a natural number. -/
theorem zpow_log2_le {n : Nat} (h : n ≠ 0) : (2 : Rat) ^ (n.log2 : Int) ≤ n := by
  rw [zpow_natCast]
  exact_mod_cast Nat.log2_self_le h

/-- The next power of two is above a natural number. -/
theorem lt_zpow_log2 (n : Nat) : (n : Rat) < (2 : Rat) ^ ((n.log2 : Int) + 1) := by
  exact_mod_cast Nat.lt_log2_self

/-- The binary logarithms of two natural numbers tell that of their quotient, up to one. -/
theorem zpow_le_div_and_lt {n d : Nat} (hn : n ≠ 0) (hd : d ≠ 0) :
    (2 : Rat) ^ ((n.log2 : Int) - d.log2 - 1) ≤ (n : Rat) / d ∧
      (n : Rat) / d < (2 : Rat) ^ ((n.log2 : Int) - d.log2 + 1) := by
  have hpos : (0 : Rat) < d := by exact_mod_cast Nat.pos_of_ne_zero hd
  constructor
  · rw [le_div_iff₀ hpos]
    calc (2 : Rat) ^ ((n.log2 : Int) - d.log2 - 1) * d
        ≤ (2 : Rat) ^ ((n.log2 : Int) - d.log2 - 1) * (2 : Rat) ^ ((d.log2 : Int) + 1) :=
          mul_le_mul_of_nonneg_left (lt_zpow_log2 d).le (by positivity)
      _ = (2 : Rat) ^ (n.log2 : Int) := by
          rw [← zpow_add₀ two_ne_zero]
          congr 1
          omega
      _ ≤ n := zpow_log2_le hn
  · rw [div_lt_iff₀ hpos]
    calc (n : Rat) < (2 : Rat) ^ ((n.log2 : Int) + 1) := lt_zpow_log2 n
      _ = (2 : Rat) ^ ((n.log2 : Int) - d.log2 + 1) * (2 : Rat) ^ (d.log2 : Int) := by
          rw [← zpow_add₀ two_ne_zero]
          congr 1
          omega
      _ ≤ (2 : Rat) ^ ((n.log2 : Int) - d.log2 + 1) * d :=
          mul_le_mul_of_nonneg_left (zpow_log2_le hd) (by positivity)

/-- The exponent of the leading digit is the integer logarithm. -/
theorem leadingExponent_eq_log {q : Rat} (hq : 0 < q) : leadingExponent q = Int.log 2 q := by
  have hvalue : (q.num.natAbs : Rat) / q.den = q := by
    have habs : ((q.num.natAbs : Int) : Rat) = q.num := by
      rw [Int.natAbs_of_nonneg (Rat.num_pos.2 hq).le]
    rw [← Int.cast_natCast, habs, Rat.num_div_den]
  obtain ⟨hlow, hhigh⟩ :=
    zpow_le_div_and_lt (Int.natAbs_ne_zero.2 (Rat.num_pos.2 hq).ne') q.den_nz
  rw [hvalue] at hlow hhigh
  unfold leadingExponent
  dsimp only
  split
  · rename_i hle
    exact (log_eq_of_bounds hle hhigh).symm
  · rename_i hgt
    refine (log_eq_of_bounds hlow ?_).symm
    rw [sub_add_cancel]
    exact not_le.1 hgt

/-- The exponent of the unit is never below the least exponent. -/
theorem least_le_unitExponent (q : Rat) : -1074 ≤ unitExponent q :=
  le_max_left _ _

/-- A number has fewer than two to the 53 units. -/
theorem lt_zpow_unitExponent {q : Rat} (hq : 0 < q) : q < (2 : Rat) ^ (unitExponent q + 53) := by
  have hlog : q < (2 : Rat) ^ (Int.log 2 q + 1) := by
    exact_mod_cast Int.lt_zpow_succ_log_self one_lt_two q
  refine lt_of_lt_of_le hlog (zpow_le_zpow_right₀ one_le_two ?_)
  rw [unitExponent, leadingExponent_eq_log hq]
  omega

/-- A number whose unit is not the least one has at least two to the 52 units. -/
theorem zpow_unitExponent_le {q : Rat} (hq : 0 < q) (hunit : unitExponent q ≠ -1074) :
    (2 : Rat) ^ (unitExponent q + 52) ≤ q := by
  have hlog : (2 : Rat) ^ Int.log 2 q ≤ q := by
    exact_mod_cast Int.zpow_log_le_self one_lt_two hq
  refine le_trans (zpow_le_zpow_right₀ one_le_two ?_) hlog
  rw [unitExponent, leadingExponent_eq_log hq] at hunit ⊢
  omega

/-- A number below two to the 53 units of some size has a unit that is not larger. -/
theorem unitExponent_le {q : Rat} {n : Int} (hq : 0 < q) (hn : -1074 ≤ n)
    (hlt : q < (2 : Rat) ^ (n + 53)) : unitExponent q ≤ n := by
  have hlog : Int.log 2 q < n + 53 :=
    (Int.lt_zpow_iff_log_lt one_lt_two hq).1 (by exact_mod_cast hlt)
  rw [unitExponent, leadingExponent_eq_log hq]
  omega

/-- A larger number has no smaller unit. -/
theorem unitExponent_mono {p q : Rat} (hp : 0 < p) (h : p ≤ q) :
    unitExponent p ≤ unitExponent q :=
  unitExponent_le hp (least_le_unitExponent q)
    (lt_of_le_of_lt h (lt_zpow_unitExponent (lt_of_lt_of_le hp h)))

/-! ## The rounded rational -/

/-- The nearest multiple of the unit around a rational, ties going to the even multiple. -/
def rounded (q : Rat) : Rat :=
  (roundHalfEven (q / 2 ^ unitExponent |q|) : Rat) * 2 ^ unitExponent |q|

/-- Rounding does not depend on the sign. -/
theorem rounded_neg (q : Rat) : rounded (-q) = -rounded q := by
  rw [rounded, abs_neg, neg_div, roundHalfEven_neg, Int.cast_neg, neg_mul, rounded]

/-- Zero is rounded to zero. -/
@[simp]
theorem rounded_zero : rounded 0 = 0 := by
  have hzero : roundHalfEven 0 = 0 := roundHalfEven_intCast 0
  rw [rounded, zero_div, hzero, Int.cast_zero, zero_mul]

/-- A multiple of the unit is not changed. -/
theorem rounded_eq_self {q : Rat} {n : Int} (h : q = n * 2 ^ unitExponent |q|) :
    rounded q = q := by
  have hunits : q / 2 ^ unitExponent |q| = n := by
    rw [div_eq_iff (by positivity)]
    exact h
  rw [rounded, hunits, roundHalfEven_intCast, ← h]

/-- A larger power of two is a multiple of a smaller one. -/
theorem two_zpow_eq_mul {n unit : Int} (h : unit ≤ n) :
    (2 : Rat) ^ n = ((2 ^ (n - unit).toNat : Int) : Rat) * 2 ^ unit := by
  have hsplit : n = ((n - unit).toNat : Int) + unit := by omega
  conv_lhs => rw [hsplit, zpow_add₀ two_ne_zero, zpow_natCast]
  push_cast
  rfl

/-- A number of at most 53 binary digits is not changed, unless its exponent is below the least
one. -/
theorem rounded_of_digits {m e : Int} (hm : |m| < 2 ^ 53) (he : -1074 ≤ e) :
    rounded ((m : Rat) * 2 ^ e) = (m : Rat) * 2 ^ e := by
  by_cases hzero : m = 0
  · rw [hzero, Int.cast_zero, zero_mul, rounded_zero]
  · have hpower : (0 : Rat) < 2 ^ e := by positivity
    have habs : |(m : Rat) * 2 ^ e| = (|m| : Int) * 2 ^ e := by
      rw [abs_mul, abs_of_pos hpower, Int.cast_abs]
    have hpos : 0 < |(m : Rat) * 2 ^ e| := by
      rw [habs]
      exact mul_pos (by exact_mod_cast abs_pos.2 hzero) hpower
    have hlt : |(m : Rat) * 2 ^ e| < 2 ^ (e + 53) := by
      rw [habs, add_comm, zpow_add₀ two_ne_zero]
      exact mul_lt_mul_of_pos_right (by exact_mod_cast hm) hpower
    have hunit := unitExponent_le hpos he hlt
    refine rounded_eq_self (n := m * 2 ^ (e - unitExponent |(m : Rat) * 2 ^ e|).toNat) ?_
    conv_lhs => rw [two_zpow_eq_mul hunit]
    push_cast
    ring

/-- A power of two that is not below the least one is not changed. -/
theorem rounded_zpow {n : Int} (h : -1074 ≤ n) : rounded (2 ^ n) = 2 ^ n := by
  have hdigits := rounded_of_digits (m := 1) (by norm_num) h
  rwa [Int.cast_one, one_mul] at hdigits

/-- A power of two that is not above a number is not above the rounded number. -/
theorem zpow_le_rounded {q : Rat} {n : Int} (hq : 0 < q) (hunit : unitExponent q ≤ n)
    (h : (2 : Rat) ^ n ≤ q) : (2 : Rat) ^ n ≤ rounded q := by
  rw [rounded, abs_of_pos hq]
  have hpower : (0 : Rat) < 2 ^ unitExponent q := by positivity
  have hunits : ((2 ^ (n - unitExponent q).toNat : Int) : Rat) ≤ q / 2 ^ unitExponent q := by
    rw [le_div_iff₀ hpower, ← two_zpow_eq_mul hunit]
    exact h
  rw [two_zpow_eq_mul hunit]
  exact mul_le_mul_of_nonneg_right (by exact_mod_cast le_roundHalfEven hunits) hpower.le

/-- A power of two that is not below a number is not below the rounded number. -/
theorem rounded_le_zpow {q : Rat} {n : Int} (hq : 0 < q) (hunit : unitExponent q ≤ n)
    (h : q ≤ (2 : Rat) ^ n) : rounded q ≤ (2 : Rat) ^ n := by
  rw [rounded, abs_of_pos hq]
  have hpower : (0 : Rat) < 2 ^ unitExponent q := by positivity
  have hunits : q / 2 ^ unitExponent q ≤ ((2 ^ (n - unitExponent q).toNat : Int) : Rat) := by
    rw [div_le_iff₀ hpower, ← two_zpow_eq_mul hunit]
    exact h
  rw [two_zpow_eq_mul hunit]
  exact mul_le_mul_of_nonneg_right (by exact_mod_cast roundHalfEven_le hunits) hpower.le

/-- Rounding is monotone on positive numbers. -/
theorem rounded_mono_of_pos {p q : Rat} (hp : 0 < p) (h : p ≤ q) : rounded p ≤ rounded q := by
  have hq : 0 < q := lt_of_lt_of_le hp h
  by_cases hunit : unitExponent p = unitExponent q
  · have hpower : (0 : Rat) < 2 ^ unitExponent q := by positivity
    have hround := roundHalfEven_mono (div_le_div_of_nonneg_right h hpower.le)
    rw [rounded, rounded, abs_of_pos hp, abs_of_pos hq, hunit]
    exact mul_le_mul_of_nonneg_right (by exact_mod_cast hround) hpower.le
  · -- the power of two at which the larger unit begins lies between the rounded numbers
    have hlt : unitExponent p < unitExponent q :=
      lt_of_le_of_ne (unitExponent_mono hp h) hunit
    have hleast := least_le_unitExponent p
    have hbelow : p < (2 : Rat) ^ (unitExponent q + 52) := by
      refine lt_of_lt_of_le (lt_zpow_unitExponent hp) (zpow_le_zpow_right₀ one_le_two ?_)
      omega
    have habove : (2 : Rat) ^ (unitExponent q + 52) ≤ q := zpow_unitExponent_le hq (by omega)
    exact (rounded_le_zpow hp (by omega) hbelow.le).trans (zpow_le_rounded hq (by omega) habove)

/-- A number that is not negative is rounded to one that is not negative. -/
theorem rounded_nonneg {q : Rat} (hq : 0 ≤ q) : 0 ≤ rounded q := by
  have hunit : (0 : Rat) ≤ 2 ^ unitExponent |q| := by positivity
  have hround : 0 ≤ roundHalfEven (q / 2 ^ unitExponent |q|) :=
    le_roundHalfEven (by exact_mod_cast div_nonneg hq hunit)
  exact mul_nonneg (by exact_mod_cast hround) hunit

/-- Rounding is monotone. -/
theorem rounded_mono {p q : Rat} (h : p ≤ q) : rounded p ≤ rounded q := by
  rcases lt_trichotomy p 0 with hp | rfl | hp
  · rcases lt_or_ge q 0 with hq | hq
    · have hopposite := rounded_mono_of_pos (neg_pos.2 hq) (neg_le_neg h)
      rw [rounded_neg, rounded_neg] at hopposite
      exact neg_le_neg_iff.1 hopposite
    · have hopposite := rounded_nonneg (neg_nonneg.2 hp.le)
      rw [rounded_neg] at hopposite
      exact (neg_nonneg.1 hopposite).trans (rounded_nonneg hq)
  · rw [rounded_zero]
    exact rounded_nonneg h
  · exact rounded_mono_of_pos hp h

/-- A lower bound that is rounded to itself is one of the rounded number. -/
theorem le_rounded_of_eq {p q : Rat} (hp : rounded p = p) (h : p ≤ q) : p ≤ rounded q := by
  have hmono := rounded_mono h
  rwa [hp] at hmono

/-- An upper bound that is rounded to itself is one of the rounded number. -/
theorem rounded_le_of_eq {p q : Rat} (hq : rounded q = q) (h : p ≤ q) : rounded p ≤ q := by
  have hmono := rounded_mono h
  rwa [hq] at hmono

/-- The rounded rational is at most half a unit away. -/
theorem abs_rounded_sub_le_unit (q : Rat) : |rounded q - q| ≤ 2 ^ unitExponent |q| / 2 := by
  have hpower : (0 : Rat) < 2 ^ unitExponent |q| := by positivity
  have hround := abs_roundHalfEven_sub_le (q / 2 ^ unitExponent |q|)
  have hfactor : rounded q - q =
      (roundHalfEven (q / 2 ^ unitExponent |q|) - q / 2 ^ unitExponent |q|) *
        2 ^ unitExponent |q| := by
    rw [rounded, sub_mul, div_mul_cancel₀ q hpower.ne']
  rw [hfactor, abs_mul, abs_of_pos hpower]
  calc _ ≤ 1 / 2 * (2 : Rat) ^ unitExponent |q| := mul_le_mul_of_nonneg_right hround hpower.le
    _ = 2 ^ unitExponent |q| / 2 := by ring

/-- A rational below a power of two is rounded by at most two to the -54 of this power. -/
theorem abs_rounded_sub_le_of_lt {q : Rat} {n : Int} (hn : -1021 ≤ n) (h : |q| < 2 ^ n) :
    |rounded q - q| ≤ 2 ^ (n - 54) := by
  rcases eq_or_ne q 0 with rfl | hq
  · rw [rounded_zero, sub_zero, abs_zero]
    positivity
  · have hunit : unitExponent |q| ≤ n - 53 :=
      unitExponent_le (abs_pos.2 hq) (by omega) (by rwa [sub_add_cancel])
    calc |rounded q - q| ≤ 2 ^ unitExponent |q| / 2 := abs_rounded_sub_le_unit q
      _ ≤ 2 ^ (n - 53) / 2 := by
          gcongr
          exact one_le_two
      _ = 2 ^ (n - 54) := by
          rw [div_eq_mul_inv, ← zpow_sub_one₀ two_ne_zero]
          congr 1
          omega

/-- A rational whose unit is not below the least one is rounded by at most two to the -53 of its
size. -/
theorem abs_rounded_sub_le {q : Rat} (h : (2 : Rat) ^ (-1022 : Int) ≤ |q|) :
    |rounded q - q| ≤ |q| * 2 ^ (-53 : Int) := by
  have hpos : 0 < |q| := lt_of_lt_of_le (by positivity) h
  have hunits : (2 : Rat) ^ (unitExponent |q| + 52) ≤ |q| := by
    by_cases hleast : unitExponent |q| = -1074
    · rwa [hleast]
    · exact zpow_unitExponent_le hpos hleast
  have herror := abs_rounded_sub_le_unit q
  rw [zpow_add₀ two_ne_zero] at hunits
  norm_num at hunits ⊢
  linarith

/-- A rational whose unit is not below the least one is rounded up by at most two to the -53 of its
size. -/
theorem rounded_le {q : Rat} (h : (2 : Rat) ^ (-1022 : Int) ≤ q) :
    rounded q ≤ q * (1 + 2 ^ (-53 : Int)) := by
  have hpos : 0 ≤ q := le_trans (by positivity) h
  have herror := abs_rounded_sub_le (h.trans (le_abs_self q))
  rw [abs_of_nonneg hpos, abs_le] at herror
  linarith [herror.2]

/-! ## The rounded number -/

/-- The value of a finite number of given parts, without its sign. -/
theorem abs_scaled (negative : Bool) (m : Nat) (e : Int) :
    |scaled negative m e| = (m : Rat) * 2 ^ e := by
  have hpos : (0 : Rat) ≤ (m : Rat) * 2 ^ e := by positivity
  cases negative with
  | false => exact abs_of_nonneg hpos
  | true => exact (abs_neg _).trans (abs_of_nonneg hpos)

/-- Half as many units of twice the size have the same value. -/
theorem scaled_double (negative : Bool) (m : Nat) (e : Int) :
    scaled negative m (e + 1) = scaled negative (2 * m) e := by
  have hvalue : (m : Rat) * 2 ^ (e + 1) = ((2 * m : Nat) : Rat) * 2 ^ e := by
    rw [zpow_add_one₀ two_ne_zero]
    push_cast
    ring
  cases negative with
  | false => exact hvalue
  | true => exact congrArg Neg.neg hvalue

/-- A significand of 53 binary digits and a bounded exponent bound the value. -/
theorem mul_zpow_lt {m : Nat} {e n : Int} (hm : m < 2 ^ 53) (he : e ≤ n) :
    (m : Rat) * 2 ^ e < 2 ^ (53 + n) := by
  calc (m : Rat) * 2 ^ e < 2 ^ (53 : Int) * 2 ^ e :=
        mul_lt_mul_of_pos_right (by exact_mod_cast hm) (by positivity)
    _ ≤ 2 ^ (53 : Int) * 2 ^ n :=
        mul_le_mul_of_nonneg_left (zpow_le_zpow_right₀ one_le_two he) (by positivity)
    _ = 2 ^ (53 + n) := (zpow_add₀ two_ne_zero _ _).symm

section

variable (negative : Bool) {units : Nat} {exponent : Int}

/-- Units that are too large make an infinity. -/
theorem ofUnits_of_large (hmany : 2 ^ 52 ≤ units) (hlarge : 971 < exponent) :
    (2 : Rat) ^ (1024 : Int) ≤ units * 2 ^ exponent ∧
      ofUnits negative units exponent = .infinity negative := by
  have hcanonical : ¬ Canonical units exponent := fun h ↦ absurd h.2.2.1 (by omega)
  have hhalved : ¬ Canonical (units / 2) (exponent + 1) := fun h ↦ absurd h.2.2.1 (by omega)
  refine ⟨?_, by rw [ofUnits, dif_neg hcanonical, dif_neg hhalved]⟩
  calc (2 : Rat) ^ (1024 : Int) = 2 ^ (52 : Int) * 2 ^ (972 : Int) := by
        rw [← zpow_add₀ two_ne_zero]
        rfl
    _ ≤ units * 2 ^ exponent :=
        mul_le_mul (by exact_mod_cast hmany) (zpow_le_zpow_right₀ one_le_two (by omega))
          (by positivity) (by positivity)

/-- Two to the 53 units fill one digit too many: half as many of twice the size make the number, or
an infinity when that size is too large. -/
theorem ofUnits_full (hleast : -1074 ≤ exponent) (hle : exponent ≤ 971) :
    (((2 ^ 53 : Nat) : Rat) * 2 ^ exponent < 2 ^ (1024 : Int) ∧
      (ofUnits negative (2 ^ 53) exponent).toRat? = some (scaled negative (2 ^ 53) exponent)) ∨
    ((2 : Rat) ^ (1024 : Int) ≤ ((2 ^ 53 : Nat) : Rat) * 2 ^ exponent ∧
      ofUnits negative (2 ^ 53) exponent = .infinity negative) := by
  have hcanonical : ¬ Canonical (2 ^ 53) exponent := fun h ↦ absurd h.1 (by decide)
  have hvalue : ((2 ^ 53 : Nat) : Rat) * 2 ^ exponent = 2 ^ (exponent + 53) := by
    rw [add_comm, zpow_add₀ two_ne_zero]
    norm_num
  rw [hvalue]
  by_cases hlast : exponent = 971
  · have hhalved : ¬ Canonical (2 ^ 53 / 2) (exponent + 1) := fun h ↦ absurd h.2.2.1 (by omega)
    refine Or.inr ⟨zpow_le_zpow_right₀ one_le_two (by omega), ?_⟩
    rw [ofUnits, dif_neg hcanonical, dif_neg hhalved]
  · have hhalved : Canonical (2 ^ 53 / 2) (exponent + 1) :=
      ⟨by decide, by omega, by omega, Or.inl (by decide)⟩
    refine Or.inl ⟨zpow_lt_zpow_right₀ one_lt_two (by omega), ?_⟩
    rw [ofUnits, dif_neg hcanonical, dif_pos hhalved]
    show some (scaled negative (2 ^ 53 / 2) (exponent + 1)) = _
    rw [scaled_double]
    norm_num

/-- Some units make a finite number of their value, or an infinity when two to the 1024 is not
above it. -/
theorem ofUnits_cases (hunits : units ≤ 2 ^ 53) (hleast : -1074 ≤ exponent)
    (hnormal : 2 ^ 52 ≤ units ∨ exponent = -1074) :
    ((units : Rat) * 2 ^ exponent < 2 ^ (1024 : Int) ∧
      (ofUnits negative units exponent).toRat? = some (scaled negative units exponent)) ∨
    ((2 : Rat) ^ (1024 : Int) ≤ units * 2 ^ exponent ∧
      ofUnits negative units exponent = .infinity negative) := by
  by_cases hlarge : 971 < exponent
  · exact Or.inr (ofUnits_of_large negative (hnormal.resolve_right (by omega)) hlarge)
  · rcases hunits.lt_or_eq with hfew | rfl
    · have hcanonical : Canonical units exponent := ⟨hfew, hleast, by omega, hnormal⟩
      refine Or.inl ⟨mul_zpow_lt (n := 971) hfew (by omega), ?_⟩
      rw [ofUnits, dif_pos hcanonical]
      rfl
    · exact ofUnits_full negative hleast (by omega)

end

/-- The number of units nearest to the magnitude of a rational. -/
def nearestUnits (q : Rat) : Nat :=
  (roundHalfEven (|q| / 2 ^ unitExponent |q|)).toNat

/-- Counting units, no rounding is lost. -/
theorem nearestUnits_eq (q : Rat) :
    ((nearestUnits q : Int)) = roundHalfEven (|q| / 2 ^ unitExponent |q|) := by
  refine Int.toNat_of_nonneg (le_roundHalfEven ?_)
  rw [Int.cast_zero]
  positivity

/-- There are at most two to the 53 units. -/
theorem nearestUnits_le {q : Rat} (hq : q ≠ 0) : nearestUnits q ≤ 2 ^ 53 := by
  have hpower : (0 : Rat) < 2 ^ unitExponent |q| := by positivity
  have hlt := lt_zpow_unitExponent (abs_pos.2 hq)
  rw [add_comm, zpow_add₀ two_ne_zero] at hlt
  have hunits : |q| / 2 ^ unitExponent |q| ≤ ((2 ^ 53 : Int) : Rat) := by
    rw [div_le_iff₀ hpower]
    exact_mod_cast hlt.le
  have hround := roundHalfEven_le hunits
  rw [← nearestUnits_eq] at hround
  exact_mod_cast hround

/-- There are at least two to the 52 units, unless they are the least ones. -/
theorem le_nearestUnits {q : Rat} (hq : q ≠ 0) (hunit : unitExponent |q| ≠ -1074) :
    2 ^ 52 ≤ nearestUnits q := by
  have hpower : (0 : Rat) < 2 ^ unitExponent |q| := by positivity
  have hle := zpow_unitExponent_le (abs_pos.2 hq) hunit
  rw [add_comm, zpow_add₀ two_ne_zero] at hle
  have hunits : ((2 ^ 52 : Int) : Rat) ≤ |q| / 2 ^ unitExponent |q| := by
    rw [le_div_iff₀ hpower]
    exact_mod_cast hle
  have hround := le_roundHalfEven hunits
  rw [← nearestUnits_eq] at hround
  exact_mod_cast hround

/-- The rounded rational is the value of the nearest units. -/
theorem rounded_eq_scaled (q : Rat) :
    rounded q = scaled (decide (q < 0)) (nearestUnits q) (unitExponent |q|) := by
  have hmagnitude : rounded |q| = (nearestUnits q : Rat) * 2 ^ unitExponent |q| := by
    rw [rounded, abs_abs, ← nearestUnits_eq, Int.cast_natCast]
  by_cases hneg : q < 0
  · rw [decide_eq_true hneg]
    rw [abs_of_neg hneg, rounded_neg] at hmagnitude
    exact neg_eq_iff_eq_neg.1 (by rwa [abs_of_neg hneg])
  · rw [decide_eq_false hneg]
    rwa [abs_of_nonneg (not_lt.1 hneg)] at hmagnitude ⊢

/-- Rounding gives the number made of the nearest units. -/
theorem ofRat_eq_ofUnits {q : Rat} (hq : q ≠ 0) (zeroNegative : Bool) :
    ofRat q zeroNegative = ofUnits (decide (q < 0)) (nearestUnits q) (unitExponent |q|) := by
  rw [ofRat, if_neg hq, nearestUnits]
  by_cases hneg : q < 0
  · simp only [hneg, decide_true, if_true, abs_of_neg hneg]
  · simp only [hneg, decide_false, Bool.false_eq_true, if_false, abs_of_nonneg (not_lt.1 hneg)]

/-- Rounding gives a finite number whose value is the rounded rational when that is below two to
the 1024 in magnitude, and an infinity when it is not. -/
theorem ofRat_cases (q : Rat) (zeroNegative : Bool) :
    (|rounded q| < 2 ^ (1024 : Int) ∧ (ofRat q zeroNegative).toRat? = some (rounded q)) ∨
    ((2 : Rat) ^ (1024 : Int) ≤ |rounded q| ∧
      ofRat q zeroNegative = .infinity (decide (q < 0))) := by
  by_cases hzero : q = 0
  · subst hzero
    refine Or.inl ⟨?_, ?_⟩
    · rw [rounded_zero, abs_zero]
      positivity
    · rw [ofRat, if_pos rfl, rounded_zero]
      cases zeroNegative <;> simp [zero, toRat?, scaled]
  · have hnormal : 2 ^ 52 ≤ nearestUnits q ∨ unitExponent |q| = -1074 :=
      or_iff_not_imp_right.2 (le_nearestUnits hzero)
    rw [ofRat_eq_ofUnits hzero, rounded_eq_scaled, abs_scaled]
    exact ofUnits_cases _ (nearestUnits_le hzero) (least_le_unitExponent _) hnormal

/-- A rational that is rounded to less than two to the 1024 has a finite nearest number. -/
theorem toRat?_ofRat {q : Rat} (h : |rounded q| < 2 ^ (1024 : Int)) (zeroNegative : Bool) :
    (ofRat q zeroNegative).toRat? = some (rounded q) := by
  rcases ofRat_cases q zeroNegative with ⟨-, hvalue⟩ | ⟨hlarge, -⟩
  · exact hvalue
  · exact absurd h (not_lt.2 hlarge)

/-- A finite nearest number has the value of the rounded rational. -/
theorem toRat?_ofRat_of_isFinite {q : Rat} {zeroNegative : Bool}
    (h : (ofRat q zeroNegative).isFinite = true) :
    (ofRat q zeroNegative).toRat? = some (rounded q) := by
  rcases ofRat_cases q zeroNegative with ⟨-, hvalue⟩ | ⟨-, hinfinity⟩
  · exact hvalue
  · rw [hinfinity] at h
    cases h

end Binary64

end MixedNumbers
