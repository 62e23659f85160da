import MixedNumbers.Binary64.Arithmetic
import MixedNumbers.Proofs.Rounding

/-!
# The values of binary64 operations

An operation on finite numbers is the operation on their rational values, rounded once; what
is said of the values here is all that a proof about an expansion needs to know of the
numbers. A finite number is rounded to itself, and `toRat?_floor` says that its floor is
exact.
-/

namespace MixedNumbers.Binary64

variable {x y : Binary64} {v w : Rat}

/-- A number with a value is finite. -/
theorem isFinite_of_toRat? (h : x.toRat? = some v) : x.isFinite = true :=
  (isFinite_iff x).2 ⟨v, h⟩

/-- The parts of a number with a value. -/
theorem exists_parts (h : x.toRat? = some v) :
    ∃ negative m e, ∃ hcanonical : Canonical m e,
      x = .finite negative m e hcanonical ∧ scaled negative m e = v := by
  cases x with
  | nan => cases h
  | infinity negative => cases h
  | finite negative m e hcanonical =>
      exact ⟨negative, m, e, hcanonical, rfl, Option.some.inj h⟩

/-- The value of a number is an integer times a power of two. -/
theorem scaled_eq_intCast_mul (negative : Bool) (m : Nat) (e : Int) :
    scaled negative m e = ((if negative then -(m : Int) else m : Int) : Rat) * 2 ^ e := by
  cases negative with
  | false => simp [scaled]
  | true => simp [scaled]

/-- A value is an integer of at most 53 binary digits times a power of two that is not below the
least one. -/
theorem exists_significand (h : x.toRat? = some v) :
    ∃ n e : Int, |n| < 2 ^ 53 ∧ -1074 ≤ e ∧ (n : Rat) * 2 ^ e = v := by
  obtain ⟨negative, m, e, hcanonical, -, rfl⟩ := exists_parts h
  have hdigits := hcanonical.1
  refine ⟨if negative then -(m : Int) else m, e, ?_, hcanonical.2.1,
    (scaled_eq_intCast_mul negative m e).symm⟩
  rw [abs_lt]
  cases negative <;> constructor <;> simp <;> omega

/-- A value is rounded to itself. -/
theorem rounded_of_toRat? (h : x.toRat? = some v) : rounded v = v := by
  obtain ⟨n, e, hn, he, rfl⟩ := exists_significand h
  exact rounded_of_digits hn he

/-- The magnitude of a value is below two to the 1024. -/
theorem abs_lt_of_toRat? (h : x.toRat? = some v) : |v| < 2 ^ (1024 : Int) := by
  obtain ⟨negative, m, e, hcanonical, -, rfl⟩ := exists_parts h
  rw [abs_scaled]
  exact mul_zpow_lt (n := 971) hcanonical.1 hcanonical.2.2.1

/-- The value of one. -/
theorem toRat?_one : one.toRat? = some 1 := by
  decide +kernel

/-- One is rounded to itself. -/
theorem rounded_one : rounded 1 = 1 :=
  rounded_of_toRat? toRat?_one

/-- A sum is the rounded sum of the values. -/
theorem add_eq_ofRat (hx : x.toRat? = some v) (hy : y.toRat? = some w) :
    ∃ zeroNegative, x.add y = ofRat (v + w) zeroNegative := by
  obtain ⟨s, m, e, hm, rfl, rfl⟩ := exists_parts hx
  obtain ⟨t, n, f, hn, rfl, rfl⟩ := exists_parts hy
  exact ⟨s && t, rfl⟩

/-- A difference is the rounded difference of the values. -/
theorem sub_eq_ofRat (hx : x.toRat? = some v) (hy : y.toRat? = some w) :
    ∃ zeroNegative, x.sub y = ofRat (v - w) zeroNegative := by
  obtain ⟨s, m, e, hm, rfl, rfl⟩ := exists_parts hx
  obtain ⟨t, n, f, hn, rfl, rfl⟩ := exists_parts hy
  have hneg : scaled (!t) n f = -scaled t n f := by
    cases t <;> simp [scaled]
  refine ⟨s && !t, ?_⟩
  show ofRat (scaled s m e + scaled (!t) n f) _ = _
  rw [hneg, ← sub_eq_add_neg]

/-- Finite numbers are compared by their values. -/
theorem le_iff (hx : x.toRat? = some v) (hy : y.toRat? = some w) : x.le y = true ↔ v ≤ w := by
  obtain ⟨s, m, e, hm, rfl, rfl⟩ := exists_parts hx
  obtain ⟨t, n, f, hn, rfl, rfl⟩ := exists_parts hy
  exact decide_eq_true_iff

/-- A value is zero exactly when there are no digits. -/
theorem scaled_eq_zero_iff (negative : Bool) (m : Nat) (e : Int) :
    scaled negative m e = 0 ↔ m = 0 := by
  have hpower : (2 : Rat) ^ e ≠ 0 := by positivity
  rw [← abs_eq_zero, abs_scaled, mul_eq_zero_iff_right hpower, Nat.cast_eq_zero]

/-- A number is finite and greater than zero exactly when its value is. -/
theorem isPositiveFinite_iff (x : Binary64) :
    x.isPositiveFinite = true ↔ ∃ q, x.toRat? = some q ∧ 0 < q := by
  cases x with
  | nan => simp [isPositiveFinite, toRat?]
  | infinity negative => simp [isPositiveFinite, toRat?]
  | finite negative m e hcanonical =>
      have hpower : (0 : Rat) < 2 ^ e := by positivity
      cases negative with
      | false => simp [isPositiveFinite, toRat?, scaled, hpower, Nat.pos_iff_ne_zero]
      | true =>
          have hnonneg : (0 : Rat) ≤ (m : Rat) * 2 ^ e := by positivity
          simpa [isPositiveFinite, toRat?, scaled] using hnonneg

/-- A product is the rounded product of the values. -/
theorem mul_eq_ofRat (hx : x.toRat? = some v) (hy : y.toRat? = some w) :
    ∃ zeroNegative, x.mul y = ofRat (v * w) zeroNegative := by
  obtain ⟨s, m, e, hm, rfl, rfl⟩ := exists_parts hx
  obtain ⟨t, n, f, hn, rfl, rfl⟩ := exists_parts hy
  exact ⟨s != t, rfl⟩

/-- A quotient by a number other than zero is the rounded quotient of the values. -/
theorem div_eq_ofRat (hx : x.toRat? = some v) (hy : y.toRat? = some w) (hw : w ≠ 0) :
    ∃ zeroNegative, x.div y = ofRat (v / w) zeroNegative := by
  obtain ⟨s, m, e, hm, rfl, rfl⟩ := exists_parts hx
  obtain ⟨t, n, f, hn, rfl, rfl⟩ := exists_parts hy
  rw [Ne, scaled_eq_zero_iff] at hw
  exact ⟨s != t, if_neg hw⟩

/-- A quotient by zero is not finite. -/
theorem isFinite_div_zero (hx : x.toRat? = some v) (hy : y.toRat? = some 0) :
    (x.div y).isFinite = false := by
  obtain ⟨s, m, e, hm, rfl, rfl⟩ := exists_parts hx
  obtain ⟨t, n, f, hn, rfl, hzero⟩ := exists_parts hy
  rw [scaled_eq_zero_iff] at hzero
  show (if n = 0 then _ else _ : Binary64).isFinite = false
  rw [if_pos hzero]
  split <;> rfl

/-- An integer times a power of two that is not below one is its own floor. -/
theorem floor_mul_zpow (n : Int) {e : Int} (he : 0 ≤ e) :
    (⌊(n : Rat) * 2 ^ e⌋ : Rat) = n * 2 ^ e := by
  obtain ⟨k, rfl⟩ := Int.eq_ofNat_of_zero_le he
  rw [zpow_natCast]
  exact_mod_cast congrArg (Int.cast : Int → Rat) (Int.floor_intCast (n * 2 ^ k))

/-- A value is an integer, or less than two to the 52 in magnitude. -/
theorem floor_eq_or_abs_lt (h : x.toRat? = some v) :
    (⌊v⌋ : Rat) = v ∨ |v| < 2 ^ 52 := by
  obtain ⟨negative, m, e, hcanonical, -, rfl⟩ := exists_parts h
  by_cases he : 0 ≤ e
  · left
    rw [scaled_eq_intCast_mul]
    exact floor_mul_zpow _ he
  · right
    rw [abs_scaled]
    have hlt := mul_zpow_lt (e := e) (n := -1) hcanonical.1 (by omega)
    norm_num at hlt ⊢
    exact hlt

/-- The floor of a value is a number of its own. -/
theorem rounded_floor (h : x.toRat? = some v) :
    rounded (⌊v⌋ : Rat) = ⌊v⌋ ∧ |(⌊v⌋ : Rat)| < 2 ^ (1024 : Int) := by
  rcases floor_eq_or_abs_lt h with hwhole | hsmall
  · rw [hwhole]
    exact ⟨rounded_of_toRat? h, abs_lt_of_toRat? h⟩
  · obtain ⟨hlow, hhigh⟩ := abs_lt.1 hsmall
    have hfloor_low : -(2 ^ 52 : Int) ≤ ⌊v⌋ := Int.le_floor.2 (by push_cast; exact hlow.le)
    have hfloor_high : ⌊v⌋ < (2 ^ 52 : Int) := Int.floor_lt.2 (by push_cast; exact hhigh)
    have hdigits : |⌊v⌋| < 2 ^ 53 := by
      rw [abs_lt]
      constructor <;> omega
    constructor
    · have hround := rounded_of_digits (e := 0) hdigits (by omega)
      rwa [zpow_zero, mul_one] at hround
    · have hcast : |(⌊v⌋ : Rat)| < 2 ^ (53 : Int) := by exact_mod_cast hdigits
      exact hcast.trans (zpow_lt_zpow_right₀ one_lt_two (by omega))

/-- The floor of a number has the greatest integer that is not above the value. -/
theorem toRat?_floor (h : x.toRat? = some v) : x.floor.toRat? = some (⌊v⌋ : Rat) := by
  obtain ⟨hround, hlt⟩ := rounded_floor h
  obtain ⟨negative, m, e, hcanonical, rfl, rfl⟩ := exists_parts h
  rw [← hround] at hlt
  exact (toRat?_ofRat hlt negative).trans (congrArg some hround)

/-- What the floor leaves over of some units that are not above one is a number of such units. -/
theorem sub_floor_eq_units {n e : Int} (he : e ≤ 0) (hvalue : (n : Rat) * 2 ^ e = v) :
    v - ⌊v⌋ = ((n - ⌊v⌋ * 2 ^ (0 - e).toNat : Int) : Rat) * 2 ^ e := by
  have hone := two_zpow_eq_mul he
  rw [zpow_zero] at hone
  push_cast at hone ⊢
  rw [sub_mul, hvalue, mul_assoc, ← hone, mul_one]

/-- What the floor leaves over is less than two to the 53 units of the value, unless the value lies
between minus one half and zero. -/
theorem sub_floor_lt_units {n e : Int} (hn : |n| < 2 ^ 53) (hvalue : (n : Rat) * 2 ^ e = v)
    (hv : 0 ≤ v ∨ v ≤ -1 / 2) : v - ⌊v⌋ < 2 ^ (53 : Int) * 2 ^ e := by
  have hpower : (0 : Rat) < 2 ^ e := by positivity
  rcases hv with hv | hv
  · have hfloor : (0 : Rat) ≤ ⌊v⌋ := by exact_mod_cast Int.floor_nonneg.2 hv
    have hsize : (n : Rat) < 2 ^ (53 : Int) := by exact_mod_cast (abs_lt.1 hn).2
    have hbound := mul_lt_mul_of_pos_right hsize hpower
    linarith
  · -- the unit of such a value is not below two to the -53, and less than one is left over
    have hsize : -(2 : Rat) ^ (53 : Int) < n := by exact_mod_cast (abs_lt.1 hn).1
    have hbound := mul_lt_mul_of_pos_right hsize hpower
    rw [hvalue, neg_mul, ← zpow_add₀ two_ne_zero] at hbound
    have hhalf : (2 : Rat) ^ (-1 : Int) < 2 ^ (53 + e) := by
      norm_num at hv ⊢
      linarith
    have hunit := (zpow_lt_zpow_iff_right₀ one_lt_two).1 hhalf
    have hone : (1 : Rat) ≤ 2 ^ (53 + e) := one_le_zpow₀ one_le_two (by omega)
    have hfloor := Int.lt_floor_add_one v
    rw [← zpow_add₀ two_ne_zero]
    linarith

/-- What the floor leaves over of a value is not changed by rounding, unless the value lies between
minus one half and zero. -/
theorem rounded_sub_floor (h : x.toRat? = some v) (hv : 0 ≤ v ∨ v ≤ -1 / 2) :
    rounded (v - ⌊v⌋) = v - ⌊v⌋ := by
  obtain ⟨n, e, hn, he, hvalue⟩ := exists_significand h
  by_cases hwhole : 0 ≤ e
  · rw [← hvalue, floor_mul_zpow n hwhole, sub_self, rounded_zero]
  · have hpower : (0 : Rat) < 2 ^ e := by positivity
    have hlow : 0 ≤ v - ⌊v⌋ := sub_nonneg.2 (Int.floor_le v)
    have hlt := sub_floor_lt_units hn hvalue hv
    rw [sub_floor_eq_units (by omega) hvalue] at hlow hlt ⊢
    have hnonneg := nonneg_of_mul_nonneg_left hlow hpower
    refine rounded_of_digits (abs_lt.2 ⟨?_, ?_⟩) he
    · exact lt_of_lt_of_le (by norm_num) (Int.cast_nonneg_iff.1 hnonneg)
    · exact_mod_cast lt_of_mul_lt_mul_right hlt hpower.le

/-- What the floor leaves over of a value that is not below one is nothing, or at least two to
the -52. -/
theorem sub_floor_eq_zero_or_le (h : x.toRat? = some v) (hv : 1 ≤ v) :
    v - ⌊v⌋ = 0 ∨ 2 ^ (-52 : Int) ≤ v - ⌊v⌋ := by
  obtain ⟨n, e, hn, -, hvalue⟩ := exists_significand h
  by_cases hwhole : 0 ≤ e
  · left
    rw [← hvalue, floor_mul_zpow n hwhole, sub_self]
  · have hpower : (0 : Rat) < 2 ^ e := by positivity
    have hunit : -52 ≤ e := by
      have hsize : (n : Rat) < 2 ^ (53 : Int) := by exact_mod_cast (abs_lt.1 hn).2
      have hbound := mul_lt_mul_of_pos_right hsize hpower
      rw [hvalue, ← zpow_add₀ two_ne_zero] at hbound
      have hexponent := (one_lt_zpow_iff_right₀ one_lt_two).1 (hv.trans_lt hbound)
      omega
    have hlow : 0 ≤ v - ⌊v⌋ := sub_nonneg.2 (Int.floor_le v)
    rw [sub_floor_eq_units (by omega) hvalue] at hlow ⊢
    have hunits := Int.cast_nonneg_iff.1 (nonneg_of_mul_nonneg_left hlow hpower)
    rcases hunits.eq_or_lt with hzero | hsome
    · left
      rw [← hzero, Int.cast_zero, zero_mul]
    · right
      exact (zpow_le_zpow_right₀ one_le_two hunit).trans
        (le_mul_of_one_le_left hpower.le (by exact_mod_cast hsome))

/-- A number whose value is an integer is cut off to it. -/
theorem truncate?_of_toRat? {n : Int} (h : x.toRat? = some (n : Rat)) : x.truncate? = some n := by
  obtain ⟨negative, m, e, hcanonical, rfl, hvalue⟩ := exists_parts h
  show some ((scaled negative m e).num.tdiv (scaled negative m e).den) = some n
  rw [hvalue, Rat.num_intCast, Rat.den_intCast, Nat.cast_one, Int.tdiv_one]

end MixedNumbers.Binary64
