import MixedNumbers.Proofs.Arithmetic

/-!
# The number nearest to a rational

`Nearest q x r` says by distances alone to which binary64 number a rational is rounded: no finite
number is nearer, of two that are equally near it is the one with the even significand, and the
rational is not so large that an infinity stands for it. `nearest_iff` says that `ofRat` gives
this number, and that there is no other.
-/

namespace MixedNumbers

/-! ## The nearest integer -/

/-- Different integers are at least one apart, and so are not both within less than one half of a
rational. -/
theorem one_le_abs_sub_add_of_ne {m n : Int} (h : m ≠ n) (q : Rat) :
    1 ≤ |(m : Rat) - q| + |(n : Rat) - q| := by
  have hapart : (1 : Rat) ≤ |(m : Rat) - n| := by
    exact_mod_cast Int.one_le_abs (sub_ne_zero.2 h)
  have htriangle := abs_sub_le (m : Rat) q n
  rw [abs_sub_comm q] at htriangle
  exact hapart.trans htriangle

/-- No integer is nearer than the rounded one. -/
theorem abs_roundHalfEven_sub_le_abs_sub (q : Rat) (n : Int) :
    |(roundHalfEven q : Rat) - q| ≤ |(n : Rat) - q| := by
  rcases eq_or_ne n (roundHalfEven q) with rfl | hne
  · exact le_rfl
  · -- the rounded one is at most one half away, so the other one is at least that
    linarith [abs_roundHalfEven_sub_le q, one_le_abs_sub_add_of_ne hne q]

/-- A rational that is rounded by one half is rounded to an even integer. -/
theorem even_roundHalfEven {q : Rat} (h : |(roundHalfEven q : Rat) - q| = 1 / 2) :
    Even (roundHalfEven q) := by
  have hbelow : ((q.floor : Int) : Rat) ≤ q := Int.floor_le q
  have habove : q < ((q.floor : Int) : Rat) + 1 := Int.lt_floor_add_one q
  unfold roundHalfEven at h ⊢
  dsimp only at h ⊢
  split
  · rename_i hlow
    rw [if_pos hlow, abs_sub_comm, abs_of_nonneg (by linarith)] at h
    linarith
  · rename_i hlow
    rw [if_neg hlow] at h
    split
    · rename_i hhigh
      rw [if_pos hhigh, abs_of_nonneg (by push_cast; linarith)] at h
      push_cast at h
      linarith
    · split
      · rename_i heven
        exact Int.even_iff.2 heven
      · rename_i hodd
        exact Int.even_add_one.2 fun heven ↦ hodd (Int.even_iff.1 heven)

/-- Where another integer is as near as the rounded one, the rounded one is even and the other is
odd. -/
theorem even_roundHalfEven_of_tie {q : Rat} {n : Int} (hne : n ≠ roundHalfEven q)
    (htie : |(n : Rat) - q| = |(roundHalfEven q : Rat) - q|) :
    Even (roundHalfEven q) ∧ ¬ Even n := by
  have hround := abs_roundHalfEven_sub_le q
  have hapart := one_le_abs_sub_add_of_ne hne q
  rw [htie] at hapart
  have heven := even_roundHalfEven (le_antisymm hround (by linarith))
  refine ⟨heven, fun hother ↦ ?_⟩
  -- both within one half, they are less than two apart
  have hclose : |(n : Rat) - roundHalfEven q| ≤ 1 := by
    calc |(n : Rat) - roundHalfEven q| ≤ |(n : Rat) - q| + |q - roundHalfEven q| := abs_sub_le _ _ _
      _ = |(roundHalfEven q : Rat) - q| + |(roundHalfEven q : Rat) - q| := by
          rw [htie, abs_sub_comm q]
      _ ≤ 1 := by linarith
  have hstep : |n - roundHalfEven q| ≤ 1 := by exact_mod_cast hclose
  obtain ⟨k, hk⟩ := hother.sub heven
  rw [hk, abs_le] at hstep
  omega

namespace Binary64

/-! ## Nearest numbers -/

/-- The number is finite and its significand is even. -/
def HasEvenSignificand : Binary64 → Prop
  | .finite _ significand _ _ => Even significand
  | _ => False

/-- `Nearest q x r` says that the number `x` is the one to which the rational `q` is rounded, and
that `r` is its value. A rational that is half a unit or more above the greatest number has none. -/
structure Nearest (q : Rat) (x : Binary64) (r : Rat) : Prop where
  value : x.toRat? = some r
  bounded : |q| < 2 ^ (1024 : Int) - 2 ^ (970 : Int)
  le : ∀ (y : Binary64) (s : Rat), y.toRat? = some s → |r - q| ≤ |s - q|
  even : ∀ (y : Binary64) (s : Rat), y.toRat? = some s → s ≠ r → |s - q| = |r - q| →
    x.HasEvenSignificand

section

variable {x y : Binary64} {q r s v : Rat}

/-! ## Distances -/

/-- A value is a number of units of any given size, an even one if its significand is even, unless
it is below two to the 52 of them. -/
theorem exists_units_or_lt (hx : x.toRat? = some v) (unit : Int) :
    (∃ n : Int, (n : Rat) * 2 ^ unit = v ∧ (x.HasEvenSignificand → Even n)) ∨
      -1074 < unit ∧ |v| < 2 ^ (unit + 52) := by
  obtain ⟨negative, m, e, hcanonical, rfl, rfl⟩ := exists_parts hx
  rcases le_or_gt unit e with hle | hlt
  · refine Or.inl ⟨(if negative then -(m : Int) else m) * 2 ^ (e - unit).toNat, ?_, ?_⟩
    · rw [scaled_eq_intCast_mul, two_zpow_eq_mul hle]
      push_cast
      ring
    · intro heven
      have hm : Even (m : Int) := (Int.even_coe_nat m).2 heven
      cases negative with
      | false => exact hm.mul_right _
      | true => exact hm.neg.mul_right _
  · have hleast := hcanonical.2.1
    refine Or.inr ⟨by omega, ?_⟩
    rw [abs_scaled]
    exact (mul_zpow_lt hcanonical.1 le_rfl).trans_le
      (zpow_le_zpow_right₀ one_le_two (by omega))

/-- How far some units are from a rational, measured in units. -/
theorem abs_units_sub (n unit : Int) (q : Rat) :
    |(n : Rat) * 2 ^ unit - q| = |(n : Rat) - q / 2 ^ unit| * 2 ^ unit := by
  have hpower : (0 : Rat) < 2 ^ unit := by positivity
  have hfactor : (n : Rat) * 2 ^ unit - q = ((n : Rat) - q / 2 ^ unit) * 2 ^ unit := by
    rw [sub_mul, div_mul_cancel₀ q hpower.ne']
  rw [hfactor, abs_mul, abs_of_pos hpower]

/-- No number of units is nearer than the rounded rational. -/
theorem abs_rounded_sub_le_abs_units_sub (q : Rat) (n : Int) :
    |rounded q - q| ≤ |(n : Rat) * 2 ^ unitExponent |q| - q| := by
  rw [rounded, abs_units_sub, abs_units_sub]
  exact mul_le_mul_of_nonneg_right (abs_roundHalfEven_sub_le_abs_sub _ n) (by positivity)

/-- The distance of the rounded rational does not depend on the sign. -/
theorem abs_rounded_abs_sub (q : Rat) : |rounded (|q|) - (|q|)| = |rounded q - q| := by
  rcases le_total 0 q with hq | hq
  · rw [abs_of_nonneg hq]
  · rw [abs_of_nonpos hq, rounded_neg, neg_sub_neg, abs_sub_comm]

/-- A value below the numbers that have the unit of a rational is farther than the rounded
rational. -/
theorem abs_rounded_sub_lt (hq : q ≠ 0) (hunit : -1074 < unitExponent |q|)
    (hv : |v| < 2 ^ (unitExponent |q| + 52)) : |rounded q - q| < |v - q| := by
  -- the least number with that unit lies between the value and the rational
  have hleast := zpow_unitExponent_le (abs_pos.2 hq) hunit.ne'
  have hunits := abs_rounded_sub_le_abs_units_sub |q| (2 ^ 52)
  have hpower : ((2 ^ 52 : Int) : Rat) * 2 ^ unitExponent |q| = 2 ^ (unitExponent |q| + 52) := by
    rw [zpow_add₀ two_ne_zero, mul_comm]
    norm_num
  rw [abs_abs, hpower, abs_rounded_abs_sub] at hunits
  calc |rounded q - q| ≤ |2 ^ (unitExponent |q| + 52) - (|q|)| := hunits
    _ = |q| - 2 ^ (unitExponent |q| + 52) := by
        rw [abs_sub_comm, abs_of_nonneg (sub_nonneg.2 hleast)]
    _ < |q| - |v| := sub_lt_sub_left hv _
    _ ≤ |q - v| := abs_sub_abs_le_abs_sub q v
    _ = |v - q| := abs_sub_comm q v

/-- No finite number is nearer than the rounded rational. -/
theorem abs_rounded_sub_le_abs_sub (q : Rat) (hy : y.toRat? = some s) :
    |rounded q - q| ≤ |s - q| := by
  rcases eq_or_ne q 0 with rfl | hq
  · rw [rounded_zero, sub_zero, abs_zero]
    exact abs_nonneg _
  · rcases exists_units_or_lt hy (unitExponent |q|) with ⟨n, rfl, -⟩ | ⟨hunit, hsmall⟩
    · exact abs_rounded_sub_le_abs_units_sub q n
    · exact (abs_rounded_sub_lt hq hunit hsmall).le

/-- Where another number is as near as the rounded rational, that has an even number of units, and
the significand of the other is odd. -/
theorem even_units_of_tie (hq : q ≠ 0) (hy : y.toRat? = some s) (hne : s ≠ rounded q)
    (htie : |s - q| = |rounded q - q|) :
    Even (roundHalfEven (q / 2 ^ unitExponent |q|)) ∧ ¬ y.HasEvenSignificand := by
  rcases exists_units_or_lt hy (unitExponent |q|) with ⟨n, rfl, heven⟩ | ⟨hunit, hsmall⟩
  · have hpower : (0 : Rat) < 2 ^ unitExponent |q| := by positivity
    have hother : n ≠ roundHalfEven (q / 2 ^ unitExponent |q|) := by
      rintro rfl
      exact hne rfl
    rw [rounded, abs_units_sub, abs_units_sub] at htie
    obtain ⟨hround, hodd⟩ :=
      even_roundHalfEven_of_tie hother (mul_right_cancel₀ hpower.ne' htie)
    exact ⟨hround, fun hsignificand ↦ hodd (heven hsignificand)⟩
  · exact absurd htie.symm (abs_rounded_sub_lt hq hunit hsmall).ne

/-! ## The rounded number is the nearest one -/

/-- A rational is rounded to less than two to the 1024 exactly when it is below the middle between
that and the greatest number. -/
theorem abs_rounded_lt_iff (q : Rat) :
    |rounded q| < 2 ^ (1024 : Int) ↔ |q| < 2 ^ (1024 : Int) - 2 ^ (970 : Int) := by
  have hodd : |rounded q| = rounded |q| := by
    rcases le_total 0 q with hq | hq
    · rw [abs_of_nonneg hq, abs_of_nonneg (rounded_nonneg hq)]
    · rw [abs_of_nonpos hq, rounded_neg, ← abs_neg, ← rounded_neg,
        abs_of_nonneg (rounded_nonneg (neg_nonneg.2 hq))]
  constructor
  · intro h
    by_contra hlarge
    have hmiddle : rounded (2 ^ (1024 : Int) - 2 ^ (970 : Int)) = 2 ^ (1024 : Int) := by
      decide +kernel
    have hmono := rounded_mono (not_lt.1 hlarge)
    rw [hmiddle, ← hodd] at hmono
    exact absurd h (not_lt.2 hmono)
  · intro h
    rcases eq_or_ne q 0 with rfl | hq
    · rw [rounded_zero, abs_zero]
      positivity
    · have hsmall : |q| < 2 ^ ((971 : Int) + 53) :=
        h.trans (sub_lt_self _ (by positivity))
      have hunit : unitExponent |q| ≤ 971 := unitExponent_le (abs_pos.2 hq) (by omega) hsmall
      calc |rounded q| = |rounded q - q + q| := by rw [sub_add_cancel]
        _ ≤ |rounded q - q| + |q| := abs_add_le _ _
        _ < 2 ^ unitExponent |q| / 2 + (2 ^ (1024 : Int) - 2 ^ (970 : Int)) :=
            add_lt_add_of_le_of_lt (abs_rounded_sub_le_unit q) h
        _ ≤ 2 ^ (971 : Int) / 2 + (2 ^ (1024 : Int) - 2 ^ (970 : Int)) := by
            gcongr
            exact one_le_two
        _ = 2 ^ (1024 : Int) := by
            rw [show (971 : Int) = 970 + 1 from rfl, zpow_add_one₀ two_ne_zero]
            ring

/-- An even number of units makes a number with an even significand. -/
theorem hasEvenSignificand_ofUnits {negative : Bool} {units : Nat} {exponent : Int}
    (hunits : units ≤ 2 ^ 53) (hleast : -1074 ≤ exponent) (heven : Even units)
    (hfinite : (ofUnits negative units exponent).isFinite = true) :
    (ofUnits negative units exponent).HasEvenSignificand := by
  unfold ofUnits at hfinite ⊢
  split
  · exact heven
  · rename_i hfull
    rw [dif_neg hfull] at hfinite
    split
    · -- units that have to be halved fill all digits
      rename_i hhalved
      have hhalf : units / 2 = 2 ^ 52 := by
        rcases hhalved.2.2.2 with hmany | hexponent
        · omega
        · omega
      show Even (units / 2)
      rw [hhalf]
      decide
    · rename_i hlarge
      rw [dif_neg hlarge] at hfinite
      cases hfinite

/-- A rational that has an even number of units is rounded to a number with an even significand. -/
theorem hasEvenSignificand_ofRat {zeroNegative : Bool} (hq : q ≠ 0)
    (heven : Even (roundHalfEven (q / 2 ^ unitExponent |q|)))
    (hfinite : (ofRat q zeroNegative).isFinite = true) :
    (ofRat q zeroNegative).HasEvenSignificand := by
  have hunits : Even (nearestUnits q) := by
    rw [← Int.even_coe_nat, nearestUnits_eq]
    rcases abs_choice q with hsign | hsign
    · rwa [hsign] at heven ⊢
    · rw [hsign] at heven ⊢
      rwa [neg_div, roundHalfEven_neg, even_neg]
  rw [ofRat_eq_ofUnits hq] at hfinite ⊢
  exact hasEvenSignificand_ofUnits (nearestUnits_le hq) (least_le_unitExponent _) hunits hfinite

/-- The rounded number is the nearest one, if it is finite. -/
theorem nearest_ofRat {zeroNegative : Bool} (h : (ofRat q zeroNegative).toRat? = some r) :
    Nearest q (ofRat q zeroNegative) r := by
  have hfinite := isFinite_of_toRat? h
  have hvalue := toRat?_ofRat_of_isFinite hfinite
  obtain rfl := Option.some.inj (hvalue.symm.trans h)
  refine ⟨h, ?_, fun y s hy ↦ abs_rounded_sub_le_abs_sub q hy, ?_⟩
  · rcases ofRat_cases q zeroNegative with ⟨hsmall, -⟩ | ⟨-, hinfinity⟩
    · exact (abs_rounded_lt_iff q).1 hsmall
    · rw [hinfinity] at hfinite
      cases hfinite
  · intro y s hy hne htie
    rcases eq_or_ne q 0 with rfl | hq
    · rw [ofRat, if_pos rfl]
      exact Even.zero
    · exact hasEvenSignificand_ofRat hq (even_units_of_tie hq hy hne htie).1 hfinite

/-- A nearest number has the value of the rounded rational. -/
theorem Nearest.eq_rounded (h : Nearest q x r) : r = rounded q := by
  have hvalue := toRat?_ofRat ((abs_rounded_lt_iff q).2 h.bounded) false
  have htie : |r - q| = |rounded q - q| :=
    le_antisymm (h.le _ _ hvalue) (abs_rounded_sub_le_abs_sub q h.value)
  by_contra hne
  rcases eq_or_ne q 0 with rfl | hq
  · rw [rounded_zero, sub_zero, sub_zero, abs_zero, abs_eq_zero] at htie
    exact hne (htie.trans rounded_zero.symm)
  · -- two numbers that are equally near do not both have even significands
    exact (even_units_of_tie hq h.value hne htie).2
      (h.even _ _ hvalue (Ne.symm hne) htie.symm)

end

/-! ## There is no other -/

/-- Of two canonical pairs with the same value, neither has the greater exponent. -/
theorem exponent_le_of_value_eq {m n : Nat} {e f : Int} (hm : Canonical m e) (hn : Canonical n f)
    (h : (m : Rat) * 2 ^ e = n * 2 ^ f) : f ≤ e := by
  by_contra hlt
  -- the pair with the greater exponent has all digits, so the other one has too many
  have hleast := hm.2.1
  have hdigits := hm.1
  have hfull : 0x10000000000000 ≤ n := hn.2.2.2.resolve_right (by omega)
  have hunits : (m : Int) = n * 2 ^ (f - e).toNat := by
    rw [two_zpow_eq_mul (not_le.1 hlt).le, ← mul_assoc] at h
    exact_mod_cast mul_right_cancel₀ (by positivity) h
  have hdouble : (2 : Int) ^ 1 ≤ 2 ^ (f - e).toNat :=
    pow_le_pow_right₀ (by norm_num) (by omega)
  have hmany : (n : Int) * 2 ^ 1 ≤ n * 2 ^ (f - e).toNat :=
    mul_le_mul_of_nonneg_left hdouble (by omega)
  omega

/-- Two numbers with the same value are the same, unless they are zero. -/
theorem eq_of_toRat? {x y : Binary64} {v : Rat} (hx : x.toRat? = some v)
    (hy : y.toRat? = some v) (hv : v ≠ 0) : x = y := by
  obtain ⟨s, m, e, hm, rfl, rfl⟩ := exists_parts hx
  obtain ⟨t, n, f, hn, rfl, hvalue⟩ := exists_parts hy
  have hmagnitude : (n : Rat) * 2 ^ f = m * 2 ^ e := by
    rw [← abs_scaled t, ← abs_scaled s, hvalue]
  obtain rfl : e = f := le_antisymm (exponent_le_of_value_eq hn hm hmagnitude)
    (exponent_le_of_value_eq hm hn hmagnitude.symm)
  obtain rfl : n = m := by exact_mod_cast mul_right_cancel₀ (by positivity) hmagnitude
  obtain rfl | rfl : t = s ∨ t = !s := by
    cases s <;> cases t <;> simp
  · rfl
  · have hopposite : scaled (!s) n e = -scaled s n e := by
      cases s <;> simp [scaled]
    rw [hopposite] at hvalue
    exact absurd (self_eq_neg.1 hvalue.symm) hv

/-- The nearest number to a rational that is not rounded to zero is the one that rounding gives. -/
theorem nearest_iff {q r : Rat} {x : Binary64} (hr : r ≠ 0) (zeroNegative : Bool) :
    Nearest q x r ↔ ofRat q zeroNegative = x ∧ x.toRat? = some r := by
  constructor
  · intro h
    have hvalue := toRat?_ofRat ((abs_rounded_lt_iff q).2 h.bounded) zeroNegative
    rw [← h.eq_rounded] at hvalue
    exact ⟨eq_of_toRat? hvalue h.value hr, h.value⟩
  · rintro ⟨rfl, hvalue⟩
    exact nearest_ofRat hvalue

end Binary64

end MixedNumbers
