import MixedNumbers.Proofs.ContinuedFraction
import MixedNumbers.Proofs.Growth

/-!
# How close the recovered fraction is

The recovered fraction is within the tolerance of the number it is recovered from, for every
tolerance from the default one up to one quarter. Two values of the continued fraction that goes
on from a convergent differ by no more than the parts left over do (`Proper.abs_continued_sub_le`).
So the rounding of a reciprocal moves that value by two to the -53 at most, and `Near` adds these
up over the turns. The value of the convergent itself is the one with nothing left over, which the
test keeps a little nearer than the tolerance (`Proper.abs_value_sub_le`); what is gained there
outweighs the rounding.
-/

namespace MixedNumbers.Convergent

open Binary64

variable {c reached start : Convergent} {tolerance x : Binary64} {r s v : Rat} {i : Nat}

/-! ## Parts left over -/

/-- Two values differ by no more than their parts left over do. -/
theorem Proper.abs_continued_sub_le (h : Proper c) (hr : 0 ≤ r) (hs : 0 ≤ s) :
    |c.continued r - c.continued s| ≤ |r - s| := by
  have hk : (1 : Rat) ≤ c.denominator := by exact_mod_cast h.denominator_pos
  rw [h.abs_continued_sub hr hs]
  exact div_le_self (abs_nonneg _) (one_le_mul_of_one_le_of_one_le
    (hk.trans (h.denominator_le_continued hr)) (hk.trans (h.denominator_le_continued hs)))

/-- A part left over that is bounded by the square of the denominator moves the value by no more
than the bound. -/
theorem Proper.abs_continued_sub_value_le (h : Proper c) {e : Rat} (hr : 0 ≤ r)
    (hle : r ≤ e * (c.denominator : Rat) ^ 2) : |c.continued r - c.value| ≤ e := by
  have hk : (0 : Rat) < c.denominator := by exact_mod_cast h.denominator_pos
  have hsquare : (c.denominator : Rat) ^ 2 ≤
      (c.denominator + r * c.previousDenominator) * c.denominator := by
    rw [pow_two]
    exact mul_le_mul_of_nonneg_right (h.denominator_le_continued hr) hk.le
  rw [h.abs_continued_sub_value hr]
  exact (div_le_div_of_nonneg_left hr (by positivity) hsquare).trans
    ((div_le_iff₀ (by positivity)).2 hle)

/-- A part left over that is bounded by the square of the denominator moves the value by less than
the bound, once there is a convergent before. -/
theorem Proper.abs_value_sub_le (h : Proper c) (hprevious : 1 ≤ c.previousDenominator)
    {e : Rat} (he : 0 ≤ e) (hr : 0 ≤ r) (hle : r ≤ e * (c.denominator : Rat) ^ 2) :
    |c.value - c.continued r| ≤ e / (1 + e) := by
  have hk : (1 : Rat) ≤ c.denominator := by exact_mod_cast h.denominator_pos
  have hk' : (1 : Rat) ≤ c.previousDenominator := by exact_mod_cast hprevious
  have hpos : (0 : Rat) < c.denominator + r * c.previousDenominator :=
    lt_of_lt_of_le (by linarith) (h.denominator_le_continued hr)
  rw [abs_sub_comm, h.abs_continued_sub_value hr,
    div_le_div_iff₀ (mul_pos hpos (by linarith)) (by linarith)]
  have hproduct : e * r ≤ e * r * (c.denominator * c.previousDenominator) :=
    le_mul_of_one_le_right (mul_nonneg he hr) (one_le_mul_of_one_le_of_one_le hk hk')
  calc r * (1 + e) = r + e * r := by ring
    _ ≤ e * (c.denominator : Rat) ^ 2 + e * r * (c.denominator * c.previousDenominator) :=
        add_le_add hle hproduct
    _ = e * ((c.denominator + r * c.previousDenominator) * c.denominator) := by ring

/-! ## Rounding -/

/-- The reciprocal of a rounded reciprocal is at most two to the -53 away. -/
theorem abs_one_div_rounded_sub_le (hpos : 0 < r) (hone : r ≤ 1) :
    |1 / rounded (1 / r) - r| ≤ 2 ^ (-53 : Int) := by
  have hreciprocal : 1 ≤ 1 / r := (one_le_div hpos).2 hone
  have hrounded : 1 ≤ rounded (1 / r) := le_rounded_of_eq rounded_one hreciprocal
  have hsize : (2 : Rat) ^ (-1022 : Int) ≤ |1 / r| :=
    (zpow_le_one_of_nonpos₀ one_le_two (by omega)).trans (hreciprocal.trans (le_abs_self _))
  have herror := abs_rounded_sub_le hsize
  rw [abs_of_pos (zero_lt_one.trans_le hreciprocal)] at herror
  have hfactor : 1 / rounded (1 / r) - r =
      -((rounded (1 / r) - 1 / r) * r / rounded (1 / r)) := by
    field_simp
    ring
  rw [hfactor, abs_neg, abs_div, abs_mul, abs_of_pos hpos,
    abs_of_pos (zero_lt_one.trans_le hrounded)]
  calc |rounded (1 / r) - 1 / r| * r / rounded (1 / r)
      ≤ 1 / r * 2 ^ (-53 : Int) * r / rounded (1 / r) := by gcongr
    _ = 2 ^ (-53 : Int) / rounded (1 / r) := by
        congr 1
        field_simp
    _ ≤ 2 ^ (-53 : Int) := div_le_self (by positivity) hrounded

/-! ## Turns -/

/-- `Near v i c` says that the continued fraction which goes on from the convergent with what is
left over misses `v` by no more than one rounding for each convergent up to its place. -/
structure Near (v : Rat) (i : Nat) (c : Convergent) : Prop where
  proper : Proper c
  error : ∃ r, c.remainder.toRat? = some r ∧ |c.continued r - v| ≤ (i + 1) * 2 ^ (-53 : Int)

/-- The first convergent of a number misses it by the rounding of what is left over. -/
theorem near_first (hx : x.toRat? = some v) (hfirst : first x = some start) : Near v 0 start := by
  obtain rfl := Option.some.inj ((first_of_toRat? hx).symm.trans hfirst)
  refine ⟨proper_first hx, _, toRat?_remainder hx (toRat?_floor hx), ?_⟩
  have hlow : 0 ≤ v - ⌊v⌋ := sub_nonneg.2 (Int.floor_le v)
  have hhigh : v - ⌊v⌋ < 2 ^ (1 : Int) := by
    rw [zpow_one]
    linarith [Int.lt_floor_add_one v]
  have hround := abs_rounded_sub_le_of_lt (by omega) ((abs_of_nonneg hlow).trans_lt hhigh)
  calc _ = |rounded (v - ⌊v⌋) - (v - ⌊v⌋)| := by
        congr 1
        unfold continued
        push_cast
        ring
    _ ≤ 2 ^ (-53 : Int) := hround
    _ = _ := by rw [Nat.cast_zero, zero_add, one_mul]

/-- A turn adds one rounding. -/
theorem Turn.near (h : Turn c reached) (hnear : Near v i c) : Near v (i + 1) reached := by
  have hproper := h.proper hnear.proper
  obtain ⟨r, hremainder, herror⟩ := hnear.error
  obtain ⟨hpos, hrounded, hreached, hnext⟩ := h.reciprocal hnear.proper hremainder
  have hone := (hnear.proper.remainder_bounds hremainder).2
  have hpositive := zero_lt_one.trans_le hrounded
  refine ⟨hproper, _, hnext, ?_⟩
  have hwhole := add_sub_cancel (⌊rounded (1 / r)⌋ : Rat) (rounded (1 / r))
  rw [hreached, continued_following c _ (hwhole.trans_ne hpositive.ne'), hwhole]
  calc |c.continued (1 / rounded (1 / r)) - v|
      ≤ |c.continued (1 / rounded (1 / r)) - c.continued r| + |c.continued r - v| :=
        abs_sub_le _ _ _
    _ ≤ 2 ^ (-53 : Int) + (i + 1) * 2 ^ (-53 : Int) :=
        add_le_add ((hnear.proper.abs_continued_sub_le (by positivity) hpos.le).trans
          (abs_one_div_rounded_sub_le hpos hone)) herror
    _ = ((i + 1 : Nat) + 1) * 2 ^ (-53 : Int) := by
        push_cast
        ring

/-! ## Whole expansions -/

/-- All convergents of an expansion are near at their places. -/
theorem Expands.near {rounds : Nat} {expansion : Expansion}
    (h : Expands tolerance rounds start expansion) (hstart : Near v 0 start)
    (hc : (start :: expansion.convergents)[i]? = some c) : Near v i c := by
  have hnear := h.at_places hstart (fun _ _ _ hplace _ hturn ↦ hturn.near hplace) hc
  rwa [Nat.zero_add] at hnear

/-- The floor of a number that passes the test is within a tolerance below one half. -/
theorem abs_floor_sub_le {e : Rat} (hx : x.toRat? = some v) (he : e < 1 / 2)
    (hle : rounded (v - ⌊v⌋) ≤ e) : |(⌊v⌋ : Rat) - v| ≤ e := by
  -- a number between minus one half and zero leaves over too much
  have hexact : 0 ≤ v ∨ v ≤ -1 / 2 := by
    by_contra hbetween
    obtain ⟨hneg, hhalf⟩ := not_or.1 hbetween
    rw [not_le] at hneg hhalf
    have hfloor : ⌊v⌋ = -1 := by
      rw [Int.floor_eq_iff]
      push_cast
      constructor <;> linarith
    have hpower : (2 : Rat) ^ (-1 : Int) = 1 / 2 := by norm_num
    have hlarge : (2 : Rat) ^ (-1 : Int) ≤ rounded (v - ⌊v⌋) := by
      refine le_rounded_of_eq (rounded_zpow (by omega)) ?_
      rw [hfloor, hpower]
      push_cast
      linarith
    rw [hpower] at hlarge
    linarith
  rw [rounded_sub_floor hx hexact] at hle
  rwa [abs_sub_comm, abs_of_nonneg (sub_nonneg.2 (Int.floor_le v))]

/-- What the reciprocal gains on the tolerance outweighs the rounding. -/
theorem weighed_add_le {e : Rat} (hlow : 2 ^ (-20 : Int) ≤ e) :
    e * (1 + 2 ^ (-50 : Int)) / (1 + e * (1 + 2 ^ (-50 : Int))) + 2 ^ (-47 : Int) ≤ e := by
  have he : 0 < e := lt_of_lt_of_le (by positivity) hlow
  have hsquare : 2 ^ (-20 : Int) * e ≤ e * e := mul_le_mul_of_nonneg_right hlow he.le
  rw [div_add' _ _ _ (by positivity), div_le_iff₀ (by positivity)]
  norm_num at hlow hsquare ⊢
  linarith

/-- What passes the test after a turn is within the tolerance. -/
theorem Near.abs_value_sub_le (h : Near v i c) (hi : i ≤ 63) (hprevious : 1 ≤ c.previousDenominator)
    {e : Rat} (htolerance : tolerance.toRat? = some e) (hlow : 2 ^ (-20 : Int) ≤ e)
    (hpasses : c.withinTolerance tolerance = true) : |c.value - v| ≤ e := by
  obtain ⟨r, hremainder, herror⟩ := h.error
  have hnonneg := (h.proper.remainder_bounds hremainder).1
  have he : 0 < e := lt_of_lt_of_le (by positivity) hlow
  have hle := h.proper.remainder_le htolerance hremainder hlow hpasses
  have hvalue := h.proper.abs_value_sub_le hprevious (by positivity) hnonneg hle
  have hplace : ((i : Rat) + 1) * 2 ^ (-53 : Int) ≤ 2 ^ (-47 : Int) := by
    have hcast : (i : Rat) ≤ 63 := by exact_mod_cast hi
    norm_num
    linarith
  calc |c.value - v| ≤ |c.value - c.continued r| + |c.continued r - v| := abs_sub_le _ _ _
    _ ≤ e * (1 + 2 ^ (-50 : Int)) / (1 + e * (1 + 2 ^ (-50 : Int))) + 2 ^ (-47 : Int) :=
        add_le_add hvalue (herror.trans hplace)
    _ ≤ e := weighed_add_le hlow

/-- With a tolerance from the default one up to one quarter, the fraction recovered from a finite
number is within the tolerance. -/
theorem approximate_within_tolerance {e : Rat} (htolerance : tolerance.toRat? = some e)
    (hdefault : Precision.defaultTolerance.le tolerance = true) (hquarter : e ≤ 1 / 4)
    (hx : x.toRat? = some v) :
    ∃ q, approximate tolerance x = some q ∧ |q - v| ≤ e := by
  obtain ⟨start, expansion, hfirst, hexpand, hvalue, -, hexpands⟩ :=
    exists_expand_expands tolerance hx
  have hatLeast := atLeast_of_default_le hdefault
  have hlow := hatLeast.le_of_toRat? htolerance
  have hstart := grown_first hx hfirst
  have hshort := hexpands.length_le_sixteen hstart hdefault
  have hlast := Expansion.getElem?_last start expansion
  obtain ⟨-, hpasses⟩ := hexpands.ending_of_lt hstart hatLeast (by omega)
    (show expansion.convergents.length < maxRounds by unfold maxRounds; omega)
  refine ⟨(expansion.last start).value, by rw [approximate, hexpand]; rfl, ?_⟩
  rcases Nat.eq_zero_or_pos expansion.convergents.length with hnone | hsome
  · have honly : expansion.last start = start := by
      rw [Expansion.last, List.eq_nil_of_length_eq_zero hnone]
      rfl
    rw [honly] at hpasses ⊢
    rw [hvalue]
    exact abs_floor_sub_le hx (by linarith)
      ((first_withinTolerance_iff htolerance hx hfirst).1 hpasses)
  · have hnear := hexpands.near (near_first hx hfirst) hlast
    have hprevious : 1 ≤ (expansion.last start).previousDenominator := by
      have hfib := Nat.fib_pos.2 hsome
      have hgrown := (hexpands.grown hstart hlast).previous
      omega
    exact hnear.abs_value_sub_le (by omega) hprevious htolerance hlow hpasses

/-- The number nearest to minus one third, for which the first part left over is rounded, gives
minus one third, which is within the default tolerance. -/
theorem approximate_within_tolerance_near_minus_third :
    ∃ e v q : Rat, Precision.defaultTolerance.toRat? = some e ∧ e ≤ 1 / 4 ∧
      (ofRat (-1 / 3) false).toRat? = some v ∧ v ≠ -1 / 3 ∧
      approximate Precision.defaultTolerance (ofRat (-1 / 3) false) = some q ∧ q = -1 / 3 ∧
      |q - v| ≤ e := by
  have htolerance : Precision.defaultTolerance.toRat? = some (0x10c6f7a0b5ed8d / 2 ^ 72) := by
    decide +kernel
  have hx : (ofRat (-1 / 3) false).toRat? = some (-0x15555555555555 / 2 ^ 54) := by
    decide +kernel
  have hquarter : (0x10c6f7a0b5ed8d / 2 ^ 72 : Rat) ≤ 1 / 4 := by norm_num
  have hdefault : Precision.defaultTolerance.le Precision.defaultTolerance = true := by
    decide +kernel
  have hthird : approximate Precision.defaultTolerance (ofRat (-1 / 3) false) = some (-1 / 3) := by
    decide +kernel
  obtain ⟨q, hq, hclose⟩ := approximate_within_tolerance htolerance hdefault hquarter hx
  exact ⟨_, _, q, htolerance, hquarter, hx, by norm_num, hq,
    Option.some.inj (hq.symm.trans hthird), hclose⟩

end MixedNumbers.Convergent
