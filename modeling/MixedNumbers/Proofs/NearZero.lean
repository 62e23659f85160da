import MixedNumbers.Proofs.NormalForm
import MixedNumbers.Proofs.Tolerance

/-!
# Numbers within the tolerance of zero

Which of the numbers between minus the tolerance and the tolerance are written as zero. All that
are not negative are, for their floor passes the test at once. A negative number has the floor
minus one, and zero is at best the second convergent: from there on no numerator is positive
(`Nonpositive`), and every further turn makes it negative. So a negative number is written as zero
exactly when the first convergent fails the test and the second one is zero and passes it, which
numbers at the edge of the tolerance do not do (`approximateText_eq_zero_iff`).
-/

namespace MixedNumbers.Convergent

open Binary64

variable {c reached start : Convergent} {tolerance x : Binary64} {e r v : Rat}

/-! ## The signs of the numerators -/

/-- The value of a proper convergent is zero exactly when its numerator is. -/
theorem Proper.value_eq_zero_iff (h : Proper c) : c.value = 0 ↔ c.numerator = 0 := by
  have hpos := h.denominator_pos
  have hdenominator : (c.denominator : Rat) ≠ 0 := by
    exact_mod_cast (show c.denominator ≠ 0 by omega)
  rw [value, div_eq_zero_iff, or_iff_left hdenominator, Int.cast_eq_zero]

/-- `Nonpositive c` says that the convergent is proper and that neither its numerator nor the one
before is positive. -/
structure Nonpositive (c : Convergent) : Prop where
  proper : Proper c
  numerator : c.numerator ≤ 0
  previousNumerator : c.previousNumerator ≤ 0

/-- A turn does not make a numerator positive again, and the one that it adds is negative. -/
theorem Turn.nonpositive (h : Turn c reached) (hc : Nonpositive c) :
    Nonpositive reached ∧ reached.numerator < 0 := by
  have hproper := h.proper hc.proper
  obtain ⟨w, -, hw, rfl⟩ := h
  have hnumerator := hc.numerator
  have hprevious := hc.previousNumerator
  -- the determinant keeps the two numerators from both being zero
  have hsome : c.numerator ≠ 0 ∨ c.previousNumerator ≠ 0 := by
    by_contra hnone
    obtain ⟨hzero, hzero'⟩ := not_or.1 hnone
    have hdeterminant := hc.proper.determinant
    rw [not_not.1 hzero, not_not.1 hzero', zero_mul, zero_mul, sub_zero] at hdeterminant
    cases hdeterminant
  have hproduct : ⌊w⌋ * c.numerator ≤ 1 * c.numerator :=
    mul_le_mul_of_nonpos_right (Int.floor_pos.2 hw) hnumerator
  have hneg : ⌊w⌋ * c.numerator + c.previousNumerator < 0 := by omega
  exact ⟨⟨hproper, hneg.le, hnumerator⟩, hneg⟩

/-- An expansion that follows a negative convergent ends with a negative one. -/
theorem Expands.numerator_neg {rounds : Nat} {expansion : Expansion}
    (h : Expands tolerance rounds c expansion) (hc : Nonpositive c) (hneg : c.numerator < 0) :
    (expansion.last c).numerator < 0 :=
  (h.last_induction (P := fun c ↦ Nonpositive c ∧ c.numerator < 0) ⟨hc, hneg⟩
    fun _ _ hkept hturn ↦ hturn.nonpositive hkept.1).2

/-! ## Numbers between minus the tolerance and zero -/

/-- The first convergent of a number between minus one and zero is minus one, and what it leaves
over is the rounded distance from there. -/
theorem first_of_neg (hx : x.toRat? = some v) (hlow : -1 < v) (hneg : v < 0) :
    first x = some ⟨x, x.floor, -1, 1, 1, 0⟩ ∧
      (remainder ⟨x, x.floor, -1, 1, 1, 0⟩).toRat? = some (rounded (1 + v)) := by
  have hfloor : ⌊v⌋ = -1 := by
    rw [Int.floor_eq_iff]
    push_cast
    constructor <;> linarith
  have hdistance : v - ⌊v⌋ = 1 + v := by
    rw [hfloor]
    push_cast
    ring
  rw [first_of_toRat? hx, ← hdistance, ← hfloor]
  exact ⟨rfl, toRat?_remainder hx (toRat?_floor hx)⟩

/-- A distance from minus one that is more than the tolerance is at least one half. -/
theorem half_le_rounded (hle : -e ≤ v) (hfails : e < rounded (1 + v)) :
    (2 : Rat) ^ (-1 : Int) ≤ rounded (1 + v) := by
  have hpower : (2 : Rat) ^ (-1 : Int) = 1 / 2 := by norm_num
  have hhalf : rounded (2 ^ (-1 : Int)) = 2 ^ (-1 : Int) := rounded_zpow (by omega)
  rcases le_total ((2 : Rat) ^ (-1 : Int)) (1 + v) with hlarge | hsmall
  · exact le_rounded_of_eq hhalf hlarge
  · have hbelow := rounded_le_of_eq hhalf hsmall
    rw [hpower] at hbelow hsmall
    linarith

section

variable {rounds : Nat} {expansion rest : Expansion}
  (htolerance : tolerance.toRat? = some e) (hpos : 0 < e) (hone : e < 1)

include htolerance hpos hone

/-- After the second convergent of a number between minus one and zero, the expansion ends with zero
exactly when the reciprocal of what the floor left over exceeds one by at most the tolerance. -/
theorem Expands.numerator_eq_zero_iff_of_turn {floor : Binary64}
    (h : Expands tolerance (rounds + 1) reached rest) (hproper : Proper ⟨x, floor, -1, 1, 1, 0⟩)
    (hturn : Turn ⟨x, floor, -1, 1, 1, 0⟩ reached)
    (hremainder : (remainder ⟨x, floor, -1, 1, 1, 0⟩).toRat? = some r) :
    (rest.last reached).numerator = 0 ↔ rounded (1 / r) ≤ 1 + e := by
  obtain ⟨-, hrounded, hreached, hnext⟩ := hturn.reciprocal hproper hremainder
  have hnumerator : reached.numerator = 1 - ⌊rounded (1 / r)⌋ := by
    rw [hreached]
    show ⌊rounded (1 / r)⌋ * -1 + 1 = _
    omega
  have hprevious : reached.previousNumerator = -1 := by rw [hreached]; rfl
  have hfloor : 1 ≤ ⌊rounded (1 / r)⌋ := Int.floor_pos.2 hrounded
  have hc : Nonpositive reached := ⟨hturn.proper hproper, by omega, by omega⟩
  rcases hfloor.eq_or_lt with hzero | hlarge
  · have hdenominator : reached.denominator = 1 := by
      rw [hreached]
      show ⌊rounded (1 / r)⌋ * 1 + 0 = 1
      omega
    have htest := withinTolerance_iff htolerance hnext hdenominator
    rw [← hzero, Int.cast_one, sub_le_iff_le_add'] at htest
    rw [← htest]
    cases hwithin : reached.withinTolerance tolerance with
    | true =>
        rw [h.last_of_withinTolerance hwithin]
        exact iff_of_true (by omega) rfl
    | false =>
        -- what is left over is above the tolerance, so that another turn follows
        have hleft : rounded (1 / r) - ⌊rounded (1 / r)⌋ ≠ 0 := by
          rw [← hzero, Int.cast_one]
          intro hnothing
          have hpasses := htest.2 (by linarith)
          rw [hwithin] at hpasses
          cases hpasses
        obtain ⟨following, more, hagain, hmore, hlast⟩ :=
          h.exists_turn hwithin (hturn.isFinite_reciprocal hnext hleft)
        obtain ⟨hfollowing, hneg⟩ := hagain.nonpositive hc
        have hend := hmore.numerator_neg hfollowing hneg
        rw [hlast]
        exact iff_of_false hend.ne Bool.false_ne_true
  · have hend := h.numerator_neg hc (by omega)
    have htwo : (2 : Rat) ≤ ⌊rounded (1 / r)⌋ := by exact_mod_cast hlarge
    have hfar := htwo.trans (Int.floor_le _)
    exact iff_of_false hend.ne (by linarith)

/-- The expansion of a number between minus the tolerance and zero ends with zero exactly when the
floor leaves over more than the tolerance and the reciprocal of this exceeds one by at most the
tolerance. -/
theorem Expands.numerator_eq_zero_iff_of_neg (h : Expands tolerance (rounds + 2) start expansion)
    (hproper : Proper start) (hx : x.toRat? = some v) (hfirst : first x = some start)
    (hle : -e ≤ v) (hneg : v < 0) :
    (expansion.last start).numerator = 0 ↔
      e < rounded (1 + v) ∧ rounded (1 / rounded (1 + v)) ≤ 1 + e := by
  obtain ⟨hstart, hremainder⟩ := first_of_neg hx (by linarith) hneg
  obtain rfl := Option.some.inj (hstart.symm.trans hfirst)
  have htest := withinTolerance_iff htolerance hremainder rfl
  cases hwithin : withinTolerance tolerance ⟨x, x.floor, -1, 1, 1, 0⟩ with
  | true =>
      rw [h.last_of_withinTolerance hwithin]
      exact iff_of_false (show (-1 : Int) ≠ 0 by omega) fun hfails ↦
        (htest.1 hwithin).not_gt hfails.1
  | false =>
      have hfails : e < rounded (1 + v) := by
        by_contra hpasses
        rw [htest.2 (not_lt.1 hpasses)] at hwithin
        cases hwithin
      obtain ⟨reached, rest, hturn, hrest, hlast⟩ :=
        h.exists_turn hwithin (isFinite_one_div hremainder (by omega) (half_le_rounded hle hfails))
      rw [hlast, and_iff_right hfails]
      exact hrest.numerator_eq_zero_iff_of_turn htolerance hpos hone hproper hturn hremainder

/-- With a tolerance between zero and one, a number within the tolerance of zero is written as zero
exactly when it is not negative, or when its rounded distance from minus one is more than the
tolerance and the rounded reciprocal of this distance exceeds one by at most the tolerance. -/
theorem approximateText_eq_zero_iff (hx : x.toRat? = some v) (hle : |v| ≤ e) :
    approximateText tolerance x = some ['0'] ↔
      0 ≤ v ∨ (e < rounded (1 + v) ∧ rounded (1 / rounded (1 + v)) ≤ 1 + e) := by
  obtain ⟨start, expansion, hfirst, hexpand, hvalue, hproper, hexpands⟩ :=
    exists_expand_expands tolerance hx
  have hlast : Proper (expansion.last start) := hproper.last (hexpands.proper hproper)
  have hnumerator :
      approximateText tolerance x = some ['0'] ↔ (expansion.last start).numerator = 0 := by
    rw [approximateText, approximate, hexpand, Option.map_some, Option.map_some,
      Option.some.injEq, MixedForm.write_eq_zero_iff, hlast.value_eq_zero_iff]
  rw [hnumerator]
  obtain ⟨hlow, hhigh⟩ := abs_le.1 hle
  rcases lt_or_ge v 0 with hneg | hnonneg
  · rw [or_iff_right hneg.not_ge]
    exact hexpands.numerator_eq_zero_iff_of_neg htolerance hpos hone hproper hx hfirst hlow hneg
  · -- the floor is zero and leaves over the number itself
    have hfloor : ⌊v⌋ = 0 := Int.floor_eq_zero_iff.2 ⟨hnonneg, hhigh.trans_lt hone⟩
    have hpasses : start.withinTolerance tolerance = true := by
      rw [first_withinTolerance_iff htolerance hx hfirst, hfloor, Int.cast_zero, sub_zero,
        rounded_of_toRat? hx]
      exact hhigh
    rw [hexpands.last_of_withinTolerance hpasses, ← hproper.value_eq_zero_iff, hvalue, hfloor]
    exact iff_of_true Int.cast_zero (Or.inl hnonneg)

end

/-- The number nearest to minus half a millionth is written as zero with the default tolerance. -/
theorem approximateText_eq_zero_at_half_tolerance :
    ∃ e v : Rat, Precision.defaultTolerance.toRat? = some e ∧ 0 < e ∧ e < 1 ∧
      (ofRat (-1 / 2000000) false).toRat? = some v ∧ |v| ≤ e ∧ v < 0 ∧
      approximateText Precision.defaultTolerance (ofRat (-1 / 2000000) false) = some ['0'] := by
  have htolerance : Precision.defaultTolerance.toRat? = some (0x10c6f7a0b5ed8d / 2 ^ 72) := by
    decide +kernel
  have hx : (ofRat (-1 / 2000000) false).toRat? = some (-0x10c6f7a0b5ed8d / 2 ^ 73) := by
    decide +kernel
  have hpos : (0 : Rat) < 0x10c6f7a0b5ed8d / 2 ^ 72 := by norm_num
  have hone : (0x10c6f7a0b5ed8d / 2 ^ 72 : Rat) < 1 := by norm_num
  have hle : |(-0x10c6f7a0b5ed8d / 2 ^ 73 : Rat)| ≤ 0x10c6f7a0b5ed8d / 2 ^ 72 := by norm_num
  exact ⟨_, _, htolerance, hpos, hone, hx, hle, by norm_num,
    (approximateText_eq_zero_iff htolerance hpos hone hx hle).2 (Or.inr (by decide +kernel))⟩

/-- The number nearest to minus one millionth is within the default tolerance of zero and is not
written as zero. -/
theorem not_forall_approximateText_eq_zero :
    ¬ ∀ (tolerance x : Binary64) (e v : Rat), tolerance.toRat? = some e → 0 < e → e < 1 →
      x.toRat? = some v → |v| ≤ e → approximateText tolerance x = some ['0'] := by
  intro h
  have htolerance : Precision.defaultTolerance.toRat? = some (0x10c6f7a0b5ed8d / 2 ^ 72) := by
    decide +kernel
  have hx : (ofRat (-1 / 1000000) false).toRat? = some (-0x10c6f7a0b5ed8d / 2 ^ 72) := by
    decide +kernel
  have hzero := h _ _ _ _ htolerance (by norm_num) (by norm_num) hx (by norm_num)
  have hfraction : approximateText Precision.defaultTolerance (ofRat (-1 / 1000000) false) =
      some "-1/999999".toList := by
    decide +kernel
  rw [hfraction] at hzero
  exact absurd hzero (by decide)

end MixedNumbers.Convergent
