import MixedNumbers.Binary64.Rounding

/-!
# Rounding an integer that is held in limbs

A limb is 64 binary digits of an integer. An integer of more than one limb is rounded by the 64
digits that lead it. The digits behind them only break a tie, and not all of them are looked at:
the highest limb that has digits behind the leading ones may have fewer than 64 of them, and of
every limb below it only that many low digits count. `weighed` clears the digits that do not
count and `ofLimbs` rounds what it leaves. The leading digits are always kept
(`leading_le_weighed`), and an integer of at most two limbs is simply rounded to the nearest
number (`ofLimbs_eq_ofInt`).
-/

namespace MixedNumbers.Binary64

/-- The low binary digits of each limb, as many of each as given, at their places. -/
def lowDigits (count : Nat) : (limbs : Nat) → Nat → Nat
  | 0, _ => 0
  | limbs + 1, n =>
      n % Nat.pow 2 count + 0x10000000000000000 * lowDigits count limbs (n / 0x10000000000000000)

/-- The number of binary digits behind the leading 64. -/
def digitsBehind (n : Nat) : Nat :=
  n.log2 - 63

/-- A number without those of the digits behind the leading 64 that do not count. -/
def weighed (n : Nat) : Nat :=
  let behind := digitsBehind n
  let unit := Nat.pow 2 behind
  n / unit * unit + lowDigits ((behind - 1) % 64 + 1) (behind / 64 + 1) (n % unit)

/-- The binary64 number nearest to what counts of an integer. -/
def ofLimbs (i : Int) : Binary64 :=
  ofInt (i.sign * (weighed i.natAbs : Int))

/-- Zero has no digits. -/
theorem lowDigits_zero (count limbs : Nat) : lowDigits count limbs 0 = 0 := by
  induction limbs with
  | zero => rfl
  | succ limbs ih => rw [lowDigits, Nat.zero_mod, Nat.zero_div, ih]

/-- A number of no more digits than are looked at is kept whole. -/
theorem lowDigits_eq_self {count n : Nat} (limbs : Nat) (hcount : count ≤ 64)
    (hn : n < Nat.pow 2 count) : lowDigits count (limbs + 1) n = n := by
  have hlimb : n < 0x10000000000000000 :=
    Nat.lt_of_lt_of_le hn (Nat.pow_le_pow_right (by decide) hcount)
  rw [lowDigits, Nat.mod_eq_of_lt hn, Nat.div_eq_of_lt hlimb, lowDigits_zero, Nat.mul_zero,
    Nat.add_zero]

/-- The leading 64 digits are kept. -/
theorem leading_le_weighed (n : Nat) :
    n / Nat.pow 2 (digitsBehind n) * Nat.pow 2 (digitsBehind n) ≤ weighed n :=
  Nat.le_add_right _ _

/-- A number of at most two limbs has at most one limb of digits behind the leading 64. -/
theorem digitsBehind_le {n : Nat} (h : n < 0x100000000000000000000000000000000) :
    digitsBehind n ≤ 64 := by
  by_cases hzero : n = 0
  · simp [digitsBehind, hzero]
  · have hdigits : n.log2 < 128 := (Nat.log2_lt hzero).2 h
    simp only [digitsBehind]
    omega

/-- All digits count of a number that has at most two limbs. -/
theorem weighed_eq_self {n : Nat} (h : n < 0x100000000000000000000000000000000) :
    weighed n = n := by
  have hbehind := digitsBehind_le h
  have hwhole := Nat.div_add_mod' n (Nat.pow 2 (digitsBehind n))
  have hlow : n % Nat.pow 2 (digitsBehind n) < Nat.pow 2 (digitsBehind n) :=
    Nat.mod_lt _ (Nat.pow_pos (by decide))
  simp only [weighed]
  generalize digitsBehind n = behind at *
  rw [lowDigits_eq_self _ (Nat.mod_lt _ (by decide))]
  · exact hwhole
  · refine Nat.lt_of_lt_of_le hlow (Nat.pow_le_pow_right (by decide) ?_)
    omega

/-- An integer of at most two limbs is rounded to the nearest number. -/
theorem ofLimbs_eq_ofInt {i : Int} (h : i.natAbs < 0x100000000000000000000000000000000) :
    ofLimbs i = ofInt i := by
  rw [ofLimbs, weighed_eq_self h, Int.sign_mul_natAbs]

end MixedNumbers.Binary64
