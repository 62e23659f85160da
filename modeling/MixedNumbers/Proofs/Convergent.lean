import MixedNumbers.Convergent
import MixedNumbers.Proofs.Arithmetic

/-!
# What holds of every convergent

An expansion computes with rounded numbers and exact integers side by side. `Proper` is what
every convergent of it satisfies whatever the rounding does: the number being expanded is
finite and its floor is exact, the denominator is positive, and the convergent and the one
before it have determinant one or minus one. `Proper.exists_turn` is the step: the reciprocal
of a remainder is not below one, so the next quotient is a positive integer. `Expands` gives the
rules by which an expansion goes on or ends, and `exists_expand` says of whole expansions that
every finite number has one, and that all of its convergents are proper.
-/

namespace MixedNumbers.Convergent

open Binary64

/-- What the convergents of an expansion have in common. -/
structure Proper (c : Convergent) : Prop where
  floor : ∃ v : Rat, c.quotient.toRat? = some v ∧ c.floor.toRat? = some (⌊v⌋ : Rat)
  denominator_pos : 1 ≤ c.denominator
  previousDenominator_nonneg : 0 ≤ c.previousDenominator
  determinant :
    (c.numerator * c.previousDenominator - c.previousNumerator * c.denominator).natAbs = 1

variable {c : Convergent} {x : Binary64} {v : Rat}

/-! ## One step -/

/-- What an exact floor leaves over of a value lies between zero and one when it is rounded. -/
theorem rounded_sub_floor_bounds (v : Rat) :
    0 ≤ rounded (v - ⌊v⌋) ∧ rounded (v - ⌊v⌋) ≤ 1 := by
  exact ⟨rounded_nonneg (sub_nonneg.2 (Int.floor_le v)),
    rounded_le_of_eq rounded_one (sub_le_iff_le_add'.2 (Int.lt_floor_add_one v).le)⟩

/-- The remainder is what the floor leaves over, rounded. -/
theorem toRat?_remainder (hquotient : c.quotient.toRat? = some v)
    (hfloor : c.floor.toRat? = some (⌊v⌋ : Rat)) :
    c.remainder.toRat? = some (rounded (v - ⌊v⌋)) := by
  obtain ⟨zeroNegative, hremainder⟩ := sub_eq_ofRat hquotient hfloor
  obtain ⟨hlow, hhigh⟩ := rounded_sub_floor_bounds v
  have hlt : |rounded (v - ⌊v⌋)| < 2 ^ (1024 : Int) := by
    rw [abs_of_nonneg hlow]
    exact hhigh.trans_lt (one_lt_zpow₀ one_lt_two (by omega))
  rw [remainder, hremainder]
  exact toRat?_ofRat hlt zeroNegative

/-- The remainder lies between zero and one. -/
theorem Proper.exists_remainder (h : Proper c) :
    ∃ r, c.remainder.toRat? = some r ∧ 0 ≤ r ∧ r ≤ 1 := by
  obtain ⟨v, hquotient, hfloor⟩ := h.floor
  exact ⟨_, toRat?_remainder hquotient hfloor, rounded_sub_floor_bounds v⟩

/-- The value of the remainder lies between zero and one. -/
theorem Proper.remainder_bounds {r : Rat} (h : Proper c)
    (hremainder : c.remainder.toRat? = some r) : 0 ≤ r ∧ r ≤ 1 := by
  obtain ⟨other, hother, hbounds⟩ := h.exists_remainder
  rwa [Option.some.inj (hremainder.symm.trans hother)]

/-- A reciprocal of the remainder that is finite is not below one. -/
theorem Proper.exists_reciprocal (h : Proper c)
    (hfinite : (one.div c.remainder).isFinite = true) :
    ∃ v, (one.div c.remainder).toRat? = some v ∧ 1 ≤ v := by
  obtain ⟨r, hremainder, hlow, hhigh⟩ := h.exists_remainder
  rcases hlow.eq_or_lt with rfl | hpos
  · rw [isFinite_div_zero toRat?_one hremainder] at hfinite
    cases hfinite
  · obtain ⟨zeroNegative, hquotient⟩ := div_eq_ofRat toRat?_one hremainder hpos.ne'
    rw [hquotient] at hfinite ⊢
    exact ⟨_, toRat?_ofRat_of_isFinite hfinite,
      le_rounded_of_eq rounded_one ((one_le_div hpos).2 hhigh)⟩

/-- The convergent after a given one by an integer quotient. -/
def following (c : Convergent) (quotient : Binary64) (step : Int) : Convergent where
  quotient := quotient
  floor := quotient.floor
  numerator := step * c.numerator + c.previousNumerator
  denominator := step * c.denominator + c.previousDenominator
  previousNumerator := c.numerator
  previousDenominator := c.denominator

/-- A positive integer makes the denominator no smaller. -/
theorem Proper.denominator_le_following (h : Proper c) (x : Binary64) {step : Int}
    (hstep : 1 ≤ step) : c.denominator ≤ (c.following x step).denominator := by
  have hpos := h.denominator_pos
  have hprevious := h.previousDenominator_nonneg
  have hproduct : c.denominator ≤ step * c.denominator := le_mul_of_one_le_left (by omega) hstep
  show c.denominator ≤ step * c.denominator + c.previousDenominator
  omega

/-- The determinant of a convergent and the one before it only changes its sign. -/
theorem determinant_following (c : Convergent) (x : Binary64) (step : Int) :
    (c.following x step).numerator * (c.following x step).previousDenominator -
        (c.following x step).previousNumerator * (c.following x step).denominator =
      -(c.numerator * c.previousDenominator - c.previousNumerator * c.denominator) := by
  unfold Convergent.following
  ring

/-- A quotient that is not below one and a proper convergent make a proper convergent. -/
theorem Proper.following (h : Proper c) (hquotient : x.toRat? = some v) (hv : 1 ≤ v) :
    Proper (c.following x ⌊v⌋) where
  floor := ⟨v, hquotient, toRat?_floor hquotient⟩
  denominator_pos :=
    h.denominator_pos.trans (h.denominator_le_following x (Int.floor_pos.2 hv))
  previousDenominator_nonneg := by
    have hpos := h.denominator_pos
    show 0 ≤ c.denominator
    omega
  determinant := by
    rw [determinant_following, Int.natAbs_neg]
    exact h.determinant

/-- A convergent has a next one for every finite quotient. -/
theorem next_of_toRat? (c : Convergent) (hquotient : x.toRat? = some v) :
    c.next x = some (c.following x ⌊v⌋) := by
  rw [next, truncate?_of_toRat? (toRat?_floor hquotient)]
  rfl

/-- What a convergent that follows another one leaves over is exact. -/
theorem toRat?_remainder_following (c : Convergent) (hquotient : x.toRat? = some v) (hv : 1 ≤ v) :
    (c.following x ⌊v⌋).remainder.toRat? = some (v - ⌊v⌋) := by
  have hremainder : (c.following x ⌊v⌋).remainder.toRat? = _ :=
    toRat?_remainder hquotient (toRat?_floor hquotient)
  rwa [rounded_sub_floor hquotient (Or.inl (zero_le_one.trans hv))] at hremainder

/-- `Turn c reached` says that the second convergent follows the first one by the floor of the
reciprocal of what the first one left over, which is rounded and not below one. -/
def Turn (c reached : Convergent) : Prop :=
  ∃ v : Rat, (one.div c.remainder).toRat? = some v ∧ 1 ≤ v ∧
    reached = c.following (one.div c.remainder) ⌊v⌋

/-- A turn goes from a proper convergent to a proper one. -/
theorem Turn.proper {reached : Convergent} (h : Turn c reached) (hproper : Proper c) :
    Proper reached := by
  obtain ⟨v, hquotient, hv, rfl⟩ := h
  exact hproper.following hquotient hv

/-- A turn inverts what is left over, with a rounding that is not below one, and the part that is
left over next is exact. -/
theorem Turn.reciprocal {reached : Convergent} {r : Rat} (h : Turn c reached) (hproper : Proper c)
    (hremainder : c.remainder.toRat? = some r) :
    0 < r ∧ 1 ≤ rounded (1 / r) ∧
      reached = c.following (one.div c.remainder) ⌊rounded (1 / r)⌋ ∧
      reached.remainder.toRat? = some (rounded (1 / r) - ⌊rounded (1 / r)⌋) := by
  obtain ⟨v, hquotient, hv, rfl⟩ := h
  have hfinite := isFinite_of_toRat? hquotient
  have hne : r ≠ 0 := by
    rintro rfl
    rw [isFinite_div_zero toRat?_one hremainder] at hfinite
    cases hfinite
  obtain ⟨zeroNegative, hdiv⟩ := div_eq_ofRat toRat?_one hremainder hne
  rw [hdiv] at hfinite
  obtain rfl : v = rounded (1 / r) := by
    rw [hdiv, toRat?_ofRat_of_isFinite hfinite] at hquotient
    exact (Option.some.inj hquotient).symm
  exact ⟨lt_of_le_of_ne (hproper.remainder_bounds hremainder).1 hne.symm, hv, rfl,
    toRat?_remainder_following c hquotient hv⟩

/-- After a proper convergent, a finite reciprocal of the remainder gives the next one. -/
theorem Proper.exists_turn (h : Proper c) (hfinite : (one.div c.remainder).isFinite = true) :
    ∃ reached, c.next (one.div c.remainder) = some reached ∧ Turn c reached := by
  obtain ⟨v, hquotient, hv⟩ := h.exists_reciprocal hfinite
  exact ⟨_, c.next_of_toRat? hquotient, v, hquotient, hv, rfl⟩

/-! ## Whole expansions -/

/-- `Expands tolerance rounds c expansion` says that the expansion follows the convergent within
that many turns: it ends when there are no more of them, at the tolerance or at a reciprocal that is
not finite, and otherwise goes on with the convergent that a turn reaches. -/
inductive Expands (tolerance : Binary64) : Nat → Convergent → Expansion → Prop where
  | exhausted (c : Convergent) : Expands tolerance 0 c ⟨[], .exhausted⟩
  | tolerance (rounds : Nat) (c : Convergent) :
      c.withinTolerance tolerance = true → Expands tolerance (rounds + 1) c ⟨[], .tolerance⟩
  | overflow (rounds : Nat) (c : Convergent) :
      c.withinTolerance tolerance = false → (one.div c.remainder).isFinite = false →
      Expands tolerance (rounds + 1) c ⟨[], .overflow⟩
  | turn (rounds : Nat) (c reached : Convergent) (rest : Expansion) :
      c.withinTolerance tolerance = false → Turn c reached →
      Expands tolerance rounds reached rest →
      Expands tolerance (rounds + 1) c ⟨reached :: rest.convergents, rest.ending⟩

/-- A proper convergent has an expansion. -/
theorem Proper.exists_expands (h : Proper c) (tolerance : Binary64) (rounds : Nat) :
    ∃ expansion, expandFrom tolerance rounds c = some expansion ∧
      Expands tolerance rounds c expansion := by
  induction rounds generalizing c with
  | zero => exact ⟨_, rfl, .exhausted c⟩
  | succ rounds ih =>
      cases hwithin : c.withinTolerance tolerance with
      | true => exact ⟨_, by rw [expandFrom, if_pos hwithin], .tolerance rounds c hwithin⟩
      | false =>
          cases hfinite : (one.div c.remainder).isFinite with
          | true =>
              obtain ⟨reached, hnext, hturn⟩ := h.exists_turn hfinite
              obtain ⟨rest, hrest, hexpands⟩ := ih (hturn.proper h)
              refine ⟨_, ?_, .turn rounds c reached rest hwithin hturn hexpands⟩
              simp only [expandFrom, hwithin, Bool.false_eq_true, if_false, hfinite, if_true, hnext,
                hrest, Option.map_some]
          | false =>
              refine ⟨_, ?_, .overflow rounds c hwithin hfinite⟩
              simp only [expandFrom, hwithin, Bool.false_eq_true, if_false, hfinite]

section

variable {tolerance : Binary64} {rounds : Nat} {expansion : Expansion}

/-- All convergents of an expansion after a proper one are proper. -/
theorem Expands.proper (h : Expands tolerance rounds c expansion) (hproper : Proper c) :
    ∀ reached ∈ expansion.convergents, Proper reached := by
  induction h with
  | exhausted | tolerance | overflow => exact List.forall_mem_nil _
  | turn rounds c reached rest _ hturn _ ih =>
      have hreached := hturn.proper hproper
      exact List.forall_mem_cons.2 ⟨hreached, ih hreached⟩

/-- What holds of a convergent at its place, and what every turn from a convergent that does not
pass the test keeps when the place moves on by one, holds of all convergents of an expansion at
their places. -/
theorem Expands.at_places {P : Nat → Convergent → Prop} {n : Nat}
    (h : Expands tolerance rounds c expansion) (hstart : P n c)
    (hturn : ∀ place c reached, P place c → c.withinTolerance tolerance = false →
      Turn c reached → P (place + 1) reached)
    {i : Nat} {reached : Convergent} (hi : (c :: expansion.convergents)[i]? = some reached) :
    P (n + i) reached := by
  induction h generalizing n i with
  | exhausted c | tolerance rounds c | overflow rounds c =>
      cases i with
      | zero => exact Option.some.inj hi ▸ hstart
      | succ i => cases hi
  | turn rounds c next rest hfails hstep _ ih =>
      cases i with
      | zero => exact Option.some.inj hi ▸ hstart
      | succ i =>
          have hplace := ih (hturn n c next hstart hfails hstep) hi
          rwa [Nat.add_right_comm, Nat.add_assoc] at hplace

/-- A convergent that another one follows does not pass the test. -/
theorem Expands.withinTolerance_of_lt (h : Expands tolerance rounds c expansion)
    {i : Nat} (hlt : i < expansion.convergents.length) {reached : Convergent}
    (hi : (c :: expansion.convergents)[i]? = some reached) :
    reached.withinTolerance tolerance = false := by
  induction h generalizing i with
  | exhausted | tolerance | overflow => exact absurd hlt (Nat.not_lt_zero i)
  | turn rounds c next rest hfails _ _ ih =>
      cases i with
      | zero => exact Option.some.inj hi ▸ hfails
      | succ i => exact ih (Nat.lt_of_succ_lt_succ hlt) hi

/-- The place of the last convergent of an expansion. -/
theorem Expansion.getElem?_last (start : Convergent) (expansion : Expansion) :
    (start :: expansion.convergents)[expansion.convergents.length]? =
      some (expansion.last start) := by
  rw [Expansion.last]
  rcases List.eq_nil_or_concat' expansion.convergents with hnil | ⟨front, reached, hconcat⟩
  · rw [hnil]
    rfl
  · rw [hconcat, List.getLastD_concat]
    simp

/-- The ways in which an expansion ends: all rounds are used up, or the last convergent passes the
test, or it does not and the reciprocal of what it leaves over is not finite. -/
theorem Expands.ending_cases (h : Expands tolerance rounds c expansion) :
    (expansion.ending = .exhausted ∧ expansion.convergents.length = rounds) ∨
    (expansion.ending = .tolerance ∧
      (expansion.last c).withinTolerance tolerance = true) ∨
    (expansion.ending = .overflow ∧ (expansion.last c).withinTolerance tolerance = false ∧
      (one.div (expansion.last c).remainder).isFinite = false) := by
  induction h with
  | exhausted c => exact Or.inl ⟨rfl, rfl⟩
  | tolerance rounds c hpasses => exact Or.inr (Or.inl ⟨rfl, hpasses⟩)
  | overflow rounds c hfails hfinite => exact Or.inr (Or.inr ⟨rfl, hfails, hfinite⟩)
  | turn rounds c next rest _ _ _ ih =>
      have hlast : Expansion.last c ⟨next :: rest.convergents, rest.ending⟩ = rest.last next :=
        List.getLastD_cons ..
      rw [hlast]
      exact ih.imp_left fun hend ↦ ⟨hend.1, congrArg (· + 1) hend.2⟩

/-- What holds of a convergent, and what every turn keeps, holds of the last convergent. -/
theorem Expands.last_induction {P : Convergent → Prop} (h : Expands tolerance rounds c expansion)
    (hstart : P c) (hturn : ∀ c reached, P c → Turn c reached → P reached) :
    P (expansion.last c) :=
  h.at_places (P := fun _ c ↦ P c) (n := 0) hstart (fun _ c reached hc _ ↦ hturn c reached hc)
    (Expansion.getElem?_last c expansion)

/-- An expansion ends at once with a convergent that passes the test. -/
theorem Expands.last_of_withinTolerance (h : Expands tolerance (rounds + 1) c expansion)
    (hpasses : c.withinTolerance tolerance = true) : expansion.last c = c := by
  cases h with
  | tolerance => rfl
  | overflow => rfl
  | turn _ _ next rest hfails =>
      rw [hpasses] at hfails
      cases hfails

/-- An expansion goes on with a turn from a convergent that does not pass the test, if the
reciprocal of what it leaves over is finite. -/
theorem Expands.exists_turn (h : Expands tolerance (rounds + 1) c expansion)
    (hfails : c.withinTolerance tolerance = false)
    (hfinite : (one.div c.remainder).isFinite = true) :
    ∃ reached rest, Turn c reached ∧ Expands tolerance rounds reached rest ∧
      expansion.last c = rest.last reached := by
  cases h with
  | tolerance _ _ hpasses =>
      rw [hfails] at hpasses
      cases hpasses
  | overflow _ _ _ hinfinite =>
      rw [hfinite] at hinfinite
      cases hinfinite
  | turn _ _ reached rest _ hturn hrest =>
      exact ⟨reached, rest, hturn, hrest, List.getLastD_cons ..⟩

end

/-- The first convergent of a number with a value. -/
theorem first_of_toRat? (hx : x.toRat? = some v) : first x = some ⟨x, x.floor, ⌊v⌋, 1, 1, 0⟩ := by
  rw [first, truncate?_of_toRat? (toRat?_floor hx)]
  rfl

/-- The first convergent of a number is proper. -/
theorem proper_first (hx : x.toRat? = some v) : Proper ⟨x, x.floor, ⌊v⌋, 1, 1, 0⟩ :=
  ⟨⟨v, hx, toRat?_floor hx⟩, le_rfl, le_rfl, by simp⟩

/-- A number with a value has a first convergent, its floor, which is proper. -/
theorem exists_first (hx : x.toRat? = some v) :
    ∃ start, first x = some start ∧ Proper start ∧ start.value = ⌊v⌋ := by
  refine ⟨_, first_of_toRat? hx, proper_first hx, ?_⟩
  rw [value, Int.cast_one, div_one]

/-- A number with a value has an expansion, which follows its first convergent. -/
theorem exists_expand_expands (tolerance : Binary64) (hx : x.toRat? = some v) :
    ∃ start expansion, first x = some start ∧ expand tolerance x = some (start, expansion) ∧
      start.value = ⌊v⌋ ∧ Proper start ∧ Expands tolerance maxRounds start expansion := by
  obtain ⟨start, hfirst, hproper, hvalue⟩ := exists_first hx
  obtain ⟨expansion, hexpansion, hexpands⟩ := hproper.exists_expands tolerance maxRounds
  refine ⟨start, expansion, hfirst, ?_, hvalue, hproper, hexpands⟩
  rw [expand, if_pos (isFinite_of_toRat? hx), hfirst]
  simp only [hexpansion, Option.map_some]

/-- A number with a value has an expansion, which starts from the floor and has only proper
convergents. -/
theorem exists_expand (tolerance : Binary64) (hx : x.toRat? = some v) :
    ∃ start expansion, expand tolerance x = some (start, expansion) ∧
      start.value = ⌊v⌋ ∧ Proper start ∧ ∀ reached ∈ expansion.convergents, Proper reached := by
  obtain ⟨start, expansion, -, hexpand, hvalue, hproper, hexpands⟩ :=
    exists_expand_expands tolerance hx
  exact ⟨start, expansion, hexpand, hvalue, hproper, hexpands.proper hproper⟩

/-- A number that is not finite has no expansion. -/
theorem expand_of_not_finite (tolerance : Binary64) (hx : x.isFinite = false) :
    expand tolerance x = none := by
  rw [expand, hx]
  rfl

/-- The last convergent of an expansion is proper when all of them are. -/
theorem Proper.last {start : Convergent} {expansion : Expansion} (hstart : Proper start)
    (hreached : ∀ reached ∈ expansion.convergents, Proper reached) :
    Proper (expansion.last start) := by
  rw [Expansion.last]
  rcases List.eq_nil_or_concat' expansion.convergents with hnil | ⟨front, reached, hconcat⟩
  · rw [hnil]
    exact hstart
  · rw [hconcat, List.getLastD_concat]
    exact hreached reached (by simp [hconcat])

/-- A proper convergent is in lowest terms. -/
theorem Proper.gcd_eq_one (h : Proper c) : Int.gcd c.numerator c.denominator = 1 := by
  have hdvd : (Int.gcd c.numerator c.denominator : Int) ∣
      c.numerator * c.previousDenominator - c.previousNumerator * c.denominator :=
    dvd_sub (Dvd.dvd.mul_right (Int.gcd_dvd_left ..) _) (Dvd.dvd.mul_left (Int.gcd_dvd_right ..) _)
  have hunit := Int.natAbs_dvd_natAbs.2 hdvd
  rw [h.determinant, Int.natAbs_natCast, Nat.dvd_one] at hunit
  exact hunit

end MixedNumbers.Convergent
