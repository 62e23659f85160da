import Mathlib.Tactic.FieldSimp
import MixedNumbers.Proofs.Convergent

/-!
# Convergents as continued fractions

`continuedFraction` is the value of a finite continued fraction, taken from its last quotient back
to its first. An expansion goes the other way: it keeps two numerators and two denominators and
multiplies each new quotient into them. What joins the two directions is `continued`, the value of
the continued fraction that goes on from a convergent with some part left over. `Builds` says that
this is the value of the quotients up to the convergent with that part added to the last one, and
that the determinant of the convergent and the one before it has the sign of its place;
`Turn.builds` is the step. `expand_eq_continuedFraction` says of whole expansions that every convergent is the
continued fraction of the floors up to its place, in lowest terms.
-/

namespace MixedNumbers

/-- The finite continued fraction of some quotients and a last one behind them. -/
def continuedFraction : List Int → Rat → Rat
  | [], last => last
  | a :: rest, last => a + 1 / continuedFraction rest last

/-- A quotient in front of the last one takes over its reciprocal. -/
theorem continuedFraction_concat (front : List Int) (a : Int) (last : Rat) :
    continuedFraction (front ++ [a]) last = continuedFraction front (a + 1 / last) := by
  induction front with
  | nil => rfl
  | cons b rest ih => rw [List.cons_append, continuedFraction, continuedFraction, ih]

namespace Convergent

open Binary64

/-- The value of the continued fraction that goes on from a convergent with a part left over. -/
def continued (c : Convergent) (r : Rat) : Rat :=
  (c.numerator + r * c.previousNumerator) / (c.denominator + r * c.previousDenominator)

variable {c reached start : Convergent} {tolerance x : Binary64} {r s v : Rat} {a n : Int}
  {front : List Int}

/-! ## Going on from a convergent -/

/-- With nothing left over the value is that of the convergent. -/
theorem continued_zero (c : Convergent) : c.continued 0 = c.value := by
  unfold continued value
  rw [zero_mul, zero_mul, add_zero, add_zero]

/-- A convergent that follows by some quotient goes on like the one before it with the reciprocal of
this quotient and the part left over. -/
theorem continued_following (c : Convergent) (x : Binary64) (hne : (n : Rat) + r ≠ 0) :
    (c.following x n).continued r = c.continued (1 / (n + r)) := by
  unfold continued following
  push_cast
  rw [← mul_div_mul_left (c.numerator + 1 / (n + r) * c.previousNumerator : Rat)
    (c.denominator + 1 / (n + r) * c.previousDenominator) hne]
  congr 1
  · field_simp
    ring
  · field_simp
    ring

/-- The denominator of the value is not below that of the convergent. -/
theorem Proper.denominator_le_continued (h : Proper c) (hr : 0 ≤ r) :
    (c.denominator : Rat) ≤ c.denominator + r * c.previousDenominator := by
  have hprevious : (0 : Rat) ≤ c.previousDenominator := by
    exact_mod_cast h.previousDenominator_nonneg
  exact le_add_of_nonneg_right (mul_nonneg hr hprevious)

/-- How far two parts left over move the value apart. -/
theorem Proper.abs_continued_sub (h : Proper c) (hr : 0 ≤ r) (hs : 0 ≤ s) :
    |c.continued r - c.continued s| =
      |r - s| / ((c.denominator + r * c.previousDenominator) *
        (c.denominator + s * c.previousDenominator)) := by
  have hk : (0 : Rat) < c.denominator := by exact_mod_cast h.denominator_pos
  have hleft := hk.trans_le (h.denominator_le_continued hr)
  have hright := hk.trans_le (h.denominator_le_continued hs)
  have hdeterminant :
      |(c.numerator * c.previousDenominator - c.previousNumerator * c.denominator : Rat)| = 1 := by
    have hnatAbs := h.determinant
    rw [← Int.natCast_inj, Int.natCast_natAbs] at hnatAbs
    exact_mod_cast hnatAbs
  unfold continued
  rw [div_sub_div _ _ hleft.ne' hright.ne', abs_div, abs_of_pos (mul_pos hleft hright)]
  congr 1
  calc _ = |(s - r) * (c.numerator * c.previousDenominator -
        c.previousNumerator * c.denominator : Rat)| := by
        congr 1
        ring
    _ = |r - s| := by rw [abs_mul, hdeterminant, mul_one, abs_sub_comm]

/-- How far a part left over moves the value away from that of the convergent. -/
theorem Proper.abs_continued_sub_value (h : Proper c) (hr : 0 ≤ r) :
    |c.continued r - c.value| =
      r / ((c.denominator + r * c.previousDenominator) * c.denominator) := by
  rw [← continued_zero, h.abs_continued_sub hr le_rfl, sub_zero, abs_of_nonneg hr, zero_mul,
    add_zero]

/-- How far the value of a convergent is from where the next one goes on. -/
theorem Turn.abs_continued_sub_value (h : Turn c reached) (hproper : Proper c) (hr : 0 ≤ r) :
    |reached.continued r - c.value| =
      1 / ((reached.denominator + r * c.denominator) * c.denominator) := by
  obtain ⟨v, -, hv, rfl⟩ := h
  have hk : (0 : Rat) < c.denominator := by exact_mod_cast hproper.denominator_pos
  have hk' : (0 : Rat) ≤ c.previousDenominator := by
    exact_mod_cast hproper.previousDenominator_nonneg
  have hn : (1 : Rat) ≤ ⌊v⌋ := by exact_mod_cast Int.floor_pos.2 hv
  have hquotient : (0 : Rat) < ⌊v⌋ + r := by linarith
  have hreciprocal : (0 : Rat) ≤ 1 / (⌊v⌋ + r) := by positivity
  rw [continued_following c _ hquotient.ne', hproper.abs_continued_sub_value hreciprocal]
  have hdenominator : ((c.following (one.div c.remainder) ⌊v⌋).denominator : Rat) =
      ⌊v⌋ * c.denominator + c.previousDenominator := by
    unfold following
    push_cast
    rfl
  rw [hdenominator, div_eq_div_iff (by positivity) (by positivity)]
  field_simp
  ring

/-! ## Lowest terms -/

/-- The value of a proper convergent has its numerator and its denominator. -/
theorem Proper.num_den_value (h : Proper c) :
    c.value.num = c.numerator ∧ (c.value.den : Int) = c.denominator := by
  have hcoprime : Nat.Coprime c.numerator.natAbs c.denominator.natAbs := h.gcd_eq_one
  exact ⟨Rat.num_div_eq_of_coprime h.denominator_pos hcoprime,
    Rat.den_div_eq_of_coprime h.denominator_pos hcoprime⟩

/-! ## Quotients -/

/-- `Builds front a c` says that the convergent has the floor `a` and goes on like the continued
fraction with the given quotients in front of this one, and that the sign of its determinant is that
of its place. -/
structure Builds (front : List Int) (a : Int) (c : Convergent) : Prop where
  proper : Proper c
  floor : c.floor.truncate? = some a
  determinant : c.numerator * c.previousDenominator - c.previousNumerator * c.denominator =
    (-1) ^ (front.length + 1)
  continued : ∀ r, 0 ≤ r → c.continued r = continuedFraction front (a + r)

/-- A convergent is the continued fraction of the quotients that build it. -/
theorem Builds.value_eq (h : Builds front a c) : c.value = continuedFraction front a := by
  rw [← continued_zero, h.continued 0 le_rfl, add_zero]

/-- The first convergent of a number has its floor as the only quotient. -/
theorem builds_first (hx : x.toRat? = some v) (hfirst : first x = some start) :
    Builds [] ⌊v⌋ start := by
  obtain rfl := Option.some.inj ((first_of_toRat? hx).symm.trans hfirst)
  refine ⟨proper_first hx, truncate?_of_toRat? (toRat?_floor hx), ?_, fun r _ ↦ ?_⟩
  · show ⌊v⌋ * 0 - 1 * 1 = (-1) ^ (0 + 1)
    ring
  · unfold continued continuedFraction
    push_cast
    ring

/-- A turn puts a positive quotient behind those that build the convergent. -/
theorem Turn.builds (h : Turn c reached) (hc : Builds front a c) :
    ∃ b, 1 ≤ b ∧ Builds (front ++ [a]) b reached := by
  have hproper := h.proper hc.proper
  obtain ⟨v, hquotient, hv, rfl⟩ := h
  have hstep : 1 ≤ ⌊v⌋ := Int.floor_pos.2 hv
  refine ⟨⌊v⌋, hstep, hproper, truncate?_of_toRat? (toRat?_floor hquotient), ?_, fun r hr ↦ ?_⟩
  · rw [determinant_following, hc.determinant, List.length_append, List.length_singleton,
      pow_succ _ (front.length + 1), mul_neg_one]
  · -- the new quotient with what is behind it stands where the part left over stood before
    have hpos : (0 : Rat) < ⌊v⌋ + r :=
      add_pos_of_pos_of_nonneg (by exact_mod_cast hstep) hr
    rw [continued_following c _ hpos.ne', hc.continued _ (by positivity),
      continuedFraction_concat]

/-- The floors of an expansion build its convergents, each from the floors up to its place, and all
but the first are positive. -/
theorem Expands.exists_quotients {rounds : Nat} {expansion : Expansion}
    (h : Expands tolerance rounds c expansion) (hc : Builds front a c) :
    ∃ rest : List Int, expansion.convergents.map (fun c ↦ c.floor.truncate?) = rest.map some ∧
      (∀ b ∈ rest, 1 ≤ b) ∧
      ∀ (i : Nat) (reached : Convergent), (c :: expansion.convergents)[i]? = some reached →
        ∃ b, (a :: rest)[i]? = some b ∧ Builds (front ++ (a :: rest).take i) b reached := by
  -- the quotients in front grow with every turn
  induction h generalizing front a with
  | exhausted c | tolerance rounds c | overflow rounds c =>
      refine ⟨[], rfl, List.forall_mem_nil _, fun i reached hi ↦ ?_⟩
      cases i with
      | zero =>
          obtain rfl := Option.some.inj hi
          exact ⟨a, rfl, by rwa [List.take_zero, List.append_nil]⟩
      | succ i => cases hi
  | turn rounds c next rest _ hturn _ ih =>
      obtain ⟨b, hb, hnext⟩ := hturn.builds hc
      obtain ⟨behind, hfloors, hpositive, hbuilds⟩ := ih hnext
      refine ⟨b :: behind, congrArg₂ List.cons hnext.floor hfloors,
        List.forall_mem_cons.2 ⟨hb, hpositive⟩, fun i reached hi ↦ ?_⟩
      cases i with
      | zero =>
          obtain rfl := Option.some.inj hi
          exact ⟨a, rfl, by rwa [List.take_zero, List.append_nil]⟩
      | succ i =>
          have hplace := hbuilds i reached hi
          rwa [List.append_assoc, List.singleton_append] at hplace

/-! ## Whole expansions -/

/-- `Successive c reached` says that the second convergent follows the first one, which it keeps as
the one before, and that the two are as far apart as one over both denominators. -/
structure Successive (c reached : Convergent) : Prop where
  turn : Turn c reached
  previousNumerator : reached.previousNumerator = c.numerator
  previousDenominator : reached.previousDenominator = c.denominator
  distance : |reached.value - c.value| = 1 / (reached.denominator * c.denominator : Rat)

/-- A turn goes to a successive convergent. -/
theorem Turn.successive (h : Turn c reached) (hproper : Proper c) : Successive c reached := by
  have hdistance := h.abs_continued_sub_value hproper le_rfl
  rw [continued_zero, zero_mul, add_zero] at hdistance
  have hturn := h
  obtain ⟨v, -, -, rfl⟩ := h
  exact ⟨hturn, rfl, rfl, hdistance⟩

/-- Neighbours in an expansion are successive. -/
theorem Expands.isChain_successive {rounds : Nat} {expansion : Expansion}
    (h : Expands tolerance rounds c expansion) (hproper : Proper c) :
    List.IsChain Successive (c :: expansion.convergents) := by
  induction h with
  | exhausted c | tolerance rounds c | overflow rounds c => exact .singleton c
  | turn rounds c reached rest _ hturn _ ih =>
      exact .cons_cons (hturn.successive hproper) (ih (hturn.proper hproper))

/-- A number with a value has an expansion with any tolerance. Its quotients are the floors of the
convergents: the floor of the value and then positive integers. The convergent at each place is the
continued fraction of the quotients up to there, its determinant with the one before is one with the
sign of the place, and it is in lowest terms. Successive convergents are as far apart as one over
both denominators. So the recovered fraction has the numerator and the denominator of the last
convergent. -/
theorem expand_eq_continuedFraction (tolerance : Binary64) {x : Binary64} {v : Rat}
    (hx : x.toRat? = some v) :
    ∃ start expansion, ∃ rest : List Int,
      first x = some start ∧ expand tolerance x = some (start, expansion) ∧
      (start :: expansion.convergents).map (fun c ↦ c.floor.truncate?) =
        (⌊v⌋ :: rest).map some ∧
      (∀ b ∈ rest, 1 ≤ b) ∧
      (∀ (i : Nat) (c : Convergent), (start :: expansion.convergents)[i]? = some c →
        c.numerator * c.previousDenominator - c.previousNumerator * c.denominator =
          (-1) ^ (i + 1) ∧
        Int.gcd c.numerator c.denominator = 1 ∧
        ∃ a, (⌊v⌋ :: rest)[i]? = some a ∧
          c.value = continuedFraction ((⌊v⌋ :: rest).take i) a) ∧
      List.IsChain Successive (start :: expansion.convergents) ∧
      ∃ q, approximate tolerance x = some q ∧ q.num = (expansion.last start).numerator ∧
        (q.den : Int) = (expansion.last start).denominator := by
  obtain ⟨start, expansion, hfirst, hexpand, -, hstart, hexpands⟩ :=
    exists_expand_expands tolerance hx
  have hbuilds := builds_first hx hfirst
  obtain ⟨rest, hfloors, hpositive, hplaces⟩ := hexpands.exists_quotients hbuilds
  have hlast : Proper (expansion.last start) := hstart.last (hexpands.proper hstart)
  refine ⟨start, expansion, rest, hfirst, hexpand, congrArg₂ List.cons hbuilds.floor hfloors,
    hpositive, fun i c hi ↦ ?_, hexpands.isChain_successive hstart, (expansion.last start).value,
    ?_, hlast.num_den_value⟩
  · obtain ⟨a, ha, hc⟩ := hplaces i c hi
    rw [List.nil_append] at hc
    have hplace : ((⌊v⌋ :: rest).take i).length = i := by
      have hlt := (List.getElem?_eq_some_iff.1 ha).1
      rw [List.length_take]
      omega
    have hdeterminant := hc.determinant
    rw [hplace] at hdeterminant
    exact ⟨hdeterminant, hc.proper.gcd_eq_one, a, ha, hc.value_eq⟩
  · rw [approximate, hexpand]
    rfl

/-- The number nearest to -415/93 is expanded with the quotients of this fraction, of which only the
first is negative. -/
theorem expand_eq_continuedFraction_near_minus_four :
    (ofRat (-415 / 93) false).toRat? = some (-0x11d9765d9765d9 / 2 ^ 50) ∧
    ∃ start expansion q,
      expand (ofRat (1 / 1000000) false) (ofRat (-415 / 93) false) = some (start, expansion) ∧
      expansion.convergents.length = 4 ∧
      (expansion.last start).value = continuedFraction [-5, 1, 1, 6] 7 ∧
      (expansion.last start).numerator * (expansion.last start).previousDenominator -
        (expansion.last start).previousNumerator * (expansion.last start).denominator = -1 ∧
      approximate (ofRat (1 / 1000000) false) (ofRat (-415 / 93) false) = some q ∧
      q.num = (expansion.last start).numerator ∧
      (q.den : Int) = (expansion.last start).denominator := by
  have hx : (ofRat (-415 / 93) false).toRat? = some (-0x11d9765d9765d9 / 2 ^ 50) := by
    decide +kernel
  obtain ⟨start, expansion, rest, -, hexpand, hquotients, -, hplaces, -, q, hq, hnum, hden⟩ :=
    expand_eq_continuedFraction (ofRat (1 / 1000000) false) hx
  have hfloors : (expand (ofRat (1 / 1000000) false) (ofRat (-415 / 93) false)).map (fun result ↦
      (result.1 :: result.2.convergents).map fun c ↦ c.floor.truncate?) =
        some ([-5, 1, 1, 6, 7].map some) := by
    decide +kernel
  rw [hexpand, Option.map_some, Option.some.injEq] at hfloors
  have hrest := List.map_injective_iff.2 (Option.some_injective Int) (hquotients.symm.trans hfloors)
  have hlength : expansion.convergents.length = 4 := by
    simpa using congrArg List.length hfloors
  have hlast := Expansion.getElem?_last start expansion
  rw [hlength] at hlast
  obtain ⟨hdeterminant, -, a, ha, hvalue⟩ := hplaces 4 _ hlast
  rw [hrest] at ha hvalue
  obtain rfl := Option.some.inj ha
  exact ⟨hx, start, expansion, q, hexpand, hlength, hvalue, hdeterminant, hq, hnum, hden⟩

end Convergent

end MixedNumbers
