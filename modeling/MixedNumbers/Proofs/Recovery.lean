import MixedNumbers.Proofs.Convergent

/-!
# Recovering a fraction does not fail

A fraction is recovered from every finite number, with any tolerance, infinite or not-a-number
included. `Secure` collects what keeps a turn of the expansion from failing, and `Grows` what a turn
does to the convergent: the quotient is a positive integer and the denominator does not become
smaller. `approximate_total` says that all convergents are secure and all turns are like this. The
fraction of a whole number is this number, since its floor leaves nothing over
(`approximate_intCast`).
-/

namespace MixedNumbers.Convergent

open Binary64

/-- Nothing can fail at the convergent: its floor is finite and is converted to its value, the
remainder lies between zero and one, a finite reciprocal of the remainder can be converted, too, and
the denominator is positive. -/
structure Secure (c : Convergent) : Prop where
  floor : ∃ n : Int, c.floor.toRat? = some (n : Rat) ∧ c.floor.truncate? = some n
  remainder : ∃ r, c.remainder.toRat? = some r ∧ 0 ≤ r ∧ r ≤ 1
  next : (one.div c.remainder).isFinite = true → c.next (one.div c.remainder) ≠ none
  denominator_pos : 1 ≤ c.denominator

/-- `Grows c reached` says that the second convergent follows the first one by a positive integer,
which is the floor of the reciprocal of the remainder, and that its denominator is not smaller. -/
structure Grows (c reached : Convergent) : Prop where
  quotient : ∃ n : Int, 1 ≤ n ∧ (one.div c.remainder).floor.toRat? = some (n : Rat) ∧
    reached = c.following (one.div c.remainder) n
  denominator_le : c.denominator ≤ reached.denominator

variable {c reached : Convergent} {tolerance x : Binary64} {v : Rat}

/-! ## Turns -/

/-- A proper convergent is secure. -/
theorem Proper.secure (h : Proper c) : Secure c where
  floor := by
    obtain ⟨v, -, hfloor⟩ := h.floor
    exact ⟨⌊v⌋, hfloor, truncate?_of_toRat? hfloor⟩
  remainder := h.exists_remainder
  next hfinite := by
    obtain ⟨reached, hnext, -⟩ := h.exists_turn hfinite
    rw [hnext]
    exact Option.some_ne_none reached
  denominator_pos := h.denominator_pos

/-- A turn from a proper convergent makes it grow. -/
theorem Turn.grows (h : Turn c reached) (hproper : Proper c) : Grows c reached := by
  obtain ⟨v, hquotient, hv, rfl⟩ := h
  have hstep : 1 ≤ ⌊v⌋ := Int.floor_pos.2 hv
  exact ⟨⟨⌊v⌋, hstep, toRat?_floor hquotient, rfl⟩, hproper.denominator_le_following _ hstep⟩

/-- The turns of an expansion make its convergents grow. -/
theorem Expands.isChain_grows {rounds : Nat} {expansion : Expansion}
    (h : Expands tolerance rounds c expansion) (hproper : Proper c) :
    List.IsChain Grows (c :: expansion.convergents) := by
  induction h with
  | exhausted c | tolerance rounds c | overflow rounds c => exact .singleton c
  | turn rounds c reached rest _ hturn _ ih =>
      exact .cons_cons (hturn.grows hproper) (ih (hturn.proper hproper))

/-! ## Whole numbers -/

/-- Nothing is left over of a whole number. -/
theorem remainder_of_intCast {n : Int} (hquotient : c.quotient.toRat? = some (n : Rat))
    (hfloor : c.floor.toRat? = some (n : Rat)) : c.remainder.toRat? = some 0 := by
  rw [← Int.floor_intCast (R := Rat) n] at hfloor
  have hremainder := toRat?_remainder hquotient hfloor
  rwa [Int.floor_intCast, sub_self, rounded_zero] at hremainder

/-- There are no further convergents when nothing is left over. -/
theorem Expands.convergents_of_remainder {rounds : Nat} {expansion : Expansion}
    (h : Expands tolerance rounds c expansion) (hremainder : c.remainder.toRat? = some 0) :
    expansion.convergents = [] := by
  cases h with
  | exhausted | tolerance | overflow => rfl
  | turn rounds _ reached rest _ hturn _ =>
      -- the reciprocal of zero is not finite
      obtain ⟨v, hquotient, -⟩ := hturn
      have hfinite := isFinite_of_toRat? hquotient
      rw [isFinite_div_zero toRat?_one hremainder] at hfinite
      cases hfinite

/-- The fraction of a number that is an integer is this integer, for every tolerance. -/
theorem approximate_intCast {n : Int} (tolerance : Binary64) (hx : x.toRat? = some (n : Rat)) :
    approximate tolerance x = some (n : Rat) := by
  obtain ⟨start, expansion, hfirst, hexpand, hvalue, -, hexpands⟩ :=
    exists_expand_expands tolerance hx
  have hfloor := toRat?_floor hx
  rw [first_of_toRat? hx, Option.some.injEq] at hfirst
  rw [Int.floor_intCast] at hvalue hfloor
  subst hfirst
  have hnone := hexpands.convergents_of_remainder (remainder_of_intCast hx hfloor)
  simp only [approximate, hexpand, Option.map_some, Expansion.last, hnone, List.getLastD_nil,
    hvalue]

/-! ## Totality -/

/-- A fraction is recovered exactly from the finite numbers. -/
theorem exists_approximate_iff (tolerance x : Binary64) :
    (∃ q, approximate tolerance x = some q) ↔ x.isFinite = true := by
  cases hfinite : x.isFinite with
  | false =>
      rw [approximate, expand_of_not_finite tolerance hfinite]
      simp
  | true =>
      obtain ⟨v, hv⟩ := (isFinite_iff x).1 hfinite
      obtain ⟨start, expansion, hexpand, -⟩ := exists_expand tolerance hv
      rw [approximate, hexpand]
      simp

/-- A fraction is recovered exactly from the finite numbers, with every tolerance. The expansion of
a finite number starts with its floor over one. All of its convergents are secure and each one grows
from the one before it, so the denominators are in order and none of them is zero, that of the
recovered fraction included. The fraction of a whole number is this number. -/
theorem approximate_total (tolerance x : Binary64) :
    ((∃ q, approximate tolerance x = some q) ↔ x.isFinite = true) ∧
    (x.isFinite = true → ∃ start expansion,
      first x = some start ∧ expand tolerance x = some (start, expansion) ∧
      (∀ c ∈ start :: expansion.convergents, Secure c) ∧
      List.IsChain Grows (start :: expansion.convergents) ∧
      (expansion.last start).denominator ≠ 0 ∧
      approximate tolerance x =
        some ((expansion.last start).numerator / (expansion.last start).denominator : Rat)) ∧
    ∀ n : Int, x.toRat? = some (n : Rat) → approximate tolerance x = some (n : Rat) := by
  refine ⟨exists_approximate_iff tolerance x, fun hfinite ↦ ?_, fun n ↦
    approximate_intCast tolerance⟩
  obtain ⟨v, hv⟩ := (isFinite_iff x).1 hfinite
  obtain ⟨start, expansion, hfirst, hexpand, -, hstart, hexpands⟩ :=
    exists_expand_expands tolerance hv
  have hreached := hexpands.proper hstart
  have hlast := (hstart.last hreached).denominator_pos
  refine ⟨start, expansion, hfirst, hexpand, ?_, hexpands.isChain_grows hstart, by omega, ?_⟩
  · exact List.forall_mem_cons.2 ⟨hstart.secure, fun c hc ↦ (hreached c hc).secure⟩
  · rw [approximate, hexpand]
    rfl

/-- The floor of the greatest negative number leaves one over, because the remainder is rounded. The
expansion is secure all the same, also with a tolerance that compares with nothing. -/
theorem approximate_total_below_zero :
    (finite true 1 (-1074) (by decide)).isFinite = true ∧ ∃ start expansion,
      expand .nan (finite true 1 (-1074) (by decide)) = some (start, expansion) ∧
      start.remainder.toRat? = some 1 ∧
      (∀ c ∈ start :: expansion.convergents, Secure c) ∧
      List.IsChain Grows (start :: expansion.convergents) := by
  have hfinite : (finite true 1 (-1074) (by decide)).isFinite = true := rfl
  obtain ⟨start, expansion, hfirst, hexpand, hsecure, hgrows, -⟩ :=
    (approximate_total .nan (finite true 1 (-1074) (by decide))).2.1 hfinite
  have hremainder :
      (first (finite true 1 (-1074) (by decide))).map (fun c ↦ c.remainder.toRat?) =
        some (some 1) := by
    decide +kernel
  rw [hfirst] at hremainder
  exact ⟨hfinite, start, expansion, hexpand, Option.some.inj hremainder, hsecure, hgrows⟩

end MixedNumbers.Convergent
