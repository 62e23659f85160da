import Mathlib.Data.Nat.Fib.Basic
import MixedNumbers.Calculation
import MixedNumbers.Proofs.Tolerance

/-!
# How soon an expansion ends

Every quotient after the first is at least one, so the denominators of an expansion are not
below the Fibonacci numbers: `Grown` says so of one convergent at its place and `Turn.grown` is
the step. The part left over never exceeds one, and the test only asks it to be at most the
tolerance times the square of the denominator. So a tolerance that is not too small is reached
at a place that does not depend on the number (`Expands.length_le`), long before the rounds are
used up, and `expand_ends_at_tolerance` gives the places for the default tolerance and for one
that is far below it.
-/

namespace MixedNumbers.Convergent

open Binary64

/-- `Grown i c` says that the convergent is proper and that its denominator and the one before it
are not below the Fibonacci numbers of the place and of the one before. -/
structure Grown (i : Nat) (c : Convergent) : Prop where
  proper : Proper c
  previous : (Nat.fib i : Int) ≤ c.previousDenominator
  denominator : (Nat.fib (i + 1) : Int) ≤ c.denominator

variable {c reached start : Convergent} {tolerance x : Binary64} {i : Nat}

/-! ## One turn -/

/-- A turn goes from one Fibonacci number to the next. -/
theorem Turn.grown (h : Turn c reached) (hgrown : Grown i c) : Grown (i + 1) reached := by
  have hproper := h.proper hgrown.proper
  obtain ⟨v, -, hv, rfl⟩ := h
  refine ⟨hproper, hgrown.denominator, ?_⟩
  have hprevious := hgrown.previous
  have hdenominator := hgrown.denominator
  have hpos := hgrown.proper.denominator_pos
  have hproduct : c.denominator ≤ ⌊v⌋ * c.denominator :=
    le_mul_of_one_le_left (by omega) (Int.floor_pos.2 hv)
  show (Nat.fib (i + 2) : Int) ≤ ⌊v⌋ * c.denominator + c.previousDenominator
  rw [Nat.fib_add_two]
  omega

/-- The first convergent of a number with a value has the first Fibonacci numbers. -/
theorem grown_first {v : Rat} (hx : x.toRat? = some v) (hfirst : first x = some start) :
    Grown 0 start := by
  obtain rfl := Option.some.inj ((first_of_toRat? hx).symm.trans hfirst)
  exact ⟨proper_first hx, le_rfl, le_rfl⟩

/-- A convergent at a place whose Fibonacci number makes up for the tolerance passes the test. -/
theorem Grown.withinTolerance (h : Grown i c) {n : Int} {m : Nat}
    (htolerance : AtLeast (2 ^ n) tolerance) (hfib : 2 ^ m ≤ Nat.fib (i + 1))
    (hn : -1074 ≤ n) (hm : 0 ≤ n + m + m) : c.withinTolerance tolerance = true := by
  have hdenominator : 2 ^ m ≤ c.denominator := by
    have hpower : ((2 ^ m : Nat) : Int) ≤ Nat.fib (i + 1) := by exact_mod_cast hfib
    push_cast at hpower
    exact hpower.trans h.denominator
  exact h.proper.withinTolerance_of_le htolerance hdenominator hn hm

/-! ## Whole expansions -/

section

variable {rounds place : Nat} {expansion : Expansion}

/-- All convergents of an expansion have grown at their places. -/
theorem Expands.grown (h : Expands tolerance rounds start expansion) (hstart : Grown 0 start)
    (hc : (start :: expansion.convergents)[i]? = some c) : Grown i c := by
  have hgrown := h.at_places hstart (fun _ _ _ hplace _ hturn ↦ hturn.grown hplace) hc
  rwa [Nat.zero_add] at hgrown

/-- An expansion does not go beyond a place where every grown convergent passes the test. -/
theorem Expands.length_le (h : Expands tolerance rounds start expansion)
    (hstart : Grown 0 start)
    (hpasses : ∀ c, Grown place c → c.withinTolerance tolerance = true) :
    expansion.convergents.length ≤ place := by
  by_contra hlong
  obtain ⟨c, hc⟩ : ∃ c, (start :: expansion.convergents)[place]? = some c :=
    ⟨_, List.getElem?_eq_getElem (by rw [List.length_cons]; omega)⟩
  have hfails := h.withinTolerance_of_lt (by omega) hc
  rw [hpasses c (h.grown hstart hc)] at hfails
  cases hfails

/-- An expansion that cannot use up its rounds ends at the tolerance, unless that is too small for
the reciprocals to be finite. -/
theorem Expands.ending_of_lt (h : Expands tolerance rounds start expansion) (hstart : Grown 0 start)
    {n : Int} (htolerance : AtLeast (2 ^ n) tolerance) (hn : -1000 ≤ n)
    (hshort : expansion.convergents.length < rounds) :
    expansion.ending = .tolerance ∧ (expansion.last start).withinTolerance tolerance = true := by
  rcases h.ending_cases with ⟨-, hlength⟩ | hpasses | ⟨-, hfails, hinfinite⟩
  · omega
  · exact hpasses
  · have hlast := h.grown hstart (Expansion.getElem?_last start expansion)
    have hfinite := hlast.proper.isFinite_reciprocal htolerance hn hfails
    rw [hinfinite] at hfinite
    cases hfinite

end

/-- The value of the default tolerance. -/
theorem toRat?_defaultTolerance :
    Precision.defaultTolerance.toRat? = some (0x10c6f7a0b5ed8d / 2 ^ 72) := by
  decide +kernel

/-- The default tolerance is more than two to the -20. -/
theorem atLeast_of_default_le (h : Precision.defaultTolerance.le tolerance = true) :
    AtLeast (2 ^ (-20 : Int)) tolerance := by
  have hdefault : AtLeast (2 ^ (-20 : Int)) Precision.defaultTolerance :=
    .value _ _ toRat?_defaultTolerance (by norm_num)
  exact hdefault.of_le h

/-- With the default tolerance or a larger one at most sixteen convergents follow the first. -/
theorem Expands.length_le_sixteen {rounds : Nat} {expansion : Expansion}
    (h : Expands tolerance rounds start expansion) (hstart : Grown 0 start)
    (hdefault : Precision.defaultTolerance.le tolerance = true) :
    expansion.convergents.length ≤ 16 := by
  have htolerance := atLeast_of_default_le hdefault
  -- the Fibonacci number of the place after the sixteenth is 1597
  exact h.length_le hstart fun c hc ↦
    hc.withinTolerance (m := 10) htolerance (by decide) (by omega) (by omega)

/-- The number nearest to ten to the -25 is at least two to the -84. -/
theorem atLeast_of_tiny_le (h : (ofRat (1 / 10 ^ 25) false).le tolerance = true) :
    AtLeast (2 ^ (-84 : Int)) tolerance := by
  have htiny : AtLeast (2 ^ (-84 : Int)) (ofRat (1 / 10 ^ 25) false) :=
    atLeast_ofRat (by positivity) (rounded_zpow (by omega)) (by norm_num) false
  exact htiny.of_le h

/-- The expansion of a finite number, with any tolerance, has denominators that are not below the
Fibonacci numbers, and nowhere is more than one left over. With the default tolerance or a larger
one, infinity included, at most sixteen convergents are computed after the first. With a tolerance
of ten to the -25 or more the expansion ends because the last convergent passes the test, and not
because its rounds are used up. -/
theorem expand_ends_at_tolerance (tolerance : Binary64) {x : Binary64}
    (hx : x.isFinite = true) :
    ∃ start expansion, first x = some start ∧ expand tolerance x = some (start, expansion) ∧
      approximate tolerance x = some (expansion.last start).value ∧
      (∀ (i : Nat) (c : Convergent), (start :: expansion.convergents)[i]? = some c →
        (Nat.fib (i + 1) : Int) ≤ c.denominator ∧ ∃ r, c.remainder.toRat? = some r ∧ r ≤ 1) ∧
      (Precision.defaultTolerance.le tolerance = true → expansion.convergents.length ≤ 16) ∧
      ((ofRat (1 / 10 ^ 25) false).le tolerance = true →
        expansion.convergents.length < maxRounds ∧ expansion.ending = .tolerance ∧
          (expansion.last start).withinTolerance tolerance = true) := by
  obtain ⟨v, hv⟩ := (isFinite_iff x).1 hx
  obtain ⟨start, expansion, hfirst, hexpand, -, -, hexpands⟩ :=
    exists_expand_expands tolerance hv
  have hstart : Grown 0 start := grown_first hv hfirst
  refine ⟨start, expansion, hfirst, hexpand, ?_, ?_, ?_, ?_⟩
  · rw [approximate, hexpand]
    rfl
  · intro i c hc
    have hgrown := hexpands.grown hstart hc
    obtain ⟨r, hremainder, -, hone⟩ := hgrown.proper.exists_remainder
    exact ⟨hgrown.denominator, r, hremainder, hone⟩
  · exact hexpands.length_le_sixteen hstart
  · intro htiny
    have htolerance := atLeast_of_tiny_le htiny
    have hshort : expansion.convergents.length ≤ 63 := hexpands.length_le hstart fun c hc ↦
      hc.withinTolerance (m := 42) htolerance (by decide) (by omega) (by omega)
    have hrounds : expansion.convergents.length < maxRounds := Nat.lt_succ_of_le hshort
    exact ⟨hrounds, hexpands.ending_of_lt hstart htolerance (by omega) hrounds⟩

/-- Sixteen convergents are computed for a number whose first sixteen quotients after the floor are
one. -/
theorem expand_ends_at_tolerance_after_sixteen :
    (finite false 0x13c6eede7f7553 (-53) (by decide)).isFinite = true ∧
    ∃ start expansion,
      expand Precision.defaultTolerance (finite false 0x13c6eede7f7553 (-53) (by decide)) =
        some (start, expansion) ∧
      expansion.convergents.length = 16 ∧ expansion.ending = .tolerance ∧
      (expansion.last start).denominator = 1597 ∧
      (expansion.last start).withinTolerance Precision.defaultTolerance = true := by
  have hfinite : (finite false 0x13c6eede7f7553 (-53) (by decide)).isFinite = true := rfl
  obtain ⟨start, expansion, -, hexpand, -, -, -, hends⟩ :=
    expand_ends_at_tolerance Precision.defaultTolerance hfinite
  obtain ⟨-, hending, hpasses⟩ := hends (by decide +kernel)
  have hshape : (expand Precision.defaultTolerance
      (finite false 0x13c6eede7f7553 (-53) (by decide))).map (fun result ↦
        (result.2.convergents.length, (result.2.last result.1).denominator)) =
      some (16, 1597) := by
    decide +kernel
  rw [hexpand, Option.map_some, Option.some.injEq, Prod.mk.injEq] at hshape
  exact ⟨hfinite, start, expansion, hexpand, hshape.1, hending, hshape.2, hpasses⟩

end MixedNumbers.Convergent
