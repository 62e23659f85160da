import Mathlib.Algebra.BigOperators.Fin
import Mathlib.Algebra.Order.Field.Rat
import Mathlib.Data.Sign.Basic
import Mathlib.Tactic.Linarith
import Mathlib.Tactic.NormNum
import Mathlib.Tactic.Positivity
import Mathlib.Tactic.Ring
import MixedNumbers.Proofs.Reading

/-!
# The pieces of a fraction

A fraction is spelled by its pieces: the whole numbers joined to the front, a numerator and a
denominator. `checks_iff` says that exactly these texts pass the check for fractions, that no
fraction has two spellings, and that the operands are the whole numbers and the fractions with
no text in both. `parse_eq_signedSum` gives the value of a fraction by its pieces in closed form:
each whole number counts with the signs of all those in front of it, and so does the ratio.
-/

namespace MixedNumbers.Grammar

/-- Whole numbers joined one after the other to the front of a text. -/
def joinAll (pieces : List Text) (last : Text) : Text :=
  pieces.foldr (fun whole rest ↦ whole ++ '&' :: rest) last

/-- The pieces of a fraction, each of them the text of a whole number. -/
@[ext]
structure Spelling where
  joined : List Text
  numerator : Text
  denominator : Text
  joined_mem : ∀ whole ∈ joined, whole ∈ wholes
  numerator_mem : numerator ∈ wholes
  denominator_mem : denominator ∈ wholes

/-- The fraction that the pieces spell. -/
def Spelling.text (s : Spelling) : Text :=
  joinAll s.joined (s.numerator ++ '/' :: s.denominator)

/-! ## Texts and their spellings -/

/-- The same text is cut at its first separator in one way only. -/
theorem append_separator_inj {separator : Char} {a b c d : Text} (ha : separator ∉ a)
    (hc : separator ∉ c) (h : a ++ separator :: b = c ++ separator :: d) : a = c ∧ b = d := by
  have hcut := congrArg (Text.cutAt separator) h
  rw [Text.cutAt_append separator a b ha, Text.cutAt_append separator c d hc] at hcut
  simpa using hcut

/-- A numerator and a denominator can be told from their ratio. -/
theorem ratio_inj {n d n' d' : Text} (hn : n ∈ wholes) (hn' : n' ∈ wholes)
    (h : n ++ '/' :: d = n' ++ '/' :: d') : n = n' ∧ d = d' :=
  append_separator_inj (not_mem_of_mem_wholes hn (by decide) (by decide))
    (not_mem_of_mem_wholes hn' (by decide) (by decide)) h

/-- There is an `&` behind every whole number that is joined to the front of a text. -/
theorem ampersand_mem_joinAll_cons (piece : Text) (pieces : List Text) (last : Text) :
    '&' ∈ joinAll (piece :: pieces) last := by
  simp [joinAll]

/-- The characters of a text are still there when whole numbers are joined to its front. -/
theorem mem_joinAll (pieces : List Text) {last : Text} {c : Char} (hc : c ∈ last) :
    c ∈ joinAll pieces last := by
  induction pieces with
  | nil => exact hc
  | cons piece rest ih => exact List.mem_append_right _ (List.mem_cons_of_mem _ ih)

/-- The joined whole numbers, and the text to which they are joined, can be told from the whole if
there is no `&` in that text. -/
theorem joinAll_inj {pieces pieces' : List Text} {last last' : Text}
    (hpieces : ∀ piece ∈ pieces, '&' ∉ piece) (hpieces' : ∀ piece ∈ pieces', '&' ∉ piece)
    (hlast : '&' ∉ last) (hlast' : '&' ∉ last')
    (h : joinAll pieces last = joinAll pieces' last') : pieces = pieces' ∧ last = last' := by
  induction pieces generalizing pieces' with
  | nil =>
      cases pieces' with
      | nil => exact ⟨rfl, h⟩
      | cons piece' rest' =>
          have hmem := ampersand_mem_joinAll_cons piece' rest' last'
          rw [← h] at hmem
          exact absurd hmem hlast
  | cons piece rest ih =>
      cases pieces' with
      | nil =>
          have hmem := ampersand_mem_joinAll_cons piece rest last
          rw [h] at hmem
          exact absurd hmem hlast'
      | cons piece' rest' =>
          rw [List.forall_mem_cons] at hpieces hpieces'
          -- the first `&` of both texts stands behind the first piece
          obtain ⟨rfl, hrest⟩ := append_separator_inj hpieces.1 hpieces'.1 h
          obtain ⟨rfl, rfl⟩ := ih hpieces.2 hpieces'.2 hrest
          exact ⟨rfl, rfl⟩

namespace Spelling

/-- Different pieces spell different fractions. -/
theorem text_injective : Function.Injective text := by
  intro s s' h
  have hlast (s : Spelling) : '&' ∉ s.numerator ++ '/' :: s.denominator :=
    Literal.ampersand_not_mem_ratio s.numerator_mem s.denominator_mem
  have hpieces (s : Spelling) (piece : Text) (hpiece : piece ∈ s.joined) : '&' ∉ piece :=
    Literal.ampersand_not_mem_whole (s.joined_mem piece hpiece)
  obtain ⟨hjoined, hratio⟩ := joinAll_inj (hpieces s) (hpieces s') (hlast s) (hlast s') h
  obtain ⟨hnumerator, hdenominator⟩ := ratio_inj s.numerator_mem s'.numerator_mem hratio
  exact Spelling.ext hjoined hnumerator hdenominator

/-- The pieces of a fraction with one more whole number in front. -/
def join (whole : Text) (hwhole : whole ∈ wholes) (s : Spelling) : Spelling where
  joined := whole :: s.joined
  numerator := s.numerator
  denominator := s.denominator
  joined_mem := List.forall_mem_cons.2 ⟨hwhole, s.joined_mem⟩
  numerator_mem := s.numerator_mem
  denominator_mem := s.denominator_mem

/-- What is spelled is a fraction. -/
theorem text_mem_fractions (s : Spelling) : s.text ∈ fractions := by
  obtain ⟨pieces, numerator, denominator, hpieces, hnumerator, hdenominator⟩ := s
  show joinAll pieces (numerator ++ '/' :: denominator) ∈ fractions
  induction pieces with
  | nil =>
      exact mem_joined_mul_of_mem
        ((mem_ratiosOver_iff _ _).2 ⟨numerator, hnumerator, denominator, hdenominator, rfl⟩)
  | cons piece rest ih =>
      rw [List.forall_mem_cons] at hpieces
      exact append_mem_joined_mul hpieces.1 (ih hpieces.2)

/-- Every fraction is spelled by some pieces. -/
theorem exists_text_eq {text : Text} (h : text ∈ fractions) : ∃ s : Spelling, s.text = text := by
  refine joined_mul_induction (motive := fun text ↦ ∃ s : Spelling, s.text = text) ?_ ?_ text h
  · intro ratio hratio
    obtain ⟨numerator, hnumerator, denominator, hdenominator, rfl⟩ :=
      (mem_ratiosOver_iff _ _).1 hratio
    exact ⟨⟨[], numerator, denominator, nofun, hnumerator, hdenominator⟩, rfl⟩
  · rintro whole hwhole _ ⟨s, rfl⟩
    exact ⟨s.join whole hwhole, rfl⟩

/-- No fraction is a whole number. -/
theorem text_not_mem_wholes (s : Spelling) : s.text ∉ wholes := by
  intro h
  have hstroke : '/' ∈ s.text := mem_joinAll s.joined (by simp)
  exact not_mem_of_mem_wholes h (by decide) (by decide) hstroke

end Spelling

end MixedNumbers.Grammar

namespace MixedNumbers.Literal

open Grammar

/-- What the checks make of any text. The check for whole numbers finds the whole numbers. The check
for fractions finds what is spelled by whole numbers as pieces, and only one choice of pieces spells
the same text. No text passes both checks, and an operand is a text that passes one of them. -/
theorem checks_iff (text : Text) :
    (isWhole text = true ↔ text ∈ wholes) ∧
    (isFraction text = true ↔ ∃ s : Spelling, s.text = text) ∧
    (isFraction text = true ↔ ∃! s : Spelling, s.text = text) ∧
    ¬ (isWhole text = true ∧ isFraction text = true) ∧
    (isOperand text = true ↔ Xor (text ∈ wholes) (∃ s : Spelling, s.text = text)) := by
  have hfraction : isFraction text = true ↔ ∃ s : Spelling, s.text = text := by
    rw [isFraction_iff]
    constructor
    · exact Spelling.exists_text_eq
    · rintro ⟨s, rfl⟩
      exact s.text_mem_fractions
  have hdisjoint : ¬ (text ∈ wholes ∧ ∃ s : Spelling, s.text = text) := by
    rintro ⟨hwhole, s, rfl⟩
    exact s.text_not_mem_wholes hwhole
  refine ⟨isWhole_iff text, hfraction, hfraction.trans ⟨?_, ExistsUnique.exists⟩, ?_, ?_⟩
  · rintro ⟨s, hs⟩
    exact ⟨s, hs, fun s' hs' ↦ Spelling.text_injective (hs'.trans hs.symm)⟩
  · rwa [isWhole_iff, hfraction]
  · rw [isOperand, Bool.or_eq_true, isWhole_iff, hfraction, xor_iff_or_and_not_and]
    exact (and_iff_left hdisjoint).symm

end MixedNumbers.Literal

/-! ## Values of fractions -/

namespace MixedNumbers.Grammar

/-- What a whole number makes of the sign of the text behind it. Zero counts as positive, however it
is written. -/
def sign (w : Int) : Int :=
  if w < 0 then -1 else 1

/-- The value of whole numbers joined to the front of a text of value `q`: each of them, and then
`q`, times the signs of all whole numbers in front of it. -/
def signedSum (ws : List Int) (q : Rat) : Rat :=
  (∑ i : Fin ws.length, ((((ws.take i).map sign).prod * ws[i] : Int) : Rat)) +
    ((ws.map sign).prod : Int) * q

/-- The first whole number counts as it is, and its sign goes to everything behind it. -/
theorem signedSum_cons (w : Int) (ws : List Int) (q : Rat) :
    signedSum (w :: ws) q = w + sign w * signedSum ws q := by
  simp only [signedSum, List.length_cons, Fin.sum_univ_succ]
  simp [mul_add, Finset.mul_sum, mul_assoc, add_assoc]

/-- Whole numbers that are not negative are simply added. -/
theorem signedSum_of_nonneg {ws : List Int} (hws : ∀ w ∈ ws, 0 ≤ w) (q : Rat) :
    signedSum ws q = (ws.sum : Int) + q := by
  induction ws with
  | nil => simp [signedSum]
  | cons w ws ih =>
      rw [List.forall_mem_cons] at hws
      rw [signedSum_cons, ih hws.2, sign, if_neg (not_lt.2 hws.1), List.sum_cons]
      push_cast
      ring

/-- A whole number without a minus sign in its text is not negative. -/
theorem Whole.nonneg {text : Text} {n : Int} (h : Whole text n) (hminus : '-' ∉ text) : 0 ≤ n := by
  cases h with
  | unsigned _ m _ => exact Int.natCast_nonneg m
  | negative digits m _ => exact absurd List.mem_cons_self hminus

/-- The same of several whole numbers. -/
theorem forall_nonneg_of_whole {pieces : List Text} {ws : List Int}
    (h : List.Forall₂ Whole pieces ws) (hminus : ∀ piece ∈ pieces, '-' ∉ piece) :
    ∀ w ∈ ws, 0 ≤ w := by
  induction h with
  | nil => exact nofun
  | cons hw _ ih =>
      rw [List.forall_mem_cons] at hminus
      exact List.forall_mem_cons.2 ⟨hw.nonneg hminus.1, ih hminus.2⟩

/-- A first whole number other than zero gives its sign to the whole, and its magnitude is
increased by what is behind it when that is not negative. -/
theorem abs_add_sign_mul {w : Int} {q : Rat} (hw : w ≠ 0) (hq : 0 ≤ q) :
    |w + sign w * q| = |(w : Rat)| + q ∧
      SignType.sign (w + sign w * q) = SignType.sign (w : Rat) := by
  rcases lt_or_gt_of_ne hw with hneg | hpos
  · have hw' : (w : Rat) < 0 := by exact_mod_cast hneg
    have hsum : (w : Rat) + sign w * q = -(-w + q) := by
      rw [sign, if_pos hneg]
      push_cast
      ring
    have hpositive : 0 < -(w : Rat) + q := by linarith
    rw [hsum, abs_neg, abs_of_pos hpositive, abs_of_neg hw', sign_neg (by linarith),
      sign_neg hw']
    exact ⟨rfl, rfl⟩
  · have hw' : (0 : Rat) < w := by exact_mod_cast hpos
    have hsum : (w : Rat) + sign w * q = w + q := by
      rw [sign, if_neg (not_lt.2 hpos.le)]
      push_cast
      ring
    have hpositive : 0 < (w : Rat) + q := by linarith
    rw [hsum, abs_of_pos hpositive, abs_of_pos hw', sign_pos hpositive, sign_pos hw']
    exact ⟨rfl, rfl⟩

end MixedNumbers.Grammar

namespace MixedNumbers.Literal

open Grammar

/-- Whole numbers joined to the front of a text with a value are parsed as their signed sum. -/
theorem parse_joinAll {pieces : List Text} {ws : List Int} (h : List.Forall₂ Whole pieces ws)
    {last : Text} {q : Rat} (hlast : parse last = .ok q) :
    parse (joinAll pieces last) = .ok (signedSum ws q) := by
  induction h with
  | nil => simpa [joinAll, signedSum] using hlast
  | @cons piece w pieces ws hw _ ih =>
      show parse (piece ++ '&' :: joinAll pieces last) = _
      rw [parse_join hw, ih, signedSum_cons, sign]
      by_cases hneg : w < 0
      · simp [hneg, sub_eq_add_neg]
      · simp [hneg]

/-- A fraction whose denominator is not zero has a value in lowest terms. It is the sum of the
joined whole numbers, each times the signs of those in front of it, and of the ratio times all
their signs. If no piece but the first whole number has a minus sign, and that number is not zero,
its sign is that of the value and all magnitudes are added. -/
theorem parse_eq_signedSum {pieces : List Text} {numerator denominator : Text}
    {ws : List Int} {n d : Int} (hws : List.Forall₂ Whole pieces ws)
    (hn : Whole numerator n) (hd : Whole denominator d) (hzero : d ≠ 0) :
    ∃ q : Rat, parse (joinAll pieces (numerator ++ '/' :: denominator)) = .ok q ∧
      0 < q.den ∧ q.num.natAbs.Coprime q.den ∧
      q = signedSum ws ((n : Rat) / (d : Rat)) ∧
      ∀ w rest, ws = w :: rest → w ≠ 0 → (∀ piece ∈ pieces.tail, '-' ∉ piece) →
        '-' ∉ numerator → '-' ∉ denominator →
        |q| = |(w : Rat)| + (rest.sum : Int) + (n : Rat) / (d : Rat) ∧
          SignType.sign q = SignType.sign (w : Rat) := by
  have hratio : parse (numerator ++ '/' :: denominator) = .ok ((n : Rat) / (d : Rat)) := by
    rw [parse_ratio hn hd, if_neg hzero]
  refine ⟨_, parse_joinAll hws hratio, Rat.den_pos _, Rat.reduced _, rfl, ?_⟩
  rintro w rest rfl hw hjoined hnumerator hdenominator
  obtain ⟨piece, pieces, hpiece, hrest, rfl⟩ := List.forall₂_cons_right_iff.1 hws
  have hnonneg := forall_nonneg_of_whole hrest hjoined
  have hbehind : (0 : Rat) ≤ (rest.sum : Int) + (n : Rat) / (d : Rat) := by
    have hrest0 : 0 ≤ rest.sum := List.sum_nonneg hnonneg
    have hn0 := hn.nonneg hnumerator
    have hd0 := hd.nonneg hdenominator
    positivity
  rw [signedSum_cons, signedSum_of_nonneg hnonneg, add_assoc]
  exact abs_add_sign_mul hw hbehind

/-- Behind a negative whole number and a negative zero, a negative ratio is added again; with only
the first whole number negative, all pieces add to the magnitude. -/
theorem parse_eq_signedSum_of_signs :
    List.Forall₂ Whole ["-2".toList, "-0".toList, "1".toList] [-2, 0, 1] ∧
    Whole "-7".toList (-7) ∧ Whole "04".toList 4 ∧
    parse "-2&-0&1&-7/04".toList = .ok (-5 / 4) ∧
    List.Forall₂ Whole ["-1".toList, "02".toList] [-1, 2] ∧ Whole "3".toList 3 ∧
    ∃ q, parse "-1&02&3/04".toList = .ok q ∧ |q| = 1 + 2 + 3 / 4 ∧ SignType.sign q = -1 := by
  have hwhole (text : Text) (n : Int) (hread : Numeral.read text = some n) : Whole text n :=
    whole_of_read hread
  have hmixed : List.Forall₂ Whole ["-2".toList, "-0".toList, "1".toList] [-2, 0, 1] :=
    .cons (hwhole _ _ (by decide)) (.cons (hwhole _ _ (by decide))
      (.cons (hwhole _ _ (by decide)) .nil))
  have hplain : List.Forall₂ Whole ["-1".toList, "02".toList] [-1, 2] :=
    .cons (hwhole _ _ (by decide)) (.cons (hwhole _ _ (by decide)) .nil)
  have hseven : Whole "-7".toList (-7) := hwhole _ _ (by decide)
  have hthree : Whole "3".toList 3 := hwhole _ _ (by decide)
  have hfour : Whole "04".toList 4 := hwhole _ _ (by decide)
  obtain ⟨q, hq, -, -, hvalue, -⟩ := parse_eq_signedSum hmixed hseven hfour (by decide)
  obtain ⟨r, hr, -, -, -, hmagnitude⟩ := parse_eq_signedSum hplain hthree hfour (by decide)
  have hsum : q = -5 / 4 := by
    rw [hvalue, signedSum_cons, signedSum_cons, signedSum_cons, signedSum]
    norm_num [sign]
  obtain ⟨habs, hsign⟩ :=
    hmagnitude (-1) [2] rfl (by decide) (by decide) (by decide) (by decide)
  refine ⟨hmixed, hseven, hfour, hsum ▸ hq, hplain, hthree, r, hr, ?_, ?_⟩
  · rw [habs]
    norm_num
  · rw [hsign]
    simp

end MixedNumbers.Literal
