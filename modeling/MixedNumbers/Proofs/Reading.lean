import MixedNumbers.Literal
import MixedNumbers.Proofs.Grammar

/-!
# Reading literals

The functions that check and parse a text, compared with the written forms of numbers. Read
`explains_parse` first: every outcome of parsing tells something of the text, and
`parse_of_denotes` is its converse. `isFraction_iff` and `isOperand_iff` find the texts that
pass the checks, which take another way through a text than parsing does. `parse_outcome`
puts the two side by side and says of every text which of its outcomes it has.
-/

namespace MixedNumbers

open Grammar
open scoped Computability

/-! ## Whole numbers -/

namespace Grammar

/-- The digits are the characters that the core library counts as digits. -/
theorem isDigit_iff (c : Char) : c.isDigit = true ↔ IsDigit c := by
  unfold Char.isDigit
  rw [Bool.and_eq_true, decide_eq_true_eq, decide_eq_true_eq]
  exact Iff.rfl

/-- The value of the digits is the natural number for which they stand. -/
theorem Digits.ofDigitChars_eq {text : Text} {n : Nat} (h : Digits text n) :
    Nat.ofDigitChars 10 text 0 = n := by
  -- a digit behind the others multiplies their value by ten, as the relation has it
  induction h with
  | single c _ => simp [Nat.ofDigitChars_cons]
  | append text n c _ _ ih => simp [Nat.ofDigitChars_append, Nat.ofDigitChars_cons, ih]

/-- A text of digits is read as the natural number that it stands for. -/
theorem Digits.readDigits_eq {text : Text} {n : Nat} (h : Digits text n) :
    Numeral.readDigits text = some n := by
  have hguard : (!text.isEmpty && text.all Char.isDigit) = true := by
    obtain ⟨hne, hall⟩ := h.all_digits
    rw [Bool.and_eq_true, Bool.not_eq_true', List.isEmpty_eq_false_iff, List.all_eq_true]
    exact ⟨hne, fun c hc ↦ (isDigit_iff c).2 (hall c hc)⟩
  rw [Numeral.readDigits, if_pos hguard, h.ofDigitChars_eq]

/-- The digits that are read stand for the natural number that they are read as. -/
theorem digits_of_readDigits {text : Text} {n : Nat} (h : Numeral.readDigits text = some n) :
    Digits text n := by
  have hguard : (!text.isEmpty && text.all Char.isDigit) = true := by
    by_contra hguard
    rw [Numeral.readDigits, if_neg hguard] at h
    cases h
  rw [Bool.and_eq_true, Bool.not_eq_true', List.isEmpty_eq_false_iff, List.all_eq_true] at hguard
  obtain ⟨m, hm⟩ := exists_digits hguard.1 fun c hc ↦ (isDigit_iff c).1 (hguard.2 c hc)
  obtain rfl : m = n := Option.some.inj (hm.readDigits_eq.symm.trans h)
  exact hm

/-- A whole number is read as the integer that it stands for. -/
theorem Whole.read_eq {text : Text} {n : Int} (h : Whole text n) : Numeral.read text = some n := by
  cases h with
  | unsigned _ m hm =>
      have hread : Numeral.read text = (Numeral.readDigits text).map Nat.cast := by
        unfold Numeral.read
        split
        · rename_i digits
          have hminus : IsDigit '-' := hm.all_digits.2 '-' List.mem_cons_self
          exact absurd hminus (by decide)
        · rfl
      rw [hread, hm.readDigits_eq, Option.map_some]
  | negative digits m hm =>
      simp only [Numeral.read, hm.readDigits_eq, Option.map_some]

/-- What is read as an integer is a whole number that stands for it. -/
theorem whole_of_read {text : Text} {n : Int} (h : Numeral.read text = some n) : Whole text n := by
  unfold Numeral.read at h
  split at h
  · obtain ⟨m, hm, rfl⟩ := Option.map_eq_some_iff.1 h
    exact .negative _ m (digits_of_readDigits hm)
  · obtain ⟨m, hm, rfl⟩ := Option.map_eq_some_iff.1 h
    exact .unsigned _ m (digits_of_readDigits hm)

/-- What is not read as an integer is no whole number. -/
theorem read_eq_none_iff (text : Text) : Numeral.read text = none ↔ text ∉ wholes := by
  rw [mem_wholes_iff, Option.eq_none_iff_forall_ne_some, not_exists]
  exact forall_congr' fun n ↦ not_congr ⟨whole_of_read, Whole.read_eq⟩

end Grammar

namespace Literal

/-! ## Checks -/

/-- A text is checked to be a whole number exactly when it is one. -/
theorem isWhole_iff (text : Text) : isWhole text = true ↔ text ∈ wholes := by
  rw [isWhole, Option.isSome_iff_ne_none, Ne, read_eq_none_iff, not_not]

/-- There is no `&` in a whole number. -/
theorem ampersand_not_mem_whole {text : Text} (h : text ∈ wholes) : '&' ∉ text :=
  not_mem_of_mem_wholes h (by decide) (by decide)

/-- There is no `&` in a ratio of whole numbers. -/
theorem ampersand_not_mem_ratio {numerator denominator : Text} (hnumerator : numerator ∈ wholes)
    (hdenominator : denominator ∈ wholes) : '&' ∉ numerator ++ '/' :: denominator := by
  simp [ampersand_not_mem_whole hnumerator, ampersand_not_mem_whole hdenominator]

/-- A text with a whole number in front of a `/` is cut there. -/
theorem cutAt_ratio {numerator : Text} (hnumerator : numerator ∈ wholes) (denominator : Text) :
    Text.cutAt '/' (numerator ++ '/' :: denominator) = some (numerator, denominator) :=
  Text.cutAt_append '/' numerator denominator
    (not_mem_of_mem_wholes hnumerator (by decide) (by decide))

/-- A text with a `&` is checked from its first one on: a whole number before it, and a fraction
behind it. -/
theorem isFraction_append {piece : Text} (rest : Text) (h : '&' ∉ piece) :
    isFraction (piece ++ '&' :: rest) = (isWhole piece && isFraction rest) := by
  rw [isFraction]
  split
  · rename_i whole part hcut
    rw [Text.cutAt_append '&' piece rest h] at hcut
    cases hcut
    rfl
  · rename_i hcut
    rw [Text.cutAt_append '&' piece rest h] at hcut
    cases hcut

/-- A text without `&` passes the check for fractions exactly when it is a ratio. -/
theorem isFraction_iff_of_not_mem {piece : Text} (h : '&' ∉ piece) :
    isFraction piece = true ↔ piece ∈ ratiosOver wholes := by
  have hcut := (Text.cutAt_eq_none_iff '&' piece).2 h
  rw [mem_ratiosOver_iff, isFraction]
  split
  · rename_i hsome
    rw [hcut] at hsome
    cases hsome
  · constructor
    · intro hcheck
      split at hcheck
      · cases hcheck
      · rename_i numerator denominator hstroke
        rw [Bool.and_eq_true, isWhole_iff, isWhole_iff] at hcheck
        exact ⟨numerator, hcheck.1, denominator, hcheck.2, (Text.eq_append_of_cutAt hstroke).1⟩
    · rintro ⟨numerator, hnumerator, denominator, hdenominator, rfl⟩
      rw [cutAt_ratio hnumerator]
      rw [← isWhole_iff] at hnumerator hdenominator
      exact Bool.and_eq_true_iff.2 ⟨hnumerator, hdenominator⟩

/-- A text passes the check for fractions exactly when it is one. -/
theorem isFraction_iff (text : Text) : isFraction text = true ↔ text ∈ fractions := by
  constructor
  · intro h
    induction text using Text.cut_induction '&' with
    | last piece hpiece => exact mem_joined_mul_of_mem ((isFraction_iff_of_not_mem hpiece).1 h)
    | cut piece rest hpiece ih =>
        rw [isFraction_append rest hpiece, Bool.and_eq_true, isWhole_iff] at h
        exact append_mem_joined_mul h.1 (ih h.2)
  · intro h
    refine joined_mul_induction (motive := (isFraction · = true)) ?_ ?_ text h
    · intro piece hpiece
      have hratio := hpiece
      obtain ⟨numerator, hnumerator, denominator, hdenominator, rfl⟩ :=
        (mem_ratiosOver_iff _ _).1 hpiece
      exact (isFraction_iff_of_not_mem (ampersand_not_mem_ratio hnumerator hdenominator)).2 hratio
    · intro whole hwhole part hpart
      rw [isFraction_append part (ampersand_not_mem_whole hwhole), Bool.and_eq_true]
      exact ⟨(isWhole_iff whole).2 hwhole, hpart⟩

/-- A text passes the check for operands exactly when it is one. -/
theorem isOperand_iff (text : Text) : isOperand text = true ↔ text ∈ operands := by
  rw [isOperand, Bool.or_eq_true, isWhole_iff, isFraction_iff]
  exact Iff.rfl

/-- A whole number behind joined whole numbers is not a fraction. -/
theorem isFraction_eq_false_of_mem_joined_mul {text : Text} (h : text ∈ joined * wholes) :
    isFraction text = false := by
  refine joined_mul_induction (motive := (isFraction · = false)) ?_ ?_ text h
  · intro whole hwhole
    have hratio : whole ∉ ratiosOver wholes := by
      intro hmem
      obtain ⟨numerator, -, denominator, -, rfl⟩ := (mem_ratiosOver_iff _ _).1 hmem
      exact ratio_not_mem_wholes numerator denominator hwhole
    rwa [← isFraction_iff_of_not_mem (ampersand_not_mem_whole hwhole), Bool.not_eq_true] at hratio
  · intro whole hwhole part hpart
    rw [isFraction_append part (ampersand_not_mem_whole hwhole), hpart, Bool.and_false]

/-- The texts that have a value but are no operands are those of whole numbers behind one or more
joined whole numbers. -/
theorem exists_denotes_some_and_not_mem_operands_iff (text : Text) :
    (∃ q, Denotes text (some q)) ∧ text ∉ operands ↔ text ∈ wholes * {['&']} * joined * wholes := by
  rw [exists_denotes_some_iff, mul_assoc]
  constructor
  · rintro ⟨hjoined | hfraction, hoperand⟩
    · rw [joined_mul_eq] at hjoined
      rcases hjoined with hwhole | hjoined
      · exact absurd (Or.inl hwhole) hoperand
      · exact hjoined
    · have hmem : text ∈ fractions := by
        rw [fractions_eq]
        exact Or.inr hfraction
      exact absurd (Or.inr hmem) hoperand
  · intro htext
    have hjoined : text ∈ joined * wholes := by
      rw [joined_mul_eq]
      exact Or.inr htext
    refine ⟨Or.inl hjoined, ?_⟩
    rintro (hwhole | hfraction)
    · obtain ⟨front, hfront, rest, -, rfl⟩ := Language.mem_mul.1 htext
      obtain ⟨whole, -, sign, rfl, rfl⟩ := Language.mem_mul.1 hfront
      exact ampersand_not_mem_whole hwhole (by simp)
    · have hcheck := (isFraction_iff text).2 hfraction
      rw [isFraction_eq_false_of_mem_joined_mul hjoined] at hcheck
      cases hcheck

/-! ## Parsing -/

/-- A piece is parsed as the integer that it stands for, or reported when it is no whole number. -/
theorem parseWhole_cases (piece : Text) :
    (∃ n, Whole piece n ∧ parseWhole piece = .ok n) ∨
      piece ∉ wholes ∧ parseWhole piece = .error (.unreadable piece) := by
  rw [parseWhole]
  cases hread : Numeral.read piece with
  | none => exact Or.inr ⟨(read_eq_none_iff piece).1 hread, rfl⟩
  | some n => exact Or.inl ⟨n, whole_of_read hread, rfl⟩

/-- A whole number is parsed as the integer that it stands for. -/
theorem parseWhole_eq {piece : Text} {n : Int} (h : Whole piece n) : parseWhole piece = .ok n := by
  rw [parseWhole, h.read_eq]

/-- A whole number has the value of the integer that it stands for. -/
theorem parse_whole {text : Text} {n : Int} (h : Whole text n) : parse text = .ok (n : Rat) := by
  rw [parse, h.read_eq]

/-- A text that is no whole number and has no `&` in it is parsed as a ratio. -/
theorem parse_of_not_mem {text : Text} (hwhole : text ∉ wholes) (h : '&' ∉ text) :
    parse text = parseRatio text := by
  rw [parse, (read_eq_none_iff text).2 hwhole]
  have hcut := (Text.cutAt_eq_none_iff '&' text).2 h
  split
  · rename_i hread
    cases hread
  · split
    · rfl
    · rename_i hsome
      rw [hcut] at hsome
      cases hsome

/-- A text is parsed from its first `&` on: the whole number before it, then what is behind it,
whose zero denominator is one of all the text. -/
theorem parse_append {piece : Text} (rest : Text) (h : '&' ∉ piece) :
    parse (piece ++ '&' :: rest) = do
      let w ← parseWhole piece
      let part ← (parse rest).mapError (LiteralError.within (piece ++ '&' :: rest))
      return if w < 0 then (w : Rat) - part else (w : Rat) + part := by
  have hwhole : piece ++ '&' :: rest ∉ wholes := by
    intro hmem
    exact ampersand_not_mem_whole hmem (by simp)
  rw [parse, (read_eq_none_iff _).2 hwhole]
  have hcut := Text.cutAt_append '&' piece rest h
  split
  · rename_i hread
    cases hread
  · split
    · rename_i hnone
      rw [hcut] at hnone
      cases hnone
    · rename_i whole part hsome
      rw [hcut] at hsome
      cases hsome
      rfl

/-- A whole number in front of a `&` is joined to the outcome for what is behind it. -/
theorem parse_join {whole : Text} {w : Int} (hw : Whole whole w) (rest : Text) :
    parse (whole ++ '&' :: rest) =
      match parse rest with
      | .ok part => .ok (if w < 0 then (w : Rat) - part else (w : Rat) + part)
      | .error error => .error (error.within (whole ++ '&' :: rest)) := by
  rw [parse_append rest (ampersand_not_mem_whole hw.mem_wholes), parseWhole_eq hw]
  cases parse rest <;> rfl

/-- The text of a ratio is parsed as the quotient, unless the denominator is zero. -/
theorem parse_ratio {numerator denominator : Text} {n d : Int}
    (hn : Whole numerator n) (hd : Whole denominator d) :
    parse (numerator ++ '/' :: denominator) =
      if d = 0 then .error (.zeroDenominator (numerator ++ '/' :: denominator))
      else .ok ((n : Rat) / (d : Rat)) := by
  rw [parse_of_not_mem (ratio_not_mem_wholes numerator denominator)
    (ampersand_not_mem_ratio hn.mem_wholes hd.mem_wholes), parseRatio,
    cutAt_ratio hn.mem_wholes]
  simp only [parseWhole_eq hn, parseWhole_eq hd]
  rfl

/-- A text that denotes a value is parsed as it, and one that denotes none is reported as a whole
for its zero denominator. -/
theorem parse_of_denotes {text : Text} {value : Option Rat} (h : Denotes text value) :
    parse text = value.elim (.error (.zeroDenominator text)) .ok := by
  induction h with
  | whole text n hn => exact parse_whole hn
  | ratio numerator denominator n d hn hd hne => rw [parse_ratio hn hd, if_neg hne]; rfl
  | undefined numerator denominator n hn hd => rw [parse_ratio hn hd, if_pos rfl]; rfl
  | plus whole part w value hw hsign _ ih =>
      rw [parse_join hw, ih]
      -- the zero denominator of the part becomes one of the text around it
      cases value with
      | none => rfl
      | some q => simp only [Option.elim_some, if_neg (not_lt.2 hsign), Option.map_some]
  | minus whole part w value hw hsign _ ih =>
      rw [parse_join hw, ih]
      cases value with
      | none => rfl
      | some q => simp only [Option.elim_some, if_pos hsign, Option.map_some]

/-- A text that denotes a value does not also denote none. -/
theorem not_denotes_none {text : Text} {q : Rat} (h : Denotes text (some q)) :
    ¬ Denotes text none := by
  intro hnone
  have hparse := parse_of_denotes hnone
  rw [parse_of_denotes h] at hparse
  cases hparse

/-- `Explains text outcome` says what the outcome of parsing tells of the text: the value that it
denotes, or that it denotes none and is reported as a whole, or a part of it without `&` that is
not a whole number. -/
def Explains (text : Text) : Except LiteralError Rat → Prop
  | .ok q => Denotes text (some q)
  | .error (.zeroDenominator reported) => Denotes text none ∧ reported = text
  | .error (.unreadable reported) => reported <:+: text ∧ '&' ∉ reported ∧ reported ∉ wholes

/-- What is behind a character is a part of the text. -/
theorem behind_isInfix (front : Text) (c : Char) (back : Text) : back <:+: front ++ c :: back :=
  ((List.suffix_cons c back).trans (List.suffix_append front (c :: back))).isInfix

/-- The outcome for a text without `&` that is no whole number is explained by its two sides. -/
theorem explains_parseRatio {text : Text} (hwhole : text ∉ wholes) (h : '&' ∉ text) :
    Explains text (parseRatio text) := by
  rw [parseRatio]
  split
  · exact ⟨List.infix_rfl, h, hwhole⟩
  · rename_i numerator denominator hcut
    obtain ⟨rfl, -⟩ := Text.eq_append_of_cutAt hcut
    simp only [List.mem_append, List.mem_cons, not_or] at h
    rcases parseWhole_cases numerator with ⟨n, hn, hparse⟩ | ⟨hnumerator, hparse⟩
    · rcases parseWhole_cases denominator with ⟨d, hd, hparse'⟩ | ⟨hdenominator, hparse'⟩
      · simp only [hparse, hparse']
        by_cases hzero : d = 0
        · subst hzero
          exact ⟨.undefined numerator denominator n hn hd, rfl⟩
        · show Explains _ (if d = 0 then _ else _)
          rw [if_neg hzero]
          exact .ratio numerator denominator n d hn hd hzero
      · simp only [hparse, hparse']
        exact ⟨behind_isInfix _ _ _, h.2.2, hdenominator⟩
    · simp only [hparse]
      exact ⟨(List.prefix_append _ _).isInfix, h.1, hnumerator⟩

/-- Joining a whole number to the front of a text keeps the outcome explained. -/
theorem Explains.join {whole rest : Text} {w : Int} (hw : Whole whole w)
    (h : Explains rest (parse rest)) :
    Explains (whole ++ '&' :: rest) (parse (whole ++ '&' :: rest)) := by
  rw [parse_join hw]
  cases hrest : parse rest with
  | ok part =>
      rw [hrest] at h
      rcases lt_or_ge w 0 with hsign | hsign
      · simp only [if_pos hsign]
        exact .minus whole rest w (some part) hw hsign h
      · simp only [if_neg (not_lt.2 hsign)]
        exact .plus whole rest w (some part) hw hsign h
  | error error =>
      rw [hrest] at h
      cases error with
      | unreadable reported => exact ⟨h.1.trans (behind_isInfix _ _ _), h.2⟩
      | zeroDenominator reported => exact ⟨h.1.join_none hw.mem_wholes, rfl⟩

/-- The outcome of parsing explains the text. -/
theorem explains_parse (text : Text) : Explains text (parse text) := by
  induction text using Text.cut_induction '&' with
  | last piece hpiece =>
      by_cases hwhole : piece ∈ wholes
      · obtain ⟨n, hn⟩ := (mem_wholes_iff piece).1 hwhole
        rw [parse_whole hn]
        exact .whole piece n hn
      · rw [parse_of_not_mem hwhole hpiece]
        exact explains_parseRatio hwhole hpiece
  | cut piece rest hpiece ih =>
      rcases parseWhole_cases piece with ⟨w, hw, -⟩ | ⟨hwhole, hparse⟩
      · exact ih.join hw
      · rw [parse_append rest hpiece, hparse]
        exact ⟨(List.prefix_append _ _).isInfix, hpiece, hwhole⟩

/-- Parsing gives the value that the text denotes. -/
theorem parse_eq_ok_iff (text : Text) (q : Rat) : parse text = .ok q ↔ Denotes text (some q) := by
  constructor
  · intro h
    have hexplains := explains_parse text
    rwa [h] at hexplains
  · exact parse_of_denotes

/-- A zero denominator is reported for the texts that denote no value, and with all of the text. -/
theorem parse_eq_zeroDenominator_iff (text reported : Text) :
    parse text = .error (.zeroDenominator reported) ↔ Denotes text none ∧ reported = text := by
  constructor
  · intro h
    have hexplains := explains_parse text
    rwa [h] at hexplains
  · rintro ⟨h, rfl⟩
    exact parse_of_denotes h

/-- What cannot be read is a part of the text that has no `&` in it and is not a whole number. -/
theorem reported_of_parse_eq_unreadable {text reported : Text}
    (h : parse text = .error (.unreadable reported)) :
    reported <:+: text ∧ '&' ∉ reported ∧ reported ∉ wholes := by
  have hexplains := explains_parse text
  rwa [h] at hexplains

/-- A text stands for a number or a part of it cannot be read, and not both. -/
theorem not_exists_denotes_iff (text : Text) :
    (¬ ∃ value, Denotes text value) ↔ ∃ reported, parse text = .error (.unreadable reported) := by
  constructor
  · intro h
    have hexplains := explains_parse text
    cases hparse : parse text with
    | ok q =>
        rw [hparse] at hexplains
        exact absurd ⟨some q, hexplains⟩ h
    | error error =>
        rw [hparse] at hexplains
        cases error with
        | unreadable reported => exact ⟨reported, rfl⟩
        | zeroDenominator reported => exact absurd ⟨none, hexplains.1⟩ h
  · rintro ⟨reported, hparse⟩ ⟨value, h⟩
    rw [parse_of_denotes h] at hparse
    cases value <;> cases hparse

/-- The outcomes of parsing any text. There is a value for a whole number behind any number of
joined ones, and for a ratio behind them whose denominator is not zero. A zero denominator is
reported for the other ratios, with the whole text however many whole numbers are joined to its
front. For every other text a part of it is reported that has no `&` and is not a whole number;
that does not happen to an operand. What is parsed without being an operand is a whole number
behind one or more joined ones. -/
theorem parse_outcome (text : Text) :
    ((∃ q, parse text = .ok q) ↔
      text ∈ joined * wholes + joined * ratiosOver (wholesWith (· ≠ 0))) ∧
    (∀ reported, parse text = .error (.zeroDenominator reported) ↔
      text ∈ joined * ratiosOver (wholesWith (· = 0)) ∧ reported = text) ∧
    (text ∉ joined * wholes + fractions ↔
      ∃ reported, parse text = .error (.unreadable reported)) ∧
    (∀ reported, parse text = .error (.unreadable reported) →
      reported <:+: text ∧ '&' ∉ reported ∧ reported ∉ wholes) ∧
    (isOperand text = true → ∀ reported, parse text ≠ .error (.unreadable reported)) ∧
    ((∃ q, parse text = .ok q) ∧ isOperand text = false ↔
      text ∈ wholes * {['&']} * joined * wholes) := by
  have hunreadable : text ∉ joined * wholes + fractions ↔
      ∃ reported, parse text = .error (.unreadable reported) := by
    rw [← exists_denotes_iff, not_exists_denotes_iff]
  refine ⟨?_, ?_, hunreadable, ?_, ?_, ?_⟩
  · simp only [parse_eq_ok_iff, exists_denotes_some_iff]
  · simp only [parse_eq_zeroDenominator_iff, denotes_none_iff, implies_true]
  · intro reported h
    exact reported_of_parse_eq_unreadable h
  · intro hoperand reported h
    have hdenotes := exists_denotes_of_mem_operands ((isOperand_iff text).1 hoperand)
    exact hunreadable.2 ⟨reported, h⟩ ((exists_denotes_iff text).1 hdenotes)
  · simp only [parse_eq_ok_iff, ← Bool.not_eq_true, isOperand_iff]
    exact exists_denotes_some_and_not_mem_operands_iff text

end Literal

end MixedNumbers
