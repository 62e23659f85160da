import Mathlib.Computability.Language
import MixedNumbers.Text.Basic

/-!
# The written forms of numbers

The texts that stand for numbers as formal languages, and the numbers that they stand for as
relations. Both are given by their rules alone: nothing here refers to the functions that
check or read a text. `mem_wholes_iff` and `exists_denotes_iff` say that a text belongs to
one of the languages exactly when a rule gives it a meaning, and `denotes_none_iff` finds
the zero denominators.
-/

namespace MixedNumbers.Grammar

open scoped Computability

/-! ## Languages -/

/-- The character is one of the ten digits. -/
def IsDigit (c : Char) : Prop :=
  '0' ≤ c ∧ c ≤ '9'

/-- Being a digit is decided by two comparisons of characters. -/
instance (c : Char) : Decidable (IsDigit c) :=
  inferInstanceAs (Decidable (_ ∧ _))

/-- The texts of a single digit. -/
def digits : Language Char :=
  {text | ∃ c, IsDigit c ∧ text = [c]}

/-- The texts of whole numbers: one or more digits, which may have a minus sign in front. -/
def wholes : Language Char :=
  (1 + {['-']}) * (digits * digits∗)

/-- Any number of whole numbers with an `&` behind each. -/
def joined : Language Char :=
  (wholes * {['&']})∗

/-- The texts of a whole number and a text of another language with a `/` between them. -/
def ratiosOver (denominators : Language Char) : Language Char :=
  wholes * {['/']} * denominators

/-- The texts of ratios, which may stand behind whole numbers joined by `&`. -/
def fractions : Language Char :=
  joined * ratiosOver wholes

/-- The texts of operands: whole numbers and fractions. -/
def operands : Language Char :=
  wholes + fractions

/-! ## Meanings -/

/-- `Digits text n` says that the digits of the text are those of `n` in decimal notation, possibly
behind zeros. -/
inductive Digits : Text → Nat → Prop where
  | single (c : Char) : IsDigit c → Digits [c] (c.toNat - '0'.toNat)
  | append (text : Text) (n : Nat) (c : Char) :
      Digits text n → IsDigit c → Digits (text ++ [c]) (10 * n + (c.toNat - '0'.toNat))

/-- `Whole text n` says that the text stands for the integer `n`. -/
inductive Whole : Text → Int → Prop where
  | unsigned (text : Text) (n : Nat) : Digits text n → Whole text n
  | negative (text : Text) (n : Nat) : Digits text n → Whole ('-' :: text) (-n)

/-- `Denotes text value` says that the text stands for a number and that this is its value, which
is `none` for a ratio over zero and for what is joined to one. A whole number is joined to the
part behind it by addition, or by subtraction when it is negative. -/
inductive Denotes : Text → Option Rat → Prop where
  | whole (text : Text) (n : Int) : Whole text n → Denotes text (some n)
  | ratio (numerator denominator : Text) (n d : Int) :
      Whole numerator n → Whole denominator d → d ≠ 0 →
      Denotes (numerator ++ '/' :: denominator) (some (n / d))
  | undefined (numerator denominator : Text) (n : Int) :
      Whole numerator n → Whole denominator 0 →
      Denotes (numerator ++ '/' :: denominator) none
  | plus (whole part : Text) (w : Int) (value : Option Rat) :
      Whole whole w → 0 ≤ w → Denotes part value →
      Denotes (whole ++ '&' :: part) (value.map fun q ↦ w + q)
  | minus (whole part : Text) (w : Int) (value : Option Rat) :
      Whole whole w → w < 0 → Denotes part value →
      Denotes (whole ++ '&' :: part) (value.map fun q ↦ w - q)

/-- The texts of the whole numbers with a property. -/
def wholesWith (property : Int → Prop) : Language Char :=
  {text | ∃ n, Whole text n ∧ property n}

/-! ## Membership -/

/-- Runs of digits are the texts without any other character. -/
theorem mem_digits_kstar_iff (text : Text) : text ∈ digits∗ ↔ ∀ c ∈ text, IsDigit c := by
  rw [Language.mem_kstar]
  constructor
  · rintro ⟨blocks, rfl, hblocks⟩ c hc
    obtain ⟨block, hblock, hmem⟩ := List.mem_flatten.1 hc
    obtain ⟨d, hd, rfl⟩ := hblocks block hblock
    rwa [List.mem_singleton.1 hmem]
  · intro htext
    refine ⟨text.map fun c ↦ [c], (List.flatMap_singleton' text).symm, ?_⟩
    intro block hblock
    obtain ⟨c, hc, rfl⟩ := List.mem_map.1 hblock
    exact ⟨c, htext c hc, rfl⟩

/-- Texts of one or more digits are the non-empty ones without any other character. -/
theorem mem_digits_mul_kstar_iff (text : Text) :
    text ∈ digits * digits∗ ↔ text ≠ [] ∧ ∀ c ∈ text, IsDigit c := by
  rw [Language.mem_mul]
  constructor
  · rintro ⟨first, ⟨c, hc, rfl⟩, rest, hrest, rfl⟩
    rw [mem_digits_kstar_iff] at hrest
    exact ⟨by simp, List.forall_mem_cons.2 ⟨hc, hrest⟩⟩
  · rintro ⟨hne, htext⟩
    cases text with
    | nil => exact absurd rfl hne
    | cons c rest =>
        obtain ⟨hc, hrest⟩ := List.forall_mem_cons.1 htext
        exact ⟨[c], ⟨c, hc, rfl⟩, rest, (mem_digits_kstar_iff rest).2 hrest, rfl⟩

/-- A text that stands for a natural number is not empty and has only digits in it. -/
theorem Digits.all_digits {text : Text} {n : Nat} (h : Digits text n) :
    text ≠ [] ∧ ∀ c ∈ text, IsDigit c := by
  induction h with
  | single c hc => simpa using hc
  | append text n c _ hc ih =>
      refine ⟨by simp, ?_⟩
      intro d hd
      rcases List.mem_append.1 hd with hd | hd
      · exact ih.2 d hd
      · rwa [List.mem_singleton.1 hd]

/-- Every non-empty text of digits stands for a natural number. -/
theorem exists_digits {text : Text} (hne : text ≠ []) (htext : ∀ c ∈ text, IsDigit c) :
    ∃ n, Digits text n := by
  induction text using List.reverseRecOn with
  | nil => exact absurd rfl hne
  | append_singleton front c ih =>
      have hc : IsDigit c := htext c (by simp)
      by_cases hfront : front = []
      · subst hfront
        exact ⟨_, Digits.single c hc⟩
      · obtain ⟨n, hn⟩ := ih hfront fun d hd ↦ htext d (List.mem_append_left _ hd)
        exact ⟨_, Digits.append front n c hn hc⟩

/-- The texts of whole numbers are those that stand for an integer. -/
theorem mem_wholes_iff (text : Text) : text ∈ wholes ↔ ∃ n, Whole text n := by
  constructor
  · intro htext
    obtain ⟨sign, hsign, run, hrun, rfl⟩ := Language.mem_mul.1 htext
    obtain ⟨hne, hall⟩ := (mem_digits_mul_kstar_iff run).1 hrun
    obtain ⟨n, hn⟩ := exists_digits hne hall
    rcases hsign with rfl | rfl
    · exact ⟨_, .unsigned run n hn⟩
    · exact ⟨_, .negative run n hn⟩
  · rintro ⟨_, hwhole⟩
    cases hwhole with
    | unsigned _ n hn =>
        exact Language.mem_mul.2
          ⟨[], Or.inl rfl, text, (mem_digits_mul_kstar_iff text).2 hn.all_digits, rfl⟩
    | negative run n hn =>
        exact Language.mem_mul.2
          ⟨['-'], Or.inr rfl, run, (mem_digits_mul_kstar_iff run).2 hn.all_digits, rfl⟩

/-- A text that stands for an integer is a whole number. -/
theorem Whole.mem_wholes {text : Text} {n : Int} (h : Whole text n) : text ∈ wholes :=
  (mem_wholes_iff text).2 ⟨n, h⟩

/-- The characters of a whole number are digits and the minus sign. -/
theorem Whole.mem {text : Text} {n : Int} (h : Whole text n) {c : Char} (hc : c ∈ text) :
    c = '-' ∨ IsDigit c := by
  cases h with
  | unsigned _ m hm => exact Or.inr (hm.all_digits.2 c hc)
  | negative digits m hm =>
      rcases List.mem_cons.1 hc with rfl | hc
      · exact Or.inl rfl
      · exact Or.inr (hm.all_digits.2 c hc)

/-- A whole number is not the empty text. -/
theorem Whole.ne_nil {text : Text} {n : Int} (h : Whole text n) : text ≠ [] := by
  cases h with
  | unsigned _ m hm => exact hm.all_digits.1
  | negative digits m hm => exact List.cons_ne_nil _ _

/-- A character that is neither a digit nor the minus sign stands in no whole number. -/
theorem Whole.not_mem {text : Text} {n : Int} (h : Whole text n) {c : Char}
    (hminus : c ≠ '-') (hdigit : ¬ IsDigit c) : c ∉ text := by
  intro hc
  rcases h.mem hc with rfl | hc
  · exact hminus rfl
  · exact hdigit hc

/-- The same of the texts that are known to be whole numbers by the grammar. -/
theorem not_mem_of_mem_wholes {text : Text} (h : text ∈ wholes) {c : Char}
    (hminus : c ≠ '-') (hdigit : ¬ IsDigit c) : c ∉ text := by
  obtain ⟨n, hn⟩ := (mem_wholes_iff text).1 h
  exact hn.not_mem hminus hdigit

/-- No ratio is a whole number. -/
theorem ratio_not_mem_wholes (numerator denominator : Text) :
    numerator ++ '/' :: denominator ∉ wholes := by
  intro h
  have hstroke : '/' ∈ numerator ++ '/' :: denominator := by simp
  exact not_mem_of_mem_wholes h (by decide) (by decide) hstroke

/-- A whole number is zero or it is not. -/
theorem wholes_eq : wholes = wholesWith (· = 0) + wholesWith (· ≠ 0) := by
  ext text
  rw [mem_wholes_iff, Language.mem_add]
  constructor
  · rintro ⟨n, hn⟩
    by_cases hzero : n = 0
    · exact Or.inl ⟨n, hn, hzero⟩
    · exact Or.inr ⟨n, hn, hzero⟩
  · rintro (⟨n, hn, -⟩ | ⟨n, hn, -⟩)
    · exact ⟨n, hn⟩
    · exact ⟨n, hn⟩

/-- The denominator of a fraction is zero or it is not. -/
theorem fractions_eq :
    fractions =
      joined * ratiosOver (wholesWith (· = 0)) + joined * ratiosOver (wholesWith (· ≠ 0)) := by
  have hratios : ratiosOver wholes =
      ratiosOver (wholesWith (· = 0)) + ratiosOver (wholesWith (· ≠ 0)) := by
    simp only [ratiosOver, ← mul_add, ← wholes_eq]
  rw [fractions, hratios, mul_add]

/-- A text of `ratiosOver` is cut at a `/` into a whole number and a denominator. -/
theorem mem_ratiosOver_iff (denominators : Language Char) (text : Text) :
    text ∈ ratiosOver denominators ↔
      ∃ numerator ∈ wholes, ∃ denominator ∈ denominators,
        text = numerator ++ '/' :: denominator := by
  constructor
  · intro htext
    obtain ⟨front, hfront, denominator, hdenominator, rfl⟩ := Language.mem_mul.1 htext
    obtain ⟨numerator, hnumerator, stroke, rfl, rfl⟩ := Language.mem_mul.1 hfront
    exact ⟨numerator, hnumerator, denominator, hdenominator, by simp⟩
  · rintro ⟨numerator, hnumerator, denominator, hdenominator, rfl⟩
    have hfront : numerator ++ ['/'] ∈ wholes * {['/']} :=
      Language.append_mem_mul hnumerator rfl
    rw [List.append_cons]
    exact Language.append_mem_mul hfront hdenominator

/-- There is no joined whole number in front of a text of a language, or there is a first one. -/
theorem joined_mul_eq (language : Language Char) :
    joined * language = language + wholes * {['&']} * (joined * language) := by
  conv_lhs => rw [joined, ← Language.one_add_self_mul_kstar_eq_kstar]
  rw [add_mul, one_mul, mul_assoc, joined]

/-- A text of a language may have a further whole number joined to its front. -/
theorem append_mem_joined_mul {language : Language Char} {whole part : Text}
    (hwhole : whole ∈ wholes) (hpart : part ∈ joined * language) :
    whole ++ '&' :: part ∈ joined * language := by
  have hfront : whole ++ ['&'] ∈ wholes * {['&']} := Language.append_mem_mul hwhole rfl
  rw [joined_mul_eq, List.append_cons]
  exact Or.inr (Language.append_mem_mul hfront hpart)

/-- A text of a language is one that has no whole number joined to its front. -/
theorem mem_joined_mul_of_mem {language : Language Char} {text : Text} (htext : text ∈ language) :
    text ∈ joined * language :=
  Language.append_mem_mul (Language.nil_mem_kstar _) htext

/-- What holds of the texts of a language and is kept when a whole number is joined to the front
holds of all texts of the language behind joined whole numbers. -/
theorem joined_mul_induction {language : Language Char} {motive : Text → Prop}
    (last : ∀ text ∈ language, motive text)
    (join : ∀ whole ∈ wholes, ∀ part, motive part → motive (whole ++ '&' :: part))
    (text : Text) (htext : text ∈ joined * language) : motive text := by
  obtain ⟨front, hfront, rest, hrest, rfl⟩ := Language.mem_mul.1 htext
  obtain ⟨blocks, rfl, hblocks⟩ := Language.mem_kstar.1 hfront
  clear htext hfront
  -- a block of the star is a whole number with its `&`; the last part stays what it is
  induction blocks with
  | nil => exact last rest hrest
  | cons block blocks ih =>
      obtain ⟨hblock, hothers⟩ := List.forall_mem_cons.1 hblocks
      obtain ⟨whole, hwhole, sign, rfl, rfl⟩ := Language.mem_mul.1 hblock
      simpa using join whole hwhole _ (ih hothers)

/-- A text with a value is a whole number or a ratio whose denominator is not zero, and one
without a value a ratio over zero; whole numbers may be joined to the front of either. -/
theorem Denotes.mem_joined_mul {text : Text} {value : Option Rat} (h : Denotes text value) :
    text ∈ joined *
      (if value.isSome then wholes + ratiosOver (wholesWith (· ≠ 0))
        else ratiosOver (wholesWith (· = 0))) := by
  induction h with
  | whole text n hn => exact mem_joined_mul_of_mem (Or.inl hn.mem_wholes)
  | ratio numerator denominator n d hn hd hne =>
      refine mem_joined_mul_of_mem (Or.inr ((mem_ratiosOver_iff _ _).2 ?_))
      exact ⟨numerator, hn.mem_wholes, denominator, ⟨d, hd, hne⟩, rfl⟩
  | undefined numerator denominator n hn hd =>
      refine mem_joined_mul_of_mem ((mem_ratiosOver_iff _ _).2 ?_)
      exact ⟨numerator, hn.mem_wholes, denominator, ⟨0, hd, rfl⟩, rfl⟩
  | plus whole part w value hw _ _ ih | minus whole part w value hw _ _ ih =>
      simpa using append_mem_joined_mul hw.mem_wholes ih

/-- A whole number can be joined to any text that stands for a number, and the whole has a value
when that text has one. -/
theorem Denotes.join {whole part : Text} {value : Option Rat} (hwhole : whole ∈ wholes)
    (h : Denotes part value) :
    ∃ result, Denotes (whole ++ '&' :: part) result ∧ result.isSome = value.isSome := by
  obtain ⟨w, hw⟩ := (mem_wholes_iff whole).1 hwhole
  rcases le_or_gt 0 w with hsign | hsign
  · exact ⟨_, .plus whole part w value hw hsign h, by simp⟩
  · exact ⟨_, .minus whole part w value hw hsign h, by simp⟩

/-- A whole number joined to a text without a value has none. -/
theorem Denotes.join_none {whole part : Text} (hwhole : whole ∈ wholes)
    (h : Denotes part none) : Denotes (whole ++ '&' :: part) none := by
  obtain ⟨result, hresult, hnone⟩ := h.join hwhole
  have hresult_none : result = none := by simpa using hnone
  rwa [hresult_none] at hresult

/-- The texts with a value are those of whole numbers and of ratios whose denominator is not zero,
both behind any number of joined whole numbers. -/
theorem exists_denotes_some_iff (text : Text) :
    (∃ q, Denotes text (some q)) ↔
      text ∈ joined * wholes + joined * ratiosOver (wholesWith (· ≠ 0)) := by
  rw [← mul_add]
  constructor
  · rintro ⟨q, h⟩
    exact h.mem_joined_mul
  · intro htext
    refine joined_mul_induction (motive := fun text ↦ ∃ q, Denotes text (some q)) ?_ ?_ text htext
    · rintro text (hwhole | hratio)
      · obtain ⟨n, hn⟩ := (mem_wholes_iff text).1 hwhole
        exact ⟨_, .whole text n hn⟩
      · obtain ⟨numerator, hnumerator, denominator, ⟨d, hd, hne⟩, rfl⟩ :=
          (mem_ratiosOver_iff _ _).1 hratio
        obtain ⟨n, hn⟩ := (mem_wholes_iff numerator).1 hnumerator
        exact ⟨_, .ratio numerator denominator n d hn hd hne⟩
    · rintro whole hwhole part ⟨q, h⟩
      obtain ⟨result, hresult, hsome⟩ := h.join hwhole
      obtain ⟨r, rfl⟩ := Option.isSome_iff_exists.1 hsome
      exact ⟨r, hresult⟩

/-- The texts without a value are those of ratios over zero behind any number of joined whole
numbers. -/
theorem denotes_none_iff (text : Text) :
    Denotes text none ↔ text ∈ joined * ratiosOver (wholesWith (· = 0)) := by
  constructor
  · intro h
    exact h.mem_joined_mul
  · intro htext
    refine joined_mul_induction (motive := (Denotes · none)) ?_ ?_ text htext
    · intro text hratio
      obtain ⟨numerator, hnumerator, denominator, ⟨d, hd, rfl⟩, rfl⟩ :=
        (mem_ratiosOver_iff _ _).1 hratio
      obtain ⟨n, hn⟩ := (mem_wholes_iff numerator).1 hnumerator
      exact .undefined numerator denominator n hn hd
    · intro whole hwhole part h
      exact h.join_none hwhole

/-- The texts that stand for a number are the whole numbers behind any number of joined ones and
the fractions. -/
theorem exists_denotes_iff (text : Text) :
    (∃ value, Denotes text value) ↔ text ∈ joined * wholes + fractions := by
  rw [fractions_eq, add_comm (joined * ratiosOver (wholesWith (· = 0))), ← add_assoc,
    Language.mem_add, ← exists_denotes_some_iff, ← denotes_none_iff]
  constructor
  · rintro ⟨_ | q, h⟩
    · exact Or.inr h
    · exact Or.inl ⟨q, h⟩
  · rintro (⟨q, h⟩ | h)
    · exact ⟨some q, h⟩
    · exact ⟨none, h⟩

/-- Every operand stands for a number. -/
theorem exists_denotes_of_mem_operands {text : Text} (h : text ∈ operands) :
    ∃ value, Denotes text value := by
  rw [exists_denotes_iff]
  rcases h with hwhole | hfraction
  · exact Or.inl (mem_joined_mul_of_mem hwhole)
  · exact Or.inr hfraction

/-- A text that stands for a number without a value is an operand. -/
theorem mem_operands_of_denotes_none {text : Text} (h : Denotes text none) : text ∈ operands := by
  rw [operands, fractions_eq]
  exact Or.inr (Or.inl ((denotes_none_iff text).1 h))

/-- A text that stands for a number is not empty and has no space in it. -/
theorem Denotes.ne_nil_and_no_space {text : Text} {value : Option Rat} (h : Denotes text value) :
    text ≠ [] ∧ ' ' ∉ text := by
  induction h with
  | whole text n hn => exact ⟨hn.ne_nil, hn.not_mem (by decide) (by decide)⟩
  | ratio numerator denominator n d hn hd _ | undefined numerator denominator n hn hd =>
      have hnumerator : ' ' ∉ numerator := hn.not_mem (by decide) (by decide)
      have hdenominator : ' ' ∉ denominator := hd.not_mem (by decide) (by decide)
      simp [hnumerator, hdenominator]
  | plus whole part w value hw _ _ ih | minus whole part w value hw _ _ ih =>
      have hwhole : ' ' ∉ whole := hw.not_mem (by decide) (by decide)
      simp [hwhole, ih.2]

end MixedNumbers.Grammar
