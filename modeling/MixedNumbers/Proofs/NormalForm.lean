import MixedNumbers.Proofs.MixedForm

/-!
# The texts of mixed forms

Which texts are the mixed form of a rational, by the rules of the notation alone. `Normal`
describes them: zero, or a whole number, a proper fraction in lowest terms, or both, with at
most one minus sign in front and no leading zeros. `plain_iff` is the key to numerals: a
numeral without leading zeros is what is written for its value. `written_iff_normal` says
that the mixed forms are the normal texts, and that they are the texts which parsing and
writing leave as they are.
-/

namespace MixedNumbers

namespace Grammar

/-! ## Normal texts -/

/-- `Plain text n` says that the text is the decimal notation of `n` without leading zeros. -/
structure Plain (text : Text) (n : Nat) : Prop where
  digits : Digits text n
  leading : text.head? = some '0' → text = ['0']

/-- A proper fraction in lowest terms that is not zero. -/
inductive ProperFraction : Text → Prop where
  | ratio (numerator denominator : Text) (n d : Nat) :
      Plain numerator n → Plain denominator d → 1 ≤ n → n < d → n.gcd d = 1 →
      ProperFraction (numerator ++ '/' :: denominator)

/-- The normal texts of positive numbers: a whole number, a proper fraction, or both joined. -/
inductive Magnitude : Text → Prop where
  | whole (text : Text) (n : Nat) : Plain text n → 1 ≤ n → Magnitude text
  | fraction (text : Text) : ProperFraction text → Magnitude text
  | mixed (whole fraction : Text) (n : Nat) :
      Plain whole n → 1 ≤ n → ProperFraction fraction → Magnitude (whole ++ '&' :: fraction)

/-- The normal texts: zero, and those of positive numbers with or without a minus sign in front. -/
inductive Normal : Text → Prop where
  | zero : Normal ['0']
  | positive (text : Text) : Magnitude text → Normal text
  | negative (text : Text) : Magnitude text → Normal ('-' :: text)

/-! ## Numerals without leading zeros -/

/-- A digit is the character that is written for its value. -/
theorem IsDigit.digitChar_eq {c : Char} (h : IsDigit c) : (c.toNat - '0'.toNat).digitChar = c := by
  have hlow : 48 ≤ c.toNat := h.1
  have hhigh : c.toNat ≤ 57 := h.2
  have hzero : '0'.toNat = 48 := rfl
  apply Char.toNat_inj.1
  rw [hzero, Nat.toNat_digitChar_of_lt_ten (by omega)]
  omega

/-- The value of a digit is below ten. -/
theorem IsDigit.value_lt {c : Char} (h : IsDigit c) : c.toNat - '0'.toNat < 10 := by
  have hhigh : c.toNat ≤ 57 := h.2
  have hzero : '0'.toNat = 48 := rfl
  omega

/-- A text of digits that does not begin with a zero stands for a positive number and is what is
written for it. -/
theorem Digits.eq_writeNat {text : Text} {n : Nat} (h : Digits text n)
    (hhead : text.head? ≠ some '0') : 0 < n ∧ text = Numeral.writeNat n := by
  induction h with
  | single c hc =>
      have hwritten : [c] = Numeral.writeNat (c.toNat - '0'.toNat) := by
        rw [Numeral.writeNat, Nat.toDigits_of_lt_base hc.value_lt, hc.digitChar_eq]
      refine ⟨Nat.pos_of_ne_zero fun hzero ↦ hhead ?_, hwritten⟩
      rw [hwritten, hzero]
      rfl
  | append text n c hdigits hc ih =>
      rw [List.head?_append_of_ne_nil text hdigits.all_digits.1] at hhead
      obtain ⟨hpos, htext⟩ := ih hhead
      refine ⟨by omega, ?_⟩
      rw [Numeral.writeNat, ← Nat.toDigits_append_toDigits (by decide) hpos hc.value_lt,
        Nat.toDigits_of_lt_base hc.value_lt, hc.digitChar_eq, htext, Numeral.writeNat]

/-- What is written for a positive number does not begin with a zero. -/
theorem writeNat_head_ne_zero {n : Nat} (h : 0 < n) :
    (Numeral.writeNat n).head? ≠ some '0' := by
  induction n using Nat.strong_induction_on with
  | _ n ih =>
      unfold Numeral.writeNat
      by_cases hsmall : n < 10
      · rw [Nat.toDigits_of_lt_base hsmall, List.head?_cons, Ne, Option.some.injEq,
          Nat.digitChar_eq_zero]
        omega
      · -- the first digit is that of the number without its last digit
        rw [Nat.toDigits_of_base_le (by decide) (by omega),
          List.head?_append_of_ne_nil _ Nat.toDigits_ne_nil]
        exact ih (n / 10) (by omega) (by omega)

/-- The decimal notation without leading zeros is what is written for a natural number. -/
theorem plain_iff (text : Text) (n : Nat) : Plain text n ↔ text = Numeral.writeNat n := by
  constructor
  · intro h
    by_cases hhead : text.head? = some '0'
    · have htext := h.leading hhead
      have hread := h.digits.readDigits_eq
      rw [htext] at hread
      have hzero : Numeral.readDigits ['0'] = some 0 := Numeral.readDigits_writeNat 0
      obtain rfl : 0 = n := Option.some.inj (hzero.symm.trans hread)
      exact htext
    · exact (h.digits.eq_writeNat hhead).2
  · rintro rfl
    refine ⟨digits_of_readDigits (Numeral.readDigits_writeNat n), fun hhead ↦ ?_⟩
    rcases Nat.eq_zero_or_pos n with hzero | hpos
    · rw [hzero]
      rfl
    · exact absurd hhead (writeNat_head_ne_zero hpos)

/-- There is no minus sign in a natural number. -/
theorem Plain.minus_not_mem {text : Text} {n : Nat} (h : Plain text n) : '-' ∉ text := by
  intro hmem
  have hdigit := h.digits.all_digits.2 '-' hmem
  exact absurd hdigit (by decide)

/-- There is no minus sign in a proper fraction. -/
theorem ProperFraction.minus_not_mem {text : Text} (h : ProperFraction text) : '-' ∉ text := by
  cases h with
  | ratio numerator denominator n d hn hd _ _ _ => simp [hn.minus_not_mem, hd.minus_not_mem]

/-- There is no minus sign in the normal text of a positive number. -/
theorem Magnitude.minus_not_mem {text : Text} (h : Magnitude text) : '-' ∉ text := by
  cases h with
  | whole _ n hn _ => exact hn.minus_not_mem
  | fraction _ hfraction => exact hfraction.minus_not_mem
  | mixed whole fraction n hn _ hfraction => simp [hn.minus_not_mem, hfraction.minus_not_mem]

end Grammar

namespace MixedForm

open Grammar

/-! ## Parts of a positive rational -/

/-- The whole part is what the denominator divides of the numerator, apart from the sign. -/
theorem natAbs_wholePart (q : Rat) : (wholePart q).natAbs = q.num.natAbs / q.den := by
  rw [wholePart, Int.natAbs_tdiv, Int.natAbs_natCast]
  rfl

/-- The remainder is what the denominator leaves of the numerator, apart from the sign. -/
theorem remainder_eq_mod (q : Rat) : remainder q = q.num.natAbs % q.den := by
  rw [remainder, wholePart, ← Int.tmod_def, Int.natAbs_tmod, Int.natAbs_natCast]

/-- The remainder over the denominator is a proper fraction. -/
theorem remainder_lt (q : Rat) : remainder q < q.den := by
  rw [remainder_eq_mod]
  exact Nat.mod_lt _ q.den_pos

/-- The remainder over the denominator is in lowest terms. -/
theorem gcd_remainder (q : Rat) : (remainder q).gcd q.den = 1 := by
  rw [remainder_eq_mod, ← Nat.gcd_rec, Nat.gcd_comm]
  exact q.reduced

/-- A positive rational has a whole part or a remainder. -/
theorem remainder_ne_zero_of_wholePart_eq_zero {q : Rat} (hq : 0 < q) (hzero : wholePart q = 0) :
    remainder q ≠ 0 := by
  intro hremainder
  have hvalue := eq_wholePart_of_remainder_eq_zero hremainder
  rw [hzero, Int.cast_zero] at hvalue
  exact hq.ne' hvalue

/-- A positive rational is written by its parts: the whole part, if it is not zero, and the
remainder, if it is not zero. -/
theorem write_of_pos {q : Rat} (hq : 0 < q) :
    write q =
      if wholePart q = 0 then writeRatio (remainder q) q.den
      else if remainder q = 0 then Numeral.writeNat (wholePart q).natAbs
      else Numeral.writeNat (wholePart q).natAbs ++ '&' :: writeRatio (remainder q) q.den := by
  have hwhole : Numeral.write (wholePart q) = Numeral.writeNat (wholePart q).natAbs := by
    rw [Numeral.write, if_neg (not_lt.2 (wholePart_nonneg hq.le))]
  by_cases hzero : wholePart q = 0
  · have hremainder := remainder_ne_zero_of_wholePart_eq_zero hq hzero
    rw [write, if_pos hzero, if_neg hremainder, if_neg (not_lt.2 hq.le), if_pos hzero]
  · rw [write, if_neg hzero, if_neg hzero, hwhole]

/-- A minus sign makes the mixed form of the opposite number of the one of a positive number. -/
theorem write_neg {q : Rat} (hq : 0 < q) : write (-q) = '-' :: write q := by
  have hneg : -q < 0 := neg_lt_zero.2 hq
  rw [write_of_pos hq, write, wholePart_neg, remainder_neg, Rat.neg_den]
  by_cases hzero : wholePart q = 0
  · have hremainder := remainder_ne_zero_of_wholePart_eq_zero hq hzero
    rw [if_pos (by omega), if_neg hremainder, if_pos hneg, if_pos hzero]
  · have hpos : 0 < wholePart q := lt_of_le_of_ne (wholePart_nonneg hq.le) (Ne.symm hzero)
    have hwhole : Numeral.write (-wholePart q) =
        '-' :: Numeral.writeNat (wholePart q).natAbs := by
      rw [Numeral.write, if_pos (by omega), Int.natAbs_neg]
    rw [if_neg (by omega), if_neg hzero, hwhole]
    split <;> rfl

/-- The mixed form of a negative rational is a minus sign and that of the opposite number. -/
theorem write_of_neg {q : Rat} (hq : q < 0) : write q = '-' :: write (-q) := by
  have hwrite := write_neg (neg_pos.2 hq)
  rwa [neg_neg] at hwrite

/-! ## Mixed forms are normal -/

/-- A remainder that is not zero makes a proper fraction. -/
theorem properFraction_writeRatio {q : Rat} (hremainder : remainder q ≠ 0) :
    ProperFraction (writeRatio (remainder q) q.den) :=
  .ratio _ _ (remainder q) q.den ((plain_iff _ _).2 rfl) ((plain_iff _ _).2 rfl)
    (Nat.pos_of_ne_zero hremainder) (remainder_lt q) (gcd_remainder q)

/-- The mixed form of a positive rational is the normal text of a positive number. -/
theorem magnitude_write {q : Rat} (hq : 0 < q) : Magnitude (write q) := by
  rw [write_of_pos hq]
  by_cases hremainder : remainder q = 0
  · have hzero : wholePart q ≠ 0 := fun hzero ↦
      remainder_ne_zero_of_wholePart_eq_zero hq hzero hremainder
    rw [if_neg hzero, if_pos hremainder]
    exact .whole _ _ ((plain_iff _ _).2 rfl) (Int.natAbs_pos.2 hzero)
  · have hfraction := properFraction_writeRatio hremainder
    by_cases hzero : wholePart q = 0
    · rw [if_pos hzero]
      exact .fraction _ hfraction
    · rw [if_neg hzero, if_neg hremainder]
      exact .mixed _ _ _ ((plain_iff _ _).2 rfl) (Int.natAbs_pos.2 hzero) hfraction

/-- The mixed form of every rational is normal. -/
theorem normal_write (q : Rat) : Normal (write q) := by
  rcases lt_trichotomy q 0 with hneg | rfl | hpos
  · rw [write_of_neg hneg]
    exact .negative _ (magnitude_write (neg_pos.2 hneg))
  · exact .zero
  · exact .positive _ (magnitude_write hpos)

/-! ## Normal texts are mixed forms -/

/-- A whole number and a proper fraction in lowest terms are the parts of their sum. -/
theorem parts_of_sum {w n d : Nat} (hlt : n < d) (hgcd : n.gcd d = 1) {q : Rat}
    (hq : q = ((w * d + n : Nat) : Int) / (d : Int)) :
    (wholePart q).natAbs = w ∧ remainder q = n ∧ q.den = d := by
  have hpos : 0 < (d : Int) := by omega
  have hdiv : (w * d + n) / d = w := by
    rw [Nat.mul_comm, Nat.mul_add_div (by omega), Nat.div_eq_of_lt hlt, Nat.add_zero]
  have hmod : (w * d + n) % d = n := by
    rw [Nat.mul_comm, Nat.mul_add_mod, Nat.mod_eq_of_lt hlt]
  have hcoprime : Nat.Coprime ((w * d + n : Nat) : Int).natAbs (d : Int).natAbs := by
    rw [Int.natAbs_natCast, Int.natAbs_natCast, Nat.Coprime, Nat.gcd_comm, Nat.gcd_rec, hmod]
    exact hgcd
  have hnum : q.num = ((w * d + n : Nat) : Int) := by
    rw [hq]
    exact Rat.num_div_eq_of_coprime hpos hcoprime
  have hden : q.den = d := by
    have hcast := Rat.den_div_eq_of_coprime hpos hcoprime
    rw [← hq] at hcast
    exact Int.ofNat.inj hcast
  refine ⟨?_, ?_, hden⟩
  · rw [natAbs_wholePart, hnum, hden, Int.natAbs_natCast, hdiv]
  · rw [remainder_eq_mod, hnum, hden, Int.natAbs_natCast, hmod]

/-- A whole number and a proper fraction, of which not both are zero, are written as they stand. -/
theorem exists_write_of_parts (w n d : Nat) (hlt : n < d) (hgcd : n.gcd d = 1)
    (hpos : 0 < w ∨ 0 < n) :
    ∃ q, 0 < q ∧ write q =
      if w = 0 then writeRatio n d
      else if n = 0 then Numeral.writeNat w
      else Numeral.writeNat w ++ '&' :: writeRatio n d := by
  obtain ⟨q, hq⟩ : ∃ q : Rat, q = ((w * d + n : Nat) : Int) / (d : Int) := ⟨_, rfl⟩
  obtain ⟨hwhole, hremainder, hden⟩ := parts_of_sum hlt hgcd hq
  have hsum : 0 < w * d + n := by
    rcases hpos with hw | hn
    · have hproduct : 0 < w * d := Nat.mul_pos hw (by omega)
      omega
    · omega
  have hq_pos : 0 < q := by
    rw [hq]
    exact div_pos (by exact_mod_cast hsum) (by exact_mod_cast (by omega : 0 < d))
  have hzero : wholePart q = 0 ↔ w = 0 := by
    rw [← hwhole, Int.natAbs_eq_zero]
  refine ⟨q, hq_pos, ?_⟩
  rw [write_of_pos hq_pos, hwhole, hremainder, hden]
  simp only [hzero]

/-- The normal text of a positive number is the mixed form of one. -/
theorem exists_write_of_magnitude {text : Text} (h : Magnitude text) :
    ∃ q, 0 < q ∧ write q = text := by
  cases h with
  | whole _ w hw hpos =>
      obtain ⟨q, hq, hwrite⟩ := exists_write_of_parts w 0 1 (by omega) rfl (Or.inl hpos)
      rw [if_neg (by omega), if_pos rfl, ← (plain_iff _ _).1 hw] at hwrite
      exact ⟨q, hq, hwrite⟩
  | fraction _ hfraction =>
      cases hfraction with
      | ratio numerator denominator n d hn hd hpos hlt hgcd =>
          obtain ⟨q, hq, hwrite⟩ := exists_write_of_parts 0 n d hlt hgcd (Or.inr hpos)
          rw [if_pos rfl, writeRatio, ← (plain_iff _ _).1 hn, ← (plain_iff _ _).1 hd] at hwrite
          exact ⟨q, hq, hwrite⟩
  | mixed whole _ w hw hpos hfraction =>
      cases hfraction with
      | ratio numerator denominator n d hn hd hn_pos hlt hgcd =>
          obtain ⟨q, hq, hwrite⟩ := exists_write_of_parts w n d hlt hgcd (Or.inl hpos)
          rw [if_neg (by omega), if_neg (by omega), writeRatio, ← (plain_iff _ _).1 hw,
            ← (plain_iff _ _).1 hn, ← (plain_iff _ _).1 hd] at hwrite
          exact ⟨q, hq, hwrite⟩

/-- Every normal text is the mixed form of a rational. -/
theorem exists_write_of_normal {text : Text} (h : Normal text) : ∃ q, write q = text := by
  cases h with
  | zero => exact ⟨0, rfl⟩
  | positive _ hmagnitude =>
      obtain ⟨q, -, hwrite⟩ := exists_write_of_magnitude hmagnitude
      exact ⟨q, hwrite⟩
  | negative magnitude hmagnitude =>
      obtain ⟨q, hpos, hwrite⟩ := exists_write_of_magnitude hmagnitude
      exact ⟨-q, by rw [write_neg hpos, hwrite]⟩

/-! ## The written texts -/

/-- A minus sign stands in front of the mixed form of a negative rational, and nowhere else. -/
theorem minus_of_write (q : Rat) :
    ((write q).head? = some '-' ↔ q < 0) ∧ '-' ∉ (write q).tail := by
  rcases lt_or_ge q 0 with hneg | hnonneg
  · rw [write_of_neg hneg]
    exact ⟨by simp [hneg], (magnitude_write (neg_pos.2 hneg)).minus_not_mem⟩
  · have hminus : '-' ∉ write q := by
      rcases hnonneg.eq_or_lt with rfl | hpos
      · decide
      · exact (magnitude_write hpos).minus_not_mem
    refine ⟨⟨fun hhead ↦ ?_, fun hneg ↦ absurd hneg (not_lt.2 hnonneg)⟩, fun htail ↦ ?_⟩
    · exact absurd (List.mem_of_mem_head? hhead) hminus
    · exact hminus (List.mem_of_mem_tail htail)

/-- The mixed form of a rational is parsed as this rational. -/
theorem parse_write (q : Rat) : Literal.parse (write q) = .ok q :=
  (Literal.parse_eq_ok_iff _ q).2 (write_mem_operands_and_denotes q).2

/-- Mixed forms of different rationals differ. -/
theorem write_injective {p q : Rat} (h : write p = write q) : p = q := by
  have hparse := parse_write p
  rw [h, parse_write q] at hparse
  exact (Except.ok.inj hparse).symm

/-- Only zero is written as the digit zero. -/
theorem write_eq_zero_iff (q : Rat) : write q = ['0'] ↔ q = 0 := by
  constructor
  · intro h
    exact write_injective (h.trans (show ['0'] = write 0 from rfl))
  · rintro rfl
    rfl

/-- The mixed forms of rationals are the normal texts, and so are the texts that come back when
they are parsed and written again. In a mixed form a minus sign stands in front exactly when the
rational is negative, and nowhere else, and only zero is written as the digit zero. -/
theorem written_iff_normal :
    (∀ text, (∃ q, write q = text) ↔ Normal text) ∧
    (∀ text, (∃ q, Literal.parse text = .ok q ∧ write q = text) ↔ Normal text) ∧
    ∀ q, ((write q).head? = some '-' ↔ q < 0) ∧ '-' ∉ (write q).tail ∧
      (write q = ['0'] ↔ q = 0) := by
  have hnormal : ∀ text, (∃ q, write q = text) ↔ Normal text := by
    intro text
    constructor
    · rintro ⟨q, rfl⟩
      exact normal_write q
    · exact exists_write_of_normal
  refine ⟨hnormal, ?_, ?_⟩
  · intro text
    rw [← hnormal]
    constructor
    · rintro ⟨q, -, hwrite⟩
      exact ⟨q, hwrite⟩
    · rintro ⟨q, rfl⟩
      exact ⟨q, parse_write q, rfl⟩
  · intro q
    exact ⟨(minus_of_write q).1, (minus_of_write q).2, write_eq_zero_iff q⟩

end MixedForm

end MixedNumbers
