import Mathlib.Data.List.TakeWhile
import MixedNumbers.Binary64.Notation
import MixedNumbers.Proofs.Nearest
import MixedNumbers.Proofs.Reading

/-!
# Texts of decimal numbers

The texts that stand for a decimal number, with its rational value, by the rules of the notation
alone: digits with a point among, before or behind them, a power of ten, and a sign.
`scientific_of_read` and `Scientific.exists_read` say that the texts without a sign are those that
are read as a decimal. `ofDecimal_eq_ofRat` takes care of the decimals that are too large or too
small to be looked at closely, and `read_eq_some_iff_nearest` puts all this together: a text is read
as a finite number other than zero exactly when it stands for a rational to which this number is the
nearest.
-/

namespace MixedNumbers

namespace Grammar

/-! ## Notation -/

/-- `Positional text q` says that the text is digits in decimal notation, which may have a point in
front of, among or behind them, and that `q` is its value. -/
inductive Positional : Text → Rat → Prop where
  | whole (text : Text) (n : Nat) : Digits text n → Positional text n
  | point (whole fraction : Text) (n : Nat) :
      Digits (whole ++ fraction) n →
      Positional (whole ++ '.' :: fraction) (n / 10 ^ fraction.length)

/-- `Exponent text k` says that the text is the power of ten `10 ^ k` behind some digits. It is
empty, or the letter and an integer with or without a sign. -/
inductive Exponent : Text → Int → Prop where
  | none : Exponent [] 0
  | whole (letter : Char) (text : Text) (k : Int) :
      letter = 'e' ∨ letter = 'E' → Whole text k → Exponent (letter :: text) k
  | plus (letter : Char) (text : Text) (n : Nat) :
      letter = 'e' ∨ letter = 'E' → Digits text n → Exponent (letter :: '+' :: text) n

/-- `Scientific text q` says that the text stands for the decimal number `q`, without a sign. -/
inductive Scientific : Text → Rat → Prop where
  | scaled (digits exponent : Text) (q : Rat) (k : Int) :
      Positional digits q → Exponent exponent k → Scientific (digits ++ exponent) (q * 10 ^ k)

/-- `SignedDecimal text q` says that the text stands for the decimal number `q`, with or without a
sign. -/
inductive SignedDecimal : Text → Rat → Prop where
  | unsigned (text : Text) (q : Rat) : Scientific text q → SignedDecimal text q
  | plus (text : Text) (q : Rat) : Scientific text q → SignedDecimal ('+' :: text) q
  | minus (text : Text) (q : Rat) : Scientific text q → SignedDecimal ('-' :: text) (-q)

/-! ## Reading -/

/-- A run of digits ends where there is no digit. -/
theorem span_digits {digits rest : Text} (hdigits : ∀ c ∈ digits, IsDigit c)
    (hrest : ∀ c ∈ rest.head?, ¬ IsDigit c) :
    (digits ++ rest).takeWhile Char.isDigit = digits ∧
      (digits ++ rest).dropWhile Char.isDigit = rest := by
  have hall : ∀ c ∈ digits, c.isDigit = true := fun c hc ↦ (isDigit_iff c).2 (hdigits c hc)
  rw [List.takeWhile_append_of_pos hall, List.dropWhile_append_of_pos hall]
  cases rest with
  | nil => simp
  | cons c rest =>
      have hc : ¬ c.isDigit = true := fun h ↦ hrest c rfl ((isDigit_iff c).1 h)
      rw [List.takeWhile_cons_of_neg hc, List.dropWhile_cons_of_neg hc, List.append_nil]
      exact ⟨rfl, rfl⟩

/-- Every text is a run of digits and what is behind it. -/
theorem exists_span_digits (text : Text) :
    ∃ digits rest, text = digits ++ rest ∧ (∀ c ∈ digits, IsDigit c) ∧
      text.takeWhile Char.isDigit = digits ∧ text.dropWhile Char.isDigit = rest :=
  ⟨_, _, List.takeWhile_append_dropWhile.symm,
    fun c hc ↦ (isDigit_iff c).1 (List.mem_takeWhile_imp hc), rfl, rfl⟩

/-- The power of ten that is read is the one that the text stands for. -/
theorem readExponent_eq_some_iff (text : Text) (k : Int) :
    Decimal.readExponent text = some k ↔ Exponent text k := by
  constructor
  · intro h
    unfold Decimal.readExponent at h
    split at h
    · obtain rfl := Option.some.inj h
      exact .none
    · split at h
      · rename_i hletter
        split at h
        · obtain ⟨n, hn, rfl⟩ := Option.map_eq_some_iff.1 h
          exact .plus _ _ n hletter (digits_of_readDigits hn)
        · exact .whole _ _ k hletter (whole_of_read h)
      · cases h
  · intro h
    cases h with
    | none => rfl
    | whole letter text k hletter hk =>
        simp only [Decimal.readExponent, if_pos hletter]
        split
        · -- an integer does not begin with a plus sign
          have hplus := hk.mem (List.mem_cons_self (a := '+'))
          exact absurd hplus (by decide)
        · exact hk.read_eq
    | plus letter text n hletter hn =>
        simp only [Decimal.readExponent, if_pos hletter, hn.readDigits_eq, Option.map_some]

/-- A power of ten begins neither with a digit nor with a point. -/
theorem Exponent.head {text : Text} {k : Int} (h : Exponent text k) :
    ∀ c ∈ text.head?, ¬ IsDigit c ∧ c ≠ '.' := by
  intro c hc
  cases h with
  | none => cases hc
  | whole letter _ _ hletter | plus letter _ _ hletter =>
      obtain rfl := Option.some.inj hc
      rcases hletter with rfl | rfl
      · decide
      · decide

/-- The fractional digits of a text stand behind a point at its front. -/
theorem splitFraction_cases (text : Text) :
    (∃ fraction tail, text = '.' :: (fraction ++ tail) ∧ (∀ c ∈ fraction, IsDigit c) ∧
      Decimal.splitFraction text = (fraction, tail)) ∨
    Decimal.splitFraction text = ([], text) := by
  unfold Decimal.splitFraction
  split
  · rename_i behind
    obtain ⟨fraction, tail, hbehind, hfraction, htake, hdrop⟩ := exists_span_digits behind
    rw [htake, hdrop, hbehind]
    exact Or.inl ⟨fraction, tail, rfl, hfraction, rfl⟩
  · exact Or.inr rfl

/-- Fractional digits divide the value of all digits by a power of ten. -/
theorem value_eq_div_mul (n places : Nat) (k : Int) :
    Decimal.value ⟨n, k - places⟩ = (n : Rat) / 10 ^ places * 10 ^ k := by
  have hten : (10 : Rat) ≠ 0 := by norm_num
  rw [Decimal.value, zpow_sub₀ hten, zpow_natCast, ← mul_div_assoc, div_mul_eq_mul_div]

/-- Digits without a point are read together with the power of ten behind them. -/
theorem read_of_digits {digits tail : Text} {n : Nat} (hdigits : Digits digits n)
    (htail : ∀ c ∈ tail.head?, ¬ IsDigit c ∧ c ≠ '.') :
    Decimal.read (digits ++ tail) =
      (Decimal.readExponent tail).map fun (k : Int) ↦ ⟨n, k⟩ := by
  obtain ⟨hne, hall⟩ := hdigits.all_digits
  obtain ⟨htake, hdrop⟩ := span_digits hall fun c hc ↦ (htail c hc).1
  have hsplit : Decimal.splitFraction tail = ([], tail) := by
    rcases splitFraction_cases tail with ⟨fraction, behind, rfl, -⟩ | hsplit
    · exact absurd rfl (htail '.' rfl).2
    · exact hsplit
  simp [Decimal.read, htake, hdrop, hsplit, hne, hdigits.ofDigitChars_eq]

/-- Digits with a point are read together with the power of ten behind them. -/
theorem read_of_point {whole fraction tail : Text} {n : Nat}
    (hdigits : Digits (whole ++ fraction) n)
    (htail : ∀ c ∈ tail.head?, ¬ IsDigit c ∧ c ≠ '.') :
    Decimal.read (whole ++ '.' :: fraction ++ tail) =
      (Decimal.readExponent tail).map fun (k : Int) ↦ ⟨n, k - (fraction.length : Int)⟩ := by
  obtain ⟨hne, hall⟩ := hdigits.all_digits
  rw [List.forall_mem_append] at hall
  have hpoint : ∀ c ∈ ('.' :: (fraction ++ tail)).head?, ¬ IsDigit c := by
    intro c hc
    obtain rfl := Option.some.inj hc
    decide
  obtain ⟨htake, hdrop⟩ := span_digits hall.1 hpoint
  obtain ⟨hfraction, hbehind⟩ := span_digits hall.2 fun c hc ↦ (htail c hc).1
  have hsome : ¬ (whole = [] ∧ fraction = []) := by simpa using hne
  rw [List.append_assoc, List.cons_append]
  simp [Decimal.read, htake, hdrop, Decimal.splitFraction, hfraction, hbehind, hsome,
    hdigits.ofDigitChars_eq]

/-- A text that is read as a decimal stands for its value. -/
theorem scientific_of_read {text : Text} {d : Decimal} (h : Decimal.read text = some d) :
    Scientific text d.value := by
  obtain ⟨whole, rest, rfl, hwhole, htake, hdrop⟩ := exists_span_digits text
  unfold Decimal.read at h
  -- there is a point behind the first digits or there is none
  rcases splitFraction_cases rest with ⟨fraction, tail, rfl, hfraction, hsplit⟩ | hsplit
  · simp only [htake, hdrop, hsplit] at h
    split at h
    · cases h
    · rename_i hsome
      obtain ⟨k, hk, rfl⟩ := Option.map_eq_some_iff.1 h
      have hne : whole ++ fraction ≠ [] := by simpa using hsome
      obtain ⟨n, hn⟩ := exists_digits hne (List.forall_mem_append.2 ⟨hwhole, hfraction⟩)
      have hnumber := Scientific.scaled _ tail _ k (.point whole fraction n hn)
        ((readExponent_eq_some_iff tail k).1 hk)
      rw [hn.ofDigitChars_eq, value_eq_div_mul]
      rwa [List.append_assoc, List.cons_append] at hnumber
  · simp only [htake, hdrop, hsplit] at h
    split at h
    · cases h
    · rename_i hsome
      obtain ⟨k, hk, rfl⟩ := Option.map_eq_some_iff.1 h
      have hne : whole ≠ [] := by simpa using hsome
      obtain ⟨n, hn⟩ := exists_digits hne hwhole
      have hnumber := Scientific.scaled whole rest n k (.whole whole n hn)
        ((readExponent_eq_some_iff rest k).1 hk)
      simpa [Decimal.value, hn.ofDigitChars_eq] using hnumber

/-- A text that stands for a decimal number is read as a decimal of this value. -/
theorem Scientific.exists_read {text : Text} {q : Rat} (h : Scientific text q) :
    ∃ d, Decimal.read text = some d ∧ d.value = q := by
  obtain ⟨digits, exponent, q, k, hdigits, hexponent⟩ := h
  have hk := (readExponent_eq_some_iff exponent k).2 hexponent
  cases hdigits with
  | whole _ n hn =>
      refine ⟨⟨n, k⟩, ?_, rfl⟩
      rw [read_of_digits hn hexponent.head, hk, Option.map_some]
  | point whole fraction n hn =>
      refine ⟨⟨n, k - fraction.length⟩, ?_, value_eq_div_mul n fraction.length k⟩
      rw [read_of_point hn hexponent.head, hk, Option.map_some]

/-- A decimal number begins with a digit or with a point. -/
theorem Scientific.exists_cons {text : Text} {q : Rat} (h : Scientific text q) :
    ∃ c rest, text = c :: rest ∧ (IsDigit c ∨ c = '.') := by
  obtain ⟨digits, exponent, q, k, hdigits, -⟩ := h
  cases hdigits with
  | whole _ n hn =>
      obtain ⟨hne, hall⟩ := hn.all_digits
      obtain ⟨c, rest, rfl⟩ := List.exists_cons_of_ne_nil hne
      exact ⟨c, rest ++ exponent, rfl, Or.inl (hall c List.mem_cons_self)⟩
  | point whole fraction n hn =>
      cases whole with
      | nil => exact ⟨'.', fraction ++ exponent, rfl, Or.inr rfl⟩
      | cons c rest =>
          exact ⟨c, _, rfl, Or.inl (hn.all_digits.2 c List.mem_cons_self)⟩

end Grammar

namespace Binary64

open Grammar

/-! ## Rounding a decimal -/

/-- The number of digits of a natural number tells the powers of ten around it. -/
theorem pow_length_bounds {n : Nat} (hn : n ≠ 0) :
    (10 : Rat) ^ ((Numeral.writeNat n).length - 1 : Int) ≤ n ∧
      (n : Rat) < 10 ^ ((Numeral.writeNat n).length : Int) := by
  have hpos : 0 < (Numeral.writeNat n).length := List.length_pos_iff.2 Nat.toDigits_ne_nil
  have hlt : n < 10 ^ (Numeral.writeNat n).length :=
    (Nat.length_toDigits_le_iff (by norm_num) hpos).1 le_rfl
  have hle : 10 ^ ((Numeral.writeNat n).length - 1) ≤ n := by
    rcases Nat.eq_zero_or_pos ((Numeral.writeNat n).length - 1) with hone | hmany
    · rw [hone, pow_zero]
      exact Nat.one_le_iff_ne_zero.2 hn
    · by_contra hfew
      have hlength := (Nat.length_toDigits_le_iff (by norm_num) hmany).2 (not_le.1 hfew)
      unfold Numeral.writeNat at hpos hlength
      omega
  constructor
  · rw [show ((Numeral.writeNat n).length - 1 : Int) =
      (((Numeral.writeNat n).length - 1 : Nat) : Int) by omega, zpow_natCast]
    exact_mod_cast hle
  · rw [zpow_natCast]
    exact_mod_cast hlt

/-- A rational below half of the least unit is rounded to a zero with its sign. -/
theorem ofRat_of_tiny {q : Rat} (hq : q ≠ 0) (h : |q| < 2 ^ (-1075 : Int)) (zeroNegative : Bool) :
    ofRat q zeroNegative = zero (decide (q < 0)) := by
  have hunit : unitExponent |q| = -1074 := by
    refine le_antisymm (unitExponent_le (abs_pos.2 hq) le_rfl (h.trans ?_))
      (least_le_unitExponent _)
    exact zpow_lt_zpow_right₀ one_lt_two (by omega)
  have hhalf : |q| / 2 ^ (-1074 : Int) < 1 / 2 := by
    rw [div_lt_iff₀ (by positivity)]
    calc |q| < 2 ^ (-1075 : Int) := h
      _ = 1 / 2 * 2 ^ (-1074 : Int) := by
          rw [show (-1074 : Int) = -1075 + 1 from rfl, zpow_add_one₀ two_ne_zero]
          ring
  have hround := (abs_le.1 (abs_roundHalfEven_sub_le (|q| / 2 ^ (-1074 : Int)))).2
  have hone : (roundHalfEven (|q| / 2 ^ (-1074 : Int)) : Rat) < 1 := by linarith
  have hnone : nearestUnits q = 0 := by
    rw [nearestUnits, hunit, Int.toNat_eq_zero]
    have hlt : roundHalfEven (|q| / 2 ^ (-1074 : Int)) < 1 := by exact_mod_cast hone
    omega
  rw [ofRat_eq_ofUnits hq, hnone, hunit]
  rfl

/-- A rational beyond all finite numbers is rounded to an infinity with its sign. -/
theorem ofRat_of_large {q : Rat} (h : 2 ^ (1024 : Int) ≤ |q|) (zeroNegative : Bool) :
    ofRat q zeroNegative = .infinity (decide (q < 0)) := by
  rcases ofRat_cases q zeroNegative with ⟨hsmall, -⟩ | ⟨-, hinfinity⟩
  · have hbounded := (abs_rounded_lt_iff q).1 hsmall
    exact absurd (h.trans_lt hbounded) (sub_lt_self _ (by positivity)).not_gt
  · exact hinfinity

/-- The value of a decimal lies between the powers of ten around its first digit. -/
theorem decimal_value_bounds {d : Decimal} (hd : d.digits ≠ 0) :
    (10 : Rat) ^ (((Numeral.writeNat d.digits).length : Int) + d.exponent - 1) ≤ d.value ∧
      d.value < 10 ^ (((Numeral.writeNat d.digits).length : Int) + d.exponent) := by
  have hten : (10 : Rat) ≠ 0 := by norm_num
  have hpower : (0 : Rat) < 10 ^ d.exponent := by positivity
  obtain ⟨hlow, hhigh⟩ := pow_length_bounds hd
  rw [add_sub_right_comm, zpow_add₀ hten, zpow_add₀ hten, Decimal.value]
  exact ⟨mul_le_mul_of_nonneg_right hlow hpower.le, mul_lt_mul_of_pos_right hhigh hpower⟩

/-- A sign in front of a positive rational gives it that sign and keeps its magnitude. -/
theorem abs_and_sign_of_pos (negative : Bool) {q : Rat} (hq : 0 < q) :
    |if negative then -q else q| = q ∧ decide ((if negative then -q else q) < 0) = negative := by
  cases negative with
  | false => exact ⟨abs_of_pos hq, decide_eq_false hq.le.not_gt⟩
  | true => exact ⟨(abs_neg q).trans (abs_of_pos hq), decide_eq_true (neg_neg_of_pos hq)⟩

/-- A decimal is rounded like its value, also where its power of ten is not looked at. -/
theorem ofDecimal_eq_ofRat (negative : Bool) (d : Decimal) :
    ofDecimal negative d = ofRat (if negative then -d.value else d.value) negative := by
  by_cases hzero : d.digits = 0
  · have hvalue : d.value = 0 := by
      rw [Decimal.value, hzero, Nat.cast_zero, zero_mul]
    rw [ofDecimal, if_pos (Or.inl hzero), hvalue, neg_zero, ite_self, ofRat, if_pos rfl]
  · obtain ⟨hlow, hhigh⟩ := decimal_value_bounds hzero
    have hpos : 0 < d.value := lt_of_lt_of_le (by positivity) hlow
    obtain ⟨habs, hsign⟩ := abs_and_sign_of_pos negative hpos
    have hten : (1 : Rat) ≤ 10 := by norm_num
    unfold ofDecimal
    dsimp only
    generalize ((Numeral.writeNat d.digits).length : Int) + d.exponent = places at *
    generalize (if negative then -d.value else d.value) = q at *
    rw [← habs] at hlow hhigh
    by_cases hsmall : places ≤ -324
    · have htiny : |q| < 2 ^ (-1075 : Int) :=
        calc |q| < 10 ^ places := hhigh
          _ ≤ 10 ^ (-324 : Int) := zpow_le_zpow_right₀ hten hsmall
          _ ≤ 2 ^ (-1075 : Int) := by decide +kernel
      have hne : q ≠ 0 := by
        rintro rfl
        rw [abs_zero] at habs
        exact hpos.ne habs
      rw [if_pos (Or.inr hsmall), ofRat_of_tiny hne htiny, hsign]
    · rw [if_neg (not_or.2 ⟨hzero, hsmall⟩)]
      split
      · have hlarge : 2 ^ (1024 : Int) ≤ |q| :=
          calc (2 : Rat) ^ (1024 : Int) ≤ 10 ^ (309 : Int) := by decide +kernel
            _ ≤ 10 ^ (places - 1) := zpow_le_zpow_right₀ hten (by omega)
            _ ≤ |q| := hlow
        rw [ofRat_of_large hlarge, hsign]
      · rfl

/-! ## Reading a number -/

/-- A sign is split from the text behind it. -/
theorem splitSign_cases (text : Text) :
    (∃ body, text = '-' :: body ∧ splitSign text = (true, body)) ∨
    (∃ body, text = '+' :: body ∧ splitSign text = (false, body)) ∨
    splitSign text = (false, text) := by
  unfold splitSign
  split
  · exact Or.inl ⟨_, rfl, rfl⟩
  · exact Or.inr (Or.inl ⟨_, rfl, rfl⟩)
  · exact Or.inr (Or.inr rfl)

/-- Neither a digit nor a point is changed in lower case. -/
theorem toLower_eq_self {c : Char} (h : IsDigit c ∨ c = '.') : c.toLower = c := by
  have hupper : ¬ (c.val ≥ 'A'.val ∧ c.val ≤ 'Z'.val) := by
    rintro ⟨hupper, -⟩
    rcases h with ⟨-, hhigh⟩ | rfl
    · have hle : 'A'.val ≤ '9'.val := UInt32.le_trans hupper hhigh
      exact absurd hle (by decide)
    · exact absurd hupper (by decide)
  exact dif_neg hupper

/-- What stands for a decimal number still begins with a digit or with a point in lower case. -/
theorem head_of_map_toLower {text : Text} {q : Rat} (h : Scientific text q) {first : Char}
    {others : Text} (hlower : text.map Char.toLower = first :: others) :
    IsDigit first ∨ first = '.' := by
  obtain ⟨c, rest, rfl, hc⟩ := h.exists_cons
  rw [List.map_cons, toLower_eq_self hc] at hlower
  obtain ⟨rfl, -⟩ := List.cons.inj hlower
  exact hc

/-- What stands for a decimal number behind a sign is read as the number nearest to it. -/
theorem read_of_scientific {text body : Text} {negative : Bool} {q : Rat}
    (hsplit : splitSign text = (negative, body)) (h : Scientific body q) :
    read text = some (ofRat (if negative then -q else q) negative) := by
  have hinf : body.map Char.toLower ≠ "inf".toList := by
    intro hname
    exact absurd (head_of_map_toLower h hname) (by decide)
  have hinfinity : body.map Char.toLower ≠ "infinity".toList := by
    intro hname
    exact absurd (head_of_map_toLower h hname) (by decide)
  have hnan : body.map Char.toLower ≠ "nan".toList := by
    intro hname
    exact absurd (head_of_map_toLower h hname) (by decide)
  obtain ⟨d, hd, rfl⟩ := h.exists_read
  simp only [read, hsplit]
  rw [if_neg (not_or.2 ⟨hinf, hinfinity⟩), if_neg hnan, hd, Option.map_some, ofDecimal_eq_ofRat]

/-- A text that stands for a rational is read as the number nearest to it. -/
theorem read_of_signedDecimal {text : Text} {q : Rat} (h : SignedDecimal text q) :
    ∃ zeroNegative, read text = some (ofRat q zeroNegative) := by
  cases h with
  | unsigned _ _ hq =>
      obtain ⟨c, rest, htext, hc⟩ := hq.exists_cons
      have hsplit : splitSign text = (false, text) := by
        rcases splitSign_cases text with ⟨body, rfl, -⟩ | ⟨body, rfl, -⟩ | hsplit
        · obtain ⟨rfl, -⟩ := List.cons.inj htext
          exact absurd hc (by decide)
        · obtain ⟨rfl, -⟩ := List.cons.inj htext
          exact absurd hc (by decide)
        · exact hsplit
      exact ⟨false, read_of_scientific hsplit hq⟩
  | plus body _ hq => exact ⟨false, read_of_scientific rfl hq⟩
  | minus body q hq => exact ⟨true, read_of_scientific rfl hq⟩

/-- A finite number that is read is the one nearest to the rational for which the text stands. -/
theorem signedDecimal_of_read {text : Text} {x : Binary64} (h : read text = some x)
    (hfinite : x.isFinite = true) :
    ∃ q zeroNegative, SignedDecimal text q ∧ x = ofRat q zeroNegative := by
  obtain ⟨negative, body, hsplit⟩ : ∃ negative body, splitSign text = (negative, body) :=
    ⟨_, _, rfl⟩
  simp only [read, hsplit] at h
  split at h
  · obtain rfl := Option.some.inj h
    cases hfinite
  · split at h
    · obtain rfl := Option.some.inj h
      cases hfinite
    · obtain ⟨d, hd, rfl⟩ := Option.map_eq_some_iff.1 h
      have hbody := scientific_of_read hd
      refine ⟨_, negative, ?_, ofDecimal_eq_ofRat negative d⟩
      rcases splitSign_cases text with ⟨rest, rfl, hsign⟩ | ⟨rest, rfl, hsign⟩ | hsign
      · obtain ⟨rfl, rfl⟩ := Prod.mk.inj (hsign.symm.trans hsplit)
        exact .minus rest _ hbody
      · obtain ⟨rfl, rfl⟩ := Prod.mk.inj (hsign.symm.trans hsplit)
        exact .plus rest _ hbody
      · obtain ⟨rfl, rfl⟩ := Prod.mk.inj (hsign.symm.trans hsplit)
        exact .unsigned text _ hbody

/-- A text is read as a number with a value other than zero exactly when it stands for a rational to
which this number is the nearest. -/
theorem read_eq_some_iff_nearest (text : Text) (x : Binary64) {r : Rat} (hr : r ≠ 0) :
    read text = some x ∧ x.toRat? = some r ↔ ∃ q, SignedDecimal text q ∧ Nearest q x r := by
  constructor
  · rintro ⟨hread, hvalue⟩
    obtain ⟨q, zeroNegative, hq, rfl⟩ := signedDecimal_of_read hread (isFinite_of_toRat? hvalue)
    exact ⟨q, hq, nearest_ofRat hvalue⟩
  · rintro ⟨q, hq, hnearest⟩
    obtain ⟨zeroNegative, hread⟩ := read_of_signedDecimal hq
    obtain ⟨rfl, hvalue⟩ := (nearest_iff hr zeroNegative).1 hnearest
    exact ⟨hread, hvalue⟩

end Binary64

end MixedNumbers
