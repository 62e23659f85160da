import MixedNumbers.Binary64.Basic

/-!
# The 64-bit encoding

A binary64 number is encoded as a sign bit, eleven bits of biased exponent and 52 bits of
fraction. The least biased exponent, zero, marks the numbers without an implicit leading
digit, and the greatest one, 2047, the infinities and, with any fraction but zero, not-a-number.
`ofBits_toBits` says that a number is the one its encoding stands for.
-/

namespace MixedNumbers.Binary64

/-- The bit pattern with a sign bit, a biased exponent and a fraction. -/
def pack (negative : Bool) (biased fraction : Nat) : Nat :=
  ((if negative then 0x800 else 0) + biased) * 0x10000000000000 + fraction

/-- The number with a sign bit, a biased exponent and a fraction. -/
def ofFields (negative : Bool) (biased fraction : Nat) : Binary64 :=
  if biased = 0x7ff then
    if fraction = 0 then .infinity negative else .nan
  else
    let significand := if biased = 0 then fraction else 0x10000000000000 + fraction
    let exponent : Int := if biased = 0 then -1074 else (biased : Int) - 1075
    if h : Canonical significand exponent then .finite negative significand exponent h else .nan

/-- The number that a bit pattern stands for. Bits above the sign bit count for nothing. -/
def ofBits (bits : Nat) : Binary64 :=
  ofFields (bits / 0x8000000000000000 % 2 == 1) (bits / 0x10000000000000 % 0x800)
    (bits % 0x10000000000000)

/-- The bit pattern of a number; not-a-number has a positive quiet pattern. -/
def toBits : Binary64 → Nat
  | .nan => pack false 0x7ff 0x8000000000000
  | .infinity negative => pack negative 0x7ff 0
  | .finite negative significand exponent _ =>
      if significand < 0x10000000000000 then pack negative 0 significand
      else pack negative (exponent + 1075).toNat (significand - 0x10000000000000)

/-- Packed fields that fit their widths are read back. -/
theorem ofBits_pack (negative : Bool) (biased fraction : Nat) (hbiased : biased < 0x800)
    (hfraction : fraction < 0x10000000000000) :
    ofBits (pack negative biased fraction) = ofFields negative biased fraction := by
  have hsign : (pack negative biased fraction / 0x8000000000000000 % 2 == 1) = negative := by
    cases negative <;> simp [pack] <;> omega
  have hexponent : pack negative biased fraction / 0x10000000000000 % 0x800 = biased := by
    cases negative <;> simp [pack] <;> omega
  have hrest : pack negative biased fraction % 0x10000000000000 = fraction := by
    cases negative <;> simp [pack] <;> omega
  rw [ofBits, hsign, hexponent, hrest]

/-- A number is the one that its bit pattern stands for. -/
theorem ofBits_toBits (x : Binary64) : ofBits (toBits x) = x := by
  cases x with
  | nan => rfl
  | infinity negative => cases negative <;> rfl
  | finite negative significand exponent hcanonical =>
      obtain ⟨hlt, hge, hle, hleast⟩ := id hcanonical
      by_cases hsmall : significand < 0x10000000000000
      · have hexponent : exponent = -1074 := by omega
        subst hexponent
        rw [toBits, if_pos hsmall, ofBits_pack _ _ _ (by omega) hsmall]
        simp [ofFields, hcanonical]
      · have hbiased : ((exponent + 1075).toNat : Int) - 1075 = exponent := by omega
        have hsum : 0x10000000000000 + (significand - 0x10000000000000) = significand := by omega
        have hzero : (exponent + 1075).toNat ≠ 0 := by omega
        have htop : (exponent + 1075).toNat ≠ 0x7ff := by omega
        rw [toBits, if_neg hsmall, ofBits_pack _ _ _ (by omega) (by omega)]
        simp only [ofFields, if_neg htop, if_neg hzero, hbiased, hsum, dif_pos hcanonical]

end MixedNumbers.Binary64
