import MixedNumbers.Binary64.Rounding
import MixedNumbers.Decimal

/-!
# Reading and writing a binary64 number

A number is read from an optional sign and either a decimal or one of the names `inf`,
`infinity` and `nan` in letters of any case. A decimal is read as the nearest binary64
number.

A finite number is written as the decimal with the fewest digits that is rounded to the
number again. The search goes through the powers of ten downwards from above the number;
on each it tries the two multiples next to the number, and the first power with a hit
wins. Of two hits the nearer one is taken, and the larger one when both are equally near.
No exponent is ever written, and no point for a whole number. `readsBack_of_searchGrids`
says that every hit is rounded to the number.
-/

namespace MixedNumbers.Binary64

/-! ## Reading -/

/-- The binary64 number nearest to a decimal with a sign. A decimal of `10 ^ 309` or more is beyond
all finite numbers, and one below `10 ^ (-324)` is nearest to zero, so neither needs its power of
ten. -/
def ofDecimal (negative : Bool) (d : Decimal) : Binary64 :=
  let places := ((Numeral.writeNat d.digits).length : Int) + d.exponent
  if d.digits = 0 ∨ places ≤ -324 then zero negative
  else if 309 < places then .infinity negative
  else ofRat (if negative then -d.value else d.value) negative

/-- Whether a text begins with a minus sign, and the text behind its sign, if it has one. -/
def splitSign : Text → Bool × Text
  | '-' :: rest => (true, rest)
  | '+' :: rest => (false, rest)
  | rest => (false, rest)

/-- The binary64 number that a text denotes. -/
def read (text : Text) : Option Binary64 :=
  let (negative, body) := splitSign text
  let lowered := body.map Char.toLower
  if lowered = "inf".toList ∨ lowered = "infinity".toList then some (.infinity negative)
  else if lowered = "nan".toList then some .nan
  else (Decimal.read body).map (ofDecimal negative)

/-! ## Writing -/

/-- The exponent of the leading decimal digit of a positive rational: the greatest `n` with
`10 ^ n` not above it. -/
def leadingPlace (magnitude : Rat) : Int :=
  let estimate : Int :=
    ((Numeral.writeNat magnitude.num.natAbs).length : Int) -
      ((Numeral.writeNat magnitude.den).length : Int)
  if (10 : Rat) ^ estimate ≤ magnitude then estimate else estimate - 1

/-- The decimal is rounded to the number of this value. -/
def readsBack (magnitude : Rat) (d : Decimal) : Bool :=
  ofRat d.value false == ofRat magnitude false

/-- The multiple of a power of ten that is rounded to the number, if there is one next to it; of
two, the nearer one, or the larger one if both are equally near. -/
def nearestOnGrid (magnitude : Rat) (exponent : Int) : Option Decimal :=
  let count := (magnitude / (10 : Rat) ^ exponent).floor.toNat
  let below : Decimal := ⟨count, exponent⟩
  let above : Decimal := ⟨count + 1, exponent⟩
  match readsBack magnitude below, readsBack magnitude above with
  | true, true =>
      if magnitude - below.value < above.value - magnitude then some below else some above
  | true, false => some below
  | false, true => some above
  | false, false => none

/-- All digits of `significand * 2 ^ exponent`. -/
def exactDecimal (significand : Nat) (exponent : Int) : Decimal :=
  if 0 ≤ exponent then ⟨significand * Nat.pow 2 exponent.toNat, 0⟩
  else ⟨significand * Nat.pow 5 (-exponent).toNat, exponent⟩

/-- The first hit on the given number of powers of ten, from the given one downwards. -/
def searchGrids (magnitude : Rat) : Nat → Int → Option Decimal
  | 0, _ => none
  | grids + 1, exponent =>
      match nearestOnGrid magnitude exponent with
      | some d => some d
      | none => searchGrids magnitude grids (exponent - 1)

/-- The decimal with the fewest digits that is rounded to `significand * 2 ^ exponent`. Eighteen
powers of ten are enough for seventeen digits; should they not do, all digits are given. -/
def shortest (significand : Nat) (exponent : Int) : Decimal :=
  let magnitude := scaled false significand exponent
  match searchGrids magnitude 18 (leadingPlace magnitude + 1) with
  | some d => d
  | none => exactDecimal significand exponent

/-- The number as text. Zero and infinity show their signs. -/
def write : Binary64 → Text
  | .nan => "NaN".toList
  | .infinity negative => signText negative ++ "inf".toList
  | .finite negative significand exponent _ =>
      signText negative ++
        (if significand = 0 then ['0'] else (shortest significand exponent).positional)
where
  /-- The minus sign of a negative number. -/
  signText (negative : Bool) : Text := if negative then ['-'] else []

/-- A hit on one power of ten is rounded to the number. -/
theorem readsBack_of_nearestOnGrid {magnitude : Rat} {exponent : Int} {d : Decimal}
    (hfound : nearestOnGrid magnitude exponent = some d) : readsBack magnitude d = true := by
  unfold nearestOnGrid at hfound
  simp only at hfound
  split at hfound
  · split at hfound <;> simp_all
  · simp_all
  · simp_all
  · simp at hfound

/-- Every hit of the search is rounded to the number. -/
theorem readsBack_of_searchGrids {magnitude : Rat} {grids : Nat} {exponent : Int} {d : Decimal}
    (hfound : searchGrids magnitude grids exponent = some d) : readsBack magnitude d = true := by
  induction grids generalizing exponent with
  | zero => simp [searchGrids] at hfound
  | succ grids ih =>
      simp only [searchGrids] at hfound
      split at hfound
      · rename_i hit hhit
        simp only [Option.some.injEq] at hfound
        exact hfound ▸ readsBack_of_nearestOnGrid hhit
      · exact ih hfound

end MixedNumbers.Binary64
