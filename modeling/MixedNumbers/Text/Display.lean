import MixedNumbers.Text.Basic

/-!
# Texts as they are shown

Two forms in which a text is shown. The quoted form stands between double quotes and shows
the control characters of ASCII; it is the form of the words in a record. A style is
switched on by a terminal control sequence with the style's number and switched off by the
reset sequence. Text that holds a reset sequence itself would end the style too early, so
the style is switched on again after each of them.
-/

namespace MixedNumbers.Text

/-! ## Quoted text -/

/-- The form of one character inside quotes. A quote, a backslash, a tab, a line feed, a carriage
return and a null character are a backslash and one letter, and any other ASCII control character is
its code in hexadecimal. The other characters stand for themselves. That some characters beyond
ASCII have no printed form, or combine with the one before them, and would be better shown by their
codes too, is not modelled. -/
def escape (c : Char) : Text :=
  if c = '"' then ['\\', '"']
  else if c = '\\' then ['\\', '\\']
  else if c = '\t' then ['\\', 't']
  else if c = '\n' then ['\\', 'n']
  else if c = '\r' then ['\\', 'r']
  else if c = '\x00' then ['\\', '0']
  else if c.toNat < 0x20 || c.toNat == 0x7f then
    ['\\', 'u', '\x7b'] ++ Nat.toDigits 16 c.toNat ++ ['\x7d']
  else [c]

/-- The text between double quotes, with its special characters escaped. -/
def quoted (text : Text) : Text :=
  '"' :: text.flatMap escape ++ ['"']

/-! ## Styled text -/

/-- The styles in which answers and messages are shown. -/
inductive Style where
  | bold
  | red
  | boldRed
deriving DecidableEq, Repr

/-- The escape character that starts every control sequence. -/
def escapeCharacter : Char := '\x1b'

/-- The sequence that switches a style on. -/
def Style.opening (style : Style) : Text :=
  let number := match style with
    | .bold => ['1']
    | .red => ['3', '1']
    | .boldRed => ['1', ';', '3', '1']
  [escapeCharacter, '['] ++ number ++ ['m']

/-- The sequence that switches every style off. -/
def styleReset : Text :=
  [escapeCharacter, '[', '0', 'm']

/-- Put a text behind every occurrence of the reset sequence, read from left to right. -/
def insertAfterResets (opening : Text) : Text → Text
  | '\x1b' :: '[' :: '0' :: 'm' :: rest =>
      styleReset ++ opening ++ insertAfterResets opening rest
  | c :: rest => c :: insertAfterResets opening rest
  | [] => []

/-- Show a text in a style, or leave it as it is when styles are off. -/
def styled (enabled : Bool) (style : Style) (text : Text) : Text :=
  if enabled then style.opening ++ insertAfterResets style.opening text ++ styleReset else text

end MixedNumbers.Text
