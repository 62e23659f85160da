import MixedNumbers.Text.Basic

/-!
# The help text

What the program says about itself: its name and version, and how it is used.
-/

namespace MixedNumbers

/-- The lines of the help text. -/
def usageLines : List String := [
  "A simple calculator that takes operations on fractions as input and produces a " ++
    "fractional result.",
  "",
  "USAGE:",
  "  fraction-calc [OPTIONS] [EXPRESSION...]",
  "",
  "Without an expression the calculator reads one expression per line; type 'exit' to quit.",
  "",
  "  * Legal operators are *, /, +, - (multiply, divide, add, subtract).",
  "  * Operands and operators shall be separated by one or more spaces.",
  "  * Mixed numbers shall be represented by whole&numerator/denominator; for example " ++
    "\"3&1/4\" or \"-1&7/8\".",
  "  * Improper fractions, whole numbers, and negative numbers are allowed as operands.",
  "",
  "OPTIONS:",
  "  --float            Evaluate with floating point and recover the fraction afterwards",
  "  --epsilon <VALUE>  Tolerance for recovering fractions (implies --float, default 1e-6)",
  "  -h, --help         Print this help",
  "  -V, --version      Print the version",
  "",
  "Example runs (where ? represents the command prompt):",
  "  ? 1/2 * 3&3/4",
  "  = 1&7/8",
  "",
  "  ? 2&3/8 + 9/8",
  "  = 3&1/2",
  "",
  "  ? 1&3/4 - 2",
  "  = -1/4"]

/-- The help text. -/
def usage : Text :=
  ['\n'].intercalate (usageLines.map String.toList)

/-- The name of the program and its version. -/
def versionLine : Text :=
  "fraction-calc 1.0.0".toList

end MixedNumbers
