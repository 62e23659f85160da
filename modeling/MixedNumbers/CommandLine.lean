import MixedNumbers.Calculation

/-!
# The command line

Arguments are read from left to right. The first help or version option, the first unknown
option and the first fault in a tolerance decide at once, and nothing after them counts.
An argument that is not an option belongs to the expression, also when it begins with one
minus sign. The value of a tolerance option is the next argument, whatever it looks like.
The last tolerance given is the one that holds, and asking for binary64 without one means
the default tolerance.
-/

namespace MixedNumbers

/-- What a run is to do. -/
inductive Command where
  | calculate (expression : Text)
  | repl
  | help
  | version
deriving DecidableEq, Repr

/-- What the arguments ask for: a command and the precision of its calculations. -/
structure CommandLine where
  command : Command
  precision : Precision
deriving DecidableEq

/-- The faults of a command line. -/
inductive CommandLineError where
  | unknownOption (option : Text)
  | missingValue (option : Text)
  | invalidTolerance (value : Text)
deriving DecidableEq, Repr

/-- The wording of a fault. -/
def CommandLineError.message : CommandLineError → Text
  | .unknownOption option => "unknown option '".toList ++ option ++ ['\'']
  | .missingValue option => "option '".toList ++ option ++ "' needs a value".toList
  | .invalidTolerance value => '\'' :: value ++ "' is not a positive tolerance".toList

/-- The kinds of argument. -/
inductive ArgumentKind where
  | help
  | version
  | float
  | tolerance
  | unknown
  | operand
deriving DecidableEq, Repr

/-- The kind of an argument. Everything else that begins with two minus signs is an unknown
option. -/
def ArgumentKind.ofText (argument : Text) : ArgumentKind :=
  if argument = "-h".toList ∨ argument = "--help".toList then .help
  else if argument = "-V".toList ∨ argument = "--version".toList then .version
  else if argument = "--float".toList then .float
  else if argument = "--epsilon".toList then .tolerance
  else
    match argument with
    | '-' :: '-' :: _ => .unknown
    | _ => .operand

/-- The tolerance that a text denotes, which is a finite number greater than zero. -/
def readTolerance (text : Text) : Option Binary64 :=
  (Binary64.read text).filter Binary64.isPositiveFinite

/-- Calculate in binary64: with the tolerance already given, or else with the default one. -/
def Precision.inBinary64 : Precision → Precision
  | .exact => .float defaultTolerance
  | .float tolerance => .float tolerance

namespace CommandLine

/-- The command that is left when no argument decided: to calculate the collected expression, or
to ask for expressions when there is none. -/
def ofOperands : List Text → Command
  | [] => .repl
  | operands => .calculate (Text.unwords operands)

/-- Read the remaining arguments, given the precision and the operands collected so far. -/
def readFrom (precision : Precision) (operands : List Text) :
    List Text → Except CommandLineError CommandLine
  | [] => .ok ⟨ofOperands operands, precision⟩
  | argument :: rest =>
      match ArgumentKind.ofText argument with
      | .help => .ok ⟨.help, precision⟩
      | .version => .ok ⟨.version, precision⟩
      | .float => readFrom precision.inBinary64 operands rest
      | .tolerance =>
          match rest with
          | [] => .error (.missingValue argument)
          | value :: others =>
              match readTolerance value with
              | none => .error (.invalidTolerance value)
              | some tolerance => readFrom (.float tolerance) operands others
      | .unknown => .error (.unknownOption argument)
      | .operand => readFrom precision (operands ++ [argument]) rest

/-- What the arguments of a run ask for. -/
def read (arguments : List Text) : Except CommandLineError CommandLine :=
  readFrom .exact [] arguments

end CommandLine

end MixedNumbers
