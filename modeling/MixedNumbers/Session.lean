import MixedNumbers.CommandLine
import MixedNumbers.Text.Display
import MixedNumbers.Usage

/-!
# Runs of the program

A run answers one expression from its arguments, or one on every line of its input. The
input is bytes; a line ends with its line feed, and the last one may lack it. A line that
is not UTF-8 ends the run with code 1, a line that says to leave ends it with code 0, and
blank lines are passed over. `run` is the whole run as a function from the arguments and
the input to what is printed and the exit code. Log records are not part of that: neither
those of the calculations nor the two that a run adds, for debugging what it was asked for,
and as an error that its input could not be read.
-/

namespace MixedNumbers.Session

/-- How a run shows and calculates its answers. -/
structure Console where
  color : Bool
  precision : Precision

/-- What a run prints on its two outputs, and its exit code. -/
structure Output where
  stdout : Text
  stderr : Text
  code : Nat
deriving DecidableEq, Repr

/-- The text asks to leave. -/
def isFarewell (text : Text) : Bool :=
  let trimmed := text.trim
  trimmed = "exit".toList || trimmed = "quit".toList

/-- What is printed on leaving. -/
def farewell : Text :=
  "Application has ended.\n".toList

/-- What is printed when a run starts to ask for expressions. -/
def banner : Text :=
  "Enter an expression such as 1/2 * 3&3/4, or 'exit' to quit.\n".toList

/-- What is printed before a line is read. -/
def prompt : Text :=
  ['?', ' ']

/-- The line that shows a result. -/
def resultLine (color : Bool) (result : Text) : Text :=
  '=' :: ' ' :: Text.styled color .bold result ++ ['\n']

/-- The line that shows why there is no result. -/
def errorLine (color : Bool) (error : CalculationError) : Text :=
  Text.styled color .red error.message ++ ['\n']

/-- Answer a single expression: results go to the standard output, errors to the other one. -/
def answerOnce (console : Console) (expression : Text) : Output :=
  if isFarewell expression then ⟨farewell, [], 0⟩
  else
    match calculate console.precision expression with
    | .ok result => ⟨resultLine console.color result, [], 0⟩
    | .error error => ⟨[], errorLine console.color error, 1⟩

/-- The reply to one line: what is printed, and the exit code if the line ends the run. -/
structure Reply where
  printed : Text
  exitCode : Option Nat
deriving DecidableEq, Repr

/-- A character that ends lines. -/
def isLineEnding (c : Char) : Bool :=
  c = '\n' || c = '\r'

/-- The reply to a line that is text. -/
def replyToText (console : Console) (line : Text) : Reply :=
  let input := Text.dropEndWhile isLineEnding line
  if input.trim.isEmpty then ⟨[], none⟩
  else if isFarewell input then ⟨farewell, some 0⟩
  else
    match calculate console.precision input with
    | .ok result => ⟨resultLine console.color result, none⟩
    | .error error => ⟨errorLine console.color error, none⟩

/-- The text that bytes encode in UTF-8. -/
def decode (bytes : List UInt8) : Option Text :=
  (String.fromUTF8? ⟨bytes.toArray⟩).map String.toList

/-- The reply to a line of bytes. -/
def reply (console : Console) (line : List UInt8) : Reply :=
  match decode line with
  | none => ⟨[], some 1⟩
  | some text => replyToText console text

/-- Cut bytes after every line feed. -/
def cutLines : List UInt8 → List (List UInt8)
  | [] => []
  | byte :: rest =>
      if byte = 0x0a then [byte] :: cutLines rest
      else
        match cutLines rest with
        | [] => [[byte]]
        | line :: lines => (byte :: line) :: lines

/-- What is printed for the lines of the input, and the exit code. Each line is answered behind a
prompt; when none is left, the prompt is followed by a line feed. -/
def transcript (console : Console) : List (List UInt8) → Text × Nat
  | [] => (prompt ++ ['\n'], 0)
  | line :: lines =>
      let answer := reply console line
      match answer.exitCode with
      | some code => (prompt ++ answer.printed, code)
      | none =>
          let (printed, code) := transcript console lines
          (prompt ++ answer.printed ++ printed, code)

/-- The part of a run that asks for expressions: the banner, and an answer to every line of the
input up to one that ends the run. -/
def dialogue (console : Console) (input : List UInt8) : Output :=
  let (printed, code) := transcript console (cutLines input)
  ⟨banner ++ printed, [], code⟩

/-- How a run begins: it is over at once, or it asks for expressions. -/
inductive Start where
  | finished (output : Output)
  | interactive (console : Console)

/-- Begin a run with the given arguments. -/
def start (color : Bool) (arguments : List Text) : Start :=
  match CommandLine.read arguments with
  | .error error =>
      .finished ⟨[], Text.styled color .boldRed "error:".toList ++ ' ' :: error.message ++
        "\nRun with --help for usage.\n".toList, 2⟩
  | .ok ⟨.help, _⟩ => .finished ⟨usage ++ ['\n'], [], 0⟩
  | .ok ⟨.version, _⟩ => .finished ⟨versionLine ++ ['\n'], [], 0⟩
  | .ok ⟨.calculate expression, precision⟩ => .finished (answerOnce ⟨color, precision⟩ expression)
  | .ok ⟨.repl, precision⟩ => .interactive ⟨color, precision⟩

/-- A whole run: what it prints for its arguments and its input, and its exit code. -/
def run (color : Bool) (arguments : List Text) (input : List UInt8) : Output :=
  match start color arguments with
  | .finished output => output
  | .interactive console => dialogue console input

end MixedNumbers.Session
