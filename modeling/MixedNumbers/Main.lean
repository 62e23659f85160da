import MixedNumbers.Session

/-!
# The program

The outer layer of a run: it takes the arguments and the environment, prints what the
session prints, and reads the standard input line by line.
-/

namespace MixedNumbers

/-- Read bytes up to and including the next line feed, or up to the end of the input. -/
partial def readLine (input : IO.FS.Stream) (line : ByteArray) : IO ByteArray := do
  let byte ← input.read 1
  if byte.isEmpty then return line
  let longer := line ++ byte
  if byte.toList = [0x0a] then return longer else readLine input longer

/-- Prompt for lines and answer them until one of them ends the run or the input is at its end. -/
partial def converse (console : Session.Console) (input output : IO.FS.Stream) : IO UInt32 := do
  output.putStr (String.ofList Session.prompt)
  output.flush
  let line ← readLine input ByteArray.empty
  if line.isEmpty then
    output.putStr "\n"
    return 0
  let answer := Session.reply console line.toList
  output.putStr (String.ofList answer.printed)
  match answer.exitCode with
  | some code => return code.toUInt32
  | none => converse console input output

/-- Whether answers are shown in color: the environment may force it or forbid it, and otherwise
it takes a terminal. -/
def wantsColor (output : IO.FS.Stream) : IO Bool := do
  let forced ← IO.getEnv "CLICOLOR_FORCE"
  let forbidden ← IO.getEnv "NO_COLOR"
  let allowed ← IO.getEnv "CLICOLOR"
  if forced.any (· ≠ "0") then return true
  if forbidden.isSome then return false
  return allowed.all (· ≠ "0") && (← output.isTty)

end MixedNumbers

/-- Run the program. -/
def main (arguments : List String) : IO UInt32 := do
  let input ← IO.getStdin
  let output ← IO.getStdout
  let color ← MixedNumbers.wantsColor output
  match MixedNumbers.Session.start color (arguments.map String.toList) with
  | .finished result =>
      output.putStr (String.ofList result.stdout)
      output.flush
      (← IO.getStderr).putStr (String.ofList result.stderr)
      return result.code.toUInt32
  | .interactive console =>
      output.putStr (String.ofList MixedNumbers.Session.banner)
      MixedNumbers.converse console input output
