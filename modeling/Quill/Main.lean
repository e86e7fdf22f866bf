-- The program: it reads its arguments, carries out the command they name
-- and answers what the command asks of the outside. A command is carried
-- out anew after each answer, with all answers given so far, and what it
-- had printed before is not printed again.
import Quill.CommandLine
import Quill.Session
import Quill.Session.Directive

namespace Quill.Main

/-- The cause of a failed access to a file. -/
def fileError : IO.Error → FileError
  | .noFileOrDirectory .. => .notFound
  | .inappropriateType _ code _ => if code = 21 then .isDirectory else .notDirectory
  | .invalidArgument .. => .nameTooLong
  | e => .other (toString e)

/-- Does something with a file, unless its name cannot be one. -/
def withFile (path : String) (access : IO ByteArray) : IO Answer := do
  if '\x00' ∈ path.toList then return .error .nulInName
  try
    return .ok (← access)
  catch e =>
    return .error (fileError e)

/-- What the outside answers to a request. -/
def perform : Request → IO Answer
  | .line => do
    try
      return .ok (← (← IO.getStdin).getLine).toUTF8
    catch _ =>
      return .error .notText
  | .read path => withFile path (IO.FS.readBinFile path)
  | .write path bytes => withFile path do
    IO.FS.writeBinFile path bytes
    return .empty

/-- Prints what is new in a text of which `printed` characters have been
printed before. Gives the error if that fails. -/
def printFrom (printed : Nat) (text : String) : IO (Option FileError) := do
  if text.length ≤ printed then return none
  try
    IO.print (String.ofList (text.toList.drop printed))
    (← IO.getStdout).flush
    return none
  catch e =>
    return some (fileError e)

/-- The exit code after a crash. -/
def crashCode : UInt32 := 101

/-- Tells of a crash. -/
def tellCrash (cause : Crash) : IO Unit := IO.eprintln s!"panicked: {cause.message}"

/-- Carries out a command to its end. If its output is not taken it is
carried out anew, and meets the error where it prints. -/
partial def carryOut (c : Command) (answers : List Answer) (sink : Sink) (printed : Nat) :
    IO UInt32 := do
  let (out, finish) : String × IO UInt32 :=
    match c.execute Run.plentyOfFuel ⟨.replay answers, sink⟩ with
    | .done success out err _ => (out, do
      IO.eprint err
      return if success then 0 else 1)
    | .crashed cause out => (out, do
      tellCrash cause
      return crashCode)
    | .waiting request out => (out, do
      carryOut c (answers ++ [← perform request]) sink out.length)
  match ← printFrom printed out with
  | none => finish
  | some e =>
    if sink = .endless then carryOut c answers (.limited printed e) printed else return crashCode

/-- Checks and runs one line to its end. There is no session any more after
a crash. -/
partial def answerLine (s : Session) (limit : Nat) (line : String) (answers : List Answer)
    (sink : Sink) (printed : Nat) : IO (Option Session) := do
  let before := { s with
    state := { s.state with output := "", outside := ⟨.replay answers, sink⟩ } }
  let (after, result) := before.evalLine limit Run.plentyOfFuel line
  let out := after.state.output
  if let some e ← printFrom printed out then
    if sink = .endless then return ← answerLine s limit line answers (.limited printed e) printed
    else return none
  match result with
  | .error (.halted (.awaits request)) =>
    answerLine s limit line (answers ++ [← perform request]) sink out.length
  | .error (.halted (.crash cause)) =>
    tellCrash cause
    return none
  | .error e =>
    IO.eprintln e.text
    return some after
  | .ok (some v) =>
    IO.println (v.text after.state.heap)
    return some after
  | .ok none => return some after

/-- Reads and answers lines until there are no more. -/
partial def prompt (s : Session) (limit : Nat) : IO UInt32 := do
  IO.print "> "
  (← IO.getStdout).flush
  let input ← (← IO.getStdin).getLine
  if input.isEmpty then
    IO.print Directive.farewell
    return 0
  let line := String.ofList (Text.trimBlanks input.toList)
  if line.isEmpty then prompt s limit
  else if line.startsWith ":" then
    let directive := Directive.ofText line
    IO.print directive.reply
    if directive ≠ .quit then prompt s limit else return 0
  else
    match ← answerLine s limit line [] .endless 0 with
    | some after => prompt after limit
    | none => return crashCode

/-- What is said to arguments that nobody can mean. -/
def usage : String :=
  "Usage: quill <run|check|parse|tokens|repl> [FILE] [--plain] [--max-call-depth N]\n"

end Quill.Main

def main (args : List String) : IO UInt32 := do
  match Quill.Command.ofArgs? args with
  | none =>
    IO.eprint Quill.Main.usage
    return 2
  | some (.repl options) =>
    IO.print Quill.Directive.greeting
    Quill.Main.prompt (.initial (.replay [])) options.limit
  | some c => Quill.Main.carryOut c [] .endless 0
