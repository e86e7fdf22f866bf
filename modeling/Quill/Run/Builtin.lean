-- What the built-in functions do.
import Quill.Run.State

namespace Quill.Run

/-- The text that bytes stand for. -/
def decode (bytes : ByteArray) : Except FileError String :=
  match String.fromUTF8? bytes with
  | some s => return s
  | none => .error .notText

/-- The line without the line feeds and carriage returns at its end. -/
def stripLineEnd (line : String) : String :=
  String.ofList (line.toList.reverse.dropWhile fun c => c = '\n' || c = '\r').reverse

/-- The path that an argument names. -/
def path (b : Builtin) (v : Value) (span : Span) : Run String :=
  match v with
  | .string s => pure s
  | v => failBuiltin (.notPath b v.kind) span

/-- Prints a value on a line of its own. -/
def outputLine (v : Value) (span : Span) : Run Value := do
  print ((← withHeap v.text) ++ "\n") span
  return .void

/-- Reads a line. After the last one there are only empty lines. -/
def inputLine (span : Span) : Run Value := do
  flush span
  match (← ask .line).bind decode with
  | .ok line => return .string (stripLineEnd line)
  | .error e => failBuiltin (.unreadableInput e) span

/-- Reads a file as text. -/
def readFile (p : String) (span : Span) : Run Value := do
  match (← ask (.read p)).bind decode with
  | .ok text => return .string text
  | .error e => failBuiltin (.unreadableFile p e) span

/-- Writes the text of a value to a file. -/
def writeFile (p : String) (v : Value) (span : Span) : Run Value := do
  match ← ask (.write p (← withHeap v.text).toUTF8) with
  | .ok _ => return .void
  | .error e => failBuiltin (.unwritableFile p e) span

/-- The length of an array or a string. -/
def lengthOf (v : Value) (span : Span) : Run Value := do
  match ← withHeap v.length? with
  | some n =>
    if n ≤ Int64.maxValue.toInt.toNat then return .int (Int64.ofNat n)
    else failBuiltin .longLength span
  | none => failBuiltin (.noLength v.kind) span

/-- Calls a built-in function by its name. -/
def invoke (name : String) (args : List Value) (span : Span) : Run Value :=
  match Builtin.ofName? name, args with
  | some .output, [v] => outputLine v span
  | some .input, [] => inputLine span
  | some .read, [p] => do readFile (← path .read p span) span
  | some .write, [p, v] => do writeFile (← path .write p span) v span
  | some .length, [v] => lengthOf v span
  | _, _ => fail (.arity name) span

end Quill.Run
