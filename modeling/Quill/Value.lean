-- The values that programs compute with. Arrays are kept in a store and a
-- value only names one, so that two values can share an array.
import Quill.Function

namespace Quill

/-- The kinds of values. -/
inductive Kind where
  | int | float | bool | string | array | function | void
deriving DecidableEq, Repr

/-- The name of a kind as messages write it. -/
def Kind.text : Kind → String
  | .int => "int"
  | .float => "float"
  | .bool => "bool"
  | .string => "string"
  | .array => "array"
  | .function => "function"
  | .void => "void"

/-- The number of an array in the store. -/
abbrev ArrayId := Nat

/-- A value. The number of a function tells it from all others that are
otherwise alike. -/
inductive Value where
  | int (n : Int64)
  | float (x : Float)
  | bool (b : Bool)
  | string (s : String)
  | array (id : ArrayId)
  | function (f : Function) (id : Nat)
  | void

instance : Inhabited Value := ⟨.void⟩

namespace Value

/-- The kind of a value. -/
def kind : Value → Kind
  | int _ => .int
  | float _ => .float
  | bool _ => .bool
  | string _ => .string
  | array _ => .array
  | function _ _ => .function
  | void => .void

/-- A number as a float; an integer is rounded to the nearest one. -/
def asFloat? : Value → Option Float
  | int n => some (Float.ofInt n.toInt)
  | float x => some x
  | _ => none

end Value

/-! ## Errors -/

/-- What breaks the program that runs, and not only what it runs. These are
no errors of the language. -/
inductive Crash where
  /-- More elements at once than an array has room for. -/
  | capacity
  /-- A remainder by zero. -/
  | remainder
  /-- An element past the end of an array. -/
  | bounds
deriving DecidableEq, Repr

/-- The wording of a crash. -/
def Crash.message : Crash → String
  | .capacity => "capacity overflow"
  | .remainder => "attempt to calculate the remainder with a divisor of zero"
  | .bounds => "index out of bounds"

/-- Why an operation on values has no result: one of the errors of the
language, or a crash. -/
inductive OpError where
  | unsupported
  | divisionByZero
  | overflow
  | indexOutOfRange (index : Int64) (length : Nat)
  | negativeCount (count : Int64)
  | invalidConversion (text : String) (target : TypeName)
  | crash (cause : Crash)
deriving DecidableEq, Repr

/-- The wording of a failed operation. -/
def OpError.message : OpError → String
  | .unsupported => "unsupported operand kinds"
  | .divisionByZero => "division by zero"
  | .overflow => "result too large"
  | .indexOutOfRange index length => s!"index {index.toInt} out of range for length {length}"
  | .negativeCount count => s!"negative repetition count {count.toInt}"
  | .invalidConversion text target => s!"cannot convert {text} to {target.text}"
  | .crash cause => cause.message

end Quill
