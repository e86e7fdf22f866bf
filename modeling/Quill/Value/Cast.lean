-- Conversions between kinds of values.
import Quill.Decimal.Read
import Quill.Text.Blank
import Quill.Value.Operator
import Quill.Value.Show

namespace Quill.Value

/-- A float without its fraction, if that is an integer of 64 bits. -/
def intOfFloat? (x : Float) : Option Int64 :=
  if x.isNaN || x.isInf then none
  else
    let size := (Decimal.Binary.ofFloat x).floor
    (fit (if x < 0.0 then -size else size)).toOption

/-- The integer that a text stands for. Blanks around it do not
matter. -/
def intOfText? (s : String) : Option Int64 :=
  match Decimal.readInt? UInt64.size (Text.trimBlanks s.toList) with
  | some n => (fit n).toOption
  | none => none

/-- The float that a text stands for. -/
def floatOfText? (s : String) : Option Float := Decimal.readFloat? (Text.trimBlanks s.toList)

/-- The truth value that a text stands for. -/
def boolOfText? (s : String) : Option Bool :=
  match String.ofList (Text.trimBlanks s.toList) with
  | "true" => some true
  | "false" => some false
  | _ => none

/-- Converts a value. Arrays convert to arrays only, as a deep copy, and
functions and nothing at all to nothing. -/
def cast (h : Heap) (v : Value) (target : TypeName) : Except OpError Made :=
  let convert {α : Type} (make : α → Value) : Option α → Except OpError Made
    | some x => return .plain (make x)
    | none => .error (.invalidConversion (v.text h) target)
  match v, target with
  | void, _ | function _ _, _ => .error .unsupported
  | array _, .array => return duplicate h v
  | array _, _ | _, .array => .error .unsupported
  | int n, .int => return .plain (.int n)
  | int n, .float => return .plain (.float (Float.ofInt n.toInt))
  | int n, .bool => return .plain (.bool (n ≠ 0))
  | float x, .int => convert .int (intOfFloat? x)
  | float x, .float => return .plain (.float x)
  | float x, .bool => return .plain (.bool (x != 0.0))
  | bool b, .int => return .plain (.int (if b then 1 else 0))
  | bool b, .float => return .plain (.float (if b then 1.0 else 0.0))
  | bool b, .bool => return .plain (.bool b)
  | string s, .int => convert .int (intOfText? s)
  | string s, .float => convert .float (floatOfText? s)
  | string s, .bool => convert .bool (boolOfText? s)
  | v, .string => return .plain (.string (v.text h))

end Quill.Value
