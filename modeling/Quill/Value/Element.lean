-- Elements of arrays and characters of strings, counted from 0.
import Quill.Value.Heap

namespace Quill.Value

/-- The place that an index names among `length` places. -/
def place (index : Int64) (length : Nat) : Except OpError Nat :=
  if 0 ≤ index.toInt ∧ index.toInt < length then return index.toInt.toNat
  else .error (.indexOutOfRange index length)

/-- How many elements or characters a value has. -/
def length? (h : Heap) : Value → Option Nat
  | array id => some (h.get id).size
  | string s => some s.length
  | _ => none

/-- The element of an array, or the character of a string, at an index.
An array that is an element is shared. -/
def subscript (h : Heap) : Value → Value → Except OpError Value
  | array id, int i => do
    let elements := h.get id
    let k ← place i elements.size
    match elements[k]? with
    | some v => return v
    | none => .error (.indexOutOfRange i elements.size)
  | string s, int i => do
    let k ← place i s.length
    match (s.drop k).front? with
    | some c => return .string (String.singleton c)
    | none => .error (.indexOutOfRange i s.length)
  | _, _ => .error .unsupported

/-- The slot that a value and an index name. Only arrays have slots. -/
def slot (h : Heap) : Value → Value → Except OpError Slot
  | array id, int i => do return ⟨id, ← place i (h.get id).size⟩
  | _, _ => .error .unsupported

end Quill.Value
