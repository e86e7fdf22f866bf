-- The text of a value. An array inside itself is not written out again.
import Quill.Value.Heap

namespace Quill.Value

/-- A step of writing, with the stack of the arrays that are being written
at the time. -/
abbrev Writing := StateM (List ArrayId)

/-- Writes a value with at most `depth` arrays open inside each other. A
string is quoted only as an element. -/
def showWithin (h : Heap) : Nat → Value → Writing String
  | _, int n => return toString n.toInt
  | _, float x => return Decimal.Style.usual.write x
  | _, bool b => return if b then "true" else "false"
  | _, string s => return s
  | 0, array _ => return "[...]"
  | depth + 1, array id => do
    if id ∈ (← get) then return "[...]"
    else
      modify (id :: ·)
      let elements ← (h.get id).toList.mapM fun v =>
        match v with
        | string s => return Text.quoted s
        | v => showWithin h depth v
      modify List.tail
      return "[" ++ ", ".intercalate elements ++ "]"
  | _, function f _ => return s!"<function {f.name}>"
  | _, void => return "void"

/-- The text of a value. No more arrays than there are can be open at a
time. -/
def text (h : Heap) (v : Value) : String := ((showWithin h (h.size + 1) v).run []).1

end Quill.Value
