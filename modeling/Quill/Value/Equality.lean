-- When two values are equal: for a program, which may not compare values
-- of unlike kinds, and for the one who holds the values, who may. Also
-- the order of numbers and strings.
import Quill.Value.Heap

namespace Quill.Value

/-! ## Equality in programs -/

/-- Compares elements pairwise up to the first difference. -/
def equalElements (eq : Value → Value → Except OpError Bool) :
    List Value → List Value → Except OpError Bool
  | x :: xs, y :: ys => do
    if ← eq x y then equalElements eq xs ys else return false
  | _, _ => return true

/-- Compares values with arrays nested at most `depth` deep. -/
def equalWithin (h : Heap) : Nat → Value → Value → Except OpError Bool
  | _, int a, int b => return a == b
  | _, string a, string b => return a == b
  | _, bool a, bool b => return a == b
  | 0, array _, array _ => return true
  | depth + 1, array a, array b =>
    let xs := h.get a
    let ys := h.get b
    if xs.size ≠ ys.size then return false
    else equalElements (equalWithin h depth) xs.toList ys.toList
  | _, a, b =>
    match a.asFloat?, b.asFloat? with
    | some x, some y => return x == y
    | _, _ => .error .unsupported

/-- No comparison that ends looks at more pairs of arrays inside each
other than there are pairs. -/
def comparisonDepth (h : Heap) : Nat := h.size * h.size + 1

/-- Whether two values are equal. Numbers may be mixed; arrays of unlike
length are unequal whatever they hold. -/
def equal (h : Heap) (a b : Value) : Except OpError Bool := equalWithin h (comparisonDepth h) a b

/-! ## Equality from outside -/

/-- Whether elements are pairwise the same. -/
def sameElements (same : Value → Value → Bool) : List Value → List Value → Bool
  | x :: xs, y :: ys => same x y && sameElements same xs ys
  | [], [] => true
  | _, _ => false

/-- Compares values with arrays nested at most `depth` deep. -/
def sameWithin (h : Heap) : Nat → Value → Value → Bool
  | _, int a, int b => a == b
  | _, float a, float b => a == b
  | _, bool a, bool b => a == b
  | _, string a, string b => a == b
  | 0, array _, array _ => true
  | depth + 1, array a, array b =>
    a == b || sameElements (sameWithin h depth) (h.get a).toList (h.get b).toList
  | _, function _ a, function _ b => a == b
  | _, void, void => true
  | _, _, _ => false

/-- Whether two values are the same. Values of unlike kinds never are,
and an array is the same as itself without a look at its elements. -/
def same (h : Heap) (a b : Value) : Bool := sameWithin h (comparisonDepth h) a b

/-! ## Order -/

/-- The order of two rows of bytes, by the first that differs. -/
def compareBytes : List UInt8 → List UInt8 → Ordering
  | [], [] => .eq
  | [], _ :: _ => .lt
  | _ :: _, [] => .gt
  | x :: xs, y :: ys => if x < y then .lt else if y < x then .gt else compareBytes xs ys

/-- The order of two floats. There is none if one is no number. -/
def compareFloats (x y : Float) : Option Ordering :=
  if x < y then some .lt else if y < x then some .gt else if x == y then some .eq else none

/-- The order of two numbers or two strings. Strings are ordered by the
bytes of their UTF-8 form. -/
def order : Value → Value → Except OpError (Option Ordering)
  | int a, int b => return some (compare a.toInt b.toInt)
  | string a, string b => return some (compareBytes a.toUTF8.toList b.toUTF8.toList)
  | a, b =>
    match a.asFloat?, b.asFloat? with
    | some x, some y => return compareFloats x y
    | _, _ => .error .unsupported

end Quill.Value
