-- The operators of the language. An operator has a result only for
-- operands of certain kinds, and integers never wrap around.
import Quill.Value.Copy
import Quill.Value.Equality

namespace Quill.Value

/-! ## Integers -/

/-- An integer, if it fits into 64 bits. -/
def fit (n : Int) : Except OpError Int64 :=
  if Int64.minValue.toInt ≤ n ∧ n ≤ Int64.maxValue.toInt then return Int64.ofInt n
  else .error .overflow

/-- The quotient, rounded towards zero. -/
def quotient (a b : Int64) : Except OpError Int64 :=
  if b = 0 then .error .divisionByZero else fit (a.toInt.tdiv b.toInt)

/-- The remainder that belongs to the quotient. There is none where
there is no quotient. -/
def remainder (a b : Int64) : Except OpError Int64 := do
  let _ ← quotient a b
  fit (a.toInt.tmod b.toInt)

/-! ## Repetition -/

/-- The most bytes or elements that one repetition may make. -/
def maxRepeated : Nat := Nat.pow 2 28

/-- How often something is to be repeated. -/
def repeatCount (n : Int64) : Except OpError Nat :=
  if n.toInt < 0 then .error (.negativeCount n) else return n.toInt.toNat

/-- The length of something after its repetition, if that is not too
much. -/
def repeatedLength (length count : Nat) : Except OpError Nat :=
  if length * count ≤ maxRepeated then return length * count else .error .overflow

/-- A string so many times over, by doubling. -/
def repeatString (s : String) (count : Nat) : String :=
  if count = 0 then ""
  else
    let half := repeatString s (count / 2)
    if count % 2 = 0 then half ++ half else half ++ half ++ s
termination_by count

/-! ## Operators between two operands -/

/-- An operation on two numbers of which at least one is a float. -/
def onFloats (f : Float → Float → Float) (a b : Value) : Except OpError Made :=
  match a.asFloat?, b.asFloat? with
  | some x, some y => return .plain (.float (f x y))
  | _, _ => .error .unsupported

/-- An operation on two integers. -/
def onInts (f : Int64 → Int64 → Int64) : Value → Value → Except OpError Made
  | int a, int b => return .plain (.int (f a b))
  | _, _ => .error .unsupported

/-- An operation on two truth values. -/
def onBools (f : Bool → Bool → Bool) : Value → Value → Except OpError Made
  | bool a, bool b => return .plain (.bool (f a b))
  | _, _ => .error .unsupported

/-- Sums of numbers, and strings and arrays joined end to end. -/
def add (h : Heap) : Value → Value → Except OpError Made
  | int a, int b => return .plain (.int (← fit (a.toInt + b.toInt)))
  | string a, string b => return .plain (.string (a ++ b))
  | array a, array b => return h.newArray (h.get a ++ h.get b)
  | a, b => onFloats (· + ·) a b

/-- Differences of numbers. -/
def subtract : Value → Value → Except OpError Made
  | int a, int b => return .plain (.int (← fit (a.toInt - b.toInt)))
  | a, b => onFloats (· - ·) a b

/-- Products of numbers, and strings and arrays repeated. -/
def multiply (h : Heap) : Value → Value → Except OpError Made
  | int a, int b => return .plain (.int (← fit (a.toInt * b.toInt)))
  | string s, int n => do
    let count ← repeatCount n
    let _ ← repeatedLength s.utf8ByteSize count
    return .plain (.string (repeatString s count))
  | array id, int n => do
    let elements := h.get id
    let total ← repeatedLength elements.size (← repeatCount n)
    (replicate h elements total).mapError .crash
  | a, b => onFloats (· * ·) a b

/-- Quotients of numbers. -/
def divide : Value → Value → Except OpError Made
  | int a, int b => return .plain (.int (← quotient a b))
  | a, b => onFloats (· / ·) a b

/-- Remainders of integers. -/
def modulo : Value → Value → Except OpError Made
  | int a, int b => return .plain (.int (← remainder a b))
  | _, _ => .error .unsupported

/-- Whether the order of two values passes a test. Values without an
order pass none. -/
def ordered (test : Ordering → Bool) (a b : Value) : Except OpError Made := do
  return .plain (.bool ((← order a b).any test))

/-- The result of an operator on two operands. -/
def binary (h : Heap) (op : BinaryOp) (a b : Value) : Except OpError Made :=
  match op with
  | .add => add h a b
  | .sub => subtract a b
  | .mul => multiply h a b
  | .div => divide a b
  | .mod => modulo a b
  | .bitAnd => onInts (· &&& ·) a b
  | .bitOr => onInts (· ||| ·) a b
  | .bitXor => onInts (· ^^^ ·) a b
  | .eq => do return .plain (.bool (← equal h a b))
  | .ne => do return .plain (.bool (!(← equal h a b)))
  | .lt => ordered Ordering.isLT a b
  | .gt => ordered Ordering.isGT a b
  | .le => ordered Ordering.isLE a b
  | .ge => ordered Ordering.isGE a b
  | .and => onBools (· && ·) a b
  | .or => onBools (· || ·) a b

/-! ## Operators before one operand -/

/-- The result of an operator on one operand. -/
def unary (op : UnaryOp) (v : Value) : Except OpError Value :=
  match op, v with
  | .pos, int n => return .int n
  | .pos, float x => return .float x
  | .neg, int n => return .int (← fit (-n.toInt))
  | .neg, float x => return .float (-x)
  | .bitNot, int n => return .int (~~~n)
  | .not, bool b => return .bool (!b)
  | _, _ => .error .unsupported

/-! ## Ranges -/

/-- The most elements that can be collected into an array at once: one of
them takes 16 bytes, and all together take less than `2 ^ 63`. -/
def maxCollected : Nat := (Nat.pow 2 63 - 1) / 16

theorem toInt_add_one {low high : Int64} (h : low < high) : (low + 1).toInt = low.toInt + 1 := by
  have hlt := Int64.lt_iff_toInt_lt.mp h
  have hhigh := high.toInt_lt
  have hlow := low.le_toInt
  rw [Int64.toInt_add]
  exact Int.bmod_eq_of_le (by show _ ≤ low.toInt + 1; omega) (by show low.toInt + 1 < _; omega)

theorem toInt_sub_one {low high : Int64} (h : low < high) : (high - 1).toInt = high.toInt - 1 := by
  have hlt := Int64.lt_iff_toInt_lt.mp h
  have hhigh := high.toInt_lt
  have hlow := low.le_toInt
  rw [Int64.toInt_sub]
  exact Int.bmod_eq_of_le (by show _ ≤ high.toInt - 1; omega) (by show high.toInt - 1 < _; omega)

/-- Appends the integers from `low` up to `high`. The step past `high` is
not made. -/
def ascend (low high : Int64) (elements : Array Value) : Array Value :=
  if low < high then ascend (low + 1) high (elements.push (.int low))
  else elements.push (.int low)
termination_by (high.toInt - low.toInt).toNat
decreasing_by
  rename_i h
  have hlt := Int64.lt_iff_toInt_lt.mp h
  rw [toInt_add_one h]
  omega

/-- Appends the integers from `high` down to `low`. The step past `low` is
not made. -/
def descend (low high : Int64) (elements : Array Value) : Array Value :=
  if low < high then descend low (high - 1) (elements.push (.int high))
  else elements.push (.int high)
termination_by (high.toInt - low.toInt).toNat
decreasing_by
  rename_i h
  have hlt := Int64.lt_iff_toInt_lt.mp h
  rw [toInt_sub_one h]
  omega

/-- Room for the integers from `low` to `high`, if there can be so much. -/
def roomFor (low high : Int64) : Except Crash (Array Value) :=
  if (high.toInt - low.toInt).toNat + 1 ≤ maxCollected then return #[] else .error .capacity

/-- All integers from one to another, both included, upwards or
downwards. -/
def rangeElements (first last : Int64) : Except Crash (Array Value) :=
  if first ≤ last then return ascend first last (← roomFor first last)
  else return descend last first (← roomFor last first)

end Quill.Value

namespace Quill

/-- How a program writes an operator between two operands. -/
def BinaryOp.text : BinaryOp → String
  | .add => "+"
  | .sub => "-"
  | .mul => "*"
  | .div => "/"
  | .mod => "%"
  | .bitAnd => "&"
  | .bitOr => "|"
  | .bitXor => "^"
  | .eq => "="
  | .ne => "!="
  | .lt => "<"
  | .gt => ">"
  | .le => "<="
  | .ge => ">="
  | .and => "and"
  | .or => "or"

/-- How a program writes an operator before one operand. -/
def UnaryOp.text : UnaryOp → String
  | .pos => "+"
  | .neg => "-"
  | .bitNot => "~"
  | .not => "not"

end Quill
