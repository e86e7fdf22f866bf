-- Deep copies: every array that a value leads to is made anew, and none
-- of the new ones is shared.
import Quill.Value.Heap

namespace Quill.Value

/-- A step of copying, with the arrays made so far. -/
abbrev Copying := StateM (Array (Array Value))

/-- Makes a new array of these elements. -/
def newArrayIn (h : Heap) (elements : List Value) : Copying Value := fun fresh =>
  (.array (h.size + fresh.size), fresh.push elements.toArray)

/-- Copies a value with arrays nested at most `depth` deep. -/
def copyWithin (h : Heap) : Nat → Value → Copying Value
  | depth + 1, array id => do
    newArrayIn h (← (h.get id).toList.mapM (copyWithin h depth))
  | _, v => return v

/-- Copies a value. Without a cycle, arrays are nested no deeper than
there are arrays. -/
def copy (h : Heap) (v : Value) : Copying Value := copyWithin h h.size v

/-- What a step of copying made. -/
def made (c : Copying Value) : Made :=
  let (v, fresh) := c.run #[]
  ⟨v, fresh⟩

/-- A deep copy of a value. -/
def duplicate (h : Heap) (v : Value) : Made := made (copy h v)

/-! ## Repetition -/

/-- The remainder of `i` by a length, if that is not zero. -/
def wrapped (i length : Nat) : Except Crash Nat :=
  if length = 0 then .error .remainder else return i % length

/-- The element at an index, if there is one. -/
def elementAt (elements : Array Value) (i : Nat) : Except Crash Value :=
  match elements[i]? with
  | some v => return v
  | none => .error .bounds

/-- The elements in turn, `total` of them, from the first again after the
last. -/
def cycled (elements : Array Value) (total : Nat) : Except Crash (List Value) :=
  (List.range total).mapM fun i => do elementAt elements (← wrapped i elements.size)

/-- An array of deep copies of the elements in turn, `total` of them. -/
def replicate (h : Heap) (elements : Array Value) (total : Nat) : Except Crash Made := do
  let values ← cycled elements total
  return made do newArrayIn h (← values.mapM (copy h))

end Quill.Value
