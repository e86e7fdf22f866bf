-- The store of arrays. An array never changes its length and is never
-- dropped: arrays are added at the end, and single slots are overwritten.
import Quill.Value

namespace Quill

/-- The elements of every array, by number, and how many functions have
been made. -/
structure Heap where
  arrays : Array (Array Value)
  functions : Nat

/-- A slot of an array. -/
structure Slot where
  array : ArrayId
  index : Nat

/-- What an operation makes: a value, and the arrays that have to be
added to the store for it, in order. -/
structure Made where
  value : Value
  fresh : Array (Array Value)

/-- A value that needs no new array. -/
def Made.plain (v : Value) : Made := ⟨v, #[]⟩

namespace Heap

/-- A store without arrays. -/
def empty : Heap := ⟨#[], 0⟩

/-- How many arrays there are, which is the number of the next one. -/
def size (h : Heap) : Nat := h.arrays.size

/-- The elements of an array. -/
def get (h : Heap) (id : ArrayId) : Array Value := (h.arrays[id]?).getD #[]

/-- The store with more arrays. -/
def extend (h : Heap) (fresh : Array (Array Value)) : Heap := { h with arrays := h.arrays ++ fresh }

/-- Overwrites one slot. -/
def write (h : Heap) (slot : Slot) (v : Value) : Heap :=
  { h with arrays := h.arrays.modify slot.array (·.setIfInBounds slot.index v) }

/-- A new array of these elements. -/
def newArray (h : Heap) (elements : Array Value) : Made := ⟨.array h.size, #[elements]⟩

/-- The store after one more function was made. Its number is the count
before. -/
def countFunction (h : Heap) : Heap := { h with functions := h.functions + 1 }

end Heap

end Quill
