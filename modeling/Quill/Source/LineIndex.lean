-- Line and column of any byte offset of a text, also of one inside a
-- character or past the end. The starts of the lines are kept in a
-- table, and a line is found in it by halving.
import Quill.Source.Span

namespace Quill

/-- A line and a column, both counted from 1 and without a bound. -/
structure LineIndex.Place where
  line : Nat
  column : Nat
deriving DecidableEq, Repr

/-- A line and a column in 32 bits, which start from 0 again after the
largest number. -/
structure Position where
  line : UInt32
  column : UInt32
deriving DecidableEq, Repr

/-- What 32 bits hold of a place. -/
def LineIndex.Place.position (p : Place) : Position := ⟨.ofNat p.line, .ofNat p.column⟩

/-- What a search in an ordered table gives: where a number stands, or
where it would have to be put in. -/
inductive Search where
  | found (i : Nat)
  | missing (i : Nat)
deriving DecidableEq, Repr

/-- The byte offsets at which the lines of a text start, in order. -/
structure LineIndex where
  starts : Array Nat

namespace LineIndex

/-! ## The table -/

/-- The offsets just after each line feed of a text that begins at
offset `base`. -/
def startsAfter (base : Nat) : List Char → List Nat
  | [] => []
  | c :: cs =>
    let next := base + c.utf8Size
    if c = '\n' then next :: startsAfter next cs else startsAfter next cs

/-- The table of a text. The first line starts at 0. -/
def ofString (source : String) : LineIndex := ⟨(0 :: startsAfter 0 source.toList).toArray⟩

/-! ## Looking a line up

Each look into the table and each difference may have no result. -/

/-- Of the `size` lines from `base` on, the last that starts at or before
`offset`. Each look halves them. If none does it is `base`. -/
def narrow? (index : LineIndex) (offset base size : Nat) : Option Nat :=
  if size ≤ 1 then some base
  else do
    let mid := base + size / 2
    let start ← index.starts[mid]?
    narrow? index offset (if offset < start then base else mid) (size - size / 2)
termination_by size

/-- Searches the table for a line that starts at `offset`. -/
def search? (index : LineIndex) (offset : Nat) : Option Search :=
  if index.starts.isEmpty then some (.missing 0)
  else do
    let line ← index.narrow? offset 0 index.starts.size
    let start ← index.starts[line]?
    if start = offset then return .found line
    else return .missing (if start < offset then line + 1 else line)

/-- The line that holds `offset`, counted from 0. -/
def lineOf? (index : LineIndex) (offset : Nat) : Option Nat := do
  match ← index.search? offset with
  | .found i => return i
  | .missing 0 => none
  | .missing (i + 1) => return i

/-! ## Looking a place up -/

/-- What is left of a text after its first `n` bytes. -/
def dropBytes : List Char → Nat → List Char
  | [], _ => []
  | c :: cs, n => if n = 0 then c :: cs else dropBytes cs (n - c.utf8Size)

/-- How many characters make up the first `n` bytes of a text, if `n` is
a boundary between characters inside it. -/
def charsIn? : List Char → Nat → Option Nat
  | [], n => if n = 0 then some 0 else none
  | c :: cs, n =>
    if n = 0 then some 0
    else if c.utf8Size ≤ n then (charsIn? cs (n - c.utf8Size)).map (· + 1)
    else none

/-- The line and column of `offset`. Columns count characters; where
`offset` is no boundary between characters of the text they count
bytes. -/
def place? (index : LineIndex) (source : String) (offset : Nat) : Option Place := do
  let line ← index.lineOf? offset
  let start ← index.starts[line]?
  let before ← if start ≤ offset then some (offset - start) else none
  return ⟨line + 1, (charsIn? (dropBytes source.toList start) before).getD before + 1⟩

/-- The place of `offset`. The table of a text has one for every offset. -/
def place (index : LineIndex) (source : String) (offset : Nat) : Place :=
  (index.place? source offset).getD ⟨1, 1⟩

/-- The line and column of `offset` in 32 bits. -/
def position (index : LineIndex) (source : String) (offset : Nat) : Position :=
  (index.place source offset).position

/-- The empty span at `offset`. -/
def pointSpan (index : LineIndex) (source : String) (offset : Nat) : Span :=
  let first := index.position source offset
  ⟨offset, offset, first.line, first.column⟩

end LineIndex

/-- The empty span at the end of a text. -/
def Span.atEnd (source : String) : Span :=
  (LineIndex.ofString source).pointSpan source source.utf8ByteSize

end Quill
