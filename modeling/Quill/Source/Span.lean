-- Where things stand in a source text: a cursor walks the characters and
-- a span names a stretch of bytes together with the line and column of
-- its first character.

namespace Quill

/-! ## Cursors -/

/-- A place between two characters: bytes before it, and the line and
column of the character that follows, both counted from 1. The counts have
no bound. -/
structure Cursor where
  offset : Nat
  line : Nat
  column : Nat
deriving DecidableEq, Repr

namespace Cursor

/-- The place before the first character. -/
def start : Cursor := ⟨0, 1, 1⟩

/-- The place after `c`: a line feed begins a new line, anything else is
one more column. -/
def step (at_ : Cursor) (c : Char) : Cursor :=
  if c = '\n' then ⟨at_.offset + c.utf8Size, at_.line + 1, 1⟩
  else ⟨at_.offset + c.utf8Size, at_.line, at_.column + 1⟩

/-- The place after all of `cs`. -/
def skip (at_ : Cursor) (cs : List Char) : Cursor := cs.foldl step at_

end Cursor

/-! ## Spans -/

/-- The bytes from `start` up to `stop`, and the line and column of the
first of them, of which 32 bits are kept. -/
structure Span where
  start : Nat
  stop : Nat
  line : UInt32
  column : UInt32
deriving DecidableEq, Repr

namespace Span

/-- The empty span at the very start, for what has no place of its own. -/
def origin : Span := ⟨0, 0, 1, 1⟩

instance : Inhabited Span := ⟨origin⟩

/-- The span from one cursor to another. -/
def between (first last : Cursor) : Span :=
  ⟨first.offset, last.offset, .ofNat first.line, .ofNat first.column⟩

/-- The smallest span over both, with the line and column of the one that
starts first. -/
def merge (a b : Span) : Span :=
  let first := if a.start ≤ b.start then a else b
  ⟨min a.start b.start, max a.stop b.stop, first.line, first.column⟩

/-- The place as it is told to a reader. -/
def describe (s : Span) : String := s!"line {s.line}, column {s.column}"

end Span

end Quill
