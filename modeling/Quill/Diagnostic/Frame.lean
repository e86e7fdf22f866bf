-- A message with the source line it is about, framed, and the place
-- underlined, for source lines of one-column characters. The frames are
-- those that the library `ariadne` draws. They belong to the outer layer,
-- the command line: no other module reads what is drawn here, and no
-- theorem is about it.
import Quill.Diagnostic
import Quill.Text.Blank

namespace Quill.Diagnostic

/-! ## The lines of a page -/

/-- The characters that end a line on a page. -/
def isLineEnd (c : Char) : Bool :=
  let n := c.toNat
  (0xA ≤ n && n ≤ 0xD) || n = 0x85 || n = 0x2028 || n = 0x2029

/-- The lines of a text, each with its end. A carriage return and a line
feed are one end. Nothing stands after the end of the last line, so no
line begins there. -/
def pageLines : List Char → List (List Char)
  | [] => []
  | '\r' :: '\n' :: cs => ['\r', '\n'] :: pageLines cs
  | c :: cs =>
    if isLineEnd c then [c] :: pageLines cs
    else
      match pageLines cs with
      | [] => [[c]]
      | line :: lines => (c :: line) :: lines

/-- A line with its number, and a column of it, both counted from 1. -/
structure Spot where
  number : Nat
  column : Nat
  line : List Char

/-- The spot at an offset into lines of which the first has number `n`.
What lies past the last line belongs to it. -/
def spotIn (n offset : Nat) : List (List Char) → Spot
  | [] => ⟨n, offset + 1, []⟩
  | [line] => ⟨n, offset + 1, line⟩
  | line :: lines =>
    if offset < line.length then ⟨n, offset + 1, line⟩
    else spotIn (n + 1) (offset - line.length) lines

/-- The spot at an offset into a text. -/
def spotAt (source : String) (offset : Nat) : Spot := spotIn 1 offset (pageLines source.toList)

/-- The text of a line without its end and the blanks before it. -/
def Spot.text (s : Spot) : String := String.ofList (s.line.reverse.dropWhile Text.isBlank).reverse

/-! ## The frame -/

private def spaces (n : Nat) : String := "".pushn ' ' n

private def dashes (n : Nat) : String := "".pushn '─' n

/-- How many columns are underlined: at least one, unless the text ends
there. -/
def width (source : String) (span : Span) : Nat :=
  min (max span.stop (span.start + 1)) (max source.utf8ByteSize span.start) - span.start

/-- The row under the source line: dashes with a branch in their middle. -/
def underline (column w : Nat) : String :=
  if w = 0 then spaces (column - 1) ++ "│" ++ spaces 1
  else spaces (column - 1) ++ dashes (w / 2) ++ "┬" ++ dashes (w - w / 2 - 1) ++ spaces 2

/-- The framed form of one message. The frame goes by the lines of the
page, the message itself by those of the program. -/
def frame (filename source : String) (d : Diagnostic) : String :=
  let spot := spotAt source d.span.start
  let number := toString spot.number
  let margin := spaces (number.length + 2)
  let w := width source d.span
  let column := spot.column
  s!"Error: {d.message}\n" ++
    s!"{margin}╭─[ {filename}:{number}:{column} ]\n" ++
    s!"{margin}│\n" ++
    s!" {number} │ {spot.text}\n" ++
    s!"{margin}│ {underline column w}\n" ++
    s!"{margin}│ {spaces (column - 1 + w / 2)}╰{dashes (w - w / 2 + 1)} {d.span.describe}\n" ++
    s!"{dashes (number.length + 2)}╯\n"

/-- The framed forms of all messages, one after the other. -/
def framed (filename source : String) (ds : List Diagnostic) : String :=
  String.join (ds.map (frame filename source))

end Quill.Diagnostic
