-- Documents of nested lists and records, and how they are laid out on
-- lines of their own with two spaces for each level.
import Quill.Decimal.Style

namespace Quill

/-- A document. The fields of a record keep their order. -/
inductive Json where
  | null
  | bool (value : Bool)
  | int (value : Int)
  | float (value : Float)
  | string (value : String)
  | array (items : List Json)
  | object (fields : List (String × Json))

namespace Json

/-- One character inside a quoted text. -/
def quotedChar (c : Char) : List Char :=
  if c = '"' then ['\\', '"']
  else if c = '\\' then ['\\', '\\']
  else if c = '\n' then ['\\', 'n']
  else if c = '\r' then ['\\', 'r']
  else if c = '\t' then ['\\', 't']
  else if c = '\x08' then ['\\', 'b']
  else if c = '\x0c' then ['\\', 'f']
  else if c.toNat < 0x10 then ['\\', 'u', '0', '0', '0'] ++ Nat.toDigits 16 c.toNat
  else if c.toNat < 0x20 then ['\\', 'u', '0', '0'] ++ Nat.toDigits 16 c.toNat
  else [c]

/-- A text between double quotes. -/
def quoted (s : String) : String :=
  String.ofList ('"' :: (s.toList.flatMap quotedChar ++ ['"']))

/-- Floats are written out in full from `10 ^ -5` up to `10 ^ 16`, a whole
number ends in `.0`, and an exponent always has a sign. -/
def floatStyle : Decimal.Style := ⟨fun e => -5 ≤ e && e < 16, ".0", "+", .toEven⟩

/-- A new line at some level of nesting. -/
def newLine (level : Nat) : String := "\n".pushn ' ' (2 * level)

/-- The text of a list or record whose items have been written. -/
def bracketed (opening closing : String) (level : Nat) (items : List String) : String :=
  if items.isEmpty then opening ++ closing
  else
    opening ++ newLine (level + 1) ++ ("," ++ newLine (level + 1)).intercalate items ++
      newLine level ++ closing

mutual

/-- The document as text, at some level of nesting. A float that is no
number or infinite is written as nothing. -/
def pretty (level : Nat) : Json → String
  | null => "null"
  | bool value => if value then "true" else "false"
  | int value => toString value
  | float value => if value.isNaN || value.isInf then "null" else floatStyle.write value
  | string value => quoted value
  | array items => bracketed "[" "]" level (prettyItems (level + 1) items)
  | object fields => bracketed "\x7b" "\x7d" level (prettyFields (level + 1) fields)

/-- The texts of the items of a list. -/
def prettyItems (level : Nat) : List Json → List String
  | [] => []
  | x :: xs => x.pretty level :: prettyItems level xs

/-- The texts of the fields of a record. -/
def prettyFields (level : Nat) : List (String × Json) → List String
  | [] => []
  | (key, x) :: xs => (quoted key ++ ": " ++ x.pretty level) :: prettyFields level xs

end

end Json

end Quill
