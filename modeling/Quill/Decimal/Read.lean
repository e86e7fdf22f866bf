-- Reading decimal numbers from characters: whole numbers with a sign, and
-- floats with a fraction, an exponent or a name.

namespace Quill.Decimal

/-! ## Whole numbers -/

/-- The number that a row of digits stands for. -/
def natOfDigits (digits : List Char) : Nat :=
  digits.foldl (fun n c => 10 * n + (c.toNat - '0'.toNat)) 0

/-- The same number if it is less than `stop`. Digits that follow once
`stop` has been reached are passed over, so that long rows of them cost
little. -/
def natUpTo (stop : Nat) (digits : List Char) : Nat :=
  digits.foldl (fun n c => if n < stop then 10 * n + (c.toNat - '0'.toNat) else n) 0

/-- One or more digits and nothing else, for a number up to `stop`. -/
def readNat? (stop : Nat) (cs : List Char) : Option Nat :=
  if cs.isEmpty || !cs.all Char.isDigit then none else some (natUpTo stop cs)

/-- An optional sign, then one or more digits, for a number whose size is
up to `stop`. -/
def readInt? (stop : Nat) : List Char → Option Int
  | '+' :: cs => (readNat? stop cs).map Int.ofNat
  | '-' :: cs => (readNat? stop cs).map fun n => -Int.ofNat n
  | cs => (readNat? stop cs).map Int.ofNat

/-! ## Floats -/

/-- The float nearest to `mantissa * 10 ^ exponent`. -/
def floatOf (mantissa : Nat) (exponent : Int) : Float :=
  if exponent < 0 then Float.ofScientific mantissa true (-exponent).toNat
  else Float.ofScientific mantissa false exponent.toNat

/-- How many digits are read one by one. No float and no midpoint of two
neighbours has more than 767 of them. -/
def maxDigits : Nat := 800

/-- The digits with all that go beyond `maxDigits` made into one, which
only says whether any of them counts, and how many places that saves. -/
def condense (digits : List Char) : List Char × Nat :=
  match digits.drop maxDigits with
  | [] => (digits, 0)
  | c :: cs =>
    let mark := if (c :: cs).all (· = '0') then '0' else '1'
    (digits.take maxDigits ++ [mark], cs.length)

/-- The float that whole digits and fraction digits stand for. Numbers far
outside the range of floats are decided by their size alone, so that a
long exponent costs nothing. -/
def floatOfDigits (whole fraction : List Char) (exponent : Int) : Float :=
  let digits := (whole ++ fraction).dropWhile (· = '0')
  let exponent := exponent - fraction.length
  let size := digits.length + exponent
  if digits.isEmpty || size < -330 then 0.0
  else if size > 330 then 1.0 / 0.0
  else
    let (digits, saved) := condense digits
    floatOf (natOfDigits digits) (exponent + saved)

/-- An exponent of this size takes no more digits. A number is zero or
infinite by then, unless about as many digits stand before the mark. -/
def exponentStop : Nat := 65536

/-- What may follow the digits: nothing, or a mark and a whole number. -/
def readExponent? : List Char → Option Int
  | [] => some 0
  | c :: cs => if c = 'e' || c = 'E' then readInt? exponentStop cs else none

/-- Digits with an optional point among them, at least one digit in all,
and an optional exponent. -/
def readPositional? (cs : List Char) : Option Float :=
  let whole := cs.takeWhile Char.isDigit
  let rest := cs.dropWhile Char.isDigit
  let (fraction, rest) :=
    match rest with
    | '.' :: more => (more.takeWhile Char.isDigit, more.dropWhile Char.isDigit)
    | _ => ([], rest)
  if whole.isEmpty && fraction.isEmpty then none
  else (readExponent? rest).map (floatOfDigits whole fraction)

/-- A float without a sign. Its names are read in any letter case. -/
def readUnsigned? (cs : List Char) : Option Float :=
  let name := String.ofList (cs.map Char.toLower)
  if name = "inf" || name = "infinity" then some (1.0 / 0.0)
  else if name = "nan" then some (0.0 / 0.0)
  else readPositional? cs

/-- An optional sign, then a float. -/
def readFloat? : List Char → Option Float
  | '+' :: cs => readUnsigned? cs
  | '-' :: cs => (readUnsigned? cs).map fun x => -x
  | cs => readUnsigned? cs

end Quill.Decimal
