-- The fewest decimal digits that read back as a given float. The float is
-- taken apart into an integer times a power of two, and the reals that
-- round to it form an interval. The first decimal grid, from one digit
-- upwards, with a point in that interval gives the digits. All of it is
-- exact arithmetic on natural numbers.

namespace Quill.Decimal

/-! ## The float as a binary fraction -/

/-- The number `significand * 2 ^ exponent`. `tight` says that the next
float below is only half as far away as the next one above. -/
structure Binary where
  significand : Nat
  exponent : Int
  tight : Bool

/-- The size of a finite float; its sign is left out. -/
def Binary.ofFloat (x : Float) : Binary :=
  let bits : Nat := x.toBits.toNat
  let fraction := bits % Nat.pow 2 52
  let scale : Nat := bits / Nat.pow 2 52 % Nat.pow 2 11
  if scale = 0 then ⟨fraction, -1074, false⟩
  else ⟨Nat.pow 2 52 + fraction, (scale : Int) - 1075, fraction = 0 && scale > 1⟩

/-- The number without its fraction. -/
def Binary.floor (b : Binary) : Nat :=
  b.significand * Nat.pow 2 b.exponent.toNat / Nat.pow 2 (-b.exponent).toNat

/-! ## The interval that rounds to it -/

/-- A value and the interval around it, each a numerator over `den`. The
ends belong to the interval exactly if `closed`. -/
structure Interval where
  lower : Nat
  value : Nat
  upper : Nat
  den : Nat
  closed : Bool

/-- The reals that round to `b`: half the way to each neighbour. A tie
goes to the even significand. -/
def Binary.interval (b : Binary) : Interval :=
  let q := b.exponent - 2
  let up := Nat.pow 2 q.toNat
  { lower := (4 * b.significand - if b.tight then 1 else 2) * up
    value := 4 * b.significand * up
    upper := (4 * b.significand + 2) * up
    den := Nat.pow 2 (-q).toNat
    closed := b.significand % 2 = 0 }

/-- Whether `num / den` lies in the interval. -/
def Interval.holds (i : Interval) (num den : Nat) : Bool :=
  if i.closed then i.lower * den ≤ num * i.den && num * i.den ≤ i.upper * den
  else i.lower * den < num * i.den && num * i.den < i.upper * den

/-- The exponent of the leading decimal digit of the value, which is
positive and at least `10 ^ -330`. -/
def Interval.leading (i : Interval) : Int :=
  ((Nat.toDigits 10 (i.value * Nat.pow 10 330 / i.den)).length : Int) - 331

/-- Where a value goes that lies halfway between two neighbours on a
grid. -/
inductive Tie where
  | up
  | toEven
deriving DecidableEq, Repr

/-- The neighbour of `num / den` to write if `low` and `low + 1` would both
do: the nearer one. -/
def Tie.nearer (tie : Tie) (num den low : Nat) : Nat :=
  let middle := (2 * low + 1) * den
  if 2 * num < middle then low
  else if 2 * num = middle ∧ tie = .toEven ∧ low % 2 = 0 then low
  else low + 1

/-- The multiple of `10 ^ unit` to write for the value, if one of its two
neighbours on that grid lies in the interval. -/
def Interval.onGrid? (i : Interval) (tie : Tie) (unit : Int) : Option Nat :=
  let up := Nat.pow 10 unit.toNat
  let down := Nat.pow 10 (-unit).toNat
  let num := i.value * down
  let den := i.den * up
  let low := num / den
  match i.holds (low * up) down, i.holds ((low + 1) * up) down with
  | true, true => some (tie.nearer num den low)
  | true, false => some low
  | false, true => some (low + 1)
  | false, false => none

/-- The first of `tries` grids that has a point in the interval, from the
coarse one with unit `10 ^ unit` on, with its point. -/
def Interval.coarsest (i : Interval) (tie : Tie) : Nat → Int → Nat × Int
  | 0, unit => (i.value * Nat.pow 10 (-unit).toNat / (i.den * Nat.pow 10 unit.toNat), unit)
  | tries + 1, unit =>
    match i.onGrid? tie unit with
    | some n => (n, unit)
    | none => i.coarsest tie tries (unit - 1)

/-! ## The digits -/

/-- Decimal digits with a point after the first one, times
`10 ^ exponent`. -/
structure Scientific where
  digits : List Char
  exponent : Int

/-- The digits of `n * 10 ^ unit` without zeros at the end. -/
def Scientific.ofNat (n : Nat) (unit : Int) : Scientific :=
  let digits := Nat.toDigits 10 n
  ⟨(digits.reverse.dropWhile (· = '0')).reverse, unit + digits.length - 1⟩

/-- The fewest digits that read back as `x`, which is finite and not
zero. Seventeen digits always suffice. -/
def shortest (tie : Tie) (x : Float) : Scientific :=
  let i := (Binary.ofFloat x).interval
  let (n, unit) := i.coarsest tie 17 i.leading
  Scientific.ofNat n unit

end Quill.Decimal
