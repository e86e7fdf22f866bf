-- How the digits of a float are laid out: which numbers are written
-- without an exponent, what follows a whole number, and how an exponent is
-- written.
import Quill.Decimal.Shortest

namespace Quill.Decimal

/-- A layout of decimal numbers. -/
structure Style where
  /-- The exponents of the leading digit that are written out in full. -/
  positional : Int → Bool
  /-- What ends a whole number that is written out in full. -/
  wholeTail : String
  /-- What stands before an exponent that is not negative. -/
  plus : String
  /-- Which of two digits that are equally near is written. -/
  tie : Tie

/-- Floats in values and listings: written out in full from `10 ^ -4` up
to `10 ^ 16`, and a whole number ends in `.0`. -/
def Style.usual : Style := ⟨fun e => -4 ≤ e && e < 16, ".0", "", .up⟩

/-- The digits with a point in their midst and zeros where digits lack. -/
def Scientific.inFull (s : Scientific) (wholeTail : String) : String :=
  if s.exponent < 0 then
    "0." ++ String.ofList (List.replicate (-s.exponent - 1).toNat '0' ++ s.digits)
  else
    let whole := s.exponent.toNat + 1
    if s.digits.length ≤ whole then
      String.ofList (s.digits ++ List.replicate (whole - s.digits.length) '0') ++ wholeTail
    else
      String.ofList (s.digits.take whole) ++ "." ++ String.ofList (s.digits.drop whole)

/-- One digit, a point and the others if there are any, and the exponent. -/
def Scientific.withExponent (s : Scientific) (plus : String) : String :=
  let fraction := s.digits.drop 1
  let tail := if fraction.isEmpty then "" else "." ++ String.ofList fraction
  String.ofList (s.digits.take 1) ++ tail ++ "e" ++ (if s.exponent < 0 then "" else plus) ++
    toString s.exponent

/-- The text of a float. The sign of a zero is written, that of a number
that is none is not. -/
def Style.write (style : Style) (x : Float) : String :=
  if x.isNaN then "NaN"
  else
    let sign := if x.toBits >>> 63 = 1 then "-" else ""
    if x.isInf then sign ++ "inf"
    else if x == 0.0 then sign ++ "0" ++ style.wholeTail
    else
      let s := shortest style.tie x
      sign ++
        if style.positional s.exponent then s.inFull style.wholeTail else s.withExponent style.plus

end Quill.Decimal
