/-
Texts of binary floating-point numbers, both ways.

Two layouts are in use. Numbers inside documents and messages are written with a point always, and
with an exponent when they are very large or very small; a plain list of readings is written
without exponents and without a needless point.
-/
import Wavefront.Binary64.Shortest
import Wavefront.Text.Numeral

set_option autoImplicit false

namespace Wavefront

namespace Decimal

/-- The decimal digits, most significant first. -/
def digitString (d : Decimal) : List Char := Nat.toDigits 10 d.digits

/-- The exponent of the leading digit. -/
def leading (d : Decimal) : Int := d.exponent + (d.digitString.length - 1 : Nat)

/-- Digits around a point, with zeros where the digits do not reach it. -/
def positional (d : Decimal) (keepPoint : Bool) : String :=
  let digits := d.digitString
  if 0 ≤ d.exponent then
    String.ofList (digits ++ List.replicate d.exponent.toNat '0') ++ (if keepPoint then ".0" else "")
  else
    let places := (-d.exponent).toNat
    let padded := List.replicate (places + 1 - digits.length) '0' ++ digits
    let whole := padded.length - places
    String.ofList (padded.take whole) ++ "." ++ String.ofList (padded.drop whole)

/-- One digit, perhaps a point and the other digits, then the exponent with its sign. -/
def scientific (d : Decimal) : String :=
  let exponent := d.leading
  let mantissa := match d.digitString with
    | [] => ""
    | [digit] => String.ofList [digit]
    | digit :: rest => String.ofList (digit :: '.' :: rest)
  mantissa ++ "e" ++ (if exponent < 0 then "-" else "+") ++ toString exponent.natAbs

end Decimal

namespace Binary64

/-- Which exponents of the leading digit a number in a document is written with without using the
exponent form. -/
def inPositionalRange (exponent : Int) : Bool := -5 ≤ exponent && exponent < 16

/-- The text of a finite number in a document. -/
def text (x : Binary64) : String :=
  (if x.isNegative then "-" else "") ++
    if x.isZero then "0.0"
    else
      let d := shortest .toEven x.magnitude
      if inPositionalRange d.leading then d.positional true else d.scientific

/-- The plain text of any number. -/
def plainText (x : Binary64) : String :=
  if x.isNaN then "NaN"
  else (if x.isNegative then "-" else "") ++
    if x.isZero then "0"
    else if x.isFinite then (shortest .up x.magnitude).positional false
    else "inf"

/-- The number that a literal denotes. -/
def ofLiteral : Text.Literal → Binary64
  | .decimal negative significand exponent =>
      ofMagnitude negative (roundDecimal significand exponent)
  | .infinity negative => infinity negative
  | .notANumber => nan

/-- The number that a decimal literal denotes, rounded to the nearest. -/
def ofText? (cs : List Char) : Option Binary64 := (Text.literal? cs).map ofLiteral

end Binary64

end Wavefront
