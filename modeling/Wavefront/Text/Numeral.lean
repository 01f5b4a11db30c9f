/-
Numerals in plain text: unsigned indices and decimal literals.

An index is written with decimal digits, perhaps after one plus sign, and fits a 64-bit word. A
decimal literal has a sign, digits with at most one point among them and an exponent, of which only
one digit is required; the words for infinity and for "not a number" are literals too.
-/
import Wavefront.Text.Letter

set_option autoImplicit false

namespace Wavefront.Text

/-- The value of one decimal digit. -/
def digitValue (c : Char) : Nat := c.toNat - '0'.toNat

/-- The natural number that a run of decimal digits denotes. -/
def digitsValue (cs : List Char) : Nat := cs.foldl (fun n c => 10 * n + digitValue c) 0

/-- A run of one or more digits, as a number. -/
def natural? (cs : List Char) : Option Nat :=
  if cs ≠ [] ∧ cs.all isDigit then some (digitsValue cs) else none

/-- The text less one sign in front of it, and whether that sign was a minus. -/
def splitSign : List Char → Bool × List Char
  | '-' :: cs => (true, cs)
  | '+' :: cs => (false, cs)
  | cs => (false, cs)

/-- The number of indices: an index is a 64-bit word. -/
def indexLimit : Nat := UInt64.size

/-- An index: digits, perhaps after a plus sign, below `indexLimit`. -/
def index? (cs : List Char) : Option Nat := do
  let digits := match cs with
    | '+' :: rest => rest
    | _ => cs
  let n ← natural? digits
  guard (n < indexLimit)
  return n

/-- What a decimal literal denotes, before it is rounded to a word. -/
inductive Literal where
  /-- The sign, then `significand * 10 ^ exponent`. -/
  | decimal (negative : Bool) (significand : Nat) (exponent : Int)
  | infinity (negative : Bool)
  | notANumber
deriving DecidableEq

/-- An exponent: digits, perhaps after a sign. -/
def exponent? (cs : List Char) : Option Int :=
  let (negative, digits) := splitSign cs
  (natural? digits).map fun n => if negative then -(n : Int) else n

/-- Digits, perhaps a point and more digits, perhaps `e` and an exponent; with at least one digit
in front of the exponent. -/
def unsignedDecimal? (cs : List Char) : Option (Nat × Int) := do
  let whole := cs.takeWhile isDigit
  let (fraction, rest) := match cs.dropWhile isDigit with
    | '.' :: rest => (rest.takeWhile isDigit, rest.dropWhile isDigit)
    | rest => ([], rest)
  guard (whole ≠ [] ∨ fraction ≠ [])
  let exponent ← match rest with
    | [] => some 0
    | 'e' :: rest | 'E' :: rest => exponent? rest
    | _ => none
  return (digitsValue (whole ++ fraction), exponent - fraction.length)

/-- A decimal literal with its sign. The words `inf`, `infinity` and `nan` may be written in
either case. -/
def literal? (cs : List Char) : Option Literal :=
  let (negative, rest) := splitSign cs
  match rest.map Char.toLower with
  | ['i', 'n', 'f'] | ['i', 'n', 'f', 'i', 'n', 'i', 't', 'y'] => some (.infinity negative)
  | ['n', 'a', 'n'] => some .notANumber
  | _ => (unsignedDecimal? rest).map fun d => .decimal negative d.1 d.2

end Wavefront.Text
