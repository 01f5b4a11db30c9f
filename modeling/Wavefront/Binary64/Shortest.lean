/-
The shortest decimal of a binary floating-point number.

A finite magnitude `v = m * 2 ^ q` is the nearest word for a whole interval of reals, whose ends
count iff `m` is even. Of all decimals in it the one with the fewest digits is wanted, and of those
the one nearest to `v`. If a grid of decimals has a point in the interval, one of the two grid
neighbours of `v` lies in it, so for one digit, two digits, up to seventeen only these two are
tried.
-/
import Wavefront.Binary64.Basic

set_option autoImplicit false

namespace Wavefront

/-- The number `digits * 10 ^ exponent`. -/
structure Decimal where
  digits : Nat
  exponent : Int
deriving DecidableEq

/-- Which of two equally near decimals is taken. -/
inductive Tie where
  | toEven
  | up
deriving DecidableEq

namespace Binary64

/-- A non-negative fraction: numerator and positive denominator. -/
structure Fraction where
  num : Nat
  den : Nat

namespace Fraction

def less (a b : Fraction) : Bool := a.num * b.den < b.num * a.den

/-- The fraction `n * 2 ^ e`. -/
def ofPower2 (n : Nat) (e : Int) : Fraction :=
  if 0 ≤ e then ⟨n <<< e.toNat, 1⟩ else ⟨n, 1 <<< (-e).toNat⟩

/-- The fraction `n * 10 ^ e`. -/
def ofPower10 (n : Nat) (e : Int) : Fraction :=
  if 0 ≤ e then ⟨n * Nat.pow 10 e.toNat, 1⟩ else ⟨n, Nat.pow 10 (-e).toNat⟩

/-- The greatest `t` with `10 ^ t` not above the fraction, for a positive fraction. The ratio of
binary lengths gives it up to one. -/
def floorLog10 (a : Fraction) : Int :=
  let guess := (((Nat.log2 a.num : Int) - Nat.log2 a.den) * 30103) / 100000
  if a.less (ofPower10 1 guess) then guess - 1
  else if a.less (ofPower10 1 (guess + 1)) then guess
  else guess + 1

end Fraction

/-- The reals that round to one magnitude: its own value and the ends of the interval. -/
structure Interval where
  low : Fraction
  value : Fraction
  high : Fraction
  closed : Bool

/-- The interval around a positive finite magnitude. Below a power of two the words lie twice as
dense as above it. -/
def interval (magnitude : Nat) : Interval :=
  let (m, q) := decode magnitude
  let below := if m = exponentWeight ∧ leastExponent < q then 1 else 2
  { low := .ofPower2 (4 * m - below) (q - 2)
    value := .ofPower2 m q
    high := .ofPower2 (4 * m + 2) (q - 2)
    closed := m % 2 = 0 }

def Interval.contains (i : Interval) (a : Fraction) : Bool :=
  if i.closed then !a.less i.low && !i.high.less a else i.low.less a && a.less i.high

/-- The neighbour of the value on the grid of multiples of `10 ^ k` that lies in the interval, the
nearer one if both do. -/
def Interval.onGrid (i : Interval) (tie : Tie) (k : Int) : Option Decimal :=
  let ⟨n, d⟩ : Fraction :=
    if 0 ≤ k then ⟨i.value.num, i.value.den * Nat.pow 10 k.toNat⟩
    else ⟨i.value.num * Nat.pow 10 (-k).toNat, i.value.den⟩
  let down := n / d
  let doubled := 2 * (n % d)
  let downNearer := doubled < d ∨ doubled = d ∧ (tie = .toEven ∧ down % 2 = 0)
  match i.contains (.ofPower10 down k), i.contains (.ofPower10 (down + 1) k) with
  | true, true => some (if downNearer then ⟨down, k⟩ else ⟨down + 1, k⟩)
  | true, false => some ⟨down, k⟩
  | false, true => some ⟨down + 1, k⟩
  | false, false => none

/-- The shortest decimal of a positive finite magnitude. A neighbour above the value can be the
next power of ten, which has a digit less than it seems. -/
def shortest (tie : Tie) (magnitude : Nat) : Decimal :=
  let i := interval magnitude
  let top := i.value.floorLog10
  -- from one digit to seventeen, which always suffice
  let found := (List.range 17).findSome? fun n : Nat => i.onGrid tie (top - n)
  match found with
  | some d => if d.digits % 10 = 0 then ⟨d.digits / 10, d.exponent + 1⟩ else d
  | none => ⟨0, 0⟩

end Binary64

end Wavefront
