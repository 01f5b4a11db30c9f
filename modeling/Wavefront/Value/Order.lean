/-
The exact order of numbers across both kinds.

An integer of 64 bits and a floating-point number are compared as the rationals they are, not after
rounding one to the kind of the other: `9007199254740993` is above `9007199254740992.0`.
-/
import Wavefront.Value.Basic

set_option autoImplicit false

namespace Wavefront

namespace Number

/-- The number as a fraction with a positive denominator. -/
def toRatio : Number → Int × Nat
  | int n _ => (n, 1)
  | float x _ => x.toRatio

/-- Is the first number below the second? -/
def less (m n : Number) : Bool :=
  let (a, b) := m.toRatio
  let (c, d) := n.toRatio
  a * d < c * b

/-- Have the numbers the same value, of whatever kinds they are? -/
def equals (m n : Number) : Bool := !m.less n && !n.less m

/-- Are the numbers nearly the same? Both are rounded to floating-point numbers, and so is the
distance of those. It has to be less than the one from 1 to the next floating-point number. -/
def isNear (m n : Number) : Bool := m.toBinary64.distance n.toBinary64 < Binary64.epsilon

/-- Is the value of the number an integer? -/
def isIntegral (n : Number) : Bool :=
  let (a, b) := n.toRatio
  a % (b : Int) = 0

end Number

namespace Value

mutual

/-- Equality of values with numbers compared by value alone. -/
def equals : Value → Value → Bool
  | null, null => true
  | bool a, bool b => a == b
  | number m, number n => m.equals n
  | string s, string t => s == t
  | array xs, array ys => equalsItems xs ys
  | object fs, object gs => equalsFields fs gs
  | _, _ => false

def equalsItems : List Value → List Value → Bool
  | [], [] => true
  | x :: xs, y :: ys => equals x y && equalsItems xs ys
  | _, _ => false

def equalsFields : List (String × Value) → List (String × Value) → Bool
  | [], [] => true
  | (k, v) :: fs, (l, w) :: gs => k == l && equals v w && equalsFields fs gs
  | _, _ => false

end

end Value

end Wavefront
