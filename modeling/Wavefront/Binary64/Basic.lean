/-
Binary floating-point numbers of 64 bits, as words.

A word is a sign bit, eleven bits of exponent and 52 bits of fraction. Everything here is exact
arithmetic on natural numbers: a finite word denotes `m * 2 ^ q`, and a fraction is rounded to the
nearest word, a tie going to the even one, by one division. So comparisons, sums of roundings and
the texts of the neighbouring modules can be argued about with `Nat` and `Int` alone.

Words with the sign bit clear are ordered like the numbers they denote, infinity included. That is
why `order` reads a word as an integer and needs no case for exponents, and why a rounding that
overflows only has to be cut off at the word of infinity.
-/

set_option autoImplicit false

namespace Wavefront

/-- A binary floating-point number, given by its 64 bits. -/
structure Binary64 where
  word : UInt64
deriving DecidableEq

namespace Binary64

/-- The weight of the sign bit. -/
def signWeight : Nat := 0x8000000000000000

/-- The weight of the lowest exponent bit. -/
def exponentWeight : Nat := 0x10000000000000

/-- The word of positive infinity, above every finite word. -/
def infinityWord : Nat := 0x7FF * exponentWeight

/-- The exponent of two that the smallest positive number has. -/
def leastExponent : Int := -1074

/-- The number with the given sign and the word `magnitude` below the sign bit. -/
def ofMagnitude (negative : Bool) (magnitude : Nat) : Binary64 :=
  ⟨UInt64.ofNat (magnitude + if negative then signWeight else 0)⟩

/-- The infinity of a sign. -/
def infinity (negative : Bool) : Binary64 := ofMagnitude negative infinityWord

/-- The NaN that operations give. -/
def nan : Binary64 := ofMagnitude false (infinityWord + exponentWeight / 2)

/-- The sign bit. -/
def isNegative (x : Binary64) : Bool := signWeight ≤ x.word.toNat

/-- The word below the sign bit. -/
def magnitude (x : Binary64) : Nat := x.word.toNat % signWeight

/-- Is the word none of a number? -/
def isNaN (x : Binary64) : Bool := infinityWord < x.magnitude

/-- Is the word that of a number, and not of an infinity? -/
def isFinite (x : Binary64) : Bool := x.magnitude < infinityWord

/-- Positive and negative zero. -/
def isZero (x : Binary64) : Bool := x.magnitude = 0

/-! ## Order -/

/-- An integer that orders all words but the NaNs like the numbers they denote: both zeros are 0. -/
def order (x : Binary64) : Int :=
  if x.isNegative then -(x.magnitude : Int) else x.magnitude

/-- Equality of numbers: the two zeros are equal, and a NaN is equal to nothing. -/
def same (x y : Binary64) : Bool := !x.isNaN && !y.isNaN && x.order = y.order

/-- The order of two numbers; a NaN is not ordered. -/
def compare? (x y : Binary64) : Option Ordering :=
  if x.isNaN || y.isNaN then none else some (compare x.order y.order)

/-! ## The number that a word denotes -/

/-- The significand `m` and the exponent `q` of a finite magnitude `m * 2 ^ q`. -/
def decode (magnitude : Nat) : Nat × Int :=
  let exponent := magnitude / exponentWeight
  let fraction := magnitude % exponentWeight
  if exponent = 0 then (fraction, leastExponent)
  else (exponentWeight + fraction, leastExponent + (exponent - 1))

/-! ## Rounding -/

/-- The quotient, rounded to the nearest natural number, a tie to the even one. -/
def divideToEven (n d : Nat) : Nat :=
  let quotient := n / d
  let doubled := 2 * (n % d)
  if doubled < d then quotient
  else if d < doubled then quotient + 1
  else quotient + quotient % 2

/-- The fraction `n / d * 2 ^ e`, with the power moved to where the exponent is positive. -/
def scale (n d : Nat) (e : Int) : Nat × Nat :=
  if 0 ≤ e then (n <<< e.toNat, d) else (n, d <<< (-e).toNat)

/-- The exponent of the greatest power of two that is not above `n / d`, for `n` and `d`
positive. -/
def floorLog2 (n d : Nat) : Int :=
  let guess : Int := (Nat.log2 n : Int) - Nat.log2 d
  let (n', d') := scale n d (-guess)
  if n' < d' then guess - 1 else guess

/-- The magnitude nearest to `n / d`, for a positive `d`. The significand is taken on the grid of
the result's own exponent, so a carry out of it lands on the next exponent by itself. -/
def roundRatio (n d : Nat) : Nat :=
  if n = 0 then 0
  else
    let q := max (floorLog2 n d - 52) leastExponent
    let (n', d') := scale n d (-q)
    min infinityWord ((q - leastExponent).toNat * exponentWeight + divideToEven n' d')

/-- The magnitude nearest to `n / d * 2 ^ e`. -/
def roundScaled (n d : Nat) (e : Int) : Nat :=
  let (n', d') := scale n d e
  roundRatio n' d'

/-- A finite number as a fraction with a positive denominator. -/
def toRatio (x : Binary64) : Int × Nat :=
  let (m, q) := decode x.magnitude
  let (num, den) := scale m 1 q
  (if x.isNegative then -(num : Int) else num, den)

/-- The magnitude of the difference of two finite numbers, rounded. -/
def distance (x y : Binary64) : Nat :=
  let (a, b) := x.toRatio
  let (c, d) := y.toRatio
  roundRatio (a * d - c * b).natAbs (b * d)

/-- The magnitude of `2 ^ (-52)`, the distance from 1 to the next number. -/
def epsilon : Nat := (1023 - 52) * exponentWeight

/-- The number nearest to an integer. -/
def ofInt (n : Int) : Binary64 := ofMagnitude (n < 0) (roundRatio n.natAbs 1)

/-- The magnitude nearest to `significand * 10 ^ exponent`. Far outside the range of finite words
the power of ten is not worked out. -/
def roundDecimal (significand : Nat) (exponent : Int) : Nat :=
  if significand = 0 then 0
  else if 400 < exponent then infinityWord
  else if exponent + Nat.log2 significand < -400 then 0
  else if 0 ≤ exponent then roundRatio (significand * Nat.pow 10 exponent.toNat) 1
  else roundRatio significand (Nat.pow 10 (-exponent).toNat)

/-- The product of two magnitudes, rounded. -/
def multiply (x y : Nat) : Nat :=
  let (m, p) := decode x
  let (n, q) := decode y
  roundScaled (m * n) 1 (p + q)

/-- The quotient of a magnitude by a positive one, rounded. -/
def divide (x y : Nat) : Nat :=
  let (m, p) := decode x
  let (n, q) := decode y
  roundScaled m n (p - q)

end Binary64

end Wavefront
