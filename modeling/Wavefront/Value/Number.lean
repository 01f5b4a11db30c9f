/-
Numbers of documents: integers that fit 64 bits, signed or unsigned, and finite floating-point
numbers.

The two kinds stay apart: `1` and `1.0` are different numbers of a document although conditions
compare them as equal. Both bounds are fields of the type, so no operation has to restate them.
-/
import Wavefront.Binary64.Text

set_option autoImplicit false

namespace Wavefront

/-- A number of a document. -/
inductive Number where
  /-- An integer that a signed or an unsigned 64-bit word can hold. -/
  | int (n : Int) (fits : -0x8000000000000000 ≤ n ∧ n < 0x10000000000000000)
  /-- A floating-point number other than the infinities and the NaNs. -/
  | float (x : Binary64) (finite : x.isFinite = true)
deriving DecidableEq

namespace Number

/-- The integer as a number, if it fits. -/
def ofInt? (n : Int) : Option Number :=
  if h : -0x8000000000000000 ≤ n ∧ n < 0x10000000000000000 then some (int n h) else none

/-- The floating-point number as a number, if it is finite. -/
def ofBinary64? (x : Binary64) : Option Number :=
  if h : x.isFinite = true then some (float x h) else none

/-- A word as a number. -/
def ofWord (w : UInt64) : Number :=
  int w.toNat ⟨by omega, by have := w.toNat_lt; omega⟩

/-- A signed word as a number. -/
def ofSigned (w : Int64) : Number :=
  int w.toInt ⟨by have := w.le_toInt; omega, by have := w.toInt_lt; omega⟩

instance : Inhabited Number := ⟨ofWord 0⟩

/-- The number as an unsigned word; no floating-point number is one. -/
def word? : Number → Option UInt64
  | int n _ => if 0 ≤ n then some (UInt64.ofNat n.toNat) else none
  | float _ _ => none

/-- The number as an unsigned word of 32 bits. -/
def halfWord? (n : Number) : Option UInt32 :=
  n.word?.bind fun w => if w.toNat < UInt32.size then some w.toUInt32 else none

/-- The number as a signed integer of 64 bits; no floating-point number is one. -/
def signed? : Number → Option Int
  | int n _ => if n < 0x8000000000000000 then some n else none
  | float _ _ => none

/-- The nearest floating-point number. -/
def toBinary64 : Number → Binary64
  | int n _ => .ofInt n
  | float x _ => x

/-- Equality inside documents: numbers of the same kind and value. -/
def same : Number → Number → Bool
  | int m _, int n _ => m = n
  | float x _, float y _ => x.same y
  | _, _ => false

/-- The text of a number. -/
def text : Number → String
  | int n _ => toString n
  | float x _ => x.text

end Number

end Wavefront
