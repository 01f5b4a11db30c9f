/-
Values: the tree that documents, contexts, tool parameters and results are made of.

An object keeps its fields sorted by key (see `Wavefront.Value.Fields`), so two objects with the
same fields are the same value and print the same.
-/
import Wavefront.Value.Fields
import Wavefront.Value.Number

set_option autoImplicit false

namespace Wavefront

/-- A document value. -/
inductive Value where
  | null
  | bool (b : Bool)
  | number (n : Number)
  | string (s : String)
  | array (items : List Value)
  | object (fields : List (String × Value))
deriving Inhabited

namespace Value

/-! ## Views -/

/-- The string that a value is, if it is one. -/
def string? : Value → Option String
  | string s => some s
  | _ => none

/-- The items of a value that is an array. -/
def array? : Value → Option (List Value)
  | array items => some items
  | _ => none

/-- The fields of a value that is an object. -/
def object? : Value → Option (List (String × Value))
  | object fields => some fields
  | _ => none

/-- The truth value that a value is, if it is one. -/
def bool? : Value → Option Bool
  | bool b => some b
  | _ => none

/-- The value as an unsigned word. -/
def word? : Value → Option UInt64
  | number n => n.word?
  | _ => none

/-- The value as an unsigned word of 32 bits. -/
def halfWord? : Value → Option UInt32
  | number n => n.halfWord?
  | _ => none

/-- Is the value a string? -/
def isString (v : Value) : Bool := v.string?.isSome

/-- Is the value an object? -/
def isObject (v : Value) : Bool := v.object?.isSome

/-- The field of an object; nothing for any other value. -/
def field? (v : Value) (key : String) : Option Value :=
  match v with
  | object fields => Fields.get? key fields
  | _ => none

/-- An object from pairs; of two pairs with one key the later counts. -/
def ofFields (pairs : List (String × Value)) : Value := object (Fields.ofList pairs)

/-- A word as a value. -/
def ofWord (w : UInt64) : Value := number (.ofWord w)

/-- A natural number below `2 ^ 64` as a value. -/
def ofNat (n : Nat) : Value := ofWord (UInt64.ofNat n)

/-! ## Equality -/

mutual

/-- Equality of documents: numbers by `Number.same`, all else by structure. -/
def same : Value → Value → Bool
  | null, null => true
  | bool a, bool b => a == b
  | number m, number n => m.same n
  | string s, string t => s == t
  | array xs, array ys => sameItems xs ys
  | object fs, object gs => sameFields fs gs
  | _, _ => false

/-- Equality of arrays, item by item. -/
def sameItems : List Value → List Value → Bool
  | [], [] => true
  | x :: xs, y :: ys => same x y && sameItems xs ys
  | _, _ => false

/-- Equality of objects, field by field. -/
def sameFields : List (String × Value) → List (String × Value) → Bool
  | [], [] => true
  | (k, v) :: fs, (l, w) :: gs => k == l && same v w && sameFields fs gs
  | _, _ => false

end

end Value

end Wavefront
