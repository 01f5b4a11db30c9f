/-
Expressions of conditions and what they evaluate to (`loose_eq`, `strict_eq`, `compare`, `truthy`).

Reading an expression and evaluating it are two functions here: `parse_or` and the functions below
it give values at once, which is the same, since no value decides how the tokens behind it are read.

Values are compared the way loosely typed scripts do it. Null equals only null. Two strings compare
as strings; where a number or a Boolean meets something else, both sides are taken as numbers, and a
side that is none makes the comparison false. `and` and `or` give back one of their operands, not a
Boolean. A name that leads nowhere is null, except that a path to an array or a string has a length.
-/
import Wavefront.Condition.Token
import Wavefront.Context

set_option autoImplicit false

namespace Wavefront

namespace Value

/-- Does a value count as true? Null, false, zero and the empty string do not: `truthy`. -/
def truthy : Value → Bool
  | null => false
  | bool b => b
  | number n => !n.toBinary64.isZero
  | string s => s ≠ ""
  | array _ | object _ => true

/-- The number that a value is taken for in a comparison: `as_number`. -/
def asNumber : Value → Option Binary64
  | number n => some n.toBinary64
  | string s => Binary64.ofText? (Text.trim s.toList)
  | bool b => some (.ofInt (if b then 1 else 0))
  | _ => none

/-- Does the value take part in a comparison as a number? -/
def isNumeric : Value → Bool
  | number _ | bool _ => true
  | _ => false

/-- Equality with conversion: `loose_eq`. -/
def looselyEqual (v w : Value) : Bool :=
  match v, w with
  | null, null => true
  | null, _ | _, null => false
  | string s, string t => s = t
  | _, _ =>
      -- a number or a Boolean on either side turns both sides into numbers
      if v.isNumeric || w.isNumeric then
        match v.asNumber, w.asNumber with
        | some x, some y => x.same y
        | _, _ => false
      else v.same w

/-- Equality without conversion, `strict_eq`; numbers of either kind are still compared as
numbers. -/
def strictlyEqual (v w : Value) : Bool :=
  match v, w with
  | number m, number n => m.toBinary64.same n.toBinary64
  | _, _ => v.same w

/-- The order of strings by their code points. -/
def compareStrings (s t : String) : Ordering :=
  if s < t then .lt else if s = t then .eq else .gt

/-- The order of two values, if they have one, as `compare` finds it. -/
def order? (v w : Value) : Option Ordering :=
  match v, w with
  | string s, string t => some (compareStrings s t)
  | _, _ => do (← v.asNumber).compare? (← w.asNumber)

end Value

namespace Condition

/-- Does the comparison hold between two values? -/
def Comparison.holds (c : Comparison) (v w : Value) : Bool :=
  match c with
  | equal => v.looselyEqual w
  | unequal => !v.looselyEqual w
  | identical => v.strictlyEqual w
  | distinct => !v.strictlyEqual w
  | less => v.order? w = some .lt
  | atMost => v.order? w = some .lt || v.order? w = some .eq
  | greater => v.order? w = some .gt
  | atLeast => v.order? w = some .gt || v.order? w = some .eq

/-- An expression. Parentheses leave no trace in it. -/
inductive Expr where
  | constant (v : Value)
  | name (path : String)
  | not (e : Expr)
  | compare (c : Comparison) (left right : Expr)
  | and (left right : Expr)
  | or (left right : Expr)

/-- The ending of a name that asks for a length. -/
def lengthSuffix : String := ".length"

/-- The length of what a path leads to, if it has one: items of an array, characters of a string. -/
def lengthAt (ctx : Value) (path : String) : Option Value :=
  match ctx.resolve path with
  | some (.array items) => some (.ofNat items.length)
  | some (.string s) => some (.ofNat s.length)
  | _ => none

/-- What a name stands for when it is no path to a value. -/
def lengthOrNull (ctx : Value) (name : String) : Value :=
  if name.endsWith lengthSuffix then
    (lengthAt ctx (String.ofList (name.toList.take (name.length - lengthSuffix.length)))).getD .null
  else .null

/-- What a name stands for: `identifier`. The constants come first, then the context. -/
def lookup (ctx : Value) (name : String) : Value :=
  if name = "true" then .bool true
  else if name = "false" then .bool false
  else if name = "null" ∨ name = "undefined" then .null
  else (ctx.resolve name).getD (lengthOrNull ctx name)

/-- The value of an expression. -/
def Expr.eval (ctx : Value) : Expr → Value
  | constant v => v
  | name path => lookup ctx path
  | not e => .bool (!(e.eval ctx).truthy)
  | compare c left right => .bool (c.holds (left.eval ctx) (right.eval ctx))
  | and left right => if (left.eval ctx).truthy then right.eval ctx else left.eval ctx
  | or left right => if (left.eval ctx).truthy then left.eval ctx else right.eval ctx

end Condition

end Wavefront
