/-
What plain scalars mean.

A plain scalar is null, a Boolean, an integer, a number, or else a string. An integer is written in
decimal, or in base 16, 8 or 2 behind `0x`, `0o` or `0b`. Digits with a zero in front are a string,
not a number. Quoted scalars are strings always.
-/
import Wavefront.Value.Basic
import Wavefront.Yaml.Node

set_option autoImplicit false

namespace Wavefront

namespace Yaml

def isNullText (s : String) : Bool := s ∈ ["", "null", "Null", "NULL", "~"]

def bool? (s : String) : Option Bool :=
  if s ∈ ["true", "True", "TRUE"] then some true
  else if s ∈ ["false", "False", "FALSE"] then some false
  else none

/-- Two or more digits, with a zero in front. -/
def hasLeadingZero (cs : List Char) : Bool :=
  let digits := match cs with
    | '-' :: rest | '+' :: rest => rest
    | rest => rest
  match digits with
  | '0' :: d :: rest => (d :: rest).all Text.isDigit
  | _ => false

/-- The value of a digit in a base up to 16. -/
def baseDigit? (base : Nat) (c : Char) : Option Nat :=
  (Json.hexDigit? c).bind fun n => if n < base then some n else none

/-- A natural number in some base. -/
def inBase? (base : Nat) (cs : List Char) : Option Nat :=
  if cs = [] then none
  else cs.foldlM (fun n c => (baseDigit? base c).map fun d => base * n + d) 0

/-- A natural number, in decimal or in the base that it names. -/
def magnitude? : List Char → Option Nat
  | '0' :: 'x' :: rest => inBase? 16 rest
  | '0' :: 'o' :: rest => inBase? 8 rest
  | '0' :: 'b' :: rest => inBase? 2 rest
  | cs => if hasLeadingZero cs then none else inBase? 10 cs

/-- An integer, perhaps with a sign. -/
def integer? : List Char → Option Int
  | '+' :: rest => (magnitude? rest).map fun n => n
  | '-' :: rest => (magnitude? rest).map fun n => -n
  | cs => (magnitude? cs).map fun n => n

/-- A number that is not an integer: a decimal, an infinity or a NaN. -/
def float? (s : String) : Option Binary64 :=
  if s ∈ [".inf", ".Inf", ".INF", "+.inf", "+.Inf", "+.INF"] then some (.infinity false)
  else if s ∈ ["-.inf", "-.Inf", "-.INF"] then some (.infinity true)
  else if s ∈ [".nan", ".NaN", ".NAN"] then some .nan
  else
    let cs := match s.toList with
      | '+' :: rest => if rest.head?.any (fun c => c = '+' || c = '-') then [] else rest
      | cs => cs
    (Binary64.ofText? cs).bind fun x => if x.isFinite then some x else none

/-- The numbers of integers that do not fit 64 bits but would fit 128. -/
def isWide (n : Int) : Bool := -Int.pow 2 127 ≤ n && n < Int.pow 2 128

/-- The value of a plain scalar. An integer between 64 and 128 bits has none; a larger one counts
as a number that is no integer, and so does minus zero when it is written with a point. -/
def plainValue? (s : String) : Option Value :=
  if isNullText s then some .null
  else match bool? s with
    | some b => some (.bool b)
    | none =>
        match integer? s.toList with
        | some n =>
            match Number.ofInt? n with
            | some n => some (.number n)
            -- an integer that is too large for documents, or else so large that it is no integer
            | none => if isWide n then none else floatValue? s
        | none => floatValue? s
where
  floatValue? (s : String) : Option Value :=
    if hasLeadingZero s.toList then some (.string s)
    else match float? s with
      | some x => some (((Number.ofBinary64? x).map Value.number).getD .null)
      | none => some (.string s)

/-- The natural number that a plain scalar stands for. -/
def natural? (s : String) : Option Nat :=
  match s.toList with
  | '+' :: rest => magnitude? rest
  | cs => magnitude? cs

/-- The text of a key. -/
def Node.key? : Node → Option String
  | .scalar text _ => some text
  | _ => none

mutual

/-- The value of a node whose sequences and mappings lie inside each other on at most some levels.
Of two pairs with one key the later counts. -/
def Node.value? (levels : Nat) : Node → Option Value
  | .scalar text true => plainValue? text
  | .scalar text false => some (.string text)
  | .sequence items => if levels = 0 then none else (values? (levels - 1) items).map .array
  | .mapping pairs => if levels = 0 then none else (fields? (levels - 1) pairs).map .ofFields

def values? (levels : Nat) : List Node → Option (List Value)
  | [] => some []
  | node :: nodes => do return (← node.value? levels) :: (← values? levels nodes)

def fields? (levels : Nat) : List (Node × Node) → Option (List (String × Value))
  | [] => some []
  | (key, node) :: pairs => do
      return (← key.key?, ← node.value? levels) :: (← fields? levels pairs)

end

/-- The value of a document, which may have 128 levels. -/
def Node.toValue? (node : Node) : Option Value := node.value? 128

end Yaml

end Wavefront
