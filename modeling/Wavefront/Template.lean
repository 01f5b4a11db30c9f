/-
Templates: references to the context inside strings (`interpolate`, `substitute` and
`resolve_reference`).

A string that is a path in double braces as a whole stands for the value at that path, whatever its
type. Inside longer strings a path in single braces behind a dollar sign is a marker that stands for
the text of the value. Both kinds of reference hold anything but braces, with blanks around the path
dropped; of a reference to nothing but blanks the last one is kept, so that there is a path at all.
-/
import Wavefront.Context
import Wavefront.Json.Printer

set_option autoImplicit false

namespace Wavefront

namespace Template

/-- Any character but a brace. -/
def notBrace (c : Char) : Bool := c ≠ '{' && c ≠ '}'

/-- The path that the inside of a reference holds: what the group of the two patterns captures with
the blanks around it left out. -/
def captured (inside : List Char) : List Char :=
  match Text.trim inside, inside.getLast? with
  | [], some c => [c]
  | path, _ => path

/-! ## Whole templates -/

/-- The path of a text that is a whole template: what `WHOLE_TEMPLATE` matches. -/
def wholePath? (cs : List Char) : Option (List Char) :=
  match cs with
  | '{' :: '{' :: rest =>
      if rest.dropWhile notBrace = ['}', '}'] ∧ rest.takeWhile notBrace ≠ [] then
        some (captured (rest.takeWhile notBrace))
      else none
  | _ => none

/-- The path of a string that is a whole template: `whole_template_path`. -/
def path? (text : String) : Option String := (wholePath? text.toList).map String.ofList

/-! ## Markers -/

/-- A piece of a text with markers in it. -/
inductive Piece where
  | literal (c : Char)
  | marker (path : List Char)
deriving DecidableEq

/-- The pieces of a text, the markers being the matches of `INLINE_TEMPLATE`. A dollar sign and an
opening brace begin a marker if a closing brace is the next brace and something stands before it;
otherwise the dollar sign is a character like any other. -/
def pieces (cs : List Char) : List Piece :=
  match cs with
  | [] => []
  | '$' :: '{' :: rest =>
      match _behind : rest.dropWhile notBrace with
      | '}' :: rest' =>
          -- nothing between the braces: this is no marker, but one may begin at the brace
          if rest.takeWhile notBrace = [] then .literal '$' :: pieces ('{' :: rest)
          else .marker (captured (rest.takeWhile notBrace)) :: pieces rest'
      | _ => .literal '$' :: pieces ('{' :: rest)
  | c :: rest => .literal c :: pieces rest
termination_by cs.length
decreasing_by
  · simp
  · have := Text.length_dropWhile_le notBrace rest
    simp only [_behind, List.length_cons] at this ⊢
    omega
  · simp
  · simp

end Template

namespace Value

/-- The text that stands for a value, `stringify`: nothing for null and for no value, a string as it
is, and JSON for anything else. -/
def display : Option Value → String
  | none | some null => ""
  | some (string s) => s
  | some v => v.json

end Value

namespace Template

/-- The text that a piece stands for. -/
def Piece.expand (ctx : Value) : Piece → List Char
  | .literal c => [c]
  | .marker path => (Value.display (ctx.resolve (String.ofList path))).toList

/-- The text with each marker replaced: `interpolate`. What is put in is not looked at again. -/
def interpolate (ctx : Value) (text : String) : String :=
  String.ofList ((pieces text.toList).flatMap (Piece.expand ctx))

/-- What a string stands for. -/
def expand (ctx : Value) (text : String) : Value :=
  match path? text with
  | some path => (ctx.resolve path).getD .null
  | none => .string (interpolate ctx text)

end Template

namespace Value

mutual

/-- The value with every string in it replaced by what it stands for: `substitute`. Keys stay as
they are. -/
def substitute (ctx : Value) : Value → Value
  | string text => Template.expand ctx text
  | array items => array (substituteItems ctx items)
  | object fields => object (substituteFields ctx fields)
  | v => v

/-- Every item of an array substituted. -/
def substituteItems (ctx : Value) : List Value → List Value
  | [] => []
  | item :: items => substitute ctx item :: substituteItems ctx items

/-- Every field of an object substituted, under the key that it had. -/
def substituteFields (ctx : Value) : List (String × Value) → List (String × Value)
  | [] => []
  | (key, v) :: fields => (key, substitute ctx v) :: substituteFields ctx fields

end

/-- What a reference to a collection stands for, `resolve_reference`: a string is a path, in double
braces or bare, and an array stands for itself with the strings in it replaced. An array so always
has a value, with null where one of its strings leads nowhere. -/
def deref (ctx : Value) : Value → Option Value
  | string text => ctx.resolve ((Template.path? text).getD text)
  | array items => some (substitute ctx (array items))
  | _ => none

end Value

end Wavefront
