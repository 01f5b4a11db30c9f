/-
Paths: the addresses of values inside a tree, as `parse_path` reads them.

A path is a list of segments. Its text is dotted: parts separated by points, each a key, perhaps
followed by indices in brackets (`a.b[0].c`). The reader trims the whole text and each index, takes
an index with a plus sign and with zeros in front, allows brackets right behind a point, and keeps a
closing bracket without an opening one as part of the key. `Path.text` writes the one form of a path
that has none of these liberties.
-/
import Wavefront.Text.Numeral

set_option autoImplicit false

namespace Wavefront

/-- One step into a tree: `PathSegment`. -/
inductive Segment where
  | key (name : String)
  | index (i : Nat)
deriving DecidableEq

namespace Path

/-! ## Reading -/

/-- The pieces of a text between its points. -/
def parts : List Char → List (List Char)
  | [] => [[]]
  | '.' :: cs => [] :: parts cs
  | c :: cs =>
      match parts cs with
      | [] => [[c]]
      | part :: rest => (c :: part) :: rest

/-- The indices of a run of brackets, `opened` being the reversed text inside the bracket that is
open, if one is. Every opening bracket needs its closing one, and nothing but another opening one
may follow that. -/
def brackets : List Char → (opened : Option (List Char)) → Option (List Segment)
  | [], none => some []
  | [], some _ => none
  | '[' :: cs, none => brackets cs (some [])
  | _ :: _, none => none
  | c :: cs, some inside =>
      if c = ']' then do
        let i ← Text.index? (Text.trim inside.reverse)
        let rest ← brackets cs none
        return .index i :: rest
      else brackets cs (some (c :: inside))

/-- The segments of one part: its key, if it starts with one, and its indices. -/
def part? (part : List Char) : Option (List Segment) :=
  if part = [] then none
  else do
    let head := part.takeWhile (· ≠ '[')
    let indices ← brackets (part.dropWhile (· ≠ '[')) none
    return (if head = [] then [] else [.key (String.ofList head)]) ++ indices

/-- The segments of a trimmed text; the empty one has none. -/
def segments? (cs : List Char) : Option (List Segment) :=
  if cs = [] then some [] else (parts cs).mapM part? |>.map List.flatten

/-- Reads a path: `parse_path`. Blanks around the whole text are dropped first, so a text of nothing
but blanks is the path without segments. -/
def parse? (text : String) : Option (List Segment) := segments? (Text.trim text.toList)

/-! ## Writing -/

/-- An index in brackets. -/
def indexText (i : Nat) : String := "[" ++ toString i ++ "]"

/-- Writes segments behind something: a key after a point, an index directly. -/
def textBehind : List Segment → String
  | [] => ""
  | .key name :: rest => "." ++ name ++ textBehind rest
  | .index i :: rest => indexText i ++ textBehind rest

/-- Writes a path. -/
def text : List Segment → String
  | [] => ""
  | .key name :: rest => name ++ textBehind rest
  | .index i :: rest => indexText i ++ textBehind rest

end Path

end Wavefront
