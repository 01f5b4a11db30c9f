/-
Reading JSON text.

A value is read from tokens with a stack of the containers that are still open: one step per token,
so the reading ends with the text. Every failure to read is the same one, that the text is not
JSON; a reader that wants a certain type of document can fail in a second way, see `Fault`.
-/
import Wavefront.Json.Token
import Wavefront.Value.Basic

set_option autoImplicit false

namespace Wavefront

namespace Json

/-- Why no typed document could be had from JSON. -/
inductive Fault where
  /-- The text is not JSON. -/
  | syntaxError
  /-- It is JSON of another shape than the type of document has. -/
  | wrongShape
deriving DecidableEq

/-- A container that is being read: the items so far in reverse, or the fields so far and the key
whose value is being read. -/
inductive Frame where
  | array (items : List Value)
  | object (fields : List (String × Value)) (key : String)

/-- What the next token has to be. -/
inductive Want where
  | value
  /-- A value, or the end of an array that is still empty. -/
  | firstItem
  | key (fields : List (String × Value))
  /-- A key, or the end of an object that is still empty. -/
  | firstKey
  | colon (fields : List (String × Value)) (key : String)
  /-- What may stand behind a value: a comma or the end of its container. -/
  | behind (v : Value)

/-- The number of containers that may be open at once. -/
def nestingLimit : Nat := 127

/-- Opens a container if the limit, where there is one, allows it. -/
def enter (limit : Option Nat) (stack : List Frame) (want : Want) : Option Want :=
  match limit with
  | some n => if stack.length < n then some want else none
  | none => some want

/-- Reads one value off the tokens, with the containers in `stack` open. -/
def readFrom (limit : Option Nat) : List Token → Want → List Frame → Option (Value × List Token)
  | tokens, .behind v, [] => some (v, tokens)
  | [], _, _ => none
  | token :: tokens, want, stack =>
      match want, token, stack with
      | .value, .null, _ | .firstItem, .null, _ => readFrom limit tokens (.behind .null) stack
      | .value, .bool b, _ | .firstItem, .bool b, _ =>
          readFrom limit tokens (.behind (.bool b)) stack
      | .value, .number (some n), _ | .firstItem, .number (some n), _ =>
          readFrom limit tokens (.behind (.number n)) stack
      | .value, .string (some s), _ | .firstItem, .string (some s), _ =>
          readFrom limit tokens (.behind (.string s)) stack
      | .value, .openArray, _ | .firstItem, .openArray, _ =>
          match enter limit stack .firstItem with
          | some want => readFrom limit tokens want (.array [] :: stack)
          | none => none
      | .value, .openObject, _ | .firstItem, .openObject, _ =>
          match enter limit stack .firstKey with
          | some want => readFrom limit tokens want (.object [] "" :: stack)
          | none => none
      | .firstItem, .closeArray, .array _ :: stack =>
          readFrom limit tokens (.behind (.array [])) stack
      | .firstKey, .closeObject, .object _ _ :: stack =>
          readFrom limit tokens (.behind (.object [])) stack
      | .firstKey, .string (some key), _ => readFrom limit tokens (.colon [] key) stack
      | .key fields, .string (some key), _ => readFrom limit tokens (.colon fields key) stack
      | .colon fields key, .colon, .object _ _ :: stack =>
          readFrom limit tokens .value (.object fields key :: stack)
      | .behind v, .comma, .array items :: stack =>
          readFrom limit tokens .value (.array (v :: items) :: stack)
      | .behind v, .closeArray, .array items :: stack =>
          readFrom limit tokens (.behind (.array (v :: items).reverse)) stack
      | .behind v, .comma, .object fields key :: stack =>
          readFrom limit tokens (.key (Fields.insert key v fields)) (.object [] "" :: stack)
      | .behind v, .closeObject, .object fields key :: stack =>
          readFrom limit tokens (.behind (.object (Fields.insert key v fields))) stack
      | _, _, _ => none

/-- Reads one value off the tokens and gives the tokens behind it. -/
def readValue (tokens : List Token) : Option (Value × List Token) :=
  readFrom (some nestingLimit) tokens .value []

/-- The token as it counts where its value is not wanted. -/
def Token.unread : Token → Token
  | .number _ => .null
  | .string none => .string (some "")
  | token => token

/-- Skips one value, to any depth, and gives the tokens behind it. -/
def skipValue (tokens : List Token) : Option (List Token) :=
  (readFrom none (tokens.map Token.unread) .value []).map fun result =>
    tokens.drop (tokens.length - result.2.length)

/-- The value that a text denotes: one value and nothing behind it. -/
def parse (text : String) : Except Fault Value :=
  match readValue (scan text) with
  | some (v, []) => .ok v
  | _ => .error .syntaxError

end Json

end Wavefront
