/-
Writing values as JSON text.

The text is compact: no white space, objects with their fields in order. Of the characters of a
string only the quote, the backslash and the control characters below the space are escaped, seven
of them with a letter and the others with their code.
-/
import Wavefront.Value.Basic

set_option autoImplicit false

namespace Wavefront

namespace Json

/-- A lower-case hexadecimal digit. -/
def hexDigit (n : Nat) : Char :=
  if n < 10 then Char.ofNat ('0'.toNat + n) else Char.ofNat ('a'.toNat + (n - 10))

/-- A character as it stands inside quotes. -/
def escaped (c : Char) : String :=
  if c = '"' then "\\\""
  else if c = '\\' then "\\\\"
  else if c = '\x08' then "\\b"
  else if c = '\x0c' then "\\f"
  else if c = '\n' then "\\n"
  else if c = '\r' then "\\r"
  else if c = '\t' then "\\t"
  else if c.toNat < 0x20 then
    "\\u00" ++ String.ofList [hexDigit (c.toNat / 16), hexDigit (c.toNat % 16)]
  else String.singleton c

/-- A string in quotes. -/
def quoted (s : String) : String :=
  (s.toList.foldl (fun acc c => acc ++ escaped c) "\"") ++ "\""

end Json

namespace Value

mutual

/-- Writes a value behind what has been written. -/
def writeAfter (acc : String) : Value → String
  | null => acc ++ "null"
  | bool b => acc ++ if b then "true" else "false"
  | number n => acc ++ n.text
  | string s => acc ++ Json.quoted s
  | array [] => acc ++ "[]"
  | array (item :: items) => writeItems (writeAfter (acc ++ "[") item) items ++ "]"
  | object [] => acc ++ "\x7b\x7d"
  | object ((key, v) :: fields) =>
      writeFields (writeAfter (acc ++ "\x7b" ++ Json.quoted key ++ ":") v) fields ++ "\x7d"

/-- Writes the items after the first of an array. -/
def writeItems (acc : String) : List Value → String
  | [] => acc
  | item :: items => writeItems (writeAfter (acc ++ ",") item) items

/-- Writes the fields after the first of an object. -/
def writeFields (acc : String) : List (String × Value) → String
  | [] => acc
  | (key, v) :: fields =>
      writeFields (writeAfter (acc ++ "," ++ Json.quoted key ++ ":") v) fields

end

/-- The compact JSON text of a value. -/
def json (v : Value) : String := writeAfter "" v

end Value

end Wavefront
