/-
Stock schemas: what a value has to look like, in the keywords that are in common use.

A schema allows everything, nothing, or what all of its rules allow. A rule speaks about one type of
value and allows every value of another type. Checking stops at the first violation, in the order
of the rules, and a violation carries what its text shows.

These schemas are for hosts that bring no validator of their own, and for trying runs out. Nothing
is proved of runs that rests on them: what runs need of a validator is `Schema.Validator`.
-/
import Wavefront.Json.Printer
import Wavefront.Value.Order

set_option autoImplicit false

namespace Wavefront

namespace Schema

/-- The types that a schema can name. -/
inductive TypeName where
  | array
  | boolean
  | integer
  | null
  | number
  | object
  | string
deriving DecidableEq

namespace TypeName

def text : TypeName → String
  | array => "array"
  | boolean => "boolean"
  | integer => "integer"
  | null => "null"
  | number => "number"
  | object => "object"
  | string => "string"

/-- All types, in the order of their names. -/
def all : List TypeName := [array, boolean, integer, null, number, object, string]

/-- The type of a given name. -/
def ofText? (s : String) : Option TypeName := all.find? fun t => t.text = s

/-- Is the value of this type? A floating-point number without a fraction is an integer. -/
def admits : TypeName → Value → Bool
  | array, .array _ => true
  | boolean, .bool _ => true
  | integer, .number n => n.isIntegral
  | null, .null => true
  | number, .number _ => true
  | object, .object _ => true
  | string, .string _ => true
  | _, _ => false

end TypeName

/-- How a value breaks a schema. -/
inductive Violation where
  | notOfType (v : Value) (types : List TypeName)
  | noSuchType (v : Value)
  | missingField (name : String)
  | unexpectedField (name : String)
  | forbidden (v : Value)
  | belowMinimum (v : Value) (limit : Number)
  | aboveMaximum (v : Value) (limit : Number)
  | notAmong (v : Value) (options : List Value)
  | notConstant (expected : Value)
  | tooShort (v : Value) (limit : Nat)
  | tooLong (v : Value) (limit : Nat)
  | tooFewItems (v : Value) (limit : Nat)
  | tooManyItems (v : Value) (limit : Nat)
  | repeatedItems (v : Value)

/-- A number of things. -/
def counted (n : Nat) (thing : String) : String :=
  toString n ++ " " ++ thing ++ if n = 1 then "" else "s"

/-- What the text of a field that no schema is for starts with. -/
def unexpectedHeading : String := "Additional properties are not allowed ('"

/-- What the text of a value where nothing is allowed starts with. -/
def forbiddenHeading : String := "False schema does not allow "

/-- The text of a violation. -/
def Violation.message : Violation → String
  | notOfType v [t] => v.json ++ " is not of type \"" ++ t.text ++ "\""
  | notOfType v types =>
      let names := (TypeName.all.filter (types.contains ·)).map fun t => "\"" ++ t.text ++ "\""
      v.json ++ " is not of types " ++ ", ".intercalate names
  | noSuchType v => v.json ++ " is not valid under any of the schemas listed in the 'anyOf' keyword"
  | missingField name => Json.quoted name ++ " is a required property"
  | unexpectedField name =>
      unexpectedHeading ++ name ++ "' was unexpected)"
  | forbidden v => forbiddenHeading ++ v.json
  | belowMinimum v limit => v.json ++ " is less than the minimum of " ++ limit.text
  | aboveMaximum v limit => v.json ++ " is greater than the maximum of " ++ limit.text
  | notAmong v options => v.json ++ " is not one of " ++ (Value.array options).json
  | notConstant expected => expected.json ++ " was expected"
  | tooShort v limit => v.json ++ " is shorter than " ++ counted limit "character"
  | tooLong v limit => v.json ++ " is longer than " ++ counted limit "character"
  | tooFewItems v limit => v.json ++ " has less than " ++ counted limit "item"
  | tooManyItems v limit => v.json ++ " has more than " ++ counted limit "item"
  | repeatedItems v => v.json ++ " has non-unique elements"

end Schema

/-- A schema. -/
inductive Schema where
  | anything
  | nothing
  | type (names : List Schema.TypeName)
  | required (names : List String)
  /-- Schemas for some fields, and one for all others; if that is missing, no other field may be
  there. -/
  | eachField (schemas : List (String × Schema)) (other : Option Schema)
  /-- A schema for every item. -/
  | eachItem (schema : Schema)
  | minimum (limit : Number)
  | maximum (limit : Number)
  | among (options : List Value)
  | constant (expected : Value)
  | minLength (limit : Nat)
  | maxLength (limit : Nat)
  | minItems (limit : Nat)
  | maxItems (limit : Nat)
  /-- What all of the schemas allow. -/
  | all (schemas : List Schema)

namespace Schema

/-- The violation that a check reports when it fails. -/
def require (holds : Bool) (violation : Violation) : Option Violation :=
  if holds then none else some violation

/-- Is the value the one that is expected? Two numbers need only be near to each other, but inside
of arrays and objects they have to be equal. -/
def isConstant (expected v : Value) : Bool :=
  match expected, v with
  | .number m, .number n => m.isNear n
  | expected, v => expected.equals v

mutual

/-- The first violation of a schema by a value. -/
def violation? : Schema → Value → Option Violation
  | anything, _ => none
  | nothing, v => some (.forbidden v)
  | type names, v => require (names.any (·.admits v)) (.notOfType v names)
  | required names, .object fields =>
      (names.find? fun name => !Fields.contains name fields).map .missingField
  | eachField schemas none, .object fields =>
      fields.findSome? fun field =>
        (fieldViolation? schemas field.1 field.2).getD (some (.unexpectedField field.1))
  | eachField schemas (some other), .object fields =>
      fields.findSome? fun field =>
        match fieldViolation? schemas field.1 field.2 with
        | some found => found
        | none => violation? other field.2
  | eachItem schema, .array items => items.findSome? (violation? schema)
  | minimum limit, .number n => require (!n.less limit) (.belowMinimum (.number n) limit)
  | maximum limit, .number n => require (!limit.less n) (.aboveMaximum (.number n) limit)
  | among options, v => require (options.any (·.equals v)) (.notAmong v options)
  | constant expected, v => require (isConstant expected v) (.notConstant expected)
  | minLength limit, .string s => require (limit ≤ s.length) (.tooShort (.string s) limit)
  | maxLength limit, .string s => require (s.length ≤ limit) (.tooLong (.string s) limit)
  | minItems limit, .array items =>
      require (limit ≤ items.length) (.tooFewItems (.array items) limit)
  | maxItems limit, .array items =>
      require (items.length ≤ limit) (.tooManyItems (.array items) limit)
  | all schemas, v => firstViolation? schemas v
  | _, _ => none

/-- The first violation of some schemas by a value. -/
def firstViolation? : List Schema → Value → Option Violation
  | [], _ => none
  | schema :: schemas, v =>
      match violation? schema v with
      | some violation => some violation
      | none => firstViolation? schemas v

/-- The violation of the schema of a field, if there is a schema for that field. -/
def fieldViolation? : List (String × Schema) → String → Value → Option (Option Violation)
  | [], _, _ => none
  | (known, schema) :: schemas, name, v =>
      if known = name then some (violation? schema v) else fieldViolation? schemas name v

end

end Schema

end Wavefront
