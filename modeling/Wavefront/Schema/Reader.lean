/-
Reading stock schemas from documents, and the validator that they make: `Schema.keywords`, one of
those that a run can be given.

A schema is a Boolean or an object of keywords. A keyword of this library's list has to have a value
of the right shape, which is reported as a violation of the schema of schemas; any other keyword
means nothing. The schemas inside a schema are looked at before its other keywords, so their faults
are reported first. The rules of a schema stand in the order of their keywords all the same.
-/
import Wavefront.Schema.Basic
import Wavefront.Schema.Validator

set_option autoImplicit false

namespace Wavefront

namespace Schema

/-- The value as a limit for lengths: a number without a fraction that is not negative. What does
not fit a word is cut off at the greatest one. -/
def readLimit (v : Value) : Except Violation Nat :=
  match v with
  | .number n =>
      let (a, b) := n.toRatio
      if a < 0 then throw (.belowMinimum v (.ofWord 0))
      else if !n.isIntegral then throw (.notOfType v [.integer])
      else return min (a / (b : Int)).toNat (UInt64.size - 1)
  | _ => throw (.notOfType v [.integer])

/-- The value as a bound for numbers. -/
def readBound (v : Value) : Except Violation Number :=
  match v with
  | .number n => return n
  | _ => throw (.notOfType v [.number])

/-- The value as an array. -/
def readArray (v : Value) : Except Violation (List Value) :=
  match v with
  | .array items => return items
  | _ => throw (.notOfType v [.array])

/-- The value as a field name. -/
def readName (v : Value) : Except Violation String :=
  match v with
  | .string s => return s
  | _ => throw (.notOfType v [.string])

/-- The value as an array of different field names. -/
def readNames (v : Value) : Except Violation (List String) := do
  let names ← (← readArray v).mapM readName
  if names.Nodup then return names else throw (.repeatedItems v)

/-- The value as one type or as a list of different types. -/
def readTypes (v : Value) : Except Violation (List TypeName) :=
  let names := match v with
    | .string s => (TypeName.ofText? s).map ([·])
    | .array (item :: items) =>
        (item :: items).mapM fun name : Value => name.string?.bind TypeName.ofText?
    | _ => none
  match names with
  | some names => if names.Nodup then return names else throw (.noSuchType v)
  | none => throw (.noSuchType v)

/-- The rule of a keyword whose value holds no schemas. -/
def readRule (keyword : String) (v : Value) : Except Violation Schema :=
  match keyword with
  | "type" => return .type (← readTypes v)
  | "required" => return .required (← readNames v)
  | "minimum" => return .minimum (← readBound v)
  | "maximum" => return .maximum (← readBound v)
  | "enum" => return .among (← readArray v)
  | "const" => return .constant v
  | "minLength" => return .minLength (← readLimit v)
  | "maxLength" => return .maxLength (← readLimit v)
  | "minItems" => return .minItems (← readLimit v)
  | "maxItems" => return .maxItems (← readLimit v)
  | _ => return .anything

/-- The schemas inside a schema. -/
structure Inner where
  /-- The schemas of fields. -/
  fields : Option (List (String × Schema)) := none
  /-- The schema of all other fields, if not everything is allowed there. -/
  other : Option Schema := none
  item : Option Schema := none

namespace Inner

/-- The rule for all fields, which stands at the keyword for the other ones if there is one. -/
def otherRule (inner : Inner) : Schema :=
  match inner.other, inner.fields with
  | none, _ => .anything
  -- where fields have schemas, a field that has none is unexpected, not forbidden
  | some .nothing, some schemas => .eachField schemas none
  | some other, schemas => .eachField (schemas.getD []) (some other)

/-- The rule for the fields that have schemas. -/
def fieldRule (inner : Inner) : Schema :=
  match inner.other, inner.fields with
  | none, some schemas => .eachField schemas (some .anything)
  | _, _ => .anything

/-- The rule for items. -/
def itemRule (inner : Inner) : Schema := (inner.item.map Schema.eachItem).getD .anything

/-- The rules of all keywords. -/
def rules (inner : Inner) (keywords : List (String × Value)) : Except Violation (List Schema) :=
  keywords.mapM fun (keyword, v) =>
    if keyword = "additionalProperties" then return inner.otherRule
    else if keyword = "properties" then return inner.fieldRule
    else if keyword = "items" then return inner.itemRule
    else readRule keyword v

end Inner

mutual

/-- Reads a schema. -/
def ofValue : Value → Except Violation Schema
  | .bool true => return .anything
  | .bool false => return .nothing
  | .object keywords => do return .all (← (← readInner keywords).rules keywords)
  | v => throw (.notOfType v [.boolean, .object])

/-- Reads the schemas inside a schema. -/
def readInner : List (String × Value) → Except Violation Inner
  | [] => return {}
  | (keyword, v) :: rest =>
      if keyword = "additionalProperties" then
        match v with
        | .bool true => readInner rest
        | _ => do
            let other ← ofValue v
            return { ← readInner rest with other := some other }
      else if keyword = "items" then do
        let item ← ofValue v
        return { ← readInner rest with item := some item }
      else if keyword = "properties" then
        match v with
        | .object fields => do
            let schemas ← readFields fields
            return { ← readInner rest with fields := some schemas }
        | _ => throw (.notOfType v [.object])
      else readInner rest

/-- Reads the schemas of some fields. -/
def readFields : List (String × Value) → Except Violation (List (String × Schema))
  | [] => return []
  | (name, v) :: rest => do
      let schema ← ofValue v
      return (name, schema) :: (← readFields rest)

end

/-- The validator of the schemas that are read here. -/
instance keywords : Validator where
  validatorFor document :=
    match ofValue document with
    | .error violation => .error violation.message
    | .ok schema => .ok fun value =>
        match schema.violation? value with
        | some violation => .error violation.message
        | none => .ok ()

end Schema

end Wavefront
