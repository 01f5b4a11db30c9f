/-
Reading plans: from a document (`from_value`), from JSON text and from YAML text.

A document is checked before it is read as a plan, so a plan has no issues. It can still have a
shape that is no plan, for a check allows two names of one field where reading does not.
-/
import Wavefront.Plan.Check
import Wavefront.Plan.Document
import Wavefront.Yaml.Scalar

set_option autoImplicit false

namespace Wavefront

/-- How a text is written. -/
inductive Format where
  | json
  | yaml
deriving DecidableEq

/-- The ending of a file name behind its last point, if there is something before that point. -/
def extension? (name : String) : Option String :=
  let reversed := name.toList.reverse
  match reversed.dropWhile (· ≠ '.') with
  | '.' :: _ :: _ => some (String.ofList (reversed.takeWhile (· ≠ '.')).reverse)
  | _ => none

/-- The format of a file: JSON if its name ends so, and YAML otherwise. -/
def Format.ofFileName (name : String) : Format :=
  if extension? name = some "json" then json else yaml

namespace Plan

/-- Reads a document as a plan without checking it. -/
def convert (document : Value) : Except Error Plan :=
  match ofValue? document with
  | some plan => .ok plan
  | none => .error (.json .wrongShape)

/-- Checks a document and reads it as a plan: `from_value`. -/
def ofDocument (document : Value) : Except Error Plan := do
  check document
  convert document

/-- The document of a text. -/
def documentOf (format : Format) (text : String) : Except Error Value :=
  match format with
  | .json => match Json.parse text with
    | .ok v => .ok v
    | .error fault => .error (.json fault)
  | .yaml => match (Yaml.parse text).bind Yaml.Node.toValue? with
    | some v => .ok v
    | none => .error .yaml

/-- Reads a plan from a text: `from_json_str` and `from_yaml_str`. -/
def ofText (format : Format) (text : String) : Except Error Plan := do
  ofDocument (← documentOf format text)

/-- Reads a plan from a file, given its name and, if there is such a file, its text:
`load_plan_file`. -/
def ofFile (name : String) (text : Option String) : Except Error Plan :=
  match text with
  | some text => ofText (.ofFileName name) text
  | none => .error .io

/-- Is a plan read again from its own document? -/
def roundTrips (p : Plan) : Bool :=
  match ofDocument p.toValue with
  | .ok q => q.toValue.same p.toValue
  | .error _ => false

end Plan

end Wavefront
