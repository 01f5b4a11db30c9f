/-
Surveys of plan documents: everything that can be said about a document before it is read as a plan,
which is the `Walk` of `validate_plan`.

A survey works on the raw document, so that every problem is reported with its place instead of only
the first one. It goes through the steps in order, each before those inside it, and notes two
things: findings, which are problems and ids as they come up, and declarations, which say what each
usable step waits for. A step is declared after those inside it.

A declaration has two lists of ids. One is what the step itself names. The other is implied by where
the step stands: it also waits for whatever the steps around it name; a group waits for its members;
and a body, which runs with its step, counts as waiting for that step.
-/
import Wavefront.Digraph.Cycles
import Wavefront.Error
import Wavefront.Plan.Basic

set_option autoImplicit false

namespace Wavefront

namespace Survey

/-- What comes up in a document. -/
inductive Finding where
  | issue (i : Issue)
  /-- A step or a body has this id, at this place. -/
  | id (id path : String)

/-- What a step waits for: `DeclaredStep`. -/
structure Declared where
  id : String
  path : String
  dependsOn : List String
  implied : List String

end Survey

open Survey

/-- What a survey has noted: the fields of `Walk`. -/
structure Survey where
  findings : List Finding := []
  declared : List Declared := []

namespace Survey

instance : Append Survey where
  append s t := ⟨s.findings ++ t.findings, s.declared ++ t.declared⟩

/-- The survey that has one problem. -/
def problem (path : String) (p : Problem) : Survey := { findings := [.issue ⟨path, p⟩] }

/-- The survey with a problem unless something holds. -/
def check (holds : Bool) (path : String) (p : Problem) : Survey :=
  if holds then {} else problem path p

/-- The place of a field; those of the document itself have no place in front. -/
def fieldPath (path field : String) : String := if path = "" then field else path ++ "." ++ field

/-- The place of an item of a field. -/
def itemPath (path field : String) (i : Nat) : String :=
  fieldPath path field ++ "[" ++ toString i ++ "]"

abbrev Fields := List (String × Value)

/-! ## Fields -/

/-- The text of a field that needs one, if it is more than blanks. -/
def usableText? (fields : Fields) (field : String) : Option String :=
  match Wavefront.Fields.get? field fields with
  | some (.string s) => if Text.allBlank s then none else some s
  | _ => none

/-- Surveys a field that needs a text of more than blanks: `require_str`. -/
def requireText (fields : Fields) (path field : String) : Survey :=
  match Wavefront.Fields.get? field fields with
  | some (.string s) => check (!Text.allBlank s) (fieldPath path field) .emptyText
  | some _ => problem (fieldPath path field) .notText
  | none => problem (fieldPath path field) .missing

/-- Surveys a field that holds a text if it is there: `optional_str`. -/
def allowText (fields : Fields) (path field : String) : Survey :=
  match Wavefront.Fields.get? field fields with
  | some v => check v.isString (fieldPath path field) .notText
  | none => {}

/-- Is the value an unsigned word between two bounds? -/
def isWithin (least : Nat) (most : Option Nat) (v : Value) : Bool :=
  match v.word? with
  | some w => least ≤ w.toNat && most.all (w.toNat ≤ ·)
  | none => false

/-- Surveys a field that holds a number between two bounds if it is there: `optional_uint`. -/
def allowNumber (fields : Fields) (path field : String) (least : Nat) (most : Option Nat) :
    Survey :=
  match Wavefront.Fields.get? field fields with
  | some v => check (isWithin least most v) (fieldPath path field) (.notWithin least most)
  | none => {}

/-- Is the value a text of more than blanks or an array? -/
def isReference : Value → Bool
  | .string s => !Text.allBlank s
  | .array _ => true
  | _ => false

/-- Surveys a field that needs a reference to a collection: `require_reference`. -/
def requireReference (fields : Fields) (path field : String) : Survey :=
  match Wavefront.Fields.get? field fields with
  | some v => check (isReference v) (fieldPath path field) .notReference
  | none => problem (fieldPath path field) .missing

/-- The ids that a step names as those it waits for. -/
def dependsOn (fields : Fields) : List String :=
  match Wavefront.Fields.get? "depends_on" fields with
  | some (.array items) => items.filterMap Value.string?
  | _ => []

/-- Surveys the ids that a step names: `depends_on`. -/
def surveyDependsOn (fields : Fields) (path : String) : Survey :=
  match Wavefront.Fields.get? "depends_on" fields with
  | none => {}
  | some (.array items) =>
      items.zipIdx.foldl
        (fun s (item, j) => s ++ check item.isString (itemPath path "depends_on" j) .notId) {}
  | some _ => problem (fieldPath path "depends_on") .notIds

/-- Surveys the fields that every step may have. -/
def surveyCommon (fields : Fields) (path : String) : Survey :=
  allowText fields path "output"
    ++ allowNumber fields path "timeout_ms" 1 none
    ++ allowNumber fields path "max_retries" 0 (some Settings.maxRetriesLimit)
    ++ match Wavefront.Fields.get? "input_schema" fields with
      | some v =>
          check (v.isObject || v.bool?.isSome) (fieldPath path "input_schema") .notSchema
      | none => {}

/-- Surveys the body of a loop or an inline reducer, `embedded_tool`: a tool step whose id may be
left out. `owner` is the id of the step that it belongs to, if that is usable. -/
def surveyBody (body : Option Value) (path : String) (owner : Option String) : Survey :=
  match body with
  | none => problem path .missing
  | some (.object fields) =>
      requireText fields path "tool" ++ allowText fields path "output"
        ++ match Wavefront.Fields.get? "id" fields with
          | some (.string id) =>
              if id = "" then {}
              else { findings := [.id id path], declared := [⟨id, path, [], owner.toList⟩] }
          | _ => {}
  | some _ => problem path .notToolStep

/-- Surveys the reducer of a reduce step. -/
def surveyReducer (reducer : Option Value) (path : String) (owner : Option String) : Survey :=
  match reducer with
  | some (.string s) => check (s ≠ "") path .notReducer
  | some (.object fields) => surveyBody (some (.object fields)) path owner
  | some _ => problem path .notReducer
  | none => problem path .missing

/-! ## Steps -/

/-- The type of a step: the one that it names, or that of a tool step if it names none but has a
tool. -/
def typeOf? (fields : Fields) : Option String :=
  match Wavefront.Fields.get? "type" fields with
  | some (.string s) => if s ∈ stepTypes then some s else none
  | some _ => none
  | none => if Wavefront.Fields.contains "tool" fields then some "tool" else none

/-- Surveys the type of a step. -/
def surveyType (fields : Fields) (path : String) : Survey :=
  if (typeOf? fields).isSome then {}
  else match Wavefront.Fields.get? "type" fields with
    | some v => problem (fieldPath path "type") (.unknownType v)
    | none => problem path .noType

/-- A survey of steps, and the ids that they declare. -/
structure OfSteps where
  survey : Survey := {}
  ids : List String := []

/-- What is found at a field that may hold steps: nothing, something else, or steps. -/
inductive Members where
  | absent
  | malformed
  | steps (isEmpty : Bool) (s : OfSteps)

/-- The ids of the members. -/
def Members.ids : Members → List String
  | steps _ s => s.ids
  | _ => []

/-- Surveys a field that may or has to hold steps: `steps_array`. -/
def Members.survey (m : Members) (path : String) (needed : Bool) : Survey :=
  match m with
  | absent => check (!needed) path .missing
  | malformed => problem path .notSteps
  | steps isEmpty s => check (!(needed && isEmpty)) path .noSteps ++ s.survey

/-- Surveys the fields that belong to the type of a step, given its members. -/
def surveyTyped (fields : Fields) (path : String) (type : Option String) (id : Option String)
    (steps yes otherwise no : Members) : Survey :=
  match type with
  | some "tool" => requireText fields path "tool"
  | some "loop" =>
      requireReference fields path "over" ++ requireText fields path "as"
        ++ surveyBody (Wavefront.Fields.get? "step" fields) (fieldPath path "step") id
        ++ allowNumber fields path "concurrency" 1 none
  | some "parallel" => steps.survey (fieldPath path "steps") true
  | some "reduce" =>
      requireReference fields path "input" ++ requireText fields path "as"
        ++ requireText fields path "output" ++ allowNumber fields path "concurrency" 1 none
        ++ surveyReducer (Wavefront.Fields.get? "reducer" fields) (fieldPath path "reducer") id
  | some "conditional" =>
      requireText fields path "condition" ++ yes.survey (fieldPath path "then") true
        ++ otherwise.survey (fieldPath path "otherwise") false
        ++ no.survey (fieldPath path "else") false
  | some "final" => allowText fields path "function"
  | _ => {}

/-- The ids of the members that belong to the type of a step. -/
def memberIds (type : Option String) (steps yes otherwise no : Members) : List String :=
  match type with
  | some "parallel" => steps.ids
  | some "conditional" => yes.ids ++ otherwise.ids ++ no.ids
  | _ => []

/-- Surveys a step, given its members. `inherited` is what the steps around it wait for. -/
def surveyFields (fields : Fields) (path : String) (inherited : List String)
    (steps yes otherwise no : Members) : OfSteps :=
  let id := usableText? fields "id"
  let type := typeOf? fields
  let head : Survey :=
    requireText fields path "id" ++ { findings := id.toList.map (.id · path) }
      -- the members of a type come up before what all steps have in common
      ++ surveyType fields path ++ surveyDependsOn fields path
      ++ surveyTyped fields path type id steps yes otherwise no ++ surveyCommon fields path
  let declared := id.toList.map fun id =>
    ⟨id, path, dependsOn fields, inherited ++ memberIds type steps yes otherwise no⟩
  { survey := head ++ { declared }, ids := id.toList }

mutual

/-- Surveys a step: `step` of `Walk`. -/
def surveyStep (path : String) (inherited : List String) : Value → OfSteps
  | .object fields =>
      -- what is inside waits for everything that this step names
      let scope := inherited ++ dependsOn fields
      surveyFields fields path inherited
        (membersAt "steps" path scope fields) (membersAt "then" path scope fields)
        (membersAt "otherwise" path scope fields) (membersAt "else" path scope fields)
  | _ => { survey := problem path .notStep }

/-- Surveys the steps at a field, looking for it as `Fields.get?` does. -/
def membersAt (field path : String) (scope : List String) : List (String × Value) → Members
  | [] => .absent
  | (k, v) :: rest =>
      if k < field then membersAt field path scope rest
      else if k = field then membersOf field path scope v else .absent

/-- Surveys what should be an array of steps. -/
def membersOf (field path : String) (scope : List String) : Value → Members
  | .array items => .steps items.isEmpty (surveySteps field path scope 0 items)
  | _ => .malformed

/-- Surveys the items of an array of steps from the `i`-th on. -/
def surveySteps (field path : String) (scope : List String) (i : Nat) : List Value → OfSteps
  | [] => {}
  | item :: items =>
      let first := surveyStep (itemPath path field i) scope item
      let rest := surveySteps field path scope (i + 1) items
      ⟨first.survey ++ rest.survey, first.ids ++ rest.ids⟩

end

end Survey

end Wavefront
