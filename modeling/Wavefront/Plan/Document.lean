/-
Plans as documents, both ways: what is derived for `Step`, with `StepRepr` and `TypedStep` in
between.

Reading is by shape alone; whether the plan makes sense is not asked here. A step with a known type
is read as that type. If that fails, or if it has no known type, it is read as a tool step, so a
typed step that is malformed but names a tool becomes a call of that tool. Fields that a type does
not have mean nothing. Where an option may be left out it may also be null; a list or an id may be
left out but not be null. Two names of one field must not both be used.

The reader recurses into steps inside steps. It therefore looks for the fields that hold steps by
itself (`Step.stepsAt`), stopping where `Fields.get?` would stop.

Writing leaves out what is not set and what is empty, but always gives the mode of a plan and the id
and the input of a tool step. Tool steps are written without a type.
-/
import Wavefront.Plan.Basic

set_option autoImplicit false

namespace Wavefront

/-! ## Reading -/

namespace Document

/-- The fields of an object. -/
abbrev Fields := List (String × Value)

/-- A string. -/
def text (v : Value) : Option String := v.string?

/-- A list of strings. -/
def texts : Value → Option (List String)
  | .array items => items.mapM text
  | _ => none

/-- An unsigned word. -/
def word (v : Value) : Option UInt64 := v.word?

/-- An unsigned word of 32 bits. -/
def halfWord (v : Value) : Option UInt32 := v.halfWord?

/-- One of several names, alone or as the only field of an object that has no value. -/
def nameOf : Value → Option String
  | .string s => some s
  | .object [(s, .null)] => some s
  | _ => none

/-- A field that has to be there. -/
def required {α : Type} (read : Value → Option α) (fields : Fields) (key : String) : Option α :=
  (Wavefront.Fields.get? key fields).bind read

/-- A field that may be left out, or null. -/
def optional {α : Type} (read : Value → Option α) (fields : Fields) (key : String) :
    Option (Option α) :=
  match Wavefront.Fields.get? key fields with
  | none | some .null => some none
  | some v => (read v).map some

/-- A field that may be left out. -/
def withDefault {α : Type} (default : α) (read : Value → Option α) (fields : Fields)
    (key : String) : Option α :=
  match Wavefront.Fields.get? key fields with
  | none => some default
  | some v => read v

/-- A field with a second name, which may be left out. -/
def aliased {α : Type} (default : α) (read : Value → Option α) (fields : Fields)
    (key otherKey : String) : Option α :=
  match Wavefront.Fields.get? key fields, Wavefront.Fields.get? otherKey fields with
  | some _, some _ => none
  | some v, none | none, some v => read v
  | none, none => some default

end Document

open Document in
/-- Reads the policy among the fields of a step. -/
def Policy.ofFields? (fields : Document.Fields) : Option Policy := do
  return {
    timeoutMs := ← optional word fields "timeout_ms"
    maxRetries := ← optional halfWord fields "max_retries"
    inputSchema := ← optional some fields "input_schema" }

/-- The mode of a plan, by its name. -/
def Mode.ofValue? (v : Value) : Option Mode := (Document.nameOf v).bind Mode.ofName?

open Document in
/-- Reads a tool step. -/
def ToolStep.ofFields? (fields : Document.Fields) : Option ToolStep := do
  return {
    id := ← withDefault "" text fields "id"
    tool := ← required text fields "tool"
    input := ← withDefault .null some fields "input"
    output := ← optional text fields "output"
    dependsOn := ← withDefault [] texts fields "depends_on"
    policy := ← Policy.ofFields? fields }

/-- Reads a tool step from a value, which has to be an object. -/
def ToolStep.ofValue? (v : Value) : Option ToolStep := v.object?.bind ToolStep.ofFields?

open Document in
/-- Reads a loop. -/
def LoopStep.ofFields? (fields : Document.Fields) : Option LoopStep := do
  return {
    id := ← required text fields "id"
    items := ← required some fields "over"
    binder := ← required text fields "as"
    body := ← required ToolStep.ofValue? fields "step"
    output := ← optional text fields "output"
    concurrency := ← optional word fields "concurrency"
    dependsOn := ← withDefault [] texts fields "depends_on"
    policy := ← Policy.ofFields? fields }

/-- Reads a reducer: the name of a tool or a tool step. -/
def Reducer.ofValue? : Value → Option Reducer
  | .string tool => some (.named tool)
  | v => (ToolStep.ofValue? v).map .inline

open Document in
/-- Reads a reduce step. -/
def ReduceStep.ofFields? (fields : Document.Fields) : Option ReduceStep := do
  return {
    id := ← required text fields "id"
    input := ← required some fields "input"
    binder := ← required text fields "as"
    reducer := ← required Reducer.ofValue? fields "reducer"
    output := ← required text fields "output"
    concurrency := ← optional word fields "concurrency"
    dependsOn := ← withDefault [] texts fields "depends_on"
    policy := ← Policy.ofFields? fields }

open Document in
/-- Reads a final step. -/
def FinalStep.ofFields? (fields : Document.Fields) : Option FinalStep := do
  return {
    id := ← required text fields "id"
    function := ← optional text fields "function"
    input := ← withDefault .null some fields "input"
    output := ← optional text fields "output"
    dependsOn := ← withDefault [] texts fields "depends_on"
    policy := ← Policy.ofFields? fields }

open Document in
/-- Reads what groups have in common. -/
def Shell.ofFields? (fields : Document.Fields) : Option Shell := do
  return {
    id := ← required text fields "id"
    output := ← optional text fields "output"
    dependsOn := ← withDefault [] texts fields "depends_on"
    policy := ← Policy.ofFields? fields }

namespace Step

/-- The types that a step can name: the tags of `TypedStep`. -/
inductive Tag where
  | tool
  | loop
  | parallel
  | reduce
  | conditional
  | final
deriving DecidableEq

namespace Tag

/-- The tags, in their order. -/
def all : List Tag := [tool, loop, parallel, reduce, conditional, final]

/-- The name of a type in a document. -/
def name : Tag → String
  | tool => "tool"
  | loop => "loop"
  | parallel => "parallel"
  | reduce => "reduce"
  | conditional => "conditional"
  | final => "final"

/-- The type of a name. -/
def ofName? (s : String) : Option Tag := all.find? fun t => t.name = s

/-- A tag is given by its name or by its position among the tags. -/
def ofValue? : Value → Option Tag
  | .string s => ofName? s
  | .number n => n.word?.bind fun w => all[w.toNat]?
  | _ => none

end Tag

/-- What is found at a key that should hold steps: nothing, something malformed, or steps. -/
abbrev Found := Option (Option (List Step))

/-- The steps of a field with a second name, which may be left out. -/
def Found.either (field other : Found) : Option (List Step) :=
  match field, other with
  | some _, some _ => none
  | some steps, none | none, some steps => steps
  | none, none => some []

/-- Reads a step of the type that it names, given what its fields hold in steps: a `TypedStep`. -/
def typed? (fields : List (String × Value)) (steps yes : Found) (no : Option (List Step)) :
    Option Step := do
  match ← Document.required Tag.ofValue? fields "type" with
  | .tool => return .tool (← ToolStep.ofFields? fields)
  | .loop => return .loop (← LoopStep.ofFields? fields)
  | .reduce => return .reduce (← ReduceStep.ofFields? fields)
  | .final => return .final (← FinalStep.ofFields? fields)
  | .parallel => return .parallel (← Shell.ofFields? fields) (← ← steps)
  | .conditional =>
      return .conditional (← Shell.ofFields? fields)
        (← Document.required Document.text fields "condition") (← ← yes) (← no)

mutual

/-- Reads a step. -/
def ofValue? : Value → Option Step
  | .object fields =>
      match typed? fields (stepsAt "steps" fields) (stepsAt "then" fields)
          ((stepsAt "otherwise" fields).either (stepsAt "else" fields)) with
      | some step => some step
      -- no known type, or not the fields of that type: what is left is a call of a tool
      | none => (ToolStep.ofFields? fields).map .tool
  | _ => none

/-- Reads the steps at a key. -/
def stepsAt (key : String) : List (String × Value) → Found
  | [] => none
  | (k, v) :: rest =>
      if k < key then stepsAt key rest else if k = key then some (ofItems? v) else none

/-- Reads an array of steps. -/
def ofItems? : Value → Option (List Step)
  | .array items => ofList? items
  | _ => none

/-- Reads the members of an array of steps. -/
def ofList? : List Value → Option (List Step)
  | [] => some []
  | item :: items => do return (← ofValue? item) :: (← ofList? items)

end

end Step

/-- Reads a version, a string, or a number, of which the text counts: `string_or_number`. -/
def Plan.version? : Value → Option String
  | .string s => some s
  | .number n => some n.text
  | _ => none

open Document in
/-- Reads a plan: an object, or an array of its version, its mode and its steps. -/
def Plan.ofValue? : Value → Option Plan
  | .object fields => do
      return {
        version := ← required version? fields "version"
        mode := ← aliased .dag Mode.ofValue? fields "execution_mode" "executionMode"
        steps := ← required Step.ofItems? fields "steps" }
  | .array [version, mode, steps] => do
      return ⟨← version? version, ← Mode.ofValue? mode, ← Step.ofItems? steps⟩
  | _ => none

/-! ## Writing -/

namespace Document

/-- A field that is written when it is set. -/
def ifSet {α : Type} (key : String) (write : α → Value) : Option α → Fields
  | none => []
  | some a => [(key, write a)]

/-- A list that is written when it is not empty. -/
def ifAny {α : Type} (key : String) (write : List α → Value) : List α → Fields
  | [] => []
  | items => [(key, write items)]

/-- A list of strings. -/
def ofTexts (ss : List String) : Value := .array (ss.map .string)

end Document

open Document

/-- The fields of a policy, as far as they are set. -/
def Policy.toFields (p : Policy) : Document.Fields :=
  ifSet "timeout_ms" .ofWord p.timeoutMs
    ++ ifSet "max_retries" (fun n => .ofWord n.toUInt64) p.maxRetries
    ++ ifSet "input_schema" id p.inputSchema

/-- The fields that any step has: the dependencies and the policy. -/
def commonFields (dependsOn : List String) (policy : Policy) : Document.Fields :=
  ifAny "depends_on" ofTexts dependsOn ++ policy.toFields

/-- Writes a tool step, without a type. -/
def ToolStep.toValue (s : ToolStep) : Value :=
  .ofFields ([("id", .string s.id), ("tool", .string s.tool), ("input", s.input)]
    ++ ifSet "output" .string s.output ++ commonFields s.dependsOn s.policy)

/-- Writes a loop. -/
def LoopStep.toValue (s : LoopStep) : Value :=
  .ofFields ([("type", .string Step.Tag.loop.name), ("id", .string s.id), ("over", s.items),
      ("as", .string s.binder), ("step", s.body.toValue)]
    ++ ifSet "output" .string s.output ++ ifSet "concurrency" .ofWord s.concurrency
    ++ commonFields s.dependsOn s.policy)

/-- Writes a reducer as what it was read from: a name or a tool step. -/
def Reducer.toValue : Reducer → Value
  | named tool => .string tool
  | inline step => step.toValue

/-- Writes a reduce step. -/
def ReduceStep.toValue (s : ReduceStep) : Value :=
  .ofFields ([("type", .string Step.Tag.reduce.name), ("id", .string s.id), ("input", s.input),
      ("as", .string s.binder), ("reducer", s.reducer.toValue), ("output", .string s.output)]
    ++ ifSet "concurrency" .ofWord s.concurrency ++ commonFields s.dependsOn s.policy)

/-- Writes a final step. -/
def FinalStep.toValue (s : FinalStep) : Value :=
  .ofFields ([("type", .string Step.Tag.final.name), ("id", .string s.id), ("input", s.input)]
    ++ ifSet "function" .string s.function ++ ifSet "output" .string s.output
    ++ commonFields s.dependsOn s.policy)

/-- The fields of a group: its type, then what groups have in common. -/
def Shell.toFields (tag : Step.Tag) (s : Shell) : Document.Fields :=
  [("type", .string tag.name), ("id", .string s.id)] ++ ifSet "output" .string s.output
    ++ commonFields s.dependsOn s.policy

namespace Step

mutual

/-- Writes a step. -/
def toValue : Step → Value
  | tool s => s.toValue
  | loop s => s.toValue
  | reduce s => s.toValue
  | final s => s.toValue
  | parallel shell steps =>
      .ofFields (("steps", .array (toValues steps)) :: shell.toFields .parallel)
  | conditional shell condition yes no =>
      .ofFields ([("condition", .string condition), ("then", .array (toValues yes))]
        ++ ifAny "otherwise" .array (toValues no) ++ shell.toFields .conditional)

/-- Writes steps. -/
def toValues : List Step → List Value
  | [] => []
  | step :: steps => toValue step :: toValues steps

end

end Step

/-- Writes a plan: `to_json`. -/
def Plan.toValue (p : Plan) : Value :=
  .ofFields [("version", .string p.version), ("execution_mode", .string p.mode.name),
    ("steps", .array (Step.toValues p.steps))]

end Wavefront
