/-
Errors: why a document, a graph or a run was refused or failed (`PlanError`, `ValidationIssue`).

An error is a cause with what its text needs. Its kind tells which part refused; some kinds have a
heading that the text of the cause follows. Four kinds are raised only before anything runs.
-/
import Wavefront.Condition.Parser
import Wavefront.Json.Printer
import Wavefront.Json.Reader
import Wavefront.Settings

set_option autoImplicit false

namespace Wavefront

/-! ## Issues of documents -/

/-- What is wrong at one place of a plan document, with what the text of `issue` shows of it. -/
inductive Problem where
  | missing
  | emptyText
  | notText
  | notWithin (least : Nat) (most : Option Nat)
  | notReference
  | noSteps
  | notSteps
  | notToolStep
  | notStep
  | duplicateId (id firstPath : String)
  | unknownType (given : Value)
  | noType
  | notReducer
  | notSchema
  | notId
  | notIds
  | unknownDependency (id : String)
  | circularDependency (ids : List String)
  | notPlan
  | badVersion
  | badMode
  | emptyPlan

/-- A problem and the place where it was found: `ValidationIssue`. -/
structure Issue where
  path : String
  problem : Problem

/-- The names of the step types: `STEP_TYPES`. -/
def stepTypes : List String := ["tool", "loop", "parallel", "reduce", "conditional", "final"]

/-- The names of the execution modes: `ExecutionMode` and its `ALLOWED`. -/
def modeNames : List String := ["sequential", "dag", "graph"]

/-- The text of a problem. -/
def Problem.message : Problem → String
  | missing => "required field missing"
  | emptyText => "must not be empty"
  | notText => "must be a string"
  | notWithin least (some most) =>
      "must be an integer between " ++ toString least ++ " and " ++ toString most
  | notWithin least none => "must be an integer >= " ++ toString least
  | notReference => "must be a context path or an array"
  | noSteps => "must contain at least one step"
  | notSteps => "must be an array of steps"
  | notToolStep => "must be a tool step object"
  | notStep => "step must be an object"
  | duplicateId id firstPath =>
      "duplicate step id '" ++ id ++ "' (first declared at " ++ firstPath ++ ")"
  | unknownType given =>
      "unknown step type " ++ given.json ++ " (expected one of " ++ ", ".intercalate stepTypes
        ++ ")"
  | noType => "step must have a 'tool' field or a 'type'"
  | notReducer => "must be a tool id or an inline tool step"
  | notSchema => "must be a JSON Schema object"
  | notId => "must be a step id string"
  | notIds => "must be an array of step ids"
  | unknownDependency id => "unknown dependency '" ++ id ++ "'"
  | circularDependency ids => "circular dependency: " ++ " -> ".intercalate ids
  | notPlan => "plan must be an object"
  | badVersion => "must be a non-empty string or a number"
  | badMode => "must be one of " ++ ", ".intercalate modeNames
  | emptyPlan => "plan must contain at least one step"

/-- A message with the place it is about in front, if there is one. -/
def located (place message : String) : String :=
  if place = "" then message else place ++ ": " ++ message

/-- The text of several places with their messages: `join_issues`. -/
def listed (issues : List (String × String)) : String :=
  "; ".intercalate (issues.map fun issue => located issue.1 issue.2)

/-! ## Errors -/

/-- The kinds of errors: the variants of `PlanError`. -/
inductive ErrorKind where
  | validation
  | unknownTool
  | compile
  | deadlock
  | nodeFailed
  | timeout
  | schemaRejected
  | toolFailed
  | condition
  | invalidPath
  | configuration
  | internal
  | json
  | yaml
  | io
deriving DecidableEq

/-- What the text of an error of this kind starts with. The other kinds make up their whole text. -/
def ErrorKind.heading : ErrorKind → String
  | validation => "Plan validation failed: "
  | compile => "Compilation error: "
  | schemaRejected => "Input schema rejected: "
  | condition => "Condition error: "
  | invalidPath => "Invalid path: "
  | configuration => "Configuration error: "
  | internal => "Internal error: "
  | json => "JSON error: "
  | yaml => "YAML error: "
  | io => "IO error: "
  | unknownTool | deadlock | nodeFailed | timeout | toolFailed => ""

/-- Is an error of this kind raised only before any node has run? So `is_pre_execution` decides, by
the kind alone. -/
def ErrorKind.isPreExecution : ErrorKind → Bool
  | validation | unknownTool | compile | configuration => true
  | _ => false

/-- Why steps or nodes make no graph, or a reference of a node no array: what `PlanError` says of
compiling, as data. -/
inductive GraphFault where
  | duplicateNode (id : String)
  | cycleThrough (id : String)
  | notArray (step field : String) (found : Value)
  | unresolved (step field : String) (reference : Value)

/-- Why a schema stopped a call or an attempt, with the text of the validator: `check_tool_input`
and `check_context_schema`. -/
inductive Rejection where
  | badToolSchema (tool text : String)
  | badInput (tool text : String)
  | badNodeSchema (node text : String)
  | badContext (node text : String)

/-- An error: `PlanError`, each variant with what its text is made of. -/
inductive Error where
  | validation (issues : List Issue)
  | unknownTool (tool step : String)
  | graph (fault : GraphFault)
  | deadlock (pending : List String)
  | nodeFailed (node message : String)
  | timeout (node : String) (limitMs : Nat)
  | rejected (rejection : Rejection)
  /-- A tool failed; the causes are listed from the innermost one. -/
  | toolFailed (tool : String) (causes : List String)
  | condition (fault : Condition.Fault)
  | path (fault : WriteFault)
  | settings (fault : SettingsFault)
  | json (fault : Json.Fault)
  | yaml
  | io

/-- A value by its type, in words: `json_kind`. -/
def Value.kindInWords : Value → String
  | null => "null"
  | bool _ => "a boolean"
  | number _ => "a number"
  | string _ => "a string"
  | array _ => "an array"
  | object _ => "an object"

/-- The text of a write that stopped, as an invalid path is reported. -/
def WriteFault.message : WriteFault → String
  | unparsable path => path
  | emptyPath => "empty path"
  | indexTooLarge i =>
      "array index " ++ toString i ++ " exceeds the write limit of "
        ++ toString Value.maxWriteIndex

/-- The text of what kept a graph from being made. -/
def GraphFault.message : GraphFault → String
  | duplicateNode id => "duplicate node id '" ++ id ++ "'"
  | cycleThrough id => "dependency cycle through node '" ++ id ++ "'"
  | notArray step field found =>
      "step '" ++ step ++ "': '" ++ field ++ "' resolved to " ++ found.kindInWords
        ++ " instead of an array"
  | unresolved step field reference =>
      "step '" ++ step ++ "': '" ++ field ++ "' reference " ++ reference.json
        ++ " did not resolve"

/-- What the text of parameters that were refused starts with. -/
def badInputHeading : String := "invalid input for tool '"

/-- What the text of a context that was refused starts with. -/
def badContextHeading : String := "context rejected for node '"

/-- The text of what a schema stopped, with the name of the tool or the node in it. -/
def Rejection.message : Rejection → String
  | badToolSchema tool text => "tool '" ++ tool ++ "' has an invalid input schema: " ++ text
  | badInput tool text => badInputHeading ++ tool ++ "': " ++ text
  | badNodeSchema node text => "node '" ++ node ++ "' has an invalid input schema: " ++ text
  | badContext node text => badContextHeading ++ node ++ "': " ++ text

/-- The text of JSON that could not be read; where it stopped is not said. -/
def faultMessage : Json.Fault → String
  | .syntaxError => "the text is not JSON"
  | .wrongShape => "the document has another shape"

/-- What the text of a deadlock starts with. -/
def deadlockHeading : String := "Deadlock detected: no ready nodes, unexecuted nodes remain: ["

/-- What the text of a tool that is not known starts with. -/
def unknownToolHeading : String := "Unknown tool '"

namespace Error

/-- The kind of an error. -/
def kind : Error → ErrorKind
  | validation _ => .validation
  | unknownTool _ _ => .unknownTool
  | graph _ => .compile
  | deadlock _ => .deadlock
  | nodeFailed _ _ => .nodeFailed
  | timeout _ _ => .timeout
  | rejected _ => .schemaRejected
  | toolFailed _ _ => .toolFailed
  | condition _ => .condition
  | path _ => .invalidPath
  | settings _ => .configuration
  | json _ => .json
  | yaml => .yaml
  | io => .io

/-- The text of an error behind the heading of its kind. -/
def detail : Error → String
  | validation issues => listed (issues.map fun issue => (issue.path, issue.problem.message))
  | unknownTool tool step => unknownToolHeading ++ tool ++ "' referenced by step '" ++ step ++ "'"
  | graph fault => fault.message
  | deadlock pending => deadlockHeading ++ ", ".intercalate pending ++ "]"
  | nodeFailed node message => "Node '" ++ node ++ "' failed: " ++ message
  | timeout node limitMs => "Node '" ++ node ++ "' timed out after " ++ toString limitMs ++ "ms"
  | rejected rejection => rejection.message
  | toolFailed tool causes =>
      "Tool '" ++ tool ++ "' failed: " ++ ": ".intercalate causes.reverse
  | condition fault => fault.message
  | path fault => fault.message
  | settings fault => fault.message
  | json fault => faultMessage fault
  | yaml => "the text is not a YAML document of the wanted shape"
  | io => "the file cannot be read"

/-- The text of an error, behind the heading of its kind. -/
def message (e : Error) : String := e.kind.heading ++ e.detail

/-- Was nothing run when the error was raised? This is `is_pre_execution`. -/
def isPreExecution (e : Error) : Bool := e.kind.isPreExecution

end Error

end Wavefront
