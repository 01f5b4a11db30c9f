/-
Plans: what a host wants done, as a list of steps (`Plan`, `Step`).

A step of the simplest kind calls one tool. A loop calls a tool for every item of an array, a reduce
step does the same with another idea of its parameters, a parallel step groups steps, a conditional
step chooses between two groups, and a final step calls the tool that answers. Groups nest to any
depth; the bodies of loops and reduce steps do not, they are tool steps whose id may be empty.

Every step has an id, may wait for other steps by their ids, and may set a policy of its own. Its
result is written at its output key.
-/
import Wavefront.Value.Basic

set_option autoImplicit false

namespace Wavefront

/-- How a plan says it wants to be executed, `ExecutionMode`. Nothing depends on it: the
dependencies of the steps decide. -/
inductive Mode where
  | sequential
  | dag
  | graph
deriving DecidableEq

namespace Mode

/-- The name of a mode in a document. -/
def name : Mode → String
  | sequential => "sequential"
  | dag => "dag"
  | graph => "graph"

/-- All modes. -/
def all : List Mode := [sequential, dag, graph]

/-- The mode of a name. -/
def ofName? (s : String) : Option Mode := all.find? fun m => m.name = s

end Mode

/-- What a step may set instead of the settings of the run: `StepPolicy`. -/
structure Policy where
  timeoutMs : Option UInt64 := none
  maxRetries : Option UInt32 := none
  /-- What the context has to look like before each attempt. -/
  inputSchema : Option Value := none

/-- A step that calls a tool: `ToolStep`. -/
structure ToolStep where
  id : String
  tool : String
  input : Value := .null
  output : Option String := none
  dependsOn : List String := []
  policy : Policy := {}

/-- A step that calls a tool for every item of an array: `LoopStep`. -/
structure LoopStep where
  id : String
  /-- The items: a path, a whole template or an array. -/
  items : Value
  /-- The name that an item has while the body runs. -/
  binder : String
  body : ToolStep
  output : Option String := none
  concurrency : Option UInt64 := none
  dependsOn : List String := []
  policy : Policy := {}

/-- What a reduce step does with an item: `Reducer`, a tool that is only named or a tool step. -/
inductive Reducer where
  /-- Calls the tool of this name with the item as its one parameter. -/
  | named (tool : String)
  /-- Calls a tool with the item bound to a name. -/
  | inline (step : ToolStep)

/-- A step that calls a reducer for every item of an array: `ReduceStep`. -/
structure ReduceStep where
  id : String
  input : Value
  binder : String
  reducer : Reducer
  output : String
  concurrency : Option UInt64 := none
  dependsOn : List String := []
  policy : Policy := {}

/-- A step that gives the answer of the plan: `FinalStep`. -/
structure FinalStep where
  id : String
  function : Option String := none
  input : Value := .null
  output : Option String := none
  dependsOn : List String := []
  policy : Policy := {}

/-- What parallel and conditional steps have in common: the fields of `ParallelStep` and
`ConditionalStep` that are the same. -/
structure Shell where
  id : String
  output : Option String := none
  dependsOn : List String := []
  policy : Policy := {}

/-- A step of a plan: `Step`. -/
inductive Step where
  | tool (step : ToolStep)
  | loop (step : LoopStep)
  | parallel (shell : Shell) (steps : List Step)
  | reduce (step : ReduceStep)
  | conditional (shell : Shell) (condition : String) (yes no : List Step)
  | final (step : FinalStep)

/-- A plan: `Plan`. -/
structure Plan where
  version : String
  mode : Mode := .dag
  steps : List Step

/-! ## What steps have in common -/

/-- The tool that a final step calls when it names none: `DEFAULT_FINAL_FUNCTION`. -/
def defaultFunction : String := "final_answer"

/-- What is put behind the id of a step to name the node that gathers its results:
`aggregator_id`. -/
def gatheredId (id : String) : String := id ++ "_agg"

/-- A tool step that does not say where its result goes puts it at its own id. -/
def ToolStep.outputKey (s : ToolStep) : String := s.output.getD s.id

/-- A loop that does not say where its result goes puts it where its gathering node stands. -/
def LoopStep.outputKey (s : LoopStep) : String := s.output.getD (gatheredId s.id)

/-- The tool that a final step calls: `function`. -/
def FinalStep.tool (s : FinalStep) : String := s.function.getD defaultFunction

/-- The tool of a reducer: `tool_id`. -/
def Reducer.tool : Reducer → String
  | named tool => tool
  | inline step => step.tool

namespace Step

/-- The id of a step. -/
def id : Step → String
  | tool s => s.id
  | loop s => s.id
  | parallel shell _ => shell.id
  | reduce s => s.id
  | conditional shell _ _ _ => shell.id
  | final s => s.id

/-- The ids that a step waits for by its own word. -/
def dependsOn : Step → List String
  | tool s => s.dependsOn
  | loop s => s.dependsOn
  | parallel shell _ => shell.dependsOn
  | reduce s => s.dependsOn
  | conditional shell _ _ _ => shell.dependsOn
  | final s => s.dependsOn

/-- The policy of a step. -/
def policy : Step → Policy
  | tool s => s.policy
  | loop s => s.policy
  | parallel shell _ => shell.policy
  | reduce s => s.policy
  | conditional shell _ _ _ => shell.policy
  | final s => s.policy

/-- The key that the result of a step is written at: `output_key`. -/
def outputKey : Step → String
  | tool s => s.outputKey
  | loop s => s.outputKey
  | parallel shell _ => shell.output.getD shell.id
  | reduce s => s.output
  | conditional shell _ _ _ => shell.output.getD shell.id
  | final s => s.output.getD s.id

/-- The name of the kind of a step: `kind`. -/
def kind : Step → String
  | tool _ => "tool"
  | loop _ => "loop"
  | parallel _ _ => "parallel"
  | reduce _ => "reduce"
  | conditional _ _ _ _ => "conditional"
  | final _ => "final"

/-- The steps directly inside a step, `children`: those of a group, those of both branches. -/
def children : Step → List Step
  | parallel _ steps => steps
  | conditional _ _ yes no => yes ++ no
  | _ => []

mutual

/-- A step and all steps inside it, each before those inside it. -/
def nested : Step → List Step
  | parallel shell steps => parallel shell steps :: nestedList steps
  | conditional shell condition yes no =>
      conditional shell condition yes no :: (nestedList yes ++ nestedList no)
  | step => [step]

/-- All steps in a list and inside its members. -/
def nestedList : List Step → List Step
  | [] => []
  | step :: steps => nested step ++ nestedList steps

end

end Step

/-- All steps of a plan, at any depth: `all_steps`. -/
def Plan.allSteps (p : Plan) : List Step := Step.nestedList p.steps

end Wavefront
