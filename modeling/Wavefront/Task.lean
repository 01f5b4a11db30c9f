/-
Tasks: what the nodes of a graph do (`run_task`, `run_conditional`).

Most tasks call a tool, once or for every item of an array, and write what comes back. Two do more.
A gathering reads what other nodes wrote and writes it in one place. A conditional decides a
condition, expands the branch that was chosen against the context as it is then, does the work of
its nodes one after the other, and writes which branch it was and what its steps came to.
-/
import Wavefront.Plan.Basic
import Wavefront.Settings
import Wavefront.Template
import Wavefront.Work

set_option autoImplicit false

namespace Wavefront

/-- How results are put together: `Aggregation`. -/
inductive Gathering where
  /-- An array of the values at these paths. -/
  | list (paths : List String)
  /-- An object of these keys, each with the value at its path. -/
  | map (entries : List (String × String))

/-- A branch of a conditional: its steps, and how they are expanded when it has been chosen. -/
structure Branch where
  /-- The steps of the branch with the keys that their results are written at. -/
  outputs : List (String × String)
  /-- The work of its nodes in an order that respects their dependencies, when the branch is expanded
  against a context. -/
  works : Settings → (context : Value) → Except Error (List (Action Value))

/-- What a node does: `NodeTask`. -/
inductive Task where
  /-- Calls a tool with its input, perhaps with a name bound in the scope. -/
  | toolCall (tool : Tool) (input : Value) (target : String) (binding : Option (String × Value))
  | aggregate (gathering : Gathering) (target : String)
  /-- Calls a tool for every item of an array that is known only when the node is executed. -/
  | dynamicLoop (step : LoopStep) (tool : Tool)
  | reduce (step : ReduceStep) (tool : Tool)
  | conditional (shell : Shell) (condition : String) (yes no : Branch)

/-! ## Parts of the work -/

/-- The call of a tool in a scope, with what its input comes to there: `call_tool`. -/
def Call.ofTemplate (tool : Tool) (input scope : Value) : Call :=
  ⟨tool, scope.substitute input, scope⟩

/-- The items that a field of a step refers to: `resolve_items`. -/
def itemsOf (node field : String) (reference context : Value) : Except Error (List Value) :=
  match context.deref reference with
  | some (.array items) => .ok items
  | some found => .error (.graph (.notArray node field found))
  | none => .error (.graph (.unresolved node field reference))

/-- Writes the result of a task and ends with it. -/
def Action.conclude (target : String) (result : Value) : Action Value := do
  Action.put target result
  return result

/-- Puts results together. -/
def Gathering.collect : Gathering → Action Value
  | list paths => return .array (← Action.forEach Action.valueAt paths)
  | map entries => do
      let pairs ← Action.forEach (fun (key, path) => return (key, ← Action.valueAt path)) entries
      return .ofFields pairs

/-- The call of a loop for one item. -/
def LoopStep.callFor (s : LoopStep) (tool : Tool) (context item : Value) : Call :=
  .ofTemplate tool s.body.input (context.bind s.binder item)

/-- The name of the one parameter of a reducer that is only named. -/
def itemKey : String := "item"

/-- The call of a reduce step for one item. A reducer that is only named is given the item as it is,
even if there are templates in it. -/
def ReduceStep.callFor (s : ReduceStep) (tool : Tool) (context item : Value) : Call :=
  match s.reducer with
  | .named _ => ⟨tool, .ofFields [(itemKey, item)], context⟩
  | .inline step => .ofTemplate tool step.input (context.bind s.binder item)

/-- How many calls a loop or reduce step makes side by side: `fan_out_width`. -/
def Settings.widthFor (s : Settings) (concurrency : Option UInt64) : Nat :=
  (concurrency.getD s.loopConcurrency).toNat

/-! ## Conditionals -/

/-- Which branch a condition chooses: none if it does not hold and there is nothing else to do. -/
inductive Choice where
  | yes
  | no
  | neither
deriving DecidableEq

namespace Choice

/-- What a conditional writes of its choice. -/
def toValue : Choice → Value
  | yes => .string "then"
  | no => .string "otherwise"
  | neither => .null

/-- The choice for a truth value. -/
def ofBool (holds : Bool) (no : Branch) : Choice :=
  if holds then .yes else if no.outputs = [] then .neither else .no

end Choice

/-- Does the work of a branch and reads what its steps came to: the part of `run_conditional` behind
the condition. -/
def Branch.take (b : Branch) (s : Settings) (context : Value) : Action Value := do
  let works ← MonadExcept.ofExcept (b.works s context)
  let _ ← Action.forEach id works
  let pairs ← Action.forEach (fun (id, key) => return (id, ← Action.valueAt key)) b.outputs
  return .ofFields pairs

/-- What a conditional writes. -/
def branchResult (choice : Choice) (outputs : Value) : Value :=
  .ofFields [("branch", choice.toValue), ("outputs", outputs)]

/-! ## Tasks -/

namespace Task

/-- The name of the kind of a task: `kind`. -/
def kind : Task → String
  | toolCall _ _ _ _ => "tool_call"
  | aggregate _ _ => "aggregate"
  | dynamicLoop _ _ => "dynamic_loop"
  | reduce _ _ => "reduce"
  | conditional _ _ _ _ => "conditional"

/-- The path that a task writes its result at. -/
def target : Task → String
  | toolCall _ _ target _ => target
  | aggregate _ target => target
  | dynamicLoop step _ => step.outputKey
  | reduce step _ => step.output
  | conditional shell _ _ _ => shell.output.getD shell.id

/-- One execution of a task as a node of some id: `run_task`. Its result has been written when it
ends. -/
def work (s : Settings) (node : String) : Task → Action Value
  | toolCall tool input target binding => do
      let context ← Action.context
      let scope := match binding with
        | some (name, value) => context.bind name value
        | none => context
      Action.conclude target (← Action.call (.ofTemplate tool input scope))
  | aggregate gathering target => do
      Action.conclude target (← gathering.collect)
  | dynamicLoop step tool => do
      let context ← Action.context
      let items ← MonadExcept.ofExcept (itemsOf node "over" step.items context)
      let results ← Action.gather (s.widthFor step.concurrency)
        (items.map (step.callFor tool context))
      Action.conclude step.outputKey (.array results)
  | reduce step tool => do
      let context ← Action.context
      let items ← MonadExcept.ofExcept (itemsOf node "input" step.input context)
      let results ← Action.gather (s.widthFor step.concurrency)
        (items.map (step.callFor tool context))
      Action.conclude step.output (.array results)
  | conditional shell condition yes no => do
      let context ← Action.context
      match Condition.evaluate context condition with
      | .error fault => throw (.condition fault)
      | .ok holds =>
          let branch := if holds then yes else no
          let outputs ← branch.take s context
          Action.conclude (shell.output.getD shell.id)
            (branchResult (.ofBool holds no) outputs)

end Task

end Wavefront
