/-
Expansion: the graph that a plan stands for, given the tools and the context it starts from. This is
what a `Compiler` does.

Dependencies are declared between steps, but not every step has a node of its own. So each step is
known by the nodes it ends with, its exits, and what is declared is resolved when all steps have
been expanded. An id that names no step is kept as it is, which leaves the node that waits for it
stuck.

A loop over an array that is already there becomes one node for each item and a node that gathers
their results; a loop over anything else is left to its node. Steps in a parallel step inherit what
it waits for, and if it has an output there is a node that gathers their results. A conditional is
one node. Its branches are expanded again when the branch has been chosen; here their tools are
looked up, and what they wait for outside of the conditional becomes a dependency of its node.

What `tool_step` to `conditional_step` add to one compiler under way is here what each gives back,
and `Expansion.append` puts it together.
-/
import Wavefront.Graph.Basic
import Wavefront.Plan.Check
import Wavefront.Plan.Document
import Wavefront.Tool.Registry

set_option autoImplicit false

namespace Wavefront

/-- The id of the node for one item of a loop: `iteration_id`. -/
def iterationId (id : String) (i : Nat) : String := id ++ "_iter_" ++ toString i

/-- A node whose dependencies are still those of its step: `PendingNode`. -/
structure Draft where
  node : Node
  /-- What the step waits for, by the ids of steps. -/
  declared : List String := []

/-- What steps are expanded to: the nodes and the aliases that `Compiler` gathers, and the exits. -/
structure Expansion where
  drafts : List Draft := []
  /-- The ids of the nodes that the steps end with. -/
  exits : List String := []
  /-- The exits of steps by their ids; of two entries for an id the later counts. -/
  names : List (String × List String) := []

namespace Expansion

/-- Everything in one expansion and then in another. -/
def append (e f : Expansion) : Expansion :=
  ⟨e.drafts ++ f.drafts, e.exits ++ f.exits, e.names ++ f.names⟩

instance : Append Expansion := ⟨append⟩

/-- Lets an id stand for the exits, `alias`. An empty id names nothing. -/
def named (e : Expansion) (id : String) : Expansion :=
  if id = "" then e else { e with names := e.names ++ [(id, e.exits)] }

/-- Lets several ids stand for the exits. -/
def namedAll (e : Expansion) (ids : List String) : Expansion := ids.foldl named e

/-- The expansion to one node. -/
def ofNode (node : Node) (declared : List String) : Expansion :=
  { drafts := [⟨node, declared⟩], exits := [node.id] }

/-- The nodes that an id of a step stands for. -/
def resolve (e : Expansion) (id : String) : List String :=
  match e.names.reverse.find? fun entry => entry.1 = id with
  | some (_, exits) => exits
  -- no step has this id, and no node either unless it happens to be the id of one
  | none => [id]

/-- A node with its dependencies: first the declared ones, then those it has as a node. They are put
together in `finish`. -/
def finish (e : Expansion) (d : Draft) : Node :=
  { d.node with deps := distinct (d.declared.flatMap e.resolve ++ d.node.deps) }

/-- The graph of an expansion. -/
def graph (e : Expansion) : Except Error Graph := Graph.ofNodes (e.drafts.map e.finish)

end Expansion

/-- The settings of the body of a loop, and the loop's own where the body has none:
`effective_policy`. -/
def Policy.orElse (inner outer : Policy) : Policy where
  timeoutMs := inner.timeoutMs.or outer.timeoutMs
  maxRetries := inner.maxRetries.or outer.maxRetries
  inputSchema := inner.inputSchema.or outer.inputSchema

/-! ## Steps without steps inside -/

/-- A tool step is one node: `tool_step`. -/
def ToolStep.expand (s : ToolStep) (tools : Registry) (declared : List String) :
    Except Error Expansion := do
  let tool ← tools.require s.tool s.id
  return .ofNode {
    id := s.id
    deps := []
    stepId := some s.id
    toolName := some s.tool
    policy := s.policy
    task := .toolCall tool s.input s.outputKey none } declared

/-- A final step is one node, which calls the tool of its function: `final_step`. -/
def FinalStep.expand (s : FinalStep) (tools : Registry) (declared : List String) :
    Except Error Expansion := do
  let tool ← tools.require s.tool s.id
  return .ofNode {
    id := s.id
    deps := []
    stepId := some s.id
    toolName := some s.tool
    policy := s.policy
    task := .toolCall tool s.input (s.output.getD s.id) none } declared

/-- A reduce step is one node, whatever its array: `reduce_step`. -/
def ReduceStep.expand (s : ReduceStep) (tools : Registry) (declared : List String) :
    Except Error Expansion := do
  let tool ← tools.require s.reducer.tool s.id
  let expansion := Expansion.ofNode {
    id := s.id
    deps := []
    stepId := some s.id
    toolName := some s.reducer.tool
    policy := s.policy
    task := .reduce s tool } declared
  return match s.reducer with
    | .named _ => expansion
    | .inline step => expansion.named step.id

/-- The node of a loop for one item. -/
def LoopStep.iteration (s : LoopStep) (tool : Tool) (i : Nat) (item : Value) : Node where
  id := iterationId s.id i
  deps := []
  stepId := some s.id
  toolName := some s.body.tool
  policy := s.body.policy.orElse s.policy
  task := .toolCall tool s.body.input (iterationId s.id i) (some (s.binder, item))

/-- The expansion of a loop over items that are known: a node for each and a node that gathers their
results. -/
def LoopStep.expandItems (s : LoopStep) (tool : Tool) (items : List Value)
    (declared : List String) : Expansion :=
  let iterations := items.zipIdx.map fun (item, i) => s.iteration tool i item
  let gathering : Node := {
    id := gatheredId s.id
    deps := iterations.map Node.id
    stepId := some s.id
    task := .aggregate (.list (iterations.map Node.id)) s.outputKey }
  { drafts := (iterations ++ [gathering]).map fun node => ⟨node, declared⟩
    exits := [gathering.id] }

/-- The expansion of a loop, `loop_step`. Whether its array is already there is asked of the context
that the run starts from. -/
def LoopStep.expand (s : LoopStep) (tools : Registry) (context : Value) (declared : List String) :
    Except Error Expansion := do
  let tool ← tools.require s.body.tool s.id
  let expansion := match context.deref s.items with
    | some (.array items) => s.expandItems tool items declared
    | _ => .ofNode {
        id := s.id
        deps := []
        stepId := some s.id
        toolName := some s.body.tool
        policy := s.body.policy.orElse s.policy
        task := .dynamicLoop s tool } declared
  return expansion.named s.body.id

/-! ## Groups -/

/-- The node that gathers the results of a parallel step at its output. -/
def Shell.gathering (shell : Shell) (steps : List Step) (exits : List String) (output : String) :
    Node where
  id := gatheredId shell.id
  deps := exits
  stepId := some shell.id
  policy := { timeoutMs := shell.policy.timeoutMs }
  task := .aggregate (.map (steps.map fun step => (step.id, step.outputKey))) output

/-- The expansion of a parallel step, given that of the steps inside it: `parallel_step`. -/
def Shell.expandParallel (shell : Shell) (steps : List Step) (inside : Expansion)
    (declared : List String) : Expansion :=
  match shell.output with
  | none => inside
  | some output =>
      let gathering := shell.gathering steps inside.exits output
      { inside with
        drafts := inside.drafts ++ [⟨gathering, declared⟩]
        exits := [gathering.id] }

/-- The tool that a step calls, if it calls one. -/
def Step.tool? : Step → Option String
  | tool s => some s.tool
  | final s => some s.tool
  | loop s => some s.body.tool
  | reduce s => some s.reducer.tool
  | parallel _ _ | conditional _ _ _ _ => none

/-- Looks up the tools of some steps: `check_tools`. -/
def requireTools (tools : Registry) : List Step → Except Error Unit
  | [] => .ok ()
  | step :: steps => do
      if let some tool := step.tool? then
        let _ ← tools.require tool step.id
      requireTools tools steps

/-- The ids that a step inside a conditional brings with it. -/
def Step.innerIds : Step → List String
  | loop s => [s.id, s.body.id]
  | step => [step.id]

/-- The expansion of a conditional: `conditional_step`. It is one node, and what its branches wait
for outside is lifted to it. -/
def Shell.expandConditional (shell : Shell) (condition : String) (inside : List Step)
    (yes no : Branch) (tools : Registry) (declared : List String) : Except Error Expansion := do
  requireTools tools inside
  -- what the branches wait for among themselves is settled when a branch is expanded
  let ids := inside.flatMap Step.innerIds
  let outside := (inside.flatMap Step.dependsOn).filter fun id => id ∉ ids
  let expansion := Expansion.ofNode {
    id := shell.id
    deps := []
    stepId := some shell.id
    policy := shell.policy
    task := .conditional shell condition yes no } (distinct (declared ++ outside))
  return expansion.namedAll ids

/-- The work of the nodes of a graph, in an order that respects their dependencies: the loop of
`run_conditional`. -/
def Graph.works (g : Graph) (s : Settings) : Except Error (List (Action Value)) := do
  return (← g.order).filterMap fun id => (g.node? id).map fun n => n.task.work s n.id

/-- A branch of some steps, given how they are expanded. -/
def Branch.ofSteps (steps : List Step) (expand : (context : Value) → Except Error Expansion) :
    Branch where
  outputs := steps.map fun step => (step.id, step.outputKey)
  works s context := do
    let graph ← (← expand context).graph
    graph.works s

/-! ## Steps -/

namespace Step

mutual

/-- Expands a step that also waits for what it inherits: `step` of `Compiler`. -/
def expand (tools : Registry) (context : Value) (inherited : List String) :
    Step → Except Error Expansion
  | tool s => do
      return (← s.expand tools (distinct (inherited ++ s.dependsOn))).named s.id
  | final s => do
      return (← s.expand tools (distinct (inherited ++ s.dependsOn))).named s.id
  | loop s => do
      return (← s.expand tools context (distinct (inherited ++ s.dependsOn))).named s.id
  | reduce s => do
      return (← s.expand tools (distinct (inherited ++ s.dependsOn))).named s.id
  | parallel shell steps => do
      let declared := distinct (inherited ++ shell.dependsOn)
      let inside ← expandAll tools context declared steps
      return (shell.expandParallel steps inside declared).named shell.id
  | conditional shell condition yes no => do
      let expansion ← shell.expandConditional condition (nestedList yes ++ nestedList no)
        (.ofSteps yes fun context => expandAll tools context [] yes)
        (.ofSteps no fun context => expandAll tools context [] no)
        tools (distinct (inherited ++ shell.dependsOn))
      return expansion.named shell.id

/-- Expands steps, one after the other. -/
def expandAll (tools : Registry) (context : Value) (inherited : List String) :
    List Step → Except Error Expansion
  | [] => .ok {}
  | step :: steps => do
      return (← expand tools context inherited step) ++ (← expandAll tools context inherited steps)

end

end Step

/-! ## Plans -/

namespace Plan

/-- The graph of a plan, for a plan that has been checked. -/
def expand (p : Plan) (tools : Registry) (context : Value) : Except Error Graph := do
  (← Step.expandAll tools context [] p.steps).graph

/-- The graph of a plan, if the plan passes the check of its document: `compile`. -/
def compile (p : Plan) (tools : Registry) (context : Value) : Except Error Graph := do
  check p.toValue
  p.expand tools context

end Plan

end Wavefront
