/-
Graphs: the nodes of a run with their dependencies (`GraphNode`, `CompiledGraph`).

A node has an id, waits for other nodes by their ids, and has a task. No two nodes of a graph have
the same id. A dependency may name a node that is not there; what comes of that is decided when the
graph is scheduled.
-/
import Wavefront.Digraph.Order
import Wavefront.Task

set_option autoImplicit false

namespace Wavefront

/-- A node: `GraphNode`, with the id, what it waits for, its policy, its schema and its task. -/
structure Node where
  id : String
  deps : List String
  /-- The step that the node comes from. -/
  stepId : Option String := none
  toolName : Option String := none
  policy : Policy := {}
  task : Task

/-- A node that calls a tool and writes the result at its own id: `tool_call`. -/
def Node.ofTool (id : String) (deps : List String) (tool : Tool) (input : Value) (policy : Policy) :
    Node where
  id := id
  deps := deps
  stepId := some id
  toolName := some tool.id
  policy := policy
  task := .toolCall tool input id none

/-- The members of a list, each where it comes up first. -/
def distinct {α : Type} [DecidableEq α] : List α → List α
  | [] => []
  | a :: rest => a :: (distinct rest).filter (· ≠ a)

/-- The first member of a list that has come up before: with `seen` before the list. -/
def repeated? {α : Type} [DecidableEq α] (seen : List α) : List α → Option α
  | [] => none
  | a :: rest => if a ∈ seen then some a else repeated? (a :: seen) rest

/-- Nothing comes up twice in a list without duplicates, and only there. -/
theorem repeated?_eq_none {α : Type} [DecidableEq α] {seen list : List α}
    (h : repeated? seen list = none) : list.Nodup ∧ ∀ a ∈ list, a ∉ seen := by
  induction list generalizing seen with
  | nil => simp
  | cons a rest ih =>
    by_cases ha : a ∈ seen
    · simp [repeated?, ha] at h
    · simp only [repeated?, if_neg ha] at h
      obtain ⟨hrest, hnew⟩ := ih h
      refine ⟨List.nodup_cons.2 ⟨fun hmem => hnew a hmem List.mem_cons_self, hrest⟩, ?_⟩
      intro b hb
      rcases List.mem_cons.1 hb with rfl | hb
      · exact ha
      · exact fun hseen => hnew b hb (List.mem_cons_of_mem _ hseen)

/-- A graph: `CompiledGraph`. That no id comes up twice is a field of the type. -/
structure Graph where
  nodes : List Node
  nodup : (nodes.map Node.id).Nodup

namespace Graph

/-- The graph of some nodes, unless two of them have the same id: `from_nodes`. -/
def ofNodes (nodes : List Node) : Except Error Graph :=
  match h : repeated? [] (nodes.map Node.id) with
  | some id => .error (.graph (.duplicateNode id))
  | none => .ok ⟨nodes, (repeated?_eq_none h).1⟩

/-- The ids of the nodes, in the order of the graph. -/
def ids (g : Graph) : List String := g.nodes.map Node.id

/-- The node of an id, if the graph has one. -/
def node? (g : Graph) (id : String) : Option Node := g.nodes.find? fun n => n.id = id

def size (g : Graph) : Nat := g.nodes.length

def isEmpty (g : Graph) : Bool := g.nodes.isEmpty

/-- Every node with what it waits for. -/
def edges (g : Graph) : Digraph.Edges String := g.nodes.map fun n => (n.id, n.deps)

/-- The ids of the nodes in an order in which each comes behind all that it waits for, as far as
that is in the graph: `topological_order`. -/
def order (g : Graph) : Except Error (List String) :=
  match Digraph.order g.edges with
  | .ok ids => .ok ids
  | .error id => .error (.graph (.cycleThrough id))

end Graph

end Wavefront
