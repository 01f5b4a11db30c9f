/-
Schedules: the waves in which the nodes of a graph are executed (`ready_set`, `run_graph`).

A wave has all nodes that have not been executed and whose dependencies have been. How a node ends
does not matter to that: one that fails has been executed as well as one that succeeds. So the waves
depend on the dependencies alone. They go on until nothing is left or nothing that is left is ready:
nodes on a circle, nodes that wait for what is not there, and all nodes that wait for those.
-/
import Wavefront.Graph.Basic

set_option autoImplicit false

namespace Wavefront

/-- The order in which nodes are executed: the waves, and what is left when nothing is ready any
more. -/
structure Schedule where
  /-- The waves, the first one first. -/
  waves : List (List Node) := []
  /-- The nodes that are never ready. -/
  stuck : List Node := []

/-- Have all dependencies of a node been executed? -/
def Node.isReady (executed : List String) (n : Node) : Bool := n.deps.all fun d => d ∈ executed

/-- The nodes that are ready, in the order of the graph: the first part of `ready_set`. -/
def readyNodes (executed : List String) (nodes : List Node) : List Node :=
  nodes.filter (Node.isReady executed)

/-- The nodes that are not ready. -/
def laterNodes (executed : List String) (nodes : List Node) : List Node :=
  nodes.filter fun n => !n.isReady executed

/-- A node is ready or it is not. -/
theorem length_readyNodes_add (executed : List String) (nodes : List Node) :
    (readyNodes executed nodes).length + (laterNodes executed nodes).length = nodes.length := by
  induction nodes with
  | nil => rfl
  | cons n nodes ih =>
    simp only [readyNodes, laterNodes, List.filter_cons] at ih ⊢
    cases n.isReady executed <;> simp <;> omega

/-- A ready node leaves fewer for later, so the waves come to an end. -/
theorem length_laterNodes_lt {executed : List String} {nodes : List Node}
    (h : readyNodes executed nodes ≠ []) :
    (laterNodes executed nodes).length < nodes.length := by
  have := length_readyNodes_add executed nodes
  have := List.length_pos_iff.2 h
  omega

/-- The schedule of some nodes when others have been executed: the loop of `run_graph`, less what
the nodes do. -/
def Schedule.ofNodes (executed : List String) (nodes : List Node) : Schedule :=
  let ready := readyNodes executed nodes
  if _h : ready = [] then { stuck := nodes }
  else
    let rest := ofNodes (executed ++ ready.map Node.id) (laterNodes executed nodes)
    { rest with waves := ready :: rest.waves }
termination_by nodes.length
decreasing_by exact length_laterNodes_lt _h

/-- The schedule of a graph. -/
def Graph.schedule (g : Graph) : Schedule := .ofNodes [] g.nodes

end Wavefront
