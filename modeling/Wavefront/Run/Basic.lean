/-
Runs: executing the graph of a plan (`run`, `run_document`, `execute_graph`).

Whatever can be refused is refused before anything is executed: settings that cannot be used, a
document that is no plan, a plan without a graph. From then on the run goes through the waves of the
schedule, whether nodes fail or not, and it keeps a trace. At the end nodes that were never ready
make it fail; otherwise the node that failed first does.
-/
import Wavefront.Graph.Schedule
import Wavefront.Plan.Expansion
import Wavefront.Run.Wave
import Wavefront.Settings.Reader

set_option autoImplicit false

namespace Wavefront

/-- How a plan is to be run: `RunOptions`. -/
structure Options where
  /-- What the trace calls the run. -/
  planId : String
  settings : Settings := {}
  /-- Is the run cancelled before it begins? -/
  cancelled : Bool := false
  observer : Observer := .silent

/-- What a run leaves if it succeeds: `RunOutput`. -/
structure Success where
  context : Value
  trace : Trace

/-- Why a run failed, and its trace if it ever began: `RunFailure`. -/
structure Failure where
  error : Error
  trace : Option Trace := none

/-- What can be said of a run afterwards. -/
structure Report where
  result : Except Failure Success
  events : List Event := []
  peak : Nat := 0
  /-- Was the run cancelled by its end? -/
  cancelled : Bool

/-- The error that a node of some id fails a run with, if it does. -/
def Ending.error? (node : String) : Ending → Option Error
  | passed => none
  | failed e => some e
  | aborted message => some (.nodeFailed node message)

/-- The error of the first course that failed. -/
def Wave.firstError? (w : Wave) : Option Error :=
  w.endings.findSome? fun (i, ending) => ending.error? (w.ids.getD i "")

variable [Schema.Validator]

/-- Runs the nodes of a wave: what they make of the world, and the first error among them, in the
order of the wave. -/
def runWave (o : Options) (world : World) (nodes : List Node) : World × Option Error :=
  let w := (Wave.ofNodes o.settings world nodes).run o.observer
  (w.world, w.firstError?)

/-- Runs waves, one after the other, and keeps the first error of all. -/
def runWaves (o : Options) : World → Option Error → List (List Node) → World × Option Error
  | world, first, [] => (world, first)
  | world, first, nodes :: waves =>
      let (world, error) := runWave o world nodes
      runWaves o world (first.or error) waves

/-- The world that a run begins with. -/
def Options.world (o : Options) (context : Value) (mode : Mode) : World where
  context := context
  trace := { planId := o.planId, mode := mode, startedAt := .epoch }
  cancelled := o.cancelled

/-- The report of a run that never began: `before_start`. -/
def Options.refuse (o : Options) (e : Error) : Report :=
  { result := .error { error := e }, cancelled := o.cancelled }

namespace Graph

/-- Executes the nodes of a graph: `execute_graph` behind its checks, with `run_graph`. -/
def execute (g : Graph) (context : Value) (mode : Mode) (o : Options) : Report :=
  let schedule := g.schedule
  let (world, first) := runWaves o (o.world context mode) none schedule.waves
  let trace := world.trace.finish world.moment
    (if o.settings.enableTrace then some world.context else none)
  -- nodes that are stuck count for more than a node that failed
  let error := match schedule.stuck with
    | [] => first
    | stuck => some (.deadlock (stuck.map Node.id))
  { result := match error with
      | some e => .error { error := e, trace := some trace }
      | none => .ok { context := world.context, trace := trace }
    events := world.events
    peak := world.peak
    cancelled := world.cancelled }

/-- Runs a graph, if the settings can be used: `execute_graph`. -/
def run (g : Graph) (context : Value) (mode : Mode) (o : Options) : Report :=
  match o.settings.check with
  | .error e => o.refuse e
  | .ok () => g.execute context mode o

end Graph

namespace Plan

/-- Runs a plan, if the settings can be used and the plan has a graph: `run`. -/
def run (p : Plan) (tools : Registry) (context : Value) (o : Options) : Report :=
  match do o.settings.check; p.compile tools context with
  | .error e => o.refuse e
  | .ok graph => graph.run context p.mode o

/-- Runs the plan of a document: `run_document`. -/
def runDocument (document : Value) (tools : Registry) (context : Value) (o : Options) : Report :=
  match ofDocument document with
  | .error e => o.refuse e
  | .ok p => p.run tools context o

end Plan

end Wavefront
