/-
Traces: what happened to each node of a run (`Trace`, `TraceEntry`), kept by a `TraceRecorder`.

A trace is a log. Entries are appended, are known by their index from then on, and are changed where
they stand; none is ever removed or moved. An entry is settled once it has ended, however it has
ended.
-/
import Wavefront.Plan.Basic
import Wavefront.Trace.Moment

set_option autoImplicit false

namespace Wavefront

/-! ## Entries -/

/-- How far a node has come: `NodeStatus`. A run skips no node; the status is for other hosts. -/
inductive Status where
  | pending
  | running
  | success
  | failed
  | skipped
  | cancelled
deriving DecidableEq

namespace Status

/-- The name of a status in a document. -/
def name : Status → String
  | pending => "pending"
  | running => "running"
  | success => "success"
  | failed => "failed"
  | skipped => "skipped"
  | cancelled => "cancelled"

/-- All statuses. -/
def all : List Status := [pending, running, success, failed, skipped, cancelled]

/-- The status of a name. -/
def ofName? (s : String) : Option Status := all.find? fun status => status.name = s

/-- Has a node with this status ended? This is `is_terminal`. -/
def isTerminal : Status → Bool
  | pending | running => false
  | success | failed | skipped | cancelled => true

end Status

/-- What is known of one node: `TraceEntry`. -/
structure Entry where
  nodeId : String
  stepId : Option String := none
  status : Status := .running
  startTime : Moment
  endTime : Option Moment := none
  durationMs : Option Nat := none
  error : Option String := none
  output : Option Value := none
  /-- Attempts after the first one. -/
  retryCount : Nat := 0
  toolName : Option String := none

/-- Ends an entry with a status: `finish`. -/
def Entry.finish (e : Entry) (now : Moment) (status : Status) : Entry :=
  { e with
    status := status
    endTime := some now
    durationMs := some (e.startTime.millisUntil now) }

/-- Ends an entry with an error. -/
def Entry.fail (e : Entry) (now : Moment) (message : String) : Entry :=
  { e with error := some message }.finish now .failed

/-! ## Statistics -/

/-- How many nodes of a run there were and how they ended: `Statistics`. -/
structure Statistics where
  total : Nat
  successful : Nat
  failed : Nat
  skipped : Nat
  cancelled : Nat
deriving DecidableEq

/-- The number of entries with a status. -/
def countStatus (status : Status) (entries : List Entry) : Nat :=
  entries.countP fun e => e.status = status

/-- The statistics of some entries: `from_entries`. -/
def Statistics.ofEntries (entries : List Entry) : Statistics where
  total := entries.length
  successful := countStatus .success entries
  failed := countStatus .failed entries
  skipped := countStatus .skipped entries
  cancelled := countStatus .cancelled entries

/-! ## Traces -/

/-- The trace of a run: `Trace`. -/
structure Trace where
  planId : String
  mode : Mode
  startedAt : Moment
  finishedAt : Option Moment := none
  totalDurationMs : Option Nat := none
  entries : List Entry := []
  statistics : Option Statistics := none
  /-- The context as the run left it, if it was to be kept. -/
  contextSnapshot : Option Value := none

/-- Changes the first item with a property. -/
def modifyFirst {α : Type} (p : α → Bool) (f : α → α) : List α → List α
  | [] => []
  | a :: rest => if p a then f a :: rest else a :: modifyFirst p f rest

namespace Trace

/-- Appends an entry and gives its index: `begin`. -/
def begin (t : Trace) (e : Entry) : Nat × Trace :=
  (t.entries.length, { t with entries := t.entries ++ [e] })

/-- Changes the entry at an index, if there is one: `update`. The change may be any at all. -/
def update (t : Trace) (i : Nat) (change : Entry → Entry) : Trace :=
  { t with entries := t.entries.modify i change }

/-- Fails the first entry of a node that has not ended: `fail_unsettled`. -/
def failUnsettled (t : Trace) (now : Moment) (node message : String) : Trace :=
  { t with
    entries := modifyFirst (fun e => e.nodeId = node && !e.status.isTerminal)
      (fun e => e.fail now message) t.entries }

/-- The first entry of a node: `entry`. -/
def entry? (t : Trace) (node : String) : Option Entry := t.entries.find? fun e => e.nodeId = node

/-- The entries with a status: `entries_with_status`. -/
def withStatus (t : Trace) (status : Status) : List Entry :=
  t.entries.filter fun e => e.status = status

/-- Ends a trace, `finish`: the statistics are those of its entries. -/
def finish (t : Trace) (now : Moment) (context : Option Value) : Trace :=
  { t with
    finishedAt := some now
    totalDurationMs := some (t.startedAt.millisUntil now)
    statistics := some (.ofEntries t.entries)
    contextSnapshot := context }

end Trace

end Wavefront
