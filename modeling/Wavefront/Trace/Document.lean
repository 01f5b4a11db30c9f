/-
Traces as documents, both ways: what is derived for `Trace`, `TraceEntry` and `Statistics`.

Fields that are not known mean nothing. A trace, an entry and the statistics may also be arrays of
their fields, in the order in which they are listed here; the last ones may be missing if they may
be left out. An option that is left out or null is not set, and an option that is not set is not
written.
-/
import Wavefront.Json.Reader
import Wavefront.Plan.Document
import Wavefront.Trace.Basic

set_option autoImplicit false

namespace Wavefront

/-! ## Reading -/

namespace Document

/-- The fields of an object, or those of an array whose items stand for fields of these names. -/
def fieldsNamed (names : List String) : Value → Option Fields
  | .object fields => some fields
  | .array items =>
      if items.length ≤ names.length then some (Wavefront.Fields.ofList (names.zip items)) else none
  | _ => none

/-- A natural number that fits 64 bits. -/
def natural (v : Value) : Option Nat := (word v).map UInt64.toNat

/-- A natural number that fits 32 bits. -/
def smallNatural (v : Value) : Option Nat := (halfWord v).map UInt32.toNat

/-- A moment. -/
def moment (v : Value) : Option Moment := (text v).bind Moment.ofText?

end Document

open Document

/-- Reads a status, by its name. -/
def Status.ofValue? (v : Value) : Option Status := (nameOf v).bind Status.ofName?

/-- The names of the fields of an entry. -/
def Entry.fieldNames : List String :=
  ["nodeId", "stepId", "status", "startTime", "endTime", "durationMs", "error", "output",
    "retryCount", "toolName"]

/-- Reads an entry. -/
def Entry.ofValue? (v : Value) : Option Entry := do
  let fields ← fieldsNamed fieldNames v
  return {
    nodeId := ← required text fields "nodeId"
    stepId := ← optional text fields "stepId"
    status := ← required Status.ofValue? fields "status"
    startTime := ← required moment fields "startTime"
    endTime := ← optional moment fields "endTime"
    durationMs := ← optional natural fields "durationMs"
    error := ← optional text fields "error"
    output := ← optional some fields "output"
    retryCount := ← required smallNatural fields "retryCount"
    toolName := ← optional text fields "toolName" }

/-- The names of the fields of statistics. -/
def Statistics.fieldNames : List String := ["total", "successful", "failed", "skipped", "cancelled"]

/-- Reads statistics. -/
def Statistics.ofValue? (v : Value) : Option Statistics := do
  let fields ← fieldsNamed fieldNames v
  return {
    total := ← required natural fields "total"
    successful := ← required natural fields "successful"
    failed := ← required natural fields "failed"
    skipped := ← required natural fields "skipped"
    cancelled := ← required natural fields "cancelled" }

/-- The names of the fields of a trace. -/
def Trace.fieldNames : List String :=
  ["planId", "executionMode", "startedAt", "finishedAt", "totalDurationMs", "entries", "statistics",
    "contextSnapshot"]

/-- A list of entries. -/
def Entry.listOfValue? (v : Value) : Option (List Entry) := v.array?.bind fun items =>
  items.mapM Entry.ofValue?

/-- Reads a trace. -/
def Trace.ofValue? (v : Value) : Option Trace := do
  let fields ← fieldsNamed fieldNames v
  return {
    planId := ← required text fields "planId"
    mode := ← required Mode.ofValue? fields "executionMode"
    startedAt := ← required moment fields "startedAt"
    finishedAt := ← optional moment fields "finishedAt"
    totalDurationMs := ← optional natural fields "totalDurationMs"
    entries := ← required Entry.listOfValue? fields "entries"
    statistics := ← optional Statistics.ofValue? fields "statistics"
    contextSnapshot := ← optional some fields "contextSnapshot" }

/-- Reads a trace, or says that the document is none. -/
def Trace.ofDocument (document : Value) : Except Json.Fault Trace :=
  match ofValue? document with
  | some t => .ok t
  | none => .error .wrongShape

/-! ## Writing -/

/-- Writes a moment as text. -/
def Moment.toValue (m : Moment) : Value := .string m.text

/-- Writes an entry. -/
def Entry.toValue (e : Entry) : Value :=
  .ofFields ([("nodeId", .string e.nodeId), ("status", .string e.status.name),
      ("startTime", e.startTime.toValue), ("retryCount", .ofNat e.retryCount)]
    ++ ifSet "stepId" .string e.stepId ++ ifSet "endTime" Moment.toValue e.endTime
    ++ ifSet "durationMs" .ofNat e.durationMs ++ ifSet "error" .string e.error
    ++ ifSet "output" id e.output ++ ifSet "toolName" .string e.toolName)

/-- Writes statistics. -/
def Statistics.toValue (s : Statistics) : Value :=
  .ofFields [("total", .ofNat s.total), ("successful", .ofNat s.successful),
    ("failed", .ofNat s.failed), ("skipped", .ofNat s.skipped), ("cancelled", .ofNat s.cancelled)]

/-- Writes a trace. -/
def Trace.toValue (t : Trace) : Value :=
  .ofFields ([("planId", .string t.planId), ("executionMode", .string t.mode.name),
      ("startedAt", t.startedAt.toValue), ("entries", .array (t.entries.map Entry.toValue))]
    ++ ifSet "finishedAt" Moment.toValue t.finishedAt
    ++ ifSet "totalDurationMs" .ofNat t.totalDurationMs
    ++ ifSet "statistics" Statistics.toValue t.statistics
    ++ ifSet "contextSnapshot" id t.contextSnapshot)

end Wavefront
