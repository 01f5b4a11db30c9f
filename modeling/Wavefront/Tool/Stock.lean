/-
Stock tools: tools for trying plans out.

They answer with what they were given, count, wait or fail in set ways, so that every path through a
run can be taken without a host.
-/
import Wavefront.Context
import Wavefront.Tool.Registry

set_option autoImplicit false

namespace Wavefront

/-- The stock tools. -/
inductive Stock where
  /-- Answers with its parameters. -/
  | echo
  /-- Answers with a set value. -/
  | const (value : Value)
  /-- Fails with the message in its parameters or else with a set one. -/
  | fail (message : String)
  /-- Fails with set causes, the innermost one first. -/
  | chain (causes : List String)
  /-- Fails in its first calls and answers with its parameters after them. -/
  | flaky (times : Nat)
  /-- Answers after the time in its parameters or else a set one. -/
  | sleep (ms : UInt64)
  /-- Answers with twice a signed 64-bit integer, wrapped around. -/
  | double
  /-- Answers with what a path leads to in its scope. -/
  | ctx
  /-- Answers with the names in its scope. -/
  | keys
  /-- Answers with the number of its calls. -/
  | count
  /-- Cancels the run. -/
  | cancel
  /-- Panics. -/
  | panic (message : String)

namespace Stock

/-- The message of a tool that fails without one. -/
def defaultMessage : String := "boom"

/-- A signed 64-bit integer; anything else counts as zero. -/
def signed (v : Option Value) : Int64 :=
  match v with
  | some (.number n) => (n.signed?.map Int64.ofInt).getD 0
  | _ => 0

/-- The names in a scope. -/
def names : Value → Value
  | .object fields => .array ((Fields.keys fields).map .string)
  | _ => .null

/-- What a stock tool does in its `n`-th call. -/
def react (s : Stock) (n : Nat) (params scope : Value) : Reaction :=
  match s with
  | echo => { outcome := .returned params }
  | const value => { outcome := .returned value }
  | fail message =>
      { outcome := .failed [((params.field? "message").bind Value.string?).getD message] }
  | chain causes => { outcome := .failed causes }
  | flaky times =>
      { outcome := if n ≤ times then .failed ["flaky " ++ toString n] else .returned params }
  | sleep ms =>
      { outcome := .returned ((params.field? "value").getD params)
        delayMs := (((params.field? "ms").bind Value.word?).getD ms).toNat }
  | double =>
      { outcome := .returned (.number (.ofSigned (signed (params.field? "n") * 2))) }
  | ctx =>
      let path := ((params.field? "path").bind Value.string?).getD ""
      { outcome := .returned ((scope.resolve path).getD .null) }
  | keys => { outcome := .returned (names scope) }
  | count => { outcome := .returned (.ofNat n) }
  | cancel => { outcome := .returned (.string "cancelled"), cancels := true }
  | panic message => { outcome := .panicked message }

/-- A stock tool under some id. -/
def tool (s : Stock) (id : String) (description : Option String) (inputSchema : Option Value) :
    Tool where
  id := id
  description := description
  inputSchema := inputSchema
  react := s.react

/-- The stock tools that are there without having been asked for, with their ids. -/
def standard : List (String × Stock) :=
  [("echo", echo), ("fail", fail defaultMessage), ("sleep", sleep 0), ("double", double),
    ("ctx", ctx), ("keys", keys), ("count", count), ("cancel", cancel),
    ("panic", panic defaultMessage), ("flaky", flaky 2), ("final_answer", echo)]

end Stock

/-- The registry of the standard stock tools. -/
def Registry.standard : Registry :=
  .ofList (Stock.standard.map fun (id, s) => s.tool id none none)

end Wavefront
