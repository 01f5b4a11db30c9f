/-
Tools: what a host lends to plans (`Tool`, `check_tool_input`, `check_context_schema`).

A tool is called with parameters and with the scope it is called in, which it can read but not
write. How it ends may also depend on how often it has been called before, and that is all: so a
tool is a function, and a run is determined by what it starts from. A call takes time before it
ends, it can ask for the run to be cancelled, and it can panic, which ends the task that called it.
-/
import Wavefront.Error
import Wavefront.Schema.Validator

set_option autoImplicit false

namespace Wavefront

/-- How a call of a tool ends. -/
inductive Outcome where
  | returned (value : Value)
  /-- The tool failed; the causes are listed from the innermost one. -/
  | failed (causes : List String)
  | panicked (message : String)

/-- What a tool does when it is called. -/
structure Reaction where
  outcome : Outcome
  /-- The time from the call to its end. A call that takes no time ends at once. -/
  delayMs : Nat := 0
  /-- Is the run to be cancelled as soon as the tool is called? -/
  cancels : Bool := false

/-- A tool: `Tool`. -/
structure Tool where
  id : String
  description : Option String := none
  /-- What the parameters have to look like. -/
  inputSchema : Option Value := none
  /-- What the tool does when it is called for the `n`-th time, counted from 1. -/
  react : (n : Nat) → (params scope : Value) → Reaction

/-! ## Schemas -/

variable [Schema.Validator]

/-- Refuses a value that a schema does not allow, and any value if the schema itself is none. -/
def requireSchema (schema value : Value) (badSchema badValue : (text : String) → Rejection) :
    Except Error Unit :=
  match Schema.Validator.validatorFor schema with
  | .error text => .error (.rejected (badSchema text))
  | .ok check =>
      match check value with
      | .error text => .error (.rejected (badValue text))
      | .ok () => .ok ()

/-- Refuses parameters that are not what a tool of some name asks for: `check_tool_input`. -/
def requireParams (tool : String) (schema : Option Value) (params : Value) : Except Error Unit :=
  match schema with
  | some schema => requireSchema schema params (.badToolSchema tool) (.badInput tool)
  | none => .ok ()

/-- Refuses a context that is not what a node asks for: `check_context_schema`. -/
def requireContext (node : String) (schema : Option Value) (context : Value) : Except Error Unit :=
  match schema with
  | some schema => requireSchema schema context (.badNodeSchema node) (.badContext node)
  | none => .ok ()

/-- Refuses parameters that are not what the tool asks for. -/
def Tool.check (t : Tool) (params : Value) : Except Error Unit :=
  requireParams t.id t.inputSchema params

/-- The result of a call that has ended, or the message that it panicked with. -/
def Outcome.result (tool : String) : Outcome → Except String (Except Error Value)
  | returned v => .ok (.ok v)
  | failed causes => .ok (.error (.toolFailed tool causes))
  | panicked message => .error message

end Wavefront
