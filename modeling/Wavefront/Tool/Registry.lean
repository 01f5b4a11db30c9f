/-
Registries: tools by their ids (`ToolRegistry`).

A registry holds one tool for each id, the one registered last, and lists them by their ids.
-/
import Wavefront.Tool.Basic
import Wavefront.Value.Fields

set_option autoImplicit false

namespace Wavefront

/-- A registry of tools: `ToolRegistry`. -/
structure Registry where
  /-- The tools with their ids, in the order of the ids. -/
  entries : List (String × Tool) := []

namespace Registry

/-- Puts a tool in place of an earlier one of its id: `register`. -/
def register (r : Registry) (tool : Tool) : Registry := ⟨Fields.insert tool.id tool r.entries⟩

/-- The registry of some tools, registered in their order. -/
def ofList (tools : List Tool) : Registry := tools.foldl register {}

/-- The tool of an id, if there is one. -/
def get? (r : Registry) (id : String) : Option Tool := Fields.get? id r.entries

/-- The tool of an id that a step names: `require`. -/
def require (r : Registry) (id step : String) : Except Error Tool :=
  match r.get? id with
  | some tool => .ok tool
  | none => .error (.unknownTool id step)

/-- Is there a tool of this id? -/
def contains (r : Registry) (id : String) : Bool := (r.get? id).isSome

/-- The ids, in their order: `list`. -/
def ids (r : Registry) : List String := Fields.keys r.entries

/-- The number of tools. -/
def size (r : Registry) : Nat := r.entries.length

/-- Is there no tool? -/
def isEmpty (r : Registry) : Bool := r.entries.isEmpty

/-- A tool that was registered is found under its id. -/
theorem get?_register (r : Registry) (tool : Tool) :
    (r.register tool).get? tool.id = some tool :=
  Fields.get?_insert_self tool.id tool r.entries

end Registry

end Wavefront
