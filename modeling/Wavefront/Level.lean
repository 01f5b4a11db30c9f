/-
Levels of detail for messages to the host, by the names that `parse_level` knows.
-/
import Wavefront.Text.Blank

set_option autoImplicit false

namespace Wavefront

/-- How detailed messages are, from errors only to everything. -/
inductive Level where
  | error
  | warn
  | info
  | debug
  | trace
deriving DecidableEq

/-- The level of a given name: `parse_level`. Blanks around the name and the case of its letters do
not matter, and `warning` is a second name of `warn`. -/
def Level.ofText? (text : String) : Option Level :=
  match String.ofList ((Text.trim text.toList).map Char.toLower) with
  | "error" => some .error
  | "warn" | "warning" => some .warn
  | "info" => some .info
  | "debug" => some .debug
  | "trace" => some .trace
  | _ => none

end Wavefront
