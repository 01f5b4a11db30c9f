/-
Validators of schemas, which `check_tool_input` and `check_context_schema` ask.

What a schema means is not said here: a host brings a validator of its own, and everything that
looks at schemas is stated for any of them. A validator takes a document for a schema or says why it
is none, and then takes a value or says what is wrong with it; only the texts of what it says come
to light. Nothing more is asked of it than that it answers the same question in the same way
whenever it is asked.
-/
import Wavefront.Value.Basic

set_option autoImplicit false

namespace Wavefront

/-- A validator of schemas: what `validator_for` makes of a document, and what that says of a
value. -/
class Schema.Validator where
  /-- The check of values that a document stands for, or why the document is no schema. -/
  validatorFor : (schema : Value) → Except String ((value : Value) → Except String Unit)

end Wavefront
