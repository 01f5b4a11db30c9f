/-
How the texts of errors begin, and what schemas refuse with.

The text of an error begins with the heading of its kind, or, where the kind has none, with words of
its own. Either way its first letter is known from the error alone, whatever ids, limits and
messages the text goes on with. Errors with different letters have different texts. Whatever
validator is asked, what a schema does not allow is refused with one kind of error.
-/
import Wavefront.Tool.Basic

set_option autoImplicit false

namespace Wavefront

/-- The text begins with the letter. -/
def BeginsWith (c : Char) (text : String) : Prop := text.toList.head? = some c

/-- What follows the first letter does not matter. -/
theorem BeginsWith.append {c : Char} {text : String} (h : BeginsWith c text) (rest : String) :
    BeginsWith c (text ++ rest) := by
  rw [BeginsWith, String.toList_append, List.head?_append, h]
  rfl

/-- A text begins with one letter only. -/
theorem BeginsWith.unique {c d : Char} {text : String} (h : BeginsWith c text)
    (h' : BeginsWith d text) : c = d := Option.some.inj (h.symm.trans h')

namespace Error

/-- The letter that the text of the error begins with. -/
def initial : Error → Char
  | validation _ => 'P'
  | unknownTool _ _ => 'U'
  | graph _ | condition _ | settings _ => 'C'
  | deadlock _ => 'D'
  | nodeFailed _ _ | timeout _ _ => 'N'
  | rejected _ | path _ | io => 'I'
  | toolFailed _ _ => 'T'
  | json _ => 'J'
  | yaml => 'Y'

/-- A kind with a heading has it in front of everything else. -/
theorem beginsWith_message_of_heading {e : Error} {c : Char} (kind : ErrorKind) (hkind : e.kind = kind)
    (h : BeginsWith c kind.heading) : BeginsWith c e.message := by
  rw [message, hkind]
  exact h.append e.detail

theorem beginsWith_message_of_detail {e : Error} {c : Char} (hheading : e.kind.heading = "")
    (h : BeginsWith c e.detail) : BeginsWith c e.message := by
  rwa [message, hheading, String.empty_append]

/-- The first letter of a text is known from the error alone. -/
theorem beginsWith_message (e : Error) : BeginsWith e.initial e.message := by
  cases e with
  | unknownTool tool step =>
    have hstart : BeginsWith 'U' unknownToolHeading := rfl
    exact beginsWith_message_of_detail rfl ((((hstart.append tool).append _).append step).append _)
  | deadlock pending =>
    have hstart : BeginsWith 'D' deadlockHeading := rfl
    exact beginsWith_message_of_detail rfl ((hstart.append _).append _)
  | nodeFailed node message =>
    have hstart : BeginsWith 'N' "Node '" := rfl
    exact beginsWith_message_of_detail rfl (((hstart.append node).append _).append message)
  | timeout node limitMs =>
    have hstart : BeginsWith 'N' "Node '" := rfl
    exact beginsWith_message_of_detail rfl
      ((((hstart.append node).append _).append _).append _)
  | toolFailed tool causes =>
    have hstart : BeginsWith 'T' "Tool '" := rfl
    exact beginsWith_message_of_detail rfl (((hstart.append tool).append _).append _)
  -- all other kinds have a heading
  | validation _ => exact beginsWith_message_of_heading .validation rfl rfl
  | graph _ => exact beginsWith_message_of_heading .compile rfl rfl
  | rejected _ => exact beginsWith_message_of_heading .schemaRejected rfl rfl
  | condition _ => exact beginsWith_message_of_heading .condition rfl rfl
  | path _ => exact beginsWith_message_of_heading .invalidPath rfl rfl
  | settings _ => exact beginsWith_message_of_heading .configuration rfl rfl
  | json _ => exact beginsWith_message_of_heading .json rfl rfl
  | yaml => exact beginsWith_message_of_heading .yaml rfl rfl
  | io => exact beginsWith_message_of_heading .io rfl rfl

theorem message_ne_of_initial {d e : Error} (h : d.initial ≠ e.initial) : d.message ≠ e.message :=
  fun heq => h (d.beginsWith_message.unique (heq ▸ e.beginsWith_message))

end Error

/-! ## Refusals -/

variable [Schema.Validator]

/-- A schema refuses with a rejection and nothing else, be it the schema or the value that is wrong.
-/
theorem requireSchema_rejected {schema v : Value} {badSchema badValue : String → Rejection} {e : Error}
    (h : requireSchema schema v badSchema badValue = .error e) : ∃ rejection, e = .rejected rejection := by
  unfold requireSchema at h
  split at h
  · exact ⟨_, (Except.error.inj h).symm⟩
  · split at h
    · exact ⟨_, (Except.error.inj h).symm⟩
    · cases h

/-- A node refuses the context with a rejection. -/
theorem requireContext_rejected {node : String} {schema : Option Value} {context : Value} {e : Error}
    (h : requireContext node schema context = .error e) : ∃ rejection, e = .rejected rejection := by
  cases schema with
  | none => cases h
  | some schema => exact requireSchema_rejected h

/-- A tool refuses its parameters with a rejection. -/
theorem requireParams_rejected {tool : String} {schema : Option Value} {params : Value} {e : Error}
    (h : requireParams tool schema params = .error e) : ∃ rejection, e = .rejected rejection := by
  cases schema with
  | none => cases h
  | some schema => exact requireSchema_rejected h

end Wavefront
