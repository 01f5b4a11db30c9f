/-
Reading settings from JSON text and from YAML text: `from_json_str`, `from_yaml_str` and `load`.

Both readers go through the text field by field and stop at the first fault, so of two faults the
earlier one is reported. A field that is not known is skipped, one that comes twice is a fault, and
what is not given keeps its default. JSON settings may also be an array of the fields in their
order.
-/
import Wavefront.Plan.Reader

set_option autoImplicit false

namespace Wavefront

namespace Settings

/-- The fields of settings. -/
inductive Field where
  | maxRetries
  | defaultTimeoutMs
  | concurrency
  | enableTrace
  | retryBaseDelayMs
  | loopConcurrency
deriving DecidableEq

namespace Field

/-- The fields in their order. -/
def all : List Field :=
  [maxRetries, defaultTimeoutMs, concurrency, enableTrace, retryBaseDelayMs, loopConcurrency]

/-- The name of a field in a document. -/
def name : Field → String
  | maxRetries => "max_retries"
  | defaultTimeoutMs => "default_timeout_ms"
  | concurrency => "concurrency"
  | enableTrace => "enable_trace"
  | retryBaseDelayMs => "retry_base_delay_ms"
  | loopConcurrency => "loop_concurrency"

/-- The field of a name. -/
def ofName? (s : String) : Option Field := all.find? fun f => f.name = s

end Field

/-- Sets a field from a value of its type. -/
def put (s : Settings) (field : Field) (v : Value) : Option Settings :=
  match field, v with
  | .enableTrace, .bool b => some { s with enableTrace := b }
  | .maxRetries, .number n => do return { s with maxRetries := ← n.halfWord? }
  | .defaultTimeoutMs, .number n => do return { s with defaultTimeoutMs := ← n.word? }
  | .concurrency, .number n => do return { s with concurrency := ← n.word? }
  | .retryBaseDelayMs, .number n => do return { s with retryBaseDelayMs := ← n.word? }
  | .loopConcurrency, .number n => do return { s with loopConcurrency := ← n.word? }
  | _, _ => none

/-! ## JSON -/

/-- Sets a field from the token where its value begins. A token that begins no value breaks the
text; one that begins a value of another type breaks the shape. -/
def putToken (s : Settings) (field : Field) (token : Json.Token) : Except Json.Fault Settings :=
  match token with
  | .number (some n) => shaped (s.put field (.number n))
  | .bool b => shaped (s.put field (.bool b))
  | .null | .string (some _) | .openArray | .openObject => .error .wrongShape
  | _ => .error .syntaxError
where
  shaped : Option Settings → Except Json.Fault Settings
    | some s => .ok s
    | none => .error .wrongShape

/-- Nothing may follow the settings. -/
def atEnd (s : Settings) : List Json.Token → Except Json.Fault Settings
  | [] => .ok s
  | _ => .error .syntaxError

/-- Reads the fields of an object from a key on; `seen` are those read already. Every round reads at
least one token, so their number bounds the rounds. -/
def readMembers (rounds : Nat) (s : Settings) (seen : List Field) :
    List Json.Token → Except Json.Fault Settings
  | .string (some key) :: rest =>
      match rounds with
      | 0 => .error .syntaxError
      | rounds + 1 =>
          let next (s : Settings) (seen : List Field) : List Json.Token →
              Except Json.Fault Settings
            | .comma :: rest => readMembers rounds s seen rest
            | .closeObject :: rest => atEnd s rest
            | _ => .error .syntaxError
          match Field.ofName? key with
          | some field =>
              -- a second field of one name is found out before its value is looked at
              if field ∈ seen then .error .wrongShape
              else match rest with
                | .colon :: token :: rest => do
                    next (← s.putToken field token) (field :: seen) rest
                | _ => .error .syntaxError
          | none =>
              match rest with
              | .colon :: rest =>
                  match Json.skipValue rest with
                  | some rest => next s seen rest
                  | none => .error .syntaxError
              | _ => .error .syntaxError
  | _ => .error .syntaxError

/-- Reads the items of an array, from an item on, as the given fields. -/
def readItems (s : Settings) : List Field → List Json.Token → Except Json.Fault Settings
  -- the text is left in the middle of the array, so there is more of it than there should be
  | [], _ => .error .syntaxError
  | field :: fields, token :: rest => do
      let s ← s.putToken field token
      match rest with
      | .comma :: rest => readItems s fields rest
      | .closeArray :: rest => atEnd s rest
      | _ => .error .syntaxError
  | _ :: _, [] => .error .syntaxError

/-- Reads settings from the tokens of a JSON text. -/
def ofTokens : List Json.Token → Except Json.Fault Settings
  | .openObject :: .closeObject :: rest => atEnd {} rest
  | .openObject :: rest => readMembers rest.length {} [] rest
  | .openArray :: .closeArray :: rest => atEnd {} rest
  | .openArray :: rest => readItems {} Field.all rest
  | .null :: _ | .bool _ :: _ | .number (some _) :: _ | .string (some _) :: _ =>
      .error .wrongShape
  | _ => .error .syntaxError

/-! ## YAML -/

/-- The value that a field can take from a node: a Boolean or a natural number that is written as a
plain scalar. -/
def scalarValue? : Yaml.Node → Option Value
  | .scalar text true =>
      match Yaml.bool? text with
      | some b => some (.bool b)
      | none => ((Yaml.natural? text).bind fun n => Number.ofInt? n).map .number
  | _ => none

/-- Reads the pairs of a mapping. -/
def readPairs (s : Settings) (seen : List Field) : List (Yaml.Node × Yaml.Node) → Option Settings
  | [] => some s
  | (key, node) :: rest => do
      match Field.ofName? (← key.key?) with
      | some field =>
          if field ∈ seen then none
          else readPairs (← s.put field (← scalarValue? node)) (field :: seen) rest
      | none => readPairs s seen rest

/-- Reads settings from a YAML document; an empty one sets nothing. -/
def ofNode? : Yaml.Node → Option Settings
  | .mapping pairs => readPairs {} [] pairs
  | .scalar "" true => some {}
  | _ => none

/-! ## Both -/

/-- Reads settings from a text without asking whether they can be used: `from_json_str` and
`from_yaml_str`. -/
def parse (format : Format) (text : String) : Except Error Settings :=
  match format with
  | .json => match ofTokens (Json.scan text) with
    | .ok s => .ok s
    | .error fault => .error (.json fault)
  | .yaml => match (Yaml.parse text).bind ofNode? with
    | some s => .ok s
    | none => .error .yaml

/-- Refuses settings that cannot be used: `validate`. -/
def check (s : Settings) : Except Error Unit :=
  match s.fault? with
  | some fault => .error (.settings fault)
  | none => .ok ()

/-- Reads settings from a text and refuses those that cannot be used. -/
def ofText (format : Format) (text : String) : Except Error Settings := do
  let s ← parse format text
  s.check
  return s

/-- Reads settings from a file, given its name and, if there is such a file, its text: `load`. -/
def ofFile (name : String) (text : Option String) : Except Error Settings :=
  match text with
  | some text => ofText (.ofFileName name) text
  | none => .error .io

end Settings

end Wavefront
