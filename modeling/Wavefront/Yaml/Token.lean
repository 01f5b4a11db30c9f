/-
Tokens of YAML text.

The scanner is a machine that takes one character after another and may look at what follows. It
keeps the columns of the block collections that are open, for columns carry the structure in block
style: whatever begins further left than a collection closes it. It also keeps the place of the last
token that can turn out to be a key, which a colon on the same line does, at most 1024 bytes behind
the beginning of that token. The token of the key is put in front of it then, and with it the token
of a block mapping if the key is the first one in its column.

The part of YAML that is read: block and flow collections, plain, single-quoted and double-quoted
scalars, comments and the markers of documents. Tags, anchors, aliases, block scalars and directives
are refused.
-/
import Wavefront.Json.Token
import Wavefront.Yaml.Fold

set_option autoImplicit false

namespace Wavefront

namespace Yaml

/-- A token. The end of a block collection is a token of its own, which no character stands for. -/
inductive Token where
  | scalar (text : String) (plain : Bool)
  | blockSequence
  | blockMapping
  | blockEnd
  /-- The entry of a block sequence begins. -/
  | entry
  | key
  | value
  | openSequence
  | closeSequence
  | openMapping
  | closeMapping
  | comma
  | documentStart
  | documentEnd
deriving DecidableEq

/-- Inside a double-quoted scalar: between characters, behind a backslash, or in the hexadecimal
digits of an escape, of which some are left. -/
inductive Escape where
  | none
  | begun
  | digits (left : Nat) (value : Nat)

/-- What the scanner is in the middle of. -/
inductive Mode where
  /-- Between tokens. -/
  | gap
  | comment
  /-- In the marker of a document, of which some characters are left. -/
  | marker (left : Nat)
  | plain (scalar : Partial)
  | single (scalar : Partial) (quotePending : Bool)
  | double (scalar : Partial) (escape : Escape)

/-- Where a token begins that may be a key. -/
structure Key where
  /-- The number of tokens in front of it. -/
  index : Nat
  line : Nat
  column : Nat
  /-- The number of bytes in front of it. -/
  bytes : Nat
  /-- Is it a fault if it is none? That is so in the column of a block collection. -/
  required : Bool

/-- The state of the scanner. -/
structure State where
  mode : Mode := .gap
  line : Nat := 0
  column : Nat := 0
  /-- The number of bytes taken. -/
  bytes : Nat := 0
  /-- The columns of the block collections that are open, the innermost first. -/
  columns : List Nat := []
  /-- May the next token be a key, or begin a block collection? -/
  keyAllowed : Bool := true
  /-- What may be a key, in the flow collection that is open or outside of all of them. -/
  key : Option Key := none
  /-- What may be a key around each flow collection that is open, the innermost first. -/
  outerKeys : List (Option Key) := []
  tokens : Array Token := #[]

/-- The marker that a line begins with. -/
def marker? : List Char → Option Token
  | '-' :: '-' :: '-' :: rest => if isGap rest.head? then some .documentStart else none
  | '.' :: '.' :: '.' :: rest => if isGap rest.head? then some .documentEnd else none
  | _ => none

/-- A character that structures flow collections. -/
def isFlowIndicator (c : Char) : Bool :=
  c = ',' || c = '[' || c = ']' || c = '{' || c = '}'

/-- A character that no plain scalar begins with, and neither does another token that is read. -/
def isRefused (c : Char) : Bool :=
  c = '&' || c = '*' || c = '!' || c = '|' || c = '>' || c = '%' || c = '@' || c = '\x60'

namespace State

/-- Is a flow collection open? There, lines need not be indented. -/
def inFlow (s : State) : Bool := !s.outerKeys.isEmpty

/-- The first column behind the one of the innermost block collection. -/
def margin (s : State) : Nat :=
  match s.columns with
  | [] => 0
  | column :: _ => column + 1

def push (s : State) (token : Token) : State :=
  { s with tokens := s.tokens.push token, mode := .gap }

/-! ## Block collections -/

/-- Closes the innermost `n` block collections. -/
def close (s : State) (n : Nat) : State :=
  { s with
    columns := s.columns.drop n
    tokens := s.tokens ++ Array.replicate n .blockEnd }

/-- Closes the block collections further right than the current place. -/
def dedent (s : State) : State :=
  if s.inFlow then s else s.close (s.columns.takeWhile (s.column < ·)).length

/-- Opens a block collection in a column if it is further right than the innermost one. The token
gets the given index. -/
def indent (s : State) (column index : Nat) (token : Token) : State :=
  if s.inFlow || column < s.margin then s
  else
    { s with
      columns := column :: s.columns
      tokens := s.tokens.insertIdxIfInBounds index token }

/-! ## Keys -/

/-- What may have been a key is none. -/
def dropKey (s : State) : Option State :=
  if s.key.any (·.required) then none else some { s with key := none }

/-- What may have been a key is none if the place is too far from it. -/
def dropFarKey (s : State) : Option State :=
  if s.key.any fun key => key.line < s.line || key.bytes + 1024 < s.bytes then s.dropKey else some s

/-- The token that begins at the current place may be a key. -/
def expectKey (s : State) : Option State :=
  if s.keyAllowed then
    s.dropKey.map fun s => { s with
      key := some
        { index := s.tokens.size
          line := s.line
          column := s.column
          bytes := s.bytes
          required := !s.inFlow && s.columns.head? = some s.column } }
  else some s

/-! ## Tokens -/

/-- Takes the marker of a document, of which this is the first character. It closes all block
collections. -/
def takeMarker (s : State) (token : Token) : Option State :=
  if s.inFlow then none
  else (s.close s.columns.length).dropKey.map fun s =>
    { s.push token with mode := .marker 2, keyAllowed := false }

/-- Takes the dash of an entry. -/
def takeEntry (s : State) : Option State :=
  if s.inFlow || !s.keyAllowed then none
  else (s.indent s.column s.tokens.size .blockSequence).dropKey.map fun s =>
    { s.push .entry with keyAllowed := true }

/-- Takes the question mark in front of a key. -/
def takeKey (s : State) : Option State :=
  if !s.inFlow && !s.keyAllowed then none
  else (s.indent s.column s.tokens.size .blockMapping).dropKey.map fun s =>
    { s.push .key with keyAllowed := !s.inFlow }

/-- Takes the colon behind a key. -/
def takeValue (s : State) : Option State :=
  match s.key with
  | some key =>
      let s := { s with tokens := s.tokens.insertIdxIfInBounds key.index .key }
      let s := s.indent key.column key.index .blockMapping
      -- no second key may begin on the line
      some { s.push .value with key := none, keyAllowed := false }
  | none =>
      if !s.inFlow && !s.keyAllowed then none
      else
        let s := s.indent s.column s.tokens.size .blockMapping
        some { s.push .value with keyAllowed := !s.inFlow }

/-- Takes the bracket that opens a flow collection, which as a whole may be a key. -/
def takeOpen (s : State) (token : Token) : Option State :=
  s.expectKey.map fun s =>
    { s.push token with key := none, outerKeys := s.key :: s.outerKeys, keyAllowed := true }

/-- Takes a bracket that closes a flow collection. -/
def takeClose (s : State) (token : Token) : Option State :=
  s.dropKey.map fun s =>
    { s.push token with
      key := s.outerKeys.head?.getD none
      outerKeys := s.outerKeys.tail
      keyAllowed := false }

/-- Takes a comma. -/
def takeComma (s : State) : Option State :=
  s.dropKey.map fun s => { s.push .comma with keyAllowed := true }

/-- Begins a scalar, which may be a key. -/
def takeScalar (s : State) (mode : Mode) : Option State :=
  s.expectKey.map fun s => { s with mode := mode, keyAllowed := false }

/-- Takes the first character of a token. -/
def takeToken (s : State) (c : Char) (rest : List Char) : Option State :=
  let ends := isGap rest.head?
  match if s.column = 0 then marker? (c :: rest) else none with
  | some token => s.takeMarker token
  | none =>
      if c = '[' then s.takeOpen .openSequence
      else if c = '{' then s.takeOpen .openMapping
      else if c = ']' then s.takeClose .closeSequence
      else if c = '}' then s.takeClose .closeMapping
      else if c = ',' then s.takeComma
      else if c = '-' && ends then s.takeEntry
      else if c = '?' && (s.inFlow || ends) then s.takeKey
      else if c = ':' && (s.inFlow || ends) then s.takeValue
      else if c = '\'' then s.takeScalar (.single {} false)
      else if c = '"' then s.takeScalar (.double {} .none)
      else if isRefused c || c = '\t' then none
      else s.takeScalar (.plain (({} : Partial).add c))

/-- Takes a character between tokens. A tab may stand only where no block collection can begin, and
a byte order mark only in front of all else. -/
def inGap (s : State) (c : Char) (rest : List Char) : Option State :=
  if c = ' ' || (c = '\t' && (s.inFlow || !s.keyAllowed)) || (c = '\ufeff' && s.bytes = 0) then
    some s
  else if c = '#' then some { s with mode := .comment }
  else if isBreak c then some { s with keyAllowed := s.keyAllowed || !s.inFlow }
  else s.dropFarKey.bind fun s => s.dedent.takeToken c rest

/-! ## Scalars -/

/-- Ends a plain scalar. Behind its last line a key may begin. -/
def endPlain (s : State) (scalar : Partial) : State :=
  { s.push (.scalar scalar.plainText true) with keyAllowed := s.keyAllowed || scalar.isBroken }

/-- Ends a quoted scalar. -/
def endQuoted (s : State) (scalar : Partial) : State := s.push (.scalar scalar.quotedText false)

/-- Is a plain scalar over in front of what comes next, which white space stands before? -/
def isOver (s : State) (c : Char) (rest : List Char) : Bool :=
  c = '#' || (!s.inFlow && s.column < s.margin) ||
    (s.column = 0 && (marker? (c :: rest)).isSome)

/-- Takes a character inside a plain scalar, or behind it. -/
def inPlain (s : State) (scalar : Partial) (c : Char) (rest : List Char) : Option State :=
  if isBreak c then some { s with mode := .plain (scalar.lineBreak c) }
  else if isBlank c then
    if c = '\t' && scalar.isBroken && s.column < s.margin then none
    else some { s with mode := .plain (scalar.blank c) }
  else if scalar.endsBlank && s.isOver c rest then (s.endPlain scalar).inGap c rest
  else if c = ':' && s.inFlow && rest.head?.any (fun c => isFlowIndicator c || c = '?') then none
  else if (c = ':' && isGap rest.head?) || (s.inFlow && isFlowIndicator c) then
    (s.endPlain scalar).inGap c rest
  else some { s with mode := .plain (scalar.add c) }

/-- Takes a character inside single quotes. -/
def inSingle (s : State) (scalar : Partial) (c : Char) (rest : List Char) : State :=
  if isBreak c then { s with mode := .single (scalar.lineBreak c) false }
  else if isBlank c then { s with mode := .single (scalar.blank c) false }
  else if c = '\'' then
    if rest.head? = some '\'' then { s with mode := .single scalar true } else s.endQuoted scalar
  else { s with mode := .single (scalar.add c) false }

/-- What the character behind a backslash stands for. -/
def escaped? : Char → Option Char
  | '0' => some '\x00'
  | 'a' => some '\x07'
  | 'b' => some '\x08'
  | 't' | '\t' => some '\t'
  | 'n' => some '\n'
  | 'v' => some '\x0b'
  | 'f' => some '\x0c'
  | 'r' => some '\r'
  | 'e' => some '\x1b'
  | ' ' => some ' '
  | '"' => some '"'
  | '/' => some '/'
  | '\\' => some '\\'
  | 'N' => some '\u0085'
  | '_' => some '\u00a0'
  | 'L' => some '\u2028'
  | 'P' => some '\u2029'
  | _ => none

/-- The number of hexadecimal digits that an escape takes. -/
def escapeDigits? : Char → Option Nat
  | 'x' => some 2
  | 'u' => some 4
  | 'U' => some 8
  | _ => none

/-- Takes a character inside double quotes. -/
def inDouble (s : State) (scalar : Partial) (escape : Escape) (c : Char) : Option State :=
  match escape with
  | .digits left value => do
      let value := 16 * value + (← Json.hexDigit? c)
      if 1 < left then some { s with mode := .double scalar (.digits (left - 1) value) }
      else if value.isValidChar then
        some { s with mode := .double (scalar.add (Char.ofNat value)) .none }
      else none
  | .begun =>
      if isBreak c then some { s with mode := .double scalar.escapedBreak .none }
      else match escapeDigits? c, escaped? c with
        | some n, _ => some { s with mode := .double scalar (.digits n 0) }
        | none, some e => some { s with mode := .double (scalar.add e) .none }
        | none, none => none
  | .none =>
      if isBreak c then some { s with mode := .double (scalar.lineBreak c) .none }
      else if isBlank c then some { s with mode := .double (scalar.blank c) .none }
      else if c = '\\' then some { s with mode := .double scalar .begun }
      else if c = '"' then some (s.endQuoted scalar)
      else some { s with mode := .double (scalar.add c) .none }

/-! ## The machine -/

/-- The state one character further on. -/
def advance (s : State) (c : Char) : State :=
  if isBreak c then { s with line := s.line + 1, column := 0, bytes := s.bytes + c.utf8Size }
  else { s with column := s.column + 1, bytes := s.bytes + c.utf8Size }

/-- Is the place in a quoted scalar? No line of it may begin with the marker of a document. -/
def inQuotes (s : State) : Bool :=
  match s.mode with
  | .single _ _ | .double _ _ => true
  | .gap | .comment | .marker _ | .plain _ => false

/-- Takes one character; `rest` is the text behind it. -/
def step (s : State) (c : Char) (rest : List Char) : Option State :=
  if s.inQuotes && s.column = 0 && (marker? (c :: rest)).isSome then none
  else
    let after := match s.mode with
      | .gap => s.inGap c rest
      | .comment => if isBreak c then { s with mode := .gap }.inGap c rest else some s
      | .marker left => some { s with mode := if left ≤ 1 then .gap else .marker (left - 1) }
      | .plain scalar => s.inPlain scalar c rest
      -- the second of two quotes, which stand for one
      | .single scalar true => some { s with mode := .single (scalar.add c) false }
      | .single scalar false => some (s.inSingle scalar c rest)
      | .double scalar escape => s.inDouble scalar escape c
    after.map (·.advance c)

/-- The tokens at the end of the text. No flow collection and no quoted scalar may be open. -/
def finish (s : State) : Option (List Token) :=
  if s.inFlow || s.inQuotes then none
  else
    let s := match s.mode with
      | .plain scalar => s.endPlain scalar
      | _ => s
    s.dropKey.map fun s => (s.close s.columns.length).tokens.toList

/-- Takes all characters. -/
def run (s : State) : List Char → Option (List Token)
  | [] => s.finish
  | c :: rest => (s.step c rest).bind fun s => s.run rest

end State

/-- The tokens of a text. -/
def scan (text : List Char) : Option (List Token) :=
  if text.all isPrintable then ({} : State).run (withLineFeeds text) else none

end Yaml

end Wavefront
