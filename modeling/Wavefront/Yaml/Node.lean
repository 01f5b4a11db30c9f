/-
Documents of YAML: trees of scalars, sequences and mappings.

A plain scalar is not given a type yet: that depends on what is wanted of it. A node that is not
there, such as the value behind a colon that nothing follows, is a plain scalar without any text.
-/
import Wavefront.Yaml.Token

set_option autoImplicit false

namespace Wavefront

namespace Yaml

/-- A node of a document. -/
inductive Node where
  | scalar (text : String) (plain : Bool)
  | sequence (items : List Node)
  | mapping (pairs : List (Node × Node))
deriving Inhabited

/-- A node without any text. -/
def Node.empty : Node := .scalar "" true

/-- Where a node stands, which decides about the block collections that it can be. -/
inductive Position where
  /-- In a flow collection, where there are none. -/
  | flow
  /-- Behind the dash of an entry, or the whole document. -/
  | entry
  /-- The key or the value of a pair in block style. It may be a sequence that is not indented more
  than the pair, whose beginning and end no token marks. -/
  | member
deriving DecidableEq

/-- Is no node in front of the token? -/
def Position.lacks (position : Position) (token : Token) : Bool :=
  match position with
  | flow => token ∈ [.value, .comma, .closeSequence, .closeMapping]
  | entry => token ∈ [.entry, .key, .value, .blockEnd]
  | member => token ∈ [.key, .value, .blockEnd]

mutual

/-- Reads a node off the tokens, and gives the tokens behind it. -/
def readNode : (fuel : Nat) → Position → List Token → Option (Node × List Token)
  | fuel + 1, position, token :: rest =>
      match token with
      | .scalar text plain => some (.scalar text plain, rest)
      | .openSequence => (readFlowItems fuel rest).map fun (items, rest) => (.sequence items, rest)
      | .openMapping => (readFlowPairs fuel rest).map fun (pairs, rest) => (.mapping pairs, rest)
      | .blockSequence =>
          if position = .flow then none
          else do
            let (items, rest) ← readEntries fuel rest
            match rest with
            | .blockEnd :: rest => some (.sequence items, rest)
            | _ => none
      | .blockMapping =>
          if position = .flow then none
          else (readPairs fuel rest).map fun (pairs, rest) => (.mapping pairs, rest)
      | .entry =>
          if position = .member then
            (readEntries fuel (token :: rest)).map fun (items, rest) => (.sequence items, rest)
          else none
      | _ => none
  | _, _, _ => none

/-- Reads a node that need not be there. -/
def readOptional : (fuel : Nat) → Position → List Token → Option (Node × List Token)
  | fuel + 1, position, tokens =>
      if tokens.head?.any position.lacks then some (.empty, tokens)
      else readNode fuel position tokens
  | 0, _, _ => none

/-- Reads the entries of a block sequence, as many as there are. -/
def readEntries : (fuel : Nat) → List Token → Option (List Node × List Token)
  | fuel + 1, .entry :: rest => do
      let (item, rest) ← readOptional fuel .entry rest
      let (items, rest) ← readEntries fuel rest
      return (item :: items, rest)
  | _ + 1, rest => some ([], rest)
  | 0, _ => none

/-- Reads the value of a pair, if a colon begins it. -/
def readValue : (fuel : Nat) → Position → List Token → Option (Node × List Token)
  | fuel + 1, position, .value :: rest => readOptional fuel position rest
  | _ + 1, _, rest => some (.empty, rest)
  | 0, _, _ => none

/-- Reads the pairs of a block mapping and its end. -/
def readPairs : (fuel : Nat) → List Token → Option (List (Node × Node) × List Token)
  | fuel + 1, .key :: rest => do
      let (key, rest) ← readOptional fuel .member rest
      let (value, rest) ← readValue fuel .member rest
      let (pairs, rest) ← readPairs fuel rest
      return ((key, value) :: pairs, rest)
  | _ + 1, .blockEnd :: rest => some ([], rest)
  | _, _ => none

/-- Reads the items of a flow sequence and its end. An item may be a single pair. If its key is not
there, the token in its place is passed over. -/
def readFlowItems : (fuel : Nat) → List Token → Option (List Node × List Token)
  | _ + 1, .closeSequence :: rest => some ([], rest)
  | fuel + 1, tokens => do
      let (item, rest) ← match tokens with
        | .key :: rest => do
            let (key, rest) ← match rest with
              | .value :: rest | .comma :: rest | .closeSequence :: rest => some (.empty, rest)
              | rest => readNode fuel .flow rest
            let (value, rest) ← readValue fuel .flow rest
            some (Node.mapping [(key, value)], rest)
        | tokens => readNode fuel .flow tokens
      match rest with
      | .comma :: rest => do
          let (items, rest) ← readFlowItems fuel rest
          return (item :: items, rest)
      | .closeSequence :: rest => return ([item], rest)
      | _ => none
  | 0, _ => none

/-- Reads the pairs of a flow mapping and its end. A node that is not marked as a key has no
value. -/
def readFlowPairs : (fuel : Nat) → List Token → Option (List (Node × Node) × List Token)
  | _ + 1, .closeMapping :: rest => some ([], rest)
  | fuel + 1, tokens => do
      let (key, value, rest) ← match tokens with
        | .key :: rest => do
            let (key, rest) ← readOptional fuel .flow rest
            let (value, rest) ← readValue fuel .flow rest
            some (key, value, rest)
        | tokens => (readNode fuel .flow tokens).map fun (key, rest) => (key, .empty, rest)
      match rest with
      | .comma :: rest => do
          let (pairs, rest) ← readFlowPairs fuel rest
          return ((key, value) :: pairs, rest)
      | .closeMapping :: rest => return ([(key, value)], rest)
      | _ => none
  | 0, _ => none

end

/-- Reads the node of a document, which a marker may come before. -/
def readDocument (fuel : Nat) : List Token → Option (Node × List Token)
  | [] => some (.empty, [])
  | .documentStart :: rest =>
      match rest with
      | [] | .documentStart :: _ | .documentEnd :: _ => some (.empty, rest)
      | rest => readNode fuel .entry rest
  | rest => readNode fuel .entry rest

/-- The document of some tokens. Behind it there may be markers that end it, but no second
document. A token is read in at most three calls, so four times their number bounds the calls. -/
def Node.ofTokens? (tokens : List Token) : Option Node := do
  let (node, rest) ← readDocument (4 * tokens.length + 4) tokens
  if rest.all (· = .documentEnd) then some node else none

/-- The document of a text; a text that says nothing has an empty one. -/
def parse (text : String) : Option Node := (scan text.toList).bind Node.ofTokens?

end Yaml

end Wavefront
