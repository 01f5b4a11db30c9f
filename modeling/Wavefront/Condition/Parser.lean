/-
Parsing conditions (`evaluate_condition` and its parser).

    disjunction := conjunction ( "||" conjunction )*
    conjunction := unary ( "&&" unary )*
    unary       := "!" unary | comparison
    comparison  := operand ( comparison-operator operand )?
    operand     := number | text | name | "(" disjunction ")"

`&&` and `||` group to the left and comparisons do not chain. Each function reads as much as its
rule allows and gives the tokens behind it, which are fewer than it was given: that is all the
recursion rests on. The rules are those of `parse_or`, `parse_and`, `parse_unary`, `parse_compare`
and `parse_primary`, in this order. `depth` counts the negations and parentheses around the tokens
being read, and going deeper than `depthLimit` is an error even if the condition would turn out
malformed later.
-/
import Wavefront.Condition.Expr
import Wavefront.Template

set_option autoImplicit false

namespace Wavefront

namespace Condition

/-- An expression read off the head of some tokens, and the fewer tokens behind it. -/
structure Read (tokens : List Token) where
  expr : Expr
  rest : List Token
  shorter : rest.length < tokens.length

/-- The reading with another expression, seen from a list of more tokens. -/
def Read.widen {tokens more : List Token} (r : Read tokens) (e : Expr)
    (h : tokens.length ≤ more.length) : Read more :=
  ⟨e, r.rest, Nat.lt_of_lt_of_le r.shorter h⟩

/-- A number as an operand: `number`. One that is not finite counts as null. -/
def numberValue (x : Binary64) : Value :=
  match Number.ofBinary64? x with
  | some n => .number n
  | none => .null

mutual

/-- `conjunction ( "||" conjunction )*` -/
def disjunction (depth : Nat) (tokens : List Token) : Except Fault (Read tokens) := do
  let first ← conjunction depth tokens
  disjunctionFrom depth first
termination_by (tokens.length, 4)
decreasing_by
  · exact Prod.Lex.right _ (by decide)
  · exact Prod.Lex.left _ _ first.shorter

/-- The rest of a disjunction, behind what has been read of it. -/
def disjunctionFrom (depth : Nat) {tokens : List Token} :
    Read tokens → Except Fault (Read tokens)
  | ⟨e, .or :: rest, shorter⟩ => do
      let right ← conjunction depth rest
      disjunctionFrom depth (right.widen (.or e right.expr) (Nat.le_of_lt (Nat.lt_of_succ_lt shorter)))
  | left => return left
termination_by left => (left.rest.length, 5)
decreasing_by
  · exact Prod.Lex.left _ _ (Nat.lt_succ_self _)
  · exact Prod.Lex.left _ _ (Nat.lt_succ_of_lt right.shorter)

/-- `unary ( "&&" unary )*` -/
def conjunction (depth : Nat) (tokens : List Token) : Except Fault (Read tokens) := do
  let first ← unary depth tokens
  conjunctionFrom depth first
termination_by (tokens.length, 3)
decreasing_by
  · exact Prod.Lex.right _ (by decide)
  · exact Prod.Lex.left _ _ first.shorter

/-- The rest of a conjunction, behind what has been read of it. -/
def conjunctionFrom (depth : Nat) {tokens : List Token} :
    Read tokens → Except Fault (Read tokens)
  | ⟨e, .and :: rest, shorter⟩ => do
      let right ← unary depth rest
      conjunctionFrom depth (right.widen (.and e right.expr) (Nat.le_of_lt (Nat.lt_of_succ_lt shorter)))
  | left => return left
termination_by left => (left.rest.length, 5)
decreasing_by
  · exact Prod.Lex.left _ _ (Nat.lt_succ_self _)
  · exact Prod.Lex.left _ _ (Nat.lt_succ_of_lt right.shorter)

/-- `"!" unary | comparison` -/
def unary (depth : Nat) : (tokens : List Token) → Except Fault (Read tokens)
  | .not :: rest => do
      -- the depth counts before what follows is read, which may be malformed
      if depthLimit ≤ depth then throw .tooDeep
      let inner ← unary (depth + 1) rest
      return inner.widen (.not inner.expr) (Nat.le_succ _)
  | tokens => comparison depth tokens
termination_by tokens => (tokens.length, 2)

/-- `operand ( comparison-operator operand )?` -/
def comparison (depth : Nat) (tokens : List Token) : Except Fault (Read tokens) := do
  match ← operand depth tokens with
  | ⟨e, .compare c :: rest, shorter⟩ =>
      let right ← operand depth rest
      return right.widen (.compare c e right.expr) (Nat.le_of_lt (Nat.lt_of_succ_lt shorter))
  | left => return left
termination_by (tokens.length, 1)
decreasing_by
  · exact Prod.Lex.right _ (by decide)
  · exact Prod.Lex.left _ _ (Nat.lt_of_succ_lt shorter)

/-- `number | text | name | "(" disjunction ")"` -/
def operand (depth : Nat) : (tokens : List Token) → Except Fault (Read tokens)
  | .number x :: rest => return ⟨.constant (numberValue x), rest, Nat.lt_succ_self _⟩
  | .text s :: rest => return ⟨.constant (.string s), rest, Nat.lt_succ_self _⟩
  | .name s :: rest => return ⟨.name s, rest, Nat.lt_succ_self _⟩
  | .openParen :: rest => do
      if depthLimit ≤ depth then throw .tooDeep
      match ← disjunction (depth + 1) rest with
      | ⟨e, .closeParen :: behind, shorter⟩ =>
          return ⟨e, behind, Nat.lt_succ_of_lt (Nat.lt_of_succ_lt shorter)⟩
      | _ => throw .missingClose
  | token :: _ => throw (.unexpected token)
  | [] => throw .unexpectedEnd
termination_by tokens => (tokens.length, 0)

end

/-- The expression that a whole list of tokens is; `input` is their text, which a message quotes. -/
def parse (input : String) (tokens : List Token) : Except Fault Expr := do
  if tokens = [] then throw .empty
  let result ← disjunction 0 tokens
  if result.rest ≠ [] then throw (.trailing input)
  return result.expr

/-- Does a condition hold in a context? This is `evaluate_condition`. One that is a whole template
asks whether the value at its path counts as true. Any other has its markers replaced first and is
parsed then. -/
def evaluate (ctx : Value) (text : String) : Except Fault Bool :=
  let trimmed := Text.trim text.toList
  match Template.wholePath? trimmed with
  | some path => return (ctx.resolve (String.ofList path)).any Value.truthy
  | none => do
      let input := Template.interpolate ctx (String.ofList trimmed)
      let expr ← parse input (← scan input)
      return (expr.eval ctx).truthy

end Condition

end Wavefront
