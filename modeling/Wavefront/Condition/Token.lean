/-
Tokens of conditions (`tokenize`).

Cutting a text into tokens needs one thing from what went before: a minus sign in front of a digit
is a sign only where an operand may begin, that is at the start, behind an operator and behind an
opening parenthesis. Anywhere else it is no token at all.
-/
import Wavefront.Binary64.Text

set_option autoImplicit false

namespace Wavefront

namespace Condition

/-- The comparisons. -/
inductive Comparison where
  /-- Equal after conversion to numbers. -/
  | equal
  | unequal
  /-- Equal without conversion. -/
  | identical
  | distinct
  | less
  | atMost
  | greater
  | atLeast
deriving DecidableEq

/-- The tokens of a condition: `Token`, with the twelve `OPERATORS` told apart. -/
inductive Token where
  | number (x : Binary64)
  | text (s : String)
  | name (s : String)
  | compare (c : Comparison)
  | and
  | or
  | not
  | openParen
  | closeParen
deriving DecidableEq

/-- How a comparison is written. -/
def Comparison.spelling : Comparison → String
  | equal => "=="
  | unequal => "!="
  | identical => "==="
  | distinct => "!=="
  | less => "<"
  | atMost => "<="
  | greater => ">"
  | atLeast => ">="

/-- Why a text is no condition: the messages of `PlanError` for conditions, as data. -/
inductive Fault where
  | openText (input : String)
  | badNumber (literal : String)
  | assignment (input : String)
  | strangeCharacter (c : Char) (input : String)
  | tooDeep
  | missingClose
  | unexpected (token : Token)
  | unexpectedEnd
  | empty
  | trailing (input : String)
deriving DecidableEq

/-- The deepest nesting of negations and parentheses: `MAX_CONDITION_DEPTH`. -/
def depthLimit : Nat := 64

/-- A token as a message shows it. Only operators and the closing parenthesis are ever shown, the
other tokens having a meaning wherever an operand is wanted. -/
def Token.shown : Token → String
  | compare c => "Op(\"" ++ c.spelling ++ "\")"
  | and => "Op(\"&&\")"
  | or => "Op(\"||\")"
  | not => "Op(\"!\")"
  | closeParen => "RParen"
  | openParen => "LParen"
  | number x => "Number(" ++ x.text ++ ")"
  | text s => "Str(" ++ s ++ ")"
  | name s => "Ident(" ++ s ++ ")"

/-- The text of a fault. -/
def Fault.message : Fault → String
  | openText input => "unterminated string literal in '" ++ input ++ "'"
  | badNumber literal => "invalid number '" ++ literal ++ "'"
  | assignment input => "assignment is not allowed in condition '" ++ input ++ "'"
  | strangeCharacter c input =>
      "unexpected character '" ++ String.singleton c ++ "' in condition '" ++ input ++ "'"
  | tooDeep => "condition nests deeper than " ++ toString depthLimit ++ " levels"
  | missingClose => "expected ')'"
  | unexpected token => "unexpected token " ++ token.shown
  | unexpectedEnd => "unexpected end of condition"
  | empty => "empty condition"
  | trailing input => "trailing input in condition '" ++ input ++ "'"

/-! ## Scanning -/

/-- May an operand begin behind this token? So `starts_operand` decides about a minus sign. -/
def Token.beforeOperand : Token → Bool
  | compare _ | and | or | not | openParen => true
  | _ => false

/-- A character that goes on with a number. -/
def inNumber (c : Char) : Bool := Text.isDigit c || c = '.'

/-- A character that a name begins with. -/
def beginsName (c : Char) : Bool := Text.isLetter c || c = '_' || c = '$'

/-- A character that goes on with a name. -/
def inName (c : Char) : Bool :=
  Text.isLetter c || Text.isNumeral c || c = '_' || c = '$' || c = '.' || c = '[' || c = ']'

/-- The rest of a quoted text up to its closing quote, with the backslashes resolved, and what
follows the quote. Behind a backslash any character stands for itself, the quote as well. -/
def scanText (quote : Char) : List Char → Option (List Char × List Char)
  | [] => none
  | '\\' :: c :: rest => (scanText quote rest).map fun (text, rest) => (c :: text, rest)
  | c :: rest =>
      if c = quote then some ([], rest)
      else (scanText quote rest).map fun (text, rest) => (c :: text, rest)

/-- The operator at the head of a text, the longest one that fits, and what follows it. -/
def scanOperator : List Char → Option (Token × List Char)
  | '=' :: '=' :: '=' :: rest => some (.compare .identical, rest)
  | '!' :: '=' :: '=' :: rest => some (.compare .distinct, rest)
  | '=' :: '=' :: rest => some (.compare .equal, rest)
  | '!' :: '=' :: rest => some (.compare .unequal, rest)
  | '<' :: '=' :: rest => some (.compare .atMost, rest)
  | '>' :: '=' :: rest => some (.compare .atLeast, rest)
  | '&' :: '&' :: rest => some (.and, rest)
  | '|' :: '|' :: rest => some (.or, rest)
  | '<' :: rest => some (.compare .less, rest)
  | '>' :: rest => some (.compare .greater, rest)
  | '!' :: rest => some (.not, rest)
  | _ => none

/-- Does a number begin with the character `c` in front of `rest`? -/
def beginsNumber (operandNext : Bool) (c : Char) (rest : List Char) : Bool :=
  Text.isDigit c || (c = '-' && operandNext && rest.head?.any Text.isDigit)

/-- One token at the head of a text that does not start with a blank, and what follows it. -/
def scanToken (input : String) (operandNext : Bool) (c : Char) (rest : List Char) :
    Except Fault (Token × List Char) :=
  if c = '(' then .ok (.openParen, rest)
  else if c = ')' then .ok (.closeParen, rest)
  else if c = '\'' ∨ c = '"' then
    match scanText c rest with
    | some (text, rest) => .ok (.text (String.ofList text), rest)
    | none => .error (.openText input)
  else if beginsNumber operandNext c rest then
    let literal := c :: rest.takeWhile inNumber
    match Binary64.ofText? literal with
    | some x => .ok (.number x, rest.dropWhile inNumber)
    | none => .error (.badNumber (String.ofList literal))
  else if beginsName c then
    .ok (.name (String.ofList (c :: rest.takeWhile inName)), rest.dropWhile inName)
  else match scanOperator (c :: rest) with
    | some result => .ok result
    | none => .error (if c = '=' then .assignment input else .strangeCharacter c input)

/-- A quoted text takes at least what it holds off its input. -/
theorem length_scanText {quote : Char} {cs text rest : List Char}
    (h : scanText quote cs = some (text, rest)) : rest.length ≤ cs.length := by
  fun_induction scanText quote cs generalizing text rest with
  | case1 => simp at h
  | case2 c cs ih =>
    obtain ⟨⟨t, r⟩, hs, h⟩ := Option.map_eq_some_iff.1 h
    obtain ⟨-, rfl⟩ := Prod.mk.inj h
    have := ih hs
    simp only [List.length_cons]
    omega
  | case3 => simp_all
  | case4 c cs _ _ ih =>
    obtain ⟨⟨t, r⟩, hs, h⟩ := Option.map_eq_some_iff.1 h
    obtain ⟨-, rfl⟩ := Prod.mk.inj h
    have := ih hs
    simp only [List.length_cons]
    omega

/-- An operator takes characters off its input. -/
theorem length_scanOperator {cs rest : List Char} {token : Token}
    (h : scanOperator cs = some (token, rest)) : rest.length < cs.length := by
  unfold scanOperator at h
  split at h
  all_goals first
    | contradiction
    | (obtain ⟨-, rfl⟩ := Prod.mk.inj (Option.some.inj h)
       simp only [List.length_cons]
       omega)

/-- A token leaves no more than there was behind its first character: the measure of `scanFrom`. -/
theorem length_scanToken {input : String} {operandNext : Bool} {c : Char} {cs rest : List Char}
    {token : Token} (h : scanToken input operandNext c cs = .ok (token, rest)) :
    rest.length ≤ cs.length := by
  unfold scanToken at h
  have hnumber := Text.length_dropWhile_le inNumber cs
  have hname := Text.length_dropWhile_le inName cs
  split at h
  · obtain ⟨-, rfl⟩ := Prod.mk.inj (Except.ok.inj h); exact Nat.le_refl _
  split at h
  · obtain ⟨-, rfl⟩ := Prod.mk.inj (Except.ok.inj h); exact Nat.le_refl _
  split at h
  · split at h
    · rename_i hs
      obtain ⟨-, rfl⟩ := Prod.mk.inj (Except.ok.inj h)
      exact length_scanText hs
    · contradiction
  split at h
  · simp only at h
    split at h
    · obtain ⟨-, rfl⟩ := Prod.mk.inj (Except.ok.inj h); exact hnumber
    · contradiction
  split at h
  · obtain ⟨-, rfl⟩ := Prod.mk.inj (Except.ok.inj h); exact hname
  split at h
  · rename_i hs
    have := length_scanOperator (Except.ok.inj h ▸ hs)
    simp only [List.length_cons] at this
    omega
  · contradiction

/-- The tokens of a text; `operandNext` says whether an operand may begin here. -/
def scanFrom (input : String) (operandNext : Bool) (cs : List Char) : Except Fault (List Token) :=
  match cs with
  | [] => .ok []
  | c :: rest =>
      if Text.isBlank c then scanFrom input operandNext rest
      else
        match _scanned : scanToken input operandNext c rest with
        | .error fault => .error fault
        | .ok (token, rest') =>
            (scanFrom input token.beforeOperand rest').map fun tokens => token :: tokens
termination_by cs.length
decreasing_by
  · simp
  · have := length_scanToken _scanned
    simp only [List.length_cons]
    omega

/-- The tokens of a condition: `tokenize`. -/
def scan (input : String) : Except Fault (List Token) := scanFrom input true input.toList

end Condition

end Wavefront
