/-
Printed tokens: scanning gives back what was printed.

A lexeme is a token together with how it is written: a number is written with digits, which may be
more than its own, and a text in quotes. Printing puts one space between two lexemes. A token is cut
off at the first character that does not go on with it, and a space goes on with none but a quoted
text, whose end is the first quote that no backslash stands in front of. So every lexeme is cut off
where it was printed, whatever follows, and the scan is a walk along the list.
-/
import Mathlib
import Wavefront.Proofs.Binary64.Nearest
import Wavefront.Proofs.Condition.Scan
import Wavefront.Proofs.Text.Numeral

set_option autoImplicit false

namespace Wavefront

/-! ## Runs of digits as numbers -/

namespace Binary64

/-- Without a power of ten it is the significand that is rounded. -/
theorem roundDecimal_zero (n : Nat) : roundDecimal n 0 = roundRatio n 1 := by
  rcases Nat.eq_zero_or_pos n with rfl | hn
  · rfl
  · rw [roundDecimal, if_neg hn.ne', if_neg (by decide), if_neg (by omega), if_pos (by decide)]
    exact congrArg (fun m => roundRatio m 1) (Nat.mul_one n)

/-- A run of digits is read as the number nearest to what it denotes. -/
theorem ofText?_of_digits {cs : List Char} (hne : cs ≠ []) (h : ∀ c ∈ cs, Text.isDigit c = true) :
    ofText? cs = some (ofInt (Text.digitsValue cs)) := by
  rw [ofText?, Text.literal?_of_digits hne h, Option.map_some, ofLiteral, roundDecimal_zero, ofInt,
    Int.natAbs_natCast, decide_eq_false (by omega)]

end Binary64

namespace Condition

/-! ## Lexemes -/

/-- Characters of which the first one begins something and the others go on with it. -/
structure Word (begins goesOn : Char → Bool) where
  first : Char
  rest : List Char
  begins_first : begins first = true
  goesOn_rest : ∀ c ∈ rest, goesOn c = true

/-- The characters of a word. -/
def Word.chars {begins goesOn : Char → Bool} (word : Word begins goesOn) : List Char :=
  word.first :: word.rest

/-- A token together with how it is written. -/
inductive Lexeme where
  | numeral (digits : Word Text.isDigit Text.isDigit)
  | text (content : String)
  | name (word : Word beginsName inName)
  | compare (c : Comparison)
  | and
  | or
  | not
  | openParen
  | closeParen

/-- The token that is written. -/
def Lexeme.token : Lexeme → Token
  | numeral digits => .number (Binary64.ofInt (Text.digitsValue digits.chars))
  | text content => .text content
  | name word => .name (String.ofList word.chars)
  | compare c => .compare c
  | and => .and
  | or => .or
  | not => .not
  | openParen => .openParen
  | closeParen => .closeParen

/-- A text with a backslash in front of each single quote, each backslash and each of the other
characters that `also` names. -/
def escape (also : Char → Bool) (content : List Char) : List Char :=
  content.flatMap fun c => if c = '\'' ∨ c = '\\' ∨ also c = true then ['\\', c] else [c]

/-- How the token is written. -/
def Lexeme.spelling (also : Char → Bool) : Lexeme → List Char
  | numeral digits => digits.chars
  | text content => '\'' :: (escape also content.toList ++ ['\''])
  | name word => word.chars
  | compare c => c.spelling.toList
  | and => "&&".toList
  | or => "||".toList
  | not => "!".toList
  | openParen => ['(']
  | closeParen => [')']

/-- The lexemes with one space between two of them. -/
def printed (also : Char → Bool) (lexemes : List Lexeme) : List Char :=
  [' '].intercalate (lexemes.map (Lexeme.spelling also))

/-! ## Where a lexeme ends -/

section Lexeme

variable {input : String} {operandNext : Bool} {also : Char → Bool} {c : Char}
  {behind : List Char}

/-- A run of characters ends where the next one is not of its kind. -/
theorem Ends.takeWhile_append {p : Char → Bool} {cs : List Char} (h : Ends behind)
    (hspace : p ' ' = false) (hcs : ∀ c ∈ cs, p c = true) :
    (cs ++ behind).takeWhile p = cs ∧ (cs ++ behind).dropWhile p = behind := by
  rw [List.takeWhile_append_of_pos hcs, List.dropWhile_append_of_pos hcs]
  cases h with
  | nil => exact ⟨List.append_nil _, rfl⟩
  | space rest =>
    rw [List.takeWhile_cons_of_neg (by simp [hspace]), List.dropWhile_cons_of_neg (by simp [hspace])]
    exact ⟨List.append_nil _, rfl⟩

/-- What is escaped spells the text. -/
theorem spells_escape (also : Char → Bool) (content : List Char) :
    Spells '\'' (escape also content) content := by
  induction content with
  | nil => exact .nil
  | cons c content ih =>
    rw [escape, List.flatMap_cons]
    split
    · exact .escaped ih
    · next hnot =>
      rw [not_or, not_or] at hnot
      exact .plain hnot.1 hnot.2.1 ih

/-- Where a digit stands a number is scanned as far as it goes. -/
theorem scanToken_number {rest : List Char} {x : Binary64} (hc : Text.isDigit c = true)
    (hx : Binary64.ofText? (c :: rest.takeWhile inNumber) = some x) (input : String)
    (operandNext : Bool) :
    scanToken input operandNext c rest = .ok (.number x, rest.dropWhile inNumber) := by
  have hne : ∀ d, Text.isDigit d = false → c ≠ d := by
    rintro d hd rfl
    rw [hd] at hc
    contradiction
  have hnumber : beginsNumber operandNext c rest = true := by rw [beginsNumber, hc, Bool.true_or]
  have hquote : ¬(c = '\'' ∨ c = '"') := not_or.2 ⟨hne _ (by decide), hne _ (by decide)⟩
  rw [scanToken, if_neg (hne '(' (by decide)), if_neg (hne ')' (by decide)), if_neg hquote,
    if_pos hnumber]
  dsimp only
  rw [hx]

/-- A lexeme is cut off where it ends. -/
theorem Lexeme.exists_scanToken (lexeme : Lexeme) (hends : Ends behind) (input : String)
    (operandNext : Bool) :
    ∃ c rest, lexeme.spelling also ++ behind = c :: rest ∧ Text.isBlank c = false ∧
      scanToken input operandNext c rest = .ok (lexeme.token, behind) := by
  cases lexeme with
  | numeral digits =>
    obtain ⟨c, rest, hc, hrest⟩ := digits
    -- the scanner would take points along, and a space is neither a digit nor a point
    have hnumber : ∀ d ∈ rest, inNumber d = true := by
      intro d hd
      rw [inNumber, hrest d hd, Bool.true_or]
    obtain ⟨htake, hdrop⟩ := hends.takeWhile_append (by decide) hnumber
    have hx := Binary64.ofText?_of_digits (List.cons_ne_nil c rest) (List.forall_mem_cons.2 ⟨hc, hrest⟩)
    rw [← htake] at hx
    refine ⟨c, rest ++ behind, rfl, Text.isBlank_of_isDigit hc, ?_⟩
    rw [scanToken_number hc hx, hdrop, htake]
    rfl
  | text content =>
    have hspelled := spells_escape also content.toList
    refine ⟨'\'', escape also content.toList ++ '\'' :: behind, ?_, by decide, ?_⟩
    · simp [spelling]
    · rw [scanToken_text hspelled (.inl rfl), String.ofList_toList]
      rfl
  | name word =>
    obtain ⟨c, rest, hc, hrest⟩ := word
    obtain ⟨htake, hdrop⟩ := hends.takeWhile_append (by decide) hrest
    refine ⟨c, rest ++ behind, rfl, isBlank_of_inName (inName_of_beginsName hc), ?_⟩
    rw [scanToken_name hc, htake, hdrop]
    rfl
  | compare | and | or | not => exact exists_scanToken_operator rfl hends input operandNext
  | openParen | closeParen => exact ⟨_, behind, rfl, by decide, rfl⟩

end Lexeme

/-! ## The walk along the list -/

section Printed

variable {also : Char → Bool}

/-- What is printed behind a lexeme ends it, and is scanned like the other lexemes. -/
theorem exists_printed_cons (also : Char → Bool) (lexeme : Lexeme) (lexemes : List Lexeme) :
    ∃ behind, Ends behind ∧ printed also (lexeme :: lexemes) = lexeme.spelling also ++ behind ∧
      ∀ input operandNext,
        scanFrom input operandNext behind = scanFrom input operandNext (printed also lexemes) := by
  cases lexemes with
  | nil =>
    refine ⟨[], .nil, ?_, fun _ _ => rfl⟩
    simp [printed]
  | cons next lexemes =>
    refine ⟨' ' :: printed also (next :: lexemes), .space _, ?_, fun _ _ => scanFrom_blank (by decide)⟩
    simp [printed]

/-- The printed lexemes are scanned as their tokens. -/
theorem scanFrom_printed (input : String) (lexemes : List Lexeme) (operandNext : Bool) :
    scanFrom input operandNext (printed also lexemes) = .ok (lexemes.map Lexeme.token) := by
  induction lexemes generalizing operandNext with
  | nil => simp [printed, scanFrom]
  | cons lexeme lexemes ih =>
    obtain ⟨behind, hends, hprinted, hbehind⟩ := exists_printed_cons also lexeme lexemes
    obtain ⟨c, rest, htext, hc, hscanned⟩ := lexeme.exists_scanToken hends input operandNext
    rw [hprinted, htext, scanFrom_token hc hscanned, hbehind, ih]
    rfl

end Printed

/-- **Printed tokens are scanned as they are.** Whatever lexemes are printed with single spaces
between them, and whichever characters inside quotes have a needless backslash, the scan gives their
tokens, all of them and in their order. A numeral gives the number nearest to what its digits
denote. -/
theorem scan_printed (also : Char → Bool) (lexemes : List Lexeme) :
    scan (String.ofList (printed also lexemes)) = .ok (lexemes.map Lexeme.token) ∧
      ∀ digits, .numeral digits ∈ lexemes →
        ∃ x, (Lexeme.numeral digits).token = .number x ∧
          x.IsNearestTo (Text.digitsValue digits.chars) := by
  constructor
  · rw [scan, String.toList_ofList]
    exact scanFrom_printed _ lexemes true
  · intro digits _
    exact ⟨_, rfl, Binary64.isNearestTo_ofInt _⟩

/-- Only the single quote needs its backslash, and a numeral may have zeros in front. -/
example :
    String.ofList (printed (fun _ => false)
      [.openParen, .text "it's", .closeParen, .compare .atMost,
        .numeral ⟨'0', ['7'], rfl, List.forall_mem_singleton.2 rfl⟩]) = "( 'it\\'s' ) <= 07" := by cbv

end Condition

end Wavefront
