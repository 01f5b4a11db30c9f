/-
Scanning conditions: what stands in a text whose tokens are known, and which tokens a text has.

The scanner passes over blanks and cuts off one token after the other. Both are said once, as
equations (`scanFrom_blank`, `scanFrom_token`) and as what follows from a list of tokens
(`scanFrom_eq_ok_nil_iff`, `exists_of_scanFrom_cons`). Names end where they do because no blank goes
on with one. Inside quotes a text is spelled: `Spells` is how, and the scanner reads exactly what is
spelled up to the first quote that ends it.
-/
import Mathlib.Data.List.TakeWhile
import Wavefront.Condition.Token
import Wavefront.Proofs.Text.Blank

set_option autoImplicit false

namespace Wavefront

namespace Condition

section Scan

variable {input : String} {operandNext : Bool} {c : Char} {cs rest rest' : List Char}
  {token : Token} {tokens : List Token}

/-! ## Blanks and tokens -/

theorem scanFrom_blank (h : Text.isBlank c = true) :
    scanFrom input operandNext (c :: rest) = scanFrom input operandNext rest := by
  rw [scanFrom, if_pos h]

/-- Blanks are passed over, however many there are. -/
theorem scanFrom_append_blanks {front : List Char} (h : ∀ c ∈ front, Text.isBlank c = true) :
    scanFrom input operandNext (front ++ rest) = scanFrom input operandNext rest := by
  induction front with
  | nil => rfl
  | cons c front ih =>
    obtain ⟨hc, hfront⟩ := List.forall_mem_cons.1 h
    rw [List.cons_append, scanFrom_blank hc, ih hfront]

/-- A token is cut off, and says whether an operand may begin behind it. -/
theorem scanFrom_token (hc : Text.isBlank c = false)
    (h : scanToken input operandNext c rest = .ok (token, rest')) :
    scanFrom input operandNext (c :: rest)
      = (scanFrom input token.beforeOperand rest').map fun tokens => token :: tokens := by
  rw [scanFrom, if_neg (by simp [hc])]
  split
  · next fault heq => simp [h] at heq
  · next token' behind heq =>
    obtain ⟨rfl, rfl⟩ := Prod.mk.inj (Except.ok.inj (h.symm.trans heq))
    rfl

/-- A text that does not begin with a blank begins with a token. -/
theorem exists_of_scanFrom (hc : Text.isBlank c = false)
    (h : scanFrom input operandNext (c :: rest) = .ok tokens) :
    ∃ token rest' behind, scanToken input operandNext c rest = .ok (token, rest') ∧
      scanFrom input token.beforeOperand rest' = .ok behind ∧ tokens = token :: behind := by
  rw [scanFrom, if_neg (by simp [hc])] at h
  split at h
  · contradiction
  · next token rest' hscanned =>
    cases hbehind : scanFrom input token.beforeOperand rest' with
    | error fault => simp [hbehind, Except.map] at h
    | ok behind =>
      rw [hbehind] at h
      exact ⟨token, rest', behind, hscanned, hbehind, (Except.ok.inj h).symm⟩

/-- The text begins with a token, blanks aside, and has the other tokens behind it. -/
theorem exists_of_scanFrom_cons (h : scanFrom input operandNext cs = .ok (token :: tokens)) :
    ∃ (front : List Char) (c : Char) (rest rest' : List Char), cs = front ++ c :: rest ∧
      (∀ b ∈ front, Text.isBlank b = true) ∧ Text.isBlank c = false ∧
      scanToken input operandNext c rest = .ok (token, rest') ∧
      scanFrom input token.beforeOperand rest' = .ok tokens := by
  induction cs with
  | nil => simp [scanFrom] at h
  | cons c cs ih =>
    by_cases hc : Text.isBlank c = true
    · rw [scanFrom_blank hc] at h
      obtain ⟨front, d, rest, rest', rfl, hfront, hrest⟩ := ih h
      exact ⟨c :: front, d, rest, rest', rfl, List.forall_mem_cons.2 ⟨hc, hfront⟩, hrest⟩
    · rw [Bool.not_eq_true] at hc
      obtain ⟨first, rest', behind, hscanned, hbehind, heq⟩ := exists_of_scanFrom hc h
      obtain ⟨rfl, rfl⟩ := List.cons.inj heq
      exact ⟨[], c, cs, rest', rfl, by simp, hc, hscanned, hbehind⟩

/-- A text without tokens has only blanks. -/
theorem scanFrom_eq_ok_nil_iff :
    scanFrom input operandNext cs = .ok [] ↔ ∀ c ∈ cs, Text.isBlank c = true := by
  constructor
  · intro h
    induction cs with
    | nil => simp
    | cons c cs ih =>
      by_cases hc : Text.isBlank c = true
      · rw [scanFrom_blank hc] at h
        exact List.forall_mem_cons.2 ⟨hc, ih h⟩
      -- the first character that is no blank begins a token
      · rw [Bool.not_eq_true] at hc
        obtain ⟨token, rest', behind, -, -, heq⟩ := exists_of_scanFrom hc h
        contradiction
  · intro h
    have hscan : scanFrom input operandNext (cs ++ []) = scanFrom input operandNext [] :=
      scanFrom_append_blanks h
    rw [List.append_nil, scanFrom] at hscan
    exact hscan

/-! ## What a token is cut from -/

/-- How a token is cut off at the head of a text, with what follows it. -/
inductive Cuts (operandNext : Bool) (c : Char) (rest : List Char) : Token → List Char → Prop where
  | openParen (hc : c = '(') : Cuts operandNext c rest .openParen rest
  | closeParen (hc : c = ')') : Cuts operandNext c rest .closeParen rest
  | text {u rest' : List Char} (hc : c = '\'' ∨ c = '"') (h : scanText c rest = some (u, rest')) :
      Cuts operandNext c rest (.text (String.ofList u)) rest'
  | number {x : Binary64} (hc : beginsNumber operandNext c rest = true)
      (h : Binary64.ofText? (c :: rest.takeWhile inNumber) = some x) :
      Cuts operandNext c rest (.number x) (rest.dropWhile inNumber)
  | name (hc : beginsName c = true) :
      Cuts operandNext c rest (.name (String.ofList (c :: rest.takeWhile inName)))
        (rest.dropWhile inName)
  | operator {token : Token} {rest' : List Char}
      (h : scanOperator (c :: rest) = some (token, rest')) : Cuts operandNext c rest token rest'

/-- What the scanner cuts off is one of the six kinds, each with what makes it that kind. -/
theorem cuts_of_scanToken (h : scanToken input operandNext c rest = .ok (token, rest')) :
    Cuts operandNext c rest token rest' := by
  -- the cases are tried in this order, and `Cuts` keeps of each only what later proofs need
  unfold scanToken at h
  split at h
  · next hc =>
    obtain ⟨rfl, rfl⟩ := Prod.mk.inj (Except.ok.inj h)
    exact .openParen hc
  split at h
  · next hc =>
    obtain ⟨rfl, rfl⟩ := Prod.mk.inj (Except.ok.inj h)
    exact .closeParen hc
  split at h
  · next hc =>
    split at h
    · next hread =>
      obtain ⟨rfl, rfl⟩ := Prod.mk.inj (Except.ok.inj h)
      exact .text hc hread
    · contradiction
  split at h
  · next hc =>
    dsimp only at h
    split at h
    · next hx =>
      obtain ⟨rfl, rfl⟩ := Prod.mk.inj (Except.ok.inj h)
      exact .number hc hx
    · contradiction
  split at h
  · next hc =>
    obtain ⟨rfl, rfl⟩ := Prod.mk.inj (Except.ok.inj h)
    exact .name hc
  split at h
  · next hoperator =>
    obtain rfl := Except.ok.inj h
    exact .operator hoperator
  · contradiction

/-- How an operator is written. -/
def Token.operator? : Token → Option String
  | compare c => some c.spelling
  | and => some "&&"
  | or => some "||"
  | not => some "!"
  | _ => none

/-- An operator is cut off with the word that it is written as. -/
theorem exists_of_scanOperator (h : scanOperator cs = some (token, rest)) :
    ∃ word, token.operator? = some word ∧ cs = word.toList ++ rest := by
  unfold scanOperator at h
  split at h
  all_goals first
    | contradiction
    | (obtain ⟨rfl, rfl⟩ := Prod.mk.inj (Option.some.inj h)
       exact ⟨_, rfl, rfl⟩)

/-- A token ends in front of this: of the end of the text or of a space. -/
inductive Ends : List Char → Prop where
  | nil : Ends []
  | space (rest : List Char) : Ends (' ' :: rest)

/-- An operator that ends behind its last character is cut off there. -/
theorem exists_scanToken_operator {word : String} (h : token.operator? = some word)
    (hends : Ends rest) (input : String) (operandNext : Bool) :
    ∃ c behind, word.toList ++ rest = c :: behind ∧ Text.isBlank c = false ∧
      scanToken input operandNext c behind = .ok (token, rest) := by
  cases token with
  | compare comparison =>
    obtain rfl := Option.some.inj h
    -- what follows decides whether the operator is a longer one
    cases hends <;> cases comparison <;> exact ⟨_, _, rfl, by decide, rfl⟩
  | and | or | not =>
    obtain rfl := Option.some.inj h
    cases hends <;> exact ⟨_, _, rfl, by decide, rfl⟩
  | number | text | name | openParen | closeParen => contradiction

/-- An operator with a blank behind it ends there. -/
theorem scanFrom_operator {word : String} (h : token.operator? = some word) :
    scanFrom input operandNext (word.toList ++ ' ' :: rest)
      = (scanFrom input true rest).map fun tokens => token :: tokens := by
  have hoperand : token.beforeOperand = true := by
    cases token <;> first | rfl | contradiction
  obtain ⟨c, behind, htext, hc, hscanned⟩ :=
    exists_scanToken_operator h (.space rest) input operandNext
  rw [htext, scanFrom_token hc hscanned, scanFrom_blank (by decide), hoperand]

/-- Two equals signs are cut off as they are. -/
theorem eq_of_scanToken_equal
    (h : scanToken input operandNext c rest = .ok (.compare .equal, rest')) :
    c :: rest = '=' :: '=' :: rest' := by
  cases cuts_of_scanToken h with
  | operator hoperator =>
    obtain ⟨word, hword, htext⟩ := exists_of_scanOperator hoperator
    obtain rfl := Option.some.inj hword
    exact htext

/-! ## Names -/

/-- No blank goes on with a name. -/
theorem isBlank_of_inName (h : inName c = true) : Text.isBlank c = false := by
  by_contra hblank
  rw [Bool.not_eq_false] at hblank
  simp only [inName, Text.isLetter_of_isBlank hblank, Text.isNumeral_of_isBlank hblank,
    Bool.false_or, Bool.or_eq_true, decide_eq_true_eq] at h
  rcases h with (((rfl | rfl) | rfl) | rfl) | rfl <;> exact absurd hblank (by decide)

/-- What begins a name goes on with one. -/
theorem inName_of_beginsName (h : beginsName c = true) : inName c = true := by
  simp only [beginsName, Bool.or_eq_true, decide_eq_true_eq] at h
  rcases h with (h | rfl) | rfl
  · simp [inName, h]
  · decide
  · decide

/-- No digit begins a name. -/
theorem isDigit_of_beginsName (h : beginsName c = true) : Text.isDigit c = false := by
  by_contra hdigit
  rw [Bool.not_eq_false] at hdigit
  simp only [Text.isDigit, Char.le_def, UInt32.le_iff_toNat_le, Bool.and_eq_true,
    decide_eq_true_eq] at hdigit
  -- on code points, since the digits of ASCII lie apart from its letters
  change 48 ≤ c.val.toNat ∧ c.val.toNat ≤ 57 at hdigit
  have hascii : c.toNat < 128 := by
    simp only [Char.toNat]
    omega
  simp only [beginsName, Text.isLetter, if_pos hascii, Text.isAsciiLetter, Bool.or_eq_true,
    Bool.and_eq_true, decide_eq_true_eq, Char.le_def, UInt32.le_iff_toNat_le] at h
  have ha : ('a' : Char).val.toNat = 97 := rfl
  have hA : ('A' : Char).val.toNat = 65 := rfl
  rcases h with ((h | h) | rfl) | rfl
  · omega
  · omega
  · exact absurd hdigit (by decide)
  · exact absurd hdigit (by decide)

/-- Where a name begins it is scanned as far as it goes. -/
theorem scanToken_name (h : beginsName c = true) (input : String) (operandNext : Bool)
    (rest : List Char) :
    scanToken input operandNext c rest
      = .ok (.name (String.ofList (c :: rest.takeWhile inName)), rest.dropWhile inName) := by
  have hne : ∀ d, beginsName d = false → c ≠ d := by
    rintro d hd rfl
    rw [hd] at h
    contradiction
  have hnumber : beginsNumber operandNext c rest = false := by
    simp [beginsNumber, isDigit_of_beginsName h, hne '-' (by decide)]
  have hquote : ¬(c = '\'' ∨ c = '"') := not_or.2 ⟨hne _ (by decide), hne _ (by decide)⟩
  rw [scanToken, if_neg (hne '(' (by decide)), if_neg (hne ')' (by decide)), if_neg hquote,
    if_neg (by simp [hnumber]), if_pos h]

/-- A token that is a name is all that goes on with it. -/
theorem eq_of_scanToken_name {name : String}
    (h : scanToken input operandNext c rest = .ok (.name name, rest')) :
    beginsName c = true ∧ name.toList = c :: rest.takeWhile inName ∧
      rest' = rest.dropWhile inName := by
  cases cuts_of_scanToken h with
  | name hc => exact ⟨hc, String.toList_ofList, rfl⟩
  | operator hoperator =>
    obtain ⟨word, hword, -⟩ := exists_of_scanOperator hoperator
    contradiction

/-- A text that is one name, blanks aside. -/
theorem exists_of_scan_name {text name : String} (h : scan text = .ok [.name name]) :
    ∃ front behind : List Char, text.toList = front ++ name.toList ++ behind ∧
      (∀ c ∈ front, Text.isBlank c = true) ∧ (∀ c ∈ behind, Text.isBlank c = true) ∧
      ∃ c rest, name.toList = c :: rest ∧ beginsName c = true ∧ ∀ d ∈ rest, inName d = true := by
  obtain ⟨front, c, rest, behind, htext, hfront, -, hscanned, hbehind⟩ := exists_of_scanFrom_cons h
  obtain ⟨hc, hname, rfl⟩ := eq_of_scanToken_name hscanned
  refine ⟨front, rest.dropWhile inName, ?_, hfront, scanFrom_eq_ok_nil_iff.1 hbehind, c,
    rest.takeWhile inName, hname, hc, fun d hd => List.mem_takeWhile_imp hd⟩
  rw [htext, hname, List.append_assoc, List.cons_append, List.takeWhile_append_dropWhile]

/-- A name is scanned as the name that it is. -/
theorem scan_name {name : String} {c : Char} {rest : List Char} (hname : name.toList = c :: rest)
    (hc : beginsName c = true) (hrest : ∀ d ∈ rest, inName d = true) :
    scan name = .ok [.name name] := by
  have htake : rest.takeWhile inName = rest := List.takeWhile_eq_self_iff.2 hrest
  have hdrop : rest.dropWhile inName = [] := List.dropWhile_eq_nil_iff.2 hrest
  have hblank := isBlank_of_inName (inName_of_beginsName hc)
  rw [scan, hname, scanFrom_token hblank (scanToken_name hc _ _ _), hdrop, scanFrom, htake, ← hname,
    String.ofList_toList]
  rfl

/-! ## Quoted texts -/

/-- Between quotes the characters `s` spell the text `u`: a backslash stands for the character
behind it, any other character for itself, and no quote stands by itself. -/
inductive Spells (quote : Char) : List Char → List Char → Prop where
  | nil : Spells quote [] []
  | plain {c : Char} {s u : List Char} (hquote : c ≠ quote) (hescape : c ≠ '\\')
      (h : Spells quote s u) : Spells quote (c :: s) (c :: u)
  | escaped {c : Char} {s u : List Char} (h : Spells quote s u) :
      Spells quote ('\\' :: c :: s) (c :: u)

variable {quote : Char} {s u : List Char}

/-- The quote ends the text. -/
theorem scanText_quote (hquote : quote ≠ '\\') :
    scanText quote (quote :: rest) = some ([], rest) := by
  rw [scanText, if_pos rfl]
  exact fun _ _ heq => absurd heq hquote

/-- Any character but the quote and the backslash stands for itself. -/
theorem scanText_plain (hquote : c ≠ quote) (hescape : c ≠ '\\') :
    scanText quote (c :: rest)
      = (scanText quote rest).map fun (text, rest) => (c :: text, rest) := by
  rw [scanText, if_neg hquote]
  exact fun _ _ heq => absurd heq hescape

/-- Behind a backslash any character stands for itself. -/
theorem scanText_escaped :
    scanText quote ('\\' :: c :: rest)
      = (scanText quote rest).map fun (text, rest) => (c :: text, rest) := by
  rw [scanText]

/-- What is spelled is read, up to the quote behind it. -/
theorem Spells.scanText (h : Spells quote s u) (hquote : quote ≠ '\\') (rest : List Char) :
    scanText quote (s ++ quote :: rest) = some (u, rest) := by
  induction h with
  | nil => exact scanText_quote hquote
  | plain hc hescape _ ih => rw [List.cons_append, scanText_plain hc hescape, ih, Option.map_some]
  | escaped _ ih =>
    rw [List.cons_append, List.cons_append, scanText_escaped, ih, Option.map_some]

/-- What is read is spelled, up to the quote behind it. -/
theorem exists_of_scanText (h : scanText quote cs = some (u, rest)) :
    ∃ s, cs = s ++ quote :: rest ∧ Spells quote s u := by
  fun_induction scanText quote cs generalizing u rest with
  | case1 => contradiction
  | case2 c cs ih =>
    obtain ⟨⟨u', rest'⟩, hread, heq⟩ := Option.map_eq_some_iff.1 h
    obtain ⟨rfl, rfl⟩ := Prod.mk.inj heq
    obtain ⟨s, rfl, hs⟩ := ih hread
    exact ⟨'\\' :: c :: s, rfl, .escaped hs⟩
  | case3 cs =>
    obtain ⟨rfl, rfl⟩ := Prod.mk.inj (Option.some.inj h)
    exact ⟨[], rfl, .nil⟩
  | case4 c cs hescaped hc ih =>
    obtain ⟨⟨u', rest'⟩, hread, heq⟩ := Option.map_eq_some_iff.1 h
    obtain ⟨rfl, rfl⟩ := Prod.mk.inj heq
    obtain ⟨s, rfl, hs⟩ := ih hread
    -- a backslash would take the next character with it, and there is one: the quote at the end
    have hescape : c ≠ '\\' := by
      intro heq
      cases s with
      | nil => exact hescaped _ _ heq rfl
      | cons d s => exact hescaped _ _ heq rfl
    exact ⟨c :: s, rfl, .plain hc hescape hs⟩

/-- Only backslashes are spelled that are not read. -/
theorem Spells.mem (h : Spells quote s u) (hc : c ∈ s) : c = '\\' ∨ c ∈ u := by
  induction h with
  | nil => contradiction
  | plain _ _ _ ih =>
    rcases List.mem_cons.1 hc with rfl | hc
    · exact .inr List.mem_cons_self
    · exact (ih hc).imp_right (List.mem_cons_of_mem _)
  | escaped _ ih =>
    rcases List.mem_cons.1 hc with rfl | hc
    · exact .inl rfl
    rcases List.mem_cons.1 hc with rfl | hc
    · exact .inr List.mem_cons_self
    · exact (ih hc).imp_right (List.mem_cons_of_mem _)

/-- A text without quotes and backslashes spells itself. -/
theorem spells_self (h : ∀ c ∈ s, c ≠ quote ∧ c ≠ '\\') : Spells quote s s := by
  induction s with
  | nil => exact .nil
  | cons c s ih =>
    obtain ⟨hc, hs⟩ := List.forall_mem_cons.1 h
    exact .plain hc.1 hc.2 (ih hs)

/-- A quoted text is scanned as what is spelled in it. -/
theorem scanToken_text (h : Spells quote s u) (hquote : quote = '\'' ∨ quote = '"')
    (input : String) (operandNext : Bool) (rest : List Char) :
    scanToken input operandNext quote (s ++ quote :: rest) = .ok (.text (String.ofList u), rest) := by
  have hopen : quote ≠ '(' := by rcases hquote with rfl | rfl <;> decide
  have hclose : quote ≠ ')' := by rcases hquote with rfl | rfl <;> decide
  have hescape : quote ≠ '\\' := by rcases hquote with rfl | rfl <;> decide
  rw [scanToken, if_neg hopen, if_neg hclose, if_pos hquote, h.scanText hescape]

/-- A token that is a text is cut off with both of its quotes. -/
theorem exists_of_scanToken_text {text : String}
    (h : scanToken input operandNext c rest = .ok (.text text, rest')) :
    (c = '\'' ∨ c = '"') ∧ ∃ s, rest = s ++ c :: rest' ∧ Spells c s text.toList := by
  cases cuts_of_scanToken h with
  | text hc hread =>
    rw [String.toList_ofList]
    exact ⟨hc, exists_of_scanText hread⟩
  | operator hoperator =>
    obtain ⟨word, hword, -⟩ := exists_of_scanOperator hoperator
    contradiction

end Scan

end Condition

end Wavefront
