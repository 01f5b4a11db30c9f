/-
Tokens of JSON text.

The scanner cuts the whole text before anything is read from it. Where the text stops being JSON
it puts one `broken` token and ends, so that a reader which stumbles over an unwanted but
well-formed value earlier can say so, and one that gets as far as the break can say that.

Two tokens are well-formed and still have no value: a number too large for a word and for a
floating-point number, and a string with half of a surrogate pair. Both carry `none`; only a reader
that wants their value refuses them.

The digits of a number with a point, an exponent or more than 64 bits are read the fast way: the
leading digits that fit an unsigned word are taken as they are, the others count as zeros, and the
word is multiplied or divided by a power of ten, each of the three being rounded.
-/
import Wavefront.Value.Number

set_option autoImplicit false

namespace Wavefront

namespace Json

/-- A token of JSON text. -/
inductive Token where
  | openArray
  | closeArray
  | openObject
  | closeObject
  | comma
  | colon
  | null
  | bool (b : Bool)
  | number (value : Option Number)
  | string (value : Option String)
  /-- The text goes on, but not as JSON. -/
  | broken

/-! ## Numbers -/

/-- The largest unsigned word. -/
def wordMax : Nat := UInt64.size - 1

/-- Takes over digits while the significand fits an unsigned word. The result is the significand
and the number of digits left over. -/
def takeDigits : Nat → List Char → Nat × Nat
  | significand, [] => (significand, 0)
  | significand, c :: cs =>
      let next := 10 * significand + Text.digitValue c
      if next ≤ wordMax then takeDigits next cs else (significand, cs.length + 1)

/-- The magnitude nearest to a power of ten. -/
def powerOfTen (n : Nat) : Nat := Binary64.roundDecimal 1 n

/-- The greatest exponent of ten with a finite magnitude. -/
def greatestPower : Nat := 308

/-- Multiplies a magnitude by a power of ten, or divides it by one, in one rounded step; an exponent
below `-greatestPower` takes as many steps as it needs. A product that is not finite, and any
exponent that is too large, give nothing, but zero stays zero. -/
def scaleByTen (magnitude : Nat) (exponent : Int) : Option Nat :=
  if magnitude = 0 then some 0
  else if greatestPower < exponent then none
  else if 0 ≤ exponent then
    let product := Binary64.multiply magnitude (powerOfTen exponent.toNat)
    if product < Binary64.infinityWord then some product else none
  else if -greatestPower ≤ exponent then
    some (Binary64.divide magnitude (powerOfTen (-exponent).toNat))
  else
    scaleByTen (Binary64.divide magnitude (powerOfTen greatestPower)) (exponent + greatestPower)
termination_by (-exponent).toNat
decreasing_by simp only [greatestPower] at *; omega

/-- A floating-point number from its sign, significand and exponent of ten. -/
def floatOf (negative : Bool) (significand : Nat) (exponent : Int) : Option Number := do
  let magnitude ← scaleByTen (Binary64.roundRatio significand 1) exponent
  Number.ofBinary64? (.ofMagnitude negative magnitude)

/-- The exponents that are worked with; a larger one counts as infinite. -/
def exponentMax : Nat := 0x7FFFFFFF

/-- A floating-point number from its sign, significand, exponent so far and the digits of its
exponent part. An exponent beyond `exponentMax` makes zero of everything if it is negative, and
too much of everything but zero if it is not. -/
def withExponent (negative : Bool) (significand : Nat) (exponent : Int) (digits : List Char)
    (downwards : Bool) : Option Number :=
  let n := Text.digitsValue digits
  if exponentMax < n then
    if significand ≠ 0 ∧ ¬downwards then none
    else Number.ofBinary64? (.ofMagnitude negative 0)
  else floatOf negative significand (exponent + if downwards then -(n : Int) else n)

/-- The value of a number from its sign, the digits of its whole part, those of its fraction if it
has one, and those of its exponent with the direction if it has one. A zero with a minus sign is a
floating-point number, for integers have no negative zero. -/
def numberOf (negative : Bool) (whole : List Char) (fraction : Option (List Char))
    (exponent : Option (List Char × Bool)) : Option Number :=
  let (significand, dropped) := takeDigits 0 whole
  match fraction, exponent with
  | none, none =>
      -- too long for a word
      if 0 < dropped then floatOf negative significand dropped
      else if negative ∧ (significand = 0 ∨ 0x8000000000000000 < significand) then
        floatOf negative significand 0
      else Number.ofInt? (if negative then -significand else significand)
  | _, _ =>
      let digits := fraction.getD []
      -- digits dropped from the whole part raise the exponent, those taken from the fraction lower it
      let (significand, left) := takeDigits significand digits
      let shift : Int := dropped - ((digits.length - left : Nat) : Int)
      match exponent with
      | none => floatOf negative significand shift
      | some (digits, downwards) => withExponent negative significand shift digits downwards

/-- The digits of a whole part: at least one, and no zero in front of others. -/
def isWhole : List Char → Bool
  | [] => false
  | '0' :: _ :: _ => false
  | _ => true

/-- The fraction of a number, if there is one: a point and at least one digit. -/
def scanFraction : List Char → Option (Option (List Char) × List Char)
  | '.' :: cs =>
      if cs.takeWhile Text.isDigit = [] then none
      else some (some (cs.takeWhile Text.isDigit), cs.dropWhile Text.isDigit)
  | cs => some (none, cs)

/-- The exponent of a number, if there is one: `e`, perhaps a sign, at least one digit. -/
def scanExponent : List Char → Option (Option (List Char × Bool) × List Char)
  | [] => some (none, [])
  | c :: cs =>
      if c = 'e' ∨ c = 'E' then
        let (downwards, rest) := Text.splitSign cs
        if rest.takeWhile Text.isDigit = [] then none
        else some (some (rest.takeWhile Text.isDigit, downwards), rest.dropWhile Text.isDigit)
      else some (none, c :: cs)

/-- A number, after its sign. -/
def scanNumber (negative : Bool) (cs : List Char) : Option (Option Number × List Char) := do
  guard (isWhole (cs.takeWhile Text.isDigit))
  let (fraction, rest) ← scanFraction (cs.dropWhile Text.isDigit)
  let (exponent, rest) ← scanExponent rest
  return (numberOf negative (cs.takeWhile Text.isDigit) fraction exponent, rest)

/-! ## Strings -/

/-- The value of a hexadecimal digit. -/
def hexDigit? (c : Char) : Option Nat :=
  if Text.isDigit c then some (Text.digitValue c)
  else if 'a' ≤ c ∧ c ≤ 'f' then some (c.toNat - 'a'.toNat + 10)
  else if 'A' ≤ c ∧ c ≤ 'F' then some (c.toNat - 'A'.toNat + 10)
  else none

/-- The value of four hexadecimal digits. -/
def hex4? (a b c d : Char) : Option Nat := do
  return 4096 * (← hexDigit? a) + 256 * (← hexDigit? b) + 16 * (← hexDigit? c) + (← hexDigit? d)

/-- One unit of a string: a character, or a surrogate that has to find its other half. -/
inductive Unit16 where
  | char (c : Char)
  | high (n : Nat)
  | low (n : Nat)

/-- The unit with the number `n`, for `n` below `0x10000`. -/
def Unit16.ofNat (n : Nat) : Unit16 :=
  if 0xD800 ≤ n ∧ n < 0xDC00 then .high n
  else if 0xDC00 ≤ n ∧ n < 0xE000 then .low n
  else .char (Char.ofNat n)

/-- The characters of a run of units, in reverse. Each high surrogate has to be followed by a low
one, and no low one may stand elsewhere. -/
def joinUnits : List Unit16 → List Char → Option (List Char)
  | [], acc => some acc
  | .char c :: rest, acc => joinUnits rest (c :: acc)
  | .high h :: .low l :: rest, acc =>
      joinUnits rest (Char.ofNat (0x10000 + (h - 0xD800) * 0x400 + (l - 0xDC00)) :: acc)
  | _ :: _, _ => none

/-- What the character after a backslash stands for. -/
def simpleEscape? : Char → Option Char
  | '"' => some '"'
  | '\\' => some '\\'
  | '/' => some '/'
  | 'b' => some '\x08'
  | 'f' => some '\x0c'
  | 'n' => some '\n'
  | 'r' => some '\r'
  | 't' => some '\t'
  | _ => none

/-- The rest of a string, after its opening quote: its units, in reverse, and what follows its
closing quote. Control characters have to be written as escapes. -/
def scanString : List Char → List Unit16 → Option (List Unit16 × List Char)
  | '"' :: rest, acc => some (acc, rest)
  | '\\' :: 'u' :: a :: b :: c :: d :: rest, acc =>
      match hex4? a b c d with
      | some n => scanString rest (Unit16.ofNat n :: acc)
      | none => none
  | '\\' :: c :: rest, acc =>
      match simpleEscape? c with
      | some e => scanString rest (.char e :: acc)
      | none => none
  | c :: rest, acc => if c.toNat < 0x20 ∨ c = '\\' then none else scanString rest (.char c :: acc)
  | [], _ => none

/-- The text of a scanned string. -/
def stringOf (units : List Unit16) : Option String :=
  (joinUnits units.reverse []).map fun cs => String.ofList cs.reverse

/-! ## All tokens -/

/-- The white space of JSON: four characters. -/
def isSpace (c : Char) : Bool := c = ' ' || c = '\n' || c = '\t' || c = '\r'

/-- One token at the head of a text that does not start with white space, and the text behind it.
Nothing stands for a break. -/
def scanToken (c : Char) (rest : List Char) : Option (Token × List Char) :=
  match c, rest with
  | '[', rest => some (.openArray, rest)
  | ']', rest => some (.closeArray, rest)
  | '{', rest => some (.openObject, rest)
  | '}', rest => some (.closeObject, rest)
  | ',', rest => some (.comma, rest)
  | ':', rest => some (.colon, rest)
  | 'n', 'u' :: 'l' :: 'l' :: rest => some (.null, rest)
  | 't', 'r' :: 'u' :: 'e' :: rest => some (.bool true, rest)
  | 'f', 'a' :: 'l' :: 's' :: 'e' :: rest => some (.bool false, rest)
  | '"', rest => (scanString rest []).map fun (units, rest) => (.string (stringOf units), rest)
  | '-', rest => (scanNumber true rest).map fun (n, rest) => (.number n, rest)
  | c, rest => (scanNumber false (c :: rest)).map fun (n, rest) => (.number n, rest)

theorem length_scanString {cs : List Char} {acc units : List Unit16} {rest : List Char}
    (h : scanString cs acc = some (units, rest)) : rest.length ≤ cs.length := by
  fun_induction scanString cs acc with
  | case1 => simp_all
  | case2 acc a b c d cs n hn ih => have := ih h; simp only [List.length_cons]; omega
  | case3 => simp at h
  | case4 acc c cs _ e he ih => have := ih h; simp only [List.length_cons]; omega
  | case5 => simp at h
  | case6 => simp at h
  | case7 acc c cs _ _ _ hc ih => have := ih h; simp only [List.length_cons]; omega
  | case8 => simp at h

theorem length_splitSign (cs : List Char) : (Text.splitSign cs).2.length ≤ cs.length := by
  unfold Text.splitSign
  split <;> simp

theorem length_scanFraction {cs : List Char} {f : Option (List Char)} {rest : List Char}
    (h : scanFraction cs = some (f, rest)) : rest.length ≤ cs.length := by
  unfold scanFraction at h
  split at h
  · rename_i cs
    have hdrop := Text.length_dropWhile_le Text.isDigit cs
    split at h
    · simp at h
    · obtain ⟨-, rfl⟩ := Prod.mk.inj (Option.some.inj h)
      simp only [List.length_cons]
      omega
  · obtain ⟨-, rfl⟩ := Prod.mk.inj (Option.some.inj h)
    exact Nat.le_refl _

theorem length_scanExponent {cs : List Char} {e : Option (List Char × Bool)} {rest : List Char}
    (h : scanExponent cs = some (e, rest)) : rest.length ≤ cs.length := by
  cases cs with
  | nil => simp_all [scanExponent]
  | cons c cs =>
    have hsign := length_splitSign cs
    have hdrop := Text.length_dropWhile_le Text.isDigit (Text.splitSign cs).2
    simp only [scanExponent] at h
    split at h
    · split at h
      · simp at h
      · obtain ⟨-, rfl⟩ := Prod.mk.inj (Option.some.inj h)
        simp only [List.length_cons]
        omega
    · obtain ⟨-, rfl⟩ := Prod.mk.inj (Option.some.inj h)
      exact Nat.le_refl _

theorem length_scanNumber {negative : Bool} {cs : List Char} {n : Option Number}
    {rest : List Char} (h : scanNumber negative cs = some (n, rest)) :
    rest.length < cs.length := by
  have hlength : (cs.takeWhile Text.isDigit).length + (cs.dropWhile Text.isDigit).length
      = cs.length := by
    rw [← List.length_append, List.takeWhile_append_dropWhile]
  rw [scanNumber] at h
  obtain ⟨_, hwhole, h⟩ := Option.bind_eq_some_iff.1 h
  obtain ⟨⟨f, rest₁⟩, hf, h⟩ := Option.bind_eq_some_iff.1 h
  obtain ⟨⟨e, rest₂⟩, he, h⟩ := Option.bind_eq_some_iff.1 h
  obtain ⟨-, rfl⟩ := Prod.mk.inj (Option.some.inj h)
  have h1 : rest₁.length ≤ _ := length_scanFraction hf
  have h2 : rest₂.length ≤ rest₁.length := length_scanExponent he
  have h3 : 0 < (cs.takeWhile Text.isDigit).length := by
    cases hc : cs.takeWhile Text.isDigit with
    | nil =>
      rw [hc] at hwhole
      cases hwhole
    | cons => simp
  show rest₂.length < cs.length
  omega

theorem length_scanToken {c : Char} {cs : List Char} {token : Token} {rest : List Char}
    (h : scanToken c cs = some (token, rest)) : rest.length ≤ cs.length := by
  unfold scanToken at h
  split at h
  case h_10 =>
    obtain ⟨⟨units, rest'⟩, hs, h⟩ := Option.map_eq_some_iff.1 h
    obtain ⟨-, rfl⟩ := Prod.mk.inj h
    exact length_scanString hs
  case h_11 =>
    obtain ⟨⟨n, rest'⟩, hs, h⟩ := Option.map_eq_some_iff.1 h
    obtain ⟨-, rfl⟩ := Prod.mk.inj h
    exact Nat.le_of_lt (length_scanNumber hs)
  case h_12 =>
    obtain ⟨⟨n, rest'⟩, hs, h⟩ := Option.map_eq_some_iff.1 h
    obtain ⟨-, rfl⟩ := Prod.mk.inj h
    exact Nat.le_of_lt_succ (length_scanNumber hs)
  case h_1 | h_2 | h_3 | h_4 | h_5 | h_6 =>
    obtain ⟨-, rfl⟩ := Prod.mk.inj (Option.some.inj h)
    exact Nat.le_refl _
  case h_7 | h_8 | h_9 =>
    obtain ⟨-, rfl⟩ := Prod.mk.inj (Option.some.inj h)
    simp only [List.length_cons]
    omega

/-- The tokens of a text, gathered in reverse. -/
def scanFrom (cs : List Char) (acc : List Token) : List Token :=
  match cs with
  | [] => acc.reverse
  | c :: rest =>
      if isSpace c then scanFrom rest acc
      else match _scanned : scanToken c rest with
        | some (token, rest') => scanFrom rest' (token :: acc)
        | none => (Token.broken :: acc).reverse
termination_by cs.length
decreasing_by
  · simp
  · have := length_scanToken _scanned
    simp only [List.length_cons]
    omega

/-- The tokens of a text. -/
def scan (text : String) : List Token := scanFrom text.toList []

end Json

end Wavefront
