/-
The characters of YAML text, and scalars that go over several lines.

A scalar may be broken into lines. One line feed stands for a blank, and of several the first one
stands for nothing. The separators of lines and of paragraphs are line breaks too, but they always
stand for themselves. Blanks next to a line break mean nothing.
-/

set_option autoImplicit false

namespace Wavefront

namespace Yaml

/-- A blank within a line. -/
def isBlank (c : Char) : Bool := c = ' ' || c = '\t'

/-- A line break. -/
def isBreak (c : Char) : Bool := c = '\n' || c = '\u2028' || c = '\u2029'

/-- A blank, a line break or the end of the text. -/
def isGap : Option Char → Bool
  | none => true
  | some c => isBlank c || isBreak c

/-- May the character stand in a text? Control characters may not, nor may the last two of the basic
plane. -/
def isPrintable (c : Char) : Bool :=
  c = '\t' || c = '\n' || c = '\r' || (' ' ≤ c && c ≤ '~') || c = '\u0085' ||
    ('\u00a0' ≤ c && c ≤ '\ufffd') || 0x10000 ≤ c.toNat

/-- The text with a line feed for each carriage return, next line and pair of a carriage return and
a line feed. -/
def withLineFeeds : List Char → List Char
  | '\r' :: '\n' :: cs | '\r' :: cs | '\u0085' :: cs => '\n' :: withLineFeeds cs
  | c :: cs => c :: withLineFeeds cs
  | [] => []

/-- White space inside a scalar whose meaning depends on what follows it. -/
inductive Pending where
  /-- Blanks within a line, in reverse. -/
  | blanks (cs : List Char)
  /-- A line break, or nothing if it is escaped, and the breaks behind it, in reverse. -/
  | breaks (first : Option Char) (more : List Char)

/-- What the pending white space comes to when the scalar goes on, in reverse. -/
def Pending.text : Pending → List Char
  | blanks cs => cs
  | breaks (some '\n') [] => [' ']
  | breaks (some '\n') more => more
  | breaks first more => more ++ first.toList

/-- A scalar so far. -/
structure Partial where
  /-- The text in reverse, without what is pending. -/
  text : List Char := []
  pending : Pending := .blanks []

namespace Partial

/-- Takes a blank; next to a line break it means nothing. -/
def blank (p : Partial) (c : Char) : Partial :=
  match p.pending with
  | .blanks cs => { p with pending := .blanks (c :: cs) }
  | .breaks _ _ => p

/-- Takes a line break. -/
def lineBreak (p : Partial) (c : Char) : Partial :=
  match p.pending with
  | .blanks _ => { p with pending := .breaks (some c) [] }
  | .breaks first more => { p with pending := .breaks first (c :: more) }

/-- The scalar with nothing pending. -/
def settle (p : Partial) : Partial := { text := p.pending.text ++ p.text }

/-- Takes a character of the text. -/
def add (p : Partial) (c : Char) : Partial := { text := c :: p.settle.text }

/-- Takes a line break behind a backslash. What stood before it is kept as it was. -/
def escapedBreak (p : Partial) : Partial := { p.settle with pending := .breaks none [] }

/-- Is the scalar at the beginning of a line, or behind the blanks there? -/
def isBroken (p : Partial) : Bool :=
  match p.pending with
  | .blanks _ => false
  | .breaks _ _ => true

/-- Does white space stand last? -/
def endsBlank (p : Partial) : Bool :=
  match p.pending with
  | .blanks cs => !cs.isEmpty
  | .breaks _ _ => true

/-- The text of a plain scalar, to which white space behind it does not belong. -/
def plainText (p : Partial) : String := .ofList p.text.reverse

/-- The text of a quoted scalar, to which all white space belongs. -/
def quotedText (p : Partial) : String := .ofList p.settle.text.reverse

end Partial

end Yaml

end Wavefront
