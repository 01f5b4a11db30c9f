/-
Blank characters: what may stand around a path, a template, a number or a level name without
meaning anything.

The class is the Unicode property `White_Space`, which has 25 members in ten ranges. It is wider
than the four characters that JSON calls white space and wider than `Char.isWhitespace`. Whatever
`parse_path`, `parse_level` or a template trims is of this class.
-/

set_option autoImplicit false

namespace Wavefront.Text

/-- Does the code point of `c` lie in one of the closed ranges? -/
def inRanges (ranges : List (Nat × Nat)) (c : Char) : Bool :=
  ranges.any fun range => range.1 ≤ c.toNat && c.toNat ≤ range.2

/-- The ranges of the Unicode property `White_Space`, in rising order. -/
def blankRanges : List (Nat × Nat) :=
  [(0x9, 0xD), (0x20, 0x20), (0x85, 0x85), (0xA0, 0xA0), (0x1680, 0x1680), (0x2000, 0x200A),
   (0x2028, 0x2029), (0x202F, 0x202F), (0x205F, 0x205F), (0x3000, 0x3000)]

/-- A blank character: one with the Unicode property `White_Space`. -/
def isBlank (c : Char) : Bool := inRanges blankRanges c

/-- The text without the blanks in front of it. -/
def trimLeft (cs : List Char) : List Char := cs.dropWhile isBlank

/-- The text without the blanks behind it. -/
def trimRight (cs : List Char) : List Char := (cs.reverse.dropWhile isBlank).reverse

/-- The text without the blanks around it. -/
def trim (cs : List Char) : List Char := trimRight (trimLeft cs)

theorem length_dropWhile_le (p : Char → Bool) (cs : List Char) :
    (cs.dropWhile p).length ≤ cs.length :=
  (List.dropWhile_sublist p).length_le

/-- Nothing but blanks. -/
def allBlank (s : String) : Bool := s.toList.all isBlank

end Wavefront.Text
