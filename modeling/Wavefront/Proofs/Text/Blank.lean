/-
Trimming: what is left of a text without the blanks around it.

A trimmed text has no blank at either end, and a text without blanks at its ends is left as it is;
everything else about trimming follows from these two. Letters, numerals and the digits of an index
are no blanks, so names and numerals stand in a text as they are.
-/
import Mathlib.Data.List.DropRight
import Mathlib.Data.List.TakeWhile
import Wavefront.Text.Letter
import Wavefront.Text.Numeral

set_option autoImplicit false

namespace Wavefront.Text

/-! ## The ends of a text -/

/-- No blank stands at an end of the text. -/
structure IsTrimmed (cs : List Char) : Prop where
  head : ∀ c, cs.head? = some c → isBlank c = false
  last : ∀ c, cs.getLast? = some c → isBlank c = false

variable {cs : List Char}

/-- Trimming leaves a text that is trimmed. -/
theorem isTrimmed_trim (cs : List Char) : IsTrimmed (trim cs) := by
  constructor
  · intro c hc
    -- the blanks behind go after those in front, so the first character stays
    have hbegins : trim cs <+: trimLeft cs := List.rdropWhile_prefix isBlank _
    obtain ⟨rest, hrest⟩ := hbegins
    have hhead : (trimLeft cs).head? = some c := by
      rw [← hrest, List.head?_append, hc, Option.some_or]
    have hnot := List.head?_dropWhile_not isBlank cs
    rw [trimLeft] at hhead
    rw [hhead] at hnot
    exact hnot
  · intro c hc
    have hhead : ((trimLeft cs).reverse.dropWhile isBlank).head? = some c := by
      rw [trim, trimRight, List.getLast?_reverse] at hc
      exact hc
    have hnot := List.head?_dropWhile_not isBlank (trimLeft cs).reverse
    rw [hhead] at hnot
    exact hnot

/-- A text that does not begin with a blank keeps its front. -/
theorem dropWhile_isBlank_of_head (h : ∀ c, cs.head? = some c → isBlank c = false) :
    cs.dropWhile isBlank = cs := by
  cases cs with
  | nil => rfl
  | cons c cs => rw [List.dropWhile_cons_of_neg (by simp [h c rfl])]

/-- A trimmed text is left as it is. -/
theorem IsTrimmed.trim_eq (h : IsTrimmed cs) : trim cs = cs := by
  have hlast : ∀ c, cs.reverse.head? = some c → isBlank c = false := by
    intro c hc
    rw [List.head?_reverse] at hc
    exact h.last c hc
  rw [trim, trimLeft, dropWhile_isBlank_of_head h.head, trimRight,
    dropWhile_isBlank_of_head hlast, List.reverse_reverse]

theorem trim_trim (cs : List Char) : trim (trim cs) = trim cs := (isTrimmed_trim cs).trim_eq

/-- Nothing is left exactly of a text of blanks. -/
theorem trim_eq_nil_iff : trim cs = [] ↔ ∀ c ∈ cs, isBlank c = true := by
  constructor
  · intro h
    have hleft : ∀ c ∈ trimLeft cs, isBlank c = true := List.rdropWhile_eq_nil_iff.1 h
    have hnil : trimLeft cs = [] := by
      by_contra hne
      -- what is left in front begins with a character that is no blank
      obtain ⟨c, rest, hcons⟩ := List.exists_cons_of_ne_nil hne
      have hnot := List.head?_dropWhile_not isBlank cs
      rw [trimLeft] at hcons
      rw [hcons] at hnot
      have hblank : isBlank c = true := hleft c (by rw [trimLeft, hcons]; simp)
      simp [hblank] at hnot
    exact List.dropWhile_eq_nil_iff.1 hnil
  · intro h
    rw [trim, trimLeft, List.dropWhile_eq_nil_iff.2 h]
    rfl

/-- Blanks around a trimmed text are all that trimming takes away. -/
theorem trim_append_append {front behind : List Char} (hfront : ∀ c ∈ front, isBlank c = true)
    (h : IsTrimmed cs) (hne : cs ≠ []) (hbehind : ∀ c ∈ behind, isBlank c = true) :
    trim (front ++ cs ++ behind) = cs := by
  have hhead : ∀ c, (cs ++ behind).head? = some c → isBlank c = false := by
    intro c hc
    apply h.head
    rwa [List.head?_append_of_ne_nil _ hne] at hc
  have hlast : ∀ c, cs.reverse.head? = some c → isBlank c = false := by
    intro c hc
    rw [List.head?_reverse] at hc
    exact h.last c hc
  have hreverse : ∀ c ∈ behind.reverse, isBlank c = true := by
    intro c hc
    exact hbehind c (List.mem_reverse.1 hc)
  rw [trim, trimLeft, List.append_assoc, List.dropWhile_append_of_pos hfront,
    dropWhile_isBlank_of_head hhead, trimRight, List.reverse_append,
    List.dropWhile_append_of_pos hreverse, dropWhile_isBlank_of_head hlast, List.reverse_reverse]

theorem isTrimmed_of_forall (h : ∀ c ∈ cs, isBlank c = false) : IsTrimmed cs :=
  ⟨fun c hc => h c (List.mem_of_mem_head? hc), fun c hc => h c (List.mem_of_mem_getLast? hc)⟩

/-- A text between two characters that are no blanks is trimmed. -/
theorem isTrimmed_between {c d : Char} (hc : isBlank c = false) (hd : isBlank d = false)
    (cs : List Char) : IsTrimmed (c :: (cs ++ [d])) := by
  constructor
  · intro b hb
    obtain rfl := Option.some.inj hb
    exact hc
  · intro b hb
    rw [← List.cons_append, List.getLast?_concat] at hb
    obtain rfl := Option.some.inj hb
    exact hd

/-- What stands behind the last occurrence of a character tells what stands in front of it. -/
theorem eq_of_append_cons_eq {c : Char} {front front' behind behind' : List Char}
    (hc : c ∉ behind) (hc' : c ∉ behind') (h : front ++ c :: behind = front' ++ c :: behind') :
    front = front' ∧ behind = behind' := by
  rcases List.append_eq_append_iff.1 h with ⟨between, rfl, hbetween⟩ | ⟨between, rfl, hbetween⟩
  · rcases List.cons_eq_append_iff.1 hbetween with ⟨rfl, heq⟩ | ⟨rest, rfl, heq⟩
    · exact ⟨(List.append_nil _).symm, (List.cons.inj heq).2.symm⟩
    · exact absurd (heq ▸ List.mem_append_right rest List.mem_cons_self) hc
  · rcases List.cons_eq_append_iff.1 hbetween with ⟨rfl, heq⟩ | ⟨rest, rfl, heq⟩
    · exact ⟨List.append_nil _, (List.cons.inj heq).2⟩
    · exact absurd (heq ▸ List.mem_append_right rest List.mem_cons_self) hc'

/-! ## Classes that hold no blanks -/

/-- Ranges without a common code point have no common character. -/
theorem inRanges_eq_false_of_disjoint {ranges others : List (Nat × Nat)} {c : Char}
    (hdisjoint : ∀ r ∈ ranges, ∀ s ∈ others, r.2 < s.1 ∨ s.2 < r.1)
    (h : inRanges others c = true) : inRanges ranges c = false := by
  by_contra hmem
  rw [Bool.not_eq_false, inRanges, List.any_eq_true] at hmem
  rw [inRanges, List.any_eq_true] at h
  obtain ⟨r, hr, hin⟩ := hmem
  obtain ⟨s, hs, hin'⟩ := h
  have hbetween := hdisjoint r hr s hs
  simp only [Bool.and_eq_true, decide_eq_true_eq] at hin hin'
  omega

/-- Of the ranges of blanks the first two lie in ASCII, and the space is the last of them. -/
theorem toNat_le_of_isBlank {c : Char} (h : isBlank c = true) (hc : c.toNat < 128) :
    c.toNat ≤ 32 := by
  simp only [isBlank, inRanges, blankRanges, List.any_cons, List.any_nil, Bool.or_eq_true,
    Bool.and_eq_true, decide_eq_true_eq, Bool.false_eq_true, or_false] at h
  omega

/-- A class that has no member up to the space in ASCII, and beyond ASCII the members of ranges that
blanks do not lie in, holds no blank. -/
theorem class_eq_false_of_isBlank {ascii : Char → Bool} {ranges : List (Nat × Nat)} {c : Char}
    (hascii : c.toNat ≤ 32 → ascii c = false)
    (hranges : ∀ r ∈ ranges, ∀ s ∈ blankRanges, r.2 < s.1 ∨ s.2 < r.1) (h : isBlank c = true) :
    (if c.toNat < 128 then ascii c else inRanges ranges c) = false := by
  by_cases hc : c.toNat < 128
  · rw [if_pos hc]
    exact hascii (toNat_le_of_isBlank h hc)
  · rw [if_neg hc]
    exact inRanges_eq_false_of_disjoint hranges h

/-- A letter is no blank. -/
theorem isLetter_of_isBlank {c : Char} (h : isBlank c = true) : isLetter c = false := by
  refine class_eq_false_of_isBlank (fun hc => ?_) (by decide +kernel) h
  have ha : ('a' : Char).val.toNat = 97 := rfl
  have hA : ('A' : Char).val.toNat = 65 := rfl
  simp only [isAsciiLetter, Char.le_def, UInt32.le_iff_toNat_le, Bool.or_eq_false_iff,
    Bool.and_eq_false_iff, decide_eq_false_iff_not]
  simp only [Char.toNat] at hc
  omega

/-- A numeral is no blank. -/
theorem isNumeral_of_isBlank {c : Char} (h : isBlank c = true) : isNumeral c = false := by
  refine class_eq_false_of_isBlank (fun hc => ?_) (by decide +kernel) h
  have hzero : ('0' : Char).val.toNat = 48 := rfl
  simp only [isDigit, Char.le_def, UInt32.le_iff_toNat_le, Bool.and_eq_false_iff,
    decide_eq_false_iff_not]
  simp only [Char.toNat] at hc
  omega

end Wavefront.Text
