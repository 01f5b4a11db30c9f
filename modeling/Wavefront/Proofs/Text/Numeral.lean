/-
Numerals: which texts are indices.

The decimal text of a number has digits only and denotes the number, so it is an index as long as
the number fits a word; it has no blanks to trim either. A character that is neither a digit nor a
sign keeps a text from being an index.
-/
import Mathlib.Data.Option.Basic
import Wavefront.Proofs.Text.Blank

set_option autoImplicit false

namespace Wavefront

/-- A numeral has only digits. -/
theorem isDigit_of_mem_toString {i : Nat} {c : Char} (h : c ∈ (toString i).toList) :
    c.isDigit = true := by
  rw [Nat.toString_eq_ofList_toDigits, String.toList_ofList] at h
  exact Nat.isDigit_of_mem_toDigits (by decide) (by decide) h

namespace Text

/-- What has a character that is no digit and no sign is no index. -/
theorem index?_eq_none_of_mem {cs : List Char} {c : Char} (hmem : c ∈ cs)
    (hdigit : Text.isDigit c = false) (hplus : c ≠ '+') : Text.index? cs = none := by
  have hnatural : ∀ ds : List Char, c ∈ ds → Text.natural? ds = none := fun ds hds => by
    refine if_neg fun h => ?_
    have hall := List.all_eq_true.1 h.2 c hds
    rw [hdigit] at hall
    cases hall
  unfold Text.index?
  split
  · rename_i rest
    simp only [hnatural rest ((List.mem_cons.1 hmem).resolve_left hplus)]
    rfl
  · simp only [hnatural cs hmem]
    rfl

/-! ## The text of a number -/

/-- No digit is a blank. -/
theorem isBlank_of_isDigit {c : Char} (h : c.isDigit = true) : isBlank c = false := by
  obtain ⟨hlow, hhigh⟩ := Char.isDigit_iff_toNat.1 h
  change 48 ≤ c.toNat at hlow
  change c.toNat ≤ 57 at hhigh
  by_contra hblank
  have hle := toNat_le_of_isBlank (Bool.not_eq_false _ ▸ hblank) (by omega)
  omega

/-- A digit of the text of a number is no blank. -/
theorem isBlank_of_mem_toString {i : Nat} {c : Char} (h : c ∈ (toString i).toList) :
    isBlank c = false :=
  isBlank_of_isDigit (isDigit_of_mem_toString h)

theorem toString_ne_nil (i : Nat) : (toString i).toList ≠ [] := by
  rw [Nat.toString_eq_ofList_toDigits, String.toList_ofList]
  exact Nat.toDigits_ne_nil

/-- The text of a number is a run of digits that denotes it. -/
theorem natural?_toString (i : Nat) : natural? (toString i).toList = some i := by
  have hall : (toString i).toList.all isDigit = true := by
    rw [List.all_eq_true]
    intro c hc
    exact isDigit_of_mem_toString hc
  have hvalue : digitsValue (toString i).toList = i := by
    rw [Nat.toString_eq_ofList_toDigits, String.toList_ofList]
    exact Nat.ofDigitChars_ten_toDigits
  rw [natural?, if_pos ⟨toString_ne_nil i, hall⟩, hvalue]

/-- The text of a number is an index if the number fits a word. -/
theorem index?_toString {i : Nat} (h : i < indexLimit) : index? (toString i).toList = some i := by
  have hsign : ∀ rest, (toString i).toList ≠ '+' :: rest := by
    intro rest heq
    have hplus : '+' ∈ (toString i).toList := by
      rw [heq]
      exact List.mem_cons_self
    exact absurd (isDigit_of_mem_toString hplus) (by decide)
  unfold index?
  split
  · next rest heq => exact absurd heq (hsign rest)
  · dsimp only
    rw [natural?_toString, Option.bind_eq_bind, Option.bind_some, guard, if_pos h]
    rfl

/-- A number that is read from an index fits a word. -/
theorem lt_of_index? {cs : List Char} {i : Nat} (h : index? cs = some i) : i < indexLimit := by
  unfold index? at h
  obtain ⟨n, -, h⟩ := Option.bind_eq_some_iff.1 h
  by_cases hlimit : n < indexLimit
  · rw [guard, if_pos hlimit] at h
    obtain rfl := Option.some.inj h
    exact hlimit
  · rw [guard, if_neg hlimit] at h
    contradiction

/-! ## Runs of digits as decimal literals -/

/-- No digit has another case. -/
theorem toLower_of_isDigit {c : Char} (h : isDigit c = true) : c.toLower = c := by
  have hhigh := (Char.isDigit_iff_toNat.1 h).2
  change c.val.toNat ≤ 57 at hhigh
  refine dif_neg fun hletter => ?_
  have hlow : 65 ≤ c.val.toNat := UInt32.le_iff_toNat_le.1 hletter.1
  omega

/-- A run of digits is a decimal literal without sign, point and exponent. -/
theorem literal?_of_digits {cs : List Char} (hne : cs ≠ []) (h : ∀ c ∈ cs, isDigit c = true) :
    literal? cs = some (.decimal false (digitsValue cs) 0) := by
  have hnot : ∀ c, isDigit c = false → c ∉ cs := by
    intro c hc hmem
    rw [h c hmem] at hc
    contradiction
  have htake : cs.takeWhile isDigit = cs := List.takeWhile_eq_self_iff.2 h
  have hdrop : cs.dropWhile isDigit = [] := List.dropWhile_eq_nil_iff.2 h
  have hdecimal : unsignedDecimal? cs = some (digitsValue cs, 0) := by
    simp [unsignedDecimal?, htake, hdrop, hne]
  have hsign : splitSign cs = (false, cs) := by
    unfold splitSign
    split
    · exact absurd List.mem_cons_self (hnot '-' (by decide))
    · exact absurd List.mem_cons_self (hnot '+' (by decide))
    · rfl
  have hlower : cs.map Char.toLower = cs := by
    rw [List.map_congr_left fun c hc => toLower_of_isDigit (h c hc), List.map_id']
  rw [literal?, hsign]
  dsimp only
  rw [hlower, hdecimal]
  split
  · exact absurd List.mem_cons_self (hnot 'i' (by decide))
  · exact absurd List.mem_cons_self (hnot 'i' (by decide))
  · exact absurd List.mem_cons_self (hnot 'n' (by decide))
  · rfl

end Text

end Wavefront
