/-
The delay before a retry is the exact product, clamped once.

On words the delay takes two operations that saturate: the power of two, and then its product with
the base delay. That the power is clamped before it is used changes nothing. A power that is clamped
is beyond the largest word, and so is its product with any base but zero, whether the power is
clamped first or not; and a base of zero gives zero either way. So nothing has to be known of the
exponent, which can be far beyond the width of a word, and everything else about delays is read off
the clamp of the exact product.
-/
import Mathlib
import Wavefront.Settings

set_option autoImplicit false

namespace Wavefront

namespace Settings

/-! ## Clamping -/

/-- A clamped number is what it was, or the largest word if that is less. -/
theorem toNat_saturate (n : Nat) : (saturate n).toNat = min wordMax n := by
  have hword : min n wordMax < UInt64.size :=
    Nat.lt_of_le_of_lt (Nat.min_le_right n wordMax) (by decide)
  rw [saturate, UInt64.toNat_ofNat_of_lt' hword, Nat.min_comm]

theorem saturate_mono {m n : Nat} (h : m ≤ n) : saturate m ≤ saturate n := by
  rw [UInt64.le_iff_toNat_le, toNat_saturate, toNat_saturate]
  omega

/-- A factor may be clamped before the product is: a factor that is cut off takes the product to the
largest word with it, unless the other factor is zero. -/
theorem saturate_mul_saturate (b n : Nat) : saturate (b * (saturate n).toNat) = saturate (b * n) := by
  apply UInt64.toNat_inj.1
  -- words are compared as numbers, so that what is left is about three minima
  rw [toNat_saturate, toNat_saturate, toNat_saturate]
  by_cases hn : n ≤ wordMax
  · rw [Nat.min_eq_right hn]
  · have hword : wordMax ≤ n := Nat.le_of_not_le hn
    rw [Nat.min_eq_left hword]
    by_cases hb : b = 0
    · rw [hb, Nat.zero_mul, Nat.zero_mul]
    · -- both products have left the words, the clamped one with the least factor that can
      have hclamped : wordMax ≤ b * wordMax := Nat.le_mul_of_pos_left wordMax (Nat.pos_of_ne_zero hb)
      have hexact : wordMax ≤ b * n := Nat.le_trans hclamped (Nat.mul_le_mul_left b hword)
      rw [Nat.min_eq_left hclamped, Nat.min_eq_left hexact]

/-- The powers of two that are words are those below the width of a word, so that the test of the
exponent is the clamp of the power. -/
theorem powerOfTwo_eq_saturate (n : Nat) : powerOfTwo n = saturate (2 ^ n) := by
  unfold powerOfTwo
  by_cases hn : n < 64
  · have hword : 2 ^ n ≤ wordMax :=
      Nat.le_trans (Nat.pow_le_pow_right Nat.two_pos (show n ≤ 63 by omega)) (by decide)
    rw [if_pos hn, Nat.one_shiftLeft, saturate, Nat.min_eq_left hword]
  · have hword : wordMax ≤ 2 ^ n :=
      Nat.le_trans (by decide) (Nat.pow_le_pow_right Nat.two_pos (show 64 ≤ n by omega))
    rw [if_neg hn, saturate, saturate, Nat.min_self, Nat.min_eq_right hword]

/-! ## Delays -/

variable {s t : Settings} {r q : UInt32}

theorem backoffMs_eq_saturate (s : Settings) (r : UInt32) :
    s.backoffMs r = saturate (s.retryBaseDelayMs.toNat * 2 ^ (r.toNat - 1)) := by
  rw [backoffMs, powerOfTwo_eq_saturate, saturate_mul_saturate]

example : [1, 2, 3].map ({} : Settings).backoffMs = [100, 200, 400] := by decide

/-- A later retry waits no shorter, and neither does one with a longer base delay. -/
theorem backoffMs_mono (hbase : s.retryBaseDelayMs ≤ t.retryBaseDelayMs) (hr : r ≤ q) :
    s.backoffMs r ≤ t.backoffMs q := by
  rw [UInt64.le_iff_toNat_le] at hbase
  rw [UInt32.le_iff_toNat_le] at hr
  rw [backoffMs_eq_saturate, backoffMs_eq_saturate]
  apply saturate_mono
  apply Nat.mul_le_mul hbase
  exact Nat.pow_le_pow_right Nat.two_pos (by omega)

/-- **The delay before a retry is exact and saturates once.** It is the base delay times the power
of two, as natural numbers, or the largest word if that is less. It never shrinks where the number
of the retry or the base delay grows. And at any exponent, also where no retry has that number, the
clamp of the power inside the clamp of the product takes nothing away and adds nothing. -/
theorem backoff_saturates_once (s : Settings) (r : UInt32) :
    (s.backoffMs r).toNat
      = min (2 ^ 64 - 1) (s.retryBaseDelayMs.toNat * 2 ^ (max r.toNat 1 - 1)) ∧
    (∀ (t : Settings) (q : UInt32), s.retryBaseDelayMs ≤ t.retryBaseDelayMs → r ≤ q →
      s.backoffMs r ≤ t.backoffMs q) ∧
    (∀ n, (saturate (s.retryBaseDelayMs.toNat * (powerOfTwo n).toNat)).toNat
      = min (2 ^ 64 - 1) (s.retryBaseDelayMs.toNat * 2 ^ n)) := by
  have hnested : ∀ n, (saturate (s.retryBaseDelayMs.toNat * (powerOfTwo n).toNat)).toNat
      = min (2 ^ 64 - 1) (s.retryBaseDelayMs.toNat * 2 ^ n) := by
    intro n
    rw [powerOfTwo_eq_saturate, saturate_mul_saturate, toNat_saturate]
    rfl
  refine ⟨?_, fun t q hbase hr => backoffMs_mono hbase hr, hnested⟩
  -- a retry with the number 0 is the first one
  have hexponent : max r.toNat 1 - 1 = r.toNat - 1 := by omega
  rw [backoffMs, hnested, hexponent]

/-- At a base of 3 the last product that is a word, and at a base of 5 the last retry that has a
number. -/
theorem backoff_saturates_once_lastWord :
    (3 : UInt64) ≤ 5 ∧ (63 : UInt32) ≤ 4294967295 ∧
    (({ retryBaseDelayMs := 3 } : Settings).backoffMs 63).toNat = 3 * 2 ^ 62 ∧
    ({ retryBaseDelayMs := 3 } : Settings).backoffMs 63
      ≤ ({ retryBaseDelayMs := 5 } : Settings).backoffMs 4294967295 := by
  have hbase : (3 : UInt64) ≤ 5 := by decide
  have hr : (63 : UInt32) ≤ 4294967295 := by decide
  obtain ⟨hexact, hmono, -⟩ := backoff_saturates_once { retryBaseDelayMs := 3 } 63
  exact ⟨hbase, hr, hexact.trans (by decide), hmono { retryBaseDelayMs := 5 } 4294967295 hbase hr⟩

end Settings

end Wavefront
