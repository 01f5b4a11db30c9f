/-
Rounding: a fraction is taken to the nearest word.

The words below the sign bit, taken as an unbroken row, denote a rising sequence of numbers, in
which the word of infinity has the place of `2 ^ 1024`. A fraction is rounded on the grid of its own
exponent. There the next number is one step of the grid away on either side, except where the
exponent changes, and at such a place the fraction is on the other side. So no word is nearer than
the one on the grid, and of two that are equally near the even one is taken.
-/
import Mathlib
import Wavefront.Binary64.Basic

set_option autoImplicit false

namespace Wavefront

namespace Binary64

/-! ## The numbers that words denote -/

/-- The number that a magnitude denotes. Infinity counts as the number that would come next. -/
def value (magnitude : Nat) : ℚ := (decode magnitude).1 * 2 ^ (decode magnitude).2

/-- The distance from one number to the next, `e` steps of the exponent above the least. -/
def step (e : Nat) : ℚ := 2 ^ ((e : ℤ) + leastExponent)

section Grid

variable {e m : Nat}

theorem step_pos : 0 < step e := zpow_pos two_pos _

/-- The grid of the next exponent is twice as coarse. -/
theorem step_succ : step (e + 1) = 2 * step e := by
  rw [step, step, ← zpow_one_add₀ two_ne_zero]
  congr 1
  push_cast
  ring

/-- Below the first power of two the words lie on the finest grid, with nothing in front of their
fraction. -/
theorem decode_of_lt (h : m < exponentWeight) : decode m = (m, leastExponent) := by
  simp only [decode, Nat.div_eq_of_lt h, Nat.mod_eq_of_lt h, if_true]

/-- From there on a word is its exponent and a significand with its leading bit. -/
theorem decode_of_le (hlow : exponentWeight ≤ m) (hhigh : m < 2 * exponentWeight) :
    decode (e * exponentWeight + m) = (m, e + leastExponent) := by
  have hword : e * exponentWeight + m = (m - exponentWeight) + exponentWeight * (e + 1) := by
    rw [Nat.mul_add, Nat.mul_comm e]
    omega
  have hfraction : m - exponentWeight < exponentWeight := by omega
  have hpos : 0 < exponentWeight := by decide
  have hdiv : (e * exponentWeight + m) / exponentWeight = e + 1 := by
    rw [hword, Nat.add_mul_div_left _ _ hpos, Nat.div_eq_of_lt hfraction, Nat.zero_add]
  have hmod : (e * exponentWeight + m) % exponentWeight = m - exponentWeight := by
    rw [hword, Nat.add_mul_mod_self_left, Nat.mod_eq_of_lt hfraction]
  simp only [decode, hdiv, hmod, Nat.add_one_ne_zero, if_false, Prod.mk.injEq]
  constructor
  · omega
  · push_cast
    ring

/-- The word with the significand `m` on the grid of `step e`. The significand may be one above the
greatest, which is the carry to the next grid. -/
theorem value_grid (hlow : e = 0 ∨ exponentWeight ≤ m) (hhigh : m ≤ 2 * exponentWeight) :
    value (e * exponentWeight + m) = m * step e := by
  rcases Nat.lt_or_ge m exponentWeight with hm | hm
  · obtain rfl : e = 0 := by omega
    rw [value, Nat.zero_mul, Nat.zero_add, decode_of_lt hm, step, Nat.cast_zero, zero_add]
  rcases Nat.lt_or_eq_of_le hhigh with hm' | rfl
  · rw [value, decode_of_le hm hm', step]
  · -- the word of the carry has the least significand of the next grid
    have hpos : 0 < exponentWeight := by decide
    have hcarry : e * exponentWeight + 2 * exponentWeight
        = (e + 1) * exponentWeight + exponentWeight := by
      rw [Nat.add_mul]
      omega
    rw [value, hcarry, decode_of_le (Nat.le_refl _) (by omega)]
    change (exponentWeight : ℚ) * step (e + 1) = _
    rw [step_succ, Nat.cast_mul, Nat.cast_two]
    ring

/-- Every word is on a grid, below the carry. -/
theorem exists_grid (k : Nat) :
    ∃ e m, k = e * exponentWeight + m ∧ (e = 0 ∨ exponentWeight ≤ m) ∧ m < 2 * exponentWeight := by
  have hpos : 0 < exponentWeight := by decide
  rcases Nat.lt_or_ge k exponentWeight with hk | hk
  · exact ⟨0, k, by omega, .inl rfl, by omega⟩
  · have hword := Nat.div_add_mod k exponentWeight
    have hone : 1 ≤ k / exponentWeight := (Nat.one_le_div_iff hpos).2 hk
    have hmod := Nat.mod_lt k hpos
    refine ⟨k / exponentWeight - 1, exponentWeight + k % exponentWeight, ?_, .inr (by omega), by omega⟩
    rw [Nat.sub_mul, Nat.one_mul, Nat.mul_comm]
    have hle : exponentWeight ≤ exponentWeight * (k / exponentWeight) := Nat.le_mul_of_pos_right _ hone
    omega

/-- A greater word denotes a greater number. -/
theorem value_strictMono : StrictMono value := by
  refine strictMono_nat_of_lt_succ fun k => ?_
  obtain ⟨e, m, rfl, hlow, hhigh⟩ := exists_grid k
  rw [value_grid hlow (by omega), Nat.add_assoc, value_grid (by omega) (by omega), Nat.cast_succ]
  exact mul_lt_mul_of_pos_right (lt_add_one _) step_pos

end Grid

/-! ## Rounding to a natural number -/

/-- The natural number `m` is at most one half away from `x`, and it is even if it is one half
away. -/
structure IsRounded (x : ℚ) (m : Nat) : Prop where
  low : m - 1 / 2 ≤ x
  high : x ≤ m + 1 / 2
  even : x = m - 1 / 2 ∨ x = m + 1 / 2 → m % 2 = 0

/-- A quotient is rounded to the nearest natural number, and half-way to the even one. -/
theorem isRounded_divideToEven {n d : Nat} (hd : 0 < d) : IsRounded (n / d) (divideToEven n d) := by
  have hpos : (0 : ℚ) < d := Nat.cast_pos.2 hd
  have hn : (n : ℚ) / d = (n / d : Nat) + (n % d : Nat) / d := by
    rw [div_eq_iff hpos.ne', add_mul, div_mul_cancel₀ _ hpos.ne']
    exact_mod_cast (Nat.div_add_mod' n d).symm
  have hlow : (0 : ℚ) ≤ (n % d : Nat) / d := div_nonneg (Nat.cast_nonneg _) hpos.le
  have hhigh : ((n % d : Nat) : ℚ) / d < 1 := by
    rw [div_lt_one hpos]
    exact_mod_cast Nat.mod_lt n hd
  rw [hn, divideToEven]
  generalize n / d = quotient
  have hsucc : ((quotient + 1 : Nat) : ℚ) = quotient + 1 := Nat.cast_succ quotient
  split
  · next hlt =>
    have hhalf : ((n % d : Nat) : ℚ) / d < 1 / 2 := by
      rw [div_lt_div_iff₀ hpos two_pos]
      exact_mod_cast (by omega : n % d * 2 < 1 * d)
    constructor
    · linarith
    · linarith
    · rintro (h | h) <;> linarith
  split
  · next hgt =>
    have hhalf : (1 : ℚ) / 2 < (n % d : Nat) / d := by
      rw [div_lt_div_iff₀ two_pos hpos]
      exact_mod_cast (by omega : 1 * d < n % d * 2)
    constructor
    · linarith
    · linarith
    · rintro (h | h) <;> linarith
  · have hhalf : ((n % d : Nat) : ℚ) / d = 1 / 2 := by
      rw [div_eq_div_iff hpos.ne' two_ne_zero]
      exact_mod_cast (by omega : n % d * 2 = 1 * d)
    rw [hhalf]
    -- an odd quotient goes up to the even number above it
    rcases Nat.mod_two_eq_zero_or_one quotient with hparity | hparity
    · rw [hparity, Nat.add_zero]
      exact ⟨by linarith, le_rfl, fun _ => hparity⟩
    · rw [hparity]
      exact ⟨by linarith, by linarith, fun _ => by omega⟩

/-! ## The nearest word -/

/-- The word is one of `words`. None of them is nearer to `r`, and if another one is as near, the
word is even. -/
structure IsNearest (words : Set Nat) (r : ℚ) (word : Nat) : Prop where
  mem : word ∈ words
  nearest : ∀ k ∈ words, |value word - r| ≤ |value k - r|
  even_of_tie : ∀ k ∈ words, k ≠ word → |value word - r| = |value k - r| → word % 2 = 0

/-- The number lies where all words are on the grid of `step e`. -/
structure OnGrid (e : Nat) (r : ℚ) : Prop where
  nonneg : 0 ≤ r
  low : e = 0 ∨ exponentWeight * step e ≤ r
  high : r < 2 * exponentWeight * step e

section Nearest

variable {e m k top a b : Nat} {r : ℚ}

/-- The significand of a number on a grid is that of a word on the grid, the carry included. -/
theorem OnGrid.significand (h : OnGrid e r) (hm : IsRounded (r / step e) m) :
    (e = 0 ∨ exponentWeight ≤ m) ∧ m ≤ 2 * exponentWeight := by
  have hstep : 0 < step e := step_pos
  have hlow := hm.low
  have hhigh := hm.high
  constructor
  -- rounding cannot leave the binade downwards: its lower end is on the grid itself
  · refine h.low.imp_right fun hr => ?_
    rw [← le_div_iff₀ hstep] at hr
    have hlt : (exponentWeight : ℚ) < (m + 1 : Nat) := by
      push_cast
      linarith
    exact Nat.lt_succ_iff.1 (Nat.cast_lt.1 hlt)
  -- upwards it can come to the end, which is the first word of the next exponent
  · have hr := h.high
    rw [← div_lt_iff₀ hstep] at hr
    have hlt : (m : ℚ) < (2 * exponentWeight + 1 : Nat) := by
      push_cast
      linarith
    exact Nat.lt_succ_iff.1 (Nat.cast_lt.1 hlt)

/-- Where the number lies below its word, the words below that one are a step or more away from
it. -/
theorem OnGrid.value_le (h : OnGrid e r) (hm : IsRounded (r / step e) m) (hr : r < m * step e)
    (hk : k < e * exponentWeight + m) : value k ≤ m * step e - step e := by
  have hstep : 0 < step e := step_pos
  -- the least significand of a grid is not above a number on the grid
  have hpos : 0 < m := by
    have hlt : 0 < m * step e := h.nonneg.trans_lt hr
    exact Nat.cast_pos.1 (pos_of_mul_pos_left hlt hstep.le)
  have hlow : e = 0 ∨ exponentWeight < m := by
    refine h.low.imp_right fun hle => ?_
    exact Nat.cast_lt.1 (lt_of_mul_lt_mul_right (hle.trans_lt hr) hstep.le)
  have hhigh := (h.significand hm).2
  calc value k ≤ value (e * exponentWeight + (m - 1)) := value_strictMono.monotone (by omega)
    _ = (m - 1 : Nat) * step e := value_grid (by omega) (by omega)
    _ = m * step e - step e := by
      rw [Nat.cast_sub hpos]
      ring

/-- Where the number lies above its word, the words above that one are a step or more away from
it. -/
theorem OnGrid.le_value (h : OnGrid e r) (hm : IsRounded (r / step e) m) (hr : m * step e < r)
    (hk : e * exponentWeight + m < k) : m * step e + step e ≤ value k := by
  have hstep : 0 < step e := step_pos
  have hlow := (h.significand hm).1
  have hhigh : m < 2 * exponentWeight := by
    have hlt := lt_of_mul_lt_mul_right (hr.trans h.high) hstep.le
    exact_mod_cast hlt
  calc m * step e + step e = (m + 1 : Nat) * step e := by
        rw [Nat.cast_succ]
        ring
    _ = value (e * exponentWeight + (m + 1)) := (value_grid (by omega) (by omega)).symm
    _ ≤ value k := value_strictMono.monotone (by omega)

/-- The word that a number is rounded to is at most a half step away. -/
theorem IsRounded.near (hm : IsRounded (r / step e) m) : |m * step e - r| ≤ step e / 2 := by
  have hstep : 0 < step e := step_pos
  have hlow := hm.low
  have hhigh := hm.high
  rw [le_div_iff₀ hstep] at hlow
  rw [div_le_iff₀ hstep] at hhigh
  exact abs_le.2 ⟨by linarith, by linarith⟩

/-- A word other than the rounded one is farther away, or a half step or more. -/
theorem OnGrid.far (h : OnGrid e r) (hm : IsRounded (r / step e) m) (hk : k ≠ e * exponentWeight + m) :
    |m * step e - r| < |value k - r| ∨ step e / 2 ≤ |value k - r| := by
  have hstep : 0 < step e := step_pos
  obtain ⟨hlow, hhigh⟩ := abs_le.1 hm.near
  obtain ⟨hgrid, hcarry⟩ := h.significand hm
  have hvalue := value_grid hgrid hcarry
  -- on the side where the number lies the other words are a step away from the rounded one, and on the
  -- other side any word is farther away than the rounded one
  rcases Nat.lt_or_gt_of_ne hk with hlt | hgt
  · have hless := value_strictMono hlt
    rcases lt_or_ge r (m * step e) with hr | hr
    · have hle := h.value_le hm hr hlt
      exact .inr (le_abs.2 (.inr (by linarith)))
    · rw [abs_of_nonpos (by linarith), abs_of_nonpos (by linarith)]
      exact .inl (by linarith)
  · have hless := value_strictMono hgt
    rcases lt_or_ge (m * step e) r with hr | hr
    · have hle := h.le_value hm hr hgt
      exact .inr (le_abs.2 (.inl (by linarith)))
    · rw [abs_of_nonneg (by linarith), abs_of_nonneg (by linarith)]
      exact .inl (by linarith)

/-- A number on a grid is nearest to the word that it is rounded to there. -/
theorem OnGrid.isNearest (h : OnGrid e r) (hm : IsRounded (r / step e) m) :
    IsNearest Set.univ r (e * exponentWeight + m) := by
  have hstep : 0 < step e := step_pos
  obtain ⟨hgrid, hcarry⟩ := h.significand hm
  refine ⟨Set.mem_univ _, fun k _ => ?_, fun k _ hk heq => ?_⟩
  · rw [value_grid hgrid hcarry]
    rcases eq_or_ne k (e * exponentWeight + m) with rfl | hk
    · rw [value_grid hgrid hcarry]
    · rcases h.far hm hk with hfar | hfar
      · exact hfar.le
      · exact hm.near.trans hfar
  · rw [value_grid hgrid hcarry] at heq
    have hhalf : |m * step e - r| = step e / 2 := by
      rcases h.far hm hk with hfar | hfar
      · exact absurd heq hfar.ne
      · exact hm.near.antisymm (heq ▸ hfar)
    -- half-way the significand is even, and the exponent adds an even number to it
    have heven : m % 2 = 0 := by
      apply hm.even
      rw [div_eq_iff hstep.ne', div_eq_iff hstep.ne']
      rcases (abs_eq (by linarith)).1 hhalf with heq | heq
      · exact .inl (by linarith)
      · exact .inr (by linarith)
    have hweight : exponentWeight % 2 = 0 := by decide
    rw [Nat.add_mod, Nat.mul_mod, hweight, heven, Nat.mul_zero]

/-- Where words are cut off, what is rounded beyond the last one is nearest to that one. -/
theorem IsNearest.min {word : Nat} (h : IsNearest Set.univ r word) (top : Nat) :
    IsNearest (Set.Iic top) r (min top word) := by
  rcases Nat.lt_or_ge top word with hgt | hle
  · rw [Nat.min_eq_left hgt.le]
    -- the number is nearer to a word above the last one, so it is itself above
    have habove : value top < r := by
      have hless := value_strictMono hgt
      have hnear := h.nearest top trivial
      by_contra hr
      rw [abs_of_nonneg (by linarith), abs_of_nonneg (by linarith)] at hnear
      linarith
    refine ⟨Set.mem_Iic.2 (Nat.le_refl _), fun k hk => ?_, fun k hk hne heq => ?_⟩
    · have hbelow := value_strictMono.monotone hk
      rw [abs_of_neg (by linarith), abs_of_neg (by linarith)]
      linarith
    · have hbelow := value_strictMono (Nat.lt_of_le_of_ne hk hne)
      rw [abs_of_neg (by linarith), abs_of_neg (by linarith)] at heq
      linarith
  · rw [Nat.min_eq_right hle]
    exact ⟨hle, fun k _ => h.nearest k trivial, fun k _ => h.even_of_tie k trivial⟩

/-- Of two words that are equally near none lies between them, so one of the two is odd. -/
theorem IsNearest.not_lt (ha : IsNearest (Set.Iic top) r a) (hb : IsNearest (Set.Iic top) r b) :
    ¬a < b := by
  intro hlt
  have heq := (ha.nearest b hb.mem).antisymm (hb.nearest a ha.mem)
  have hless := value_strictMono hlt
  have hmiddle : value a - r = -(value b - r) := by
    rcases abs_eq_abs.1 heq with h | h
    · linarith
    · exact h
  -- the word behind `a` would be nearer than both
  have hsucc : b = a + 1 := by
    by_contra hne
    have hbetween : a + 1 < b := by omega
    have hleft := value_strictMono (Nat.lt_succ_self a)
    have hright := value_strictMono hbetween
    have hnear := ha.nearest (a + 1) (hbetween.le.trans hb.mem)
    rw [abs_of_neg (by linarith)] at hnear
    exact absurd hnear (not_le.2 (abs_lt.2 ⟨by linarith, by linarith⟩))
  have heven := ha.even_of_tie b hb.mem (by omega) heq
  have heven' := hb.even_of_tie a ha.mem (by omega) heq.symm
  omega

/-- There is only one word nearest to a number. -/
theorem IsNearest.unique (ha : IsNearest (Set.Iic top) r a) (hb : IsNearest (Set.Iic top) r b) :
    a = b :=
  Nat.le_antisymm (Nat.le_of_not_lt (hb.not_lt ha)) (Nat.le_of_not_lt (ha.not_lt hb))

end Nearest

/-! ## Rounding a fraction -/

section Fraction

variable {n d : Nat}

/-- Scaling multiplies the fraction by the power of two. -/
theorem scale_spec (n : Nat) (hd : 0 < d) (e : Int) :
    ((scale n d e).1 : ℚ) / (scale n d e).2 = n / d * 2 ^ e ∧ 0 < (scale n d e).2 := by
  rw [scale]
  split
  · next he =>
    lift e to Nat using he
    refine ⟨?_, hd⟩
    rw [Int.toNat_natCast, Nat.shiftLeft_eq, zpow_natCast]
    push_cast
    ring
  · next he =>
    obtain ⟨k, rfl⟩ : ∃ k : Nat, e = -k := ⟨e.natAbs, by omega⟩
    rw [neg_neg, Int.toNat_natCast, Nat.shiftLeft_eq, zpow_neg, zpow_natCast]
    refine ⟨?_, Nat.mul_pos hd (Nat.two_pow_pos k)⟩
    push_cast
    rw [← div_div, div_eq_mul_inv (_ / _)]

/-- A positive number lies between the power of two of its logarithm and the next one. -/
theorem log2_spec (hn : 0 < n) :
    (2 : ℚ) ^ (Nat.log2 n : ℤ) ≤ n ∧ (n : ℚ) < 2 ^ ((Nat.log2 n : ℤ) + 1) := by
  constructor
  · exact_mod_cast Nat.log2_self_le hn.ne'
  · exact_mod_cast Nat.lt_log2_self

/-- So does a positive fraction. -/
theorem floorLog2_spec (hn : 0 < n) (hd : 0 < d) :
    (2 : ℚ) ^ floorLog2 n d ≤ n / d ∧ (n : ℚ) / d < 2 ^ (floorLog2 n d + 1) := by
  have htwo : (2 : ℚ) ≠ 0 := two_ne_zero
  have hpos : (0 : ℚ) < d := Nat.cast_pos.2 hd
  obtain ⟨hnlow, hnhigh⟩ := log2_spec hn
  obtain ⟨hdlow, hdhigh⟩ := log2_spec hd
  -- the difference of the logarithms is at most one too great
  have hlow : (2 : ℚ) ^ ((Nat.log2 n : ℤ) - Nat.log2 d - 1) ≤ n / d := by
    rw [sub_sub, zpow_sub₀ htwo]
    exact div_le_div₀ (Nat.cast_nonneg n) hnlow hpos hdhigh.le
  have hhigh : (n : ℚ) / d < 2 ^ ((Nat.log2 n : ℤ) - Nat.log2 d + 1) := by
    rw [sub_add_eq_add_sub, zpow_sub₀ htwo]
    exact div_lt_div₀ hnhigh hdlow (zpow_pos two_pos _).le (zpow_pos two_pos _)
  obtain ⟨hscale, hscaled⟩ := scale_spec n hd (-((Nat.log2 n : ℤ) - Nat.log2 d))
  rw [floorLog2]
  generalize (Nat.log2 n : ℤ) - Nat.log2 d = guess at *
  have hpower : (0 : ℚ) < 2 ^ guess := zpow_pos two_pos _
  rw [zpow_neg, ← div_eq_mul_inv] at hscale
  generalize scale n d (-guess) = scaled at *
  obtain ⟨n', d'⟩ := scaled
  have hscaled' : (0 : ℚ) < d' := Nat.cast_pos.2 hscaled
  dsimp only at hscale ⊢
  split
  · next hlt =>
    have hless : (n : ℚ) / d < 2 ^ guess := by
      rw [← div_lt_one hpower, ← hscale, div_lt_one hscaled']
      exact Nat.cast_lt.2 hlt
    rw [sub_add_cancel]
    exact ⟨hlow, hless⟩
  · next hge =>
    have hle : (2 : ℚ) ^ guess ≤ n / d := by
      rw [← one_le_div hpower, ← hscale, one_le_div hscaled']
      exact Nat.cast_le.2 (Nat.le_of_not_lt hge)
    exact ⟨hle, hhigh⟩

/-- A positive fraction lies on the grid that it is rounded on. -/
theorem onGrid_floorLog2 (hn : 0 < n) (hd : 0 < d) {e : Nat}
    (he : max (floorLog2 n d - 52) leastExponent = e + leastExponent) : OnGrid e (n / d) := by
  obtain ⟨hlow, hhigh⟩ := floorLog2_spec hn hd
  have hweight : (exponentWeight : ℚ) = 2 ^ (52 : ℤ) := by norm_num [exponentWeight]
  have hpower : ∀ i : ℤ, 2 ^ i * step e = 2 ^ (i + (e + leastExponent)) := by
    intro i
    rw [step, ← zpow_add₀ two_ne_zero]
  refine ⟨div_nonneg (Nat.cast_nonneg n) (Nat.cast_nonneg d), ?_, ?_⟩
  · rcases Nat.eq_zero_or_pos e with hzero | hpos
    · exact .inl hzero
    · have hexponent : 52 + ((e : ℤ) + leastExponent) = floorLog2 n d := by omega
      rw [hweight, hpower, hexponent]
      exact .inr hlow
  · have hexponent : floorLog2 n d + 1 ≤ 53 + ((e : ℤ) + leastExponent) := by omega
    have hdouble : (2 : ℚ) * 2 ^ (52 : ℤ) = 2 ^ (53 : ℤ) := by norm_num
    rw [hweight, hdouble, hpower]
    exact hhigh.trans_le (zpow_le_zpow_right₀ one_le_two hexponent)

/-- A fraction is rounded to the word nearest to it. -/
theorem isNearest_roundRatio (n : Nat) (hd : 0 < d) :
    IsNearest (Set.Iic infinityWord) (n / d) (roundRatio n d) := by
  rcases Nat.eq_zero_or_pos n with rfl | hn
  -- the fraction zero has no exponent, and its word is met exactly
  · have hzero : value 0 = 0 := by
      rw [value, decode_of_lt (by decide), Nat.cast_zero, zero_mul]
    rw [roundRatio, if_pos rfl, Nat.cast_zero, zero_div]
    refine ⟨Nat.zero_le _, fun k _ => ?_, fun _ _ _ _ => rfl⟩
    rw [hzero, sub_zero, abs_zero]
    exact abs_nonneg _
  · obtain ⟨e, he⟩ : ∃ e : Nat, max (floorLog2 n d - 52) leastExponent = e + leastExponent :=
      ⟨(max (floorLog2 n d - 52) leastExponent - leastExponent).toNat, by omega⟩
    -- the grid is that of the fraction's own exponent, or the finest one below it
    obtain ⟨hscale, hscaled⟩ := scale_spec n hd (-(e + leastExponent))
    have hrounded := isRounded_divideToEven (n := (scale n d (-(e + leastExponent))).1) hscaled
    rw [hscale, zpow_neg, ← div_eq_mul_inv] at hrounded
    -- what is nearest among all words is nearest among the finite ones, once it is cut off
    have hnearest := ((onGrid_floorLog2 hn hd he).isNearest hrounded).min infinityWord
    rw [roundRatio, if_neg hn.ne', he]
    dsimp only
    rw [add_sub_cancel_right, Int.toNat_natCast]
    exact hnearest

end Fraction

/-! ## The nearest number -/

/-- The number nearest to `r`, which is not negative: infinity, where `r` is nearer to `2 ^ 1024`
than to every finite number. -/
structure IsNearestTo (x : Binary64) (r : ℚ) : Prop where
  sign : x.isNegative = false
  magnitude : IsNearest (Set.Iic infinityWord) r x.magnitude

/-- Up to infinity the word below the sign bit is the one that was given. -/
theorem magnitude_ofMagnitude {m : Nat} (h : m ≤ infinityWord) (negative : Bool) :
    (ofMagnitude negative m).magnitude = m := by
  have hm : m ≤ 0x7FF0000000000000 := h
  cases negative
  · simp only [magnitude, ofMagnitude, UInt64.toNat_ofNat', signWeight, Bool.false_eq_true, if_false]
    omega
  · simp only [magnitude, ofMagnitude, UInt64.toNat_ofNat', signWeight, if_true]
    omega

/-- A word without its sign bit is not negative. -/
theorem isNegative_ofMagnitude {m : Nat} (h : m ≤ infinityWord) :
    (ofMagnitude false m).isNegative = false := by
  have hm : m ≤ 0x7FF0000000000000 := h
  simp only [isNegative, ofMagnitude, UInt64.toNat_ofNat', signWeight, Bool.false_eq_true, if_false,
    decide_eq_false_iff_not]
  omega

/-- A natural number is rounded to the number nearest to it. -/
theorem isNearestTo_ofInt (n : Nat) : (ofInt n).IsNearestTo n := by
  have hnearest := isNearest_roundRatio n one_pos
  rw [Nat.cast_one, div_one] at hnearest
  have hword : ofInt n = ofMagnitude false (roundRatio n 1) := by
    rw [ofInt, Int.natAbs_natCast, decide_eq_false (by omega)]
  rw [hword]
  refine ⟨isNegative_ofMagnitude hnearest.mem, ?_⟩
  rw [magnitude_ofMagnitude hnearest.mem]
  exact hnearest

-- half-way between two neighbours the even one is taken, below as well as above
example : ofInt 9007199254740993 = ofInt 9007199254740992 := by decide +kernel
example : ofInt 9007199254740995 = ofInt 9007199254740996 := by decide +kernel

/-- There is only one number nearest to another. -/
theorem IsNearestTo.unique {r : ℚ} {x y : Binary64} (hx : x.IsNearestTo r) (hy : y.IsNearestTo r) : x = y := by
  have hword := hx.magnitude.unique hy.magnitude
  have hx' : ¬signWeight ≤ x.word.toNat := of_decide_eq_false hx.sign
  have hy' : ¬signWeight ≤ y.word.toNat := of_decide_eq_false hy.sign
  rw [Binary64.magnitude, Binary64.magnitude, Nat.mod_eq_of_lt (Nat.lt_of_not_le hx'),
    Nat.mod_eq_of_lt (Nat.lt_of_not_le hy')] at hword
  obtain ⟨x⟩ := x
  obtain ⟨y⟩ := y
  congr 1
  exact UInt64.toNat_inj.1 hword

end Binary64

end Wavefront
