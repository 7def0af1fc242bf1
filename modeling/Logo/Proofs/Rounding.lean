import Mathlib.Algebra.Order.Field.Power
import Mathlib.Data.Rat.Cast.Order
import Mathlib.Tactic.FieldSimp
import Mathlib.Tactic.Linarith
import Mathlib.Tactic.NormNum
import Mathlib.Tactic.Positivity
import Mathlib.Tactic.Ring
import Logo.Decimal.Shortest

/-!
# Rounding to the nearest float

The arithmetic on ratios of whole numbers, said in rational numbers. `Binary.Fits`
holds of what the bits of a positive float stand for, and `Binary.bits` is how they
stand for it. Every ratio in the interval around such a number rounds to it
(`nearestBits_of_contains`), also just below a power of two, where the floats lie
twice as close, and among the subnormal numbers.
-/

namespace Logo.Decimal
set_option autoImplicit false

theorem twoPow_eq (n : Nat) : twoPow n = 2 ^ n := rfl

theorem tenPow_eq (n : Nat) : tenPow n = 10 ^ n := rfl

/-! ### Ratios -/

/-- The number that a ratio stands for. -/
def ratioValue (r : Nat × Nat) : ℚ := r.1 / r.2

def Binary.value (b : Binary) : ℚ := b.mantissa * 2 ^ b.exponent

def Scaled.value (s : Scaled) : ℚ := s.digits * 10 ^ s.exponent

theorem zpow_of_nonneg {q : ℚ} {e : Int} (he : 0 ≤ e) : q ^ e = q ^ e.toNat := by
  rw [← zpow_natCast, Int.toNat_of_nonneg he]

theorem zpow_of_neg {q : ℚ} {e : Int} (he : ¬ 0 ≤ e) : q ^ e = (q ^ (-e).toNat)⁻¹ := by
  rw [← zpow_natCast, Int.toNat_of_nonneg (by omega), ← zpow_neg, neg_neg]

theorem Binary.ratio_value (b : Binary) : ratioValue b.ratio = b.value := by
  unfold Binary.ratio Binary.value ratioValue
  split
  · rename_i he
    simp [zpow_of_nonneg he, twoPow_eq]
  · rename_i he
    simp [zpow_of_neg he, twoPow_eq, div_eq_mul_inv]

theorem Binary.ratio_pos (b : Binary) : 0 < b.ratio.2 := by
  unfold Binary.ratio
  split
  · exact Nat.one_pos
  · exact Nat.pow_pos Nat.two_pos

theorem Scaled.ratio_value (s : Scaled) : ratioValue s.ratio = s.value := by
  unfold Scaled.ratio Scaled.value ratioValue
  split
  · rename_i he
    simp [zpow_of_nonneg he, tenPow_eq]
  · rename_i he
    simp [zpow_of_neg he, tenPow_eq, div_eq_mul_inv]

theorem Scaled.ratio_pos (s : Scaled) : 0 < s.ratio.2 := by
  unfold Scaled.ratio
  split
  · exact Nat.one_pos
  · exact Nat.pow_pos (by decide)

section Comparison

variable {a b : Nat × Nat} (ha : 0 < a.2) (hb : 0 < b.2)
include ha hb

theorem ratioLe_iff : ratioLe a b = true ↔ ratioValue a ≤ ratioValue b := by
  have ha' : (0 : ℚ) < a.2 := by exact_mod_cast ha
  have hb' : (0 : ℚ) < b.2 := by exact_mod_cast hb
  unfold ratioLe ratioValue
  rw [div_le_div_iff₀ ha' hb', decide_eq_true_eq]
  exact_mod_cast Iff.rfl

theorem ratioLt_iff : ratioLt a b = true ↔ ratioValue a < ratioValue b := by
  have ha' : (0 : ℚ) < a.2 := by exact_mod_cast ha
  have hb' : (0 : ℚ) < b.2 := by exact_mod_cast hb
  unfold ratioLt ratioValue
  rw [div_lt_div_iff₀ ha' hb', decide_eq_true_eq]
  exact_mod_cast Iff.rfl

end Comparison

/-! ### The binary logarithm -/

/-- Whether a power is reached, checked in whole numbers. -/
theorem power_le_ratio_iff {q : Nat} (hq : 0 < q) (num : Nat) {den : Nat} (hd : 0 < den) (e : Int) :
    (if 0 ≤ e then den * q ^ e.toNat ≤ num else den ≤ num * q ^ (-e).toNat) ↔
      (q : ℚ) ^ e ≤ num / den := by
  have hd' : (0 : ℚ) < den := by exact_mod_cast hd
  rw [le_div_iff₀ hd']
  split
  · rename_i he
    rw [zpow_of_nonneg he, mul_comm]
    exact_mod_cast Iff.rfl
  · rename_i he
    have hp : (0 : ℚ) < (q : ℚ) ^ (-e).toNat := by positivity
    rw [zpow_of_neg he, ← div_eq_inv_mul, div_le_iff₀ hp]
    exact_mod_cast Iff.rfl

theorem floorLog2_spec {num den : Nat} (hn : 0 < num) (hd : 0 < den) :
    (2 : ℚ) ^ floorLog2 num den ≤ num / den ∧ (num : ℚ) / den < 2 ^ (floorLog2 num den + 1) := by
  have hd' : (0 : ℚ) < den := by exact_mod_cast hd
  have hnum₁ : (2 : ℚ) ^ num.log2 ≤ num := by exact_mod_cast Nat.log2_self_le (by omega)
  have hnum₂ : (num : ℚ) < 2 ^ (num.log2 + 1) := by exact_mod_cast Nat.lt_log2_self
  have hden₁ : (2 : ℚ) ^ den.log2 ≤ den := by exact_mod_cast Nat.log2_self_le (by omega)
  have hden₂ : (den : ℚ) < 2 ^ (den.log2 + 1) := by exact_mod_cast Nat.lt_log2_self
  -- between half and twice the quotient of the two powers
  have hlow : (2 : ℚ) ^ ((num.log2 : Int) - den.log2 - 1) ≤ num / den := by
    have hpow : (2 : ℚ) ^ ((num.log2 : Int) - den.log2 - 1) * 2 ^ (den.log2 + 1) = 2 ^ num.log2 := by
      rw [← zpow_natCast, ← zpow_natCast, ← zpow_add₀ two_ne_zero]
      congr 1
      push_cast
      ring
    rw [le_div_iff₀ hd']
    calc (2 : ℚ) ^ ((num.log2 : Int) - den.log2 - 1) * den
        ≤ 2 ^ ((num.log2 : Int) - den.log2 - 1) * 2 ^ (den.log2 + 1) := by gcongr
      _ = 2 ^ num.log2 := hpow
      _ ≤ num := hnum₁
  have hhigh : (num : ℚ) / den < 2 ^ ((num.log2 : Int) - den.log2 + 1) := by
    have hpow : (2 : ℚ) ^ ((num.log2 : Int) - den.log2 + 1) * 2 ^ den.log2 = 2 ^ (num.log2 + 1) := by
      rw [← zpow_natCast, ← zpow_natCast, ← zpow_add₀ two_ne_zero]
      congr 1
      push_cast
      ring
    rw [div_lt_iff₀ hd']
    calc (num : ℚ) < 2 ^ (num.log2 + 1) := hnum₂
      _ = 2 ^ ((num.log2 : Int) - den.log2 + 1) * 2 ^ den.log2 := hpow.symm
      _ ≤ 2 ^ ((num.log2 : Int) - den.log2 + 1) * den := by gcongr
  have hreach := power_le_ratio_iff Nat.two_pos num hd ((num.log2 : Int) - den.log2)
  have hdef : floorLog2 num den = if (2 : ℚ) ^ ((num.log2 : Int) - den.log2) ≤ num / den
      then (num.log2 : Int) - den.log2 else (num.log2 : Int) - den.log2 - 1 := by
    unfold floorLog2
    exact if_congr hreach rfl rfl
  rw [hdef]
  split
  · rename_i h
    exact ⟨h, hhigh⟩
  · rename_i h
    rw [sub_add_cancel]
    exact ⟨hlow, not_le.1 h⟩

/-- The binary logarithm is the only exponent whose power encloses the ratio. -/
theorem floorLog2_eq {num den : Nat} (hn : 0 < num) (hd : 0 < den) {e : Int}
    (h₁ : (2 : ℚ) ^ e ≤ num / den) (h₂ : (num : ℚ) / den < 2 ^ (e + 1)) : floorLog2 num den = e := by
  obtain ⟨hl, hh⟩ := floorLog2_spec hn hd
  have h₃ : e < floorLog2 num den + 1 := (zpow_lt_zpow_iff_right₀ one_lt_two).1 (h₁.trans_lt hh)
  have h₄ : floorLog2 num den < e + 1 := (zpow_lt_zpow_iff_right₀ one_lt_two).1 (hl.trans_lt h₂)
  omega

/-! ### Rounding to a whole number -/

theorem roundHalfEven_cases {num den n : Nat} (hd : 0 < den)
    (h : 2 * (n * den) < 2 * num + den ∧ 2 * num < 2 * (n * den) + den ∨
      n % 2 = 0 ∧ 2 * (n * den) ≤ 2 * num + den ∧ 2 * num ≤ 2 * (n * den) + den) :
    roundHalfEven num den = n := by
  have hdiv : num / den * den + num % den = num := Nat.div_add_mod' num den
  have hmod : num % den < den := Nat.mod_lt num hd
  -- `n` is the quotient or the number above it
  have hlow : num / den ≤ n := by
    by_contra hlt
    have hmul : (n + 1) * den ≤ num / den * den := Nat.mul_le_mul_right den (by omega)
    rw [Nat.add_mul, Nat.one_mul] at hmul
    omega
  have hhigh : n ≤ num / den + 1 := by
    by_contra hlt
    have hmul : (num / den + 2) * den ≤ n * den := Nat.mul_le_mul_right den (by omega)
    rw [Nat.add_mul] at hmul
    omega
  obtain hn | hn : n = num / den ∨ n = num / den + 1 := by omega
  · have hmul : n * den = num / den * den := by rw [hn]
    unfold roundHalfEven
    simp only
    split
    · exact hn.symm
    · split
      · omega
      · rw [if_pos (by omega)]
        exact hn.symm
  · have hmul : n * den = num / den * den + den := by rw [hn, Nat.add_mul, Nat.one_mul]
    unfold roundHalfEven
    simp only
    split
    · omega
    · split
      · exact hn.symm
      · rw [if_neg (by omega)]
        exact hn.symm

/-- A ratio rounds to the whole number from which it is less than a half away, or to an even one
from which it is a half away. -/
theorem roundHalfEven_eq {num den n : Nat} (hd : 0 < den)
    (h : (n : ℚ) - 1 / 2 < num / den ∧ (num : ℚ) / den < n + 1 / 2 ∨
      n % 2 = 0 ∧ (n : ℚ) - 1 / 2 ≤ num / den ∧ (num : ℚ) / den ≤ n + 1 / 2) :
    roundHalfEven num den = n := by
  have hd' : (0 : ℚ) < den := by exact_mod_cast hd
  apply roundHalfEven_cases hd
  rw [lt_div_iff₀ hd', div_lt_iff₀ hd', le_div_iff₀ hd', div_le_iff₀ hd'] at h
  obtain ⟨hl, hh⟩ | ⟨he, hl, hh⟩ := h
  · left
    have hl' : (2 : ℚ) * (n * den) < 2 * num + den := by linarith
    have hh' : (2 : ℚ) * num < 2 * (n * den) + den := by linarith
    exact ⟨by exact_mod_cast hl', by exact_mod_cast hh'⟩
  · right
    have hl' : (2 : ℚ) * (n * den) ≤ 2 * num + den := by linarith
    have hh' : (2 : ℚ) * num ≤ 2 * (n * den) + den := by linarith
    exact ⟨he, by exact_mod_cast hl', by exact_mod_cast hh'⟩

/-! ### Rounding to a float -/

/-- What the bits of a positive finite float stand for. -/
structure Binary.Fits (b : Binary) : Prop where
  pos : 0 < b.mantissa
  lt : b.mantissa < 2 ^ 53
  least : leastExponent ≤ b.exponent
  most : b.exponent ≤ 971
  /-- Only the subnormal numbers lack the leading bit. -/
  leading : 2 ^ 52 ≤ b.mantissa ∨ b.exponent = leastExponent

/-- The bits of the magnitude. -/
def Binary.bits (b : Binary) : Nat :=
  if b.mantissa < 2 ^ 52 then b.mantissa
  else (b.exponent + 1075).toNat * 2 ^ 52 + (b.mantissa - 2 ^ 52)

/-- What `nearestBits` makes of a mantissa. -/
theorem nearestBits_eq {num den : Nat} (hn : 0 < num) {exponent : Int}
    (he : max (floorLog2 num den - 52) leastExponent = exponent) {n : Nat}
    (hround : ∀ a b : Nat, 0 < b → (a : ℚ) / b = num / den / 2 ^ exponent → roundHalfEven a b = n)
    (hd : 0 < den) :
    nearestBits num den = if n < 2 ^ 52 then n
      else min infinityBits ((exponent + 1075).toNat * 2 ^ 52 + (n - 2 ^ 52)) := by
  have hmantissa : (if 0 ≤ exponent then roundHalfEven num (den * twoPow exponent.toNat)
      else roundHalfEven (num * twoPow (-exponent).toNat) den) = n := by
    split
    · rename_i h0
      refine hround _ _ (Nat.mul_pos hd (Nat.pow_pos Nat.two_pos)) ?_
      rw [zpow_of_nonneg h0, twoPow_eq, div_div]
      push_cast
      rfl
    · rename_i h0
      refine hround _ _ hd ?_
      rw [zpow_of_neg h0, twoPow_eq, div_inv_eq_mul, div_mul_eq_mul_div]
      push_cast
      rfl
  unfold nearestBits
  simp only [he, hmantissa, if_neg (by omega : ¬ num = 0)]
  rfl

/-- How far below `b` the numbers begin that round to it, in units of its last bit. Just above a
power of two the neighbour below is only half as far away. -/
def Binary.below (b : Binary) : ℚ :=
  if b.mantissa = twoPow 52 ∧ leastExponent < b.exponent then 1 / 4 else 1 / 2

/-- The numbers that round to `b`: those nearer to it than to its neighbours, and those in the
middle if its mantissa is even. -/
def Binary.Near (b : Binary) (x : ℚ) : Prop :=
  b.mantissa - b.below < x / 2 ^ b.exponent ∧ x / 2 ^ b.exponent < b.mantissa + 1 / 2 ∨
    b.mantissa % 2 = 0 ∧ b.mantissa - b.below ≤ x / 2 ^ b.exponent ∧
      x / 2 ^ b.exponent ≤ b.mantissa + 1 / 2

theorem Binary.contains_iff {b : Binary} (hb : 0 < b.mantissa) {r : Nat × Nat} (hr : 0 < r.2) :
    b.interval.contains r = true ↔ b.Near (ratioValue r) := by
  have hu : (0 : ℚ) < 2 ^ b.exponent := by positivity
  have hquarter : (2 : ℚ) ^ (b.exponent - 2) = 2 ^ b.exponent / 4 := by
    rw [zpow_sub₀ two_ne_zero]
    norm_num
  have hlow : ratioValue b.interval.low = (b.mantissa - b.below) * 2 ^ b.exponent := by
    simp only [Binary.interval, Binary.below]
    rw [Binary.ratio_value, Binary.value, hquarter]
    by_cases hpower : b.mantissa = twoPow 52 ∧ leastExponent < b.exponent
    · rw [if_pos hpower, if_pos hpower, Nat.cast_sub (by omega)]
      push_cast
      ring
    · rw [if_neg hpower, if_neg hpower, Nat.cast_sub (by omega)]
      push_cast
      ring
  have hhigh : ratioValue b.interval.high = (b.mantissa + 1 / 2) * 2 ^ b.exponent := by
    simp only [Binary.interval]
    rw [Binary.ratio_value, Binary.value, hquarter]
    push_cast
    ring
  have hlow₀ : 0 < b.interval.low.2 := Binary.ratio_pos _
  have hhigh₀ : 0 < b.interval.high.2 := Binary.ratio_pos _
  have hclosed : b.interval.closed = true ↔ b.mantissa % 2 = 0 := by simp [Binary.interval]
  unfold Interval.contains Binary.Near
  rw [lt_div_iff₀ hu, div_lt_iff₀ hu, le_div_iff₀ hu, div_le_iff₀ hu, ← hlow, ← hhigh]
  split
  · rename_i h
    rw [Bool.and_eq_true, ratioLe_iff hlow₀ hr, ratioLe_iff hr hhigh₀]
    constructor
    · exact fun hin => .inr ⟨hclosed.1 h, hin⟩
    · rintro (hin | ⟨-, hin⟩)
      · exact ⟨hin.1.le, hin.2.le⟩
      · exact hin
  · rename_i h
    rw [Bool.and_eq_true, ratioLt_iff hlow₀ hr, ratioLt_iff hr hhigh₀]
    constructor
    · exact .inl
    · rintro (hin | ⟨heven, -⟩)
      · exact hin
      · exact absurd (hclosed.2 heven) h

theorem Binary.below_le (b : Binary) : b.below ≤ 1 / 2 := by
  unfold Binary.below
  split <;> norm_num

theorem Binary.Near.bounds {b : Binary} {x : ℚ} (h : b.Near x) :
    b.mantissa - b.below ≤ x / 2 ^ b.exponent ∧ x / 2 ^ b.exponent ≤ b.mantissa + 1 / 2 := by
  obtain h | ⟨-, h⟩ := h
  · exact ⟨h.1.le, h.2.le⟩
  · exact h

/-- Where no carry is near: the exponent is that of `b`, and the mantissa rounds to its own. -/
theorem nearestBits_of_exponent {b : Binary} (hb : b.Fits) {num den : Nat} (hn : 0 < num)
    (hd : 0 < den) (h : b.Near (num / den))
    (he : max (floorLog2 num den - 52) leastExponent = b.exponent) :
    nearestBits num den = b.bits := by
  have hbelow := b.below_le
  rw [nearestBits_eq hn he (n := b.mantissa) ?_ hd]
  · unfold Binary.bits
    split
    · rfl
    · refine min_eq_right ?_
      have hlt := hb.lt
      have hmost := hb.most
      have hexp : (b.exponent + 1075).toNat ≤ 2046 := by omega
      calc (b.exponent + 1075).toNat * 2 ^ 52 + (b.mantissa - 2 ^ 52)
          ≤ 2046 * 2 ^ 52 + 2 ^ 52 := by gcongr; omega
        _ = infinityBits := rfl
  · intro a c hc hac
    apply roundHalfEven_eq hc
    rw [hac]
    obtain ⟨h₁, h₂⟩ | ⟨heven, h₁, h₂⟩ := h
    · exact .inl ⟨by linarith, h₂⟩
    · exact .inr ⟨heven, by linarith, h₂⟩

/-- Just below a power of two the mantissa is rounded up, and the carry goes into the exponent. -/
theorem nearestBits_of_carry {b : Binary} (hb : b.Fits) (hm : b.mantissa = 2 ^ 52)
    (he : leastExponent < b.exponent) {num den : Nat} (hn : 0 < num) (hd : 0 < den)
    (h : b.Near (num / den)) (hlog : floorLog2 num den = b.exponent + 51)
    (hless : (num : ℚ) / den < 2 ^ 52 * 2 ^ b.exponent) : nearestBits num den = b.bits := by
  have hu : (0 : ℚ) < 2 ^ b.exponent := by positivity
  have hbelow : b.below = 1 / 4 := if_pos ⟨hm, he⟩
  obtain ⟨hlow, -⟩ := h.bounds
  rw [hbelow, hm, Nat.cast_pow, Nat.cast_ofNat] at hlow
  rw [← div_lt_iff₀ hu] at hless
  have hexponent : max (floorLog2 num den - 52) leastExponent = b.exponent - 1 := by
    rw [hlog]
    omega
  have hhalf : (2 : ℚ) ^ (b.exponent - 1) = 2 ^ b.exponent / 2 := by
    rw [zpow_sub₀ two_ne_zero, zpow_one]
  rw [nearestBits_eq hn hexponent (n := 2 ^ 53) ?_ hd]
  · have hcarry : (b.exponent - 1 + 1075).toNat + 1 = (b.exponent + 1075).toNat := by
      have := hb.least
      unfold leastExponent at this
      omega
    rw [if_neg (by norm_num), Binary.bits, hm, if_neg (lt_irrefl _), Nat.sub_self, Nat.add_zero, ← hcarry]
    rw [min_eq_right, Nat.add_mul]
    · norm_num
    · have hmost := hb.most
      have hexp : (b.exponent - 1 + 1075).toNat ≤ 2045 := by omega
      calc (b.exponent - 1 + 1075).toNat * 2 ^ 52 + (2 ^ 53 - 2 ^ 52)
          ≤ 2045 * 2 ^ 52 + (2 ^ 53 - 2 ^ 52) := by gcongr
        _ ≤ infinityBits := by decide
  · intro a c hc hac
    apply roundHalfEven_eq hc
    have hdouble : (num : ℚ) / den / (2 ^ b.exponent / 2) = 2 * (num / den / 2 ^ b.exponent) := by
      field_simp
    rw [hac, hhalf, hdouble]
    push_cast
    exact .inr ⟨by norm_num, by linarith, by linarith⟩

/-- **Every number near `b` rounds to it.** -/
theorem nearestBits_of_near {b : Binary} (hb : b.Fits) {num den : Nat} (hd : 0 < den)
    (h : b.Near (num / den)) : nearestBits num den = b.bits := by
  have hu : (0 : ℚ) < 2 ^ b.exponent := by positivity
  have hpos : (1 : ℚ) ≤ b.mantissa := by exact_mod_cast hb.pos
  have hmax : (b.mantissa : ℚ) + 1 ≤ 2 ^ 53 := by exact_mod_cast hb.lt
  have hbelow := b.below_le
  obtain ⟨hlow, hhigh⟩ := h.bounds
  rw [le_div_iff₀ hu] at hlow
  rw [div_le_iff₀ hu] at hhigh
  have hn : 0 < num := by
    by_contra hzero
    obtain rfl : num = 0 := by omega
    rw [Nat.cast_zero, zero_div] at hlow
    nlinarith
  have hpower : ∀ k : Nat, (2 : ℚ) ^ (b.exponent + k) = 2 ^ k * 2 ^ b.exponent := by
    intro k
    rw [zpow_add₀ two_ne_zero, zpow_natCast, mul_comm]
  -- the ratio is below the next power of two; is it below that of `b` itself?
  have hnext : (num : ℚ) / den < 2 ^ (b.exponent + (53 : Nat)) := by
    rw [hpower]
    nlinarith
  obtain ⟨hlog, -⟩ := floorLog2_spec hn hd
  by_cases hless : (num : ℚ) / den < 2 ^ (b.exponent + (52 : Nat))
  · have hbinade : floorLog2 num den < b.exponent + (52 : Nat) :=
      (zpow_lt_zpow_iff_right₀ one_lt_two).1 (hlog.trans_lt hless)
    by_cases hleast : b.exponent = leastExponent
    · refine nearestBits_of_exponent hb hn hd h ?_
      rw [hleast] at hbinade ⊢
      omega
    · have hfull : 2 ^ 52 ≤ b.mantissa := hb.leading.resolve_right hleast
      have hfull' : (2 : ℚ) ^ 52 ≤ b.mantissa := by exact_mod_cast hfull
      rw [hpower] at hless
      have hm : b.mantissa = 2 ^ 52 := by
        by_contra hne
        have hmore : 2 ^ 52 + 1 ≤ b.mantissa := by omega
        have hmore' : (2 : ℚ) ^ 52 + 1 ≤ b.mantissa := by exact_mod_cast hmore
        nlinarith
      have hstart : leastExponent < b.exponent := lt_of_le_of_ne hb.least (Ne.symm hleast)
      refine nearestBits_of_carry hb hm hstart hn hd h ?_ hless
      refine floorLog2_eq hn hd ?_ ?_
      · have hhalf := hpower 51
        push_cast at hhalf
        rw [hhalf]
        nlinarith
      · rw [show b.exponent + 51 + 1 = b.exponent + (52 : Nat) by push_cast; ring, hpower]
        exact hless
  · refine nearestBits_of_exponent hb hn hd h ?_
    rw [floorLog2_eq hn hd (not_lt.1 hless) (by rw [add_assoc]; exact_mod_cast hnext)]
    have := hb.least
    push_cast
    omega

end Logo.Decimal
