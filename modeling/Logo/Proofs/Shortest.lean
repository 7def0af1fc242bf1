import Logo.Proofs.Rounding

/-!
# The shortest digits read back

The search for the shortest digits ends at the latest with seventeen of them: a grid
of that many digits is fine enough to have a point near every float. What the
search finds is near the float, and stripping zeros does not change it, so it
rounds to the float again.
-/

namespace Logo.Decimal
set_option autoImplicit false

/-! ### The decimal logarithm -/

theorem reachesPower_iff {r : Nat × Nat} (hr : 0 < r.2) (k : Int) :
    reachesPower r k = true ↔ (10 : ℚ) ^ k ≤ ratioValue r := by
  rw [ratioValue]
  have h := power_le_ratio_iff (q := 10) (by decide) r.1 hr k
  push_cast at h
  rw [← h]
  unfold reachesPower
  split
  · rw [decide_eq_true_eq, tenPow_eq, mul_comm]
  · rw [decide_eq_true_eq, tenPow_eq]

/-- The estimate of the decimal logarithm is not too large. -/
theorem estimate_le {e : Int} (h₁ : -1100 ≤ e) (h₂ : e ≤ 1100) :
    (10 : ℚ) ^ ((e * 30103).fdiv 100000 - 1) ≤ 2 ^ e := by
  have hdiv : (e * 30103).fdiv 100000 = e * 30103 / 100000 :=
    Int.fdiv_eq_ediv_of_nonneg _ (by decide)
  rw [hdiv]
  generalize hk : e * 30103 / 100000 - 1 = k
  have hk' : 100000 * (k + 1) ≤ 30103 * e := by omega
  -- compare high powers: 59 / 196 and 28 / 93 enclose the logarithm of two
  by_cases he : 0 ≤ e
  · obtain ⟨n, rfl⟩ := Int.eq_ofNat_of_zero_le he
    rw [← pow_le_pow_iff_left₀ (by positivity) (by positivity) (by decide : (196 : Nat) ≠ 0)]
    calc ((10 : ℚ) ^ k) ^ 196 = 10 ^ (k * 196) := by rw [zpow_mul]; norm_cast
      _ ≤ 10 ^ ((59 * n : Nat) : Int) := zpow_le_zpow_right₀ (by norm_num) (by push_cast; omega)
      _ = (10 ^ 59) ^ n := by rw [zpow_natCast, pow_mul]
      _ ≤ (2 ^ 196) ^ n := by gcongr; norm_num
      _ = ((2 : ℚ) ^ ((n : Nat) : Int)) ^ 196 := by rw [zpow_natCast, ← pow_mul, ← pow_mul, mul_comm]
  · obtain ⟨n, rfl⟩ : ∃ n : Nat, e = -n := ⟨(-e).toNat, by omega⟩
    rw [← pow_le_pow_iff_left₀ (by positivity) (by positivity) (by decide : (93 : Nat) ≠ 0)]
    calc ((10 : ℚ) ^ k) ^ 93 = 10 ^ (k * 93) := by rw [zpow_mul]; norm_cast
      _ ≤ 10 ^ (-((28 * n : Nat) : Int)) := zpow_le_zpow_right₀ (by norm_num) (by push_cast; omega)
      _ = ((10 ^ 28) ^ n)⁻¹ := by rw [zpow_neg, zpow_natCast, pow_mul]
      _ ≤ ((2 ^ 93) ^ n)⁻¹ := by gcongr; norm_num
      _ = ((2 : ℚ) ^ (-((n : Nat) : Int))) ^ 93 := by
        rw [zpow_neg, zpow_natCast, inv_pow, ← pow_mul, ← pow_mul, mul_comm]

theorem floorLog10_le {r : Nat × Nat} (hn : 0 < r.1) (hd : 0 < r.2)
    (h₁ : -1100 ≤ floorLog2 r.1 r.2) (h₂ : floorLog2 r.1 r.2 ≤ 1100) :
    (10 : ℚ) ^ floorLog10 r ≤ ratioValue r := by
  unfold floorLog10
  simp only
  split
  · exact (reachesPower_iff hd _).1 (by assumption)
  · split
    · exact (reachesPower_iff hd _).1 (by assumption)
    · split
      · exact (reachesPower_iff hd _).1 (by assumption)
      · exact (estimate_le h₁ h₂).trans (floorLog2_spec hn hd).1

/-! ### The grid of seventeen digits -/

theorem gridFloor_spec {r : Nat × Nat} (hr : 0 < r.2) (k : Int) :
    (gridFloor r k : ℚ) * 10 ^ k ≤ ratioValue r ∧ ratioValue r < (gridFloor r k + 1) * 10 ^ k := by
  have hfloor : ∀ a b : Nat, 0 < b → ((a / b : Nat) : ℚ) ≤ a / b ∧ (a : ℚ) / b < (a / b : Nat) + 1 := by
    intro a b hb
    have hb' : (0 : ℚ) < b := by exact_mod_cast hb
    rw [le_div_iff₀ hb', div_lt_iff₀ hb']
    exact ⟨by exact_mod_cast Nat.div_mul_le_self a b,
      by exact_mod_cast (Nat.div_lt_iff_lt_mul hb).1 (Nat.lt_succ_self (a / b))⟩
  have hp : (0 : ℚ) < 10 ^ k := by positivity
  rw [← le_div_iff₀ hp, ← div_lt_iff₀ hp]
  unfold gridFloor ratioValue
  split
  · rename_i hk
    have h := hfloor r.1 (r.2 * tenPow k.toNat) (Nat.mul_pos hr (Nat.pow_pos (by decide)))
    rw [zpow_of_nonneg hk, div_div]
    rw [tenPow_eq] at h ⊢
    push_cast at h
    exact h
  · rename_i hk
    have h := hfloor (r.1 * tenPow (-k).toNat) r.2 hr
    rw [zpow_of_neg hk, div_inv_eq_mul, div_mul_eq_mul_div]
    rw [tenPow_eq] at h ⊢
    push_cast at h
    exact h

/-- On a grid this fine one of the two neighbours of `b` is near it. -/
theorem near_of_grid {b : Binary} (hb : b.Fits) {k : Int} (hk : (10 : ℚ) ^ (k + 16) ≤ b.value) {n : Nat}
    (h₁ : (n : ℚ) * 10 ^ k ≤ b.value) (h₂ : b.value < (n + 1) * 10 ^ k) :
    b.Near (n * 10 ^ k) ∨ b.Near ((n + 1) * 10 ^ k) := by
  have hu : (0 : ℚ) < 2 ^ b.exponent := by positivity
  have hmax : (b.mantissa : ℚ) + 1 ≤ 2 ^ 53 := by exact_mod_cast hb.lt
  have hvalue : b.value / 2 ^ b.exponent = b.mantissa := mul_div_cancel_right₀ _ hu.ne'
  -- in units of the last bit of `b`
  generalize hg : (10 : ℚ) ^ k / 2 ^ b.exponent = g
  have hunit : ∀ q : ℚ, q * 10 ^ k / 2 ^ b.exponent = q * g := by
    intro q
    rw [← hg, mul_div_assoc]
  have hg₀ : 0 < g := by rw [← hg]; positivity
  have hfine : 10 ^ 16 * g ≤ b.mantissa := by
    rw [← hunit, ← hvalue]
    gcongr
    rw [zpow_add₀ (by norm_num), mul_comm] at hk
    exact_mod_cast hk
  have hbelow : g < 2 * b.below := by
    unfold Binary.below
    split
    · rename_i hpower
      rw [hpower.1, twoPow_eq, Nat.cast_pow, Nat.cast_ofNat] at hfine
      linarith
    · linarith
  have hbelow' := b.below_le
  have h₁' : n * g ≤ b.mantissa := by
    rw [← hunit, ← hvalue]
    gcongr
  have h₂' : b.mantissa < (n + 1) * g := by
    rw [← hunit, ← hvalue]
    gcongr
  unfold Binary.Near
  rw [hunit, hunit]
  by_cases hcloser : b.mantissa - n * g ≤ g / 2
  · exact .inl (.inl ⟨by linarith, by linarith⟩)
  · exact .inr (.inl ⟨by linarith, by linarith⟩)

/-! ### The search -/

/-- What is found on a grid is near `b`. -/
theorem onGrid?_near {b : Binary} (hb : 0 < b.mantissa) {r : Nat × Nat} {k : Int} {s : Scaled}
    (h : onGrid? r b.interval k = some s) : b.Near s.value := by
  have hcontains : b.interval.contains s.ratio = true := by
    unfold onGrid? at h
    simp only at h
    split at h
    · rename_i hl hu
      cases h
      split
      · exact hu
      · exact hl
    · rename_i hl hu
      cases h
      exact hl
    · rename_i hl hu
      cases h
      exact hu
    · cases h
  rw [← s.ratio_value]
  exact (Binary.contains_iff hb s.ratio_pos).1 hcontains

theorem onGrid?_isSome {b : Binary} (hb : b.Fits) {k : Int} (hk : (10 : ℚ) ^ (k + 16) ≤ b.value) :
    (onGrid? b.ratio b.interval k).isSome = true := by
  obtain ⟨h₁, h₂⟩ := gridFloor_spec b.ratio_pos k
  rw [b.ratio_value] at h₁ h₂
  have hcontains : ∀ s : Scaled, b.Near s.value → b.interval.contains s.ratio = true := by
    intro s hs
    rw [Binary.contains_iff hb.pos s.ratio_pos, s.ratio_value]
    exact hs
  unfold onGrid?
  simp only
  obtain h | h := near_of_grid hb hk h₁ h₂
  · rw [hcontains ⟨gridFloor b.ratio k, k⟩ h]
    cases b.interval.contains (Scaled.mk (gridFloor b.ratio k + 1) k).ratio <;> rfl
  · have hupper : b.Near (Scaled.mk (gridFloor b.ratio k + 1) k).value := by
      rw [Scaled.value]
      push_cast
      exact h
    rw [hcontains _ hupper]
    cases b.interval.contains (Scaled.mk (gridFloor b.ratio k) k).ratio <;> rfl

/-- Dropping zeros does not change the number. -/
theorem Scaled.strip_value (fuel : Nat) (s : Scaled) : (Scaled.strip fuel s).value = s.value := by
  induction fuel generalizing s with
  | zero => rfl
  | succ fuel ih =>
    unfold Scaled.strip
    split
    · rename_i h
      have hdigits : (s.digits : ℚ) = (s.digits / 10 : Nat) * 10 := by
        have hmul : s.digits = s.digits / 10 * 10 := by omega
        exact_mod_cast hmul
      rw [ih, Scaled.value, Scaled.value, hdigits, zpow_add₀ (by norm_num), zpow_one]
      ring
    · rfl

theorem Binary.Fits.value_bounds {b : Binary} (hb : b.Fits) :
    (2 : ℚ) ^ b.exponent ≤ b.value ∧ b.value < 2 ^ (b.exponent + 53) := by
  have hpos : (1 : ℚ) ≤ b.mantissa := by exact_mod_cast hb.pos
  have hlt : (b.mantissa : ℚ) < 2 ^ 53 := by exact_mod_cast hb.lt
  constructor
  · calc (2 : ℚ) ^ b.exponent = 1 * 2 ^ b.exponent := (one_mul _).symm
      _ ≤ b.mantissa * 2 ^ b.exponent := by gcongr
  · calc b.mantissa * (2 : ℚ) ^ b.exponent < 2 ^ 53 * 2 ^ b.exponent := by gcongr
      _ = 2 ^ (b.exponent + 53) := by rw [zpow_add₀ two_ne_zero, mul_comm]; norm_cast

/-- The search starts from a power of ten that the number reaches. -/
theorem Binary.Fits.floorLog10_le {b : Binary} (hb : b.Fits) :
    (10 : ℚ) ^ floorLog10 b.ratio ≤ b.value := by
  obtain ⟨h₁, h₂⟩ := hb.value_bounds
  have hleast := hb.least
  have hmost := hb.most
  unfold leastExponent at hleast
  have hd := b.ratio_pos
  have hvalue : (b.ratio.1 : ℚ) / b.ratio.2 = b.value := b.ratio_value
  have hn : 0 < b.ratio.1 := by
    by_contra hzero
    have hb₁ : b.ratio.1 = 0 := by omega
    have hu : (0 : ℚ) < 2 ^ b.exponent := by positivity
    rw [hb₁, Nat.cast_zero, zero_div] at hvalue
    linarith
  obtain ⟨hl, hh⟩ := floorLog2_spec hn hd
  rw [hvalue] at hl hh
  have hlow : b.exponent < floorLog2 b.ratio.1 b.ratio.2 + 1 :=
    (zpow_lt_zpow_iff_right₀ one_lt_two).1 (h₁.trans_lt hh)
  have hhigh : floorLog2 b.ratio.1 b.ratio.2 < b.exponent + 53 :=
    (zpow_lt_zpow_iff_right₀ one_lt_two).1 (hl.trans_lt h₂)
  rw [← b.ratio_value]
  exact Logo.Decimal.floorLog10_le hn hd (by omega) (by omega)

/-- **The shortest digits are near the number they stand for.** -/
theorem Binary.shortest_near {b : Binary} (hb : b.Fits) : b.Near b.shortest.value := by
  have hlast : (onGrid? b.ratio b.interval (floorLog10 b.ratio - (16 : Nat))).isSome = true := by
    refine onGrid?_isSome hb ?_
    rw [Nat.cast_ofNat, sub_add_cancel]
    exact hb.floorLog10_le
  obtain ⟨s, hs⟩ : ∃ s, ((List.range 17).findSome? fun (n : Nat) =>
      onGrid? b.ratio b.interval (floorLog10 b.ratio - n)) = some s := by
    rw [← Option.isSome_iff_exists, List.findSome?_isSome_iff]
    exact ⟨16, by decide, hlast⟩
  obtain ⟨n, -, hn⟩ := List.exists_of_findSome?_eq_some hs
  have hshortest : b.shortest = s.strip 20 := by
    unfold Binary.shortest
    simp only [hs, Option.getD_some]
  rw [hshortest, Scaled.strip_value]
  exact onGrid?_near hb.pos hn

end Logo.Decimal
