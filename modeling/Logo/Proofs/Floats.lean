import Logo.Proofs.Numerals
import Logo.Value.Coercion

/-!
# Floats taken apart

Reading a float off its bits and unpacking it for arithmetic give the same number
(`Kind.ofFloat_eq`). Two consequences for arithmetic: a whole number up to the limit
is exactly its float, so it comes back when the float is taken as a whole number
(`wholeNumber_ofNat`); and dividing a number that is not positive by one that is
leaves nothing above zero (`ofFloat_div_nonpositive`).
-/

namespace Logo.Decimal
set_option autoImplicit false
open Float.Model Float.Model.UnpackedFloat

/-- What an unpacked float stands for. -/
def Kind.ofUnpacked : UnpackedFloat → Kind
  | .infinity s => .infinite (s == .negative)
  | .notANumber => .notNumber
  | .zero s => .finite ⟨s == .negative, 0, leastExponent⟩
  | .finite s m e _ => .finite ⟨s == .negative, m, e⟩

theorem implicit_toNat (m : BitVec 52) : (1#1 ++ m).toNat = m.toNat + 2 ^ 52 := by
  rw [BitVec.toNat_append, ← Nat.shiftLeft_add_eq_or_of_lt m.isLt, Nat.add_comm]
  rfl

theorem ofBitVec_unpackSign (b : BitVec 64) :
    (Sign.ofBitVec (@unpackSign Format.binary64 b) == .negative) = b.toNat.testBit 63 := by
  have hsign : ∀ v : BitVec 1, (Sign.ofBitVec v == .negative) = decide (v.toNat = 1) := by decide
  rw [hsign, unpackSign_toNat, Nat.testBit_eq_decide_div_mod_eq, Nat.shiftRight_eq_div_pow]

/-- The two ways to take a float apart agree. -/
theorem Kind.ofFloat_eq (x : Float) : Kind.ofFloat x = Kind.ofUnpacked x.toModel.unpack := by
  obtain ⟨⟨bits, valid⟩⟩ := x
  have hexp := unpackExponent_toNat bits.toBitVec
  have hman := unpackMantissa_toNat bits.toBitVec
  have hneg := ofBitVec_unpackSign bits.toBitVec
  show Kind.ofBits bits.toBitVec.toNat
    = Kind.ofUnpacked (UnpackedFloat.unpack Format.binary64 bits.toBitVec)
  unfold Kind.ofBits UnpackedFloat.unpack
  simp only [← hexp, ← hneg, twoPow_eq, ← hman]
  have hones : ∀ v : BitVec 11, v = -1#11 ↔ v.toNat = 2047 := fun v =>
    ⟨fun h => h ▸ rfl, fun h => BitVec.eq_of_toNat_eq h⟩
  have hzero : ∀ {w : Nat} (v : BitVec w), v = 0#w ↔ v.toNat = 0 := fun v =>
    ⟨fun h => by simp [h], fun h => BitVec.eq_of_toNat_eq (by simp [h])⟩
  simp only [hones, hzero]
  split_ifs with h1 h2 h3 h4
  · rfl
  · rfl
  · simp [Kind.ofUnpacked, h4]
  · rw [Kind.ofUnpacked, h3]
    rfl
  · rw [Kind.ofUnpacked, implicit_toNat]
    rfl

/-! ### Rounding what needs none -/

/-- Shifting out zeros loses nothing. -/
theorem shiftRight_zeros (m j : Nat) :
    (⟨m * 2 ^ j, false, false⟩ : ExtendedMantissa) >>> j = ⟨m, false, false⟩ := by
  show j.repeat ExtendedMantissa.shiftRightOne ⟨m * 2 ^ j, false, false⟩ = ⟨m, false, false⟩
  induction j generalizing m with
  | zero => simp [Nat.repeat]
  | succ j ih =>
    have hm : m * 2 ^ (j + 1) = m * 2 * 2 ^ j := by
      rw [Nat.pow_succ, Nat.mul_comm (2 ^ j), Nat.mul_assoc]
    rw [Nat.repeat, hm, ih]
    simp [ExtendedMantissa.shiftRightOne]

theorem log2_zeros {m : Nat} (hm : m ≠ 0) (j : Nat) : (m * 2 ^ j).log2 = m.log2 + j := by
  have hlow : 2 ^ (m.log2 + j) ≤ m * 2 ^ j := by
    rw [Nat.pow_add]
    exact Nat.mul_le_mul_right _ (Nat.log2_self_le hm)
  have hhigh : m * 2 ^ j < 2 ^ (m.log2 + j + 1) := by
    rw [Nat.add_right_comm, Nat.pow_add]
    exact Nat.mul_lt_mul_of_pos_right Nat.lt_log2_self (Nat.two_pow_pos j)
  exact (Nat.log2_eq_iff (Nat.mul_ne_zero hm (Nat.two_pow_pos j).ne')).2 ⟨hlow, hhigh⟩

theorem targetExponent_eq {e : Int} (he : leastExponent ≤ e) :
    Format.binary64.targetExponent (53 + e) = e := by
  show max (53 + e - ((1 + 52 : Nat) : Int)) (3 - 2 ^ 10 - ((1 + 52 : Nat) : Int)) = e
  unfold leastExponent at he
  omega

theorem shiftToTarget_zeros {m : Nat} {e : Int} (hm : m.log2 = 52) (he : leastExponent ≤ e)
    (j : Nat) : shiftToTargetExponent Format.binary64 (m * 2 ^ j) (e - j) .exact
      = (⟨m, false, false⟩, e) := by
  have hpos : m ≠ 0 := by
    rintro rfl
    simp at hm
  have htotal : totalExponent (m * 2 ^ j) (e - j) = 53 + e := by
    unfold totalExponent
    rw [log2_zeros hpos, hm]
    omega
  have hshift : (e - (e - j)).toNat = j := by omega
  simp only [shiftToTargetExponent, shiftToExponent, htotal, targetExponent_eq he, hshift,
    ExtendedMantissa.ofMantissaAndAccuracy, shiftRight_zeros]
  rw [Int.sub_add_cancel]

/-- A number of 53 bits, however it is written, is not rounded. -/
theorem round_zeros (s : Sign) {m : Nat} {e : Int} (hm : m.log2 = 52) (hpos : 0 < m)
    (he : leastExponent ≤ e) (j : Nat) :
    roundWithAccuracy Format.binary64 s (m * 2 ^ j) (e - j) .exact = .finite s m e hpos := by
  have hlast := shiftToTarget_zeros hm he 0
  simp only [Nat.pow_zero, Nat.mul_one, Nat.cast_zero, Int.sub_zero] at hlast
  unfold roundWithAccuracy
  simp only [shiftToTarget_zeros hm he j, ExtendedMantissa.roundedMantissa,
    ExtendedMantissa.accuracy, Accuracy.roundToNearestEven, hlast, dif_neg hpos.ne']

/-! ### Packing -/

theorem unpackSign_packComponents (s : Sign) (e : BitVec 11) (m : BitVec 52) :
    Sign.ofBitVec (@unpackSign Format.binary64 (packComponents Format.binary64 s e m)) = s := by
  have h : @unpackSign Format.binary64 (packComponents Format.binary64 s e m) = s.toBitVec := by
    have he := e.isLt
    have hm := m.isLt
    have hs := s.toBitVec.isLt
    apply BitVec.eq_of_toNat_eq
    rw [unpackSign_toNat, packComponents_toNat, Nat.shiftRight_eq_div_pow]
    omega
  rw [h]
  cases s <;> rfl

theorem unpack_components (s : Sign) {e : BitVec 11} (m : BitVec 52) (h0 : e ≠ 0#11)
    (h1 : e ≠ -1#11) :
    UnpackedFloat.unpack Format.binary64 (packComponents Format.binary64 s e m)
      = .finite s (1#1 ++ m).toNat ((e.toNat : Int) - ((1023 : Nat) + (52 : Nat)))
          (by rw [implicit_toNat]; omega) := by
  unfold UnpackedFloat.unpack
  simp only [unpackMantissa_packComponents, unpackExponent_packComponents, if_neg h0, if_neg h1,
    unpackSign_packComponents]
  rfl

/-- A number of 53 bits within the range of the exponents is packed as it is. -/
theorem unpack_pack (s : Sign) {m : Nat} {e : Int} (hm : m.log2 = 52) (hpos : 0 < m)
    (hlow : leastExponent ≤ e) (hhigh : e ≤ 971) :
    (Float.Model.pack (.finite s m e hpos)).unpack = .finite s m e hpos := by
  unfold leastExponent at hlow
  obtain ⟨hge, hlt⟩ := (Nat.log2_eq_iff hpos.ne').1 hm
  let b := BitVec.ofNat 11 (e + 1075).toNat
  let f := BitVec.ofNat 52 (m - 2 ^ 52)
  have hb : b.toNat = (e + 1075).toNat := by
    simp only [b, BitVec.toNat_ofNat]
    omega
  have hf : (1#1 ++ f).toNat = m := by
    rw [implicit_toNat]
    simp only [f, BitVec.toNat_ofNat]
    omega
  have h0 : b ≠ 0#11 := fun h => by
    rw [h] at hb
    simp at hb
    omega
  have h1 : b ≠ -1#11 := fun h => by
    rw [h] at hb
    simp at hb
    omega
  have hexp : (b.toNat : Int) - ((1023 : Nat) + (52 : Nat)) = e := by omega
  have hpacked := pack_normal s f h1 (by omega)
  simp only [hf, hexp] at hpacked
  have hunpacked := unpack_components s f h0 h1
  simp only [hf, hexp] at hunpacked
  show UnpackedFloat.unpack Format.binary64 (UnpackedFloat.pack Format.binary64 _) = _
  rw [hpacked, hunpacked]

/-! ### Whole numbers -/

/-- The zeros that fill a whole number up to 53 bits. -/
def padding (n : Nat) : Nat := 52 - n.log2

theorem least_le_padding (n : Nat) : leastExponent ≤ -(padding n : Int) := by
  unfold leastExponent padding
  omega

section Padding

variable {n : Nat} (h0 : 0 < n) (hn : n < 2 ^ 53)
include h0

theorem padded_pos : 0 < n * 2 ^ padding n := Nat.mul_pos h0 (Nat.two_pow_pos _)

include hn

theorem log2_padded : (n * 2 ^ padding n).log2 = 52 := by
  have hlog : n.log2 < 53 := (Nat.log2_lt h0.ne').2 hn
  rw [log2_zeros h0.ne', padding]
  omega

theorem ofNat_unpacked : UnpackedFloat.ofNat Format.binary64 n
    = .finite .positive (n * 2 ^ padding n) (-(padding n : Int)) (padded_pos h0) := by
  have hlog : n.log2 < 53 := (Nat.log2_lt h0.ne').2 hn
  have htotal : totalExponent n 0 = 53 + -(padding n : Int) := by
    unfold totalExponent padding
    omega
  have hcompare : compare (n : Int) 0 = .gt := by
    rw [Int.compare_eq_gt]
    omega
  have hshift : (0 - -(padding n : Int)).toNat = padding n := by omega
  have hround := round_zeros .positive (log2_padded h0 hn) (padded_pos h0) (least_le_padding n) 0
  simp only [Nat.pow_zero, Nat.mul_one, Nat.cast_zero, Int.sub_zero] at hround
  simp only [UnpackedFloat.ofNat, UnpackedFloat.ofInt, UnpackedFloat.normalize, hcompare,
    UnpackedFloat.round, Int.toNat_natCast, htotal, targetExponent_eq (least_le_padding n),
    decreaseExponent, hshift, Nat.shiftLeft_eq]
  rw [Int.zero_sub, hround]

end Padding

/-- Multiplying by one changes nothing. -/
theorem mul_one_unpacked (s : Sign) {m : Nat} {e : Int} (hm : m.log2 = 52) (hpos : 0 < m)
    (he : leastExponent ≤ e) :
    UnpackedFloat.mul Format.binary64 (.finite s m e hpos)
        (Float.ofBits 0x3FF0000000000000).toModel.unpack = .finite s m e hpos := by
  have hone : (Float.ofBits 0x3FF0000000000000).toModel.unpack
      = .finite .positive (2 ^ 52) (-52) (by decide) := rfl
  have hsign : s * .positive = s := by cases s <;> rfl
  rw [hone, UnpackedFloat.mul, hsign]
  exact round_zeros s hm hpos he 52

theorem unpack_ofNat {n : Nat} (h0 : 0 < n) (hn : n < 2 ^ 53) : (Float.ofNat n).toModel.unpack
    = .finite .positive (n * 2 ^ padding n) (-(padding n : Int)) (padded_pos h0) := by
  have hfull := log2_padded h0 hn
  have hlow := least_le_padding n
  have hword : n.toUInt64.toNat = n := UInt64.toNat_ofNat_of_lt' (by show n < 2 ^ 64; omega)
  have hfloat : Float.ofNat n = n.toUInt64.toFloat * Float.ofBits 0x3FF0000000000000 := by
    show Float.ofScientific n false 0 = _
    rw [Float.ofScientific, dif_pos ⟨hn, by decide⟩]
    rfl
  rw [hfloat]
  show (Float.Model.pack (UnpackedFloat.mul Format.binary64
    (Float.Model.pack (UnpackedFloat.ofNat Format.binary64 n.toUInt64.toNat)).unpack
    (Float.ofBits 0x3FF0000000000000).toModel.unpack)).unpack = _
  rw [hword, ofNat_unpacked h0 hn, unpack_pack .positive hfull _ hlow (by omega),
    mul_one_unpacked .positive hfull _ hlow, unpack_pack .positive hfull _ hlow (by omega)]

theorem Binary.toInt?_zeros (n k : Nat) :
    (⟨false, n * 2 ^ k, -(k : Int)⟩ : Binary).toInt? = some (n : Int) := by
  cases k with
  | zero => simp [Binary.toInt?, Binary.ratio, twoPow_eq, Nat.mod_one]
  | succ k =>
    have hneg : ¬ 0 ≤ -((k + 1 : Nat) : Int) := by omega
    have hexp : (- -((k + 1 : Nat) : Int)).toNat = k + 1 := by omega
    simp only [Binary.toInt?, Binary.ratio, if_neg hneg, hexp, twoPow_eq, Nat.mul_mod_left, if_true,
      Nat.mul_div_cancel n (Nat.two_pow_pos (k + 1)), Bool.false_eq_true, if_false]

/-- A whole number up to the limit is given back by its float. -/
theorem wholeNumber_ofNat {n : Nat} (hn : n ≤ exactLimit) :
    wholeNumber? (Float.ofNat n) = some (n : Int) := by
  by_cases h0 : n = 0
  · subst h0
    have hzero : Kind.ofFloat (Float.ofNat 0) = .finite ⟨false, 0, leastExponent⟩ := by decide
    rw [wholeNumber?, hzero]
    exact Binary.toInt?_of_zero rfl
  by_cases hlast : n = 2 ^ 53
  · subst hlast
    decide
  have hlimit : exactLimit = 2 ^ 53 := rfl
  rw [wholeNumber?, Kind.ofFloat_eq, unpack_ofNat (by omega) (by omega)]
  exact Binary.toInt?_zeros n _

/-! ### Signs -/

theorem ofBits_negative {n : Nat} {b : Binary} (h : Kind.ofBits n = .finite b) :
    b.negative = n.testBit 63 := by
  unfold Kind.ofBits at h
  simp only at h
  split_ifs at h <;> cases h <;> rfl

/-- What is packed with a negative sign stands for no positive number. -/
theorem ofFloat_pack_negative {u : UnpackedFloat}
    (hu : u = .zero .negative ∨ ∃ m e hpos, u = .finite .negative m e hpos) {b : Binary}
    (h : Kind.ofFloat (Float.ofModel (Float.Model.pack u)) = .finite b) : b.negative = true := by
  have hpacked : ∃ e m, UnpackedFloat.pack Format.binary64 u
      = packComponents Format.binary64 .negative e m := by
    obtain rfl | ⟨m, e, hpos, rfl⟩ := hu
    · exact ⟨_, _, rfl⟩
    · unfold UnpackedFloat.pack
      simp only
      split_ifs
      · exact ⟨_, _, rfl⟩
      · exact ⟨_, _, rfl⟩
      · exact ⟨_, _, rfl⟩
  obtain ⟨e, m, hpacked⟩ := hpacked
  have hbits : (Float.ofModel (Float.Model.pack u)).toBits.toNat
      = (UnpackedFloat.pack Format.binary64 u).toNat := rfl
  rw [Kind.ofFloat] at h
  rw [ofBits_negative h, hbits, hpacked, packComponents_toNat, Nat.testBit_eq_decide_div_mod_eq]
  have he : e.toNat < 2 ^ 11 := e.isLt
  have hm : m.toNat < 2 ^ 52 := m.isLt
  have hsign : Sign.negative.toBitVec.toNat = 1 := rfl
  rw [hsign]
  apply decide_eq_true
  omega

theorem roundWithAccuracy_sign (s : Sign) (m : Nat) (e : Int) (a : Accuracy) :
    roundWithAccuracy Format.binary64 s m e a = .zero s ∨
      ∃ m' e' hpos, roundWithAccuracy Format.binary64 s m e a = .finite s m' e' hpos := by
  unfold roundWithAccuracy
  simp only
  split_ifs
  · exact .inl rfl
  · rename_i hpos
    exact .inr ⟨_, _, Nat.pos_of_ne_zero hpos, rfl⟩

theorem pos_of_unpack {x : Float} {m : Nat} {e : Int} {hpos : 0 < m}
    (h : x.toModel.unpack = .finite .positive m e hpos) : 0.0 < x := by
  show decide ((0.0 : Float).toModel < x.toModel) = true
  rw [decide_eq_true_iff]
  show (0.0 : Float).toModel.unpack.lt x.toModel.unpack = true
  rw [h]
  rfl

/-- A number that is not positive, divided by a positive one, is negative or zero. -/
theorem ofFloat_div_nonpositive {x y : Float} (hx : isFinite x = true) (hx0 : ¬ 0.0 < x)
    {m : Nat} {e : Int} {hpos : 0 < m} (hy : y.toModel.unpack = .finite .positive m e hpos)
    {b : Binary} (hb : Kind.ofFloat (x / y) = .finite b) :
    b.negative = true ∨ b.mantissa = 0 := by
  have hquot : x / y = Float.ofModel (Float.Model.pack
      (UnpackedFloat.div Format.binary64 x.toModel.unpack y.toModel.unpack)) := rfl
  rw [hquot, hy] at hb
  cases hu : x.toModel.unpack with
  | infinity s =>
    rw [isFinite, Kind.ofFloat_eq, hu] at hx
    cases hx
  | notANumber =>
    rw [isFinite, Kind.ofFloat_eq, hu] at hx
    cases hx
  | zero s =>
    right
    rw [hu, UnpackedFloat.div, Kind.ofFloat_eq] at hb
    have hzero : ∀ s : Sign, (Float.Model.pack (.zero s)).unpack = .zero s := by
      intro s
      cases s <;> rfl
    rw [hzero] at hb
    cases hb
    rfl
  | finite s mx ex hmx =>
    left
    cases s with
    | positive => exact absurd (pos_of_unpack hu) hx0
    | negative =>
      rw [hu] at hb
      exact ofFloat_pack_negative (roundWithAccuracy_sign .negative _ _ _) hb

end Logo.Decimal
