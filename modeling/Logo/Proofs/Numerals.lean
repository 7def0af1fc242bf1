import Logo.Decimal.Reader
import Logo.Proofs.Shortest
import Logo.Value.Printer
import Mathlib

/-!
# Numbers read back from their text

A finite float is given back by its bits, its bits by what they stand for, and that
by every decimal near it. The text of a number is such a decimal, written with an
optional sign, digits, and at most one point between digits; so reading it gives
the number again, except that a negative zero comes back without its sign
(`read_numberText`).
-/

namespace Logo.Decimal
set_option autoImplicit false
open Float.Model Float.Model.UnpackedFloat

/-! ### Floats and their bits -/

theorem unpackMantissa_toNat (b : BitVec 64) :
    (@unpackMantissa Format.binary64 b).toNat = b.toNat % 2 ^ 52 := by
  simp [unpackMantissa]

theorem unpackExponent_toNat (b : BitVec 64) :
    (@unpackExponent Format.binary64 b).toNat = (b.toNat >>> 52) % 2048 := by
  simp [unpackExponent]

theorem unpackSign_toNat (b : BitVec 64) :
    (@unpackSign Format.binary64 b).toNat = b.toNat >>> 63 % 2 := by
  simp [unpackSign]

theorem packComponents_toNat (s : Sign) (e : BitVec 11) (m : BitVec 52) :
    (packComponents Format.binary64 s e m).toNat
      = s.toBitVec.toNat * 2 ^ 63 + e.toNat * 2 ^ 52 + m.toNat := by
  have he := e.isLt
  have hm := m.isLt
  unfold packComponents
  rw [BitVec.toNat_append, BitVec.toNat_append, ← Nat.shiftLeft_add_eq_or_of_lt he,
    ← Nat.shiftLeft_add_eq_or_of_lt hm]
  simp only [Nat.shiftLeft_eq]
  omega

theorem packComponents_unpack (b : BitVec 64) :
    packComponents Format.binary64 (Sign.ofBitVec (@unpackSign Format.binary64 b))
      (@unpackExponent Format.binary64 b) (@unpackMantissa Format.binary64 b) = b := by
  have hsign : ∀ v : BitVec 1, (Sign.ofBitVec v).toBitVec = v := by decide
  have hb := b.isLt
  apply BitVec.eq_of_toNat_eq
  rw [packComponents_toNat, hsign, unpackMantissa_toNat, unpackExponent_toNat, unpackSign_toNat]
  simp only [Nat.shiftRight_eq_div_pow]
  omega

/-- A number with the implicit bit is packed without it. -/
theorem pack_normal (s : Sign) {e : BitVec 11} (m : BitVec 52) (he : e ≠ -1#11)
    (hpos : 0 < (1#1 ++ m).toNat) :
    UnpackedFloat.pack Format.binary64
        (.finite s (1#1 ++ m).toNat (e.toNat - ((1023 : Nat) + (52 : Nat))) hpos)
      = packComponents Format.binary64 s e m := by
  have hmlt := m.isLt
  have helt := e.isLt
  have hm : (1#1 ++ m).toNat = 2 ^ 52 + m.toNat := by
    rw [BitVec.toNat_append, ← Nat.shiftLeft_add_eq_or_of_lt hmlt]
    rfl
  have hlog : (1#1 ++ m).toNat.log2 = 52 := by
    rw [hm, Nat.log2_eq_iff (by omega)]
    omega
  have hne : e.toNat ≠ 2 ^ 11 - 1 := fun h => he (BitVec.eq_of_toNat_eq h)
  have hbias : ((e.toNat : Int) - ((1023 : Nat) + (52 : Nat)) + (1023 : Nat) + (52 : Nat)).toNat
      = e.toNat := by omega
  have hmant : BitVec.ofNat 52 (1#1 ++ m).toNat = m := by
    apply BitVec.eq_of_toNat_eq
    rw [hm, BitVec.toNat_ofNat]
    omega
  have hfits : ¬ 2 ^ 11 ≤ e.toNat + 1 := by omega
  have hbits : Format.binary64.exponentBias = 1023 := rfl
  have hwidth : 52 + 1 = Format.binary64.mantissaBits := rfl
  simp only [UnpackedFloat.pack, hlog, hbits, hbias, if_neg hfits, if_pos hwidth, hmant,
    BitVec.ofNat_toNat, BitVec.setWidth_eq]

/-- A number without the implicit bit is packed as it is. -/
theorem pack_subnormal (s : Sign) {m : BitVec 52} (hpos : 0 < m.toNat) :
    UnpackedFloat.pack Format.binary64
        (.finite s m.toNat ((0 : Nat) - ((1023 : Nat) + (52 : Nat)) + 1) hpos)
      = packComponents Format.binary64 s 0#11 m := by
  have hlog : m.toNat.log2 < 52 := (Nat.log2_lt (by omega)).2 m.isLt
  have hbits : Format.binary64.exponentBias = 1023 := rfl
  have hwidth : ¬ m.toNat.log2 + 1 = Format.binary64.mantissaBits := by
    rw [show Format.binary64.mantissaBits = 53 from rfl]
    omega
  have hfits : ¬ 2 ^ 11
      ≤ ((0 : Nat) - ((1023 : Nat) + (52 : Nat)) + 1 + (1023 : Nat) + (52 : Nat) : Int).toNat + 1 := by
    decide
  simp only [UnpackedFloat.pack, hbits, if_neg hfits, if_neg hwidth, BitVec.ofNat_toNat,
    BitVec.setWidth_eq]

/-- Unpacking loses nothing. -/
theorem pack_unpack {b : BitVec 64} (h : Format.binary64.Valid b) :
    UnpackedFloat.pack Format.binary64 (UnpackedFloat.unpack Format.binary64 b) = b := by
  have hb := packComponents_unpack b
  unfold UnpackedFloat.unpack
  simp only
  split
  · rename_i he
    split
    · rename_i hm
      rw [he, hm] at hb
      exact hb
    · rename_i hm
      exact (h.eq_packedNaN he hm).symm
  · rename_i he
    split
    · rename_i h0
      split
      · rename_i hm
        rw [h0, hm] at hb
        exact hb
      · rw [h0] at hb
        simp only [h0]
        exact (pack_subnormal _ _).trans hb
    · exact (pack_normal _ _ he _).trans hb

theorem ofBits_toBits (x : Float) : Float.ofBits x.toBits = x := by
  obtain ⟨⟨bits, valid⟩⟩ := x
  have h := pack_unpack valid
  have hmodel : Float.Model.ofBits bits = ⟨bits, valid⟩ := by
    unfold Float.Model.ofBits Float.Model.pack
    congr 1
    exact congrArg UInt64.ofBitVec h
  exact congrArg Float.ofModel hmodel

theorem isFinite_iff {x : Float} : isFinite x = true ↔ (x.toBits.toNat >>> 52) % 2048 ≠ 2047 := by
  unfold isFinite Kind.ofFloat Kind.ofBits
  by_cases h : (x.toBits.toNat >>> 52) % 2048 = 2047
  · by_cases hf : x.toBits.toNat % twoPow 52 = 0 <;> simp [h, hf]
  · by_cases h0 : (x.toBits.toNat >>> 52) % 2048 = 0 <;> simp [h, h0]

/-- Only "not a number" differs from itself. -/
theorem beq_self_of_finite {x : Float} (h : isFinite x = true) : (x == x) = true := by
  rw [isFinite_iff] at h
  have hne : @unpackExponent Format.binary64 x.toModel.toBits.toBitVec ≠ -1#11 := by
    intro he
    have := congrArg BitVec.toNat he
    rw [unpackExponent_toNat] at this
    exact h this
  have hself : ∀ u : UnpackedFloat, u ≠ .notANumber → u.beq u = true := by
    intro u hu
    cases u with
    | notANumber => exact absurd rfl hu
    | infinity s => cases s <;> rfl
    | zero s => rfl
    | finite s m e hm =>
      have he : compare e e = .eq := by simp
      have hm : compare m m = .eq := by simp
      cases s <;> simp [UnpackedFloat.beq, UnpackedFloat.compare]
  refine hself _ ?_
  unfold Float.Model.unpack UnpackedFloat.unpack
  simp only [if_neg hne]
  split
  · split <;> simp
  · simp
/-- What the bits of a finite float stand for, and how they do. -/
theorem ofFloat_finite {x : Float} {b : Binary} (h : Kind.ofFloat x = .finite b) :
    (b.mantissa = 0 ∨ b.Fits) ∧
      x.toBits.toNat = (if b.negative then b.bits + twoPow 63 else b.bits) := by
  have hlt : x.toBits.toNat < 2 ^ 64 := x.toBits.toNat_lt
  unfold Kind.ofFloat Kind.ofBits at h
  generalize x.toBits.toNat = n at h hlt
  simp only [Nat.testBit_eq_decide_div_mod_eq, Nat.shiftRight_eq_div_pow, twoPow_eq] at h
  split at h
  · split at h <;> cases h
  · rename_i hmost
    split at h
    · rename_i hzero
      cases h
      refine ⟨?_, ?_⟩
      · by_cases hm : n % 2 ^ 52 = 0
        · exact .inl hm
        · exact .inr ⟨by simp only; omega, by simp only; omega, le_refl _,
            (by decide : leastExponent ≤ 971), .inr rfl⟩
      · have hsmall : n % 2 ^ 52 < 2 ^ 52 := Nat.mod_lt _ (by decide)
        simp only [Binary.bits, if_pos hsmall, twoPow_eq, decide_eq_true_eq]
        split <;> omega
    · rename_i hzero
      cases h
      refine ⟨.inr ⟨?_, ?_, ?_, ?_, ?_⟩, ?_⟩
      · simp only
        omega
      · simp only
        omega
      · simp only [leastExponent]
        omega
      · simp only
        omega
      · simp only
        omega
      · have hlarge : ¬ n % 2 ^ 52 + 2 ^ 52 < 2 ^ 52 := by omega
        simp only [Binary.bits, if_neg hlarge, twoPow_eq, decide_eq_true_eq]
        split <;> omega

/-- A float is given back by its sign and the bits of its magnitude. -/
theorem withSign_bits {x : Float} {b : Binary} (h : Kind.ofFloat x = .finite b) :
    withSign b.negative b.bits = x := by
  unfold withSign
  rw [← (ofFloat_finite h).2, UInt64.ofNat_toNat]
  exact ofBits_toBits x

/-! ### Reading a decimal -/

/-- What is near a float is in the range of floats. -/
theorem Binary.Near.range {b : Binary} (hb : b.Fits) {x : ℚ} (h : b.Near x) :
    (2 : ℚ) ^ (-1075 : Int) ≤ x ∧ x < 2 ^ (1024 : Int) := by
  have hu : (0 : ℚ) < 2 ^ b.exponent := by positivity
  have hpos : (1 : ℚ) ≤ b.mantissa := by exact_mod_cast hb.pos
  have hmax : (b.mantissa : ℚ) + 1 ≤ 2 ^ 53 := by exact_mod_cast hb.lt
  have hbelow := b.below_le
  obtain ⟨hlow, hhigh⟩ := h.bounds
  rw [le_div_iff₀ hu] at hlow
  rw [div_le_iff₀ hu] at hhigh
  have hleast : (2 : ℚ) ^ (-1074 : Int) ≤ 2 ^ b.exponent := zpow_le_zpow_right₀ one_le_two hb.least
  have hmost : (2 : ℚ) ^ b.exponent ≤ 2 ^ (971 : Int) := zpow_le_zpow_right₀ one_le_two hb.most
  constructor
  · calc (2 : ℚ) ^ (-1075 : Int) = 1 / 2 * 2 ^ (-1074 : Int) := by
          rw [show (-1075 : Int) = -1 + -1074 by rfl, zpow_add₀ two_ne_zero]
          norm_num
      _ ≤ 1 / 2 * 2 ^ b.exponent := by gcongr
      _ ≤ (b.mantissa - b.below) * 2 ^ b.exponent := by gcongr; linarith
      _ ≤ x := hlow
  · calc x ≤ (b.mantissa + 1 / 2) * 2 ^ b.exponent := hhigh
      _ < 2 ^ 53 * 2 ^ b.exponent := by gcongr; linarith
      _ ≤ 2 ^ 53 * 2 ^ (971 : Int) := by gcongr
      _ = 2 ^ (1024 : Int) := by
          rw [show (1024 : Int) = (53 : Nat) + 971 by rfl, zpow_add₀ two_ne_zero, zpow_natCast]

/-- A number has fewer decimal digits than a third of its binary ones and one more. -/
theorem lt_tenPow_size (n : Nat) : n < 10 ^ (Nat.log2 n / 3 + 1) := by
  calc n < 2 ^ (Nat.log2 n + 1) := Nat.lt_log2_self
    _ ≤ 2 ^ (3 * (Nat.log2 n / 3 + 1)) := Nat.pow_le_pow_right Nat.two_pos (by omega)
    _ = 8 ^ (Nat.log2 n / 3 + 1) := by rw [Nat.pow_mul]
    _ ≤ 10 ^ (Nat.log2 n / 3 + 1) := Nat.pow_le_pow_left (by decide) _

theorem eight_pow_le (k : Nat) : (2 : ℚ) ^ (3 * k) ≤ 10 ^ k := by
  rw [pow_mul]
  gcongr
  norm_num

theorem power_le_of_lt {digits : Nat} {power : Int} (hdigits : digits ≠ 0)
    (h : (digits : ℚ) * 10 ^ power < 2 ^ (1024 : Int)) : power ≤ 400 := by
  by_contra hp
  have hpow : (0 : ℚ) < 10 ^ power := by positivity
  have hdigits' : (1 : ℚ) ≤ digits := by exact_mod_cast Nat.pos_of_ne_zero hdigits
  have hmore : (2 : ℚ) ^ (1024 : Int) ≤ digits * 10 ^ power := by
    calc (2 : ℚ) ^ (1024 : Int) ≤ 2 ^ ((3 * 401 : Nat) : Int) :=
          zpow_le_zpow_right₀ one_le_two (by decide)
      _ ≤ 10 ^ ((401 : Nat) : Int) := by rw [zpow_natCast, zpow_natCast]; exact eight_pow_le 401
      _ ≤ 10 ^ power := zpow_le_zpow_right₀ (by norm_num) (by omega)
      _ ≤ digits * 10 ^ power := le_mul_of_one_le_left hpow.le hdigits'
  linarith

theorem le_power_of_le {digits : Nat} {power : Int}
    (h : (2 : ℚ) ^ (-1075 : Int) ≤ digits * 10 ^ power) :
    -400 ≤ power + (Nat.log2 digits / 3 + 1 : Nat) := by
  by_contra hp
  have hsize : (digits : ℚ) < 10 ^ ((Nat.log2 digits / 3 + 1 : Nat) : Int) := by
    rw [zpow_natCast]
    exact_mod_cast lt_tenPow_size digits
  have hless : (digits : ℚ) * 10 ^ power < 2 ^ (-1075 : Int) := by
    calc (digits : ℚ) * 10 ^ power < 10 ^ ((Nat.log2 digits / 3 + 1 : Nat) : Int) * 10 ^ power := by
          gcongr
      _ = 10 ^ (power + (Nat.log2 digits / 3 + 1 : Nat)) := by
          rw [zpow_add₀ (by norm_num), mul_comm]
      _ ≤ 10 ^ (-((401 : Nat) : Int)) := zpow_le_zpow_right₀ (by norm_num) (by omega)
      _ = (10 ^ 401)⁻¹ := by rw [zpow_neg, zpow_natCast]
      _ ≤ (2 ^ (3 * 401))⁻¹ := by gcongr; exact eight_pow_le 401
      _ = 2 ^ (-((3 * 401 : Nat) : Int)) := by rw [zpow_neg, zpow_natCast]
      _ ≤ 2 ^ (-1075 : Int) := zpow_le_zpow_right₀ one_le_two (by decide)
  linarith

/-- The guards against useless work keep away from every decimal near a float. -/
theorem nearestDecimal_of_near {b : Binary} (hb : b.Fits) {digits : Nat} {power : Int}
    (h : b.Near (digits * 10 ^ power)) (negative : Bool) :
    nearestDecimal negative digits power = withSign negative b.bits := by
  obtain ⟨hlow, hhigh⟩ := h.range hb
  have hdigits : digits ≠ 0 := by
    rintro rfl
    have : (0 : ℚ) < 2 ^ (-1075 : Int) := by positivity
    rw [Nat.cast_zero, zero_mul] at hlow
    linarith
  have hlarge := power_le_of_lt hdigits hhigh
  have hsmall := le_power_of_le hlow
  have hwhole : ∀ {num den : Nat}, 0 < den → (num : ℚ) / den = digits * 10 ^ power →
      nearest negative num den = withSign negative b.bits := by
    intro num den hd hvalue
    rw [nearest, nearestBits_of_near hb hd (by rw [hvalue]; exact h)]
  unfold nearestDecimal
  simp only [if_neg hdigits, if_neg (not_lt.2 hlarge)]
  rw [if_neg (not_lt.2 (by exact_mod_cast hsmall))]
  split
  · rename_i hp
    refine hwhole Nat.one_pos ?_
    rw [zpow_of_nonneg hp, tenPow_eq]
    push_cast
    rw [div_one]
  · rename_i hp
    refine hwhole (Nat.pow_pos (by decide)) ?_
    rw [zpow_of_neg hp, tenPow_eq, div_eq_mul_inv]
    push_cast
    rfl

/-! ### Decimals as they are written -/

/-- Digits with at most one point between them stand for `n * 10 ^ p`. -/
inductive Written : List Char → Nat → Int → Prop where
  | whole {ds : List Char} : ds ≠ [] → (∀ d ∈ ds, d.isDigit = true) →
      Written ds (digitsValue 0 ds) 0
  | point {ds fs : List Char} : ds ≠ [] → fs ≠ [] → (∀ d ∈ ds, d.isDigit = true) →
      (∀ d ∈ fs, d.isDigit = true) →
      Written (ds ++ '.' :: fs) (digitsValue 0 (ds ++ fs)) (-(fs.length : Int))

theorem digitsValue_eq (start : Nat) (ds : List Char) :
    digitsValue start ds = Nat.ofDigitChars 10 ds start := Nat.ofDigitChars_eq_foldl.symm

/-- Characters of a kind end at one that is of another kind. -/
theorem takeWhile_ends {kind : Char → Bool} {cs : List Char} (h : ∀ c ∈ cs, kind c = true)
    (rest : List Char) (hrest : ∀ c, rest.head? = some c → kind c = false) :
    (cs ++ rest).takeWhile kind = cs ∧ (cs ++ rest).dropWhile kind = rest := by
  have hstop : rest.takeWhile kind = [] ∧ rest.dropWhile kind = rest := by
    cases rest with
    | nil => exact ⟨rfl, rfl⟩
    | cons c rest => simp [hrest c rfl]
  rw [List.takeWhile_append_of_pos h, List.dropWhile_append_of_pos h, hstop.1, hstop.2]
  exact ⟨List.append_nil cs, rfl⟩

theorem Written.head {cs : List Char} {n : Nat} {p : Int} (h : Written cs n p) :
    ∃ d rest, cs = d :: rest ∧ d.isDigit = true := by
  cases h with
  | @whole ds hne hd =>
    obtain ⟨d, rest, rfl⟩ := List.exists_cons_of_ne_nil hne
    exact ⟨d, rest, rfl, hd d List.mem_cons_self⟩
  | @point ds fs hne _ hd _ =>
    obtain ⟨d, rest, rfl⟩ := List.exists_cons_of_ne_nil hne
    exact ⟨d, rest ++ '.' :: fs, rfl, hd d List.mem_cons_self⟩

theorem Written.read {cs : List Char} {n : Nat} {p : Int} (h : Written cs n p) (negative : Bool) :
    readUnsigned? negative cs = some (nearestDecimal negative n p) := by
  cases h with
  | @whole ds hne hd =>
    obtain ⟨htake, hdrop⟩ := takeWhile_ends hd [] (fun c hc => by cases hc)
    rw [List.append_nil] at htake hdrop
    unfold readUnsigned?
    simp [htake, hdrop, hne, readPower?, digitsValue_eq]
  | @point ds fs hne hne' hd hf =>
    obtain ⟨htake, hdrop⟩ := takeWhile_ends hd ('.' :: fs) (fun c hc => by cases hc; decide)
    obtain ⟨htake', hdrop'⟩ := takeWhile_ends hf [] (fun c hc => by cases hc)
    rw [List.append_nil] at htake' hdrop'
    unfold readUnsigned?
    simp [htake, hdrop, htake', hdrop', hne, readPower?, digitsValue_eq, Nat.ofDigitChars_append]

section Positional

variable {ds : List Char} (hne : ds ≠ []) (hdigit : ∀ d ∈ ds, d.isDigit = true)

theorem isDigit_of_mem_zeros (k : Nat) : ∀ d ∈ List.replicate k '0', d.isDigit = true := by
  intro d hd
  rw [List.eq_of_mem_replicate hd]
  decide

include hne hdigit

/-- Zeros behind the digits. -/
theorem written_zeros (k : Nat) :
    Written (ds ++ List.replicate k '0') (Nat.ofDigitChars 10 ds 0 * 10 ^ k) 0 := by
  have hw : Written (ds ++ List.replicate k '0') (digitsValue 0 (ds ++ List.replicate k '0')) 0 := by
    refine .whole (List.append_ne_nil_of_left_ne_nil hne _) fun d hd => ?_
    obtain hd | hd := List.mem_append.1 hd
    · exact hdigit d hd
    · exact isDigit_of_mem_zeros k d hd
  rwa [digitsValue_eq, Nat.ofDigitChars_append, Nat.ofDigitChars_replicate_zero, Nat.mul_comm] at hw

/-- A point among the digits. -/
theorem written_inside {places : Nat} (hpos : 0 < places) (hlt : places < ds.length) :
    Written (ds.take (ds.length - places) ++ '.' :: ds.drop (ds.length - places))
      (Nat.ofDigitChars 10 ds 0) (-(places : Int)) := by
  have hw : Written (ds.take (ds.length - places) ++ '.' :: ds.drop (ds.length - places))
      (digitsValue 0 (ds.take (ds.length - places) ++ ds.drop (ds.length - places)))
      (-((ds.drop (ds.length - places)).length : Int)) := by
    refine .point ?_ ?_ (fun d hd => hdigit d (List.mem_of_mem_take hd))
      fun d hd => hdigit d (List.mem_of_mem_drop hd)
    · rw [ne_eq, List.take_eq_nil_iff]
      rintro (h | h)
      · omega
      · exact hne h
    · rw [ne_eq, List.drop_eq_nil_iff]
      omega
  have hlength : ds.length - (ds.length - places) = places := by omega
  rwa [List.take_append_drop, digitsValue_eq, List.length_drop, hlength] at hw

/-- A point before the digits, with zeros behind it. -/
theorem written_before {places : Nat} (hle : ds.length ≤ places) :
    Written ('0' :: '.' :: (List.replicate (places - ds.length) '0' ++ ds))
      (Nat.ofDigitChars 10 ds 0) (-(places : Int)) := by
  have hw : Written (['0'] ++ '.' :: (List.replicate (places - ds.length) '0' ++ ds))
      (digitsValue 0 (['0'] ++ (List.replicate (places - ds.length) '0' ++ ds)))
      (-((List.replicate (places - ds.length) '0' ++ ds).length : Int)) := by
    refine .point (List.cons_ne_nil _ _) (List.append_ne_nil_of_right_ne_nil _ hne)
      (isDigit_of_mem_zeros 1) fun d hd => ?_
    obtain hd | hd := List.mem_append.1 hd
    · exact isDigit_of_mem_zeros _ d hd
    · exact hdigit d hd
  have hlength : places - ds.length + ds.length = places := by omega
  have hstart : Nat.ofDigitChars 10 ['0'] 0 = 0 := rfl
  rwa [digitsValue_eq, Nat.ofDigitChars_append, Nat.ofDigitChars_append,
    Nat.ofDigitChars_replicate_zero, List.length_append, List.length_replicate, hlength, hstart,
    Nat.mul_zero] at hw

end Positional

/-- The digits laid out positionally stand for the same number. -/
theorem Scaled.positional_written (s : Scaled) :
    ∃ n p, Written (s.positional "").toList n p ∧ (n : ℚ) * 10 ^ p = s.value := by
  have hdigit : ∀ d ∈ Nat.toDigits 10 s.digits, d.isDigit = true := fun d hd =>
    Nat.isDigit_of_mem_toDigits (by decide) (by decide) hd
  have hne : Nat.toDigits 10 s.digits ≠ [] := Nat.toDigits_ne_nil
  have hvalue : Nat.ofDigitChars 10 (Nat.toDigits 10 s.digits) 0 = s.digits :=
    Nat.ofDigitChars_ten_toDigits
  unfold Scaled.positional
  simp only
  generalize Nat.toDigits 10 s.digits = ds at hdigit hne hvalue
  split
  · rename_i he
    have htext : (String.ofList ds ++ zeros s.exponent.toNat ++ "").toList
        = ds ++ List.replicate s.exponent.toNat '0' := by simp [zeros]
    refine ⟨_, _, by rw [htext]; exact written_zeros hne hdigit _, ?_⟩
    rw [hvalue, Scaled.value, zpow_of_nonneg he]
    push_cast
    ring
  · rename_i he
    obtain ⟨places, hplaces⟩ : ∃ places : Nat, s.exponent = -(places : Int) ∧ 0 < places :=
      ⟨(-s.exponent).toNat, by omega, by omega⟩
    have hnat : (-s.exponent).toNat = places := by omega
    rw [hnat, Scaled.value, hplaces.1, ← hvalue]
    split
    · rename_i hlt
      have htext : (String.ofList (ds.take (ds.length - places)) ++ "."
          ++ String.ofList (ds.drop (ds.length - places))).toList
          = ds.take (ds.length - places) ++ '.' :: ds.drop (ds.length - places) := by simp
      exact ⟨_, _, by rw [htext]; exact written_inside hne hdigit hplaces.2 hlt, rfl⟩
    · rename_i hle
      have htext : ("0." ++ zeros (places - ds.length) ++ String.ofList ds).toList
          = '0' :: '.' :: (List.replicate (places - ds.length) '0' ++ ds) := by simp [zeros]
      exact ⟨_, _, by rw [htext]; exact written_before hne hdigit (not_lt.1 hle), rfl⟩

/-! ### Numbers as text -/

theorem Binary.near_self (b : Binary) : b.Near b.value := by
  have hu : (0 : ℚ) < 2 ^ b.exponent := by positivity
  have hvalue : b.value / 2 ^ b.exponent = b.mantissa := mul_div_cancel_right₀ _ hu.ne'
  have hbelow : 0 < b.below := by
    unfold Binary.below
    split <;> norm_num
  unfold Binary.Near
  rw [hvalue]
  exact .inl ⟨by linarith, by linarith⟩

theorem Binary.value_eq_zero_iff (b : Binary) : b.value = 0 ↔ b.mantissa = 0 := by
  unfold Binary.value
  have hu : (2 : ℚ) ^ b.exponent ≠ 0 := by positivity
  rw [mul_eq_zero, or_iff_left hu, Nat.cast_eq_zero]

/-- A float that is a whole number. -/
theorem Binary.toInt?_eq {b : Binary} {i : Int} (h : b.toInt? = some i) :
    (i.natAbs : ℚ) = b.value ∧ (b.mantissa ≠ 0 → decide (i < 0) = b.negative) := by
  have hd := b.ratio_pos
  unfold Binary.toInt? at h
  simp only at h
  split at h
  · rename_i hwhole
    have hquotient : ((b.ratio.1 / b.ratio.2 : Nat) : ℚ) = b.value := by
      rw [← b.ratio_value, ratioValue, Nat.cast_div (Nat.dvd_of_mod_eq_zero hwhole)]
      exact_mod_cast hd.ne'
    generalize b.ratio.1 / b.ratio.2 = n at h hquotient
    have hn : b.mantissa ≠ 0 → n ≠ 0 := by
      rintro hm rfl
      exact hm (b.value_eq_zero_iff.1 (by rw [← hquotient, Nat.cast_zero]))
    cases h
    cases b.negative with
    | true =>
      refine ⟨by simpa using hquotient, fun hm => ?_⟩
      have := hn hm
      simp only [if_true, decide_eq_true_eq]
      omega
    | false =>
      refine ⟨by simpa using hquotient, fun hm => ?_⟩
      simp
  · cases h

theorem Binary.toInt?_of_zero {b : Binary} (h : b.mantissa = 0) : b.toInt? = some 0 := by
  unfold Binary.toInt? Binary.ratio
  simp only [h]
  split <;> simp

theorem written_toDigits (k : Nat) : Written (Nat.toDigits 10 k) k 0 := by
  have hw : Written (Nat.toDigits 10 k) (digitsValue 0 (Nat.toDigits 10 k)) 0 :=
    .whole Nat.toDigits_ne_nil fun d hd => Nat.isDigit_of_mem_toDigits (by decide) (by decide) hd
  rwa [digitsValue_eq, Nat.ofDigitChars_ten_toDigits] at hw

/-- The text of a number: an optional sign, and digits from which the number is read again. -/
def WrittenFor (text : String) (x : Float) : Prop :=
  ∃ negative cs n p, Written cs n p ∧ text.toList = (if negative then '-' :: cs else cs) ∧
    (nearestDecimal negative n p == x) = true

/-- Either zero is written without a sign. -/
theorem writtenFor_zero {x : Float} {b : Binary} (hb : Kind.ofFloat x = .finite b)
    (hzero : b.mantissa = 0) : WrittenFor (numberText x) x := by
  have htext : (numberText x).toList = Nat.toDigits 10 0 := by
    unfold numberText wholeNumber?
    simp [hb, Binary.toInt?_of_zero hzero, digitString, exactLimit, twoPow_eq]
  refine ⟨false, Nat.toDigits 10 0, 0, 0, written_toDigits 0, htext, ?_⟩
  have hbits : b.bits = 0 := by
    unfold Binary.bits
    rw [hzero]
    rfl
  rw [← withSign_bits hb, hbits]
  cases b.negative <;> decide

/-- A decimal near the number, with the sign of the number. -/
theorem writtenFor_near {x : Float} {b : Binary} (hb : Kind.ofFloat x = .finite b) (hfits : b.Fits)
    {cs : List Char} {n : Nat} {p : Int} {text : String} (hw : Written cs n p)
    (hnear : b.Near (n * 10 ^ p)) (htext : text.toList = if b.negative then '-' :: cs else cs) :
    WrittenFor text x := by
  have hfinite : isFinite x = true := by
    unfold isFinite
    rw [hb]
  refine ⟨b.negative, cs, n, p, hw, htext, ?_⟩
  rw [nearestDecimal_of_near hfits hnear, withSign_bits hb]
  exact beq_self_of_finite hfinite

theorem numberText_written {x : Float} (h : isFinite x = true) : WrittenFor (numberText x) x := by
  obtain ⟨b, hb⟩ : ∃ b, Kind.ofFloat x = .finite b := by
    unfold isFinite at h
    split at h
    · exact ⟨_, by assumption⟩
    · cases h
  by_cases hzero : b.mantissa = 0
  · exact writtenFor_zero hb hzero
  · have hfits := (ofFloat_finite hb).1.resolve_left hzero
    have hplain : WrittenFor (Layout.plain.render x) x := by
      obtain ⟨n, p, hw, hvalue⟩ := b.shortest.positional_written
      refine writtenFor_near hb hfits hw (by rw [hvalue]; exact Binary.shortest_near hfits) ?_
      simp only [Layout.render, hb, if_neg hzero, Layout.plain, if_true]
      cases b.negative <;> simp
    unfold numberText wholeNumber?
    simp only [hb]
    cases hi : b.toInt? with
    | none => exact hplain
    | some i =>
      simp only
      split
      · obtain ⟨hvalue, hsign⟩ := Binary.toInt?_eq hi
        have hnear : b.Near (i.natAbs * 10 ^ (0 : Int)) := by
          rw [zpow_zero, mul_one, hvalue]
          exact b.near_self
        refine writtenFor_near hb hfits (written_toDigits i.natAbs) hnear ?_
        rw [← hsign hzero]
        by_cases hneg : i < 0
        · simp [hneg, digitString]
        · simp [hneg, digitString]
      · exact hplain

/-- **A finite number reads back from its text.** -/
theorem read_numberText {x : Float} (h : isFinite x = true) :
    ∃ y, read? (numberText x).toList = some y ∧ (y == x) = true := by
  obtain ⟨negative, cs, n, p, hw, htext, hx⟩ := numberText_written h
  refine ⟨_, ?_, hx⟩
  rw [htext]
  cases negative with
  | true => exact hw.read true
  | false =>
    obtain ⟨d, rest, rfl, hd⟩ := hw.head
    have hminus : d ≠ '-' := by
      rintro rfl
      cases hd
    have hplus : d ≠ '+' := by
      rintro rfl
      cases hd
    have hunsigned : read? (d :: rest) = readUnsigned? false (d :: rest) := by
      unfold read?
      split
      · rename_i he
        cases he
        exact absurd rfl hminus
      · rename_i he
        cases he
        exact absurd rfl hplus
      · rfl
    rw [← hw.read false]
    exact hunsigned

end Logo.Decimal
