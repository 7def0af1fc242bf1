import Logo.Proofs.Numerals
import Logo.Proofs.Words
import Mathlib.Computability.RegularExpressions

/-!
# The grammar of numbers

`numeral` is the regular expression of the numbers that a source can hold. The scanner takes
the parts of a number one after the other, each as long as it can be, and takes whatever runs on
into the number as well, so what it has taken always ends where a word would. That text is well
formed exactly if it matches the expression, and then a number can be read from it.
-/

namespace Logo.Source
set_option autoImplicit false
open Logo.Text

/-! ### The grammar -/

def oneOf (cs : List Char) : RegularExpression Char := cs.foldr (fun c r => .char c + r) 0

def optional (r : RegularExpression Char) : RegularExpression Char := 1 + r

def digit : RegularExpression Char := oneOf "0123456789".toList

/-- One digit or more. -/
def digits : RegularExpression Char := digit * digit.star

/-- Digits that may have a point behind them and further digits behind that, or a point with
digits behind it. -/
def mantissa : RegularExpression Char :=
  digits * optional (.char '.' * digit.star) + .char '.' * digits

/-- The mark of a power of ten, its sign and its digits. -/
def power : RegularExpression Char := oneOf ['e', 'E'] * optional (oneOf ['+', '-']) * digits

def numeral : RegularExpression Char := optional (.char '-') * mantissa * optional power

section Matching

variable {w : List Char}

theorem mem_char {c : Char} : w ∈ (RegularExpression.char c).matches' ↔ w = [c] := Iff.rfl

theorem mem_oneOf {cs : List Char} : w ∈ (oneOf cs).matches' ↔ ∃ c ∈ cs, w = [c] := by
  induction cs with
  | nil => simp [oneOf, RegularExpression.matches'_zero, Language.notMem_zero]
  | cons c cs ih =>
    have hsum : oneOf (c :: cs) = .char c + oneOf cs := rfl
    rw [hsum, RegularExpression.matches'_add, Language.mem_add, ih, mem_char]
    simp

theorem mem_optional {r : RegularExpression Char} :
    w ∈ (optional r).matches' ↔ w = [] ∨ w ∈ r.matches' := by
  rw [optional, RegularExpression.matches'_add, Language.mem_add, RegularExpression.matches'_epsilon,
    Language.mem_one]

theorem isDigit_iff_mem {c : Char} : c.isDigit = true ↔ c ∈ "0123456789".toList := by
  constructor
  · intro h
    have hrange : 48 ≤ c.toNat ∧ c.toNat ≤ 57 := by
      simp only [Char.isDigit, Bool.and_eq_true, decide_eq_true_eq] at h
      exact ⟨UInt32.le_iff_toNat_le.1 h.1, UInt32.le_iff_toNat_le.1 h.2⟩
    obtain ⟨hlow, hhigh⟩ := hrange
    rw [← Char.ofNat_toNat c]
    generalize c.toNat = n at hlow hhigh
    interval_cases n <;> decide
  · intro h
    have hall : "0123456789".toList.all Char.isDigit = true := by cbv
    exact List.all_eq_true.1 hall c h

theorem mem_star_digit : w ∈ digit.star.matches' ↔ ∀ d ∈ w, d.isDigit = true := by
  rw [RegularExpression.matches'_star, Language.mem_kstar]
  constructor
  · rintro ⟨pieces, rfl, hpieces⟩ d hd
    obtain ⟨piece, hpiece, hd⟩ := List.mem_flatten.1 hd
    obtain ⟨c, hc, rfl⟩ := mem_oneOf.1 (hpieces piece hpiece)
    rw [List.mem_singleton.1 hd]
    exact isDigit_iff_mem.2 hc
  · intro h
    refine ⟨w.map fun d => [d], (List.flatMap_singleton' w).symm, ?_⟩
    intro piece hpiece
    obtain ⟨d, hd, rfl⟩ := List.mem_map.1 hpiece
    exact mem_oneOf.2 ⟨d, isDigit_iff_mem.1 (h d hd), rfl⟩

theorem mem_digits : w ∈ digits.matches' ↔ w ≠ [] ∧ ∀ d ∈ w, d.isDigit = true := by
  rw [digits, RegularExpression.matches'_mul, Language.mem_mul]
  constructor
  · rintro ⟨first, hfirst, more, hmore, rfl⟩
    obtain ⟨c, hc, rfl⟩ := mem_oneOf.1 hfirst
    exact ⟨by simp, List.forall_mem_cons.2 ⟨isDigit_iff_mem.2 hc, mem_star_digit.1 hmore⟩⟩
  · rintro ⟨hne, h⟩
    obtain ⟨c, more, rfl⟩ := List.exists_cons_of_ne_nil hne
    obtain ⟨hc, hmore⟩ := List.forall_mem_cons.1 h
    exact ⟨[c], mem_oneOf.2 ⟨c, isDigit_iff_mem.1 hc, rfl⟩, more, mem_star_digit.2 hmore, rfl⟩

theorem mem_power : w ∈ power.matches' ↔ ∃ e sign ds, w = e :: (sign ++ ds) ∧ (e = 'e' ∨ e = 'E') ∧
    (sign = [] ∨ sign = ['+'] ∨ sign = ['-']) ∧ ds ≠ [] ∧ ∀ d ∈ ds, d.isDigit = true := by
  rw [power, RegularExpression.matches'_mul, Language.mem_mul]
  constructor
  · rintro ⟨front, hfront, ds, hds, rfl⟩
    rw [RegularExpression.matches'_mul, Language.mem_mul] at hfront
    obtain ⟨mark, hmark, sign, hsign, rfl⟩ := hfront
    obtain ⟨e, he, rfl⟩ := mem_oneOf.1 hmark
    have hsigns : sign = [] ∨ sign = ['+'] ∨ sign = ['-'] := by
      simpa [mem_optional, mem_oneOf] using hsign
    exact ⟨e, sign, ds, rfl, by simpa using he, hsigns, mem_digits.1 hds⟩
  · rintro ⟨e, sign, ds, rfl, he, hsign, hds⟩
    refine ⟨e :: sign, ?_, ds, mem_digits.2 hds, rfl⟩
    rw [RegularExpression.matches'_mul, Language.mem_mul]
    exact ⟨[e], mem_oneOf.2 ⟨e, by simpa using he, rfl⟩, sign,
      by simpa [mem_optional, mem_oneOf] using hsign, rfl⟩

end Matching

/-! ### The parts of a number -/

/-- What the scanner takes one after the other makes up a number: a digit stands before the
power of ten, on one side of the point. -/
structure Parts (minus whole fraction exponent : List Char) : Prop where
  sign : minus = [] ∨ minus = ['-']
  digits : ∀ d ∈ whole, d.isDigit = true
  point : fraction = [] ∨ ∃ fs, fraction = '.' :: fs ∧ ∀ d ∈ fs, d.isDigit = true
  some_digit : whole ≠ [] ∨ ∃ f fs, fraction = '.' :: f :: fs
  power : exponent = [] ∨ ∃ e sign ds, exponent = e :: (sign ++ ds) ∧ (e = 'e' ∨ e = 'E') ∧
    (sign = [] ∨ sign = ['+'] ∨ sign = ['-']) ∧ ds ≠ [] ∧ ∀ d ∈ ds, d.isDigit = true

theorem mem_numeral {w : List Char} : w ∈ numeral.matches' ↔ ∃ minus whole fraction exponent,
    w = minus ++ (whole ++ (fraction ++ exponent)) ∧ Parts minus whole fraction exponent := by
  rw [numeral, RegularExpression.matches'_mul, Language.mem_mul]
  constructor
  · rintro ⟨front, hfront, exponent, hexponent, rfl⟩
    rw [RegularExpression.matches'_mul, Language.mem_mul] at hfront
    obtain ⟨minus, hminus, number, hnumber, rfl⟩ := hfront
    have hminus' : minus = [] ∨ minus = ['-'] := by
      simpa only [mem_optional, mem_char] using hminus
    have hexponent' := (mem_optional.1 hexponent).imp_right mem_power.1
    rw [mantissa, RegularExpression.matches'_add, Language.mem_add, RegularExpression.matches'_mul,
      RegularExpression.matches'_mul, Language.mem_mul, Language.mem_mul] at hnumber
    rcases hnumber with ⟨whole, hwhole, fraction, hfraction, rfl⟩ | ⟨point, hpoint, fs, hfs, rfl⟩
    · obtain ⟨hne, hwhole⟩ := mem_digits.1 hwhole
      refine ⟨minus, whole, fraction, exponent, by simp, hminus', hwhole, ?_, .inl hne, hexponent'⟩
      refine (mem_optional.1 hfraction).imp_right fun hfraction => ?_
      rw [RegularExpression.matches'_mul, Language.mem_mul] at hfraction
      obtain ⟨point, hpoint, fs, hfs, rfl⟩ := hfraction
      obtain rfl : point = ['.'] := hpoint
      exact ⟨fs, rfl, mem_star_digit.1 hfs⟩
    · obtain rfl : point = ['.'] := hpoint
      obtain ⟨hne, hfs⟩ := mem_digits.1 hfs
      obtain ⟨f, fs, rfl⟩ := List.exists_cons_of_ne_nil hne
      exact ⟨minus, [], '.' :: f :: fs, exponent, by simp, hminus', by simp, .inr ⟨_, rfl, hfs⟩,
        .inr ⟨f, fs, rfl⟩, hexponent'⟩
  · rintro ⟨minus, whole, fraction, exponent, rfl, h⟩
    refine ⟨minus ++ (whole ++ fraction), ?_, exponent, mem_optional.2 (h.power.imp_right mem_power.2),
      by simp⟩
    rw [RegularExpression.matches'_mul, Language.mem_mul]
    refine ⟨minus, ?_, whole ++ fraction, ?_, rfl⟩
    · simpa only [mem_optional, mem_char] using h.sign
    · rw [mantissa, RegularExpression.matches'_add, Language.mem_add, RegularExpression.matches'_mul,
        RegularExpression.matches'_mul, Language.mem_mul, Language.mem_mul]
      by_cases hne : whole = []
      · obtain ⟨f, fs, rfl⟩ := h.some_digit.resolve_left fun hw => hw hne
        obtain ⟨gs, hgs, hall⟩ := h.point.resolve_left (List.cons_ne_nil _ _)
        cases hgs
        subst hne
        exact .inr ⟨['.'], rfl, f :: fs, mem_digits.2 ⟨List.cons_ne_nil _ _, hall⟩, rfl⟩
      · refine .inl ⟨whole, mem_digits.2 ⟨hne, h.digits⟩, fraction, mem_optional.2 ?_, rfl⟩
        refine h.point.imp_right ?_
        rintro ⟨fs, rfl, hfs⟩
        rw [RegularExpression.matches'_mul, Language.mem_mul]
        exact ⟨['.'], rfl, fs, mem_star_digit.2 hfs, rfl⟩

/-! ### What the scanner takes -/

section Scanner

variable {cs : List Char}

theorem scanMinus_split (cs : List Char) : (scanMinus cs).1 ++ (scanMinus cs).2 = cs := by
  unfold scanMinus
  split <;> rfl

theorem scanFraction_split (cs : List Char) : (scanFraction cs).1 ++ (scanFraction cs).2 = cs := by
  unfold scanFraction
  split <;> simp

theorem scanSign_split (cs : List Char) : (scanSign cs).1 ++ (scanSign cs).2 = cs := by
  unfold scanSign
  split <;> rfl

theorem scanExponent_split (cs : List Char) :
    (scanExponent cs).text ++ (scanExponent cs).rest = cs := by
  unfold scanExponent
  split
  · rfl
  · rename_i e cs
    split
    · simp [scanSign_split]
    · rfl

/-- Nothing is lost: the text of a number and what is left make up the source. -/
theorem scanNumber_split (cs : List Char) : (scanNumber cs).text ++ (scanNumber cs).rest = cs := by
  have hminus := scanMinus_split cs
  have hfraction := scanFraction_split ((scanMinus cs).2.dropWhile Char.isDigit)
  have hexponent := scanExponent_split (scanFraction ((scanMinus cs).2.dropWhile Char.isDigit)).2
  simp only [scanNumber, List.append_assoc, List.takeWhile_append_dropWhile, hexponent, hfraction,
    hminus]

/-- The scanner stops where a word would. -/
theorem scanNumber_stopped (cs : List Char) : Stopped isTerminator (scanNumber cs).rest := by
  intro c hc
  have hhead := List.head?_dropWhile_not (fun c => !isTerminator c)
    (scanExponent (scanFraction ((scanMinus cs).2.dropWhile Char.isDigit)).2).rest
  have hrest : ((scanExponent (scanFraction ((scanMinus cs).2.dropWhile Char.isDigit)).2).rest.dropWhile
      fun c => !isTerminator c).head? = some c := hc
  rw [hrest] at hhead
  simpa using hhead

end Scanner

/-- A character that ends a word belongs to no number, but for a sign. -/
theorem terminator_ne {c : Char} (h : isTerminator c = true) :
    c.isDigit = false ∧ c ≠ '.' ∧ c ≠ 'e' ∧ c ≠ 'E' := by
  refine ⟨?_, ?_, ?_, ?_⟩
  · rw [Bool.eq_false_iff]
    intro hdigit
    have hall : ("0123456789".toList.all fun d => !isTerminator d) = true := by cbv
    have hc := List.all_eq_true.1 hall c (isDigit_iff_mem.1 hdigit)
    rw [h] at hc
    cases hc
  all_goals
    rintro rfl
    cases h

section Scan

variable {minus whole fraction exponent rest : List Char} (h : Parts minus whole fraction exponent)
  (hrest : Stopped isTerminator rest)

include h

/-- Behind its sign a number begins with a digit or a point. -/
theorem Parts.head (tail : List Char) : ∃ c cs, whole ++ (fraction ++ tail) = c :: cs ∧
    (c.isDigit = true ∨ c = '.') := by
  rcases h.some_digit with hw | ⟨f, fs, rfl⟩
  · obtain ⟨d, ds, rfl⟩ := List.exists_cons_of_ne_nil hw
    exact ⟨d, _, rfl, .inl (h.digits d List.mem_cons_self)⟩
  · cases whole with
    | nil => exact ⟨'.', _, rfl, .inr rfl⟩
    | cons d ds => exact ⟨d, _, rfl, .inl (h.digits d List.mem_cons_self)⟩

theorem Parts.scanMinus (tail : List Char) :
    scanMinus (minus ++ (whole ++ (fraction ++ tail))) = (minus, whole ++ (fraction ++ tail)) := by
  obtain ⟨c, cs, hcs, hc⟩ := h.head tail
  rcases h.sign with rfl | rfl
  · have hminus : c ≠ '-' := by
      rintro rfl
      revert hc
      decide
    simp [hcs, Source.scanMinus, hminus]
  · rfl

include hrest

theorem Parts.exponent_head :
    ∀ c, (exponent ++ rest).head? = some c → c.isDigit = false ∧ c ≠ '.' := by
  intro c hc
  rcases h.power with rfl | ⟨e, sign, ds, rfl, he, -⟩
  · obtain ⟨hdigit, hpoint, -⟩ := terminator_ne (hrest c hc)
    exact ⟨hdigit, hpoint⟩
  · cases hc
    rcases he with rfl | rfl <;> exact ⟨rfl, by decide⟩

theorem Parts.takeWhole : (whole ++ (fraction ++ (exponent ++ rest))).takeWhile Char.isDigit = whole ∧
    (whole ++ (fraction ++ (exponent ++ rest))).dropWhile Char.isDigit
      = fraction ++ (exponent ++ rest) := by
  refine Decimal.takeWhile_ends h.digits _ fun c hc => ?_
  rcases h.point with rfl | ⟨fs, rfl, -⟩
  · exact (h.exponent_head hrest c hc).1
  · cases hc
    rfl

theorem Parts.scanFraction :
    scanFraction (fraction ++ (exponent ++ rest)) = (fraction, exponent ++ rest) := by
  have hhead := h.exponent_head hrest
  rcases h.point with rfl | ⟨fs, rfl, hfs⟩
  · unfold Source.scanFraction
    split
    · rename_i cs he
      exact absurd rfl (hhead '.' (by rw [← List.nil_append (exponent ++ rest), he]; rfl)).2
    · rfl
  · obtain ⟨htake, hdrop⟩ := Decimal.takeWhile_ends hfs (exponent ++ rest) fun c hc => (hhead c hc).1
    simp only [Source.scanFraction, List.cons_append, htake, hdrop]

theorem Parts.scanExponent : scanExponent (exponent ++ rest) = ⟨exponent, true, rest⟩ := by
  rcases h.power with rfl | ⟨e, sign, ds, rfl, he, hsign, hne, hds⟩
  · cases rest with
    | nil => rfl
    | cons c rest =>
      obtain ⟨-, -, hlower, hupper⟩ := terminator_ne (hrest c rfl)
      simp [Source.scanExponent, hlower, hupper]
  · have hscan : scanSign (sign ++ ds ++ rest) = (sign, ds ++ rest) := by
      obtain ⟨d, more, rfl⟩ := List.exists_cons_of_ne_nil hne
      have hd := hds d List.mem_cons_self
      rcases hsign with rfl | rfl | rfl
      · unfold scanSign
        split
        · rename_i he
          cases he
          cases hd
        · rename_i he
          cases he
          cases hd
        · rfl
      · rfl
      · rfl
    obtain ⟨htake, hdrop⟩ := Decimal.takeWhile_ends hds rest fun c hc => (terminator_ne (hrest c hc)).1
    have hfull : ds.isEmpty = false := by simpa using hne
    simp only [List.cons_append, Source.scanExponent, if_pos he, hscan, htake, hdrop, hfull,
      Bool.not_false]

/-- A number in front of what ends a word is taken whole. -/
theorem Parts.scanNumber : scanNumber (minus ++ (whole ++ (fraction ++ exponent)) ++ rest)
    = ⟨minus ++ (whole ++ (fraction ++ exponent)), true, rest⟩ := by
  obtain ⟨htake, hdrop⟩ := h.takeWhole hrest
  obtain ⟨hjunk, hend⟩ : rest.takeWhile (fun c => !isTerminator c) = [] ∧
      rest.dropWhile (fun c => !isTerminator c) = rest :=
    @Decimal.takeWhile_ends (fun c => !isTerminator c) [] (by simp) rest
      fun c hc => by simp [hrest c hc]
  have hassoc : minus ++ (whole ++ (fraction ++ exponent)) ++ rest
      = minus ++ (whole ++ (fraction ++ (exponent ++ rest))) := by simp
  simp only [hassoc, Source.scanNumber, h.scanMinus, htake, hdrop, h.scanFraction hrest,
    h.scanExponent hrest, hjunk, hend]
  simp

end Scan

theorem scanNumber_of_numeral {text rest : List Char} (h : text ∈ numeral.matches')
    (hrest : Stopped isTerminator rest) : scanNumber (text ++ rest) = ⟨text, true, rest⟩ := by
  obtain ⟨minus, whole, fraction, exponent, rfl, hparts⟩ := mem_numeral.1 h
  exact hparts.scanNumber hrest

/-! ### What is well formed -/

theorem scanMinus_cases (cs : List Char) : (scanMinus cs).1 = [] ∨ (scanMinus cs).1 = ['-'] := by
  unfold scanMinus
  split
  · exact .inr rfl
  · exact .inl rfl

theorem scanFraction_cases (cs : List Char) : (scanFraction cs).1 = [] ∨
    ∃ fs, (scanFraction cs).1 = '.' :: fs ∧ ∀ d ∈ fs, d.isDigit = true := by
  unfold scanFraction
  split
  · exact .inr ⟨_, rfl, fun d hd => List.all_eq_true.1 List.all_takeWhile d hd⟩
  · exact .inl rfl

theorem scanSign_cases (cs : List Char) :
    (scanSign cs).1 = [] ∨ (scanSign cs).1 = ['+'] ∨ (scanSign cs).1 = ['-'] := by
  unfold scanSign
  split
  · exact .inr (.inl rfl)
  · exact .inr (.inr rfl)
  · exact .inl rfl

theorem scanExponent_cases {cs : List Char} (h : (scanExponent cs).wellFormed = true) :
    (scanExponent cs).text = [] ∨ ∃ e sign ds, (scanExponent cs).text = e :: (sign ++ ds) ∧
      (e = 'e' ∨ e = 'E') ∧ (sign = [] ∨ sign = ['+'] ∨ sign = ['-']) ∧ ds ≠ [] ∧
      ∀ d ∈ ds, d.isDigit = true := by
  unfold scanExponent at h ⊢
  split
  · exact .inl rfl
  · rename_i e cs
    split
    · rename_i he
      simp only [if_pos he, Bool.not_eq_true', List.isEmpty_eq_false_iff] at h
      exact .inr ⟨e, _, _, rfl, he, scanSign_cases cs, h,
        fun d hd => List.all_eq_true.1 List.all_takeWhile d hd⟩
    · exact .inl rfl

/-- Where a number begins there is a digit before the power of ten. -/
theorem digit_of_startsNumber {cs : List Char} (h : startsNumber cs = true) :
    cs.takeWhile Char.isDigit ≠ [] ∨
      ∃ f fs, (scanFraction (cs.dropWhile Char.isDigit)).1 = '.' :: f :: fs := by
  cases cs with
  | nil => cases h
  | cons c cs =>
    by_cases hdigit : c.isDigit = true
    · left
      simp [hdigit]
    · right
      rw [startsNumber_eq] at h
      simp only [hdigit, Bool.false_or, Bool.and_eq_true, beq_iff_eq] at h
      obtain ⟨rfl, h⟩ := h
      cases cs with
      | nil => cases h
      | cons d cs =>
        have hd : d.isDigit = true := h
        refine ⟨d, cs.takeWhile Char.isDigit, ?_⟩
        simp [show Char.isDigit '.' = false from rfl, scanFraction, hd]

/-- What is well formed matches the grammar. -/
theorem numeral_of_wellFormed {cs : List Char} (hstart : startsNumber (scanMinus cs).2 = true)
    (h : (scanNumber cs).wellFormed = true) : (scanNumber cs).text ∈ numeral.matches' := by
  simp only [scanNumber, Bool.and_eq_true, List.isEmpty_iff] at h
  obtain ⟨hexponent, hjunk⟩ := h
  have hparts : Parts (scanMinus cs).1 ((scanMinus cs).2.takeWhile Char.isDigit)
      (scanFraction ((scanMinus cs).2.dropWhile Char.isDigit)).1
      (scanExponent (scanFraction ((scanMinus cs).2.dropWhile Char.isDigit)).2).text :=
    { sign := scanMinus_cases cs
      digits := fun d hd => List.all_eq_true.1 List.all_takeWhile d hd
      point := scanFraction_cases _
      some_digit := digit_of_startsNumber hstart
      power := scanExponent_cases hexponent }
  refine mem_numeral.2 ⟨_, _, _, _, ?_, hparts⟩
  simp only [scanNumber, hjunk, List.append_nil, List.append_assoc]

theorem wellFormed_iff {cs : List Char} (hstart : startsNumber (scanMinus cs).2 = true) :
    (scanNumber cs).wellFormed = true ↔ (scanNumber cs).text ∈ numeral.matches' := by
  refine ⟨numeral_of_wellFormed hstart, fun h => ?_⟩
  have hscan := scanNumber_of_numeral h (scanNumber_stopped cs)
  rw [scanNumber_split] at hscan
  rw [hscan]

/-! ### What can be read -/

theorem readPower?_of_parts {minus whole fraction exponent : List Char}
    (h : Parts minus whole fraction exponent) : ∃ p, Decimal.readPower? exponent = some p := by
  rcases h.power with rfl | ⟨e, sign, ds, rfl, he, hsign, hne, hds⟩
  · exact ⟨0, rfl⟩
  · have hempty : ds.isEmpty = false := by simpa using hne
    have hall : ds.all Char.isDigit = true := List.all_eq_true.2 hds
    obtain ⟨d, more, rfl⟩ := List.exists_cons_of_ne_nil hne
    have hd := hds d List.mem_cons_self
    have hminus : d ≠ '-' := by
      rintro rfl
      cases hd
    have hplus : d ≠ '+' := by
      rintro rfl
      cases hd
    unfold Decimal.readPower?
    rcases hsign with rfl | rfl | rfl
    · simp [he, hminus, hplus, hall]
    · simp [he, hall]
    · simp [he, hall]

/-- The digits before the power of ten, as the reader of decimals divides them. -/
theorem readUnsigned?_of_parts {minus whole fraction exponent : List Char}
    (h : Parts minus whole fraction exponent) (negative : Bool) :
    ∃ n, Decimal.readUnsigned? negative (whole ++ (fraction ++ exponent)) = some n := by
  obtain ⟨p, hp⟩ := readPower?_of_parts h
  have hnil : Stopped isTerminator [] := stopped_nil _
  obtain ⟨htake, hdrop⟩ := h.takeWhole hnil
  have hhead := h.exponent_head hnil
  simp only [List.append_nil] at htake hdrop hhead
  unfold Decimal.readUnsigned?
  simp only [htake, hdrop]
  rcases h.point with rfl | ⟨fs, rfl, hfs⟩
  · have hwhole : whole ≠ [] := by
      rcases h.some_digit with hw | ⟨f, fs, hf⟩
      · exact hw
      · cases hf
    cases exponent with
    | nil => simp [hwhole, hp]
    | cons e more =>
      obtain ⟨-, hpoint⟩ := hhead e rfl
      simp [hwhole, hp, hpoint]
  · obtain ⟨htake', hdrop'⟩ := Decimal.takeWhile_ends hfs exponent fun c hc => (hhead c hc).1
    have hsome : (whole.isEmpty && fs.isEmpty) = false := by
      rcases h.some_digit with hw | ⟨f, more, hf⟩
      · simp [hw]
      · cases hf
        simp
    simp [htake', hdrop', hsome, hp]

/-- A number can be read from whatever matches the grammar. -/
theorem read?_of_numeral {text : List Char} (h : text ∈ numeral.matches') :
    ∃ n, Decimal.read? text = some n := by
  obtain ⟨minus, whole, fraction, exponent, rfl, hparts⟩ := mem_numeral.1 h
  rcases hparts.sign with rfl | rfl
  · obtain ⟨c, cs, hcs, hc⟩ := hparts.head exponent
    have hsigns : c ≠ '-' ∧ c ≠ '+' := by
      constructor
      all_goals
        rintro rfl
        revert hc
        decide
    have hread := readUnsigned?_of_parts hparts false
    rw [hcs] at hread
    rw [List.nil_append, hcs]
    simpa [Decimal.read?, hsigns] using hread
  · exact readUnsigned?_of_parts hparts true

/-! ### Numbers in a source -/

/-- Behind the sign of a number there is a digit, or a point and a digit. -/
theorem startsNumber_scanMinus {s : State} {spaced : Bool} {c : Char} {cs : List Char}
    (h : c = '-' ∧ s.signAhead spaced cs = true ∨ startsNumber (c :: cs) = true) :
    startsNumber (scanMinus (c :: cs)).2 = true := by
  rcases h with ⟨rfl, hsign⟩ | hstart
  · simp only [State.signAhead, Bool.and_eq_true] at hsign
    exact hsign.1
  · obtain ⟨-, -, -, -, -, -, hminus, -⟩ := not_special_of_startsNumber hstart
    have hkeep : scanMinus (c :: cs) = ([], c :: cs) := by
      simp [scanMinus, hminus]
    rw [hkeep]
    exact hstart

/-- Where a number begins, the scanner divides the source into a text and what follows. The item
is taken if and only if the text matches the grammar and a word would end behind it; the value is
then the one that the text reads as, and otherwise the refusal quotes the text. No other front of
the source is a number that ends where a word would. -/
theorem numbers_by_grammar {s : State} {spaced wellFormed : Bool} {c : Char} {cs text rest : List Char}
    (hstart : c = '-' ∧ s.signAhead spaced cs = true ∨ startsNumber (c :: cs) = true)
    (hscan : scanNumber (c :: cs) = ⟨text, wellFormed, rest⟩) :
    c :: cs = text ++ rest ∧
    ((∃ t behind, s.item spaced c cs = .ok (t, behind)) ↔
      text ∈ numeral.matches' ∧ Stopped isTerminator rest) ∧
    (text ∈ numeral.matches' → ∃ n, Decimal.read? text = some n ∧
      s.item spaced c cs = .ok (s.push (.number n) true, rest)) ∧
    (text ∉ numeral.matches' →
      s.item spaced c cs = .error ⟨.malformedNumber (String.ofList text), c :: cs⟩) ∧
    ∀ text' rest', c :: cs = text' ++ rest' → text' ∈ numeral.matches' →
      Stopped isTerminator rest' → text' = text := by
  have hsplit := scanNumber_split (c :: cs)
  have hstopped := scanNumber_stopped (c :: cs)
  have hwell := wellFormed_iff (startsNumber_scanMinus hstart)
  have htakes : text ∈ numeral.matches' → ∃ n, Decimal.read? text = some n ∧
      s.item spaced c cs = .ok (s.push (.number n) true, rest) := by
    intro hmatch
    obtain ⟨n, hn⟩ := read?_of_numeral hmatch
    have hitem := (State.Takes.number hstart (hwell.2 (by rwa [hscan])) (by rwa [hscan])).item_eq
    rw [hscan] at hitem
    exact ⟨n, hn, hitem⟩
  have hrefuses : text ∉ numeral.matches' →
      s.item spaced c cs = .error ⟨.malformedNumber (String.ofList text), c :: cs⟩ := by
    intro hmatch
    have hitem := (State.Refuses.number hstart fun hw => absurd (hwell.1 hw) (by rwa [hscan])).item_eq
    rwa [hscan] at hitem
  rw [hscan] at hsplit hstopped
  refine ⟨hsplit.symm, ⟨?_, ?_⟩, htakes, hrefuses, ?_⟩
  · rintro ⟨t, behind, hitem⟩
    refine ⟨?_, hstopped⟩
    by_contra hmatch
    rw [hrefuses hmatch] at hitem
    cases hitem
  · rintro ⟨hmatch, -⟩
    obtain ⟨n, -, hitem⟩ := htakes hmatch
    exact ⟨_, _, hitem⟩
  · intro text' rest' he hmatch hrest
    have hother := scanNumber_of_numeral hmatch hrest
    rw [← he, hscan] at hother
    exact (congrArg Numeral.text hother).symm

/-- A sign, no digit before the point and a power of ten; and a power of ten without digits. -/
theorem numbers_by_grammar_trial :
    State.initial.item false '-' ['.', '5', 'e', '+', '1', ']']
      = .ok (State.initial.push (.number (-5)) true, [']']) ∧
    State.initial.item false '1' ['e', '-', '-', '5']
      = .error ⟨.malformedNumber "1e-", ['1', 'e', '-', '-', '5']⟩ := by
  constructor
  · have hscan : scanNumber ['-', '.', '5', 'e', '+', '1', ']']
        = ⟨['-', '.', '5', 'e', '+', '1'], true, [']']⟩ := by decide
    have hmatch : ['-', '.', '5', 'e', '+', '1'] ∈ numeral.matches' :=
      (RegularExpression.rmatch_iff_matches' _ _).1 (by decide +kernel)
    have hread : Decimal.read? ['-', '.', '5', 'e', '+', '1'] = some (-5) := by decide +kernel
    obtain ⟨-, -, htakes, -⟩ := @numbers_by_grammar State.initial false true '-' _ _ _
      (.inl ⟨rfl, rfl⟩) hscan
    obtain ⟨n, hn, hitem⟩ := htakes hmatch
    cases hn.symm.trans hread
    exact hitem
  · have hscan : scanNumber ['1', 'e', '-', '-', '5'] = ⟨['1', 'e', '-'], false, ['-', '5']⟩ := by decide
    have hmatch : ['1', 'e', '-'] ∉ numeral.matches' := fun h =>
      absurd ((RegularExpression.rmatch_iff_matches' _ _).2 h) (by decide +kernel)
    obtain ⟨-, -, -, hrefuses, -⟩ := @numbers_by_grammar State.initial false false '1' _ _ _
      (.inr rfl) hscan
    exact hrefuses hmatch

end Logo.Source
