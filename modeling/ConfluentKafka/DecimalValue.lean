import Mathlib.Data.Int.Log
import Mathlib.Data.Rat.Floor
import Mathlib.Tactic.FieldSimp
import Mathlib.Tactic.Linarith
import ConfluentKafka.CelArithmetic

/-!
# The values of decimals

The number that a decimal of the arithmetic library is. Its coefficient has no zeros at the end, so
there is one decimal for a number, and its digits and exponent tell the order of magnitude.
-/

namespace ConfluentKafka

namespace Cel

open DigitText

deriving instance DecidableEq for Decimal

def Decimal.value (d : Decimal) : ℚ := d.coefficient * 10 ^ d.exponent

def ProtoDecimal.number (p : ProtoDecimal) : ℚ := bytesToBigIntSigned p.value * 10 ^ (-p.scale)

/-- The decimal is what the library makes of its own coefficient and exponent. -/
def Decimal.Normal (d : Decimal) : Prop := Decimal.new d.coefficient d.exponent = d

instance (d : Decimal) : Decidable d.Normal := inferInstanceAs (Decidable (_ = _))

def Decimal.e (d : Decimal) : Int := if d.isZero then 0 else d.digits + d.exponent - 1

/-! ## One decimal for a number -/

theorem trailingZeros_of_mod {n : Nat} (h : n % 10 ≠ 0) (fuel : Nat) : trailingZeros fuel n = 0 := by
  cases fuel with
  | zero => rfl
  | succ fuel => rw [trailingZeros, if_neg h]

theorem mod_of_trailingZeros (fuel : Nat) {n : Nat} (hn : 0 < n) (h : n ≤ fuel) :
    n / 10 ^ trailingZeros fuel n % 10 ≠ 0 := by
  induction fuel generalizing n with
  | zero => omega
  | succ fuel ih =>
    unfold trailingZeros
    by_cases hten : n % 10 = 0
    · rw [if_pos hten, pow_succ', ← Nat.div_div_eq_div_mul]
      apply ih
      · omega
      · omega
    · rw [if_neg hten, pow_zero, Nat.div_one]
      exact hten

theorem natAbs_coefficient_new (c e : Int) (hc : c ≠ 0) :
    (Decimal.new c e).coefficient.natAbs = c.natAbs / 10 ^ trailingZeros c.natAbs c.natAbs := by
  simp only [Decimal.new, if_neg hc]
  rw [Int.natAbs_ediv_of_dvd (pow_trailingZeros_dvd_int c), Int.natAbs_pow]
  rfl

theorem mod_coefficient_new {c : Int} (hc : c ≠ 0) (e : Int) : (Decimal.new c e).coefficient.natAbs % 10 ≠ 0 := by
  rw [natAbs_coefficient_new c e hc]
  exact mod_of_trailingZeros _ (Int.natAbs_pos.mpr hc) (Nat.le_refl _)

theorem new_of_mod {c : Int} (h : c.natAbs % 10 ≠ 0) (e : Int) : Decimal.new c e = ⟨c, e⟩ := by
  have hc : c ≠ 0 := by
    intro hzero
    simp [hzero] at h
  simp [Decimal.new, hc, trailingZeros_of_mod h]

theorem normal_new (c e : Int) : (Decimal.new c e).Normal := by
  by_cases hc : c = 0
  · simp [Decimal.Normal, Decimal.new, hc]
  · exact new_of_mod (mod_coefficient_new hc e) _

theorem Decimal.Normal.mod {d : Decimal} (h : d.Normal) (hd : d.isZero = false) :
    d.coefficient.natAbs % 10 ≠ 0 := by
  have hc : d.coefficient ≠ 0 := by simpa [Decimal.isZero] using hd
  rw [← h]
  exact mod_coefficient_new hc _

theorem Decimal.Normal.exponent_of_zero {d : Decimal} (h : d.Normal) (hd : d.isZero = true) : d = ⟨0, 0⟩ := by
  have hc : d.coefficient = 0 := by simpa [Decimal.isZero] using hd
  rw [← h, hc]
  rfl

theorem value_new (c e : Int) : (Decimal.new c e).value = c * 10 ^ e := by
  by_cases hc : c = 0
  · simp [hc, Decimal.new, Decimal.value]
  · obtain ⟨zeros, hcoefficient, hexponent⟩ := exists_new_eq hc e
    rw [Decimal.value, hexponent, zpow_add₀ (by norm_num), zpow_natCast]
    conv_rhs => rw [hcoefficient]
    push_cast
    ring

theorem value_fromProtoDecimal (p : ProtoDecimal) : (fromProtoDecimal p).value = p.number := value_new _ _

theorem normal_fromProtoDecimal (p : ProtoDecimal) : (fromProtoDecimal p).Normal := normal_new _ _

theorem value_eq_zero_iff (d : Decimal) : d.value = 0 ↔ d.isZero = true := by
  have hpow : (10 : ℚ) ^ d.exponent ≠ 0 := zpow_ne_zero _ (by norm_num)
  simp [Decimal.value, Decimal.isZero, hpow]

theorem isZero_eq_false_iff (d : Decimal) : d.isZero = false ↔ d.coefficient ≠ 0 := by simp [Decimal.isZero]

/-- The value at an exponent that is not above. -/
theorem value_at (d : Decimal) {m : Int} (h : m ≤ d.exponent) :
    d.value = (d.coefficient * 10 ^ (d.exponent - m).toNat : Int) * 10 ^ m := by
  have hsplit : d.exponent = ((d.exponent - m).toNat : Int) + m := by omega
  rw [Decimal.value]
  conv_lhs => rw [hsplit, zpow_add₀ (by norm_num), zpow_natCast]
  push_cast
  ring

theorem eq_of_value {x y : Decimal} (hx : x.Normal) (hy : y.Normal) (h : x.value = y.value) : x = y := by
  have hxm : min x.exponent y.exponent ≤ x.exponent := min_le_left _ _
  have hym : min x.exponent y.exponent ≤ y.exponent := min_le_right _ _
  have hpow : (10 : ℚ) ^ min x.exponent y.exponent ≠ 0 := zpow_ne_zero _ (by norm_num)
  rw [value_at x hxm, value_at y hym] at h
  have hcoefficient := Int.cast_injective (mul_right_cancel₀ hpow h)
  rw [← hx, ← hy, new_eq_of_le hxm, new_eq_of_le hym, hcoefficient]

theorem value_inj {x y : Decimal} (hx : x.Normal) (hy : y.Normal) : x.value = y.value ↔ x = y :=
  ⟨eq_of_value hx hy, fun h => h ▸ rfl⟩

/-! ## Digits and orders of magnitude -/

theorem digits_of_ne {d : Decimal} (h : d.isZero = false) :
    d.digits = (Nat.toDigits 10 d.coefficient.natAbs).length := by
  simp [Decimal.digits, h]

theorem digits_pos (d : Decimal) : 0 < d.digits := by
  unfold Decimal.digits
  split_ifs
  · exact Nat.one_pos
  · exact Nat.length_toDigits_pos

theorem log_eq {x : ℚ} (hx : 0 < x) {k : Int} (hlow : (10 : ℚ) ^ k ≤ x) (hhigh : x < 10 ^ (k + 1)) :
    Int.log 10 x = k := by
  have h₁ := (Int.zpow_le_iff_le_log (by decide) hx).mp (by exact_mod_cast hlow : ((10 : Nat) : ℚ) ^ k ≤ x)
  have h₂ := (Int.lt_zpow_iff_log_lt (by decide) hx).mp (by exact_mod_cast hhigh : x < ((10 : Nat) : ℚ) ^ (k + 1))
  omega

theorem log_natCast_mul {n : Nat} (hn : 0 < n) (e : Int) :
    Int.log 10 ((n : ℚ) * 10 ^ e) = (Nat.toDigits 10 n).length + e - 1 := by
  have hpow : (0 : ℚ) < 10 ^ e := zpow_pos (by norm_num) _
  have hcast : (0 : ℚ) < n := by exact_mod_cast hn
  obtain ⟨k, hk⟩ : ∃ k, (Nat.toDigits 10 n).length = k + 1 := ⟨_, (Nat.sub_add_cancel Nat.length_toDigits_pos).symm⟩
  have hlow : (10 : ℚ) ^ k ≤ n := by exact_mod_cast pow_le_of_length_toDigits hn (show k < _ by omega)
  have hhigh : (n : ℚ) < 10 ^ (k + 1) := by exact_mod_cast hk ▸ lt_pow_length_toDigits n
  have hexp : ((Nat.toDigits 10 n).length : Int) + e - 1 = k + e := by
    rw [hk]
    push_cast
    ring
  rw [hexp]
  apply log_eq (mul_pos hcast hpow)
  · rw [zpow_add₀ (by norm_num), zpow_natCast]
    exact mul_le_mul_of_nonneg_right hlow hpow.le
  · have hsplit : (k : Int) + e + 1 = ((k + 1 : Nat) : Int) + e := by
      push_cast
      ring
    rw [hsplit, zpow_add₀ (by norm_num), zpow_natCast]
    exact mul_lt_mul_of_pos_right hhigh hpow

theorem abs_value (d : Decimal) : |d.value| = d.coefficient.natAbs * 10 ^ d.exponent := by
  have hpow : (0 : ℚ) < 10 ^ d.exponent := zpow_pos (by norm_num) _
  rw [Decimal.value, abs_mul, abs_of_pos hpow, Nat.cast_natAbs, Int.cast_abs]

theorem log_value {d : Decimal} (h : d.isZero = false) : Int.log 10 |d.value| = d.e := by
  rw [abs_value, log_natCast_mul (Int.natAbs_pos.mpr ((isZero_eq_false_iff d).mp h)), Decimal.e, h, digits_of_ne h]
  rfl

/-! ## Integers at a scale -/

/-- A decimal has as many digits behind the point as its exponent is below zero. -/
theorem isInt_iff {d : Decimal} (hd : d.Normal) (h : d.isZero = false) (scale : Int) :
    (∃ n : Int, d.value * 10 ^ scale = n) ↔ 0 ≤ d.exponent + scale := by
  have hvalue : d.value * 10 ^ scale = d.coefficient * 10 ^ (d.exponent + scale) := by
    rw [Decimal.value, mul_assoc, ← zpow_add₀ (by norm_num)]
  rw [hvalue]
  constructor
  · rintro ⟨n, hn⟩
    by_contra hneg
    obtain ⟨k, hk⟩ : ∃ k : Nat, d.exponent + scale = -((k + 1 : Nat) : Int) :=
      ⟨(-(d.exponent + scale)).toNat - 1, by omega⟩
    have hpow : (10 : ℚ) ^ (k + 1) ≠ 0 := by positivity
    have hmul : d.coefficient = n * 10 ^ (k + 1) := by
      rw [hk, zpow_neg, zpow_natCast, ← div_eq_mul_inv, div_eq_iff hpow] at hn
      exact_mod_cast hn
    have hmod := hd.mod h
    rw [hmul, Int.natAbs_mul, Int.natAbs_pow, pow_succ, ← mul_assoc] at hmod
    exact hmod (Nat.mul_mod_left _ _)
  · intro hle
    refine ⟨d.coefficient * 10 ^ (d.exponent + scale).toNat, ?_⟩
    push_cast
    rw [← zpow_natCast, Int.toNat_of_nonneg hle]

theorem plainUnscaled_of_le {d : Decimal} {scale : Int} (h : 0 ≤ d.exponent + scale) :
    plainUnscaled d scale = d.coefficient * 10 ^ (d.exponent + scale).toNat := by
  have hexponent : d.exponent = -scale + ((d.exponent + scale).toNat : Int) := by omega
  have heq : d = ⟨d.coefficient, -scale + ((d.exponent + scale).toNat : Int)⟩ := by
    conv_lhs => rw [show d = ⟨d.coefficient, d.exponent⟩ from rfl, hexponent]
  conv_lhs => rw [heq]
  exact plainUnscaled_mul_int _ _ _

/-- The unscaled integer that is written at a scale that holds the decimal. -/
theorem plainUnscaled_eq {d : Decimal} (hd : d.Normal) (h : d.isZero = false) {scale n : Int}
    (hn : d.value * 10 ^ scale = n) : plainUnscaled d scale = n := by
  have hle := (isInt_iff hd h scale).mp ⟨n, hn⟩
  have hvalue : ((d.coefficient * 10 ^ (d.exponent + scale).toNat : Int) : ℚ) = n := by
    rw [← hn, Decimal.value, mul_assoc, ← zpow_add₀ (by norm_num)]
    push_cast
    rw [← zpow_natCast, Int.toNat_of_nonneg hle]
  rw [plainUnscaled_of_le hle]
  exact_mod_cast hvalue

theorem rescaledDigits_eq {d : Decimal} (hd : d.Normal) {scale n : Int} (hn : d.value * 10 ^ scale = n) :
    rescaledDigits scale d = (Nat.toDigits 10 n.natAbs).length := by
  by_cases h : d.isZero = true
  · have hzero : (n : ℚ) = 0 := by rw [← hn, (value_eq_zero_iff d).mpr h, zero_mul]
    have hn0 : n = 0 := by exact_mod_cast hzero
    rw [rescaledDigits, if_pos h, hn0]
    rfl
  · rw [Bool.not_eq_true] at h
    have hle := (isInt_iff hd h scale).mp ⟨n, hn⟩
    have hpos := digits_pos d
    have hlength := length_toDigits_mul_pow (Int.natAbs_pos.mpr ((isZero_eq_false_iff d).mp h))
      (d.exponent + scale).toNat
    rw [← plainUnscaled_eq hd h hn, plainUnscaled_of_le hle, Int.natAbs_mul, Int.natAbs_pow,
      show (10 : Int).natAbs = 10 from rfl,
      hlength, ← digits_of_ne h, rescaledDigits, h, if_neg (by decide)]
    omega

end Cel

end ConfluentKafka
