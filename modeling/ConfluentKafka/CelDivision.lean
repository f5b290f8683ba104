import ConfluentKafka.CelEncode

/-!
# Division of decimals

`decimals.div` of `decimal-funcs.ts`. The quotient of the library is rounded to 38 digits and has lost
its zeros at the end; the scale of the result says which of them come back.
-/

namespace ConfluentKafka

namespace Cel

/-! ## Operations of the library -/

def Decimal.div (x y : Decimal) (precision : Nat) : Decimal :=
  let ratio : ℚ := x.coefficient / y.coefficient
  Decimal.new (significand precision ratio) (digitPlace precision ratio + (x.exponent - y.exponent))

def MAX_BIGINT_BITS : Nat := 1073741824

def readBits : Bytes → Nat
  | [] => 0
  | b :: bs => if 0x80 ≤ b.toNat then 8 * (bs.length + 1) + 1 else bitLength (natBE (b :: bs))

/-! ## Operations of rules -/

def toDecimal (p : ProtoDecimal) : Except CelError Decimal :=
  if MAX_BIGINT_BITS < readBits p.value then throw .rangeError else return fromProtoDecimal p

def DIV_PRECISION : Nat := 38

def INT32_MIN : Int := -2147483648

def minimalScale (d : Decimal) : Int := d.digits - 1 - d.e

def preferredScaleFor (value : Decimal) (preferred : Int) : Int :=
  if value.isZero then min (max preferred INT32_MIN) INT32_MAX
  else
    let minimal := minimalScale value
    let headroom : Int := DIV_PRECISION - value.digits
    max minimal (min preferred (minimal + headroom))

def inexactScale (d : Decimal) : Int := DIV_PRECISION - 1 - d.e

def decimalsDiv (a b : ProtoDecimal) : Except CelError ProtoDecimal := do
  let bd ← toDecimal b
  if bd.isZero then throw .divisionByZero
  let ad ← toDecimal a
  let quotient := ad.div bd DIV_PRECISION
  if quotient.times bd = ad then toProtoDecimalWithScale quotient (preferredScaleFor quotient (a.scale - b.scale))
  else toProtoDecimalWithScale quotient (inexactScale quotient)

/-! ## What the result is to be -/

def IsMinimalScale (x : ℚ) (scale : Int) : Prop := IsLeast {s : Int | ∃ n : Int, x * 10 ^ s = n} scale

/-- The quotient rounded half up to 38 digits. An exact one has the difference of the scales where it holds
the number and does not need more digits; one that was rounded has all digits. -/
structure Divides (a b r : ProtoDecimal) : Prop where
  number : r.number = roundDigits 38 (a.number / b.number)
  ofZero : a.number = 0 → r.scale = min (max (a.scale - b.scale) (-2147483648)) 2147483647
  ofExact : a.number ≠ 0 → r.number = a.number / b.number → ∃ minimal, IsMinimalScale r.number minimal ∧
    r.scale = max minimal (min (a.scale - b.scale) (37 - Int.log 10 |r.number|))
  ofRounded : r.number ≠ a.number / b.number → r.scale = 37 - Int.log 10 |r.number|
  width : (Nat.toDigits 10 (bytesToBigIntSigned r.value).natAbs).length ≤ 38

/-! ## The quotient -/

theorem ratio_value (x y : Decimal) :
    x.value / y.value = (x.coefficient : ℚ) / y.coefficient * 10 ^ (x.exponent - y.exponent) := by
  rw [Decimal.value, Decimal.value, zpow_sub₀ (by norm_num), mul_div_mul_comm]

theorem value_div (x y : Decimal) (precision : Nat) : (x.div y precision).value = roundDigits precision
    (x.value / y.value) := by
  rw [Decimal.div, value_new, ratio_value]
  by_cases h : (x.coefficient : ℚ) / y.coefficient = 0
  · rw [h, zero_mul, roundDigits, significand_zero, Int.cast_zero, zero_mul, zero_mul]
  · rw [roundDigits, significand_mul_zpow _ h, digitPlace_mul_zpow _ h]

theorem normal_div (x y : Decimal) (precision : Nat) : (x.div y precision).Normal := normal_new _ _

theorem digits_new_le (c e : Int) {k : Nat} (hk : 0 < k) (h : c.natAbs < 10 ^ k) :
    (Decimal.new c e).digits ≤ k := by
  by_cases hc : c = 0
  · simp [hc, Decimal.new, Decimal.digits, Decimal.isZero]
    omega
  · have hlength := (Nat.length_toDigits_le_iff (by decide) hk).mpr h
    have hdigits := digits_new hc e
    obtain ⟨zeros, -, hexponent⟩ := exists_new_eq hc e
    omega

theorem digits_div_le (x y : Decimal) {precision : Nat} (hp : 0 < precision) : (x.div y precision).digits ≤
    precision := by
  unfold Decimal.div
  by_cases h : (x.coefficient : ℚ) / y.coefficient = 0
  · apply digits_new_le _ _ hp
    simp [h, significand_zero]
  · obtain ⟨-, hle⟩ := significand_bounds hp h
    rcases Nat.lt_or_eq_of_le hle with hlt | heq
    · exact digits_new_le _ _ hp hlt
    · have hone : ∀ (c e : Int), c.natAbs = 10 ^ precision → (Decimal.new c e).digits ≤ precision := by
        intro c e hc
        have hsign : c = c.sign * 10 ^ precision := by
          conv_lhs => rw [← Int.sign_mul_natAbs c, hc]
          push_cast
          rfl
        rw [hsign, new_mul_pow]
        apply (digits_new_le _ _ Nat.one_pos _).trans hp
        rcases Int.sign_trichotomy c with h | h | h
        · rw [h]
          decide
        · rw [h]
          decide
        · rw [h]
          decide
      exact hone _ _ heq

/-! ## Products that are exact -/

theorem natAbs_lt_of_readBits {bytes : Bytes} {bits : Nat} (h : readBits bytes ≤ bits) :
    (bytesToBigIntSigned bytes).natAbs < 2 ^ bits := by
  cases bytes with
  | nil => exact Nat.two_pow_pos bits
  | cons b bs =>
    rw [readBits] at h
    have hmono : ∀ {m n : Nat}, m < 2 ^ n → n ≤ bits → m < 2 ^ bits := fun hm hn =>
      lt_of_lt_of_le hm (Nat.pow_le_pow_right (by decide) hn)
    split_ifs at h with hsign
    · have hpow : (256 : Int) ^ (bs.length + 1) = 2 ^ (8 * (bs.length + 1)) := by
        rw [pow_mul]
        norm_num
      obtain ⟨hlow, hhigh⟩ := fitsBytes_of_reads (b :: bs)
      rw [List.length_cons, hpow] at hlow hhigh
      apply hmono _ h
      rw [pow_succ]
      zify
      rw [abs_lt]
      constructor <;> omega
    · have hlt : natBE (b :: bs) < 256 ^ (bs.length + 1) := by
        have h := natLE_lt (b :: bs).reverse
        rwa [List.length_reverse, List.length_cons] at h
      have hpositive : ¬256 ^ (bs.length + 1) ≤ 2 * natBE (b :: bs) := by
        have hbit := sign_bit bs.reverse b
        rw [List.length_reverse, ← List.reverse_cons] at hbit
        exact fun hle => hsign (hbit.mpr hle)
      rw [bytesToBigIntSigned_eq, signed_eq_ite _ _ hlt, if_neg hpositive, Int.natAbs_natCast]
      exact hmono (lt_bitLength _) h

def HELD_DIGITS : Nat := 357913942

/-- What the language holds as an integer has far fewer digits than the library works with. -/
theorem natAbs_lt_of_held {p : ProtoDecimal} (h : readBits p.value ≤ MAX_BIGINT_BITS) :
    (bytesToBigIntSigned p.value).natAbs < 10 ^ HELD_DIGITS := by
  have hbits : readBits p.value ≤ 3 * HELD_DIGITS := le_trans h (by decide)
  have hlt := natAbs_lt_of_readBits hbits
  rw [pow_mul] at hlt
  exact lt_of_lt_of_le hlt (Nat.pow_le_pow_left (by decide) _)

theorem value_times {x y : Decimal} {j k : Nat} (hx : x.coefficient.natAbs < 10 ^ j)
    (hy : y.coefficient.natAbs < 10 ^ k)
    (hpos : 0 < j + k) (h : j + k ≤ EXACT_PRECISION) : (x.times y).value = x.value * y.value := by
  have hproduct : (x.coefficient * y.coefficient).natAbs < 10 ^ (j + k) := by
    rw [Int.natAbs_mul, pow_add]
    exact Nat.mul_lt_mul_of_lt_of_le hx hy.le (Nat.pow_pos (by decide))
  have hdigits := (digits_new_le (x.coefficient * y.coefficient) (x.exponent + y.exponent) hpos hproduct).trans h
  rw [Decimal.times, Decimal.toSignificantDigits, if_pos hdigits, value_new, Decimal.value, Decimal.value,
    zpow_add₀ (by norm_num)]
  push_cast
  ring

theorem natAbs_coefficient_new_le (c e : Int) : (Decimal.new c e).coefficient.natAbs ≤ c.natAbs := by
  by_cases hc : c = 0
  · simp [hc, Decimal.new]
  · rw [natAbs_coefficient_new c e hc]
    exact Nat.div_le_self _ _

theorem normal_toSignificantDigits {d : Decimal} (hd : d.Normal) (precision : Nat) :
    (d.toSignificantDigits precision).Normal := by
  unfold Decimal.toSignificantDigits
  by_cases h : d.digits ≤ precision
  · rw [if_pos h]
    exact hd
  · rw [if_neg h]
    exact normal_new _ _

theorem normal_times (x y : Decimal) : (x.times y).Normal := normal_toSignificantDigits (normal_new _ _) _

/-- Multiplied back, the quotient gives the dividend only where it was not rounded. -/
theorem times_div_eq_iff {a b : ProtoDecimal} (hb : readBits b.value ≤ MAX_BIGINT_BITS) (hne : b.number ≠ 0) :
    ((fromProtoDecimal a).div (fromProtoDecimal b) DIV_PRECISION).times (fromProtoDecimal b) = fromProtoDecimal a ↔
      ((fromProtoDecimal a).div (fromProtoDecimal b) DIV_PRECISION).value = a.number / b.number := by
  have hdigits := digits_div_le (fromProtoDecimal a) (fromProtoDecimal b) (show 0 < DIV_PRECISION by decide)
  have hquotient : ((fromProtoDecimal a).div (fromProtoDecimal b) DIV_PRECISION).coefficient.natAbs < 10 ^ 38 := by
    by_cases h : ((fromProtoDecimal a).div (fromProtoDecimal b) DIV_PRECISION).isZero = true
    · have hzero : ((fromProtoDecimal a).div (fromProtoDecimal b) DIV_PRECISION).coefficient = 0 := by
        simpa [Decimal.isZero] using h
      rw [hzero]
      exact Nat.pow_pos (by decide)
    · rw [Bool.not_eq_true] at h
      rw [digits_of_ne h] at hdigits
      exact (Nat.length_toDigits_le_iff (by decide) (by decide)).mp hdigits
  have hdivisor : (fromProtoDecimal b).coefficient.natAbs < 10 ^ HELD_DIGITS :=
    lt_of_le_of_lt (natAbs_coefficient_new_le _ _) (natAbs_lt_of_held hb)
  rw [← value_inj (normal_times _ _) (normal_fromProtoDecimal a), value_times hquotient hdivisor
    (by decide) (by decide),
    value_fromProtoDecimal, value_fromProtoDecimal, eq_div_iff hne]

/-! ## Scales -/

theorem isMinimalScale_value {d : Decimal} (hd : d.Normal) (h : d.isZero = false) :
    IsMinimalScale d.value (minimalScale d) := by
  have hscale : minimalScale d = -d.exponent := by
    rw [minimalScale, Decimal.e, h, if_neg (by decide)]
    omega
  rw [hscale]
  constructor
  · exact (isInt_iff hd h _).mpr (by omega)
  · intro scale hint
    have hle := (isInt_iff hd h scale).mp hint
    omega

theorem length_unscaled_le {d : Decimal} (h : d.isZero = false) {scale n : Int} (hn : d.value * 10 ^ scale = n)
    (hscale : scale ≤ 37 - d.e) : (Nat.toDigits 10 n.natAbs).length ≤ 38 := by
  have hne : d.value ≠ 0 := by
    intro hzero
    rw [(value_eq_zero_iff d).mp hzero] at h
    cases h
  have hhigh : |d.value| < (10 : ℚ) ^ (Int.log 10 |d.value| + 1) := by
    exact_mod_cast Int.lt_zpow_succ_log_self (by decide) |d.value|
  have hlt : ((n.natAbs : Nat) : ℚ) < (10 ^ 38 : Nat) := by
    calc ((n.natAbs : Nat) : ℚ)
        = |d.value| * 10 ^ scale := by
          rw [Nat.cast_natAbs, Int.cast_abs, ← hn, abs_mul, abs_of_pos (ten_zpow_pos scale)]
      _ < 10 ^ (d.e + 1) * 10 ^ scale := by
          rw [log_value h] at hhigh
          exact mul_lt_mul_of_pos_right hhigh (ten_zpow_pos scale)
      _ = 10 ^ (d.e + 1 + scale) := by rw [← zpow_add₀ (by norm_num)]
      _ ≤ 10 ^ (38 : Int) := zpow_le_zpow_right₀ (by norm_num) (by omega)
      _ = (10 ^ 38 : Nat) := by norm_cast
  exact (Nat.length_toDigits_le_iff (by decide) (by decide)).mpr (by exact_mod_cast hlt)

/-! ## The result -/

theorem minimal_add_headroom (d : Decimal) : minimalScale d + ((DIV_PRECISION : Int) - d.digits) = 37 - d.e := by
  unfold minimalScale DIV_PRECISION
  omega

theorem divides_of_exact {a b : ProtoDecimal} {d : Decimal} (hd : d.Normal) (hdigits : d.digits ≤ DIV_PRECISION)
    (hvalue : d.value = roundDigits 38 (a.number / b.number)) (hb : b.number ≠ 0)
    (hexact : d.value = a.number / b.number) :
    Refused (toProtoDecimalWithScale d (preferredScaleFor d (a.scale - b.scale))) ∨
      ∃ r, toProtoDecimalWithScale d (preferredScaleFor d (a.scale - b.scale)) = .ok r ∧ Divides a b r := by
  by_cases h : d.isZero = true
  · have hzero := (value_eq_zero_iff d).mpr h
    have ha : a.number = 0 := by
      rw [hzero] at hexact
      exact (div_eq_zero_iff.mp hexact.symm).resolve_right hb
    obtain hrefused | ⟨r, hok, hnumber, hscale, hunscaled⟩ := toProtoDecimalWithScale_refused hd
      (show d.value * 10 ^ preferredScaleFor d (a.scale - b.scale) = (0 : Int) by rw [hzero, zero_mul,
        Int.cast_zero])
    · exact .inl hrefused
    · refine .inr ⟨r, hok, hnumber.trans hvalue, fun _ => ?_, fun hne => absurd ha hne, fun hne => ?_, ?_⟩
      · rw [hscale, preferredScaleFor, if_pos h]
        rfl
      · exact absurd (hnumber.trans hexact) hne
      · rw [hunscaled]
        decide
  · rw [Bool.not_eq_true] at h
    have hheadroom := minimal_add_headroom d
    have hscale : preferredScaleFor d (a.scale - b.scale) =
        max (minimalScale d) (min (a.scale - b.scale) (37 - Int.log 10 |d.value|)) := by
      rw [log_value h, preferredScaleFor, h, if_neg (by decide), ← hheadroom]
    have hminimal := isMinimalScale_value hd h
    have hle : 0 ≤ d.exponent + preferredScaleFor d (a.scale - b.scale) := by
      have hexponent := (isInt_iff hd h (minimalScale d)).mp hminimal.1
      rw [hscale]
      omega
    obtain ⟨n, hn⟩ := (isInt_iff hd h _).mpr hle
    obtain hrefused | ⟨r, hok, hnumber, hrscale, hunscaled⟩ := toProtoDecimalWithScale_refused hd hn
    · exact .inl hrefused
    · refine .inr ⟨r, hok, hnumber.trans hvalue, fun ha => ?_, fun _ _ => ?_, fun hne => ?_, ?_⟩
      · rw [ha, zero_div] at hexact
        rw [(value_eq_zero_iff d).mp hexact] at h
        cases h
      · rw [hnumber]
        exact ⟨minimalScale d, hminimal, hrscale.trans hscale⟩
      · exact absurd (hnumber.trans hexact) hne
      · rw [hunscaled]
        apply length_unscaled_le h hn
        rw [hscale, log_value h]
        have hpos : minimalScale d ≤ 37 - d.e := by omega
        omega

theorem divides_of_rounded {a b : ProtoDecimal} {d : Decimal} (hd : d.Normal) (hdigits : d.digits ≤ DIV_PRECISION)
    (hvalue : d.value = roundDigits 38 (a.number / b.number)) (hne : d.value ≠ a.number / b.number) :
    Refused (toProtoDecimalWithScale d (inexactScale d)) ∨
      ∃ r, toProtoDecimalWithScale d (inexactScale d) = .ok r ∧ Divides a b r := by
  have hratio : a.number / b.number ≠ 0 := by
    intro hzero
    rw [hzero, roundDigits, significand_zero, Int.cast_zero, zero_mul] at hvalue
    exact hne (hvalue.trans hzero.symm)
  have h : d.isZero = false := by
    rw [← Bool.not_eq_true, ← value_eq_zero_iff, hvalue, roundDigits]
    have hsignificand := (significand_bounds (show 0 < 38 by decide) hratio).1
    have hdigit : significand 38 (a.number / b.number) ≠ 0 := by
      intro hzero
      rw [hzero] at hsignificand
      exact absurd hsignificand (by decide)
    exact mul_ne_zero (by exact_mod_cast hdigit) (ne_of_gt (ten_zpow_pos _))
  have hscale : inexactScale d = 37 - Int.log 10 |d.value| := by
    rw [log_value h]
    rfl
  have hle : 0 ≤ d.exponent + inexactScale d := by
    have he : d.e = d.digits + d.exponent - 1 := by rw [Decimal.e, h, if_neg (by decide)]
    unfold inexactScale
    omega
  obtain ⟨n, hn⟩ := (isInt_iff hd h _).mpr hle
  obtain hrefused | ⟨r, hok, hnumber, hrscale, hunscaled⟩ := toProtoDecimalWithScale_refused hd hn
  · exact .inl hrefused
  · refine .inr ⟨r, hok, hnumber.trans hvalue, fun ha => ?_, fun _ heq => ?_, fun _ => ?_, ?_⟩
    · rw [ha, zero_div] at hratio
      exact absurd rfl hratio
    · exact absurd (hnumber.symm.trans heq) hne
    · rw [hnumber]
      exact hrscale.trans hscale
    · rw [hunscaled]
      apply length_unscaled_le h hn
      rw [hscale, log_value h]

/-- Division by a number that is not zero. -/
theorem decimalsDiv_divides (a b : ProtoDecimal) (hb : b.number ≠ 0) :
    Refused (decimalsDiv a b) ∨ ∃ r, decimalsDiv a b = .ok r ∧ Divides a b r := by
  unfold decimalsDiv toDecimal
  by_cases hheld : MAX_BIGINT_BITS < readBits b.value
  · rw [if_pos hheld]
    exact .inl (.inr (.inr rfl))
  rw [if_neg hheld, pure_bind, if_neg (by rw [← value_eq_zero_iff, value_fromProtoDecimal]; exact hb)]
  by_cases hheld' : MAX_BIGINT_BITS < readBits a.value
  · rw [if_pos hheld']
    exact .inl (.inr (.inr rfl))
  rw [if_neg hheld', pure_bind]
  have hd := normal_div (fromProtoDecimal a) (fromProtoDecimal b) DIV_PRECISION
  have hdigits := digits_div_le (fromProtoDecimal a) (fromProtoDecimal b) (show 0 < DIV_PRECISION by decide)
  have hvalue : ((fromProtoDecimal a).div (fromProtoDecimal b) DIV_PRECISION).value = roundDigits 38
    (a.number / b.number) := by
    rw [value_div, value_fromProtoDecimal, value_fromProtoDecimal]
    rfl
  have hiff := times_div_eq_iff (a := a) (Nat.le_of_not_lt hheld) hb
  dsimp only
  by_cases hexact : ((fromProtoDecimal a).div (fromProtoDecimal b) DIV_PRECISION).times (fromProtoDecimal b) =
    fromProtoDecimal a
  · rw [if_pos hexact]
    exact divides_of_exact hd hdigits hvalue hb (hiff.mp hexact)
  · rw [if_neg hexact]
    exact divides_of_rounded hd hdigits hvalue fun h => hexact (hiff.mpr h)

/-- One divided by three. -/
theorem decimalsDiv_divides_third :
    Refused (decimalsDiv ⟨[1], 0⟩ ⟨[3], 0⟩) ∨ ∃ r, decimalsDiv ⟨[1], 0⟩ ⟨[3], 0⟩ = .ok r ∧ Divides ⟨[1], 0⟩
      ⟨[3], 0⟩ r := by
  have hb : (⟨[3], 0⟩ : ProtoDecimal).number ≠ 0 := by
    have hread : bytesToBigIntSigned [3] = 3 := rfl
    rw [ProtoDecimal.number, hread]
    norm_num
  exact decimalsDiv_divides ⟨[1], 0⟩ ⟨[3], 0⟩ hb

example : (decimalsDiv ⟨[60], 1⟩ ⟨[3], 0⟩).toOption = some ⟨[20], 1⟩ ∧ (decimalsDiv ⟨[0x9C], 2⟩ ⟨[8], 0⟩).toOption =
  some ⟨[0x83], 3⟩ := by
  decide +kernel

end Cel

end ConfluentKafka
