import ConfluentKafka.CelScalars
import ConfluentKafka.DigitText

/-!
# Arithmetic of decimals

`decimals.add`, `decimals.sub` and `decimals.mul` of `decimal-funcs.ts`. The arithmetic library
forgets the scale of an operand and rounds a result with more digits than its precision; the
result is encoded at the scale that the operands give. What is returned is exact.
-/

namespace ConfluentKafka

namespace Cel

open DigitText

/-! ## Operations of the library -/

/-- The precision of `ExactDecimal`, the largest there is. -/
def EXACT_PRECISION : Nat := 1000000000

def Decimal.toSignificantDigits (d : Decimal) (precision : Nat) : Decimal :=
  if d.digits ≤ precision then d
  else
    let unit := 10 ^ (d.digits - precision)
    let rounded : Int := ((2 * d.coefficient.natAbs + unit) / (2 * unit) : Nat)
    Decimal.new (if d.coefficient < 0 then -rounded else rounded) (d.exponent + (d.digits - precision : Nat))

def Decimal.aligned (op : Int → Int → Int) (x y : Decimal) : Decimal :=
  let exponent := min x.exponent y.exponent
  Decimal.new (op (x.coefficient * 10 ^ (x.exponent - exponent).toNat)
    (y.coefficient * 10 ^ (y.exponent - exponent).toNat))
    exponent

def Decimal.plus (x y : Decimal) : Decimal := (Decimal.aligned (· + ·) x y).toSignificantDigits EXACT_PRECISION

def Decimal.minus (x y : Decimal) : Decimal := (Decimal.aligned (· - ·) x y).toSignificantDigits EXACT_PRECISION

def Decimal.times (x y : Decimal) : Decimal :=
  (Decimal.new (x.coefficient * y.coefficient) (x.exponent + y.exponent)).toSignificantDigits EXACT_PRECISION

/-! ## Operations of rules -/

def operandWidth (targetScale : Int) (d : Decimal) (scale : Int) : Nat :=
  if d.isZero then 1 else d.digits + (targetScale - scale).toNat

def requireAlignable (a : Decimal) (scaleA : Int) (b : Decimal) (scaleB : Int) : Except CelError Unit :=
  let targetScale := max scaleA scaleB
  requireSaneWidth (max (operandWidth targetScale a scaleA) (operandWidth targetScale b scaleB) + 1) SANE_WIDTH

def exact (p : ProtoDecimal) : Decimal := fromProtoDecimal p

def decimalsAdd (a b : ProtoDecimal) : Except CelError ProtoDecimal := do
  let x := exact a
  let y := exact b
  requireAlignable x a.scale y b.scale
  toProtoDecimalWithScale (x.plus y) (max a.scale b.scale)

def decimalsSub (a b : ProtoDecimal) : Except CelError ProtoDecimal := do
  let x := exact a
  let y := exact b
  requireAlignable x a.scale y b.scale
  toProtoDecimalWithScale (x.minus y) (max a.scale b.scale)

def decimalsMul (a b : ProtoDecimal) : Except CelError ProtoDecimal :=
  toProtoDecimalWithScale ((exact a).times (exact b)) (a.scale + b.scale)

/-! ## One decimal, many spellings -/

theorem trailingZeros_fuel (fuel : Nat) : ∀ {fuel' n : Nat}, 0 < n → n ≤ fuel → n ≤ fuel' →
    trailingZeros fuel n = trailingZeros fuel' n := by
  induction fuel with
  | zero =>
    intro fuel' n hn h _
    omega
  | succ fuel ih =>
    intro fuel' n hn h h'
    obtain ⟨fuel', rfl⟩ : ∃ k, fuel' = k + 1 := ⟨fuel' - 1, by omega⟩
    unfold trailingZeros
    by_cases hten : n % 10 = 0
    · rw [if_pos hten, if_pos hten, ih (show 0 < n / 10 by omega) (by omega) (show n / 10 ≤ fuel' by omega)]
    · rw [if_neg hten, if_neg hten]

theorem trailingZeros_mul_ten {n : Nat} (hn : 0 < n) : trailingZeros (n * 10) (n * 10) = trailingZeros n n + 1 := by
  obtain ⟨fuel, hfuel⟩ : ∃ k, n * 10 = k + 1 := ⟨n * 10 - 1, by omega⟩
  have hstep : trailingZeros (fuel + 1) (n * 10) = trailingZeros fuel n + 1 := by
    rw [trailingZeros, if_pos (Nat.mul_mod_left n 10), Nat.mul_div_cancel n (by decide)]
  calc trailingZeros (n * 10) (n * 10)
      = trailingZeros (fuel + 1) (n * 10) := by rw [← hfuel]
    _ = trailingZeros fuel n + 1 := hstep
    _ = trailingZeros n n + 1 := by rw [trailingZeros_fuel fuel hn (by omega) (Nat.le_refl n)]

theorem new_mul_ten (c e : Int) : Decimal.new (c * 10) e = Decimal.new c (e + 1) := by
  by_cases hc : c = 0
  · simp [hc, Decimal.new]
  · have hzeros : trailingZeros (c * 10).natAbs (c * 10).natAbs = trailingZeros c.natAbs c.natAbs + 1 := by
      rw [Int.natAbs_mul]
      exact trailingZeros_mul_ten (Int.natAbs_pos.mpr hc)
    have hne : c * 10 ≠ 0 := by omega
    simp only [Decimal.new, if_neg hc, if_neg hne, hzeros, pow_succ, Decimal.mk.injEq]
    constructor
    · exact Int.mul_ediv_mul_of_pos_left c _ (by decide)
    · push_cast
      omega

theorem new_mul_pow (c e : Int) (k : Nat) : Decimal.new (c * 10 ^ k) e = Decimal.new c (e + k) := by
  induction k generalizing c with
  | zero => simp
  | succ k ih =>
    rw [pow_succ', ← mul_assoc, ih, new_mul_ten]
    congr 1
    push_cast
    omega

/-- The same digits before and after a common point. -/
theorem new_eq_of_le {c e m : Int} (h : m ≤ e) : Decimal.new c e = Decimal.new (c * 10 ^ (e - m).toNat) m := by
  rw [new_mul_pow]
  congr 1
  omega

/-- The zeros that the library takes off the end of a coefficient. -/
theorem exists_new_eq {c : Int} (hc : c ≠ 0) (e : Int) :
    ∃ zeros : Nat, c = (Decimal.new c e).coefficient * 10 ^ zeros ∧ (Decimal.new c e).exponent = e + zeros := by
  refine ⟨trailingZeros c.natAbs c.natAbs, ?_, ?_⟩
  · rw [Decimal.new, if_neg hc]
    exact (Int.ediv_mul_cancel (pow_trailingZeros_dvd_int c)).symm
  · rw [Decimal.new, if_neg hc]

theorem coefficient_mul_pow (c : Int) {e m : Int} (h : m ≤ e) (h' : m ≤ (Decimal.new c e).exponent) :
    (Decimal.new c e).coefficient * 10 ^ ((Decimal.new c e).exponent - m).toNat = c * 10 ^ (e - m).toNat := by
  by_cases hc : c = 0
  · simp [hc, Decimal.new]
  · obtain ⟨zeros, hcoefficient, hexponent⟩ := exists_new_eq hc e
    have hsplit : (e + zeros - m).toNat = zeros + (e - m).toNat := by omega
    rw [hexponent, hsplit, pow_add, ← mul_assoc, ← hcoefficient]

/-- Sums and differences of what the library makes of two texts. -/
theorem aligned_new {op : Int → Int → Int} (hop : ∀ a b t, op a b * t = op (a * t) (b * t)) (c₁ c₂ : Int)
    {e₁ e₂ m : Int}
    (h₁ : m ≤ e₁) (h₂ : m ≤ e₂) :
    Decimal.aligned op (Decimal.new c₁ e₁) (Decimal.new c₂ e₂) =
      Decimal.new (op (c₁ * 10 ^ (e₁ - m).toNat) (c₂ * 10 ^ (e₂ - m).toNat)) m := by
  -- both sides at one exponent below all others
  have hshift : ∀ (c x e k : Int), k ≤ e → e ≤ x → c * 10 ^ (x - e).toNat * 10 ^ (e - k).toNat = c * 10 ^
    (x - k).toNat := by
    intro c x e k hk he
    have hsplit : (x - k).toNat = (x - e).toNat + (e - k).toNat := by omega
    rw [hsplit, pow_add, mul_assoc]
  unfold Decimal.aligned
  obtain ⟨e, he⟩ : ∃ e, e = min (Decimal.new c₁ e₁).exponent (Decimal.new c₂ e₂).exponent := ⟨_, rfl⟩
  have hx : e ≤ (Decimal.new c₁ e₁).exponent := he ▸ min_le_left _ _
  have hy : e ≤ (Decimal.new c₂ e₂).exponent := he ▸ min_le_right _ _
  simp only [← he]
  rw [new_eq_of_le (min_le_left e m), new_eq_of_le (min_le_right e m), hop, hop, hshift _ _ _ _
    (min_le_left e m) hx,
    hshift _ _ _ _ (min_le_left e m) hy, hshift _ _ _ _ (min_le_right e m) h₁, hshift _ _ _ _ (min_le_right e m) h₂,
    coefficient_mul_pow c₁ (le_trans (min_le_right e m) h₁) (le_trans (min_le_left e m) hx),
    coefficient_mul_pow c₂ (le_trans (min_le_right e m) h₂) (le_trans (min_le_left e m) hy)]

theorem times_new (c₁ c₂ e₁ e₂ : Int) :
    Decimal.new ((Decimal.new c₁ e₁).coefficient * (Decimal.new c₂ e₂).coefficient)
      ((Decimal.new c₁ e₁).exponent + (Decimal.new c₂ e₂).exponent) = Decimal.new (c₁ * c₂) (e₁ + e₂) := by
  by_cases h₁ : c₁ = 0
  · simp [h₁, Decimal.new]
  by_cases h₂ : c₂ = 0
  · simp [h₂, Decimal.new]
  obtain ⟨z₁, hc₁, he₁⟩ := exists_new_eq h₁ e₁
  obtain ⟨z₂, hc₂, he₂⟩ := exists_new_eq h₂ e₂
  have hproduct : c₁ * c₂ =
      (Decimal.new c₁ e₁).coefficient * (Decimal.new c₂ e₂).coefficient * 10 ^ (z₁ + z₂) := by
    calc c₁ * c₂
        = (Decimal.new c₁ e₁).coefficient * 10 ^ z₁ * ((Decimal.new c₂ e₂).coefficient * 10 ^ z₂) := by
          rw [← hc₁, ← hc₂]
      _ = _ := by ring
  rw [hproduct, new_mul_pow, he₁, he₂]
  congr 1
  push_cast
  ring

/-! ## Digits -/

/-- Zeros at the end of a coefficient do not move the first digit. -/
theorem digits_new {c : Int} (hc : c ≠ 0) (e : Int) :
    (Decimal.new c e).digits + (Decimal.new c e).exponent = (Nat.toDigits 10 c.natAbs).length + e := by
  obtain ⟨zeros, hcoefficient, hexponent⟩ := exists_new_eq hc e
  have hne : (Decimal.new c e).coefficient ≠ 0 := by
    intro hzero
    rw [hzero, zero_mul] at hcoefficient
    exact hc hcoefficient
  have habs : c.natAbs = (Decimal.new c e).coefficient.natAbs * 10 ^ zeros := by
    conv_lhs => rw [hcoefficient]
    simp [Int.natAbs_mul, Int.natAbs_pow]
  have hlength := length_toDigits_mul_pow (Int.natAbs_pos.mpr hne) zeros
  have hdigits : (Decimal.new c e).digits = (Nat.toDigits 10 (Decimal.new c e).coefficient.natAbs).length := by
    simp [Decimal.digits, Decimal.isZero, hne]
  rw [habs, hlength, hdigits, hexponent]
  push_cast
  ring

/-- Rounding leaves the first digit where it is, or moves it up. -/
theorem digits_toSignificantDigits {d : Decimal} {precision : Nat} (hp : 0 < precision) (h : precision < d.digits) :
    (d.toSignificantDigits precision).isZero = false ∧
      d.digits + d.exponent ≤
        (d.toSignificantDigits precision).digits + (d.toSignificantDigits precision).exponent := by
  have hne : d.coefficient ≠ 0 := by
    intro hzero
    simp only [Decimal.digits, Decimal.isZero, hzero, decide_true, if_true] at h
    omega
  have hdigits : d.digits = (Nat.toDigits 10 d.coefficient.natAbs).length := by
    simp [Decimal.digits, Decimal.isZero, hne]
  obtain ⟨k, hk⟩ : ∃ k, d.digits = precision + k := ⟨d.digits - precision, by omega⟩
  have hkeep : d.digits - precision = k := by omega
  have hfirst : 10 ^ (precision - 1) * 10 ^ k ≤ d.coefficient.natAbs := by
    rw [← pow_add]
    apply pow_le_of_length_toDigits (Int.natAbs_pos.mpr hne)
    omega
  obtain ⟨r, hr⟩ : ∃ r, r = (2 * d.coefficient.natAbs + 10 ^ k) / (2 * 10 ^ k) := ⟨_, rfl⟩
  have hround : 10 ^ (precision - 1) ≤ r := by
    rw [hr, Nat.le_div_iff_mul_le (by positivity)]
    calc 10 ^ (precision - 1) * (2 * 10 ^ k)
        = 2 * (10 ^ (precision - 1) * 10 ^ k) := by ring
      _ ≤ 2 * d.coefficient.natAbs := Nat.mul_le_mul_left 2 hfirst
      _ ≤ 2 * d.coefficient.natAbs + 10 ^ k := Nat.le_add_right _ _
  have hlength := lt_length_of_pow_le hround
  obtain ⟨c, hc⟩ : ∃ c : Int, c = if d.coefficient < 0 then -(r : Int) else r := ⟨_, rfl⟩
  have habs : c.natAbs = r := by
    rw [hc]
    split_ifs <;> simp
  have hpos : 0 < 10 ^ (precision - 1) := Nat.pow_pos (by decide)
  have hcne : c ≠ 0 := by
    intro hzero
    rw [hzero, Int.natAbs_zero] at habs
    omega
  have hvalue : d.toSignificantDigits precision = Decimal.new c (d.exponent + k) := by
    simp only [Decimal.toSignificantDigits, if_neg (Nat.not_le.mpr h), hkeep, ← hr, ← hc]
  rw [hvalue, isZero_new, digits_new hcne, habs, hk]
  refine ⟨decide_eq_false hcne, ?_⟩
  push_cast
  omega

/-! ## The encoder refuses what was rounded -/

theorem plainUnscaled_mul_int (c scale : Int) (zeros : Nat) :
    plainUnscaled ⟨c, -scale + zeros⟩ scale = c * 10 ^ zeros := by
  have hvalue : (if 0 ≤ scale - (-(-scale + (zeros : Int))).toNat then
      c.natAbs * 10 ^ (-scale + (zeros : Int)).toNat * 10 ^ (scale - (-(-scale + (zeros : Int))).toNat).toNat
    else c.natAbs * 10 ^ (-scale + (zeros : Int)).toNat / 10 ^
      (-(scale - (-(-scale + (zeros : Int))).toNat)).toNat) =
      c.natAbs * 10 ^ zeros := by
    split_ifs with hshift
    · rw [mul_assoc, ← pow_add]
      congr 2
      omega
    · -- the scale is negative, and the zeros of the plain form are divided away
      have hsplit : (-scale + (zeros : Int)).toNat = zeros +
        (-(scale - (-(-scale + (zeros : Int))).toNat)).toNat := by omega
      rw [hsplit, pow_add, ← mul_assoc, Nat.mul_div_cancel _ (by positivity)]
  simp only [plainUnscaled, hvalue]
  split_ifs with hc
  · rw [Nat.cast_mul, Int.ofNat_natAbs_of_nonpos (le_of_lt hc)]
    push_cast
    ring
  · rw [Nat.cast_mul, Int.natAbs_of_nonneg (not_lt.mp hc)]
    push_cast
    ring

theorem plainUnscaled_new_int {unscaled : Int} (h : unscaled ≠ 0) (scale : Int) :
    plainUnscaled (Decimal.new unscaled (-scale)) scale = unscaled := by
  simp only [Decimal.new, if_neg h, plainUnscaled_mul_int]
  exact Int.ediv_mul_cancel (pow_trailingZeros_dvd_int unscaled)

theorem requireSaneWidth_cases (needed limit : Nat) :
    requireSaneWidth needed limit = .error (.saneWidth needed limit) ∧ limit < needed ∨
      requireSaneWidth needed limit = .ok () ∧ needed ≤ limit := by
  by_cases h : limit < needed
  · exact .inl ⟨if_pos h, h⟩
  · exact .inr ⟨if_neg h, Nat.le_of_not_lt h⟩

/-- An exact value of more digits than the library keeps has a coefficient that is too wide at every scale it
has. -/
theorem rescaledDigits_rounded {unscaled scale : Int}
    (h : EXACT_PRECISION < (Decimal.new unscaled (-scale)).digits) :
    SANE_COEFFICIENT < rescaledDigits scale
      ((Decimal.new unscaled (-scale)).toSignificantDigits EXACT_PRECISION) := by
  obtain ⟨hzero, hdigits⟩ := digits_toSignificantDigits (by decide) h
  have hexponent : -scale ≤ (Decimal.new unscaled (-scale)).exponent := by
    by_cases hu : unscaled = 0
    · simp [hu, Decimal.new, Decimal.digits, Decimal.isZero, EXACT_PRECISION] at h
    · obtain ⟨zeros, -, he⟩ := exists_new_eq hu (-scale)
      omega
  have hlimits : SANE_COEFFICIENT < EXACT_PRECISION := by decide
  rw [rescaledDigits, hzero, if_neg (by decide)]
  omega

theorem decimalToUnscaled_rounded (unscaled scale : Int) :
    (∃ needed limit, decimalToUnscaled ((Decimal.new unscaled (-scale)).toSignificantDigits EXACT_PRECISION) scale =
      .error (.saneWidth needed limit)) ∨
    decimalToUnscaled ((Decimal.new unscaled (-scale)).toSignificantDigits EXACT_PRECISION) scale =
      .ok unscaled := by
  obtain ⟨d, hd⟩ : ∃ d, d = (Decimal.new unscaled (-scale)).toSignificantDigits EXACT_PRECISION := ⟨_, rfl⟩
  rw [← hd, decimalToUnscaled]
  obtain ⟨hwide, -⟩ | ⟨hplain, -⟩ := requireSaneWidth_cases (plainFormLength d) SANE_WIDTH
  · rw [hwide]
    exact .inl ⟨_, _, rfl⟩
  obtain ⟨hwide, -⟩ | ⟨hnarrow, hle⟩ := requireSaneWidth_cases (rescaledDigits scale d) SANE_COEFFICIENT
  · rw [hplain, hwide]
    exact .inl ⟨_, _, rfl⟩
  refine .inr ?_
  have hkept : d = Decimal.new unscaled (-scale) := by
    by_cases h : EXACT_PRECISION < (Decimal.new unscaled (-scale)).digits
    · have hwide := rescaledDigits_rounded h
      rw [← hd] at hwide
      omega
    · rw [hd, Decimal.toSignificantDigits, if_pos (Nat.le_of_not_lt h)]
  rw [hplain, hnarrow, hkept, isZero_new]
  by_cases hu : unscaled = 0
  · simp [hu, pure, Except.pure, bind, Except.bind]
  · simp [hu, plainUnscaled_new_int hu, pure, Except.pure, bind, Except.bind]

/-- A decimal of a scale and an unscaled integer, or an error about its width or scale. -/
def ExactOrRefused (r : Except CelError ProtoDecimal) (unscaled scale : Int) : Prop :=
  (∃ needed limit, r = .error (.saneWidth needed limit)) ∨ r = .error .scaleRange ∨
    ∃ d, r = .ok d ∧ d.scale = scale ∧ bytesToBigIntSigned d.value = unscaled

theorem exactOrRefused_encoded (unscaled scale : Int) :
    ExactOrRefused
      (toProtoDecimalWithScale ((Decimal.new unscaled (-scale)).toSignificantDigits EXACT_PRECISION) scale)
      unscaled scale := by
  unfold toProtoDecimalWithScale
  split_ifs with hscale
  · exact .inr (.inl rfl)
  · obtain ⟨needed, limit, hwide⟩ | hexact := decimalToUnscaled_rounded unscaled scale
    · rw [hwide]
      exact .inl ⟨needed, limit, rfl⟩
    · rw [hexact]
      exact .inr (.inr ⟨_, rfl, rfl, bytesToBigIntSigned_bigIntToTwosComplementBytes unscaled⟩)

theorem exactOrRefused_alignable {a b : Decimal} {scaleA scaleB : Int} {r : Except CelError ProtoDecimal}
    {unscaled scale : Int} (h : ExactOrRefused r unscaled scale) :
    ExactOrRefused (requireAlignable a scaleA b scaleB >>= fun _ => r) unscaled scale := by
  obtain ⟨hwide, -⟩ | ⟨hnarrow, -⟩ := requireSaneWidth_cases
    (max (operandWidth (max scaleA scaleB) a scaleA) (operandWidth (max scaleA scaleB) b scaleB) + 1) SANE_WIDTH
  · rw [requireAlignable, hwide]
    exact .inl ⟨_, _, rfl⟩
  · rw [requireAlignable, hnarrow]
    exact h

/-- The unscaled integer of a decimal at a scale that is not below its own. -/
def ProtoDecimal.unscaledAt (p : ProtoDecimal) (scale : Int) : Int :=
  bytesToBigIntSigned p.value * 10 ^ (scale - p.scale).toNat

theorem aligned_fromProtoDecimal {op : Int → Int → Int} (hop : ∀ a b t, op a b * t = op (a * t) (b * t))
    (a b : ProtoDecimal) :
    Decimal.aligned op (exact a) (exact b) =
      Decimal.new (op (a.unscaledAt (max a.scale b.scale)) (b.unscaledAt (max a.scale b.scale)))
        (-max a.scale b.scale) := by
  have hdistance : ∀ s : Int, -s - -max a.scale b.scale = max a.scale b.scale - s := fun s => by omega
  rw [exact, exact, fromProtoDecimal, fromProtoDecimal, aligned_new hop _ _
    (neg_le_neg (le_max_left a.scale b.scale))
    (neg_le_neg (le_max_right a.scale b.scale)), hdistance, hdistance]
  rfl

/-- Sums, differences and products are exact at the scale of the operands, or refused. -/
theorem decimals_exact (a b : ProtoDecimal) :
    ExactOrRefused (decimalsAdd a b)
        (a.unscaledAt (max a.scale b.scale) + b.unscaledAt (max a.scale b.scale)) (max a.scale b.scale) ∧
      ExactOrRefused (decimalsSub a b)
        (a.unscaledAt (max a.scale b.scale) - b.unscaledAt (max a.scale b.scale)) (max a.scale b.scale) ∧
      ExactOrRefused (decimalsMul a b) (bytesToBigIntSigned a.value * bytesToBigIntSigned b.value)
        (a.scale + b.scale) := by
  refine ⟨?_, ?_, ?_⟩
  · apply exactOrRefused_alignable
    rw [Decimal.plus, aligned_fromProtoDecimal fun a b t => Int.add_mul a b t]
    exact exactOrRefused_encoded _ _
  · apply exactOrRefused_alignable
    rw [Decimal.minus, aligned_fromProtoDecimal fun a b t => Int.sub_mul a b t]
    exact exactOrRefused_encoded _ _
  · have hscale : -a.scale + -b.scale = -(a.scale + b.scale) := by omega
    rw [decimalsMul, Decimal.times, exact, exact, fromProtoDecimal, fromProtoDecimal, times_new, hscale]
    exact exactOrRefused_encoded _ _

example : (decimalsAdd ⟨[0, 0x96], 2⟩ ⟨[2], 0⟩).toOption = some ⟨[1, 0x5E], 2⟩ ∧
    (decimalsSub ⟨[0], -3⟩ ⟨[5], -1⟩).toOption = some ⟨[0xFB], -1⟩ ∧
    (decimalsMul ⟨[0xF6], 1⟩ ⟨[20], -2⟩).toOption = some ⟨[0xFF, 0x38], -1⟩ := by decide

end Cel

end ConfluentKafka
