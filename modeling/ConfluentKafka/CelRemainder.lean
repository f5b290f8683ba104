import ConfluentKafka.CelDivision

/-!
# The remainder of decimals

`decimals.mod` of `decimal-funcs.ts`. The integral quotient is guarded for its width, and never seen: the
remainder is exact, with the scale of a difference.
-/

namespace ConfluentKafka

/-! ## What rounding down leaves -/

theorem abs_sub_roundDown (x : ℚ) : |x - roundDown x| < 1 := by
  unfold roundDown
  split_ifs
  · have hle := Int.floor_le (-x)
    have hlt := Int.lt_floor_add_one (-x)
    push_cast
    rw [abs_lt]
    constructor <;> linarith
  · have hle := Int.floor_le x
    have hlt := Int.lt_floor_add_one x
    rw [abs_lt]
    constructor <;> linarith

theorem sub_roundDown_mul_nonneg (x : ℚ) : 0 ≤ (x - roundDown x) * x := by
  unfold roundDown
  split_ifs with h
  · have hle := Int.floor_le (-x)
    push_cast
    exact mul_nonneg_of_nonpos_of_nonpos (by linarith) h.le
  · have hle := Int.floor_le x
    exact mul_nonneg (by linarith) (not_lt.mp h)

namespace Cel

/-! ## Operations -/

def Decimal.mod (x y : Decimal) : Decimal :=
  if x.isZero then x
  else
    let ratio : ℚ := x.coefficient / y.coefficient
    let quotient := roundDown (ratio * 10 ^ (x.exponent - y.exponent))
    x.minus (Decimal.new (quotient * y.coefficient) y.exponent)

def decimalsMod (a b : ProtoDecimal) : Except CelError ProtoDecimal := do
  let bd ← toDecimal b
  if bd.isZero then throw .divisionByZero
  let x ← toDecimal a
  let y ← toDecimal b
  requireSaneWidth (if x.isZero then 1 else (max 0 (x.e - y.e)).toNat + 1) SANE_WIDTH
  toProtoDecimalWithScale (x.mod y) (max a.scale b.scale)

/-- The remainder of a division with an integral quotient: smaller than the divisor, and not against the sign
of the dividend. -/
structure Remains (a b r : ProtoDecimal) : Prop where
  quotient : ∃ q : Int, a.number = q * b.number + r.number
  smaller : |r.number| < |b.number|
  sign : 0 ≤ r.number * a.number
  scale : r.scale = max a.scale b.scale

/-! ## The remainder is exact -/

theorem unscaledAt_eq (p : ProtoDecimal) {scale : Int} (h : p.scale ≤ scale) :
    (p.unscaledAt scale : ℚ) = p.number * 10 ^ scale := by
  have hpow : (10 : ℚ) ^ (scale - p.scale).toNat = 10 ^ (scale - p.scale) := by
    rw [← zpow_natCast, Int.toNat_of_nonneg (by omega)]
  rw [ProtoDecimal.unscaledAt, ProtoDecimal.number]
  push_cast
  rw [hpow, mul_assoc, ← zpow_add₀ (by norm_num)]
  congr 2
  omega

/-- The quotient's multiple of the divisor, however the divisor is spelled. -/
theorem new_mul_coefficient (q : Int) (p : ProtoDecimal) :
    Decimal.new (q * (fromProtoDecimal p).coefficient) (fromProtoDecimal p).exponent =
      Decimal.new (q * bytesToBigIntSigned p.value) (-p.scale) := by
  apply eq_of_value (normal_new _ _) (normal_new _ _)
  have hvalue := value_fromProtoDecimal p
  rw [Decimal.value, ProtoDecimal.number] at hvalue
  rw [value_new, value_new]
  push_cast
  rw [mul_assoc, hvalue, mul_assoc]

theorem mod_fromProtoDecimal (a b : ProtoDecimal) :
    (fromProtoDecimal a).mod (fromProtoDecimal b) =
      (Decimal.new (a.unscaledAt (max a.scale b.scale) -
        roundDown (a.number / b.number) * b.unscaledAt (max a.scale b.scale))
          (-max a.scale b.scale)).toSignificantDigits
          EXACT_PRECISION := by
  unfold Decimal.mod
  split_ifs with hzero
  · have hnumber : a.number = 0 := by rw [← value_fromProtoDecimal, value_eq_zero_iff, hzero]
    have hunscaled : a.unscaledAt (max a.scale b.scale) = 0 := by
      have hcast := unscaledAt_eq a (le_max_left a.scale b.scale)
      rw [hnumber, zero_mul] at hcast
      exact_mod_cast hcast
    have hround : roundDown 0 = 0 := by exact_mod_cast roundDown_intCast 0
    rw [hunscaled, hnumber, zero_div, hround, zero_mul, sub_zero,
      (normal_fromProtoDecimal a).exponent_of_zero hzero]
    rfl
  · dsimp only
    rw [← ratio_value, value_fromProtoDecimal, value_fromProtoDecimal, new_mul_coefficient, Decimal.minus]
    have hdistance : ∀ s : Int, -s - -max a.scale b.scale = max a.scale b.scale - s := fun s => by omega
    conv_lhs => rw [fromProtoDecimal]
    rw [aligned_new (fun a b t => Int.sub_mul a b t) _ _ (neg_le_neg (le_max_left a.scale b.scale))
      (neg_le_neg (le_max_right a.scale b.scale)), hdistance, hdistance, mul_assoc]
    rfl

/-- At the scale of both operands, the remainder is the dividend less that multiple. -/
theorem remains_of_unscaled {a b r : ProtoDecimal} (hb : b.number ≠ 0) (hscale : r.scale = max a.scale b.scale)
    (hunscaled : bytesToBigIntSigned r.value = a.unscaledAt (max a.scale b.scale) -
      roundDown (a.number / b.number) * b.unscaledAt (max a.scale b.scale)) : Remains a b r := by
  have hnumber : r.number = (a.number / b.number - roundDown (a.number / b.number)) * b.number := by
    rw [ProtoDecimal.number, hunscaled, hscale]
    push_cast
    rw [unscaledAt_eq a (le_max_left a.scale b.scale), unscaledAt_eq b (le_max_right a.scale b.scale),
      zpow_neg, sub_mul,
      sub_mul, div_mul_cancel₀ _ hb]
    have hpos := ne_of_gt (ten_zpow_pos (max a.scale b.scale))
    field_simp
  refine ⟨⟨roundDown (a.number / b.number), ?_⟩, ?_, ?_, hscale⟩
  · rw [hnumber, sub_mul, div_mul_cancel₀ _ hb]
    ring
  · rw [hnumber, abs_mul]
    exact mul_lt_of_lt_one_left (abs_pos.mpr hb) (abs_sub_roundDown _)
  · have hsign := sub_roundDown_mul_nonneg (a.number / b.number)
    calc (0 : ℚ)
        ≤ (a.number / b.number - roundDown (a.number / b.number)) * (a.number / b.number) * (b.number * b.number) :=
          mul_nonneg hsign (mul_self_nonneg _)
      _ = r.number * a.number := by
          rw [hnumber]
          field_simp

/-- The remainder is exact or refused, and only for a divisor of zero there is none. -/
theorem decimalsMod_remains (a b : ProtoDecimal) :
    (b.number = 0 → decimalsMod a b = .error .divisionByZero ∨ decimalsMod a b = .error .rangeError) ∧
      (b.number ≠ 0 → Refused (decimalsMod a b) ∨ ∃ r, decimalsMod a b = .ok r ∧ Remains a b r) := by
  have hzero : (fromProtoDecimal b).isZero = true ↔ b.number = 0 := by
    rw [← value_eq_zero_iff, value_fromProtoDecimal]
  unfold decimalsMod toDecimal
  by_cases hheld : MAX_BIGINT_BITS < readBits b.value
  · rw [if_pos hheld]
    exact ⟨fun _ => .inr rfl, fun _ => .inl (.inr (.inr rfl))⟩
  rw [if_neg hheld, pure_bind]
  refine ⟨fun hb => .inl ?_, fun hb => ?_⟩
  · rw [if_pos (hzero.mpr hb)]
    rfl
  rw [if_neg (mt hzero.mp hb)]
  by_cases hheld' : MAX_BIGINT_BITS < readBits a.value
  · rw [if_pos hheld']
    exact .inl (.inr (.inr rfl))
  rw [if_neg hheld', pure_bind, pure_bind, mod_fromProtoDecimal]
  obtain ⟨hwide, -⟩ | ⟨hnarrow, -⟩ := requireSaneWidth_cases (if (fromProtoDecimal a).isZero then 1 else
    (max 0 ((fromProtoDecimal a).e - (fromProtoDecimal b).e)).toNat + 1) SANE_WIDTH
  · rw [hwide]
    exact .inl (.inl ⟨_, _, rfl⟩)
  · rw [hnarrow, ok_bind]
    obtain ⟨needed, limit, hwide⟩ | hscale | ⟨r, hok, hscale, hunscaled⟩ := exactOrRefused_encoded
      (a.unscaledAt (max a.scale b.scale) - roundDown (a.number / b.number) * b.unscaledAt (max a.scale b.scale))
      (max a.scale b.scale)
    · exact .inl (.inl ⟨needed, limit, hwide⟩)
    · exact .inl (.inr (.inl hscale))
    · exact .inr ⟨r, hok, remains_of_unscaled hb hscale hunscaled⟩

/-- -7.5 and 2. -/
theorem decimalsMod_remains_negative :
    Refused (decimalsMod ⟨[0xB5], 1⟩ ⟨[2], 0⟩) ∨
      ∃ r, decimalsMod ⟨[0xB5], 1⟩ ⟨[2], 0⟩ = .ok r ∧ Remains ⟨[0xB5], 1⟩ ⟨[2], 0⟩ r := by
  have hb : (⟨[2], 0⟩ : ProtoDecimal).number ≠ 0 := by
    have hread : bytesToBigIntSigned [2] = 2 := rfl
    rw [ProtoDecimal.number, hread]
    norm_num
  exact (decimalsMod_remains ⟨[0xB5], 1⟩ ⟨[2], 0⟩).2 hb

example : (decimalsMod ⟨[0xB5], 1⟩ ⟨[2], 0⟩).toOption = some ⟨[0xF1], 1⟩ := by decide +kernel

end Cel

end ConfluentKafka
