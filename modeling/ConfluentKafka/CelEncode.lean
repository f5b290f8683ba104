import ConfluentKafka.DecimalRounding
import ConfluentKafka.DecimalValue

/-!
# Encoding decimals

The encoders of `decimal-utils.ts` with the whole message. What the guards predict from the digits and
the exponent of a decimal are the widths of what is written.
-/

namespace ConfluentKafka

namespace Cel

theorem ok_bind {α β : Type} (x : α) (k : α → Except CelError β) : (Except.ok x >>= k) = k x := rfl

/-! ## The message -/

structure DecimalMessage extends ProtoDecimal where
  precision : Nat
  deriving DecidableEq

def unscaledPrecision (unscaled : Int) : Nat :=
  let digits := (Nat.toDigits 10 unscaled.natAbs).length
  if digits = 0 then 1 else digits

def createDecimal (unscaled scale : Int) : DecimalMessage :=
  ⟨⟨bigIntToTwosComplementBytes unscaled, scale⟩, unscaledPrecision unscaled⟩

def Decimal.decimalPlaces (d : Decimal) : Nat := (-d.exponent).toNat

def toProtoDecimal (d : Decimal) : Except CelError DecimalMessage := do
  let unscaled ← decimalToUnscaled d d.decimalPlaces
  return createDecimal unscaled d.decimalPlaces

/-- `toProtoDecimalWithScale`, with the precision of the message. -/
def toDecimalMessageWithScale (d : Decimal) (scale : Int) : Except CelError DecimalMessage :=
  if scale < -2147483648 ∨ INT32_MAX < scale then throw .scaleRange
  else do
    let unscaled ← decimalToUnscaled d scale
    return createDecimal unscaled scale

theorem map_toDecimalMessageWithScale (d : Decimal) (scale : Int) :
    (toDecimalMessageWithScale d scale).map DecimalMessage.toProtoDecimal = toProtoDecimalWithScale d scale := by
  unfold toDecimalMessageWithScale toProtoDecimalWithScale
  split_ifs
  · rfl
  · cases decimalToUnscaled d scale <;> rfl

theorem unscaledPrecision_eq (unscaled : Int) : unscaledPrecision unscaled =
    (Nat.toDigits 10 unscaled.natAbs).length := by
  have hpos : (Nat.toDigits 10 unscaled.natAbs).length ≠ 0 := ne_of_gt Nat.length_toDigits_pos
  simp [unscaledPrecision, hpos]

/-! ## The fewest bytes -/

/-- The bytes are an integer in two's complement, and no fewer are. -/
structure MinimalTwosComplement (bytes : Bytes) (n : Int) : Prop where
  reads : bytesToBigIntSigned bytes = n
  nonempty : bytes ≠ []
  minimal : ∀ bytes' : Bytes, bytes' ≠ [] → bytesToBigIntSigned bytes' = n → bytes.length ≤ bytes'.length

theorem fitsBytes_of_reads (bytes : Bytes) : FitsBytes bytes.length (bytesToBigIntSigned bytes) := by
  cases bytes with
  | nil => exact ⟨by decide, by decide⟩
  | cons b bs =>
    have hlt : natBE (b :: bs) < 256 ^ (bs.length + 1) := by
      have h := natLE_lt (b :: bs).reverse
      rwa [List.length_reverse, List.length_cons] at h
    rw [bytesToBigIntSigned_eq, signed_eq_ite _ _ hlt, List.length_cons]
    zify at hlt
    unfold FitsBytes
    split_ifs with hsign
    · zify at hsign
      constructor <;> omega
    · zify at hsign
      constructor <;> omega

theorem bitLength_le {m bits : Nat} (h : m < 2 ^ bits) (hbits : 0 < bits) : bitLength m ≤ bits := by
  unfold bitLength
  split_ifs with hm
  · exact hbits
  · exact (Nat.log2_lt hm).mpr h

theorem byteLen_le {w : Nat} (hw : 0 < w) {n : Int} (h : FitsBytes w n) : byteLen n ≤ w := by
  have hpow : (256 : Int) ^ w = 2 * 2 ^ (8 * w - 1) := by
    rw [← pow_succ', Nat.sub_add_cancel (by omega), pow_mul]
    norm_num
  obtain ⟨hlow, hhigh⟩ := h
  rw [hpow] at hlow hhigh
  have hmagnitude : (if n < 0 then -n - 1 else n).toNat < 2 ^ (8 * w - 1) := by
    zify
    split_ifs with hn
    · rw [Int.toNat_of_nonneg (by omega)]
      omega
    · rw [Int.toNat_of_nonneg (by omega)]
      omega
  have hbits := bitLength_le hmagnitude (by omega)
  unfold byteLen
  omega

theorem length_bigIntToTwosComplementBytes {n : Int} (hn : n ≠ 0) : (bigIntToTwosComplementBytes n).length =
    byteLen n := by
  rw [bigIntToTwosComplementBytes, if_neg hn, length_bytesBE]

theorem minimal_bigIntToTwosComplementBytes (n : Int) :
    MinimalTwosComplement (bigIntToTwosComplementBytes n) n := by
  refine ⟨bytesToBigIntSigned_bigIntToTwosComplementBytes n, ?_, ?_⟩
  · intro hnil
    have hlength := congrArg List.length hnil
    by_cases hn : n = 0
    · simp [bigIntToTwosComplementBytes, hn] at hlength
    · rw [length_bigIntToTwosComplementBytes hn, byteLen] at hlength
      simp at hlength
  · intro bytes hbytes hreads
    have hpos := List.length_pos_iff.mpr hbytes
    by_cases hn : n = 0
    · simp [bigIntToTwosComplementBytes, hn]
      omega
    · rw [length_bigIntToTwosComplementBytes hn]
      apply byteLen_le hpos
      exact hreads ▸ fitsBytes_of_reads bytes

/-! ## What is refused and what is written -/

theorem decimalToUnscaled_of_zero {d : Decimal} (hd : d.Normal) (h : d.isZero = true) (scale : Int) :
    decimalToUnscaled d scale = .ok 0 := by
  obtain rfl := hd.exponent_of_zero h
  rfl

theorem decimalToUnscaled_cases {d : Decimal} (hd : d.Normal) (h : d.isZero = false) {scale n : Int}
    (hn : d.value * 10 ^ scale = n) :
    (plainFormLength d ≤ SANE_WIDTH ∧ (Nat.toDigits 10 n.natAbs).length ≤ SANE_COEFFICIENT ∧
        decimalToUnscaled d scale = .ok n) ∨
      (¬(plainFormLength d ≤ SANE_WIDTH ∧ (Nat.toDigits 10 n.natAbs).length ≤ SANE_COEFFICIENT) ∧
        ∃ needed limit, decimalToUnscaled d scale = .error (.saneWidth needed limit)) := by
  rw [← rescaledDigits_eq hd hn, decimalToUnscaled]
  obtain ⟨hwide, hlt⟩ | ⟨hplain, hle⟩ := requireSaneWidth_cases (plainFormLength d) SANE_WIDTH
  · rw [hwide]
    exact .inr ⟨fun hboth => by omega, _, _, rfl⟩
  obtain ⟨hwide, hlt⟩ | ⟨hnarrow, hle'⟩ := requireSaneWidth_cases (rescaledDigits scale d) SANE_COEFFICIENT
  · rw [hplain, hwide]
    exact .inr ⟨fun hboth => by omega, _, _, rfl⟩
  · rw [hplain, hnarrow, h, plainUnscaled_eq hd h hn]
    exact .inl ⟨hle, hle', rfl⟩

def WidthError {α : Type} (r : Except CelError α) : Prop := ∃ needed limit, r = .error (.saneWidth needed limit)

def Refused (r : Except CelError ProtoDecimal) : Prop :=
  WidthError r ∨ r = .error .scaleRange ∨ r = .error .rangeError

def Fits (d : Decimal) (scale : Int) : Prop := plainFormLength d ≤ SANE_WIDTH ∧ rescaledDigits scale d ≤
    SANE_COEFFICIENT

instance (d : Decimal) (scale : Int) : Decidable (Fits d scale) := inferInstanceAs (Decidable (_ ∧ _))

/-- At a scale of 32 bits that holds it, a decimal is written as it is or refused for its width. -/
theorem toProtoDecimalWithScale_cases {d : Decimal} (hd : d.Normal) {scale n : Int} (hlow : -2147483648 ≤ scale)
    (hhigh : scale ≤ INT32_MAX) (hn : d.value * 10 ^ scale = n) :
    (d.isZero = false ∧ ¬Fits d scale ∧ WidthError (toProtoDecimalWithScale d scale)) ∨
      ((d.isZero = true ∨ Fits d scale) ∧
        ∃ r, toProtoDecimalWithScale d scale = .ok r ∧ r.number = d.value ∧ r.scale = scale ∧
          bytesToBigIntSigned r.value = n) := by
  have hnumber : (⟨bigIntToTwosComplementBytes n, scale⟩ : ProtoDecimal).number = d.value := by
    rw [ProtoDecimal.number, bytesToBigIntSigned_bigIntToTwosComplementBytes, ← hn, zpow_neg, mul_assoc,
      mul_inv_cancel₀ (ne_of_gt (ten_zpow_pos scale)), mul_one]
  have hwritten : ∀ {P : Prop}, P → decimalToUnscaled d scale = .ok n →
      P ∧ ∃ r, toProtoDecimalWithScale d scale = .ok r ∧ r.number = d.value ∧ r.scale = scale ∧
        bytesToBigIntSigned r.value = n := by
    intro P hP hok
    rw [toProtoDecimalWithScale, if_neg (by omega), hok]
    exact ⟨hP, _, rfl, hnumber, rfl, bytesToBigIntSigned_bigIntToTwosComplementBytes n⟩
  by_cases h : d.isZero = true
  · have hzero : (n : ℚ) = 0 := by rw [← hn, (value_eq_zero_iff d).mpr h, zero_mul]
    obtain rfl : n = 0 := by exact_mod_cast hzero
    exact .inr (hwritten (.inl h) (decimalToUnscaled_of_zero hd h scale))
  · rw [Bool.not_eq_true] at h
    have hfits : Fits d scale ↔ plainFormLength d ≤ SANE_WIDTH ∧ (Nat.toDigits 10 n.natAbs).length ≤
      SANE_COEFFICIENT := by
      rw [Fits, rescaledDigits_eq hd hn]
    obtain ⟨hplain, hnarrow, hok⟩ | ⟨hwide, needed, limit, herr⟩ := decimalToUnscaled_cases hd h hn
    · exact .inr (hwritten (.inr (hfits.mpr ⟨hplain, hnarrow⟩)) hok)
    · refine .inl ⟨h, fun hfit => hwide (hfits.mp hfit), needed, limit, ?_⟩
      rw [toProtoDecimalWithScale, if_neg (by omega), herr]
      rfl

/-- At any scale that holds it, a decimal is written as it is or refused. -/
theorem toProtoDecimalWithScale_refused {d : Decimal} (hd : d.Normal) {scale n : Int}
    (hn : d.value * 10 ^ scale = n) :
    Refused (toProtoDecimalWithScale d scale) ∨
      ∃ r, toProtoDecimalWithScale d scale = .ok r ∧ r.number = d.value ∧ r.scale = scale ∧
        bytesToBigIntSigned r.value = n := by
  by_cases hrange : scale < -2147483648 ∨ INT32_MAX < scale
  · rw [toProtoDecimalWithScale, if_pos hrange]
    exact .inl (.inr (.inl rfl))
  · obtain ⟨-, -, hwide⟩ | ⟨-, hwritten⟩ := toProtoDecimalWithScale_cases hd (by omega) (by omega) hn
    · exact .inl (.inl hwide)
    · exact .inr hwritten

/-- What the encoder is to give for a decimal that is an integer at a scale. -/
structure Encodes (d : Decimal) (scale n : Int) (r : Except CelError DecimalMessage) : Prop where
  succeeds : (∃ m, r = .ok m) ↔
    d.value = 0 ∨ d.digits + d.exponent.natAbs ≤ SANE_WIDTH ∧ (Nat.toDigits 10 n.natAbs).length ≤ SANE_COEFFICIENT
  reads : ∀ m, r = .ok m → fromProtoDecimal m.toProtoDecimal = d
  scaled : ∀ m, r = .ok m → m.scale = scale
  minimal : ∀ m, r = .ok m → MinimalTwosComplement m.value n
  counted : ∀ m, r = .ok m → m.precision = (Nat.toDigits 10 n.natAbs).length
  predicted : rescaledDigits scale d = (Nat.toDigits 10 n.natAbs).length

theorem fromProtoDecimal_createDecimal {d : Decimal} (hd : d.Normal) {scale n : Int}
    (hn : d.value * 10 ^ scale = n) :
    fromProtoDecimal (createDecimal n scale).toProtoDecimal = d := by
  apply eq_of_value (normal_fromProtoDecimal _) hd
  have hpow : (10 : ℚ) ^ scale ≠ 0 := zpow_ne_zero _ (by norm_num)
  rw [value_fromProtoDecimal, ProtoDecimal.number, createDecimal, bytesToBigIntSigned_bigIntToTwosComplementBytes,
    ← hn, zpow_neg,
    mul_assoc, mul_inv_cancel₀ hpow, mul_one]

theorem encodes_of_unscaled {d : Decimal} (hd : d.Normal) {scale n : Int} (hn : d.value * 10 ^ scale = n) :
    Encodes d scale n (decimalToUnscaled d scale >>= fun unscaled => return createDecimal unscaled scale) := by
  have hcreated : ∀ r : Except CelError Int, (r = .ok n ∨ ∃ needed limit, r = .error (.saneWidth needed limit)) →
      ((∃ m, (r >>= fun unscaled => return createDecimal unscaled scale) = .ok m) ↔ r = .ok n) ∧
      ∀ m, (r >>= fun unscaled => return createDecimal unscaled scale) = .ok m → m = createDecimal n scale := by
    intro r hr
    rcases hr with rfl | ⟨needed, limit, rfl⟩
    · refine ⟨⟨fun _ => rfl, fun _ => ⟨_, rfl⟩⟩, fun m hm => ?_⟩
      cases hm
      rfl
    · refine ⟨⟨fun h => ?_, fun h => ?_⟩, fun m hm => ?_⟩
      · obtain ⟨m, hm⟩ := h
        cases hm
      · cases h
      · cases hm
  have hresult : (decimalToUnscaled d scale = .ok n ∨ ∃ needed limit, decimalToUnscaled d scale = .error
    (.saneWidth needed limit)) ∧
      (decimalToUnscaled d scale = .ok n ↔
        d.value = 0 ∨ d.digits + d.exponent.natAbs ≤ SANE_WIDTH ∧ (Nat.toDigits 10 n.natAbs).length ≤
          SANE_COEFFICIENT) := by
    rw [value_eq_zero_iff]
    by_cases h : d.isZero = true
    · have hzero : (n : ℚ) = 0 := by rw [← hn, (value_eq_zero_iff d).mpr h, zero_mul]
      obtain rfl : n = 0 := by exact_mod_cast hzero
      have hok := decimalToUnscaled_of_zero hd h scale
      exact ⟨.inl hok, fun _ => .inl h, fun _ => hok⟩
    · rw [Bool.not_eq_true] at h
      obtain ⟨hplain, hnarrow, hok⟩ | ⟨hwide, needed, limit, herr⟩ := decimalToUnscaled_cases hd h hn
      · exact ⟨.inl hok, fun _ => .inr ⟨hplain, hnarrow⟩, fun _ => hok⟩
      · refine ⟨.inr ⟨needed, limit, herr⟩, fun hok => ?_, fun hor => ?_⟩
        · rw [hok] at herr
          cases herr
        · rcases hor with hzero | hboth
          · rw [hzero] at h
            cases h
          · exact absurd hboth hwide
  obtain ⟨hsucceeds, hcreate⟩ := hcreated _ hresult.1
  refine ⟨hsucceeds.trans hresult.2, ?_, ?_, ?_, ?_, rescaledDigits_eq hd hn⟩
  · intro m hm
    rw [hcreate m hm]
    exact fromProtoDecimal_createDecimal hd hn
  · intro m hm
    rw [hcreate m hm]
    rfl
  · intro m hm
    rw [hcreate m hm]
    exact minimal_bigIntToTwosComplementBytes n
  · intro m hm
    rw [hcreate m hm]
    exact unscaledPrecision_eq n

/-- Both encoders are exact, and refuse exactly what is wide. -/
theorem toProtoDecimal_exact (d : Decimal) (hd : d.Normal) :
    (∀ scale n : Int, -2147483648 ≤ scale → scale ≤ INT32_MAX → d.value * 10 ^ scale = n →
      Encodes d scale n (toDecimalMessageWithScale d scale)) ∧
    ∃ n : Int, d.value * 10 ^ (d.decimalPlaces : Int) = n ∧ Encodes d d.decimalPlaces n (toProtoDecimal d) := by
  constructor
  · intro scale n hlow hhigh hn
    rw [toDecimalMessageWithScale, if_neg (by omega)]
    exact encodes_of_unscaled hd hn
  · obtain ⟨n, hn⟩ : ∃ n : Int, d.value * 10 ^ (d.decimalPlaces : Int) = n := by
      by_cases h : d.isZero = true
      · exact ⟨0, by rw [(value_eq_zero_iff d).mpr h, zero_mul, Int.cast_zero]⟩
      · rw [Bool.not_eq_true] at h
        apply (isInt_iff hd h _).mpr
        unfold Decimal.decimalPlaces
        omega
    exact ⟨n, hn, encodes_of_unscaled hd hn⟩

/-- The number 12.34 at the scale 4. -/
theorem toProtoDecimal_exact_padded :
    Encodes (Decimal.new 1234 (-2)) 4 123400 (toDecimalMessageWithScale (Decimal.new 1234 (-2)) 4) := by
  refine (toProtoDecimal_exact (Decimal.new 1234 (-2)) (normal_new _ _)).1 4 123400 (by decide) (by decide) ?_
  rw [value_new]
  norm_num

end Cel

end ConfluentKafka
