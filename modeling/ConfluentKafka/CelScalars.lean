import Mathlib.Tactic.Zify
import ConfluentKafka.Bytes
import ConfluentKafka.Variant

/-!
# Decimals and timestamps of rules

The conversions of `decimal-utils.ts`, `decimal-funcs.ts` and `timestamp-funcs.ts` between the bytes
and numbers of Avro and the messages that rules see. A decimal of the arithmetic library is a
coefficient without trailing zeros and an exponent.
-/

namespace ConfluentKafka

namespace Cel

inductive CelError where
  | saneWidth (needed limit : Nat)
  | scaleRange
  | decimalPlaces
  | timestampRange (seconds : Int)
  | unsafeEpoch (epoch : Int)
  | rangeError
  | typeError
  | divisionByZero
  | invalidNumber
  | syntaxError
  | variant (fault : VariantFault)
  | noBranch
  | outOfFuel

/-! ## Decimals -/

def bytesToBigIntSigned : Bytes → Int
  | [] => 0
  | b :: bs =>
    let result : Int := (b :: bs).foldl (fun result b => result * 256 + b.toNat) 0
    if 0x80 ≤ b.toNat then result - 256 ^ (bs.length + 1) else result

def bitLength (m : Nat) : Nat := if m = 0 then 1 else m.log2 + 1

def byteLen (n : Int) : Nat := (bitLength (if n < 0 then -n - 1 else n).toNat + 8) / 8

def bigIntToTwosComplementBytes (n : Int) : Bytes :=
  if n = 0 then [0]
  else bytesBE (byteLen n) (if n < 0 then 256 ^ byteLen n + n else n).toNat

def trailingZeros : Nat → Nat → Nat
  | 0, _ => 0
  | fuel + 1, n => if n % 10 = 0 then trailingZeros fuel (n / 10) + 1 else 0

/-- A decimal of the arithmetic library, the coefficient times a power of ten. -/
structure Decimal where
  coefficient : Int
  exponent : Int

def Decimal.new (unscaled exponent : Int) : Decimal :=
  if unscaled = 0 then ⟨0, 0⟩
  else
    let zeros := trailingZeros unscaled.natAbs unscaled.natAbs
    ⟨unscaled / 10 ^ zeros, exponent + zeros⟩

def Decimal.isZero (d : Decimal) : Bool := d.coefficient = 0

def Decimal.digits (d : Decimal) : Nat := if d.isZero then 1 else (Nat.toDigits 10 d.coefficient.natAbs).length

/-- `confluent.type.Decimal`, but for its precision. -/
structure ProtoDecimal where
  value : Bytes
  scale : Int
  deriving DecidableEq

def SANE_WIDTH : Nat := 10000000

def SANE_COEFFICIENT : Nat := 4300

def requireSaneWidth (needed limit : Nat) : Except CelError Unit :=
  if limit < needed then throw (.saneWidth needed limit) else return ()

def rescaledDigits (targetScale : Int) (d : Decimal) : Nat :=
  if d.isZero then 1 else (max 1 (d.digits + targetScale + d.exponent)).toNat

def plainFormLength (d : Decimal) : Nat := d.digits + d.exponent.natAbs

/-- The plain form has the digits of the value before the point, and as many after it as the exponent is below
zero. -/
def plainUnscaled (d : Decimal) (scale : Int) : Int :=
  let value := d.coefficient.natAbs * 10 ^ d.exponent.toNat
  let shift := scale - (-d.exponent).toNat
  let value := if 0 ≤ shift then value * 10 ^ shift.toNat else value / 10 ^ (-shift).toNat
  if d.coefficient < 0 then -value else value

def decimalToUnscaled (d : Decimal) (scale : Int) : Except CelError Int := do
  requireSaneWidth (plainFormLength d) SANE_WIDTH
  requireSaneWidth (rescaledDigits scale d) SANE_COEFFICIENT
  return if d.isZero then 0 else plainUnscaled d scale

def INT32_MAX : Nat := 2147483647

def toProtoDecimalWithScale (d : Decimal) (scale : Int) : Except CelError ProtoDecimal :=
  if scale < -2147483648 ∨ INT32_MAX < scale then throw .scaleRange
  else do
    let unscaled ← decimalToUnscaled d scale
    return ⟨bigIntToTwosComplementBytes unscaled, scale⟩

def fromProtoDecimal (p : ProtoDecimal) : Decimal := Decimal.new (bytesToBigIntSigned p.value) (-p.scale)

def decimalFromBytesScale (value : Bytes) (scale : Nat) : Except CelError ProtoDecimal :=
  if INT32_MAX < scale then throw .scaleRange
  else do
    requireSaneWidth (value.length * 301 / 125 + 1) SANE_COEFFICIENT
    toProtoDecimalWithScale (Decimal.new (bytesToBigIntSigned value) (-scale)) scale

def MAX_DECIMAL_PLACES : Nat := 1000000000

def Decimal.toDecimalPlaces (d : Decimal) (scale : Nat) : Except CelError Decimal :=
  if MAX_DECIMAL_PLACES < scale then throw .decimalPlaces
  else if -d.exponent ≤ scale then return d
  else
    let unit := 10 ^ (-d.exponent - scale).toNat
    let rounded : Int := ((2 * d.coefficient.natAbs + unit) / (2 * unit) : Nat)
    return Decimal.new (if d.coefficient < 0 then -rounded else rounded) (-scale)

def decimalToAvroBytes (p : ProtoDecimal) (scale : Nat) : Except CelError Bytes := do
  let d ← (fromProtoDecimal p).toDecimalPlaces scale
  let proto ← toProtoDecimalWithScale d scale
  return proto.value

/-! ## Timestamps -/

inductive TimeUnit where
  | millis | micros | nanos
  deriving DecidableEq

def TimeUnit.perSecond : TimeUnit → Int
  | .millis => 1000
  | .micros => 1000000
  | .nanos => 1000000000

def TimeUnit.nanosPerUnit : TimeUnit → Int
  | .millis => 1000000
  | .micros => 1000
  | .nanos => 1

structure Timestamp where
  seconds : Int
  nanos : Int
  deriving DecidableEq

def MIN_TIMESTAMP_SECONDS : Int := -62135596800

def MAX_TIMESTAMP_SECONDS : Int := 253402300799

def MAX_SAFE_INTEGER : Int := 9007199254740991

def checkRange (ts : Timestamp) : Except CelError Timestamp :=
  if ts.seconds < MIN_TIMESTAMP_SECONDS ∨ MAX_TIMESTAMP_SECONDS < ts.seconds then throw (.timestampRange ts.seconds)
  else if ts.nanos < 0 ∨ 999999999 < ts.nanos then throw .rangeError
  else return ts

def splitEpoch (v perSecond nanosPerUnit : Int) : Timestamp :=
  let seconds := v.tdiv perSecond
  let remainder := v.tmod perSecond
  if remainder < 0 then ⟨seconds - 1, (remainder + perSecond) * nanosPerUnit⟩
  else ⟨seconds, remainder * nanosPerUnit⟩

def fromEpoch (v : Int) (unit : TimeUnit) : Except CelError Timestamp :=
  checkRange (splitEpoch v unit.perSecond unit.nanosPerUnit)

def timestampToEpoch (ts : Timestamp) (unit : TimeUnit) : Except CelError Int :=
  let epoch := ts.seconds * unit.perSecond + ts.nanos.tdiv unit.nanosPerUnit
  if MAX_SAFE_INTEGER < epoch ∨ epoch < -MAX_SAFE_INTEGER then throw (.unsafeEpoch epoch) else return epoch

/-! ## What is written is read back -/

theorem foldl_bytes (bs : Bytes) (r : Int) :
    bs.foldl (fun result (b : UInt8) => result * 256 + (b.toNat : Int)) r = r * 256 ^ bs.length + natBE bs := by
  induction bs generalizing r with
  | nil => simp [natBE, natLE]
  | cons b bs ih =>
    have hcons : natBE (b :: bs) = natBE bs + 256 ^ bs.length * b.toNat := by
      rw [natBE, List.reverse_cons, natLE_concat, List.length_reverse, natBE]
    rw [List.foldl_cons, ih, hcons, List.length_cons]
    push_cast
    ring

theorem bytesToBigIntSigned_eq (b : UInt8) (bs : Bytes) :
    bytesToBigIntSigned (b :: bs) = signed (bs.length + 1) (natBE (b :: bs)) := by
  have hlt : natBE (b :: bs) < 256 ^ (bs.length + 1) := by
    have h := natLE_lt (b :: bs).reverse
    rwa [List.length_reverse, List.length_cons] at h
  have hsign : 0x80 ≤ b.toNat ↔ 256 ^ (bs.length + 1) ≤ 2 * natBE (b :: bs) := by
    have h := sign_bit bs.reverse b
    rwa [List.length_reverse, ← List.reverse_cons] at h
  rw [signed_eq_ite _ _ hlt]
  simp only [bytesToBigIntSigned, foldl_bytes, zero_mul, zero_add, hsign]

theorem lt_bitLength (m : Nat) : m < 2 ^ bitLength m := by
  unfold bitLength
  split_ifs with h
  · omega
  · exact Nat.lt_log2_self

theorem pow_bitLength_le (bits : Nat) : 2 * 2 ^ bits ≤ 256 ^ ((bits + 8) / 8) := by
  have hpow : 256 ^ ((bits + 8) / 8) = 2 ^ (8 * ((bits + 8) / 8)) := by rw [pow_mul]; rfl
  rw [hpow, ← pow_succ']
  exact Nat.pow_le_pow_right (by norm_num) (by omega)

theorem fitsBytes_byteLen (n : Int) : FitsBytes (byteLen n) n := by
  have hlt := lt_bitLength (if n < 0 then -n - 1 else n).toNat
  have hle := pow_bitLength_le (bitLength (if n < 0 then -n - 1 else n).toNat)
  rw [← byteLen] at hle
  zify at hlt hle
  unfold FitsBytes
  split_ifs at hlt hle with hn
  · constructor <;> omega
  · constructor <;> omega

theorem unsigned_eq_ite {w : Nat} {n : Int} (h : FitsBytes w n) :
    unsigned w n = (if n < 0 then 256 ^ w + n else n).toNat := by
  have hpos : (0 : Int) < 256 ^ w := by positivity
  obtain ⟨h₁, h₂⟩ := h
  unfold unsigned
  split_ifs with hn
  · rw [Int.emod_eq_add_self_emod, add_comm n, Int.emod_eq_of_lt (by omega) (by omega)]
  · rw [Int.emod_eq_of_lt (by omega) (by omega)]

theorem bytesToBigIntSigned_bytesBE {w : Nat} (hw : 0 < w) {n : Int} (h : FitsBytes w n) :
    bytesToBigIntSigned (bytesBE w (unsigned w n)) = n := by
  have hlen := length_bytesBE w (unsigned w n)
  cases hbytes : bytesBE w (unsigned w n) with
  | nil =>
    rw [hbytes, List.length_nil] at hlen
    omega
  | cons b bs =>
    rw [hbytes, List.length_cons] at hlen
    rw [bytesToBigIntSigned_eq, hlen, ← hbytes, natBE_bytesBE, Nat.mod_eq_of_lt (unsigned_lt w n),
      signed_unsigned h]

theorem bytesToBigIntSigned_bigIntToTwosComplementBytes (n : Int) :
    bytesToBigIntSigned (bigIntToTwosComplementBytes n) = n := by
  by_cases hn : n = 0
  · subst hn
    rfl
  · have hpos : 0 < byteLen n := by
      unfold byteLen
      omega
    rw [bigIntToTwosComplementBytes, if_neg hn, ← unsigned_eq_ite (fitsBytes_byteLen n)]
    exact bytesToBigIntSigned_bytesBE hpos (fitsBytes_byteLen n)

theorem pow_trailingZeros_dvd (fuel n : Nat) : 10 ^ trailingZeros fuel n ∣ n := by
  induction fuel generalizing n with
  | zero => exact one_dvd n
  | succ fuel ih =>
    unfold trailingZeros
    split_ifs with h
    · rw [pow_succ']
      exact Nat.mul_dvd_of_dvd_div (Nat.dvd_of_mod_eq_zero h) (ih (n / 10))
    · exact one_dvd n

theorem pow_trailingZeros_dvd_int (n : Int) : (10 : Int) ^ trailingZeros n.natAbs n.natAbs ∣ n := by
  rw [← Int.dvd_natAbs]
  exact_mod_cast pow_trailingZeros_dvd n.natAbs n.natAbs

theorem plainUnscaled_mul (c : Int) (zeros scale : Nat) :
    plainUnscaled ⟨c, -scale + zeros⟩ scale = c * 10 ^ zeros := by
  have hpow : c.natAbs * 10 ^ (-(scale : Int) + zeros).toNat *
      10 ^ ((scale : Int) - (-(-(scale : Int) + zeros)).toNat).toNat = c.natAbs * 10 ^ zeros := by
    rw [mul_assoc, ← pow_add]
    congr 2
    omega
  have hshift : 0 ≤ (scale : Int) - (-(-(scale : Int) + zeros)).toNat := by omega
  simp only [plainUnscaled, if_pos hshift, hpow]
  split_ifs with hc
  · rw [Nat.cast_mul, Int.ofNat_natAbs_of_nonpos (le_of_lt hc)]
    push_cast
    ring
  · rw [Nat.cast_mul, Int.natAbs_of_nonneg (not_lt.mp hc)]
    push_cast
    ring

theorem plainUnscaled_new {unscaled : Int} (h : unscaled ≠ 0) (scale : Nat) :
    plainUnscaled (Decimal.new unscaled (-scale)) scale = unscaled := by
  simp only [Decimal.new, if_neg h, plainUnscaled_mul]
  exact Int.ediv_mul_cancel (pow_trailingZeros_dvd_int unscaled)

theorem isZero_new (unscaled exponent : Int) : (Decimal.new unscaled exponent).isZero = decide (unscaled = 0) := by
  by_cases h : unscaled = 0
  · simp [Decimal.new, Decimal.isZero, h]
  · have hmul := Int.ediv_mul_cancel (pow_trailingZeros_dvd_int unscaled)
    have hne : unscaled / 10 ^ trailingZeros unscaled.natAbs unscaled.natAbs ≠ 0 := by
      intro hzero
      rw [hzero, zero_mul] at hmul
      exact h hmul.symm
    simp [Decimal.new, Decimal.isZero, h, hne]

theorem neg_exponent_new_le (unscaled : Int) (scale : Nat) : -(Decimal.new unscaled (-scale)).exponent ≤ scale := by
  unfold Decimal.new
  split_ifs
  · simp
  · simp

/-- The bytes and the scale of a decimal are such that no guard refuses it. -/
structure Narrow (value : Bytes) (scale : Nat) : Prop where
  places : scale ≤ MAX_DECIMAL_PLACES
  bytes : value.length * 301 / 125 + 1 ≤ SANE_COEFFICIENT
  plain : plainFormLength (Decimal.new (bytesToBigIntSigned value) (-scale)) ≤ SANE_WIDTH
  coefficient : rescaledDigits scale (Decimal.new (bytesToBigIntSigned value) (-scale)) ≤ SANE_COEFFICIENT

theorem requireSaneWidth_of_le {needed limit : Nat} (h : needed ≤ limit) : requireSaneWidth needed limit = .ok () :=
  if_neg (not_lt.mpr h)

theorem decimalToUnscaled_new {value : Bytes} {scale : Nat} (h : Narrow value scale) :
    decimalToUnscaled (Decimal.new (bytesToBigIntSigned value) (-scale)) scale = .ok
      (bytesToBigIntSigned value) := by
  simp only [decimalToUnscaled, requireSaneWidth_of_le h.plain, requireSaneWidth_of_le h.coefficient, isZero_new]
  by_cases hzero : bytesToBigIntSigned value = 0
  · simp [hzero, pure, Except.pure, bind, Except.bind]
  · simp [hzero, plainUnscaled_new hzero, pure, Except.pure, bind, Except.bind]

theorem toProtoDecimalWithScale_new {value : Bytes} {scale : Nat} (h : Narrow value scale) :
    toProtoDecimalWithScale (Decimal.new (bytesToBigIntSigned value) (-scale)) scale =
      .ok ⟨bigIntToTwosComplementBytes (bytesToBigIntSigned value), scale⟩ := by
  have hscale : ¬((scale : Int) < -2147483648 ∨ (INT32_MAX : Int) < scale) := by
    have hplaces := h.places
    simp only [MAX_DECIMAL_PLACES] at hplaces
    simp only [INT32_MAX]
    omega
  rw [toProtoDecimalWithScale, if_neg hscale, decimalToUnscaled_new h]
  rfl

theorem decimalFromBytesScale_eq {value : Bytes} {scale : Nat} (h : Narrow value scale) :
    decimalFromBytesScale value scale = .ok ⟨bigIntToTwosComplementBytes (bytesToBigIntSigned value), scale⟩ := by
  have hscale : ¬INT32_MAX < scale := by
    have hplaces := h.places
    simp only [MAX_DECIMAL_PLACES] at hplaces
    simp only [INT32_MAX]
    omega
  rw [decimalFromBytesScale, if_neg hscale, requireSaneWidth_of_le h.bytes]
  exact toProtoDecimalWithScale_new h

/-- A decimal comes back with the fewest bytes that hold it. -/
theorem decimalToAvroBytes_eq {value : Bytes} {scale : Nat} (h : Narrow value scale) :
    decimalToAvroBytes ⟨bigIntToTwosComplementBytes (bytesToBigIntSigned value), scale⟩ scale =
      .ok (bigIntToTwosComplementBytes (bytesToBigIntSigned value)) := by
  have hplaces := neg_exponent_new_le (bytesToBigIntSigned value) scale
  simp only [decimalToAvroBytes, fromProtoDecimal, bytesToBigIntSigned_bigIntToTwosComplementBytes,
    Decimal.toDecimalPlaces, if_neg (not_lt.mpr h.places), if_pos hplaces, pure_bind, toProtoDecimalWithScale_new h]
  rfl

/-! ## Timestamps within the range come back -/

def InRange (unit : TimeUnit) (v : Int) : Prop :=
  MIN_TIMESTAMP_SECONDS ≤ v / unit.perSecond ∧ v / unit.perSecond ≤ MAX_TIMESTAMP_SECONDS

instance (unit : TimeUnit) (v : Int) : Decidable (InRange unit v) := inferInstanceAs (Decidable (_ ∧ _))

theorem splitEpoch_eq {perSecond : Int} (h : 0 < perSecond) (v nanosPerUnit : Int) :
    splitEpoch v perSecond nanosPerUnit = ⟨v / perSecond, v % perSecond * nanosPerUnit⟩ := by
  have hnonneg := Int.emod_nonneg v (ne_of_gt h)
  have hlt := Int.emod_lt_of_pos v h
  have hsign : perSecond.sign = 1 := Int.sign_eq_one_of_pos h
  have habs : (perSecond.natAbs : Int) = perSecond := Int.natAbs_of_nonneg (le_of_lt h)
  simp only [splitEpoch, Int.tdiv_eq_ediv, Int.tmod_eq_emod, hsign]
  by_cases hexact : 0 ≤ v ∨ perSecond ∣ v
  · simp only [if_pos hexact, Nat.cast_zero, sub_zero, add_zero, if_neg (not_lt.mpr hnonneg)]
  · have hneg : v % perSecond - perSecond < 0 := by omega
    simp only [if_neg hexact, habs, if_pos hneg, sub_add_cancel, add_sub_cancel_right]

theorem perSecond_pos (unit : TimeUnit) : 0 < unit.perSecond := by
  cases unit <;> decide

theorem perSecond_mul_nanosPerUnit (unit : TimeUnit) : unit.perSecond * unit.nanosPerUnit = 1000000000 := by
  cases unit <;> rfl

theorem nanosPerUnit_pos (unit : TimeUnit) : 0 < unit.nanosPerUnit := by
  cases unit <;> decide

theorem fromEpoch_eq {unit : TimeUnit} {v : Int} (h : InRange unit v) :
    fromEpoch v unit = .ok ⟨v / unit.perSecond, v % unit.perSecond * unit.nanosPerUnit⟩ := by
  have hrange : ¬(v / unit.perSecond < MIN_TIMESTAMP_SECONDS ∨ MAX_TIMESTAMP_SECONDS < v / unit.perSecond) := by
    rintro (hlow | hhigh)
    · exact absurd h.1 (not_le.mpr hlow)
    · exact absurd h.2 (not_le.mpr hhigh)
  have hnonneg : 0 ≤ v % unit.perSecond * unit.nanosPerUnit :=
    mul_nonneg (Int.emod_nonneg v (ne_of_gt (perSecond_pos unit))) (le_of_lt (nanosPerUnit_pos unit))
  have hlt : v % unit.perSecond * unit.nanosPerUnit < 1000000000 := by
    rw [← perSecond_mul_nanosPerUnit unit]
    exact mul_lt_mul_of_pos_right (Int.emod_lt_of_pos v (perSecond_pos unit)) (nanosPerUnit_pos unit)
  have hnanos : ¬(v % unit.perSecond * unit.nanosPerUnit < 0 ∨ 999999999 < v % unit.perSecond *
    unit.nanosPerUnit) := by
    omega
  rw [fromEpoch, splitEpoch_eq (perSecond_pos unit)]
  simp only [checkRange, if_neg hrange, if_neg hnanos]
  rfl

theorem timestampToEpoch_eq {v : Int} (h : -MAX_SAFE_INTEGER ≤ v ∧ v ≤ MAX_SAFE_INTEGER) (unit : TimeUnit) :
    timestampToEpoch ⟨v / unit.perSecond, v % unit.perSecond * unit.nanosPerUnit⟩ unit = .ok v := by
  have hnanos : (v % unit.perSecond * unit.nanosPerUnit).tdiv unit.nanosPerUnit = v % unit.perSecond :=
    Int.mul_tdiv_cancel _ (ne_of_gt (nanosPerUnit_pos unit))
  have hepoch : v / unit.perSecond * unit.perSecond + v % unit.perSecond = v :=
    Int.ediv_mul_add_emod v unit.perSecond
  have hsafe : ¬(MAX_SAFE_INTEGER < v ∨ v < -MAX_SAFE_INTEGER) := by
    rintro (hhigh | hlow)
    · exact absurd h.2 (not_le.mpr hhigh)
    · exact absurd h.1 (not_le.mpr hlow)
  simp only [timestampToEpoch, hnanos, hepoch, if_neg hsafe]
  rfl

end Cel

end ConfluentKafka
