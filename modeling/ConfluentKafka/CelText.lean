import ConfluentKafka.CelRounding
import ConfluentKafka.DigitText

/-!
# Decimals as texts

`string(d)` of `decimal-funcs.ts` and `decimalPlainString` of `decimal-utils.ts`. The first writes the
decimal of the arithmetic library at the scale of the message, behind a guard that measures the
decimal alone.
-/

namespace ConfluentKafka

namespace Cel

open DigitText

/-! ## The texts -/

def decimalPlainString (unscaled scale : Int) : String :=
  let sign := if unscaled < 0 then "-" else ""
  let digits := decimalDigits unscaled
  if scale = 0 then sign ++ String.ofList digits
  else if scale < 0 then sign ++ String.ofList digits ++ String.ofList (List.replicate (-scale).toNat '0')
  else
    let places := scale.toNat
    let digits := if digits.length ≤ places then List.replicate (places - digits.length + 1) '0' ++
      digits else digits
    let point := digits.length - places
    sign ++ String.ofList (digits.take point) ++ "." ++ String.ofList (digits.drop point)

def fixedText (negative : Bool) (n places : Nat) : String :=
  (if negative then "-" else "") ++ String.ofList (Nat.toDigits 10 (n / 10 ^ places)) ++
    (if places = 0 then "" else "." ++ String.ofList (lastDigits places n))

def Decimal.toFixed (d : Decimal) (places : Nat) : Except CelError String := do
  let rounded ← d.toDP places .halfUp
  return fixedText (d.coefficient < 0) (rounded.coefficient.natAbs * 10 ^ (rounded.exponent + places).toNat) places

/-- The digits behind the point that `stringExt` asks for. -/
def fractionPlaces (scale : Int) : Nat := (if 0 < scale then scale else 0).toNat

def stringExt (p : ProtoDecimal) : Except CelError String := do
  let d := fromProtoDecimal p
  requireSaneWidth (plainFormLength d) SANE_WIDTH
  d.toFixed (fractionPlaces p.scale)

/-! ## What is written -/

def writtenUnscaled (p : ProtoDecimal) : Nat := (bytesToBigIntSigned p.value).natAbs * 10 ^
    (fractionPlaces p.scale - p.scale).toNat

theorem coefficient_new_neg (c e : Int) : (Decimal.new c e).coefficient < 0 ↔ c < 0 := by
  by_cases hc : c = 0
  · simp [hc, Decimal.new]
  · obtain ⟨zeros, hcoefficient, -⟩ := exists_new_eq hc e
    have hpow : (0 : Int) < 10 ^ zeros := by positivity
    constructor
    · intro h
      rw [hcoefficient]
      exact mul_neg_of_neg_of_pos h hpow
    · intro h
      rw [hcoefficient] at h
      exact neg_of_mul_neg_left h hpow.le

theorem neg_exponent_le (p : ProtoDecimal) : -(fromProtoDecimal p).exponent ≤ fractionPlaces p.scale := by
  unfold fromProtoDecimal fractionPlaces
  by_cases hc : bytesToBigIntSigned p.value = 0
  · simp [hc, Decimal.new]
  · obtain ⟨zeros, -, hexponent⟩ := exists_new_eq hc (-p.scale)
    rw [hexponent]
    split_ifs <;> omega

/-- No digit of the message is lost, and none is added but zeros. -/
theorem toFixed_fromProtoDecimal (p : ProtoDecimal) (h : fractionPlaces p.scale ≤ MAX_DECIMAL_PLACES) :
    (fromProtoDecimal p).toFixed (fractionPlaces p.scale) =
      .ok (fixedText (bytesToBigIntSigned p.value < 0) (writtenUnscaled p) (fractionPlaces p.scale)) := by
  have hexponent := neg_exponent_le p
  have hle : -(fractionPlaces p.scale : Int) ≤ -p.scale := by
    unfold fractionPlaces
    split_ifs <;> omega
  have hunscaled := congrArg Int.natAbs (coefficient_mul_pow (bytesToBigIntSigned p.value) hle
    (show -(fractionPlaces p.scale : Int) ≤ (fromProtoDecimal p).exponent by omega))
  simp only [Int.natAbs_mul, Int.natAbs_pow, show (10 : Int).natAbs = 10 from rfl, sub_neg_eq_add] at hunscaled
  have hkept : (fromProtoDecimal p).toDP (fractionPlaces p.scale) .halfUp = .ok (fromProtoDecimal p) := by
    rw [Decimal.toDP, if_neg (by omega), if_pos hexponent]
    rfl
  have hneg : decide ((fromProtoDecimal p).coefficient < 0) = decide (bytesToBigIntSigned p.value < 0) :=
    decide_eq_decide.mpr (coefficient_new_neg _ _)
  have hshift : (fractionPlaces p.scale - p.scale).toNat = (-p.scale + fractionPlaces p.scale).toNat := by
    congr 1
    ring
  rw [Decimal.toFixed, hkept, ok_bind, hneg, writtenUnscaled, hshift, ← hunscaled]
  rfl

theorem toFixed_of_lt (d : Decimal) {places : Nat} (h : MAX_DECIMAL_PLACES < places) :
    d.toFixed places = .error .decimalPlaces := by
  rw [Decimal.toFixed, toDP_of_lt (by exact_mod_cast h)]
  rfl

/-- The three ways that `string(d)` ends. -/
theorem stringExt_cases (p : ProtoDecimal) :
    (SANE_WIDTH < plainFormLength (fromProtoDecimal p) ∧
        stringExt p = .error (.saneWidth (plainFormLength (fromProtoDecimal p)) SANE_WIDTH)) ∨
      (plainFormLength (fromProtoDecimal p) ≤ SANE_WIDTH ∧ MAX_DECIMAL_PLACES < fractionPlaces p.scale ∧
        stringExt p = .error .decimalPlaces) ∨
      (plainFormLength (fromProtoDecimal p) ≤ SANE_WIDTH ∧ fractionPlaces p.scale ≤ MAX_DECIMAL_PLACES ∧
        stringExt p =
          .ok (fixedText (bytesToBigIntSigned p.value < 0) (writtenUnscaled p) (fractionPlaces p.scale))) := by
  simp only [stringExt]
  obtain ⟨hwide, hlt⟩ | ⟨hok, hle⟩ := requireSaneWidth_cases (plainFormLength (fromProtoDecimal p)) SANE_WIDTH
  · rw [hwide]
    exact .inl ⟨hlt, rfl⟩
  · rw [hok, ok_bind]
    by_cases hplaces : MAX_DECIMAL_PLACES < fractionPlaces p.scale
    · exact .inr (.inl ⟨hle, hplaces, toFixed_of_lt _ hplaces⟩)
    · exact .inr (.inr ⟨hle, Nat.le_of_not_lt hplaces, toFixed_fromProtoDecimal p (Nat.le_of_not_lt hplaces)⟩)

/-! ## The length of the text -/

theorem length_fixedText (negative : Bool) (n places : Nat) :
    (fixedText negative n places).length =
      (if negative then 1 else 0) + max (places + 1) (Nat.toDigits 10 n).length +
      (if places = 0 then 0 else 1) := by
  have hdash : "-".length = 1 := by decide
  have hdot : ".".length = 1 := by decide
  rw [← length_toDigits_div]
  unfold fixedText
  cases negative
  · by_cases hplaces : places = 0
    · simp [hplaces]
    · simp [hplaces, hdot]
      omega
  · by_cases hplaces : places = 0
    · simp [hplaces, hdash]
    · simp [hplaces, hdash, hdot]
      omega

def coefficientDigits (p : ProtoDecimal) : Nat := (decimalDigits (bytesToBigIntSigned p.value)).length

def signLength (p : ProtoDecimal) : Nat := if bytesToBigIntSigned p.value < 0 then 1 else 0

/-- Rendering refuses the message for its width or keeps the bound. -/
def RenderGuarded (p : ProtoDecimal) : Prop :=
  WidthError (stringExt p) ∨ ∃ text, stringExt p = .ok text ∧ text.length ≤ max SANE_WIDTH (coefficientDigits p) + 3

theorem length_stringExt_of_pos {p : ProtoDecimal} (h : 0 < p.scale) :
    (fixedText (bytesToBigIntSigned p.value < 0) (writtenUnscaled p) (fractionPlaces p.scale)).length =
      signLength p + max (p.scale.toNat + 1) (coefficientDigits p) + 1 := by
  have hplaces : fractionPlaces p.scale = p.scale.toNat := by simp [fractionPlaces, h]
  have hshift : (fractionPlaces p.scale - p.scale).toNat = 0 := by omega
  have hne : p.scale.toNat ≠ 0 := by omega
  rw [length_fixedText, writtenUnscaled, hshift, pow_zero, mul_one, hplaces, if_neg hne]
  simp [signLength, coefficientDigits, decimalDigits]

/-- The plain form of an integer is as long as the guard says. -/
theorem length_stringExt_of_nonpos {p : ProtoDecimal} (h : p.scale ≤ 0) :
    (fixedText (bytesToBigIntSigned p.value < 0) (writtenUnscaled p) (fractionPlaces p.scale)).length ≤
      plainFormLength (fromProtoDecimal p) + 1 := by
  have hplaces : fractionPlaces p.scale = 0 := by
    unfold fractionPlaces
    rw [if_neg (not_lt.mpr h)]
    rfl
  have hsign : (if decide (bytesToBigIntSigned p.value < 0) = true then 1 else 0) ≤ 1 := by split_ifs <;> omega
  have hpos : 0 < (Nat.toDigits 10 (writtenUnscaled p)).length := Nat.length_toDigits_pos
  have hwritten : (Nat.toDigits 10 (writtenUnscaled p)).length ≤ plainFormLength (fromProtoDecimal p) := by
    by_cases hc : bytesToBigIntSigned p.value = 0
    · have hone : plainFormLength (fromProtoDecimal p) = 1 := by
        simp [plainFormLength, fromProtoDecimal, Decimal.new, hc, Decimal.digits, Decimal.isZero]
      simp [hone, writtenUnscaled, hc]
    · have hdigits := digits_new hc (-p.scale)
      have hexponent : 0 ≤ (fromProtoDecimal p).exponent := by
        have hle := neg_exponent_le p
        omega
      rw [writtenUnscaled, length_toDigits_mul_pow (Int.natAbs_pos.mpr hc), plainFormLength]
      unfold fromProtoDecimal at hexponent ⊢
      omega
  rw [length_fixedText, hplaces]
  simp only [if_true]
  omega

/-- The guard does its work where it refuses, and where the scale of the message is not out of proportion
to its digits. -/
theorem renderGuarded_iff (p : ProtoDecimal) :
    RenderGuarded p ↔ SANE_WIDTH < plainFormLength (fromProtoDecimal p) ∨
      p.scale ≤ MAX_DECIMAL_PLACES ∧ p.scale + signLength p ≤ (max SANE_WIDTH (coefficientDigits p) + 1 : Nat) := by
  unfold RenderGuarded
  obtain ⟨hwide, herr⟩ | ⟨hle, hplaces, herr⟩ | ⟨hle, hplaces, hok⟩ := stringExt_cases p
  · rw [herr]
    exact ⟨fun _ => .inl hwide, fun _ => .inl ⟨_, _, rfl⟩⟩
  · have hscale : ¬p.scale ≤ MAX_DECIMAL_PLACES := by
      unfold fractionPlaces at hplaces
      split_ifs at hplaces <;> omega
    rw [herr]
    constructor
    · rintro (⟨_, _, hwidth⟩ | ⟨_, htext, -⟩)
      · cases hwidth
      · cases htext
    · rintro (hwide | ⟨hscale', -⟩)
      · omega
      · exact absurd hscale' hscale
  · rw [hok]
    have hbound : (∃ text,
      (Except.ok (fixedText (bytesToBigIntSigned p.value < 0) (writtenUnscaled p) (fractionPlaces p.scale)) :
        Except CelError String) = .ok text ∧ text.length ≤ max SANE_WIDTH (coefficientDigits p) + 3) ↔
        (fixedText (bytesToBigIntSigned p.value < 0) (writtenUnscaled p) (fractionPlaces p.scale)).length ≤
          max SANE_WIDTH (coefficientDigits p) + 3 := by simp
    have hnone : ¬WidthError (Except.ok (fixedText (bytesToBigIntSigned p.value < 0) (writtenUnscaled p)
        (fractionPlaces p.scale)) : Except CelError String) := by
      rintro ⟨_, _, h⟩
      cases h
    have hsign : signLength p ≤ 1 := by
      unfold signLength
      split_ifs <;> omega
    simp only [hnone, false_or, hbound]
    by_cases hs : 0 < p.scale
    · have hscale : p.scale ≤ MAX_DECIMAL_PLACES := by
        rw [fractionPlaces, if_pos hs] at hplaces
        omega
      rw [length_stringExt_of_pos hs]
      constructor
      · intro h
        refine .inr ⟨hscale, ?_⟩
        omega
      · rintro (hwide | ⟨-, h⟩)
        · omega
        · omega
    · have hlength := length_stringExt_of_nonpos (not_lt.mp hs)
      constructor
      · intro _
        refine .inr ⟨by omega, by omega⟩
      · intro _
        omega

/-- A zero with twenty million places is written in full. -/
theorem renderGuarded_fails : ¬RenderGuarded ⟨[], 20000000⟩ := by
  obtain ⟨hwide, -⟩ | ⟨-, hplaces, -⟩ | ⟨-, -, hok⟩ := stringExt_cases ⟨[], 20000000⟩
  · exact absurd hwide (by decide)
  · exact absurd hplaces (by decide)
  · rintro (⟨_, _, herr⟩ | ⟨text, htext, hlength⟩)
    · rw [hok] at herr
      cases herr
    · rw [hok] at htext
      obtain rfl := Except.ok.inj htext
      rw [length_stringExt_of_pos (by decide)] at hlength
      exact absurd hlength (by decide)

end Cel

end ConfluentKafka
