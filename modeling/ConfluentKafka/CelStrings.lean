import ConfluentKafka.CelLiterals
import ConfluentKafka.VariantJson

/-!
# Texts of decimals are read back

The three functions that write a decimal in the plain form agree, and the constructor reads the text
back. The encoder takes fewer digits than the renderer writes.
-/

namespace ConfluentKafka

namespace Cel

open Json NumberLiteral DigitText

/-! ## Three renderers -/

theorem padded_eq (digits : List Char) (places : Nat) :
    (if digits.length ≤ places then List.replicate (places - digits.length + 1) '0' ++ digits else digits) =
      List.leftpad (places + 1) '0' digits := by
  unfold List.leftpad
  by_cases h : digits.length ≤ places
  · have hcount : places + 1 - digits.length = places - digits.length + 1 := by omega
    rw [if_pos h, hcount]
  · have hcount : places + 1 - digits.length = 0 := by omega
    simp [h, hcount]

/-- The digits are cut where the point stands. -/
theorem cut_padded (n places : Nat) :
    let digits := List.leftpad (places + 1) '0' (Nat.toDigits 10 n)
    digits.take (digits.length - places) = Nat.toDigits 10 (n / 10 ^ places) ∧
      digits.drop (digits.length - places) = lastDigits places n := by
  have hlength : (Nat.toDigits 10 (n / 10 ^ places)).length + places - places =
    (Nat.toDigits 10 (n / 10 ^ places)).length := by
    omega
  simp only [leftpad_toDigits, List.length_append, length_lastDigits, hlength, List.take_left',
    List.drop_left', and_self]

theorem variantPlainString_eq (unscaled : Int) (places : Nat) :
    ConfluentKafka.decimalPlainString unscaled places = fixedText (unscaled < 0) unscaled.natAbs places := by
  unfold ConfluentKafka.decimalPlainString fixedText decimalDigits
  by_cases hplaces : places = 0
  · simp [hplaces]
  · obtain ⟨htake, hdrop⟩ := cut_padded unscaled.natAbs places
    simp only [hplaces, if_false, padded_eq, htake, hdrop, decide_eq_true_eq, String.append_assoc]

theorem decimalPlainString_of_nonneg (unscaled : Int) (places : Nat) :
    decimalPlainString unscaled places = ConfluentKafka.decimalPlainString unscaled places := by
  unfold decimalPlainString ConfluentKafka.decimalPlainString
  by_cases hplaces : places = 0
  · simp [hplaces]
  · have hne : (places : Int) ≠ 0 := by exact_mod_cast hplaces
    have hneg : ¬(places : Int) < 0 := by omega
    simp only [hplaces, hne, hneg, if_false, Int.toNat_natCast]

theorem decimalPlainString_of_neg {unscaled scale : Int} (hu : unscaled ≠ 0) (h : scale < 0) :
    decimalPlainString unscaled scale = fixedText (unscaled < 0) (unscaled.natAbs * 10 ^ (-scale).toNat) 0 := by
  have hdigits := toDigits_mul_pow (Int.natAbs_pos.mpr hu) (-scale).toNat
  simp only [decimalPlainString, fixedText, decimalDigits, if_neg (ne_of_lt h), if_pos h, pow_zero,
    Nat.div_one, hdigits,
    String.ofList_append, if_true, String.append_empty, decide_eq_true_eq, String.append_assoc]

/-! ## Reading a plain form -/

theorem units_append (s t : String) : units (s ++ t) = units s ++ units t := by
  simp [units]

theorem units_ofList (cs : List Char) : units (String.ofList cs) = cs.map unit := by
  simp [units]

def fixedLiteral (negative : Bool) (n places : Nat) : NumberLiteral :=
  ⟨negative, digitUnits (n / 10 ^ places), if places = 0 then none else some ((lastDigits places n).map unit), none⟩

theorem units_fixedText (negative : Bool) (n places : Nat) :
    units (fixedText negative n places) = (fixedLiteral negative n places).text := by
  have hdash : units "-" = [unit '-'] := by decide
  have hdot : units "." = [unit '.'] := by decide
  unfold fixedText fixedLiteral NumberLiteral.text fractionText exponentText digitUnits
  rw [units_append, units_append, units_ofList]
  cases negative
  · by_cases hplaces : places = 0
    · simp [hplaces, units]
    · simp [hplaces, units_append, units_ofList, hdot]
      rfl
  · by_cases hplaces : places = 0
    · simp [hplaces, hdash]
      rfl
    · simp [hplaces, units_append, units_ofList, hdash, hdot]

theorem fractionDigits_fixedLiteral (negative : Bool) (n places : Nat) :
    (fixedLiteral negative n places).fractionDigits = (lastDigits places n).map unit := by
  unfold fixedLiteral fractionDigits
  by_cases hplaces : places = 0
  · simp [hplaces, lastDigits]
  · simp [hplaces]

theorem wellFormed_fixedLiteral (negative : Bool) (n places : Nat) :
    (fixedLiteral negative n places).WellFormed := by
  refine ⟨all_isDigit_digitUnits _, ?_, by simp [fixedLiteral]⟩
  rw [fractionDigits_fixedLiteral]
  exact all_isDigit_map_unit fun c hc => isDigit_of_mem_lastDigits hc

theorem plainLiteral_fixedText (negative : Bool) (n places : Nat) :
    plainLiteral (units (fixedText negative n places)) = some (fixedLiteral negative n places) := by
  have hint : (fixedLiteral negative n places).int ≠ [] := List.ne_nil_of_length_pos (length_digitUnits_pos _)
  rw [units_fixedText, plainLiteral, scan_text (wellFormed_fixedLiteral negative n places),
    Option.filter_some, if_pos]
  simp [hasDigits, hint]

theorem unscaled_fixedLiteral (negative : Bool) (n places : Nat) :
    (fixedLiteral negative n places).unscaled = if negative then -(n : Int) else n := by
  have hdigits : ∀ c ∈ Nat.toDigits 10 (n / 10 ^ places) ++ lastDigits places n, c.isDigit = true := by
    intro c hc
    rcases List.mem_append.mp hc with hc | hc
    · exact NumberLiteral.isDigit_of_mem_toDigits hc
    · exact isDigit_of_mem_lastDigits hc
  have hvalue : Json.digitsValue (digitUnits (n / 10 ^ places) ++ (lastDigits places n).map unit) = n := by
    rw [digitUnits, ← List.map_append, digitsValue_map_unit hdigits, ofDigitChars_cut]
  unfold unscaled
  rw [fractionDigits_fixedLiteral]
  simp only [fixedLiteral, hvalue]

theorem scale_fixedText (negative : Bool) (n places : Nat) :
    literalScale (units (fixedText negative n places)) false = places := by
  have hscan := (Option.filter_eq_some_iff.mp (plainLiteral_fixedText negative n places)).1
  simp only [literalScale, trim_of_scan hscan, hscan, fractionDigits_fixedLiteral, List.length_map,
    length_lastDigits]
  simp [NumberLiteral.exponentValue, fixedLiteral]

/-! ## Back to the message -/

def writtenInt (p : ProtoDecimal) : Int := if bytesToBigIntSigned p.value < 0 then -(writtenUnscaled p :
    Int) else writtenUnscaled p

theorem writtenInt_eq (p : ProtoDecimal) :
    writtenInt p = bytesToBigIntSigned p.value * 10 ^ (fractionPlaces p.scale - p.scale).toNat := by
  unfold writtenInt writtenUnscaled
  push_cast
  split_ifs with h
  · rw [abs_of_neg h]
    ring
  · rw [abs_of_nonneg (not_lt.mp h)]

theorem new_writtenInt (p : ProtoDecimal) : Decimal.new (writtenInt p) (-fractionPlaces p.scale) =
    fromProtoDecimal p := by
  have hle : p.scale ≤ fractionPlaces p.scale := by
    unfold fractionPlaces
    split_ifs <;> omega
  rw [writtenInt_eq, new_mul_pow, fromProtoDecimal]
  congr 1
  omega

theorem limited_of_narrow {d : Decimal} (h : d.Normal) (hw : plainFormLength d ≤ SANE_WIDTH) :
    limited d h = .finite d h := by
  have hwidth : SANE_WIDTH = 10000000 := rfl
  have hmax : MAX_E = 9000000000000000 := rfl
  have he : -10000001 ≤ d.e ∧ d.e ≤ 10000000 := by
    unfold plainFormLength at hw
    unfold Decimal.e
    split_ifs
    · omega
    · omega
  rw [limited, if_neg (by omega), if_neg (by omega)]

/-- The text of a message is read as the decimal that the message stands for. -/
theorem newDecimal_fixedText (other : OtherForms) {p : ProtoDecimal}
    (hw : plainFormLength (fromProtoDecimal p) ≤ SANE_WIDTH) :
    newDecimal other
      (units (fixedText (bytesToBigIntSigned p.value < 0) (writtenUnscaled p) (fractionPlaces p.scale))) =
      some (.finite (fromProtoDecimal p) (normal_fromProtoDecimal p)) := by
  have hdecimal : Decimal.new (fixedLiteral (bytesToBigIntSigned p.value < 0) (writtenUnscaled p)
    (fractionPlaces p.scale)).unscaled
      ((fixedLiteral (bytesToBigIntSigned p.value < 0) (writtenUnscaled p) (fractionPlaces p.scale)).exponentValue -
        (fixedLiteral (bytesToBigIntSigned p.value < 0) (writtenUnscaled p)
          (fractionPlaces p.scale)).fractionDigits.length) =
      fromProtoDecimal p := by
    rw [unscaled_fixedLiteral, fractionDigits_fixedLiteral, List.length_map, length_lastDigits, ← new_writtenInt]
    simp [writtenInt, NumberLiteral.exponentValue, fixedLiteral]
  simp only [newDecimal, plainLiteral_fixedText, decimalOfLiteral, hdecimal, limited_of_narrow
    (normal_fromProtoDecimal p) hw]

structure Rendered (other : OtherForms) (p : ProtoDecimal) (text : String) : Prop where
  plain : bytesToBigIntSigned p.value ≠ 0 ∨ 0 ≤ p.scale → text = decimalPlainString
    (bytesToBigIntSigned p.value) p.scale
  variant : ∀ places : Nat, p.scale = places →
    text = ConfluentKafka.decimalPlainString (bytesToBigIntSigned p.value) places
  reread : (Nat.toDigits 10 (writtenUnscaled p)).length ≤ SANE_COEFFICIENT →
    ∃ r, fromConstructorArg other (.text (units text)) = .ok r ∧ r.number = p.number ∧
      (0 ≤ p.scale → r.scale = p.scale)
  refused : SANE_COEFFICIENT < (Nat.toDigits 10 (writtenUnscaled p)).length →
    WidthError (fromConstructorArg other (.text (units text)))

theorem fractionPlaces_natCast (places : Nat) : fractionPlaces places = places := by
  unfold fractionPlaces
  split_ifs <;> omega

theorem writtenUnscaled_of_nonneg {p : ProtoDecimal} {places : Nat} (h : p.scale = places) :
    writtenUnscaled p = (bytesToBigIntSigned p.value).natAbs := by
  simp [writtenUnscaled, h, fractionPlaces_natCast]

/-- The constructor encodes the decimal at the places of the text. -/
theorem fromConstructorArg_fixedText (other : OtherForms) {p : ProtoDecimal}
    (hw : plainFormLength (fromProtoDecimal p) ≤ SANE_WIDTH) :
    fromConstructorArg other
        (.text (units (fixedText (bytesToBigIntSigned p.value < 0) (writtenUnscaled p) (fractionPlaces p.scale)))) =
      toProtoDecimalWithScale (fromProtoDecimal p) (fractionPlaces p.scale) := by
  simp only [fromConstructorArg, decimalOf, DecimalArg.string, newDecimal_fixedText other hw, scaleOf,
    DecimalArg.fromDouble,
    scale_fixedText, ok_bind, decimalToCelScaled]

theorem value_mul_places (p : ProtoDecimal) : (fromProtoDecimal p).value * 10 ^ (fractionPlaces p.scale : Int) =
    writtenInt p := by
  rw [← new_writtenInt, value_new, mul_assoc, ← zpow_add₀ (by norm_num)]
  simp

theorem natAbs_writtenInt (p : ProtoDecimal) : (writtenInt p).natAbs = writtenUnscaled p := by
  unfold writtenInt
  split_ifs <;> simp

/-- Encoding at the places of the text succeeds just when the coefficient is narrow. -/
theorem written_at_places {p : ProtoDecimal} (hw : plainFormLength (fromProtoDecimal p) ≤ SANE_WIDTH)
    (hplaces : fractionPlaces p.scale ≤ MAX_DECIMAL_PLACES) :
    ((Nat.toDigits 10 (writtenUnscaled p)).length ≤ SANE_COEFFICIENT →
      ∃ r, toProtoDecimalWithScale (fromProtoDecimal p) (fractionPlaces p.scale) = .ok r ∧ r.number = p.number ∧
        r.scale = fractionPlaces p.scale) ∧
      (SANE_COEFFICIENT < (Nat.toDigits 10 (writtenUnscaled p)).length →
        WidthError (toProtoDecimalWithScale (fromProtoDecimal p) (fractionPlaces p.scale))) := by
  have hd := normal_fromProtoDecimal p
  have hn := value_mul_places p
  have hlimits : (MAX_DECIMAL_PLACES : Int) ≤ INT32_MAX := by decide
  have hdigits := rescaledDigits_eq hd hn
  rw [natAbs_writtenInt] at hdigits
  obtain ⟨hzero, hwide, herr⟩ | ⟨hfits, r, hr, hnumber, hscale, -⟩ :=
    toProtoDecimalWithScale_cases hd (show (-2147483648 : Int) ≤ fractionPlaces p.scale by omega) (by omega) hn
  · refine ⟨fun hle => ?_, fun _ => herr⟩
    exact absurd ⟨hw, hdigits ▸ hle⟩ hwide
  · refine ⟨fun _ => ⟨r, hr, by rw [hnumber, value_fromProtoDecimal], hscale⟩, fun hlt => ?_⟩
    rcases hfits with hzero | hfit
    · have hone : rescaledDigits (fractionPlaces p.scale) (fromProtoDecimal p) = 1 := by
        rw [rescaledDigits, if_pos hzero]
      rw [← hdigits, hone] at hlt
      exact absurd hlt (by decide)
    · have hle := hfit.2
      rw [hdigits] at hle
      omega

/-- A text that `string(d)` gives is the plain form of the message, and the constructor reads it back
unless it has more digits than the encoder takes. -/
theorem stringExt_rendered (other : OtherForms) (p : ProtoDecimal) (text : String) (h : stringExt p = .ok text) :
    Rendered other p text := by
  obtain ⟨-, herr⟩ | ⟨-, -, herr⟩ | ⟨hw, hplaces, hok⟩ := stringExt_cases p
  · rw [herr] at h
    cases h
  · rw [herr] at h
    cases h
  rw [hok] at h
  obtain rfl := Except.ok.inj h
  have hvariant : ∀ places : Nat, p.scale = places →
      fixedText (bytesToBigIntSigned p.value < 0) (writtenUnscaled p) (fractionPlaces p.scale) =
        ConfluentKafka.decimalPlainString (bytesToBigIntSigned p.value) places := by
    intro places hs
    rw [variantPlainString_eq, writtenUnscaled_of_nonneg hs, hs, fractionPlaces_natCast]
  obtain ⟨hread, hrefused⟩ := written_at_places hw hplaces
  constructor
  · intro hp
    by_cases hs : 0 ≤ p.scale
    · obtain ⟨places, hplaces⟩ := Int.eq_ofNat_of_zero_le hs
      rw [hvariant places hplaces, hplaces]
      exact (decimalPlainString_of_nonneg _ _).symm
    · have hneg : p.scale < 0 := not_le.mp hs
      have hzero : fractionPlaces p.scale = 0 := by
        unfold fractionPlaces
        rw [if_neg (by omega)]
        rfl
      have hu : bytesToBigIntSigned p.value ≠ 0 := hp.resolve_right hs
      rw [decimalPlainString_of_neg hu hneg, writtenUnscaled, hzero]
      simp
  · exact hvariant
  · intro hle
    obtain ⟨r, hr, hnumber, hscale⟩ := hread hle
    refine ⟨r, ?_, hnumber, fun hs => ?_⟩
    · rw [fromConstructorArg_fixedText other hw, hr]
    · rw [hscale, fractionPlaces]
      split_ifs <;> omega
  · intro hlt
    rw [fromConstructorArg_fixedText other hw]
    exact hrefused hlt

/-- The number 19.90, which keeps its last zero. -/
theorem stringExt_rendered_cents : Rendered (fun _ => none) ⟨[0x07, 0xC6], 2⟩ "19.90" := by
  apply stringExt_rendered
  rfl

/-- The text is the plain form of the message and is read back, whatever its length. -/
def RendersExactly (other : OtherForms) (p : ProtoDecimal) : Prop :=
  ∀ text, stringExt p = .ok text →
    text = decimalPlainString (bytesToBigIntSigned p.value) p.scale ∧
      (∀ places : Nat, p.scale = places → text = ConfluentKafka.decimalPlainString
        (bytesToBigIntSigned p.value) places) ∧
      ∃ r, fromConstructorArg other (.text (units text)) = .ok r ∧ r.number = p.number ∧
        (0 ≤ p.scale → r.scale = p.scale)

/-- A one with five thousand zeros is written and not read, and a zero of scale -3 is written as one digit. -/
theorem rendersExactly_fails :
    ¬RendersExactly (fun _ => none) ⟨[1], -5000⟩ ∧ ¬RendersExactly (fun _ => none) ⟨[], -3⟩ := by
  constructor
  · intro h
    have hw : plainFormLength (fromProtoDecimal ⟨[1], -5000⟩) ≤ SANE_WIDTH := by decide
    have hplaces : fractionPlaces (-5000) ≤ MAX_DECIMAL_PLACES := by decide
    have hok : stringExt ⟨[1], -5000⟩ = .ok (fixedText (bytesToBigIntSigned [1] < 0) (writtenUnscaled ⟨[1], -5000⟩)
        (fractionPlaces (-5000))) := by
      rw [stringExt, requireSaneWidth_of_le hw, ok_bind]
      exact toFixed_fromProtoDecimal ⟨[1], -5000⟩ hplaces
    obtain ⟨-, -, r, hr, -⟩ := h _ hok
    have hwide : SANE_COEFFICIENT < (Nat.toDigits 10 (writtenUnscaled ⟨[1], -5000⟩)).length := by
      rw [writtenUnscaled, length_toDigits_mul_pow (by decide)]
      decide
    obtain ⟨_, _, herr⟩ := (written_at_places hw hplaces).2 hwide
    rw [fromConstructorArg_fixedText (fun _ => none) hw, herr] at hr
    cases hr
  · intro h
    obtain ⟨htext, -⟩ := h "0" rfl
    exact absurd htext (by decide)

end Cel

end ConfluentKafka
