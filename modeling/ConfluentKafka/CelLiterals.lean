import ConfluentKafka.CelText
import ConfluentKafka.NumberLiterals

/-!
# Decimals from literals

`decimal(v)` of `decimal-funcs.ts` for strings and finite numbers. The arithmetic library reads the value
of the text, and a regular expression reads its scale. The forms of the library's grammar that are not
plain are a parameter.
-/

namespace ConfluentKafka

namespace Cel

open Json NumberLiteral

/-! ## What the library makes of a text -/

/-- A `Decimal` of the library, which may not be finite. -/
inductive LibDecimal where
  | finite (d : Decimal) (normal : d.Normal)
  | infinite
  | nan

def MAX_E : Int := 9000000000000000

def limited (d : Decimal) (h : d.Normal) : LibDecimal :=
  if MAX_E < d.e then .infinite
  else if d.e < -MAX_E then .finite ⟨0, 0⟩ (by decide)
  else .finite d h

def decimalOfLiteral (l : NumberLiteral) : LibDecimal :=
  limited (Decimal.new l.unscaled (l.exponentValue - l.fractionDigits.length)) (normal_new _ _)

/-- What `new Decimal` makes of the texts that are not plain, where it does not throw: digits with separators
between them, literals with the prefixes `0x`, `0b` and `0o`, and the texts of what is not finite. -/
abbrev OtherForms := JsString → Option LibDecimal

/-- The text of a plain literal: a sign, digits before or behind a point, and an exponent. -/
def plainLiteral (text : JsString) : Option NumberLiteral := (scan text).filter NumberLiteral.hasDigits

def newDecimal (other : OtherForms) (text : JsString) : Option LibDecimal :=
  match plainLiteral text with
  | some l => some (decimalOfLiteral l)
  | none => other text

/-! ## Numbers -/

/-- A finite number as the language writes it: zero, or the digits of a number and the place of the point. -/
inductive JsNumber where
  | zero
  | digits (negative : Bool) (s : Nat) (pos : 0 < s) (n : Int)

def digitUnits (n : Nat) : JsString := (Nat.toDigits 10 n).map unit

def numberLiteral : JsNumber → NumberLiteral
  | .zero => ⟨false, digitUnits 0, none, none⟩
  | .digits negative s _ n =>
    let k := (digitUnits s).length
    if -6 < n ∧ n ≤ 21 then
      if k ≤ n then ⟨negative, digitUnits s ++ List.replicate (n - k).toNat (unit '0'), none, none⟩
      else if 0 < n then ⟨negative, (digitUnits s).take n.toNat, some ((digitUnits s).drop n.toNat), none⟩
      else ⟨negative, digitUnits 0, some (List.replicate (-n).toNat (unit '0') ++ digitUnits s), none⟩
    else
      ⟨negative, (digitUnits s).take 1, if k = 1 then none else some ((digitUnits s).drop 1),
        some (n - 1 < 0, digitUnits (n - 1).natAbs)⟩

/-- The arguments of `decimal`, but for decimals, integers and bytes. -/
inductive DecimalArg where
  | text (s : JsString)
  | number (x : JsNumber)

def DecimalArg.string : DecimalArg → JsString
  | .text s => s
  | .number x => (numberLiteral x).text

def DecimalArg.fromDouble : DecimalArg → Bool
  | .text _ => false
  | .number _ => true

/-! ## The constructor -/

def literalScale (text : JsString) (fromDouble : Bool) : Int :=
  match scan (Utf16.trim text) with
  | none => 0
  | some l =>
    let fractionDigits := if fromDouble ∧ l.fractionDigits.length = 0 then 1 else l.fractionDigits.length
    fractionDigits - l.exponentValue

def scaleOf (v : DecimalArg) : Int := literalScale v.string v.fromDouble

def decimalOf (other : OtherForms) (v : DecimalArg) : Except CelError LibDecimal :=
  match newDecimal other v.string with
  | some d => .ok d
  | none => .error .invalidNumber

def decimalToCelScaled (d : LibDecimal) (scale : Int) : Except CelError ProtoDecimal :=
  match d with
  | .finite d _ => toProtoDecimalWithScale d scale
  | _ => if scale < -2147483648 ∨ INT32_MAX < scale then .error .scaleRange else .error .syntaxError

def fromConstructorArg (other : OtherForms) (v : DecimalArg) : Except CelError ProtoDecimal := do
  let d ← decimalOf other v
  decimalToCelScaled d (scaleOf v)

/-! ## Values and scales -/

def Holds (d : Decimal) (scale : Int) : Prop := ∃ n : Int, d.value * 10 ^ scale = n

def Refuses (d : Decimal) (scale : Int) : Prop := scale < -2147483648 ∨ INT32_MAX < scale ∨ ¬Fits d scale

theorem holds_of_isZero {d : Decimal} (h : d.isZero = true) (scale : Int) : Holds d scale :=
  ⟨0, by rw [(value_eq_zero_iff d).mpr h, zero_mul, Int.cast_zero]⟩

theorem not_ok_of_refuses {d : Decimal} {scale : Int} (h : Refuses d scale) (p : ProtoDecimal) :
    toProtoDecimalWithScale d scale ≠ .ok p := by
  unfold toProtoDecimalWithScale
  by_cases hrange : scale < -2147483648 ∨ INT32_MAX < scale
  · rw [if_pos hrange]
    intro hok
    cases hok
  · rw [if_neg hrange]
    have hfits : ¬Fits d scale := by
      unfold Refuses at h
      tauto
    unfold decimalToUnscaled
    obtain ⟨hwide, -⟩ | ⟨hplain, hle⟩ := requireSaneWidth_cases (plainFormLength d) SANE_WIDTH
    · rw [hwide]
      intro hok
      cases hok
    obtain ⟨hwide, -⟩ | ⟨-, hle'⟩ := requireSaneWidth_cases (rescaledDigits scale d) SANE_COEFFICIENT
    · rw [hplain, hwide]
      intro hok
      cases hok
    · exact absurd ⟨hle, hle'⟩ hfits

theorem ok_of_not_refuses {d : Decimal} {scale : Int} (h : ¬Refuses d scale) :
    ∃ p, toProtoDecimalWithScale d scale = .ok p ∧ p.scale = scale := by
  have hrange : ¬(scale < -2147483648 ∨ INT32_MAX < scale) := by
    unfold Refuses at h
    tauto
  have hfits : Fits d scale := by
    unfold Refuses at h
    tauto
  rw [toProtoDecimalWithScale, if_neg hrange, decimalToUnscaled, requireSaneWidth_of_le hfits.1,
    requireSaneWidth_of_le hfits.2]
  exact ⟨_, rfl, rfl⟩

/-- A decimal is written as it is at the scales that hold it, and at no others. -/
theorem written_iff {d : Decimal} (hd : d.Normal) (scale : Int) :
    (∀ p, toProtoDecimalWithScale d scale = .ok p → p.number = d.value) ↔ Holds d scale ∨ Refuses d scale := by
  constructor
  · intro h
    by_cases href : Refuses d scale
    · exact .inr href
    · obtain ⟨p, hp, hscale⟩ := ok_of_not_refuses href
      refine .inl ⟨bytesToBigIntSigned p.value, ?_⟩
      rw [← h p hp, ← hscale]
      exact number_mul_scale p
  · rintro (⟨n, hn⟩ | href) p hp
    · have hrange : ¬Refuses d scale := fun href => not_ok_of_refuses href p hp
      simp only [Refuses, not_or, not_lt] at hrange
      obtain ⟨-, -, needed, limit, herr⟩ | ⟨-, r, hr, hnumber, -⟩ :=
        toProtoDecimalWithScale_cases hd hrange.1 hrange.2.1 hn
      · rw [hp] at herr
        cases herr
      · rw [hp] at hr
        obtain rfl := Except.ok.inj hr
        exact hnumber
    · exact absurd hp (not_ok_of_refuses href p)

/-! ## The constructor and its literal -/

/-- The constructor throws, or what it makes is the number that the library reads. -/
def Preserves (other : OtherForms) (v : DecimalArg) : Prop :=
  ∀ p, fromConstructorArg other v = .ok p →
    ∃ d normal, newDecimal other v.string = some (.finite d normal) ∧ p.number = d.value

theorem preserves_iff_scale (other : OtherForms) (v : DecimalArg) :
    Preserves other v ↔ ∀ d normal, newDecimal other v.string = some (.finite d normal) →
      Holds d (scaleOf v) ∨ Refuses d (scaleOf v) := by
  unfold Preserves fromConstructorArg decimalOf
  have hthrows : ∀ p, decimalToCelScaled .infinite (scaleOf v) ≠ .ok p ∧ decimalToCelScaled .nan
    (scaleOf v) ≠ .ok p := by
    intro p
    unfold decimalToCelScaled
    constructor
    · split_ifs <;> simp
    · split_ifs <;> simp
  cases hnew : newDecimal other v.string with
  | none =>
    constructor
    · intro _ d normal h
      cases h
    · intro _ p h
      cases h
  | some read =>
    simp only [ok_bind]
    cases read with
    | finite d normal =>
      have hiff := written_iff normal (scaleOf v)
      constructor
      · intro h d' normal' he
        obtain rfl : d = d' := by simpa using he
        apply hiff.mp
        intro p hp
        obtain ⟨d', _, he', hnumber⟩ := h p hp
        obtain rfl : d = d' := by simpa using he'
        exact hnumber
      · intro h p hp
        exact ⟨d, normal, rfl, hiff.mpr (h d normal rfl) p hp⟩
    | infinite =>
      constructor
      · intro _ d normal he
        cases he
      · intro _ p hp
        exact absurd hp (hthrows p).1
    | nan =>
      constructor
      · intro _ d normal he
        cases he
      · intro _ p hp
        exact absurd hp (hthrows p).2

/-! ## Plain literals -/

def DecimalArg.Plain : DecimalArg → Prop
  | .text s => (plainLiteral s).isSome = true
  | .number _ => True

theorem holds_new (u e : Int) {scale : Int} (h : 0 ≤ e + scale) : Holds (Decimal.new u e) scale := by
  refine ⟨u * 10 ^ (e + scale).toNat, ?_⟩
  rw [value_new, mul_assoc, ← zpow_add₀ (by norm_num)]
  push_cast
  rw [← zpow_natCast, Int.toNat_of_nonneg h]

theorem holds_limited {d d' : Decimal} {h : d.Normal} {h' : d'.Normal}
    (he : limited d h = .finite d' h') {scale : Int}
    (hs : Holds d scale) : Holds d' scale := by
  unfold limited at he
  split_ifs at he
  · cases he
    exact holds_of_isZero rfl scale
  · cases he
    exact hs

theorem length_digitUnits_pos (n : Nat) : 0 < (digitUnits n).length := by
  rw [digitUnits, List.length_map]
  exact Nat.length_toDigits_pos

theorem all_isDigit_digitUnits (n : Nat) : (digitUnits n).all isDigit = true :=
  all_isDigit_map_unit fun _ => NumberLiteral.isDigit_of_mem_toDigits

theorem all_isDigit_replicate (k : Nat) : (List.replicate k (unit '0')).all isDigit = true := by
  rw [List.all_eq_true]
  intro c hc
  rw [List.eq_of_mem_replicate hc]
  decide

theorem wellFormed_numberLiteral (x : JsNumber) : (numberLiteral x).WellFormed := by
  cases x with
  | zero => exact ⟨all_isDigit_digitUnits 0, rfl, by simp [numberLiteral]⟩
  | digits negative s pos n =>
    have htake : ∀ k, ((digitUnits s).take k).all isDigit = true := fun k =>
      List.all_eq_true.mpr fun c hc => List.all_eq_true.mp (all_isDigit_digitUnits s) c (List.mem_of_mem_take hc)
    have hdrop : ∀ k, ((digitUnits s).drop k).all isDigit = true := fun k =>
      List.all_eq_true.mpr fun c hc => List.all_eq_true.mp (all_isDigit_digitUnits s) c (List.mem_of_mem_drop hc)
    simp only [numberLiteral]
    split_ifs with hplain hint hpoint hone
    · refine ⟨?_, rfl, by simp⟩
      rw [List.all_append, all_isDigit_digitUnits, all_isDigit_replicate, Bool.and_self]
    · exact ⟨htake _, hdrop _, by simp⟩
    · refine ⟨all_isDigit_digitUnits 0, ?_, by simp⟩
      rw [fractionDigits, Option.getD_some, List.all_append, all_isDigit_digitUnits, all_isDigit_replicate,
        Bool.and_self]
    · refine ⟨htake 1, rfl, ?_⟩
      simp only [Option.some.injEq, forall_eq']
      exact ⟨List.ne_nil_of_length_pos (length_digitUnits_pos _), all_isDigit_digitUnits _⟩
    · refine ⟨htake 1, hdrop 1, ?_⟩
      simp only [Option.some.injEq, forall_eq']
      exact ⟨List.ne_nil_of_length_pos (length_digitUnits_pos _), all_isDigit_digitUnits _⟩

theorem int_numberLiteral_ne_nil (x : JsNumber) : (numberLiteral x).int ≠ [] := by
  have hne : ∀ s, digitUnits s ≠ [] := fun s => List.ne_nil_of_length_pos (length_digitUnits_pos s)
  cases x with
  | zero => exact hne 0
  | digits negative s pos n =>
    simp only [numberLiteral]
    split_ifs with hplain hint hpoint hone
    · simp [hne s]
    · have htake : n.toNat ≠ 0 := by omega
      simp [hne s, htake]
    · exact hne 0
    · simp [hne s]
    · simp [hne s]

theorem plainLiteral_number (x : JsNumber) : plainLiteral (numberLiteral x).text = some (numberLiteral x) := by
  rw [plainLiteral, scan_text (wellFormed_numberLiteral x), Option.filter_some, if_pos]
  simp [hasDigits, int_numberLiteral_ne_nil x]

theorem plainLiteral_of_plain {v : DecimalArg} (hv : v.Plain) : ∃ l, plainLiteral v.string = some l := by
  cases v with
  | text s => exact Option.isSome_iff_exists.mp hv
  | number x => exact ⟨_, plainLiteral_number x⟩

/-- The regular expression gives every plain literal a scale that holds it. -/
theorem holds_of_plain {other : OtherForms} {v : DecimalArg} (hv : v.Plain) {d : Decimal} {normal : d.Normal}
    (h : newDecimal other v.string = some (.finite d normal)) : Holds d (scaleOf v) := by
  obtain ⟨l, hl⟩ := plainLiteral_of_plain hv
  rw [newDecimal, hl] at h
  have hscan : scan v.string = some l := (Option.filter_eq_some_iff.mp hl).1
  apply holds_limited (Option.some.inj h)
  apply holds_new
  simp only [scaleOf, literalScale, trim_of_scan hscan, hscan]
  split_ifs <;> omega

/-- The constructor keeps the value of every number and of every plain literal. Of the other forms it keeps those
that their scale holds, and it throws for those that the encoder refuses. -/
theorem preserves_iff (other : OtherForms) (v : DecimalArg) :
    Preserves other v ↔ v.Plain ∨ ∀ d normal, newDecimal other v.string = some (.finite d normal) →
      Holds d (scaleOf v) ∨ Refuses d (scaleOf v) := by
  rw [preserves_iff_scale]
  constructor
  · intro h
    exact .inr h
  · rintro (hv | h) d normal hd
    · exact .inl (holds_of_plain hv hd)
    · exact h d normal hd

def readsHalf : OtherForms := fun s => if s = units "0x0.8" then some (.finite ⟨5, -1⟩ (by decide)) else none

/-- One half in base sixteen has no scale for the regular expression, and is cut to zero. -/
theorem preserves_fails :
    fromConstructorArg readsHalf (.text (units "0x0.8")) = .ok ⟨[0], 0⟩ ∧ ¬Preserves readsHalf
      (.text (units "0x0.8")) := by
  have hread : newDecimal readsHalf (units "0x0.8") = some (.finite ⟨5, -1⟩ (by decide)) := rfl
  have hresult : fromConstructorArg readsHalf (.text (units "0x0.8")) = .ok ⟨[0], 0⟩ := by
    unfold fromConstructorArg decimalOf
    simp only [DecimalArg.string, hread]
    rfl
  refine ⟨hresult, fun h => ?_⟩
  obtain ⟨d, normal, hd, hnumber⟩ := h ⟨[0], 0⟩ hresult
  rw [DecimalArg.string, hread] at hd
  obtain rfl : (⟨5, -1⟩ : Decimal) = d := by simpa using hd
  norm_num [ProtoDecimal.number, bytesToBigIntSigned, Decimal.value] at hnumber

end Cel

end ConfluentKafka
