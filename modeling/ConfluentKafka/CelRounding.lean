import ConfluentKafka.CelDivision

/-!
# Rounding decimals to a scale

`decimals.round` and `decimals.trunc` of `decimal-funcs.ts` with a target scale. A target that is not
negative goes to `toDP` of the library, a negative one to `toNearest`, and a zero to neither.
-/

namespace ConfluentKafka

namespace Cel

/-! ## Operations of the library -/

inductive RoundingMode where
  | halfUp
  | down
  deriving DecidableEq

def RoundingMode.round : RoundingMode → ℚ → Int
  | .halfUp => roundHalfUp
  | .down => roundDown

def Decimal.toDP (d : Decimal) (places : Int) (rm : RoundingMode) : Except CelError Decimal :=
  if (MAX_DECIMAL_PLACES : Int) < places then throw .decimalPlaces
  else if -d.exponent ≤ places then return d
  else return Decimal.new (rm.round (d.coefficient / (10 ^ (-d.exponent - places).toNat : Nat))) (-places)

def Decimal.toNearest (d : Decimal) (k : Int) (rm : RoundingMode) : Decimal :=
  Decimal.new (rm.round (d.coefficient * 10 ^ (d.exponent - k))) k

/-- The library takes a negative number of places only as a power of ten. -/
def Decimal.rescale (d : Decimal) (scale : Int) (rm : RoundingMode) : Except CelError Decimal :=
  if 0 ≤ scale then d.toDP scale rm else return d.toNearest (-scale) rm

theorem toDP_halfUp (d : Decimal) (scale : Nat) : d.toDP scale .halfUp = d.toDecimalPlaces scale := by
  have hpos : 0 < 10 ^ (-d.exponent - scale).toNat := Nat.pow_pos (by decide)
  unfold Decimal.toDP Decimal.toDecimalPlaces
  by_cases hplaces : MAX_DECIMAL_PLACES < scale
  · rw [if_pos (by exact_mod_cast hplaces), if_pos hplaces]
  rw [if_neg (by exact_mod_cast hplaces), if_neg hplaces]
  by_cases hexponent : -d.exponent ≤ scale
  · rw [if_pos hexponent, if_pos hexponent]
  rw [if_neg hexponent, if_neg hexponent]
  dsimp only
  rw [← roundHalfUp_natCast_div _ hpos, RoundingMode.round]
  by_cases hneg : d.coefficient < 0
  · have hcast : (d.coefficient : ℚ) = -(d.coefficient.natAbs : ℚ) := by
      rw [Nat.cast_natAbs, Int.cast_abs, abs_of_neg (by exact_mod_cast hneg), neg_neg]
    rw [if_pos hneg, hcast, neg_div, roundHalfUp_neg]
  · have hcast : (d.coefficient : ℚ) = (d.coefficient.natAbs : ℚ) := by
      rw [Nat.cast_natAbs, Int.cast_abs, abs_of_nonneg (by exact_mod_cast not_lt.mp hneg)]
    rw [if_neg hneg, ← hcast]

/-! ## Operations of rules -/

def requireIntScale (scale : Int) : Except CelError Int :=
  if scale < INT32_MIN ∨ INT32_MAX < scale then throw .scaleRange else return scale

def requireRescalable (d : Decimal) (targetScale : Int) : Except CelError Unit :=
  let cost := if targetScale < 0 then max (rescaledDigits targetScale d)
    (-targetScale).toNat else rescaledDigits targetScale d
  if d.isZero ∧ 0 ≤ targetScale then return () else requireSaneWidth cost SANE_WIDTH

def zeroAtScale (d : Decimal) (scale : Int) : Except CelError ProtoDecimal := toProtoDecimalWithScale d scale

def decimalsRound (a : ProtoDecimal) (scale : Int) : Except CelError ProtoDecimal := do
  let d := fromProtoDecimal a
  let n ← requireIntScale scale
  if d.isZero then zeroAtScale d n
  else
    requireRescalable d n
    let rounded ← d.rescale n .halfUp
    toProtoDecimalWithScale rounded n

def decimalsTrunc (a : ProtoDecimal) (scale : Int) : Except CelError ProtoDecimal := do
  let d := fromProtoDecimal a
  let target ← requireIntScale scale
  if d.isZero then zeroAtScale d target
  else
    requireRescalable d target
    if target < 0 then toProtoDecimalWithScale (d.toNearest (-target) .down) target
    else
      let current := a.scale
      if current ≤ target then toProtoDecimalWithScale d current
      else
        let truncated ← d.toDP target .down
        toProtoDecimalWithScale truncated target

/-! ## What the results are to be -/

def setScale (rm : RoundingMode) (x : ℚ) (scale : Int) : Int := rm.round (x * 10 ^ scale)

def IsAt (r : ProtoDecimal) (unscaled scale : Int) : Prop := bytesToBigIntSigned r.value = unscaled ∧
    r.scale = scale

def Rounds (a : ProtoDecimal) (t : Int) : Prop :=
  WidthError (decimalsRound a t) ∨ ∃ r, decimalsRound a t = .ok r ∧ IsAt r (setScale .halfUp a.number t) t

/-- Truncating leaves a number alone that has no more places than the target. -/
def Truncates (a : ProtoDecimal) (t : Int) : Prop :=
  WidthError (decimalsTrunc a t) ∨
    ∃ r, decimalsTrunc a t = .ok r ∧
      if a.scale ≤ t then r.number = a.number ∧ r.scale = a.scale else IsAt r (setScale .down a.number t) t

/-! ## Rounded values -/

theorem round_intCast (rm : RoundingMode) (k : Int) : rm.round k = k := by
  cases rm with
  | halfUp => exact roundHalfUp_intCast k
  | down => exact roundDown_intCast k

theorem toDP_of_lt {d : Decimal} {places : Int} (h : (MAX_DECIMAL_PLACES : Int) < places) (rm : RoundingMode) :
    d.toDP places rm = .error .decimalPlaces := if_pos h

theorem toDP_spec {d : Decimal} (hd : d.Normal) {places : Int} (h : places ≤ MAX_DECIMAL_PLACES)
    (rm : RoundingMode) :
    ∃ rounded, d.toDP places rm = .ok rounded ∧ rounded.Normal ∧
      rounded.value * 10 ^ places = setScale rm d.value places := by
  unfold Decimal.toDP setScale
  rw [if_neg (by omega)]
  by_cases hexponent : -d.exponent ≤ places
  · rw [if_pos hexponent]
    refine ⟨d, rfl, hd, ?_⟩
    have hint : ∃ n : Int, d.value * 10 ^ places = n := by
      refine ⟨d.coefficient * 10 ^ (d.exponent + places).toNat, ?_⟩
      rw [Decimal.value, mul_assoc, ← zpow_add₀ (by norm_num)]
      push_cast
      rw [← zpow_natCast, Int.toNat_of_nonneg (by omega)]
    obtain ⟨n, hn⟩ := hint
    rw [hn, round_intCast]
  · rw [if_neg hexponent]
    refine ⟨_, rfl, normal_new _ _, ?_⟩
    have hscaled : d.value * 10 ^ places = (d.coefficient : ℚ) / (10 ^ (-d.exponent - places).toNat : Nat) := by
      have hexp : d.exponent + places = -((-d.exponent - places).toNat : Int) := by omega
      rw [Decimal.value, mul_assoc, ← zpow_add₀ (by norm_num), hexp, zpow_neg, zpow_natCast, div_eq_mul_inv]
      push_cast
      rfl
    rw [value_new, mul_assoc, ← zpow_add₀ (by norm_num), neg_add_cancel, zpow_zero, mul_one, hscaled]

theorem toNearest_spec (d : Decimal) (places : Int) (rm : RoundingMode) :
    (d.toNearest (-places) rm).Normal ∧ (d.toNearest (-places) rm).value * 10 ^ places =
      setScale rm d.value places := by
  refine ⟨normal_new _ _, ?_⟩
  rw [Decimal.toNearest, value_new, mul_assoc, ← zpow_add₀ (by norm_num), neg_add_cancel, zpow_zero,
    mul_one, setScale,
    Decimal.value, mul_assoc, ← zpow_add₀ (by norm_num), sub_neg_eq_add]

theorem rescale_of_lt {d : Decimal} {scale : Int} (h : (MAX_DECIMAL_PLACES : Int) < scale) (rm : RoundingMode) :
    d.rescale scale rm = .error .decimalPlaces := by
  have hsign : 0 ≤ scale := (Int.natCast_nonneg _).trans h.le
  rw [Decimal.rescale, if_pos hsign, toDP_of_lt h]

theorem rescale_spec {d : Decimal} (hd : d.Normal) {scale : Int} (h : scale ≤ MAX_DECIMAL_PLACES)
    (rm : RoundingMode) :
    ∃ rounded, d.rescale scale rm = .ok rounded ∧ rounded.Normal ∧ rounded.value * 10 ^ scale =
      setScale rm d.value scale := by
  unfold Decimal.rescale
  by_cases hsign : 0 ≤ scale
  · rw [if_pos hsign]
    exact toDP_spec hd h rm
  · rw [if_neg hsign]
    exact ⟨_, rfl, toNearest_spec d scale rm⟩

theorem number_mul_scale (a : ProtoDecimal) : a.number * 10 ^ a.scale = bytesToBigIntSigned a.value := by
  rw [ProtoDecimal.number, mul_assoc, ← zpow_add₀ (by norm_num), neg_add_cancel, zpow_zero, mul_one]

/-! ## The branches -/

section

variable {a : ProtoDecimal} {t : Int}

theorem isZero_fromProtoDecimal (a : ProtoDecimal) : (fromProtoDecimal a).isZero = decide (a.number = 0) := by
  rw [Bool.eq_iff_iff, ← value_eq_zero_iff, value_fromProtoDecimal, decide_eq_true_eq]

theorem requireIntScale_of_int32 (hlow : -2147483648 ≤ t) (hhigh : t ≤ INT32_MAX) : requireIntScale t = .ok t := by
  rw [requireIntScale, INT32_MIN, if_neg (by omega)]
  rfl

theorem requireRescalable_cases (d : Decimal) (h : d.isZero = false) (t : Int) :
    (requireRescalable d t = .ok () ∧ rescaledDigits t d ≤ SANE_WIDTH ∧ (-t).toNat ≤ SANE_WIDTH) ∨
      ¬(rescaledDigits t d ≤ SANE_WIDTH ∧ (-t).toNat ≤ SANE_WIDTH) ∧ WidthError (requireRescalable d t) := by
  have hcost : (if t < 0 then max (rescaledDigits t d) (-t).toNat else rescaledDigits t d) = max
    (rescaledDigits t d) (-t).toNat := by
    split_ifs with hneg
    · rfl
    · rw [show (-t).toNat = 0 by omega, Nat.max_zero]
  have hrequire : requireRescalable d t = requireSaneWidth (max (rescaledDigits t d) (-t).toNat) SANE_WIDTH := by
    simp [requireRescalable, hcost, h]
  rw [hrequire]
  obtain ⟨herr, hlt⟩ | ⟨hok, hle⟩ := requireSaneWidth_cases (max (rescaledDigits t d) (-t).toNat) SANE_WIDTH
  · refine .inr ⟨fun hboth => ?_, _, _, herr⟩
    omega
  · exact .inl ⟨hok, by omega, by omega⟩

theorem written_at {d : Decimal} (hd : d.Normal) {n : Int} (hn : d.value * 10 ^ t = n) (hlow : -2147483648 ≤ t)
    (hhigh : t ≤ INT32_MAX) :
    WidthError (toProtoDecimalWithScale d t) ∨ ∃ r, toProtoDecimalWithScale d t = .ok r ∧ IsAt r n t := by
  obtain ⟨-, -, hwide⟩ | ⟨-, r, hok, -, hscale, hunscaled⟩ := toProtoDecimalWithScale_cases hd hlow hhigh hn
  · exact .inl hwide
  · exact .inr ⟨r, hok, hunscaled, hscale⟩

theorem written_zero {d : Decimal} (hd : d.Normal) (h : d.isZero = true) (hlow : -2147483648 ≤ t)
    (hhigh : t ≤ INT32_MAX) :
    ∃ r, zeroAtScale d t = .ok r ∧ IsAt r 0 t ∧ r.number = 0 := by
  have hzero := (value_eq_zero_iff d).mpr h
  obtain ⟨hne, -, -⟩ | ⟨-, r, hok, hnumber, hscale, hunscaled⟩ := toProtoDecimalWithScale_cases hd hlow hhigh
    (show d.value * 10 ^ t = (0 : Int) by rw [hzero, zero_mul, Int.cast_zero])
  · rw [h] at hne
    cases hne
  · exact ⟨r, hok, ⟨hunscaled, hscale⟩, hnumber.trans hzero⟩

theorem setScale_zero (rm : RoundingMode) (t : Int) : setScale rm 0 t = 0 := by
  rw [setScale, zero_mul]
  exact_mod_cast round_intCast rm 0

def InPlaces (a : ProtoDecimal) (t : Int) : Prop :=
  a.number ≠ 0 → (MAX_DECIMAL_PLACES : Int) < t → SANE_WIDTH < rescaledDigits t (fromProtoDecimal a)

theorem rounds_iff (hlow : -2147483648 ≤ t) (hhigh : t ≤ INT32_MAX) : Rounds a t ↔ InPlaces a t := by
  have hround : decimalsRound a t = if (fromProtoDecimal a).isZero then zeroAtScale (fromProtoDecimal a) t
      else requireRescalable (fromProtoDecimal a) t >>= fun _ => (fromProtoDecimal a).rescale t .halfUp >>=
        fun rounded =>
        toProtoDecimalWithScale rounded t := by
    rw [decimalsRound, requireIntScale_of_int32 hlow hhigh]
    rfl
  have hd := normal_fromProtoDecimal a
  unfold Rounds InPlaces
  rw [hround]
  by_cases h : (fromProtoDecimal a).isZero = true
  · have hzero : a.number = 0 := by simpa [isZero_fromProtoDecimal] using h
    obtain ⟨r, hok, hat, -⟩ := written_zero hd h hlow hhigh
    rw [if_pos h, hzero, setScale_zero]
    exact ⟨fun _ hne => absurd rfl hne, fun _ => .inr ⟨r, hok, hat⟩⟩
  · rw [if_neg h]
    rw [Bool.not_eq_true] at h
    have hne : a.number ≠ 0 := by simpa [isZero_fromProtoDecimal] using h
    rw [← value_fromProtoDecimal]
    obtain ⟨hok, hdigits, -⟩ | ⟨hwide, needed, limit, herr⟩ := requireRescalable_cases _ h t
    · rw [hok]
      by_cases hplaces : (MAX_DECIMAL_PLACES : Int) < t
      · rw [rescale_of_lt hplaces]
        constructor
        · rintro (⟨needed, limit, herr⟩ | ⟨r, hr, -⟩)
          · cases herr
          · cases hr
        · intro hin
          have hwide := hin (by rwa [value_fromProtoDecimal]) hplaces
          omega
      · obtain ⟨rounded, hrescale, hnormal, hvalue⟩ := rescale_spec hd (not_lt.mp hplaces) .halfUp
        rw [hrescale]
        exact ⟨fun _ _ hgt => absurd hgt hplaces, fun _ => written_at hnormal hvalue hlow hhigh⟩
    · rw [herr]
      refine ⟨fun _ _ hgt => ?_, fun _ => .inl ⟨needed, limit, rfl⟩⟩
      simp only [MAX_DECIMAL_PLACES] at hgt
      by_contra hle
      exact hwide ⟨Nat.le_of_not_lt hle, by omega⟩

/-- A zero is not given a finer scale than its own, and no other number a finer one that is negative. -/
def Coarsens (a : ProtoDecimal) (t : Int) : Prop :=
  (a.number = 0 → t ≤ a.scale) ∧ (a.number ≠ 0 → a.scale < t → t < 0 → ¬Fits (fromProtoDecimal a) t)

/-- At a scale that is not below its own, a number is written as it is or refused for its width. -/
theorem written_self (hlow : -2147483648 ≤ a.scale) (hhigh : a.scale ≤ INT32_MAX) :
    WidthError (toProtoDecimalWithScale (fromProtoDecimal a) a.scale) ∨
      ∃ r, toProtoDecimalWithScale (fromProtoDecimal a) a.scale = .ok r ∧ r.number = a.number ∧
        r.scale = a.scale := by
  have hn : (fromProtoDecimal a).value * 10 ^ a.scale = bytesToBigIntSigned a.value := by
    rw [value_fromProtoDecimal, number_mul_scale]
  obtain ⟨-, -, hwide⟩ | ⟨-, r, hok, hnumber, hscale, -⟩ :=
    toProtoDecimalWithScale_cases (normal_fromProtoDecimal a) hlow hhigh hn
  · exact .inl hwide
  · exact .inr ⟨r, hok, hnumber.trans (value_fromProtoDecimal a), hscale⟩

/-- At a finer scale that is negative, a number keeps its value and not its scale. -/
theorem truncates_coarse_iff (hlow : -2147483648 ≤ t) (hscale : a.scale < t) (ht : t < 0) (hne : a.number ≠ 0) :
    (WidthError (toProtoDecimalWithScale ((fromProtoDecimal a).toNearest (-t) .down) t) ∨
      ∃ r, toProtoDecimalWithScale ((fromProtoDecimal a).toNearest (-t) .down) t = .ok r ∧
        r.number = a.number ∧ r.scale = a.scale) ↔ ¬Fits (fromProtoDecimal a) t := by
  obtain ⟨hnormal, hvalue⟩ := toNearest_spec (fromProtoDecimal a) t .down
  -- the number is a multiple of the power of ten, so that nothing is cut off
  have hint : a.number * 10 ^ t = (bytesToBigIntSigned a.value * 10 ^ (t - a.scale).toNat : Int) := by
    rw [ProtoDecimal.number, mul_assoc, ← zpow_add₀ (by norm_num)]
    push_cast
    rw [← zpow_natCast, Int.toNat_of_nonneg (by omega)]
    congr 2
    ring
  have hsame : (fromProtoDecimal a).toNearest (-t) .down = fromProtoDecimal a := by
    apply eq_of_value hnormal (normal_fromProtoDecimal a)
    rw [value_fromProtoDecimal, setScale, hint, round_intCast, ← hint] at hvalue
    rw [value_fromProtoDecimal]
    exact mul_right_cancel₀ (ne_of_gt (ten_zpow_pos t)) hvalue
  have hn : (fromProtoDecimal a).value * 10 ^ t =
    (bytesToBigIntSigned a.value * 10 ^ (t - a.scale).toNat : Int) := by
    rw [value_fromProtoDecimal, hint]
  have hzero : (fromProtoDecimal a).isZero = false := by simpa [isZero_fromProtoDecimal] using hne
  rw [hsame]
  obtain ⟨-, hwide, herr⟩ | ⟨hfits, r, hok, -, hrscale, -⟩ :=
    toProtoDecimalWithScale_cases (normal_fromProtoDecimal a) hlow (ht.le.trans (Int.natCast_nonneg _)) hn
  · exact ⟨fun _ => hwide, fun _ => .inl herr⟩
  · refine ⟨fun h => ?_, fun h => ?_⟩
    · rcases h with ⟨needed, limit, herr⟩ | ⟨r', hok', -, hrscale'⟩
      · rw [hok] at herr
        cases herr
      · rw [hok] at hok'
        cases hok'
        omega
    · rcases hfits with hz | hfits
      · rw [hz] at hzero
        cases hzero
      · exact absurd hfits h

theorem truncates_iff (hlow : -2147483648 ≤ t) (hhigh : t ≤ INT32_MAX) (hslow : -2147483648 ≤ a.scale)
    (hshigh : a.scale ≤ INT32_MAX) : Truncates a t ↔ Coarsens a t ∧ (t < a.scale → InPlaces a t) := by
  have htrunc : decimalsTrunc a t = if (fromProtoDecimal a).isZero then zeroAtScale (fromProtoDecimal a) t
      else requireRescalable (fromProtoDecimal a) t >>= fun _ =>
        if t < 0 then toProtoDecimalWithScale ((fromProtoDecimal a).toNearest (-t) .down) t
        else if a.scale ≤ t then toProtoDecimalWithScale (fromProtoDecimal a) a.scale
        else (fromProtoDecimal a).toDP t .down >>= fun truncated => toProtoDecimalWithScale truncated t := by
    rw [decimalsTrunc, requireIntScale_of_int32 hlow hhigh]
    rfl
  have hd := normal_fromProtoDecimal a
  have hlimit : (MAX_DECIMAL_PLACES : Int) = 1000000000 := rfl
  unfold Truncates Coarsens InPlaces
  rw [htrunc]
  by_cases h : (fromProtoDecimal a).isZero = true
  · have hzero : a.number = 0 := by simpa [isZero_fromProtoDecimal] using h
    obtain ⟨r, hok, ⟨hunscaled, hscale⟩, hnumber⟩ := written_zero hd h hlow hhigh
    rw [if_pos h, hok]
    constructor
    · intro htruncates
      refine ⟨⟨fun _ => ?_, fun hne => absurd hzero hne⟩, fun _ hne => absurd hzero hne⟩
      rcases htruncates with ⟨needed, limit, herr⟩ | ⟨r', hr', hspec⟩
      · cases herr
      · cases hr'
        by_contra hlt
        rw [if_pos (by omega)] at hspec
        omega
    · rintro ⟨⟨hle, -⟩, -⟩
      refine .inr ⟨r, rfl, ?_⟩
      have hle := hle hzero
      by_cases hself : a.scale ≤ t
      · rw [if_pos hself, hnumber, hzero]
        exact ⟨rfl, by omega⟩
      · rw [if_neg hself, hzero, setScale_zero]
        exact ⟨hunscaled, hscale⟩
  rw [if_neg h]
  rw [Bool.not_eq_true] at h
  have hne : a.number ≠ 0 := by simpa [isZero_fromProtoDecimal] using h
  obtain ⟨hok, hdigits, hplaces⟩ | ⟨hwide, needed, limit, herr⟩ := requireRescalable_cases _ h t
  · rw [hok, ok_bind]
    by_cases hsign : t < 0
    · rw [if_pos hsign]
      by_cases hself : a.scale ≤ t
      · rcases Int.lt_or_eq_of_le hself with hlt | heq
        · simp only [if_pos hself]
          rw [truncates_coarse_iff hlow hlt hsign hne]
          exact ⟨fun hfits => ⟨⟨fun hz => absurd hz hne, fun _ _ _ => hfits⟩, fun hgt => by omega⟩, fun hall =>
            hall.1.2 hne hlt hsign⟩
        · -- the scale is the target, and nothing is cut off
          obtain ⟨hnormal, hvalue⟩ := toNearest_spec (fromProtoDecimal a) t .down
          have hspec := written_at hnormal hvalue hlow hhigh
          refine ⟨fun _ => ⟨⟨fun hz => absurd hz hne, fun _ hlt => by omega⟩, fun hgt => by omega⟩, fun _ => ?_⟩
          rcases hspec with hwide | ⟨r, hr, hunscaled, hscale⟩
          · exact .inl hwide
          · refine .inr ⟨r, hr, ?_⟩
            rw [if_pos hself, heq]
            refine ⟨?_, hscale⟩
            rw [ProtoDecimal.number, hunscaled, hscale, setScale, value_fromProtoDecimal, ← heq, number_mul_scale,
              round_intCast]
            rfl
      · obtain ⟨hnormal, hvalue⟩ := toNearest_spec (fromProtoDecimal a) t .down
        simp only [if_neg hself]
        rw [value_fromProtoDecimal] at hvalue
        refine ⟨fun _ => ⟨⟨fun hz => absurd hz hne, fun _ hlt => by omega⟩, fun _ _ hgt => by omega⟩, fun _ => ?_⟩
        exact written_at hnormal hvalue hlow hhigh
    · rw [if_neg hsign]
      by_cases hself : a.scale ≤ t
      · simp only [if_pos hself]
        refine ⟨fun _ => ⟨⟨fun hz => absurd hz hne, fun _ _ hlt => absurd hlt hsign⟩, fun hgt => by omega⟩, fun _ =>
          ?_⟩
        exact written_self hslow hshigh
      · simp only [if_neg hself]
        by_cases hlarge : (MAX_DECIMAL_PLACES : Int) < t
        · rw [toDP_of_lt hlarge]
          constructor
          · rintro (⟨needed, limit, herr⟩ | ⟨r, hr, -⟩)
            · cases herr
            · cases hr
          · rintro ⟨-, hin⟩
            have hwide := hin (by omega) hne hlarge
            omega
        · obtain ⟨rounded, htoDP, hnormal, hvalue⟩ := toDP_spec hd (not_lt.mp hlarge) .down
          rw [value_fromProtoDecimal] at hvalue
          rw [htoDP]
          refine ⟨fun _ => ⟨⟨fun hz => absurd hz hne, fun _ _ hlt => absurd hlt hsign⟩, fun _ _ hgt =>
            absurd hgt hlarge⟩, fun _ => ?_⟩
          exact written_at hnormal hvalue hlow hhigh
  · rw [herr]
    refine ⟨fun _ => ⟨⟨fun hz => absurd hz hne, fun _ hlt hsign hfits => ?_⟩, fun _ _ hgt => ?_⟩, fun _ =>
      .inl ⟨needed, limit, rfl⟩⟩
    · -- a plain form that is let through is not shorter than the power of ten
      obtain ⟨hplain, hcoefficient⟩ := hfits
      have hexponent : -a.scale ≤ (fromProtoDecimal a).exponent := by
        have hint := (isInt_iff hd h a.scale).mp ⟨_, by rw [value_fromProtoDecimal, number_mul_scale]⟩
        omega
      have hlimits : SANE_COEFFICIENT ≤ SANE_WIDTH := by decide
      have hdigits := digits_pos (fromProtoDecimal a)
      unfold plainFormLength at hplain
      exact hwide ⟨by omega, by omega⟩
    · by_contra hle
      exact hwide ⟨Nat.le_of_not_lt hle, by omega⟩

/-- Both functions meet `setScale` exactly where the target is not finer for a zero, nor finer and negative
for another number that is let through, and is within the places of the library. -/
theorem setScale_iff (hlow : -2147483648 ≤ t) (hhigh : t ≤ INT32_MAX) (hslow : -2147483648 ≤ a.scale)
    (hshigh : a.scale ≤ INT32_MAX) : Rounds a t ∧ Truncates a t ↔ Coarsens a t ∧ InPlaces a t := by
  rw [rounds_iff hlow hhigh, truncates_iff hlow hhigh hslow hshigh]
  constructor
  · rintro ⟨hin, hcoarsens, -⟩
    exact ⟨hcoarsens, hin⟩
  · rintro ⟨hcoarsens, hin⟩
    exact ⟨hin, hcoarsens, fun _ => hin⟩

end

/-- The number 12.34 to one place. -/
theorem setScale_iff_place : Rounds ⟨[0x04, 0xD2], 2⟩ 1 ∧ Truncates ⟨[0x04, 0xD2], 2⟩ 1 ↔
    Coarsens ⟨[0x04, 0xD2], 2⟩ 1 ∧ InPlaces ⟨[0x04, 0xD2], 2⟩ 1 :=
  setScale_iff (by decide) (by decide) (by decide) (by decide)

/-- A zero with one place gets four, and fifteen thousand loses its scale. -/
theorem setScale_zero_fails : ¬Truncates ⟨[0], 1⟩ 4 ∧ ¬Truncates ⟨[15], -3⟩ (-2) := by
  have hzero : (decimalsTrunc ⟨[0], 1⟩ 4).toOption = some ⟨[0], 4⟩ := by decide +kernel
  have hthousands : (decimalsTrunc ⟨[15], -3⟩ (-2)).toOption = some ⟨[0, 150], -2⟩ := by decide +kernel
  constructor
  · rintro (⟨needed, limit, herr⟩ | ⟨r, hr, hspec⟩)
    · rw [herr] at hzero
      cases hzero
    · rw [hr] at hzero
      cases hzero
      exact absurd hspec.2 (by decide)
  · rintro (⟨needed, limit, herr⟩ | ⟨r, hr, hspec⟩)
    · rw [herr] at hthousands
      cases hthousands
    · rw [hr] at hthousands
      cases hthousands
      exact absurd hspec.2 (by decide)

end Cel

end ConfluentKafka
