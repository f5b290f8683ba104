import Mathlib.Data.Int.Log
import Mathlib.Data.Rat.Floor
import Mathlib.Tactic.FieldSimp
import Mathlib.Tactic.Linarith

/-!
# Rounding in base ten

Numbers are rounded to an integer, to a number of places behind the point or to a number of digits.
-/

namespace ConfluentKafka

/-! ## To an integer -/

def roundHalfUp (x : ℚ) : Int := if x < 0 then -⌊-x + 1 / 2⌋ else ⌊x + 1 / 2⌋

def roundDown (x : ℚ) : Int := if x < 0 then -⌊-x⌋ else ⌊x⌋

theorem roundHalfUp_intCast (k : Int) : roundHalfUp k = k := by
  have hfloor : ∀ k : Int, ⌊(k : ℚ) + 1 / 2⌋ = k := by
    intro k
    rw [Int.floor_eq_iff]
    constructor <;> linarith
  unfold roundHalfUp
  split_ifs
  · have hneg := hfloor (-k)
    push_cast at hneg
    rw [hneg, neg_neg]
  · exact hfloor k

theorem roundDown_intCast (k : Int) : roundDown k = k := by
  unfold roundDown
  split_ifs
  · rw [← Int.cast_neg, Int.floor_intCast, neg_neg]
  · exact Int.floor_intCast k

theorem roundHalfUp_neg (x : ℚ) : roundHalfUp (-x) = -roundHalfUp x := by
  have hzero : ⌊(0 : ℚ) + 1 / 2⌋ = 0 := by norm_num
  unfold roundHalfUp
  rcases lt_trichotomy x 0 with h | rfl | h
  · rw [if_neg (by linarith), if_pos h, neg_neg]
  · simp only [neg_zero, lt_irrefl, if_false, hzero]
  · rw [if_pos (by linarith), if_neg (by linarith), neg_neg]

theorem roundHalfUp_of_nonneg {x : ℚ} (h : 0 ≤ x) : roundHalfUp x = ⌊x + 1 / 2⌋ := if_neg (not_lt.mpr h)

theorem abs_roundHalfUp (x : ℚ) : |roundHalfUp x| = roundHalfUp |x| := by
  have hnonneg : ∀ y : ℚ, 0 ≤ y → 0 ≤ roundHalfUp y := by
    intro y hy
    rw [roundHalfUp_of_nonneg hy]
    exact Int.floor_nonneg.mpr (by linarith)
  rcases le_total 0 x with h | h
  · rw [abs_of_nonneg h, abs_of_nonneg (hnonneg x h)]
  · have hneg := hnonneg (-x) (by linarith)
    rw [abs_of_nonpos h, roundHalfUp_neg]
    rw [roundHalfUp_neg] at hneg
    exact abs_of_nonpos (by omega)

theorem roundHalfUp_mono {x y : ℚ} (hx : 0 ≤ x) (h : x ≤ y) : roundHalfUp x ≤ roundHalfUp y := by
  rw [roundHalfUp_of_nonneg hx, roundHalfUp_of_nonneg (hx.trans h)]
  exact Int.floor_mono (by linarith)

theorem roundHalfUp_natCast_div (n : Nat) {u : Nat} (hu : 0 < u) :
    roundHalfUp ((n : ℚ) / u) = ((2 * n + u) / (2 * u) : Nat) := by
  have hcast : (u : ℚ) ≠ 0 := by exact_mod_cast ne_of_gt hu
  have hnonneg : (0 : ℚ) ≤ (n : ℚ) / u := div_nonneg (Nat.cast_nonneg n) (Nat.cast_nonneg u)
  have hratio : (n : ℚ) / u + 1 / 2 = ((2 * n + u : Nat) : Int) / ((2 * u : Nat) : ℚ) := by
    push_cast
    field_simp
  rw [roundHalfUp_of_nonneg hnonneg, hratio, Rat.floor_intCast_div_natCast, Int.natCast_div]

/-! ## To digits -/

def digitPlace (precision : Nat) (x : ℚ) : Int := Int.log 10 |x| - (precision - 1)

def significand (precision : Nat) (x : ℚ) : Int := roundHalfUp (x / 10 ^ digitPlace precision x)

def roundDigits (precision : Nat) (x : ℚ) : ℚ := significand precision x * 10 ^ digitPlace precision x

theorem ten_zpow_pos (k : Int) : (0 : ℚ) < 10 ^ k := zpow_pos (by norm_num) k

theorem log_mul_zpow {x : ℚ} (hx : 0 < x) (k : Int) : Int.log 10 (x * 10 ^ k) = Int.log 10 x + k := by
  have hpos := mul_pos hx (ten_zpow_pos k)
  have hlow : (10 : ℚ) ^ Int.log 10 x ≤ x := by exact_mod_cast Int.zpow_log_le_self (by decide) hx
  have hhigh : x < (10 : ℚ) ^ (Int.log 10 x + 1) := by exact_mod_cast Int.lt_zpow_succ_log_self (by decide) x
  have h₁ : Int.log 10 x + k ≤ Int.log 10 (x * 10 ^ k) := by
    apply (Int.zpow_le_iff_le_log (by decide) hpos).mp
    push_cast
    rw [zpow_add₀ (by norm_num)]
    exact mul_le_mul_of_nonneg_right hlow (ten_zpow_pos k).le
  have h₂ : Int.log 10 (x * 10 ^ k) < Int.log 10 x + 1 + k := by
    apply (Int.lt_zpow_iff_log_lt (by decide) hpos).mp
    push_cast
    rw [zpow_add₀ (by norm_num)]
    exact mul_lt_mul_of_pos_right hhigh (ten_zpow_pos k)
  omega

theorem digitPlace_mul_zpow (precision : Nat) {x : ℚ} (hx : x ≠ 0) (k : Int) :
    digitPlace precision (x * 10 ^ k) = digitPlace precision x + k := by
  rw [digitPlace, digitPlace, abs_mul, abs_of_pos (ten_zpow_pos k), log_mul_zpow (abs_pos.mpr hx)]
  ring

theorem significand_mul_zpow (precision : Nat) {x : ℚ} (hx : x ≠ 0) (k : Int) :
    significand precision (x * 10 ^ k) = significand precision x := by
  rw [significand, significand, digitPlace_mul_zpow precision hx, zpow_add₀ (by norm_num),
    mul_div_mul_right _ _ (ne_of_gt (ten_zpow_pos k))]

theorem significand_zero (precision : Nat) : significand precision 0 = 0 := by
  rw [significand, zero_div]
  exact_mod_cast roundHalfUp_intCast 0

/-- The digits of a number that is not zero, of which the first is not zero. -/
theorem significand_bounds {precision : Nat} (hp : 0 < precision) {x : ℚ} (hx : x ≠ 0) :
    10 ^ (precision - 1) ≤ (significand precision x).natAbs ∧ (significand precision x).natAbs ≤
      10 ^ precision := by
  have habs := abs_pos.mpr hx
  have hplace := ten_zpow_pos (digitPlace precision x)
  have hlow : (10 : ℚ) ^ Int.log 10 |x| ≤ |x| := by exact_mod_cast Int.zpow_log_le_self (by decide) habs
  have hhigh : |x| < (10 : ℚ) ^ (Int.log 10 |x| + 1) := by exact_mod_cast Int.lt_zpow_succ_log_self (by decide) |x|
  have hscaled : |x / 10 ^ digitPlace precision x| = |x| / 10 ^ digitPlace precision x := by
    rw [abs_div, abs_of_pos hplace]
  have hfirst : ((10 ^ (precision - 1) : Nat) : ℚ) ≤ |x / 10 ^ digitPlace precision x| := by
    have hexp : Int.log 10 |x| = ((precision - 1 : Nat) : Int) + digitPlace precision x := by
      rw [digitPlace]
      omega
    rw [hexp, zpow_add₀ (by norm_num), zpow_natCast] at hlow
    rw [hscaled, le_div_iff₀ hplace]
    exact_mod_cast hlow
  have hlast : |x / 10 ^ digitPlace precision x| ≤ ((10 ^ precision : Nat) : ℚ) := by
    have hexp : Int.log 10 |x| + 1 = (precision : Int) + digitPlace precision x := by
      rw [digitPlace]
      omega
    rw [hexp, zpow_add₀ (by norm_num), zpow_natCast] at hhigh
    rw [hscaled, div_le_iff₀ hplace]
    exact_mod_cast hhigh.le
  have hround := abs_roundHalfUp (x / 10 ^ digitPlace precision x)
  have hcast : ∀ n : Nat, roundHalfUp (n : ℚ) = n := fun n => by exact_mod_cast roundHalfUp_intCast n
  have h₁ := roundHalfUp_mono (Nat.cast_nonneg _) hfirst
  have h₂ := roundHalfUp_mono (abs_nonneg _) hlast
  rw [hcast, ← hround, ← significand, Int.abs_eq_natAbs] at h₁ h₂
  exact ⟨by exact_mod_cast h₁, by exact_mod_cast h₂⟩

end ConfluentKafka
