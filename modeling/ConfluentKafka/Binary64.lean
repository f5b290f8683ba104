import Mathlib.Data.Int.Log
import Mathlib.Data.Rat.Floor
import Mathlib.Tactic.Linarith
import Mathlib.Tactic.NormNum
import Mathlib.Tactic.FieldSimp
import Mathlib.Tactic.Positivity
import Mathlib.Tactic.Ring

/-!
# Binary floating point

Numbers are rounded to the nearest that have so many binary digits and no digit behind the least
place, to the even one of two. The two zeros are not told apart.
-/

namespace ConfluentKafka

/-! ## Rounding -/

def roundHalfEven (x : ℚ) : Int :=
  if x - ⌊x⌋ < 1 / 2 then ⌊x⌋
  else if 1 / 2 < x - ⌊x⌋ then ⌊x⌋ + 1
  else if ⌊x⌋ % 2 = 0 then ⌊x⌋
  else ⌊x⌋ + 1

theorem roundHalfEven_intCast (k : Int) : roundHalfEven k = k := by
  rw [roundHalfEven, Int.floor_intCast, if_pos (by norm_num)]

def lastPlace (precision : Nat) (least : Int) (x : ℚ) : Int := max (Int.log 2 |x| - (precision - 1)) least

def roundTo (precision : Nat) (least : Int) (x : ℚ) : ℚ :=
  roundHalfEven (x / 2 ^ lastPlace precision least x) * 2 ^ lastPlace precision least x

def Representable (precision : Nat) (least : Int) (x : ℚ) : Prop := ∃ k :
    Int, x = k * 2 ^ lastPlace precision least x

theorem roundTo_of_representable {precision : Nat} {least : Int} {x : ℚ} (h : Representable precision least x) :
    roundTo precision least x = x := by
  obtain ⟨k, hk⟩ := h
  have hpos : (2 : ℚ) ^ lastPlace precision least x ≠ 0 := zpow_ne_zero _ two_ne_zero
  have hquot : x / 2 ^ lastPlace precision least x = k := by
    rw [div_eq_iff hpos]
    exact hk
  rw [roundTo, hquot, roundHalfEven_intCast]
  exact hk.symm

/-! ## Doubles -/

inductive Double where
  | finite (x : ℚ)
  | infinite (negative : Bool)
  | nan
  deriving DecidableEq

def roundDouble (x : ℚ) : ℚ := roundTo 53 (-1074) x

def toDouble (x : ℚ) : Double :=
  if |roundDouble x| < 2 ^ 1024 then .finite (roundDouble x) else .infinite (decide (x < 0))

def Double.integer? : Double → Option Int
  | .finite x => if x.den = 1 then some x.num else none
  | .infinite _ => none
  | .nan => none

/-- The bits of a double: the sign, eleven digits of the exponent and 52 of the fraction. -/
def Double.bits : Double → BitVec 64
  | .finite x =>
    let place := lastPlace 53 (-1074) x
    let significand := ⌊|x| / 2 ^ place⌋.toNat
    let magnitude := if significand < 2 ^ 52 then significand else (place + 1075).toNat * 2 ^ 52 +
      (significand - 2 ^ 52)
    BitVec.ofNat 64 ((if x < 0 then 2 ^ 63 else 0) + magnitude)
  | .infinite negative => BitVec.ofNat 64 ((if negative then 2 ^ 63 else 0) + 2047 * 2 ^ 52)
  | .nan => BitVec.ofNat 64 (2047 * 2 ^ 52 + 2 ^ 51)

theorem roundDouble_natCast {n : Nat} (h : n < 2 ^ 53) : roundDouble n = n := by
  refine roundTo_of_representable ?_
  have hlog : Int.log 2 |(n : ℚ)| ≤ 52 := by
    rw [Nat.abs_cast, Int.log_natCast]
    have := Nat.log_lt_of_lt_pow' (b := 2) (by decide) h
    omega
  have hplace : lastPlace 53 (-1074) n ≤ 0 := by
    unfold lastPlace
    omega
  refine ⟨n * 2 ^ (-lastPlace 53 (-1074) n).toNat, ?_⟩
  have hexp : (2 : ℚ) ^ (-lastPlace 53 (-1074) n).toNat * 2 ^ lastPlace 53 (-1074) n = 1 := by
    rw [← zpow_natCast, Int.toNat_of_nonneg (by omega), ← zpow_add₀ (by norm_num)]
    simp
  push_cast
  rw [mul_assoc, hexp, mul_one]

theorem toDouble_natCast {n : Nat} (h : n < 2 ^ 53) : toDouble n = .finite n := by
  have hlt : (n : ℚ) < 2 ^ 53 := by exact_mod_cast h
  have hle : (2 : ℚ) ^ 53 ≤ 2 ^ 1024 := pow_le_pow_right₀ (by norm_num) (by decide)
  rw [toDouble, roundDouble_natCast h, if_pos]
  rw [Nat.abs_cast]
  exact hlt.trans_le hle

end ConfluentKafka
