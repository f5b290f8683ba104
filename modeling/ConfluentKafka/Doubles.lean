import Mathlib.Algebra.Order.Ring.Nat
import Mathlib.Data.Nat.Log
import Mathlib.Tactic.Positivity
import Mathlib.Tactic.Ring

/-!
# Whole numbers as doubles

A double has 53 significant bits, so a larger whole number is rounded to the nearest one that has,
to the even one of two. A double is written with the fewest digits that are rounded to it, up to 21
digits in full.
-/

namespace ConfluentKafka

/-! ## Rounding -/

def roundShift (n e : Nat) : Nat :=
  let q := n / 2 ^ e
  let r := n % 2 ^ e
  if 2 ^ e < 2 * r ∨ 2 * r = 2 ^ e ∧ q % 2 = 1 then q + 1 else q

def roundNat (n : Nat) : Nat := roundShift n (n.log2 - 52) * 2 ^ (n.log2 - 52)

def IsDouble (n : Nat) : Prop := roundNat n = n ∧ n < 2 ^ 1024

instance (n : Nat) : Decidable (IsDouble n) := inferInstanceAs (Decidable (_ ∧ _))

theorem le_roundShift (n e : Nat) : n / 2 ^ e ≤ roundShift n e := by
  unfold roundShift
  dsimp only
  split <;> omega

theorem roundShift_le (n e : Nat) : roundShift n e ≤ n / 2 ^ e + 1 := by
  unfold roundShift
  dsimp only
  split <;> omega

theorem roundShift_mono {m n : Nat} (h : m ≤ n) (e : Nat) : roundShift m e ≤ roundShift n e := by
  have hq : m / 2 ^ e ≤ n / 2 ^ e := Nat.div_le_div_right h
  rcases Nat.lt_or_eq_of_le hq with hlt | heq
  · exact (roundShift_le m e).trans (hlt.trans_le (le_roundShift n e))
  · have hm := Nat.div_add_mod m (2 ^ e)
    have hn := Nat.div_add_mod n (2 ^ e)
    rw [heq] at hm
    have hr : m % 2 ^ e ≤ n % 2 ^ e := by omega
    unfold roundShift
    dsimp only
    rw [heq]
    split <;> split <;> omega

theorem roundShift_zero (n : Nat) : roundShift n 0 = n := by
  simp [roundShift, Nat.mod_one]

theorem roundNat_of_lt {n : Nat} (h : n < 2 ^ 53) : roundNat n = n := by
  have hlog : n.log2 ≤ 52 := by
    rcases Nat.eq_zero_or_pos n with rfl | hpos
    · simp
    · have := (Nat.log2_lt (Nat.ne_of_gt hpos)).mpr h
      omega
  rw [roundNat, Nat.sub_eq_zero_of_le hlog, roundShift_zero, Nat.pow_zero, Nat.mul_one]

/-- Rounding does not leave the powers of two that a number is between. -/
theorem roundNat_le (n : Nat) : roundNat n ≤ 2 ^ (n.log2 + 1) := by
  have hlt : n < 2 ^ (n.log2 + 1) := Nat.lt_log2_self
  by_cases hlog : n.log2 ≤ 52
  · rw [roundNat, Nat.sub_eq_zero_of_le hlog, roundShift_zero]
    omega
  · have he : n.log2 + 1 = 53 + (n.log2 - 52) := by omega
    have hq : n / 2 ^ (n.log2 - 52) < 2 ^ 53 := by
      rw [Nat.div_lt_iff_lt_mul (by positivity), ← Nat.pow_add, ← he]
      exact hlt
    rw [he, Nat.pow_add, roundNat]
    exact Nat.mul_le_mul_right _ ((roundShift_le n _).trans hq)

theorem le_roundNat {n : Nat} (h : 0 < n) : 2 ^ n.log2 ≤ roundNat n := by
  have hle : 2 ^ n.log2 ≤ n := Nat.log2_self_le (Nat.ne_of_gt h)
  by_cases hlog : n.log2 ≤ 52
  · rw [roundNat, Nat.sub_eq_zero_of_le hlog, roundShift_zero]
    omega
  · have he : n.log2 = 52 + (n.log2 - 52) := by omega
    have hq : 2 ^ 52 ≤ n / 2 ^ (n.log2 - 52) := by
      rw [Nat.le_div_iff_mul_le (by positivity), ← Nat.pow_add, ← he]
      exact hle
    calc 2 ^ n.log2 = 2 ^ 52 * 2 ^ (n.log2 - 52) := by rw [← Nat.pow_add, ← he]
      _ ≤ roundNat n := Nat.mul_le_mul_right _ (hq.trans (le_roundShift n _))

theorem roundNat_mono {m n : Nat} (h : m ≤ n) : roundNat m ≤ roundNat n := by
  rcases Nat.eq_zero_or_pos m with rfl | hm
  · simp [roundNat, roundShift]
  have hn : 0 < n := hm.trans_le h
  have hlog : m.log2 ≤ n.log2 := (Nat.le_log2 (Nat.ne_of_gt hn)).mpr ((Nat.log2_self_le (Nat.ne_of_gt hm)).trans h)
  rcases Nat.lt_or_eq_of_le hlog with hlt | heq
  · calc roundNat m ≤ 2 ^ (m.log2 + 1) := roundNat_le m
      _ ≤ 2 ^ n.log2 := Nat.pow_le_pow_right (by decide) hlt
      _ ≤ roundNat n := le_roundNat hn
  · rw [roundNat, roundNat, heq]
    exact Nat.mul_le_mul_right _ (roundShift_mono h _)

theorem roundNat_zero : roundNat 0 = 0 := by
  simp [roundNat, roundShift]

/-! ## Digits -/

/-- The multiple of `10 ^ t` next to a double that is rounded to it, if there is one. -/
def candidate (n t : Nat) : Option Nat :=
  let low := n / 10 ^ t * 10 ^ t
  let high := low + 10 ^ t
  if roundNat low = n ∧ (roundNat high ≠ n ∨ n - low ≤ high - n) then some low
  else if roundNat high = n then some high
  else none

def shortest (n : Nat) : Nat → Nat
  | 0 => n
  | t + 1 => (candidate n (t + 1)).getD (shortest n t)

def trimZeros (cs : List Char) : List Char := (cs.reverse.dropWhile fun c => c = '0').reverse

def numberToString (n : Nat) : List Char :=
  if n < 10 ^ 21 then Nat.toDigits 10 (shortest n 21)
  else
    let ds := Nat.toDigits 10 (shortest n 308)
    let fraction := (trimZeros ds).tail
    ds.take 1 ++ ((if fraction = [] then [] else '.' :: fraction) ++
      ('e' :: '+' :: Nat.toDigits 10 (ds.length - 1)))

section Shortest

variable {n t : Nat}

theorem candidate_eq_some {m : Nat} (h : candidate n t = some m) : roundNat m = n ∧ 10 ^ t ∣ m := by
  unfold candidate at h
  dsimp only at h
  split at h
  · next hlow =>
    cases h
    exact ⟨hlow.1, Dvd.intro_left _ rfl⟩
  · split at h
    · next hhigh =>
      cases h
      exact ⟨hhigh, Nat.dvd_add (Dvd.intro_left _ rfl) (Nat.dvd_refl _)⟩
    · cases h

theorem candidate_of_dvd (hn : roundNat n = n) (h : 10 ^ t ∣ n) : candidate n t = some n := by
  unfold candidate
  dsimp only
  rw [Nat.div_mul_cancel h, if_pos ⟨hn, .inr (by omega)⟩]

/-- If any multiple is rounded to the double, one of the two next to it is. -/
theorem candidate_ne_none (hn : roundNat n = n) {m : Nat} (hm : roundNat m = n) (h : 10 ^ t ∣ m) :
    candidate n t ≠ none := by
  have hpos : 0 < 10 ^ t := by positivity
  obtain ⟨c, rfl⟩ := h
  have hdiv := Nat.div_add_mod n (10 ^ t)
  have hmod := Nat.mod_lt n hpos
  rw [Nat.mul_comm] at hdiv
  have hor : roundNat (n / 10 ^ t * 10 ^ t) = n ∨ roundNat (n / 10 ^ t * 10 ^ t + 10 ^ t) = n := by
    rcases Nat.lt_or_ge (n / 10 ^ t) c with hc | hc
    · right
      have hle : (n / 10 ^ t + 1) * 10 ^ t ≤ c * 10 ^ t := Nat.mul_le_mul_right _ hc
      rw [Nat.add_mul, Nat.one_mul, Nat.mul_comm c] at hle
      have h₁ := roundNat_mono hle
      have h₂ := roundNat_mono (show n ≤ n / 10 ^ t * 10 ^ t + 10 ^ t by omega)
      omega
    · left
      have hle : c * 10 ^ t ≤ n / 10 ^ t * 10 ^ t := Nat.mul_le_mul_right _ hc
      rw [Nat.mul_comm c] at hle
      have h₁ := roundNat_mono hle
      have h₂ := roundNat_mono (show n / 10 ^ t * 10 ^ t ≤ n by omega)
      omega
  unfold candidate
  dsimp only
  split
  · simp
  · next hlow =>
    split
    · simp
    · next hhigh =>
      rcases hor with h | h
      · exact absurd ⟨h, .inl hhigh⟩ hlow
      · exact absurd h hhigh

/-- The double is written in full exactly where no number with more zeros at its end is rounded to it. -/
theorem shortest_eq_self_iff (hn : roundNat n = n) (T : Nat) :
    shortest n T = n ↔ ∀ t ≤ T, ∀ m, roundNat m = n → 10 ^ t ∣ m → 10 ^ t ∣ n := by
  induction T with
  | zero =>
    refine iff_of_true rfl fun t ht m _ _ => ?_
    rw [Nat.le_zero.mp ht]
    exact Nat.one_dvd n
  | succ T ih =>
    rw [shortest]
    cases hc : candidate n (T + 1) with
    | none =>
      rw [Option.getD_none, ih]
      refine ⟨fun h t ht => ?_, fun h t ht => h t (ht.trans (Nat.le_succ T))⟩
      rcases Nat.lt_or_eq_of_le ht with hlt | rfl
      · exact h t (Nat.le_of_lt_succ hlt)
      · exact fun m hm hdvd => absurd hc (candidate_ne_none hn hm hdvd)
    | some c =>
      obtain ⟨hround, hdvd⟩ := candidate_eq_some hc
      rw [Option.getD_some]
      constructor
      · rintro rfl t ht m _ _
        exact (pow_dvd_pow 10 ht).trans hdvd
      · intro h
        have := candidate_of_dvd hn (h (T + 1) (Nat.le_refl _) c hround hdvd)
        rw [hc] at this
        exact Option.some.inj this

end Shortest

end ConfluentKafka
