import Mathlib.Data.List.Basic
import Mathlib.Tactic.Ring

/-!
# Digits of natural numbers

The text of a number in base ten, cut before its last digits: what stands in front is the text of a
quotient, and what is cut off has zeros in front where the number is short.
-/

namespace ConfluentKafka

namespace DigitText

/-- The last `count` digits of a number, with zeros in front where it has fewer. -/
def lastDigits : Nat → Nat → List Char
  | 0, _ => []
  | count + 1, n => lastDigits count (n / 10) ++ [Nat.digitChar (n % 10)]

@[simp] theorem length_lastDigits (count n : Nat) : (lastDigits count n).length = count := by
  induction count generalizing n with
  | zero => rfl
  | succ count ih => simp [lastDigits, ih]

theorem isDigit_of_mem_lastDigits {count n : Nat} {c : Char} (h : c ∈ lastDigits count n) : c.isDigit = true := by
  induction count generalizing n with
  | zero => simp [lastDigits] at h
  | succ count ih =>
    simp only [lastDigits, List.mem_append, List.mem_singleton] at h
    rcases h with h | h
    · exact ih h
    · have hmem : c ∈ Nat.toDigits 10 (n % 10) := by
        rw [Nat.toDigits_of_lt_base (Nat.mod_lt n (by decide))]
        exact List.mem_singleton.mpr h
      exact Nat.isDigit_of_mem_toDigits (by decide) (by decide) hmem

/-- The text of a number, padded so that a digit stands in front of the last ones. -/
theorem leftpad_toDigits (count n : Nat) :
    List.leftpad (count + 1) '0' (Nat.toDigits 10 n) = Nat.toDigits 10 (n / 10 ^ count) ++ lastDigits count n := by
  induction count generalizing n with
  | zero =>
    have hpos : 0 < (Nat.toDigits 10 n).length := Nat.length_toDigits_pos
    have hzero : 0 + 1 - (Nat.toDigits 10 n).length = 0 := by omega
    simp [List.leftpad, lastDigits, hzero]
  | succ count ih =>
    have hdiv : n / 10 ^ (count + 1) = n / 10 / 10 ^ count := by rw [pow_succ', Nat.div_div_eq_div_mul]
    rw [lastDigits, hdiv, ← List.append_assoc, ← ih]
    by_cases hn : n < 10
    · have hsmall : n / 10 = 0 := Nat.div_eq_of_lt hn
      rw [Nat.toDigits_of_lt_base hn, hsmall, Nat.toDigits_zero, Nat.mod_eq_of_lt hn]
      simp [List.leftpad, List.replicate_succ']
    · have hlength : (Nat.toDigits 10 n).length = (Nat.toDigits 10 (n / 10)).length + 1 := by
        rw [Nat.toDigits_of_base_le (by decide) (Nat.le_of_not_lt hn), List.length_append]
        rfl
      have hpad : count + 1 + 1 - (Nat.toDigits 10 n).length = count + 1 - (Nat.toDigits 10 (n / 10)).length := by
        omega
      simp only [List.leftpad, hpad]
      rw [List.append_assoc, Nat.toDigits_of_base_le (by decide) (Nat.le_of_not_lt hn)]

theorem length_toDigits_div (count n : Nat) :
    (Nat.toDigits 10 (n / 10 ^ count)).length + count = max (count + 1) (Nat.toDigits 10 n).length := by
  have h := congrArg List.length (leftpad_toDigits count n)
  rw [List.length_leftpad, List.length_append, length_lastDigits] at h
  exact h.symm

/-- Cutting a number does not change it. -/
theorem ofDigitChars_cut (count n : Nat) :
    Nat.ofDigitChars 10 (Nat.toDigits 10 (n / 10 ^ count) ++ lastDigits count n) 0 = n := by
  rw [← leftpad_toDigits, List.leftpad, Nat.ofDigitChars_append, Nat.ofDigitChars_replicate_zero, Nat.mul_zero,
    Nat.ofDigitChars_ten_toDigits]

theorem toDigits_mul_pow {n : Nat} (hn : 0 < n) (k : Nat) :
    Nat.toDigits 10 (n * 10 ^ k) = Nat.toDigits 10 n ++ List.replicate k '0' := by
  induction k with
  | zero => simp
  | succ k ih =>
    have hpos : 0 < n * 10 ^ k := Nat.mul_pos hn (Nat.pow_pos (by decide))
    have hsplit : n * 10 ^ (k + 1) = 10 * (n * 10 ^ k) + 0 := by ring
    rw [hsplit, ← Nat.toDigits_append_toDigits (by decide) hpos (by decide), ih, Nat.toDigits_zero,
      List.replicate_succ',
      List.append_assoc]

/-! ## How many digits there are -/

theorem length_toDigits_mul_pow {n : Nat} (hn : 0 < n) (k : Nat) :
    (Nat.toDigits 10 (n * 10 ^ k)).length = (Nat.toDigits 10 n).length + k := by
  rw [toDigits_mul_pow hn, List.length_append, List.length_replicate]

theorem pow_le_of_length_toDigits {n k : Nat} (hn : 0 < n) (h : k < (Nat.toDigits 10 n).length) : 10 ^ k ≤ n := by
  rcases Nat.eq_zero_or_pos k with rfl | hk
  · exact hn
  · by_contra hlt
    have hle := (Nat.length_toDigits_le_iff (by decide) hk).mpr (Nat.lt_of_not_le hlt)
    omega

theorem lt_length_of_pow_le {n k : Nat} (h : 10 ^ k ≤ n) : k < (Nat.toDigits 10 n).length := by
  rcases Nat.eq_zero_or_pos k with rfl | hk
  · exact Nat.length_toDigits_pos
  · by_contra hle
    have hlt := (Nat.length_toDigits_le_iff (by decide) hk).mp (Nat.le_of_not_lt hle)
    omega

theorem lt_pow_length_toDigits (n : Nat) : n < 10 ^ (Nat.toDigits 10 n).length :=
  (Nat.length_toDigits_le_iff (by decide) Nat.length_toDigits_pos).mp (Nat.le_refl _)

end DigitText

end ConfluentKafka
