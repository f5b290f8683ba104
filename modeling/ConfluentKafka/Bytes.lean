import Mathlib.Data.List.Basic
import Mathlib.Tactic.NormNum
import Mathlib.Tactic.Positivity
import Mathlib.Tactic.Ring

/-!
# Numbers as bytes

Fixed-width numbers in both byte orders, and two's complement. Reading what was written gives
the number modulo the width, so a number that fits comes back as it was.
-/

namespace ConfluentKafka

abbrev Bytes := List UInt8

def natLE : Bytes → Nat
  | [] => 0
  | b :: bs => b.toNat + 256 * natLE bs

def bytesLE : Nat → Nat → Bytes
  | 0, _ => []
  | w + 1, n => UInt8.ofNat n :: bytesLE w (n / 256)

def natBE (bs : Bytes) : Nat := natLE bs.reverse

def bytesBE (w n : Nat) : Bytes := (bytesLE w n).reverse

@[simp] theorem length_bytesLE (w n : Nat) : (bytesLE w n).length = w := by
  induction w generalizing n with
  | zero => rfl
  | succ w ih => simp [bytesLE, ih]

@[simp] theorem length_bytesBE (w n : Nat) : (bytesBE w n).length = w := by
  simp [bytesBE]

theorem natLE_bytesLE (w n : Nat) : natLE (bytesLE w n) = n % 256 ^ w := by
  induction w generalizing n with
  | zero => simp [bytesLE, natLE, Nat.mod_one]
  | succ w ih =>
    have h : n % 256 ^ (w + 1) = n % 256 + 256 * (n / 256 % 256 ^ w) := by rw [Nat.pow_succ', Nat.mod_mul]
    rw [bytesLE, natLE, ih, UInt8.toNat_ofNat', h]

theorem natBE_bytesBE (w n : Nat) : natBE (bytesBE w n) = n % 256 ^ w := by
  rw [natBE, bytesBE, List.reverse_reverse, natLE_bytesLE]

theorem natLE_bytesLE_of_lt {w n : Nat} (h : n < 256 ^ w) : natLE (bytesLE w n) = n := by
  rw [natLE_bytesLE, Nat.mod_eq_of_lt h]

theorem natLE_lt (bs : Bytes) : natLE bs < 256 ^ bs.length := by
  induction bs with
  | nil => simp [natLE]
  | cons b bs ih =>
    have hb : b.toNat < 256 := b.toNat_lt
    rw [natLE, List.length_cons, Nat.pow_succ']
    omega

theorem natLE_concat (bs : Bytes) (b : UInt8) : natLE (bs ++ [b]) = natLE bs + 256 ^ bs.length * b.toNat := by
  induction bs with
  | nil => simp [natLE]
  | cons c bs ih =>
    rw [List.cons_append, natLE, ih, natLE, List.length_cons, Nat.pow_succ']
    ring

/-! ## Two's complement -/

def unsigned (w : Nat) (i : Int) : Nat := (i % 256 ^ w).toNat

def signed (w n : Nat) : Int := Int.bmod n (256 ^ w)

def FitsBytes (w : Nat) (i : Int) : Prop := -(256 ^ w) ≤ 2 * i ∧ 2 * i < 256 ^ w

instance (w : Nat) (i : Int) : Decidable (FitsBytes w i) := inferInstanceAs (Decidable (_ ∧ _))

theorem unsigned_lt (w : Nat) (i : Int) : unsigned w i < 256 ^ w := by
  have h : i % 256 ^ w < 256 ^ w := Int.emod_lt_of_pos i (by positivity)
  have h' : ((unsigned w i : Nat) : Int) < ((256 ^ w : Nat) : Int) := by
    rw [unsigned, Int.toNat_of_nonneg (Int.emod_nonneg i (by positivity))]
    exact_mod_cast h
  exact_mod_cast h'

theorem signed_unsigned {w : Nat} {i : Int} (h : FitsBytes w i) : signed w (unsigned w i) = i := by
  have hpos : (0 : Int) < 256 ^ w := by positivity
  rw [signed, unsigned, Int.toNat_of_nonneg (Int.emod_nonneg i (ne_of_gt hpos))]
  have hcast : ((256 ^ w : Nat) : Int) = (256 : Int) ^ w := by push_cast; rfl
  rw [← hcast, Int.emod_bmod]
  obtain ⟨h₁, h₂⟩ := h
  rw [← hcast] at h₁ h₂
  apply Int.bmod_eq_of_le_mul_two
  · omega
  · omega

theorem sign_bit (bs : Bytes) (b : UInt8) :
    0x80 ≤ b.toNat ↔ 256 ^ (bs.length + 1) ≤ 2 * natLE (bs ++ [b]) := by
  have hlt := natLE_lt bs
  have hb : b.toNat < 256 := b.toNat_lt
  rw [natLE_concat, Nat.pow_succ]
  constructor
  · intro h
    have : 256 ^ bs.length * 128 ≤ 256 ^ bs.length * b.toNat := Nat.mul_le_mul_left _ h
    omega
  · intro h
    by_contra hlow
    have : 256 ^ bs.length * b.toNat ≤ 256 ^ bs.length * 127 := Nat.mul_le_mul_left _ (by omega)
    omega

theorem signed_eq_ite (w n : Nat) (h : n < 256 ^ w) :
    signed w n = if 256 ^ w ≤ 2 * n then (n : Int) - 256 ^ w else n := by
  have hcast : ((256 ^ w : Nat) : Int) = (256 : Int) ^ w := by push_cast; rfl
  rw [signed, Int.bmod_def, ← hcast, Int.emod_eq_of_lt (by omega) (by omega)]
  split
  · rw [if_neg (by omega)]
  · rw [if_pos (by omega)]

end ConfluentKafka
