import ConfluentKafka.Bytes
import Mathlib.Tactic.IntervalCases

/-!
# Base64

The standard alphabet with padding on the way out. On the way in both alphabets are read,
characters outside them are skipped and the first padding character ends the text. Decoding
what was encoded gives the bytes back.
-/

namespace ConfluentKafka

namespace Base64

def digit (n : Nat) : Char :=
  if n < 26 then Char.ofNat (n + 65)
  else if n < 52 then Char.ofNat (n + 71)
  else if n < 62 then Char.ofNat (n - 4)
  else if n = 62 then '+'
  else '/'

def value? (c : Char) : Option Nat :=
  if 65 ≤ c.toNat ∧ c.toNat ≤ 90 then some (c.toNat - 65)
  else if 97 ≤ c.toNat ∧ c.toNat ≤ 122 then some (c.toNat - 71)
  else if 48 ≤ c.toNat ∧ c.toNat ≤ 57 then some (c.toNat + 4)
  else if c = '+' ∨ c = '-' then some 62
  else if c = '/' ∨ c = '_' then some 63
  else none

def sextets : Bytes → List Nat
  | a :: b :: c :: bs =>
    a.toNat / 4 :: (a.toNat % 4 * 16 + b.toNat / 16) :: (b.toNat % 16 * 4 + c.toNat / 64) ::
      c.toNat % 64 :: sextets bs
  | [a, b] => [a.toNat / 4, a.toNat % 4 * 16 + b.toNat / 16, b.toNat % 16 * 4]
  | [a] => [a.toNat / 4, a.toNat % 4 * 16]
  | [] => []

/-- The bytes of groups of six bits; bits that fill no byte are dropped. -/
def octets : List Nat → Bytes
  | p :: q :: r :: s :: ds =>
    UInt8.ofNat (p * 4 + q / 16) :: UInt8.ofNat (q % 16 * 16 + r / 4) :: UInt8.ofNat (r % 4 * 64 + s) :: octets ds
  | [p, q, r] => [UInt8.ofNat (p * 4 + q / 16), UInt8.ofNat (q % 16 * 16 + r / 4)]
  | [p, q] => [UInt8.ofNat (p * 4 + q / 16)]
  | [_] => []
  | [] => []

def padding (n : Nat) : List Char := List.replicate ((3 - n % 3) % 3) '='

def encode (bs : Bytes) : List Char := (sextets bs).map digit ++ padding bs.length

def decode (cs : List Char) : Bytes := octets ((cs.takeWhile fun c => c ≠ '=').filterMap value?)

theorem value?_digit {n : Nat} (h : n < 64) : value? (digit n) = some n := by
  interval_cases n <;> decide

theorem digit_ne_padding {n : Nat} (h : n < 64) : digit n ≠ '=' := by
  interval_cases n <;> decide

theorem sextets_lt (bs : Bytes) : ∀ n ∈ sextets bs, n < 64 := by
  fun_induction sextets bs with
  | case1 a b c bs ih =>
    have ha := a.toNat_lt
    have hb := b.toNat_lt
    have hc := c.toNat_lt
    simp only [List.mem_cons]
    rintro n (rfl | rfl | rfl | rfl | hn)
    · omega
    · omega
    · omega
    · omega
    · exact ih n hn
  | case2 a b =>
    have ha := a.toNat_lt
    have hb := b.toNat_lt
    simp only [List.mem_cons, List.not_mem_nil, or_false]
    rintro n (rfl | rfl | rfl) <;> omega
  | case3 a =>
    have ha := a.toNat_lt
    simp only [List.mem_cons, List.not_mem_nil, or_false]
    rintro n (rfl | rfl) <;> omega
  | case4 => simp

theorem ofNat_eq {n : Nat} {a : UInt8} (h : n = a.toNat) : UInt8.ofNat n = a := by
  rw [h, UInt8.ofNat_toNat]

theorem octets_sextets (bs : Bytes) : octets (sextets bs) = bs := by
  fun_induction sextets bs with
  | case1 a b c bs ih =>
    have ha := a.toNat_lt
    have hb := b.toNat_lt
    have hc := c.toNat_lt
    rw [octets, ih, ofNat_eq (a := a) (by omega), ofNat_eq (a := b) (by omega), ofNat_eq (a := c) (by omega)]
  | case2 a b =>
    have ha := a.toNat_lt
    have hb := b.toNat_lt
    rw [octets, ofNat_eq (a := a) (by omega), ofNat_eq (a := b) (by omega)]
  | case3 a =>
    have ha := a.toNat_lt
    rw [octets, ofNat_eq (a := a) (by omega)]
  | case4 => rfl

theorem filterMap_digit {ds : List Nat} (h : ∀ n ∈ ds, n < 64) : (ds.map digit).filterMap value? = ds := by
  rw [List.filterMap_map]
  calc ds.filterMap (value? ∘ digit) = ds.filterMap some :=
        List.filterMap_congr fun n hn => value?_digit (h n hn)
    _ = ds := List.filterMap_some

theorem takeWhile_encode (bs : Bytes) : (encode bs).takeWhile (fun c => c ≠ '=') = (sextets bs).map digit := by
  have hd : ∀ c ∈ (sextets bs).map digit, decide (c ≠ '=') = true := by
    intro c hc
    obtain ⟨n, hn, rfl⟩ := List.mem_map.mp hc
    exact decide_eq_true (digit_ne_padding (sextets_lt bs n hn))
  rw [encode, List.takeWhile_append_of_pos hd, padding]
  cases (3 - bs.length % 3) % 3 with
  | zero => simp
  | succ k => simp [List.replicate_succ]

theorem decode_encode (bs : Bytes) : decode (encode bs) = bs := by
  rw [decode, takeWhile_encode, filterMap_digit (sextets_lt bs), octets_sextets]

theorem encode_eq_nil {bs : Bytes} : encode bs = [] ↔ bs = [] := by
  constructor
  · intro h
    rw [← decode_encode bs, h]
    rfl
  · rintro rfl
    rfl

end Base64

end ConfluentKafka
