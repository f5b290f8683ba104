import ConfluentKafka.Bytes
import Mathlib.Algebra.Order.Floor.Semifield
import Mathlib.Data.List.GetD
import Mathlib.Data.Rat.Floor

/-!
# Zig-zag varints

`BufferWrapper` of `buffer-wrapper.ts`. A number of at most 30 bits is written with integer
arithmetic, a larger one with floating-point division; both write the same bytes, the
base-128 digits of the zig-zag code. The floating-point values are exact here: for numbers
whose code stays below 2^53 the engine's doubles are.
-/

namespace ConfluentKafka

structure BufferWrapper where
  buf : Bytes
  pos : Nat

namespace BufferWrapper

def put (bw : BufferWrapper) (b : UInt8) : BufferWrapper := { bw with buf := bw.buf.set bw.pos b }

/-- The byte at the position; past the end it is undefined, which counts as 0 in every expression that reads it. -/
def get (bw : BufferWrapper) : UInt8 := bw.buf.getD bw.pos 0

def skip (bw : BufferWrapper) : BufferWrapper := { bw with pos := bw.pos + 1 }

/-- The integer loop of `writeVarInt`. -/
def writeInt (bw : BufferWrapper) (m : Nat) : BufferWrapper :=
  let bw := bw.put (UInt8.ofNat (m &&& 0x7f))
  if m >>> 7 ≠ 0 then writeInt (bw.put (bw.get ||| 0x80)).skip (m >>> 7) else bw.skip
termination_by m
decreasing_by
  rename_i h
  rw [Nat.shiftRight_eq_div_pow] at h ⊢
  omega

/-- The floating-point loop of `writeVarInt`. -/
def writeFloat (bw : BufferWrapper) (f : Rat) : BufferWrapper :=
  let bw := bw.put (UInt8.ofNat (⌊f⌋₊ &&& 0x7f))
  if 1 ≤ f / 128 then writeFloat (bw.put (bw.get ||| 0x80)).skip (f / 128) else bw.skip
termination_by ⌊f⌋₊
decreasing_by
  rename_i h
  have hf : (128 : Rat) ≤ f := by linarith
  have h₁ : 128 ≤ ⌊f⌋₊ := Nat.le_floor (by exact_mod_cast hf)
  have h₂ : ⌊f / 128⌋₊ = ⌊f⌋₊ / 128 := by exact_mod_cast Nat.floor_div_natCast f 128
  omega

def writeVarInt (bw : BufferWrapper) (n : Int) : BufferWrapper :=
  if -1073741824 ≤ n ∧ n < 1073741824 then
    bw.writeInt (if 0 ≤ n then n.toNat <<< 1 else ((-n - 1).toNat <<< 1) ||| 1)
  else bw.writeFloat (if 0 ≤ n then n * 2 else -n * 2 - 1)

/-- The first loop of `readVarInt`: at most four bytes. -/
def readInt (bw : BufferWrapper) (n k : Nat) : Nat × UInt8 × BufferWrapper :=
  let b := bw.get
  let n := n ||| ((b &&& 0x7f).toNat <<< k)
  if b &&& 0x80 ≠ 0 ∧ k + 7 < 28 then readInt bw.skip n (k + 7) else (n, b &&& 0x80, bw.skip)
termination_by 28 - k

/-- The second loop of `readVarInt`. -/
def readFloat (bw : BufferWrapper) (f fk : Nat) : Nat × BufferWrapper :=
  let b := bw.get
  let f := f + (b &&& 0x7f).toNat * fk
  if b &&& 0x80 ≠ 0 then readFloat bw.skip f (fk * 128) else (f, bw.skip)
termination_by bw.buf.length - bw.pos
decreasing_by
  rename_i h
  have hlt : bw.pos < bw.buf.length := by
    by_contra hge
    have h₀ : bw.get = 0 := List.getD_eq_default _ _ (by omega)
    exact h (by simp [b, h₀])
  simp only [skip]
  omega

def readVarInt (bw : BufferWrapper) : Int × BufferWrapper :=
  let (n, h, bw) := bw.readInt 0 0
  if h ≠ 0 then
    let (f, bw) := bw.readFloat n 268435456
    ((if f % 2 ≠ 0 then -((f : Int) + 1) else f) / 2, bw)
  -- `(n >> 1) ^ -(n & 1)`: the complement of the upper bits when the lowest is set.
  else (if n &&& 1 ≠ 0 then -((n >>> 1 : Nat) : Int) - 1 else ((n >>> 1 : Nat) : Int), bw)

end BufferWrapper

/-! ## What is written -/

def zigzag (n : Int) : Nat := if 0 ≤ n then 2 * n.toNat else 2 * (-n).toNat - 1

/-- The base-128 digits of a number, least significant first, with the high bit set on all but the last. -/
def varint (m : Nat) : Bytes :=
  if m < 128 then [UInt8.ofNat m] else UInt8.ofNat (m % 128 + 128) :: varint (m / 128)
termination_by m

theorem forall_byte {P : UInt8 → Prop} (h : ∀ i : Fin 256, P (UInt8.ofNat i)) (b : UInt8) : P b := by
  have := h ⟨b.toNat, b.toNat_lt⟩
  simpa using this

theorem and_7f (b : UInt8) : (b &&& 0x7f).toNat = b.toNat % 128 :=
  forall_byte (P := fun b => (b &&& 0x7f).toNat = b.toNat % 128) (by decide +kernel) b

theorem and_80 (b : UInt8) : b &&& 0x80 = 0 ↔ b.toNat < 128 :=
  forall_byte (P := fun b => b &&& 0x80 = 0 ↔ b.toNat < 128) (by decide +kernel) b

theorem or_80 {n : Nat} (h : n < 128) : UInt8.ofNat n ||| 0x80 = UInt8.ofNat (n + 128) := by
  have := (by decide +kernel : ∀ i : Fin 128, UInt8.ofNat i ||| 0x80 = UInt8.ofNat (i + 128))
  exact this ⟨n, h⟩

theorem low_bits (m : Nat) : m &&& 0x7f = m % 128 := Nat.and_two_pow_sub_one_eq_mod m 7

theorem varint_of_lt {m : Nat} (h : m < 128) : varint m = [UInt8.ofNat m] := by
  rw [varint, if_pos h]

theorem varint_of_ge {m : Nat} (h : 128 ≤ m) : varint m = UInt8.ofNat (m % 128 + 128) :: varint (m / 128) := by
  rw [varint, if_neg (by omega)]

theorem varint_length_pos (m : Nat) : 0 < (varint m).length := by
  by_cases h : m < 128
  · simp [varint_of_lt h]
  · simp [varint_of_ge (Nat.not_lt.mp h)]

theorem varint_length_le (k : Nat) : ∀ m, m < 128 ^ (k + 1) → (varint m).length ≤ k + 1 := by
  induction k with
  | zero =>
    intro m h
    simp [varint_of_lt (show m < 128 by simpa using h)]
  | succ k ih =>
    intro m h
    by_cases hm : m < 128
    · simp [varint_of_lt hm]
    · have hd : m / 128 < 128 ^ (k + 1) := by
        rw [Nat.div_lt_iff_lt_mul (by decide)]
        rwa [← Nat.pow_succ]
      have := ih (m / 128) hd
      simp [varint_of_ge (Nat.not_lt.mp hm)]
      omega

namespace BufferWrapper

/-- The wrapper that has gone over `done` and has `rest` before it. -/
def cursor (done rest : Bytes) : BufferWrapper := ⟨done ++ rest, done.length⟩

@[simp] theorem put_cursor (done rest : Bytes) (b c : UInt8) : (cursor done (b :: rest)).put c = cursor done
    (c :: rest) := by
  simp [cursor, put]

@[simp] theorem get_cursor (done rest : Bytes) (b : UInt8) : (cursor done (b :: rest)).get = b := by
  simp [cursor, get]

@[simp] theorem skip_cursor (done rest : Bytes) (b : UInt8) : (cursor done (b :: rest)).skip = cursor
    (done ++ [b]) rest := by
  simp [cursor, skip]

/-- Both loops write the base-128 digits, into a buffer that has room for them. -/
theorem writeInt_cursor (m : Nat) : ∀ (done gap rest : Bytes), gap.length = (varint m).length →
    (cursor done (gap ++ rest)).writeInt m = cursor (done ++ varint m) rest := by
  induction m using Nat.strongRecOn with
  | ind m ih =>
    intro done gap rest hlen
    have hpos := varint_length_pos m
    obtain ⟨g, gap, rfl⟩ := List.exists_cons_of_length_pos (hlen ▸ hpos)
    rw [writeInt]
    simp only [List.cons_append, put_cursor, get_cursor, skip_cursor, low_bits, Nat.shiftRight_eq_div_pow]
    by_cases hm : m < 128
    · have h0 : m / 2 ^ 7 = 0 := by omega
      rw [varint_of_lt hm] at hlen ⊢
      obtain rfl : gap = [] := by simpa using hlen
      rw [if_neg (by simpa using h0), Nat.mod_eq_of_lt hm]
      rfl
    · have hm := Nat.not_lt.mp hm
      have h0 : m / 2 ^ 7 ≠ 0 := by omega
      rw [varint_of_ge hm] at hlen ⊢
      rw [if_pos h0, or_80 (Nat.mod_lt m (by decide)), ih (m / 2 ^ 7) (by omega) _ gap rest (by simpa using hlen)]
      simp

theorem writeFloat_eq (f : Rat) (hf : 0 ≤ f) : ∀ bw : BufferWrapper, bw.writeFloat f = bw.writeInt ⌊f⌋₊ := by
  induction h : ⌊f⌋₊ using Nat.strongRecOn generalizing f with
  | ind m ih =>
    intro bw
    subst h
    have hdiv : ⌊f / 128⌋₊ = ⌊f⌋₊ / 128 := by exact_mod_cast Nat.floor_div_natCast f 128
    rw [writeFloat, writeInt, Nat.shiftRight_eq_div_pow]
    by_cases h1 : 1 ≤ f / 128
    · have h128 : 128 ≤ ⌊f⌋₊ := Nat.le_floor (by push_cast; linarith)
      rw [if_pos h1, if_pos (by omega), ih (⌊f⌋₊ / 128) (by omega) (f / 128) (by positivity) hdiv]
    · have h0 : ⌊f⌋₊ / 128 = 0 := by
        rw [← hdiv]
        exact Nat.floor_eq_zero.mpr (by linarith)
      rw [if_neg h1, if_neg (by simpa using h0)]

theorem writeVarInt_eq (bw : BufferWrapper) (n : Int) : bw.writeVarInt n = bw.writeInt (zigzag n) := by
  unfold writeVarInt zigzag
  by_cases hsmall : -1073741824 ≤ n ∧ n < 1073741824
  · rw [if_pos hsmall]
    by_cases hn : 0 ≤ n
    · rw [if_pos hn, if_pos hn, Nat.shiftLeft_eq]
      congr 1
      omega
    · rw [if_neg hn, if_neg hn, Nat.shiftLeft_eq]
      congr 1
      have hor : (-n - 1).toNat * 2 ^ 1 ||| 1 = (-n - 1).toNat * 2 ^ 1 + 1 := by
        rw [Nat.mul_comm]
        exact (Nat.two_pow_add_eq_or_of_lt (by decide) _).symm
      rw [hor]
      omega
  · rw [if_neg hsmall]
    by_cases hn : 0 ≤ n
    · rw [if_pos hn, if_pos hn, writeFloat_eq _ (by positivity)]
      congr 1
      have hcast : ((n : Rat) * 2) = ((2 * n.toNat : Nat) : Rat) := by
        obtain ⟨k, rfl⟩ := Int.eq_ofNat_of_zero_le hn
        push_cast
        simp
        ring
      rw [hcast, Nat.floor_natCast]
    · rw [if_neg hn, if_neg hn]
      have hcast : (-(n : Rat) * 2 - 1) = ((2 * (-n).toNat - 1 : Nat) : Rat) := by
        obtain ⟨k, hk⟩ := Int.eq_ofNat_of_zero_le (show 0 ≤ -n by omega)
        obtain ⟨j, rfl⟩ : ∃ j, k = j + 1 := ⟨k - 1, by omega⟩
        obtain rfl : n = -((j + 1 : Nat) : Int) := by omega
        have h₁ : (2 * (- -((j + 1 : Nat) : Int)).toNat - 1 : Nat) = 2 * j + 1 := by omega
        rw [h₁]
        push_cast
        ring
      rw [hcast, writeFloat_eq _ (by positivity), Nat.floor_natCast]

/-! ## Reading it back -/

theorem toNat_digit {u : Nat} (h : u < 128) : (UInt8.ofNat u).toNat = u := by
  rw [UInt8.toNat_ofNat']
  omega

theorem toNat_more (u : Nat) : (UInt8.ofNat (u % 128 + 128)).toNat = u % 128 + 128 := by
  rw [UInt8.toNat_ofNat']
  omega

theorem readFloat_cursor (m : Nat) : ∀ (done rest : Bytes) (f fk : Nat),
    (cursor done (varint m ++ rest)).readFloat f fk = (f + m * fk, cursor (done ++ varint m) rest) := by
  induction m using Nat.strongRecOn with
  | ind m ih =>
    intro done rest f fk
    rw [readFloat]
    by_cases hm : m < 128
    · have h0 : UInt8.ofNat m &&& 0x80 = 0 := (and_80 _).mpr (by rw [toNat_digit hm]; exact hm)
      simp only [varint_of_lt hm, List.cons_append, List.nil_append, get_cursor, skip_cursor, and_7f,
        toNat_digit hm,
        Nat.mod_eq_of_lt hm, h0, ne_eq, not_true_eq_false, if_false]
    · have hm := Nat.not_lt.mp hm
      have h0 : UInt8.ofNat (m % 128 + 128) &&& 0x80 ≠ 0 := by
        rw [ne_eq, and_80, toNat_more]
        omega
      have hval : m % 128 * fk + m / 128 * (fk * 128) = m * fk := by
        have := Nat.div_add_mod m 128
        calc m % 128 * fk + m / 128 * (fk * 128) = (128 * (m / 128) + m % 128) * fk := by ring
          _ = m * fk := by rw [this]
      have hlow : (m % 128 + 128) % 128 = m % 128 := by omega
      simp only [varint_of_ge hm, List.cons_append, get_cursor, skip_cursor, and_7f, toNat_more, hlow]
      rw [if_pos h0, ih (m / 128) (by omega)]
      simp [Nat.add_assoc, hval]

theorem or_shift {n k : Nat} (h : n < 2 ^ k) (x : Nat) : n ||| (x <<< k) = n + x * 2 ^ k := by
  rw [Nat.shiftLeft_eq, Nat.or_comm, Nat.mul_comm, ← Nat.two_pow_add_eq_or_of_lt h, Nat.add_comm]

/-- One round of the first loop over a digit with its high bit set. -/
theorem readInt_more {u n k : Nat} (hn : n < 2 ^ k) (done rest : Bytes) :
    (cursor done (UInt8.ofNat (u % 128 + 128) :: rest)).readInt n k =
      if k + 7 < 28 then (cursor (done ++ [UInt8.ofNat (u % 128 + 128)]) rest).readInt (n + u % 128 * 2 ^ k) (k + 7)
      else (n + u % 128 * 2 ^ k, UInt8.ofNat (u % 128 + 128) &&& 0x80,
        cursor (done ++ [UInt8.ofNat (u % 128 + 128)]) rest) := by
  have h0 : UInt8.ofNat (u % 128 + 128) &&& 0x80 ≠ 0 := by
    rw [ne_eq, and_80, toNat_more]
    omega
  have hlow : (u % 128 + 128) % 128 = u % 128 := by omega
  rw [readInt]
  simp only [get_cursor, skip_cursor, and_7f, toNat_more, hlow, or_shift hn, h0, ne_eq, not_false_eq_true, true_and]

theorem readInt_last {u n k : Nat} (hu : u < 128) (hn : n < 2 ^ k) (done rest : Bytes) :
    (cursor done (UInt8.ofNat u :: rest)).readInt n k =
    (n + u * 2 ^ k, 0, cursor (done ++ [UInt8.ofNat u]) rest) := by
  have h0 : UInt8.ofNat u &&& 0x80 = 0 := (and_80 _).mpr (by rw [toNat_digit hu]; exact hu)
  rw [readInt]
  simp only [get_cursor, skip_cursor, and_7f, toNat_digit hu, Nat.mod_eq_of_lt hu, or_shift hn, h0, ne_eq,
    not_true_eq_false, false_and, if_false]

/-- With `j + 1` bytes left to the first loop, it reads the whole number or its lowest `j + 1` digits. -/
theorem readInt_cursor (j : Nat) : ∀ (u n k : Nat) (done rest : Bytes), k + 7 * (j + 1) = 28 → n < 2 ^ k →
    (u < 128 ^ (j + 1) ∧ (cursor done (varint u ++ rest)).readInt n k =
      (n + u * 2 ^ k, 0, cursor (done ++ varint u) rest)) ∨
    (128 ^ (j + 1) ≤ u ∧ ∃ h digits, h ≠ 0 ∧ varint u = digits ++ varint (u / 128 ^ (j + 1)) ∧
      (cursor done (varint u ++ rest)).readInt n k =
        (n + u % 128 ^ (j + 1) * 2 ^ k, h, cursor (done ++ digits) (varint (u / 128 ^ (j + 1)) ++ rest))) := by
  induction j with
  | zero =>
    intro u n k done rest hk hn
    by_cases hu : u < 128
    · left
      refine ⟨by simpa using hu, ?_⟩
      rw [varint_of_lt hu]
      exact readInt_last hu hn done rest
    · right
      have hu := Nat.not_lt.mp hu
      refine ⟨by simpa using hu, UInt8.ofNat (u % 128 + 128) &&& 0x80, [UInt8.ofNat (u % 128 + 128)], ?_, ?_, ?_⟩
      · rw [ne_eq, and_80, toNat_more]
        omega
      · simpa using varint_of_ge hu
      · rw [varint_of_ge hu, List.cons_append, readInt_more hn, if_neg (by omega)]
        simp
  | succ j ih =>
    intro u n k done rest hk hn
    by_cases hu : u < 128
    · left
      refine ⟨Nat.lt_of_lt_of_le hu (Nat.le_self_pow (by omega) 128), ?_⟩
      rw [varint_of_lt hu]
      exact readInt_last hu hn done rest
    · have hu := Nat.not_lt.mp hu
      have hpow : 128 ^ (j + 1 + 1) = 128 * 128 ^ (j + 1) := Nat.pow_succ'
      have h2 : 2 ^ (k + 7) = 2 ^ k * 128 := Nat.pow_add 2 k 7
      have hn' : n + u % 128 * 2 ^ k < 2 ^ (k + 7) := by
        rw [h2]
        have : u % 128 * 2 ^ k ≤ 127 * 2 ^ k := Nat.mul_le_mul_right _ (by omega)
        omega
      rw [varint_of_ge hu, List.cons_append, readInt_more hn, if_pos (by omega)]
      rcases ih (u / 128) (n + u % 128 * 2 ^ k) (k + 7) (done ++ [UInt8.ofNat (u % 128 + 128)]) rest
        (by omega) hn' with
        ⟨hlt, hread⟩ | ⟨hge, h, digits, hh, hdigits, hread⟩
      · left
        refine ⟨?_, ?_⟩
        · rw [hpow]
          rw [Nat.div_lt_iff_lt_mul (by decide)] at hlt
          omega
        · rw [hread, h2]
          have hval : n + u % 128 * 2 ^ k + u / 128 * (2 ^ k * 128) = n + u * 2 ^ k := by
            have hd := Nat.div_add_mod u 128
            calc n + u % 128 * 2 ^ k + u / 128 * (2 ^ k * 128) = n + (128 * (u / 128) + u % 128) * 2 ^ k := by ring
              _ = n + u * 2 ^ k := by rw [hd]
          simp [hval]
      · right
        have hdd : u / 128 / 128 ^ (j + 1) = u / 128 ^ (j + 1 + 1) := by rw [Nat.div_div_eq_div_mul, hpow]
        refine ⟨?_, h, UInt8.ofNat (u % 128 + 128) :: digits, hh, ?_, ?_⟩
        · rw [hpow]
          rw [Nat.le_div_iff_mul_le (by decide)] at hge
          omega
        · rw [hdigits, hdd]
          rfl
        · have hval : n + u % 128 * 2 ^ k + u / 128 % 128 ^ (j + 1) * (2 ^ k * 128) =
              n + u % 128 ^ (j + 1 + 1) * 2 ^ k := by
            rw [hpow, Nat.mod_mul]
            ring
          rw [hread, hdd, h2, hval]
          simp

theorem readVarInt_cursor (n : Int) (done rest : Bytes) :
    (cursor done (varint (zigzag n) ++ rest)).readVarInt = (n, cursor (done ++ varint (zigzag n)) rest) := by
  have hcode : (0 ≤ n ∧ zigzag n = 2 * n.toNat) ∨ (n < 0 ∧ zigzag n = 2 * (-n - 1).toNat + 1) := by
    unfold zigzag
    split_ifs <;> omega
  unfold readVarInt
  rcases readInt_cursor 3 (zigzag n) 0 0 done rest rfl (by decide) with
    ⟨_, hread⟩ | ⟨_, h, digits, hh, hdigits, hread⟩
  · rw [hread]
    have hlow : zigzag n &&& 1 = zigzag n % 2 := Nat.and_one_is_mod _
    have hhigh : zigzag n >>> 1 = zigzag n / 2 := by rw [Nat.shiftRight_eq_div_pow]
    simp only [ne_eq, not_true_eq_false, if_false, Nat.zero_add, pow_zero, Nat.mul_one, hlow, hhigh, Prod.mk.injEq,
      and_true]
    split_ifs <;> omega
  · rw [hread]
    have hvalue : zigzag n % 128 ^ (3 + 1) + zigzag n / 128 ^ (3 + 1) * 268435456 = zigzag n := by
      have := Nat.mod_add_div (zigzag n) (128 ^ (3 + 1))
      omega
    simp only [Nat.zero_add, pow_zero, Nat.mul_one, readFloat_cursor, hvalue, hh, ne_eq, not_false_eq_true, if_true,
      Prod.mk.injEq]
    refine ⟨?_, ?_⟩
    · split_ifs <;> omega
    · rw [List.append_assoc, ← hdigits]

end BufferWrapper

end ConfluentKafka
