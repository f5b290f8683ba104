import ConfluentKafka.VarIntBytes

/-!
# Varints with the arithmetic of the language

`writeVarInt` and `readVarInt` with integers of 32 bits on the fast path and with doubles on the other. A
double is halved without a loss as long as its whole part and the digits behind the point have 53 binary
digits together, so that both paths write and read the digits of one code.
-/

namespace ConfluentKafka

/-! ## Doubles with a binary point -/

namespace Double

def toInt32 : Double → BitVec 32
  | finite x => BitVec.ofInt 32 (if 0 ≤ x then ⌊x⌋ else ⌈x⌉)
  | infinite _ => 0
  | nan => 0

def divBy (c : ℚ) : Double → Double
  | finite x => toDouble (x / c)
  | infinite negative => infinite negative
  | nan => nan

end Double

/-- A number of at most 53 binary digits with a binary point in them. -/
theorem representable_dyadic {k : Int} {j : Nat} (hk : k.natAbs < 2 ^ 53) (hj : j ≤ 1074) :
    Representable 53 (-1074) (k / 2 ^ j) := by
  by_cases hzero : k = 0
  · exact ⟨0, by rw [hzero]; simp⟩
  have habs : |(k : ℚ) / 2 ^ j| = (k.natAbs : ℚ) / 2 ^ j := by
    rw [abs_div, abs_of_pos (show (0 : ℚ) < 2 ^ j by positivity), Nat.cast_natAbs, Int.cast_abs]
  have hlog : Int.log 2 |(k : ℚ) / 2 ^ j| < 53 - j := by
    have hpos : (0 : ℚ) < |(k : ℚ) / 2 ^ j| :=
      abs_pos.mpr (div_ne_zero (Int.cast_ne_zero.mpr hzero) (by positivity))
    have hlt : (k.natAbs : ℚ) < 2 ^ 53 := by exact_mod_cast hk
    rw [← Int.lt_zpow_iff_log_lt (by decide) hpos, habs, div_lt_iff₀ (by positivity), Nat.cast_ofNat,
      ← zpow_natCast 2 j,
      ← zpow_add₀ (by norm_num), sub_add_cancel]
    exact_mod_cast hlt
  have hplace : lastPlace 53 (-1074) (k / 2 ^ j) ≤ -j := by
    unfold lastPlace
    omega
  refine ⟨k * 2 ^ (-(j : Int) - lastPlace 53 (-1074) (k / 2 ^ j)).toNat, ?_⟩
  have hexp : (2 : ℚ) ^ (-(j : Int) - lastPlace 53 (-1074) (k / 2 ^ j)).toNat * 2 ^ lastPlace 53
    (-1074) (k / 2 ^ j) =
      1 / 2 ^ j := by
    rw [← zpow_natCast, Int.toNat_of_nonneg (by omega), ← zpow_add₀ (by norm_num), sub_add_cancel, zpow_neg,
      zpow_natCast, one_div]
  push_cast
  rw [mul_assoc, hexp, mul_one_div]

theorem toDouble_dyadic {k : Int} {j : Nat} (hk : k.natAbs < 2 ^ 53) (hj : j ≤ 1074) :
    toDouble (k / 2 ^ j) = .finite (k / 2 ^ j) := by
  have hround := roundTo_of_representable (representable_dyadic hk hj)
  have hlt : (k.natAbs : ℚ) < 2 ^ 53 := by exact_mod_cast hk
  have hle : (2 : ℚ) ^ 53 ≤ 2 ^ 1024 := pow_le_pow_right₀ (by norm_num) (by decide)
  rw [toDouble, roundDouble, hround, if_pos]
  rw [abs_div, abs_of_pos (show (0 : ℚ) < 2 ^ j by positivity), div_lt_iff₀ (by positivity), ← Int.cast_abs,
    ← Nat.cast_natAbs]
  calc (k.natAbs : ℚ) < 2 ^ 1024 * 1 := by rw [mul_one]; exact hlt.trans_le hle
    _ ≤ 2 ^ 1024 * 2 ^ j := mul_le_mul_of_nonneg_left (one_le_pow₀ (by norm_num)) (by positivity)

theorem toDouble_intCast {k : Int} (hk : k.natAbs < 2 ^ 53) : toDouble k = .finite k := by
  have h := toDouble_dyadic hk (Nat.zero_le 1074)
  rwa [pow_zero, div_one] at h

namespace BufferWrapper

/-! ## The writer -/

def fastCode (n : Double) : BitVec 32 :=
  if (Double.finite 0).le n then n.toInt32 <<< 1 else (~~~n.toInt32 <<< 1) ||| 1

def slowCode (n : Double) : Double :=
  if (Double.finite 0).le n then n.mul (.finite 2) else (n.neg.mul (.finite 2)).add (.finite (-1))

def writeFast : Nat → BufferWrapper → BitVec 32 → Option BufferWrapper
  | 0, _, _ => none
  | fuel + 1, bw, m =>
    let bw := bw.put (UInt8.ofNat (m &&& 0x7f).toNat)
    let m := m.sshiftRight 7
    if m ≠ 0 then writeFast fuel (bw.put (bw.get ||| 0x80)).skip m else some bw.skip

def writeSlow : Nat → BufferWrapper → Double → Option BufferWrapper
  | 0, _, _ => none
  | fuel + 1, bw, f =>
    let bw := bw.put (UInt8.ofNat (f.toInt32 &&& 0x7f).toNat)
    let f := f.divBy 128
    if (Double.finite 1).le f then writeSlow fuel (bw.put (bw.get ||| 0x80)).skip f else some bw.skip

/-- `writeVarInt`, for the number that it is given. -/
def writeNumber (fuel : Nat) (bw : BufferWrapper) (n : Double) : Option BufferWrapper :=
  if (Double.finite (-1073741824)).le n ∧ n.lt (.finite 1073741824) then writeFast fuel bw (fastCode n)
  else writeSlow fuel bw (slowCode n)

/-! ## The reader -/

def fastValue (n : Nat) : Int := if n &&& 1 ≠ 0 then -((n >>> 1 : Nat) : Int) - 1 else ((n >>> 1 : Nat) : Int)

def slowValue (f : Double) : Double := (if f.hasOdd then (f.add (.finite 1)).neg else f).half

def readSlow (bw : BufferWrapper) : Double × BufferWrapper :=
  (slowValue (bw.readDouble (.finite 0) (.finite 1)).1, (bw.readDouble (.finite 0) (.finite 1)).2)

/-! ## What is written -/

theorem toInt32_intCast (n : Int) : (Double.finite n).toInt32 = BitVec.ofInt 32 n := by
  unfold Double.toInt32
  dsimp only
  split_ifs
  · rw [Int.floor_intCast]
  · rw [Int.ceil_intCast]

theorem toNat_fastCode {n : Int} (hlow : -1073741824 ≤ n) (hhigh : n < 1073741824) :
    (fastCode (.finite n)).toNat = zigzag n := by
  unfold fastCode zigzag
  rw [toInt32_intCast, Double.le]
  by_cases hn : 0 ≤ n
  · have hq : (0 : ℚ) ≤ n := by exact_mod_cast hn
    rw [if_pos (decide_eq_true hq), if_pos hn, BitVec.toNat_shiftLeft, BitVec.toNat_ofInt, Nat.shiftLeft_eq]
    omega
  · have hq : ¬(0 : ℚ) ≤ n := by exact_mod_cast hn
    rw [if_neg (by simpa using hq), if_neg hn, BitVec.toNat_or, BitVec.toNat_shiftLeft, BitVec.toNat_not,
      BitVec.toNat_ofInt,
      Nat.shiftLeft_eq]
    have hor (k : Nat) : k * 2 ^ 1 ||| 1 = k * 2 ^ 1 + 1 := by
      rw [Nat.mul_comm]
      exact (Nat.two_pow_add_eq_or_of_lt (by decide) _).symm
    have hk : (2 ^ 32 - 1 - (n % ((2 ^ 32 : Nat) : Int)).toNat) * 2 ^ 1 % 2 ^ 32 = (-n - 1).toNat * 2 ^ 1 := by
      omega
    rw [hk, show (1 : BitVec 32).toNat = 1 from rfl, hor]
    omega

theorem pos_of_pow {m fuel : Nat} (hm : m / 128 ≠ 0) (h : m < 128 ^ (fuel + 1)) : 0 < fuel ∧
    m / 128 < 128 ^ fuel := by
  constructor
  · apply Nat.pos_of_ne_zero
    rintro rfl
    omega
  · rw [Nat.div_lt_iff_lt_mul (by decide), ← Nat.pow_succ]
    exact h

theorem writeFast_eq (fuel : Nat) : ∀ (bw : BufferWrapper) (m : BitVec 32), 0 < fuel → m.toNat < 2 ^ 31 →
    m.toNat < 128 ^ fuel →
    writeFast fuel bw m = some (bw.writeInt m.toNat) := by
  induction fuel with
  | zero => exact fun _ _ h => absurd h (Nat.lt_irrefl 0)
  | succ fuel ih =>
    intro bw m _ hm hfuel
    have hmsb : m.msb = false := by
      rw [BitVec.msb_eq_false_iff_two_mul_lt]
      omega
    have hshift : (m.sshiftRight 7).toNat = m.toNat / 128 := by
      rw [BitVec.sshiftRight_eq_of_msb_false hmsb, BitVec.toNat_ushiftRight]
      exact Nat.shiftRight_eq_div_pow _ 7
    have hzero : m.sshiftRight 7 = 0 ↔ m.toNat / 128 = 0 := by
      rw [← BitVec.toNat_inj, hshift]
      rfl
    have hdiv : m.toNat >>> 7 = m.toNat / 128 := Nat.shiftRight_eq_div_pow _ 7
    rw [writeFast, writeInt, BitVec.toNat_and, hdiv]
    by_cases hlast : m.toNat / 128 = 0
    · rw [if_neg (not_not.mpr (hzero.mpr hlast)), if_neg (not_not.mpr hlast)]
      rfl
    · obtain ⟨hpos, hlt⟩ := pos_of_pow hlast hfuel
      rw [if_pos (mt hzero.mp hlast), if_pos hlast, ih _ _ hpos (by omega) (hshift ▸ hlt), hshift]
      rfl

/-- A double of this path is a whole number that was divided by 128 again and again. -/
theorem writeSlow_eq (rounds : Nat) : ∀ (fuel : Nat) (bw : BufferWrapper) (m j : Nat), 0 < rounds → rounds ≤ fuel →
    m < 2 ^ 53 →
    m / 2 ^ j < 128 ^ rounds → j + 7 * rounds ≤ 1074 →
    writeSlow fuel bw (.finite (m / 2 ^ j)) = some (bw.writeInt (m / 2 ^ j)) := by
  induction rounds with
  | zero => exact fun _ _ _ _ h => absurd h (Nat.lt_irrefl 0)
  | succ rounds ih =>
    intro fuel bw m j _ hfuel hm hrounds hj
    obtain ⟨fuel, rfl⟩ : ∃ fuel', fuel = fuel' + 1 := ⟨fuel - 1, by omega⟩
    have hnonneg : (0 : ℚ) ≤ m / 2 ^ j := by positivity
    have hfloor : ⌊(m : ℚ) / 2 ^ j⌋ = ((m / 2 ^ j : Nat) : Int) := by
      have h := Rat.floor_natCast_div_natCast m (2 ^ j)
      push_cast at h ⊢
      exact h
    have hbits : ((Double.finite (m / 2 ^ j)).toInt32 &&& 0x7f).toNat = m / 2 ^ j &&& 0x7f := by
      rw [Double.toInt32, if_pos hnonneg, hfloor, BitVec.ofInt_natCast, BitVec.toNat_and, BitVec.toNat_ofNat]
      show _ &&& 127 = _ &&& 127
      rw [low_bits, low_bits]
      omega
    have hdouble : (Double.finite (m / 2 ^ j)).divBy 128 = .finite (m / 2 ^ (j + 7)) := by
      have h := @toDouble_dyadic m (j + 7) (by simpa using hm) (by omega)
      have hpow : (m : ℚ) / 2 ^ j / 128 = m / 2 ^ (j + 7) := by
        rw [pow_add, div_div]
        norm_num
      rw [Double.divBy, hpow]
      exact h
    have hdiv : m / 2 ^ j / 128 = m / 2 ^ (j + 7) := by rw [Nat.div_div_eq_div_mul, Nat.pow_add]
    have hone : (Double.finite 1).le (.finite (m / 2 ^ (j + 7))) = true ↔ m / 2 ^ j / 128 ≠ 0 := by
      have hcast : (2 : ℚ) ^ (j + 7) ≤ m ↔ 2 ^ (j + 7) ≤ m := by exact_mod_cast Iff.rfl
      rw [Double.le, decide_eq_true_iff, one_le_div (by positivity), hdiv, Nat.div_ne_zero_iff, hcast]
      exact ⟨fun h => ⟨by positivity, h⟩, fun h => h.2⟩
    have hshift : (m / 2 ^ j) >>> 7 = m / 2 ^ j / 128 := Nat.shiftRight_eq_div_pow _ 7
    rw [writeSlow, writeInt, hbits, hshift, hdouble]
    by_cases hlast : m / 2 ^ j / 128 = 0
    · rw [if_neg (mt hone.mp (not_not.mpr hlast)), if_neg (not_not.mpr hlast)]
    · obtain ⟨hpos, hlt⟩ := pos_of_pow hlast hrounds
      rw [if_pos (hone.mpr hlast), if_pos hlast, hdiv]
      exact ih fuel _ m (j + 7) hpos (by omega) hm (hdiv ▸ hlt) (by omega)

theorem slowCode_eq {n : Int} (hn : n.natAbs < 2 ^ 52) : slowCode (.finite n) = .finite (zigzag n : Nat) := by
  unfold slowCode zigzag
  rw [Double.le]
  by_cases hpos : 0 ≤ n
  · have hq : (0 : ℚ) ≤ n := by exact_mod_cast hpos
    have hcode : (n : ℚ) * 2 = ((2 * n.toNat : Nat) : Int) := by
      obtain ⟨k, rfl⟩ := Int.eq_ofNat_of_zero_le hpos
      push_cast
      simp
      ring
    rw [if_pos (decide_eq_true hq), if_pos hpos, Double.mul, hcode, toDouble_intCast (by omega)]
    rfl
  · have hq : ¬(0 : ℚ) ≤ n := by exact_mod_cast hpos
    have hdouble : -(n : ℚ) * 2 = ((-n * 2 : Int) : ℚ) := by push_cast; ring
    have hcode : ((-n * 2 : Int) : ℚ) + -1 = ((2 * (-n).toNat - 1 : Nat) : Int) := by
      have hnat : ((2 * (-n).toNat - 1 : Nat) : Int) = -n * 2 - 1 := by omega
      rw [hnat]
      push_cast
      ring
    rw [if_neg (by simpa using hq), if_neg hpos, Double.neg, Double.mul, hdouble, toDouble_intCast (by omega),
      Double.add, hcode,
      toDouble_intCast (by omega)]
    rfl

theorem zigzag_lt {n : Int} {bits : Nat} (hn : n.natAbs < 2 ^ bits) : zigzag n < 2 ^ (bits + 1) := by
  rw [Nat.pow_succ]
  unfold zigzag
  split_ifs <;> omega

theorem writeSlow_slowCode {n : Int} (hn : n.natAbs < 2 ^ 52) {fuel : Nat} (hfuel : 8 ≤ fuel) (bw : BufferWrapper) :
    writeSlow fuel bw (slowCode (.finite n)) = some (bw.writeInt (zigzag n)) := by
  have hlt := zigzag_lt hn
  have h := writeSlow_eq 8 fuel bw (zigzag n) 0 (by decide) hfuel hlt (by rw [pow_zero, Nat.div_one]; omega)
    (by decide)
  rwa [pow_zero, pow_zero, div_one, Nat.div_one, ← slowCode_eq hn] at h

theorem writeFast_fastCode {n : Int} (hlow : -1073741824 ≤ n) (hhigh : n < 1073741824) {fuel : Nat}
    (hfuel : 8 ≤ fuel)
    (bw : BufferWrapper) : writeFast fuel bw (fastCode (.finite n)) = some (bw.writeInt (zigzag n)) := by
  have hcode := toNat_fastCode hlow hhigh
  have hlt : zigzag n < 2 ^ 31 := by
    unfold zigzag
    split_ifs <;> omega
  have hpow : 2 ^ 31 ≤ 128 ^ fuel := (show 2 ^ 31 ≤ 128 ^ 8 by decide).trans
    (Nat.pow_le_pow_right (by decide) hfuel)
  rw [writeFast_eq fuel bw _ (by omega) (by omega) (by omega), hcode]

theorem writeNumber_eq {n : Int} (hn : n.natAbs < 2 ^ 52) {fuel : Nat} (hfuel : 8 ≤ fuel) (bw : BufferWrapper) :
    writeNumber fuel bw (.finite n) = some (bw.writeInt (zigzag n)) := by
  have hfast : ((Double.finite (-1073741824)).le (.finite n) ∧ (Double.finite n).lt (.finite 1073741824)) ↔
      -1073741824 ≤ n ∧ n < 1073741824 := by
    rw [Double.le, Double.lt, decide_eq_true_iff, decide_eq_true_iff]
    exact_mod_cast Iff.rfl
  unfold writeNumber
  by_cases hsmall : -1073741824 ≤ n ∧ n < 1073741824
  · rw [if_pos (hfast.mpr hsmall), writeFast_fastCode hsmall.1 hsmall.2 hfuel]
  · rw [if_neg (mt hfast.mp hsmall), writeSlow_slowCode hn hfuel]

/-! ## What is read -/

theorem mul_finite {a b : Nat} (h : a * b < 2 ^ 53) : (Double.finite a).mul (.finite b) = .finite
    (a * b : Nat) := by
  rw [Double.mul, ← Nat.cast_mul]
  exact toDouble_natCast h

theorem add_finite {a b : Nat} (h : a + b < 2 ^ 53) : (Double.finite a).add (.finite b) = .finite
    (a + b : Nat) := by
  rw [Double.add, ← Nat.cast_add]
  exact toDouble_natCast h

/-- The place of a digit is at most the number as long as the digit is not the last. -/
theorem readDouble_cursor (m : Nat) : ∀ (done rest : Bytes) (f j : Nat), f + m * 2 ^ j < 2 ^ 53 → j < 53 →
    (cursor done (varint m ++ rest)).readDouble (.finite f) (.finite (2 ^ j : Nat)) =
      (.finite (f + m * 2 ^ j : Nat), cursor (done ++ varint m) rest) := by
  induction m using Nat.strongRecOn with
  | ind m ih =>
    intro done rest f j hlt hj
    have hplace : 2 ^ j < 2 ^ 53 := Nat.pow_lt_pow_right (by decide) hj
    have hdigit {d : Nat} (hd : d ≤ m) (hsmall : d < 2 ^ 53) :
        (Double.finite f).add ((Double.ofNat d).mul (.finite (2 ^ j : Nat))) = .finite (f + d * 2 ^ j : Nat) := by
      have hle : d * 2 ^ j ≤ m * 2 ^ j := Nat.mul_le_mul_right _ hd
      rw [Double.ofNat_eq hsmall, mul_finite (by omega), add_finite (by omega)]
    rw [readDouble]
    by_cases hm : m < 128
    · have h0 : UInt8.ofNat m &&& 0x80 = 0 := (and_80 _).mpr (by rw [toNat_digit hm]; exact hm)
      simp only [varint_of_lt hm, List.cons_append, List.nil_append, get_cursor, skip_cursor, and_7f,
        toNat_digit hm,
        Nat.mod_eq_of_lt hm, h0, ne_eq, not_true_eq_false, if_false, hdigit (Nat.le_refl m) (by omega)]
    · have hm := Nat.not_lt.mp hm
      have h0 : UInt8.ofNat (m % 128 + 128) &&& 0x80 ≠ 0 := by
        rw [ne_eq, and_80, toNat_more]
        omega
      have hlow : (m % 128 + 128) % 128 = m % 128 := by omega
      have hpow : 2 ^ (j + 7) = 2 ^ j * 128 := Nat.pow_add 2 j 7
      have hvalue : f + m % 128 * 2 ^ j + m / 128 * 2 ^ (j + 7) = f + m * 2 ^ j := by
        have hd := Nat.div_add_mod m 128
        calc
          f + m % 128 * 2 ^ j + m / 128 * 2 ^ (j + 7)
          _ = f + (128 * (m / 128) + m % 128) * 2 ^ j := by rw [hpow]; ring
          _ = f + m * 2 ^ j := by rw [hd]
      have hnext : 2 ^ (j + 7) < 2 ^ 53 := by
        have hle : 128 * 2 ^ j ≤ m * 2 ^ j := Nat.mul_le_mul_right _ hm
        rw [hpow]
        omega
      have hstep : (Double.finite (2 ^ j : Nat)).mul (.finite 128) = .finite (2 ^ (j + 7) : Nat) := by
        rw [hpow] at hnext ⊢
        exact mul_finite hnext
      simp only [varint_of_ge hm, List.cons_append, get_cursor, skip_cursor, and_7f, toNat_more, hlow]
      rw [if_pos h0, hdigit (Nat.mod_le m 128) (by omega), hstep, ih (m / 128) (by omega) _ _ _ _ (by omega)
        ((Nat.pow_lt_pow_iff_right (by decide)).mp hnext), hvalue]
      simp

theorem slowValue_zigzag {n : Int} (hn : n.natAbs < 2 ^ 52) : slowValue (.finite (zigzag n : Nat)) = .finite n := by
  have hfloor : ⌊((zigzag n : Nat) : ℚ) / 2⌋ = ((zigzag n / 2 : Nat) : Int) :=
    Rat.floor_natCast_div_natCast (zigzag n) 2
  have hnonneg : (0 : ℚ) ≤ (zigzag n : Nat) := Nat.cast_nonneg _
  have hodd : (Double.finite (zigzag n : Nat)).hasOdd = true ↔ zigzag n % 2 ≠ 0 := by
    have hrest : ((zigzag n : Nat) : ℚ) - 2 * ((zigzag n / 2 : Nat) : Int) = (zigzag n % 2 : Nat) := by
      have hd : ((2 * (zigzag n / 2) + zigzag n % 2 : Nat) : ℚ) = (zigzag n : Nat) := by rw [Nat.div_add_mod]
      rw [Nat.cast_add, Nat.cast_mul, Nat.cast_ofNat] at hd
      rw [Int.cast_natCast]
      linarith
    rw [Double.hasOdd, if_pos hnonneg, hfloor, hrest, decide_eq_true_iff, ne_eq, Nat.cast_eq_zero]
  have hhalf (k : Int) (hk : k.natAbs < 2 ^ 53) : (Double.finite ((2 * k : Int) : ℚ)).half = .finite k := by
    rw [Double.half, Int.cast_mul, Int.cast_ofNat, mul_div_cancel_left₀ _ (by norm_num), toDouble_intCast hk]
  have hlt := zigzag_lt hn
  unfold slowValue
  by_cases hpos : 0 ≤ n
  · have hcode : zigzag n = 2 * n.toNat := if_pos hpos
    have hvalue : ((zigzag n : Nat) : ℚ) = ((2 * n : Int) : ℚ) := by
      rw [← Int.cast_natCast]
      congr 1
      omega
    rw [if_neg (mt hodd.mp (by omega)), hvalue, hhalf n (by omega)]
  · have hcode : zigzag n = 2 * (-n).toNat - 1 := if_neg hpos
    have hvalue : -((zigzag n + 1 : Nat) : ℚ) = ((2 * n : Int) : ℚ) := by
      rw [← Int.cast_natCast, ← Int.cast_neg]
      congr 1
      omega
    have hone : (Double.finite (zigzag n : Nat)).add (.finite 1) = .finite (zigzag n + 1 : Nat) := by
      have h := @add_finite (zigzag n) 1 (by omega)
      rwa [Nat.cast_one] at h
    rw [if_pos (hodd.mpr (by omega)), hone, Double.neg, hvalue, hhalf n (by omega)]

theorem fastValue_zigzag (n : Int) : fastValue (zigzag n) = n := by
  have hcode : (0 ≤ n ∧ zigzag n = 2 * n.toNat) ∨ (n < 0 ∧ zigzag n = 2 * (-n - 1).toNat + 1) := by
    unfold zigzag
    split_ifs <;> omega
  have hlow : zigzag n &&& 1 = zigzag n % 2 := Nat.and_one_is_mod _
  have hhigh : zigzag n >>> 1 = zigzag n / 2 := Nat.shiftRight_eq_div_pow _ 1
  unfold fastValue
  rw [hlow, hhigh]
  split_ifs <;> omega

theorem readNumber_cursor {n : Int} (hn : n.natAbs < 2 ^ 52) (done rest : Bytes) :
    (cursor done (varint (zigzag n) ++ rest)).readNumber =
    (.finite n, cursor (done ++ varint (zigzag n)) rest) := by
  have hlt := zigzag_lt hn
  rw [readNumber]
  rcases readInt_cursor 3 (zigzag n) 0 0 done rest rfl (by decide) with
    ⟨_, hread⟩ | ⟨_, h, digits, hh, hdigits, hread⟩
  · -- The first loop reads the whole code.
    have hvalue : ((fastValue (zigzag n) : Int) : ℚ) = n := by rw [fastValue_zigzag n]
    unfold fastValue at hvalue
    push_cast at hvalue
    rw [hread]
    simp only [ne_eq, not_true_eq_false, if_false, Nat.zero_add, pow_zero, Nat.mul_one, Prod.mk.injEq, and_true,
      Double.finite.injEq]
    push_cast
    exact hvalue
  · have hvalue : zigzag n % 128 ^ (3 + 1) + zigzag n / 128 ^ (3 + 1) * 2 ^ 28 = zigzag n := by
      have := Nat.mod_add_div (zigzag n) (128 ^ (3 + 1))
      omega
    have hplace : (268435456 : ℚ) = (2 ^ 28 : Nat) := by norm_num
    rw [hread]
    simp only [Nat.zero_add, pow_zero, Nat.mul_one, hh, ne_eq, not_false_eq_true, if_true]
    rw [Double.ofNat_eq (by omega), hplace, readDouble_cursor _ _ _ _ _ (by omega) (by decide), hvalue]
    simp only [Prod.mk.injEq]
    refine ⟨slowValue_zigzag hn, ?_⟩
    rw [List.append_assoc, ← hdigits]

/-- The other path accepts what the first loop reads, too. -/
theorem readSlow_cursor {n : Int} (hn : n.natAbs < 2 ^ 52) (done rest : Bytes) :
    (cursor done (varint (zigzag n) ++ rest)).readSlow = (.finite n, cursor (done ++ varint (zigzag n)) rest) := by
  have hlt := zigzag_lt hn
  have hread := readDouble_cursor (zigzag n) done rest 0 0 (by omega) (by decide)
  rw [pow_zero, Nat.mul_one, Nat.zero_add, Nat.cast_one, Nat.cast_zero] at hread
  rw [readSlow, hread, slowValue_zigzag hn]

theorem readInt_ends (n : Int) (done rest : Bytes) :
    ((cursor done (varint (zigzag n) ++ rest)).readInt 0 0).2.1 = 0 ↔ -134217728 ≤ n ∧ n < 134217728 := by
  have hcode : (0 ≤ n ∧ zigzag n = 2 * n.toNat) ∨ (n < 0 ∧ zigzag n = 2 * (-n - 1).toNat + 1) := by
    unfold zigzag
    split_ifs <;> omega
  rcases readInt_cursor 3 (zigzag n) 0 0 done rest rfl (by decide) with ⟨hsmall, hread⟩ | ⟨hlarge, h, digits,
    hh, _, hread⟩
  · rw [hread]
    exact iff_of_true rfl (by omega)
  · rw [hread]
    exact iff_of_false hh (by omega)

/-- A wrapper with room before its end. -/
theorem eq_cursor {bw : BufferWrapper} {length : Nat} (h : bw.pos + length ≤ bw.buf.length) :
    bw = cursor (bw.buf.take bw.pos) ((bw.buf.drop bw.pos).take length ++ (bw.buf.drop bw.pos).drop length) := by
  unfold cursor
  rw [List.take_append_drop, List.take_append_drop, List.length_take, Nat.min_eq_left (by omega)]

/-- Where the number is written it is read again, and both ends are one position; either writer writes its
code and either reader accepts it. -/
theorem writeNumber_readNumber {n : Int} (hn : n.natAbs < 2 ^ 52) :
    (∀ bw : BufferWrapper, bw.pos + (varint (zigzag n)).length ≤ bw.buf.length →
      ∃ after, (∀ fuel, 8 ≤ fuel → bw.writeNumber fuel (.finite n) = some after) ∧
        (⟨after.buf, bw.pos⟩ : BufferWrapper).readNumber = (.finite n, after) ∧
        (⟨after.buf, bw.pos⟩ : BufferWrapper).readSlow = (.finite n, after)) ∧
    (-1073741824 ≤ n → n < 1073741824 → ∀ (bw : BufferWrapper) (fuel : Nat), 8 ≤ fuel →
      bw.writeFast fuel (fastCode (.finite n)) = bw.writeSlow fuel (slowCode (.finite n))) ∧
    ∀ done rest : Bytes, (cursor done (varint (zigzag n) ++ rest)).readNumber =
      (cursor done (varint (zigzag n) ++ rest)).readSlow ∧
      (((cursor done (varint (zigzag n) ++ rest)).readInt 0 0).2.1 = 0 ↔ -134217728 ≤ n ∧ n < 134217728) := by
  refine ⟨?_, ?_, ?_⟩
  · intro bw hroom
    have hbw := eq_cursor hroom
    have hgap : ((bw.buf.drop bw.pos).take (varint (zigzag n)).length).length = (varint (zigzag n)).length := by
      rw [List.length_take, List.length_drop, Nat.min_eq_left (by omega)]
    have hwritten :=
      writeInt_cursor (zigzag n) (bw.buf.take bw.pos) _ ((bw.buf.drop bw.pos).drop (varint (zigzag n)).length) hgap
    rw [← hbw] at hwritten
    have hpos : (bw.buf.take bw.pos).length = bw.pos := by rw [List.length_take, Nat.min_eq_left (by omega)]
    have hread := readNumber_cursor hn (bw.buf.take bw.pos) ((bw.buf.drop bw.pos).drop (varint (zigzag n)).length)
    have hslow := readSlow_cursor hn (bw.buf.take bw.pos) ((bw.buf.drop bw.pos).drop (varint (zigzag n)).length)
    have hbuf : cursor (bw.buf.take bw.pos) (varint (zigzag n) ++ (bw.buf.drop bw.pos).drop
      (varint (zigzag n)).length) =
        ⟨(bw.writeInt (zigzag n)).buf, bw.pos⟩ := by
      rw [hwritten, cursor, cursor, hpos, List.append_assoc]
    rw [hbuf, ← hwritten] at hread hslow
    exact ⟨bw.writeInt (zigzag n), fun fuel hfuel => writeNumber_eq hn hfuel bw, hread, hslow⟩
  · intro hlow hhigh bw fuel hfuel
    rw [writeFast_fastCode hlow hhigh hfuel, writeSlow_slowCode hn hfuel]
  · intro done rest
    refine ⟨?_, readInt_ends n done rest⟩
    rw [readNumber_cursor hn, readSlow_cursor hn]

theorem writeNumber_readNumber_boundary : ∃ after, (∀ fuel, 8 ≤ fuel →
    (⟨List.replicate 20 0, 3⟩ : BufferWrapper).writeNumber fuel (.finite ((-1073741824 : Int) : ℚ)) = some after) ∧
    (⟨after.buf, 3⟩ : BufferWrapper).readNumber = (.finite ((-1073741824 : Int) : ℚ), after) := by
  have hlength : (varint (zigzag (-1073741824))).length ≤ 9 + 1 := varint_length_le 9
    (zigzag (-1073741824)) (by decide)
  have hroom : 3 + (varint (zigzag (-1073741824))).length ≤ (List.replicate 20 (0 : UInt8)).length := by
    rw [List.length_replicate]
    omega
  obtain ⟨after, hwrite, hread, -⟩ :=
    (@writeNumber_readNumber (-1073741824) (by decide)).1 ⟨List.replicate 20 0, 3⟩ hroom
  exact ⟨after, hwrite, hread⟩

end BufferWrapper

end ConfluentKafka
