import ConfluentKafka.CelEncode

/-!
# Two's complement, there and back

`bytesToBigIntSigned` and `bigIntToTwosComplementBytes` of `decimal-utils.ts`. An integer is written with the fewest
bytes, so that bytes come back unless their first byte only repeats the sign of the second. The integer zero is
written with one byte, and is also what no bytes are read as.
-/

namespace ConfluentKafka

namespace Cel

/-- The first byte is the sign that the bytes behind it have without it. -/
def RedundantSign : Bytes → Prop
  | b :: c :: _ => (b.toNat = 0x00 ∧ c.toNat < 0x80) ∨ (b.toNat = 0xff ∧ 0x80 ≤ c.toNat)
  | _ => False

/-! ## Bytes of one length -/

theorem bytesLE_natLE (bs : Bytes) : bytesLE bs.length (natLE bs) = bs := by
  induction bs with
  | nil => rfl
  | cons b bs ih =>
    have hb : b.toNat < 256 := b.toNat_lt
    have hlow : UInt8.ofNat (b.toNat + 256 * natLE bs) = b := by
      apply UInt8.toNat_inj.mp
      rw [UInt8.toNat_ofNat']
      omega
    have hrest : (b.toNat + 256 * natLE bs) / 256 = natLE bs := by omega
    rw [List.length_cons, natLE, bytesLE, hlow, hrest, ih]

theorem bytesBE_natBE (bs : Bytes) : bytesBE bs.length (natBE bs) = bs := by
  have h := bytesLE_natLE bs.reverse
  rw [List.length_reverse] at h
  rw [bytesBE, natBE, h, List.reverse_reverse]

theorem unsigned_signed {w n : Nat} (h : n < 256 ^ w) : unsigned w (signed w n) = n := by
  have hcast : ((256 ^ w : Nat) : Int) = (256 : Int) ^ w := by push_cast; rfl
  rw [unsigned, signed, ← hcast, Int.bmod_emod, ← Int.natCast_emod, Int.toNat_natCast, Nat.mod_eq_of_lt h]

theorem natBE_lt (bs : Bytes) : natBE bs < 256 ^ bs.length := by
  have h := natLE_lt bs.reverse
  rwa [List.length_reverse] at h

theorem natBE_cons (b : UInt8) (bs : Bytes) : natBE (b :: bs) = natBE bs + 256 ^ bs.length * b.toNat := by
  rw [natBE, List.reverse_cons, natLE_concat, List.length_reverse, natBE]

/-- The bytes of an integer with as many bytes as it was read from. -/
theorem bytesBE_unsigned_bytesToBigIntSigned (b : UInt8) (bs : Bytes) :
    bytesBE (bs.length + 1) (unsigned (bs.length + 1) (bytesToBigIntSigned (b :: bs))) = b :: bs := by
  have hlt := natBE_lt (b :: bs)
  rw [List.length_cons] at hlt
  rw [bytesToBigIntSigned_eq, unsigned_signed hlt]
  exact bytesBE_natBE (b :: bs)

/-! ## The first byte -/

def signStep (b c : UInt8) : Int :=
  b.toNat - (if 0x80 ≤ b.toNat then 256 else 0) + (if 0x80 ≤ c.toNat then 1 else 0)

theorem bytesToBigIntSigned_ite (b : UInt8) (bs : Bytes) : bytesToBigIntSigned (b :: bs) =
    natBE (b :: bs) - if 0x80 ≤ b.toNat then 256 ^ (bs.length + 1) else 0 := by
  rw [bytesToBigIntSigned, foldl_bytes, zero_mul, zero_add]
  split_ifs
  · rfl
  · rw [sub_zero]

theorem bytesToBigIntSigned_cons (b c : UInt8) (bs : Bytes) : bytesToBigIntSigned (b :: c :: bs) =
    bytesToBigIntSigned (c :: bs) + 256 ^ (bs.length + 1) * signStep b c := by
  rw [bytesToBigIntSigned_ite, bytesToBigIntSigned_ite, natBE_cons, signStep, List.length_cons]
  push_cast
  split_ifs <;> ring

theorem signStep_eq_zero_iff (b c : UInt8) : signStep b c = 0 ↔
    (b.toNat = 0x00 ∧ c.toNat < 0x80) ∨ (b.toNat = 0xff ∧ 0x80 ≤ c.toNat) := by
  have hb : b.toNat < 256 := b.toNat_lt
  unfold signStep
  split_ifs <;> omega

/-- Without the first byte there is no room for the integer, unless the byte adds nothing. -/
theorem signStep_eq_zero_of_fits {b c : UInt8} {bs : Bytes}
    (h : FitsBytes (bs.length + 1) (bytesToBigIntSigned (b :: c :: bs))) : signStep b c = 0 := by
  have hrest := fitsBytes_of_reads (c :: bs)
  rw [List.length_cons] at hrest
  rw [bytesToBigIntSigned_cons] at h
  obtain ⟨hlow, hhigh⟩ := h
  obtain ⟨hlow', hhigh'⟩ := hrest
  have hpos : (0 : Int) < 256 ^ (bs.length + 1) := by positivity
  have hbelow : signStep b c < 1 := by
    by_contra hge
    have := mul_le_mul_of_nonneg_left (Int.not_lt.mp hge) hpos.le
    linarith
  have habove : -1 < signStep b c := by
    by_contra hle
    have := mul_le_mul_of_nonneg_left (Int.not_lt.mp hle) hpos.le
    linarith
  omega

theorem fitsBytes_mono {w w' : Nat} {n : Int} (h : FitsBytes w n) (hw : w ≤ w') : FitsBytes w' n := by
  have hpow : (256 : Int) ^ w ≤ 256 ^ w' := pow_le_pow_right₀ (by norm_num) hw
  obtain ⟨hlow, hhigh⟩ := h
  constructor <;> linarith

/-! ## There and back -/

theorem bigIntToTwosComplementBytes_of_length {n : Int} {b : UInt8} {bs : Bytes}
    (hread : bytesToBigIntSigned (b :: bs) = n)
    (hlen : (bigIntToTwosComplementBytes n).length = bs.length + 1) : bigIntToTwosComplementBytes n = b :: bs := by
  have hback := bytesBE_unsigned_bytesToBigIntSigned b bs
  rw [hread] at hback
  by_cases hn : n = 0
  · subst hn
    have hone : bs.length = 0 := by
      rw [bigIntToTwosComplementBytes, if_pos rfl, List.length_singleton] at hlen
      omega
    rw [← hback, hone]
    rfl
  · rw [length_bigIntToTwosComplementBytes hn] at hlen
    have hfit : FitsBytes (byteLen n) n := fitsBytes_byteLen n
    rw [bigIntToTwosComplementBytes, if_neg hn, ← unsigned_eq_ite hfit, hlen]
    exact hback

theorem length_of_not_redundant {bs : Bytes} (hne : bs ≠ []) (h : ¬RedundantSign bs) :
    (bigIntToTwosComplementBytes (bytesToBigIntSigned bs)).length = bs.length := by
  have hmin := minimal_bigIntToTwosComplementBytes (bytesToBigIntSigned bs)
  refine Nat.le_antisymm (hmin.minimal bs hne rfl) ?_
  match bs with
  | [] => exact absurd rfl hne
  | [b] => exact List.length_pos_iff.mpr hmin.nonempty
  | b :: c :: bs =>
    by_contra hlt
    -- so few bytes have no room for the integer
    have hshort : (bigIntToTwosComplementBytes (bytesToBigIntSigned (b :: c :: bs))).length ≤ bs.length + 1 := by
      simp only [List.length_cons] at hlt
      omega
    have hfit := fitsBytes_of_reads (bigIntToTwosComplementBytes (bytesToBigIntSigned (b :: c :: bs)))
    rw [hmin.reads] at hfit
    exact h ((signStep_eq_zero_iff b c).mp (signStep_eq_zero_of_fits (fitsBytes_mono hfit hshort)))

theorem not_redundant_of_eq {bs : Bytes} (h : bigIntToTwosComplementBytes (bytesToBigIntSigned bs) = bs) :
    ¬RedundantSign bs := by
  match bs with
  | [] => exact id
  | [b] => exact id
  | b :: c :: bs =>
    intro hred
    have hread : bytesToBigIntSigned (c :: bs) = bytesToBigIntSigned (b :: c :: bs) := by
      rw [bytesToBigIntSigned_cons, (signStep_eq_zero_iff b c).mpr hred, mul_zero, add_zero]
    have hmin :=
      (minimal_bigIntToTwosComplementBytes (bytesToBigIntSigned (b :: c :: bs))).minimal (c :: bs) nofun hread
    rw [h, List.length_cons] at hmin
    exact Nat.not_succ_le_self _ hmin

theorem bigIntToTwosComplementBytes_eq_iff {bs : Bytes} (hne : bs ≠ []) :
    bigIntToTwosComplementBytes (bytesToBigIntSigned bs) = bs ↔ ¬RedundantSign bs := by
  refine ⟨not_redundant_of_eq, fun h => ?_⟩
  obtain ⟨b, bs, rfl⟩ := List.exists_cons_of_ne_nil hne
  exact bigIntToTwosComplementBytes_of_length rfl (length_of_not_redundant hne h)

/-- Integers come back, and no fewer bytes are read as one but that no bytes are read as zero; bytes come back
unless the first of them is redundant. -/
theorem twosComplement_codec :
    (∀ n, bytesToBigIntSigned (bigIntToTwosComplementBytes n) = n ∧
      ∀ bs, bytesToBigIntSigned bs = n → (bigIntToTwosComplementBytes n).length ≤ bs.length ∨ (n = 0 ∧ bs = [])) ∧
      ∀ bs, bs ≠ [] → (bigIntToTwosComplementBytes (bytesToBigIntSigned bs) = bs ↔ ¬RedundantSign bs) := by
  refine ⟨fun n => ⟨bytesToBigIntSigned_bigIntToTwosComplementBytes n, fun bs hread => ?_⟩, fun bs =>
    bigIntToTwosComplementBytes_eq_iff⟩
  by_cases hne : bs = []
  · subst hne
    exact .inr ⟨hread.symm, rfl⟩
  · exact .inl ((minimal_bigIntToTwosComplementBytes n).minimal bs hne hread)

theorem twosComplement_codec_byteBoundary :
    (bytesToBigIntSigned (bigIntToTwosComplementBytes (-129)) = -129 ∧
      ∀ bs, bytesToBigIntSigned bs = -129 → (bigIntToTwosComplementBytes (-129)).length ≤ bs.length ∨
        ((-129 : Int) = 0 ∧ bs = [])) ∧
      bigIntToTwosComplementBytes (bytesToBigIntSigned [0xff, 0x7f]) = [0xff, 0x7f] := by
  refine ⟨twosComplement_codec.1 (-129), (twosComplement_codec.2 [0xff, 0x7f] nofun).mpr ?_⟩
  simp [RedundantSign]

/-- No bytes are fewer than those of zero, and are read as zero. -/
theorem not_twosComplement_minimal_zero :
    ¬((∀ n, bytesToBigIntSigned (bigIntToTwosComplementBytes n) = n ∧
        ∀ bs, bytesToBigIntSigned bs = n → (bigIntToTwosComplementBytes n).length ≤ bs.length) ∧
      ∀ bs, bs ≠ [] → (bigIntToTwosComplementBytes (bytesToBigIntSigned bs) = bs ↔ ¬RedundantSign bs)) := by
  rintro ⟨hminimal, -⟩
  exact absurd ((hminimal 0).2 [] rfl) (by decide)

end Cel

end ConfluentKafka
