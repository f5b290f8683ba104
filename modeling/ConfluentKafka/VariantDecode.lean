import ConfluentKafka.VariantEncode

/-!
# Reading an encoding

What the accessors give where the encoding of a value stands, whatever is in front of it and
behind it: numbers, primitives, the tables of a container and the keys of the dictionary.
-/

namespace ConfluentKafka

open VariantFormat

/-! ## Numbers -/

section Numbers

variable {data bs : Bytes} {pos : Int}

theorem checkIndex_of_at (h : At data pos bs) {i : Nat} (hi : i < bs.length) :
    checkIndex (pos + i) data.length = .ok () := by
  have h₀ := h.nonneg
  have h₁ := h.le
  rw [checkIndex_eq_ok]
  omega

theorem checkIndex_start {b : UInt8} (h : At data pos (b :: bs)) : checkIndex pos data.length = .ok () := by
  simpa using checkIndex_of_at h (Nat.zero_lt_succ _)

theorem byteAt_of_at {b : UInt8} (h : At data pos (b :: bs)) : byteAt data pos = .ok b.toNat := by
  have h₀ := h.nonneg
  have h₁ := h.le
  rw [List.length_cons] at h₁
  rw [byteAt_ok h₀ (by push_cast at h₁; omega), h.getD]

/-- The loop goes down from the last byte, so the induction takes the bytes off the end. -/
theorem readLoop_of_at (h : At data pos bs) (result : Nat) :
    readLoop data pos bs.length result = .ok (result * 256 ^ bs.length + natLE bs) := by
  induction bs using List.reverseRecOn generalizing result with
  | nil => simp [readLoop, natLE]
  | append_singleton bs b ih =>
    rw [List.length_append, List.length_singleton, readLoop, byteAt_of_at h.right]
    refine (ih h.left _).trans ?_
    rw [natLE_concat, Nat.pow_succ]
    congr 1
    ring

theorem readUnsignedLE_of_at {w n : Nat} (h : At data pos (bytesLE w n)) (hw : 0 < w) (hn : n < 256 ^ w) :
    readUnsignedLE data pos w = .ok n := by
  have h₀ : checkIndex pos data.length = .ok () := by
    simpa using checkIndex_of_at (i := 0) h (by simpa using hw)
  have h₁ : checkIndex (pos + w - 1) data.length = .ok () := by
    have := checkIndex_of_at (i := w - 1) h (by rw [length_bytesLE]; omega)
    rwa [Nat.cast_sub hw, Nat.cast_one, ← Int.add_sub_assoc] at this
  have h₂ : readLoop data pos w 0 = .ok n := by
    have := readLoop_of_at h 0
    rwa [length_bytesLE, Nat.zero_mul, Nat.zero_add, natLE_bytesLE_of_lt hn] at this
  rw [readUnsignedLE, h₀, h₁]
  exact h₂

theorem subarray_of_at (h : At data pos bs) : subarray data pos (pos + bs.length) = .ok bs := by
  have h₀ := h.nonneg
  have h₁ := h.le
  have hlen : (pos + bs.length - pos).toNat = bs.length := by omega
  rw [subarray, if_pos ⟨h₀, by omega, h₁⟩, hlen, h.take_drop]

end Numbers

/-! ## Two's complement -/

theorem signedLE_eq {w : Nat} {value : Int} (h : FitsBytes w value) : signedLE value w = bytesLE w
    (unsigned w value) := by
  obtain ⟨h₁, h₂⟩ := h
  have hpos : (0 : Int) < 256 ^ w := by positivity
  rw [signedLE, unsigned]
  split
  · next hneg =>
    have hmod : value % 256 ^ w = 256 ^ w + value := by
      rw [← Int.add_emod_left, Int.emod_eq_of_lt (by omega) (by omega)]
    rw [hmod]
  · rw [Int.emod_eq_of_lt (by omega) (by omega)]

@[simp] theorem length_signedLE (value : Int) (w : Nat) : (signedLE value w).length = w := by
  rw [signedLE, length_bytesLE]

theorem natLE_signedLE {w : Nat} {value : Int} (h : FitsBytes w value) :
    natLE (signedLE value w) = unsigned w value := by
  rw [signedLE_eq h, natLE_bytesLE_of_lt (unsigned_lt w value)]

theorem readSignedLE_of_at {data : Bytes} {pos : Int} {w : Nat} {value : Int}
    (h : At data pos (signedLE value (w + 1)))
    (hv : FitsBytes (w + 1) value) : readSignedLE data pos (w + 1) = .ok value := by
  obtain ⟨bs, b, hbs⟩ : ∃ bs b, signedLE value (w + 1) = bs ++ [b] := by
    have hne : signedLE value (w + 1) ≠ [] := List.ne_nil_of_length_pos (by simp)
    exact ⟨_, _, (List.dropLast_append_getLast hne).symm⟩
  have hlen : bs.length = w := by
    have := length_signedLE value (w + 1)
    rw [hbs] at this
    simpa using this
  have hread := readLoop_of_at h 0
  have hnat := natLE_signedLE hv
  have hstart : checkIndex pos data.length = .ok () := by
    simpa using checkIndex_of_at (i := 0) h (by simp)
  have hlast : checkIndex (pos + (w + 1 : Nat) - 1) data.length = .ok () := by
    have hpos : pos + (w + 1 : Nat) - 1 = pos + (w : Nat) := by push_cast; omega
    rw [hpos]
    exact checkIndex_of_at h (by simp)
  have htop : byteAt data (pos + (w + 1 : Nat) - 1) = .ok b.toNat := by
    have hpos : pos + (w + 1 : Nat) - 1 = pos + (bs.length : Nat) := by rw [hlen]; push_cast; omega
    rw [hpos]
    rw [hbs] at h
    exact byteAt_of_at h.right
  rw [length_signedLE, Nat.zero_mul, Nat.zero_add, hnat] at hread
  rw [readSignedLE, hstart, hlast, hread, htop]
  have hsign := sign_bit bs b
  rw [← hbs, hnat, hlen] at hsign
  have hsigned := signed_unsigned hv
  rw [signed_eq_ite _ _ (unsigned_lt _ _)] at hsigned
  refine congrArg Except.ok ?_
  simp only [hsign]
  exact_mod_cast hsigned

/-! ## Texts -/

def stripBom : List Char → List Char
  | [] => []
  | c :: cs => if c = BOM then cs else c :: cs

theorem utf8EncodeChar_BOM : String.utf8EncodeChar BOM = [0xEF, 0xBB, 0xBF] := by decide

theorem textDecode_encode (s : List Char) : textDecode (Utf8.encode s) = stripBom s := by
  unfold textDecode
  split
  · next bs h =>
    have hrun : Utf8.decode (Utf8.encode s) = BOM :: Utf8.decode bs := by
      have he : Utf8.encode s = String.utf8EncodeChar BOM ++ bs := by rw [h, utf8EncodeChar_BOM]; rfl
      rw [he]
      exact Utf8.run_encodeChar BOM bs
    rw [Utf8.decode_encode] at hrun
    rw [hrun, stripBom, if_pos rfl]
  · next hne =>
    rw [Utf8.decode_encode]
    cases s with
    | nil => rfl
    | cons c cs =>
      have hc : c ≠ BOM := by
        rintro rfl
        refine hne (Utf8.encode cs) ?_
        rw [Utf8.encode, List.flatMap_cons, utf8EncodeChar_BOM]
        rfl
      rw [stripBom, if_neg hc]

theorem IsString.stripBom {s : List Char} (h : IsString s) : IsString (stripBom s) := by
  cases s with
  | nil => exact h
  | cons c cs =>
    rw [ConfluentKafka.stripBom]
    split_ifs with hc
    · rw [IsString, textLength, Utf16.ofChars_cons, List.length_append] at h
      exact (Nat.le_add_left _ _).trans h
    · exact h

theorem makeString_encode {s : List Char} (h : IsString s) : makeString (textDecode (Utf8.encode s)) = .ok
    (stripBom s) := by
  rw [textDecode_encode, makeString, if_pos h.stripBom]

/-! ## Primitives -/

def Primitive.strip : Primitive → Primitive
  | .string s => .string (stripBom s)
  | p => p

namespace Variant

section Header

variable {v : Variant} {code : Nat} {b : UInt8} {bs : Bytes}

theorem getTypeInfo_of_at (h : At v.value v.pos (b :: bs)) :
    getTypeInfo v.value v.pos = .ok (b.toNat % 4, b.toNat / 4 % 64) := by
  rw [getTypeInfo, byteAt_of_at h]
  rfl

theorem typeInfo_primitiveHeader (hc : code < 64) :
    (primitiveHeader code).toNat % 4 = PRIMITIVE ∧ (primitiveHeader code).toNat / 4 % 64 = code := by
  simp only [primitiveHeader, PRIMITIVE, UInt8.toNat_ofNat']
  omega

theorem getType_of_at (h : At v.value v.pos (primitiveHeader code :: bs)) (hc : code < 64) {t : VariantType}
    (ht : TYPE_MAP code = some t) : v.getType = .ok t := by
  obtain ⟨h₁, h₂⟩ := typeInfo_primitiveHeader hc
  rw [getType, checkIndex_start h, getTypeInfo_of_at h, h₁, h₂]
  simp only [bind, Except.bind]
  rw [if_neg (by decide), if_neg (by decide), if_neg (by decide), ht]
  rfl

theorem primitiveInfo_of_at (h : At v.value v.pos (primitiveHeader code :: bs)) (hc : code < 64) :
    v.primitiveInfo = .ok code := by
  obtain ⟨h₁, h₂⟩ := typeInfo_primitiveHeader hc
  rw [primitiveInfo, checkIndex_start h, getTypeInfo_of_at h, h₁, h₂]
  rfl

theorem payload_of_at {w n : Nat} (h : At v.value v.pos (b :: bytesLE w n)) (hn : n < 256 ^ w) :
    v.payload w = .ok n := by
  have hcheck : checkIndex (v.pos + w) v.value.length = .ok () := checkIndex_of_at h (by simp)
  have hread := readLoop_of_at h.tail 0
  rw [length_bytesLE, Nat.zero_mul, Nat.zero_add, natLE_bytesLE_of_lt hn] at hread
  rw [payload, hcheck]
  exact hread

theorem signedPayload_of_at {w : Nat} {value : Int} (h : At v.value v.pos (b :: signedLE value w))
    (hv : FitsBytes w value) : v.signedPayload w = .ok value := by
  rw [signedLE_eq hv] at h
  rw [signedPayload, payload_of_at h (unsigned_lt w value)]
  exact congrArg Except.ok (signed_unsigned hv)

/-- The getters of the integers, by the type code and the width. -/
theorem getLong_of_at {w : Nat} {value : Int} (h : At v.value v.pos (primitiveHeader code :: signedLE value w))
    (hv : FitsBytes w value) (hc : code < 64)
    (hw : (code = DATE ∧ w = 4) ∨ w = 8 ∧ (code = INT8 ∨ code = TIMESTAMP ∨ code = TIMESTAMP_NTZ ∨ code = TIME ∨
      code = TIMESTAMP_NANOS ∨ code = TIMESTAMP_NANOS_NTZ)) : v.getLong = .ok value := by
  have hread := signedPayload_of_at h hv
  rw [getLong, primitiveInfo_of_at h hc]
  rcases hw with ⟨rfl, rfl⟩ | ⟨rfl, rfl | rfl | rfl | rfl | rfl | rfl⟩
  all_goals exact hread

theorem lengthPrefixed_of_at (h : At v.value v.pos (b :: (uintLE bs.length U32_SIZE ++ bs)))
    (hlen : bs.length < 2 ^ 32) :
    readUnsignedLE v.value (v.pos + 1) U32_SIZE = .ok bs.length ∧
      checkIndex (v.pos + 1 + U32_SIZE + bs.length - 1) v.value.length = .ok () ∧
      subarray v.value (v.pos + 1 + U32_SIZE) (v.pos + 1 + U32_SIZE + bs.length) = .ok bs := by
  have hbytes : At v.value (v.pos + 1 + U32_SIZE) bs := by
    have := h.tail.right
    rwa [uintLE, length_bytesLE] at this
  refine ⟨readUnsignedLE_of_at h.tail.left (by decide) hlen, ?_, subarray_of_at hbytes⟩
  have hpos : v.pos + 1 + (U32_SIZE : Nat) + bs.length - 1 = v.pos + (U32_SIZE + bs.length : Nat) := by
    push_cast
    omega
  rw [hpos]
  exact checkIndex_of_at h (by simp [uintLE])

theorem getBinary_of_at (h : At v.value v.pos (primitiveHeader BINARY :: (uintLE bs.length U32_SIZE ++ bs)))
    (hlen : bs.length < 2 ^ 32) : v.getBinary = .ok bs := by
  obtain ⟨h₁, h₂, h₃⟩ := lengthPrefixed_of_at h hlen
  rw [getBinary, primitiveInfo_of_at h (by decide)]
  simp only [bind, Except.bind, ne_eq, not_true_eq_false, if_false, h₁, h₂, h₃]

theorem stringBytes_of_long (h : At v.value v.pos (primitiveHeader LONG_STR :: (uintLE bs.length U32_SIZE ++ bs)))
    (hlen : bs.length < 2 ^ 32) : v.stringBytes = .ok bs := by
  obtain ⟨h₁, h₂, h₃⟩ := lengthPrefixed_of_at h hlen
  obtain ⟨hb, hi⟩ := typeInfo_primitiveHeader (show LONG_STR < 64 by decide)
  have hbounds : v.stringBounds = .ok (v.pos + 1 + U32_SIZE, bs.length) := by
    rw [stringBounds, checkIndex_start h, getTypeInfo_of_at h, hb, hi]
    simp only [bind, Except.bind]
    rw [if_neg (by decide), if_pos (by decide), h₁]
    rfl
  rw [stringBytes, hbounds]
  simp only [bind, Except.bind, h₂, h₃]

theorem typeInfo_shortString {n : Nat} (hn : n ≤ MAX_SHORT_STR_SIZE) :
    (UInt8.ofNat (n * 4 + SHORT_STR)).toNat % 4 = SHORT_STR ∧ (UInt8.ofNat (n * 4 + SHORT_STR)).toNat /
      4 % 64 = n := by
  simp only [MAX_SHORT_STR_SIZE] at hn
  simp only [SHORT_STR, UInt8.toNat_ofNat']
  omega

theorem getType_of_short (h : At v.value v.pos (UInt8.ofNat (bs.length * 4 + SHORT_STR) :: bs))
    (hlen : bs.length ≤ MAX_SHORT_STR_SIZE) : v.getType = .ok .STRING := by
  rw [getType, checkIndex_start h, getTypeInfo_of_at h, (typeInfo_shortString hlen).1]
  rfl

theorem stringBytes_of_short (h : At v.value v.pos (UInt8.ofNat (bs.length * 4 + SHORT_STR) :: bs))
    (hlen : bs.length ≤ MAX_SHORT_STR_SIZE) : v.stringBytes = .ok bs := by
  obtain ⟨hb, hi⟩ := typeInfo_shortString hlen
  have hbounds : v.stringBounds = .ok (v.pos + 1, bs.length) := by
    rw [stringBounds, checkIndex_start h, getTypeInfo_of_at h, hb, hi]
    rfl
  have hcheck : checkIndex (v.pos + 1 + bs.length - 1) v.value.length = .ok () := by
    have hpos : v.pos + 1 + bs.length - 1 = v.pos + (bs.length : Nat) := by omega
    rw [hpos]
    exact checkIndex_of_at h (by simp)
  rw [stringBytes, hbounds]
  simp only [bind, Except.bind, hcheck, subarray_of_at h.tail]

theorem lt_of_decimalDigits {unscaled : Int} {k : Nat} (hk : 0 < k) (h : (decimalDigits unscaled).length ≤ k) :
    unscaled.natAbs < 10 ^ k := (Nat.length_toDigits_le_iff (by decide) hk).mp h

theorem getDecimalParts_of_at {width precision scale : Nat} {unscaled : Int}
    (h : At v.value v.pos (primitiveHeader code :: UInt8.ofNat scale :: signedLE unscaled (width + 1)))
    (hc : code < 64)
    (hf : decimalFormat code = .ok (width + 1, precision)) (hs : scale < 256)
    (hd : (decimalDigits unscaled).length ≤ precision) (hv : FitsBytes (width + 1) unscaled) :
    v.getDecimalParts = .ok (unscaled, scale) := by
  have hscale : byteAt v.value (v.pos + 1) = .ok scale := by
    rw [byteAt_of_at h.tail, UInt8.toNat_ofNat', Nat.mod_eq_of_lt hs]
  have hread : readSignedLE v.value (v.pos + 2) (width + 1) = .ok unscaled := by
    have := readSignedLE_of_at h.tail.tail hv
    rwa [Int.add_assoc] at this
  have hcheck : checkDecimal unscaled precision = .ok () := if_neg (Nat.not_lt.mpr hd)
  rw [getDecimalParts, primitiveInfo_of_at h hc]
  simp only [bind, Except.bind, checkIndex_start h.tail, hscale, hf, hread, hcheck]
  rfl

end Header

/-! ## UUIDs -/

theorem hexPair_hexByte : ∀ b : Fin 256, hexPair (Nat.digitChar (b.val / 16)) (Nat.digitChar (b.val % 16)) =
    UInt8.ofNat b.val ∧
    Nat.digitChar (b.val / 16) ≠ '-' ∧ Nat.digitChar (b.val % 16) ≠ '-' := by
  decide +kernel

theorem hexPairs_hexBytes (bs : Bytes) : hexPairs (bs.flatMap hexByte) = bs := by
  induction bs with
  | nil => rfl
  | cons b bs ih =>
    rw [List.flatMap_cons, hexByte, List.cons_append, List.cons_append, List.nil_append, hexPairs, ih]
    have hb := (hexPair_hexByte ⟨b.toNat, b.toNat_lt⟩).1
    dsimp only at hb
    rw [hb, UInt8.ofNat_toNat]

theorem hyphen_not_mem_hexBytes (bs : Bytes) : ∀ c ∈ bs.flatMap hexByte, c ≠ '-' := by
  intro c hc
  obtain ⟨b, -, hc⟩ := List.mem_flatMap.mp hc
  obtain ⟨-, h₁, h₂⟩ := hexPair_hexByte ⟨b.toNat, b.toNat_lt⟩
  simp only [hexByte, List.mem_cons, List.not_mem_nil, or_false] at hc
  rcases hc with rfl | rfl
  · exact h₁
  · exact h₂

theorem take_drop_append_drop {α : Type} (l : List α) {m n : Nat} (h : n ≤ m) : (l.take m).drop n ++ l.drop m =
    l.drop n := by
  have hm : l.drop m = (l.drop n).drop (m - n) := by rw [List.drop_drop, Nat.add_sub_cancel' h]
  rw [List.drop_take, hm, List.take_append_drop]

theorem uuidBytes_formatUuid (bs : Bytes) : uuidBytes (formatUuid bs) = bs := by
  have hno := hyphen_not_mem_hexBytes bs
  have keep : ∀ part : List Char, part ⊆ bs.flatMap hexByte → part.filter (fun c => c ≠ '-') = part := by
    intro part hpart
    rw [List.filter_eq_self]
    intro c hc
    simpa using hno c (hpart hc)
  have hmid : ∀ m n, ((bs.flatMap hexByte).take m).drop n ⊆ bs.flatMap hexByte := by
    intro m n c hc
    exact List.mem_of_mem_take (List.mem_of_mem_drop hc)
  have hhyphen : ∀ part : List Char, ('-' :: part).filter (fun c => c ≠ '-') = part.filter (fun c => c ≠ '-') := by
    intro part
    rw [List.filter_cons_of_neg (by simp)]
  have hjoin : (formatUuid bs).filter (fun c => c ≠ '-') = bs.flatMap hexByte := by
    rw [formatUuid, List.filter_append, hhyphen, List.filter_append, hhyphen, List.filter_append, hhyphen,
      List.filter_append, hhyphen,
      keep _ (List.take_subset _ _), keep _ (hmid _ _), keep _ (hmid _ _), keep _ (hmid _ _),
      keep _ (List.drop_subset _ _), take_drop_append_drop _ (by decide), take_drop_append_drop _ (by decide),
      take_drop_append_drop _ (by decide), List.take_append_drop]
  rw [uuidBytes, hjoin, hexPairs_hexBytes]

theorem getUuid_of_at {v : Variant} {bs : Bytes} (h : At v.value v.pos (primitiveHeader UUID :: bs))
    (hlen : bs.length = 16) :
    v.getUuid = .ok (formatUuid bs) := by
  have hcheck : checkIndex (v.pos + 1 + 15) v.value.length = .ok () := by
    have := checkIndex_of_at (i := 16) h (by rw [List.length_cons, hlen]; decide)
    rwa [Int.add_assoc]
  have hread : subarray v.value (v.pos + 1) (v.pos + 1 + 16) = .ok bs := by
    have := subarray_of_at h.tail
    rwa [hlen] at this
  rw [getUuid, primitiveInfo_of_at h (by decide)]
  simp only [bind, Except.bind, ne_eq, not_true_eq_false, if_false, hcheck, hread]
  rfl

/-! ## All of them -/

structure ReadsPrimitive (v : Variant) (p : Primitive) (t : VariantType) : Prop where
  type : v.getType = .ok t
  not_object : t ≠ .OBJECT
  not_array : t ≠ .ARRAY
  read : v.readPrimitive t = .ok p

theorem readsPrimitive_of_at {α : Type} {v : Variant} {code : Nat} {bs : Bytes} {t : VariantType}
    {getter : Except VariantFault α} {a : α} (f : α → Primitive) (h : At v.value v.pos (primitiveHeader code :: bs))
    (hc : code < 64) (ht : TYPE_MAP code = some t) (ho : t ≠ .OBJECT) (ha : t ≠ .ARRAY)
    (hread : v.readPrimitive t = getter >>= fun x => pure (f x)) (hget : getter = .ok a) :
      v.ReadsPrimitive (f a) t := by
  refine ⟨getType_of_at h hc ht, ho, ha, ?_⟩
  rw [hread, hget]
  rfl

theorem readsPrimitive_string {v : Variant} {s : List Char} (h : At v.value v.pos (Primitive.string s).encode)
    (hlen : (Primitive.string s).encode.length < 2 ^ 32) (hs : IsString s) :
    v.ReadsPrimitive (.string (stripBom s)) .STRING := by
  have hget : v.stringBytes = .ok (Utf8.encode s) → v.getString = .ok (stripBom s) := by
    intro hbytes
    rw [getString, hbytes]
    exact makeString_encode hs
  rw [Primitive.encode] at h hlen
  split at h
  · next hlong =>
    rw [if_pos hlong] at hlen
    simp only [List.length_cons, List.length_append] at hlen
    have hbytes := stringBytes_of_long h (by omega)
    exact readsPrimitive_of_at .string h (by decide) rfl (by decide) (by decide) rfl (hget hbytes)
  · next hshort =>
    have hbytes := stringBytes_of_short h (Nat.not_lt.mp hshort)
    refine ⟨getType_of_short h (Nat.not_lt.mp hshort), by decide, by decide, ?_⟩
    rw [readPrimitive, hget hbytes]
    rfl

theorem fitsBytes_of_decimalDigits {unscaled : Int} {precision w : Nat} (hp : 0 < precision)
    (h : (decimalDigits unscaled).length ≤ precision) (hw : 2 * 10 ^ precision ≤ 256 ^ w) :
      FitsBytes w unscaled := by
  have hlt := lt_of_decimalDigits hp h
  have hcast : ((256 ^ w : Nat) : Int) = (256 : Int) ^ w := by push_cast; rfl
  rw [FitsBytes, ← hcast]
  omega

theorem readsPrimitive_decimal_of_at {v : Variant} {code width precision scale : Nat} {unscaled : Int}
    {t : VariantType}
    (h : At v.value v.pos (primitiveHeader code :: UInt8.ofNat scale :: signedLE unscaled (width + 1)))
    (hc : code < 64)
    (hf : decimalFormat code = .ok (width + 1, precision)) (ht : TYPE_MAP code = some t)
    (hd : t = .DECIMAL4 ∨ t = .DECIMAL8 ∨ t = .DECIMAL16) (hs : scale < 256) (hp : 0 < precision)
    (hdigits : (decimalDigits unscaled).length ≤ precision) (hw : 2 * 10 ^ precision ≤ 256 ^ (width + 1)) :
    v.ReadsPrimitive (.decimal unscaled scale) t := by
  have hread := getDecimalParts_of_at h hc hf hs hdigits (fitsBytes_of_decimalDigits hp hdigits hw)
  refine ⟨getType_of_at h hc ht, ?_, ?_, ?_⟩
  · rcases hd with rfl | rfl | rfl <;> decide
  · rcases hd with rfl | rfl | rfl <;> decide
  · rcases hd with rfl | rfl | rfl
    all_goals rw [readPrimitive, hread]; rfl

theorem readsPrimitive_decimal {v : Variant} {unscaled : Int} {scale : Nat}
    (h : At v.value v.pos (Primitive.decimal unscaled scale).encode)
    (hp : (Primitive.decimal unscaled scale).WellFormed) :
    ∃ t, v.ReadsPrimitive (.decimal unscaled scale) t := by
  obtain ⟨hd, hs⟩ : (decimalDigits unscaled).length ≤ 38 ∧ scale ≤ 38 := hp
  have hscale : scale < 256 := by omega
  rw [Primitive.encode, VariantBuilder.decimalCode] at h
  by_cases h₄ : (scale : Int) ≤ MAX_DECIMAL4_PRECISION ∧ (decimalDigits unscaled).length ≤ MAX_DECIMAL4_PRECISION
  · rw [if_pos h₄] at h
    exact ⟨_, readsPrimitive_decimal_of_at h (by decide) rfl rfl (by simp) hscale (by decide) h₄.2 (by decide)⟩
  rw [if_neg h₄] at h
  by_cases h₈ : (scale : Int) ≤ MAX_DECIMAL8_PRECISION ∧ (decimalDigits unscaled).length ≤ MAX_DECIMAL8_PRECISION
  · rw [if_pos h₈] at h
    exact ⟨_, readsPrimitive_decimal_of_at h (by decide) rfl rfl (by simp) hscale (by decide) h₈.2 (by decide)⟩
  have h₁₆ : (scale : Int) ≤ MAX_DECIMAL16_PRECISION ∧ (decimalDigits unscaled).length ≤ MAX_DECIMAL16_PRECISION :=
    ⟨by exact_mod_cast hs, hd⟩
  rw [if_neg h₈, if_pos h₁₆] at h
  exact ⟨_, readsPrimitive_decimal_of_at h (by decide) rfl rfl (by simp) hscale (by decide) hd (by decide)⟩

theorem readsPrimitive {v : Variant} {p : Primitive} (h : At v.value v.pos p.encode) (hp : p.WellFormed)
    (hlen : p.encode.length < 2 ^ 32) (hs : p.hasStrings = true) : ∃ t, v.ReadsPrimitive p.strip t := by
  cases p with
  | null => exact ⟨.NULL, getType_of_at h (by decide) rfl, by decide, by decide, rfl⟩
  | boolean x =>
    cases x with
    | false =>
      have hget : v.getBoolean = .ok false := by
        rw [getBoolean, primitiveInfo_of_at h (by decide)]
        rfl
      exact ⟨_, readsPrimitive_of_at .boolean h (by decide) rfl (by decide) (by decide) rfl hget⟩
    | true =>
      have hget : v.getBoolean = .ok true := by
        rw [getBoolean, primitiveInfo_of_at h (by decide)]
        rfl
      exact ⟨_, readsPrimitive_of_at .boolean h (by decide) rfl (by decide) (by decide) rfl hget⟩
  | byte value =>
    have hget : v.getByte = .ok value := by
      rw [getByte, primitiveInfo_of_at h (by decide)]
      exact signedPayload_of_at h hp
    exact ⟨_, readsPrimitive_of_at .byte h (by decide) rfl (by decide) (by decide) rfl hget⟩
  | short value =>
    have hget : v.getShort = .ok value := by
      rw [getShort, primitiveInfo_of_at h (by decide)]
      exact signedPayload_of_at h hp
    exact ⟨_, readsPrimitive_of_at .short h (by decide) rfl (by decide) (by decide) rfl hget⟩
  | int value =>
    have hget : v.getInt = .ok value := by
      rw [getInt, primitiveInfo_of_at h (by decide)]
      exact signedPayload_of_at h hp
    exact ⟨_, readsPrimitive_of_at .int h (by decide) rfl (by decide) (by decide) rfl hget⟩
  | float bits =>
    have hget : v.getFloat = .ok bits := by
      rw [getFloat, primitiveInfo_of_at h (by decide)]
      simp only [bind, Except.bind, if_true, payload_of_at h bits.isLt, BitVec.ofNat_toNat, BitVec.setWidth_eq]
      rfl
    exact ⟨_, readsPrimitive_of_at .float h (by decide) rfl (by decide) (by decide) rfl hget⟩
  | double bits =>
    have hget : v.getDouble = .ok bits := by
      rw [getDouble, primitiveInfo_of_at h (by decide)]
      simp only [bind, Except.bind, if_true, payload_of_at h bits.isLt, BitVec.ofNat_toNat, BitVec.setWidth_eq]
      rfl
    exact ⟨_, readsPrimitive_of_at .double h (by decide) rfl (by decide) (by decide) rfl hget⟩
  | decimal unscaled scale => exact readsPrimitive_decimal h hp
  | long value =>
    have hget := getLong_of_at h hp (by decide) (by decide)
    exact ⟨_, readsPrimitive_of_at .long h (by decide) rfl (by decide) (by decide) rfl hget⟩
  | date value =>
    have hget := getLong_of_at h hp (by decide) (by decide)
    exact ⟨_, readsPrimitive_of_at .date h (by decide) rfl (by decide) (by decide) rfl hget⟩
  | time value =>
    have hget := getLong_of_at h hp (by decide) (by decide)
    exact ⟨_, readsPrimitive_of_at .time h (by decide) rfl (by decide) (by decide) rfl hget⟩
  | timestampTz value =>
    have hget := getLong_of_at h hp (by decide) (by decide)
    exact ⟨_, readsPrimitive_of_at .timestampTz h (by decide) rfl (by decide) (by decide) rfl hget⟩
  | timestampNtz value =>
    have hget := getLong_of_at h hp (by decide) (by decide)
    exact ⟨_, readsPrimitive_of_at .timestampNtz h (by decide) rfl (by decide) (by decide) rfl hget⟩
  | timestampNanosTz value =>
    have hget := getLong_of_at h hp (by decide) (by decide)
    exact ⟨_, readsPrimitive_of_at .timestampNanosTz h (by decide) rfl (by decide) (by decide) rfl hget⟩
  | timestampNanosNtz value =>
    have hget := getLong_of_at h hp (by decide) (by decide)
    exact ⟨_, readsPrimitive_of_at .timestampNanosNtz h (by decide) rfl (by decide) (by decide) rfl hget⟩
  | uuid bytes =>
    have hget := getUuid_of_at h hp
    have hread := readsPrimitive_of_at (fun text => .uuid (uuidBytes text)) h (by decide) rfl
      (by decide) (by decide)
      rfl hget
    rw [uuidBytes_formatUuid] at hread
    exact ⟨_, hread⟩
  | binary data =>
    have hget := getBinary_of_at h
      (by simp only [Primitive.encode, List.length_cons, List.length_append] at hlen; omega)
    exact ⟨_, readsPrimitive_of_at .binary h (by decide) rfl (by decide) (by decide) rfl hget⟩
  | string s => exact ⟨_, readsPrimitive_string h hlen (of_decide_eq_true hs)⟩

end Variant

/-! ## The dictionary -/

theorem lt_pow_integerSize {m n : Nat} (h : n ≤ m) (hm : m < 2 ^ 32) : n < 256 ^ integerSize m := by
  unfold integerSize
  split
  · next h₁ => exact Nat.lt_succ_of_le (h.trans h₁)
  split
  · next h₂ => exact Nat.lt_succ_of_le (h.trans h₂)
  split
  · next h₃ => exact Nat.lt_succ_of_le (h.trans h₃)
  · exact h.trans_lt hm

@[simp] theorem length_uintLE (n w : Nat) : (uintLE n w).length = w := length_bytesLE w n

namespace VariantBuilder

theorem totalLength_eq (keys : List Bytes) : totalLength keys = keys.flatten.length := by
  rw [totalLength, List.length_flatten]

theorem length_keyOffsets (keys : List Bytes) (offset : Nat) : (keyOffsets offset keys).length =
    keys.length + 1 := by
  induction keys generalizing offset with
  | nil => rfl
  | cons key keys ih => rw [keyOffsets, List.length_cons, List.length_cons, ih]

theorem getElem?_keyOffsets {keys : List Bytes} {i : Nat} (hi : i ≤ keys.length) (offset : Nat) :
    (keyOffsets offset keys)[i]? = some (offset + (keys.take i).flatten.length) := by
  induction keys generalizing offset i with
  | nil =>
    obtain rfl : i = 0 := by simpa using hi
    simp [keyOffsets]
  | cons key keys ih =>
    cases i with
    | zero => simp [keyOffsets]
    | succ i =>
      rw [keyOffsets, List.getElem?_cons_succ, ih (by simpa using hi)]
      simp [Nat.add_assoc]

theorem length_metadataBytes (keys : List Bytes) :
    (metadataBytes keys).length = 1 + (keys.length + 2) * integerSize (max (totalLength keys) keys.length) +
      keys.flatten.length := by
  rw [metadataBytes, List.length_cons, List.length_append, List.length_append, length_uintLE,
    length_flatMap_of_width (fun o => length_uintLE o _), length_keyOffsets]
  ring

end VariantBuilder

open VariantBuilder in
theorem metadataKeyBytes_of_getElem? {keys : List Bytes} (hlen : (metadataBytes keys).length ≤ MAX_ARRAY_LENGTH)
    {id : Nat}
    {key : Bytes} (hkey : keys[id]? = some key) : metadataKeyBytes (metadataBytes keys) id = .ok key := by
  obtain ⟨hid, rfl⟩ := List.getElem?_eq_some_iff.mp hkey
  obtain ⟨os, hos⟩ : ∃ os, os = integerSize (max (totalLength keys) keys.length) := ⟨_, rfl⟩
  have hpos : 0 < os := hos ▸ integerSize_pos _
  have hle : os ≤ 4 := hos ▸ integerSize_le _
  have hsize := length_metadataBytes keys
  rw [← hos] at hsize
  have hcount : keys.length + 2 ≤ (keys.length + 2) * os := Nat.le_mul_of_pos_right _ hpos
  have hmax : max (totalLength keys) keys.length < 2 ^ 32 := by
    rw [totalLength_eq]
    simp only [MAX_ARRAY_LENGTH] at hlen
    omega
  have hfits : ∀ n, n ≤ totalLength keys ∨ n ≤ keys.length → n < 256 ^ os := by
    intro n hn
    rw [hos]
    exact lt_pow_integerSize (by omega) hmax
  have hbytes := at_self (metadataBytes keys)
  nth_rewrite 2 [metadataBytes] at hbytes
  simp only [← hos] at hbytes
  -- the header, the number of keys, the offsets and the keys
  have hheader : byteAt (metadataBytes keys) 0 = .ok (VERSION + (os - 1) * 64) := by
    rw [byteAt_of_at hbytes, UInt8.toNat_ofNat', Nat.mod_eq_of_lt (by simp only [VERSION]; omega)]
  have hwidth : (VERSION + (os - 1) * 64) / 64 % 4 + 1 = os := by
    simp only [VERSION]
    omega
  have hdict : readUnsignedLE (metadataBytes keys) 1 os = .ok keys.length :=
    readUnsignedLE_of_at hbytes.tail.left hpos (hfits _ (.inr (Nat.le_refl _)))
  have htable := hbytes.tail.right.left
  have hstrings := hbytes.tail.right.right
  rw [length_uintLE] at htable hstrings
  rw [length_flatMap_of_width (fun o => length_uintLE o _), length_keyOffsets] at hstrings
  have htotal : ∀ i, (keys.take i).flatten.length ≤ totalLength keys := by
    intro i
    have hsplit : keys.flatten = (keys.take i).flatten ++ (keys.drop i).flatten := by
      rw [← List.flatten_append, List.take_append_drop]
    rw [totalLength_eq, hsplit, List.length_append]
    omega
  have hoffset : ∀ i, i ≤ keys.length → readUnsignedLE (metadataBytes keys) ((1 + (i + 1) * os : Nat) : Int) os =
      .ok (keys.take i).flatten.length := by
    intro i hi
    have hentry := htable.entry (fun o => length_uintLE o os) (getElem?_keyOffsets hi 0)
    rw [Nat.zero_add] at hentry
    have hat : (0 + 1 + os + (os * i : Nat) : Int) = ((1 + (i + 1) * os : Nat) : Int) := by push_cast; ring
    rw [hat] at hentry
    exact readUnsignedLE_of_at hentry hpos (hfits _ (.inl (htotal i)))
  have hnext : (keys.take (id + 1)).flatten.length = (keys.take id).flatten.length + keys[id].length := by
    rw [List.take_add_one, List.getElem?_eq_getElem hid, List.flatten_append, List.length_append]
    simp
  have hsegment := hstrings.segment hkey
  have hstart : (0 + 1 + os + (os * (keys.length + 1) : Nat) + (keys.take id).flatten.length : Int) =
      ((1 + (keys.length + 2) * os + (keys.take id).flatten.length : Nat) : Int) := by
    push_cast
    ring
  rw [hstart] at hsegment
  have hstop : ((1 + (keys.length + 2) * os + (keys.take id).flatten.length : Nat) : Int) + keys[id].length =
      ((1 + (keys.length + 2) * os + (keys.take (id + 1)).flatten.length : Nat) : Int) := by
    rw [hnext]
    push_cast
    ring
  have hsub := subarray_of_at hsegment
  rw [hstop] at hsub
  have hcheck : checkIndex ((1 + (keys.length + 2) * os + (keys.take (id + 1)).flatten.length : Nat) - 1 : Int)
      (metadataBytes keys).length = .ok () := by
    have hl := htotal (id + 1)
    rw [totalLength_eq] at hl
    rw [checkIndex_eq_ok]
    omega
  rw [metadataKeyBytes, checkIndex_start hbytes, hheader]
  simp only [bind, Except.bind]
  rw [hwidth, hdict]
  simp only
  rw [if_neg (by omega), hoffset id (by omega), hoffset (id + 1) (by omega)]
  simp only
  rw [if_neg (by omega), hcheck, hsub]

open VariantBuilder in
theorem getMetadataKey_of_getElem? {keys : List Bytes} (hlen : (metadataBytes keys).length ≤ MAX_ARRAY_LENGTH)
    {id : Nat}
    {key : List Char} (hkey : keys[id]? = some (Utf8.encode key)) (hs : IsString key) :
    getMetadataKey (metadataBytes keys) id = .ok (stripBom key) := by
  rw [getMetadataKey, metadataKeyBytes_of_getElem? hlen hkey]
  exact makeString_encode hs

/-! ## Containers -/

theorem sizeBytes_pos (n : Nat) : 0 < VariantBuilder.sizeBytes n := by
  unfold VariantBuilder.sizeBytes
  split <;> decide

theorem lt_pow_sizeBytes {n : Nat} (h : n < 2 ^ 32) : n < 256 ^ VariantBuilder.sizeBytes n := by
  unfold VariantBuilder.sizeBytes
  split
  · exact h
  · next hle => exact Nat.lt_succ_of_le (Nat.not_lt.mp hle)

namespace Variant

variable {v : Variant}

structure ArrayAt (v : Variant) (offsets : List Nat) (dataSize : Nat) (data : Bytes) (info : ArrayInfo) : Prop where
  type : v.getType = .ok .ARRAY
  eq : v.arrayInfo = .ok info
  numFields : info.numFields = offsets.length
  offsetSize : info.offsetSize = integerSize dataSize
  offsets : At v.value info.offsetStart (offsets.flatMap fun o => uintLE o (integerSize dataSize))
  data : At v.value info.dataStart data

theorem typeInfo_arrayHeader (large : Bool) {offsetSize : Nat} (h₁ : 0 < offsetSize) (h₄ : offsetSize ≤ 4) :
    (UInt8.ofNat ((if large then 16 else 0) + (offsetSize - 1) * 4 + ARRAY)).toNat % 4 = ARRAY ∧
      (UInt8.ofNat ((if large then 16 else 0) + (offsetSize - 1) * 4 + ARRAY)).toNat / 4 % 64 =
        (if large then 4 else 0) + (offsetSize - 1) := by
  simp only [ARRAY, UInt8.toNat_ofNat']
  cases large
  · simp only [Bool.false_eq_true, if_false]
    omega
  · simp only [if_true]
    omega

theorem arrayAt_of_at {offsets : List Nat} {dataSize : Nat} {data : Bytes}
    (h : At v.value v.pos (VariantBuilder.arrayHeader offsets dataSize ++ data)) (hn : offsets.length < 2 ^ 32) :
    ∃ info, v.ArrayAt offsets dataSize data info := by
  have h₁ := integerSize_pos dataSize
  have h₄ := integerSize_le dataSize
  rw [VariantBuilder.arrayHeader, List.cons_append, List.append_assoc, List.append_assoc] at h
  have hlarge : (if U8_MAX < offsets.length then 16 else 0) =
    (if decide (U8_MAX < offsets.length) then 16 else 0) := by simp
  rw [hlarge] at h
  obtain ⟨hb, hi⟩ := typeInfo_arrayHeader (decide (U8_MAX < offsets.length)) h₁ h₄
  have hsize : (if ((if decide (U8_MAX < offsets.length) then 4 else 0) + (integerSize dataSize - 1)) / 4 % 2 ≠ 0
      then U32_SIZE else 1) = VariantBuilder.sizeBytes offsets.length := by
    unfold VariantBuilder.sizeBytes
    by_cases hl : U8_MAX < offsets.length
    · rw [if_pos hl, if_pos]
      simp only [hl, decide_true, if_true]
      omega
    · rw [if_neg hl, if_neg]
      simp only [hl, decide_false, Bool.false_eq_true, if_false]
      omega
  have hwidth : ((if decide (U8_MAX < offsets.length) then 4 else 0) + (integerSize dataSize - 1)) % 4 + 1 =
      integerSize dataSize := by
    split <;> omega
  have hcount := readUnsignedLE_of_at h.tail.left (sizeBytes_pos _) (lt_pow_sizeBytes hn)
  refine ⟨⟨offsets.length, integerSize dataSize, v.pos + 1 + VariantBuilder.sizeBytes offsets.length,
    v.pos + 1 + VariantBuilder.sizeBytes offsets.length + (offsets.length + 1) * integerSize dataSize⟩, ?_, ?_,
      rfl, rfl, ?_, ?_⟩
  · rw [getType, checkIndex_start h, getTypeInfo_of_at h, hb]
    rfl
  · rw [arrayInfo, checkIndex_start h, getTypeInfo_of_at h, hb, hi]
    simp only [bind, Except.bind, ne_eq, not_true_eq_false, if_false]
    simp only [ne_eq] at hsize
    rw [hsize, hcount, hwidth]
    rfl
  · have := h.tail.right.left
    rwa [length_uintLE] at this
  · have := h.tail.right.right.right
    rw [length_uintLE, length_flatMap_of_width (fun o => length_uintLE o _), length_uintLE] at this
    have hpos : v.pos + 1 + VariantBuilder.sizeBytes offsets.length +
      (integerSize dataSize * offsets.length : Nat) +
        integerSize dataSize = v.pos + 1 + VariantBuilder.sizeBytes offsets.length +
        (offsets.length + 1) * integerSize dataSize := by
      push_cast
      ring
    rwa [hpos] at this

/-- Where the ids, the offsets and the data of an object are found. -/
structure ObjectAt (v : Variant) (fields : List FieldEntry) (maxId dataSize : Nat) (data : Bytes)
    (info : ObjectInfo) :
    Prop where
  type : v.getType = .ok .OBJECT
  eq : v.objectInfo = .ok info
  numFields : info.numFields = fields.length
  idSize : info.idSize = integerSize maxId
  offsetSize : info.offsetSize = integerSize dataSize
  ids : At v.value info.idStart (fields.flatMap fun f => uintLE f.id (integerSize maxId))
  offsets : At v.value info.offsetStart (fields.flatMap fun f => uintLE f.offset (integerSize dataSize))
  data : At v.value info.dataStart data

theorem typeInfo_objectHeader (large : Bool) {idSize offsetSize : Nat} (hi₁ : 0 < idSize) (hi₄ : idSize ≤ 4)
    (h₁ : 0 < offsetSize) (h₄ : offsetSize ≤ 4) :
    (UInt8.ofNat ((if large then 64 else 0) + (idSize - 1) * 16 + (offsetSize - 1) * 4 + OBJECT)).toNat % 4 =
      OBJECT ∧
      (UInt8.ofNat ((if large then 64 else 0) + (idSize - 1) * 16 + (offsetSize - 1) * 4 + OBJECT)).toNat / 4 % 64 =
        (if large then 16 else 0) + (idSize - 1) * 4 + (offsetSize - 1) := by
  simp only [OBJECT, UInt8.toNat_ofNat']
  cases large
  · simp only [Bool.false_eq_true, if_false]
    omega
  · simp only [if_true]
    omega

def maxId (fields : List FieldEntry) : Nat := fields.foldl (fun m f => max m f.id) 0

theorem objectAt_of_at {fields : List FieldEntry} {dataSize : Nat} {data : Bytes}
    (h : At v.value v.pos (VariantBuilder.objectHeader fields dataSize ++ data)) (hn : fields.length < 2 ^ 32) :
    ∃ info, v.ObjectAt fields (maxId fields) dataSize data info := by
  rw [VariantBuilder.objectHeader, ← maxId] at h
  obtain ⟨is, his⟩ : ∃ is, is = integerSize (maxId fields) := ⟨_, rfl⟩
  have hi₁ : 0 < is := his ▸ integerSize_pos _
  have hi₄ : is ≤ 4 := his ▸ integerSize_le _
  have h₁ := integerSize_pos dataSize
  have h₄ := integerSize_le dataSize
  rw [← his, List.cons_append, List.append_assoc, List.append_assoc, List.append_assoc] at h
  have hlarge : (if U8_MAX < fields.length then 64 else 0) =
    (if decide (U8_MAX < fields.length) then 64 else 0) := by simp
  rw [hlarge] at h
  obtain ⟨hb, hi⟩ := typeInfo_objectHeader (decide (U8_MAX < fields.length)) hi₁ hi₄ h₁ h₄
  have hsize :
    (if ((if decide (U8_MAX < fields.length) then 16 else 0) + (is - 1) * 4 + (integerSize dataSize - 1)) /
      16 % 2 ≠ 0 then U32_SIZE else 1) = VariantBuilder.sizeBytes fields.length := by
    unfold VariantBuilder.sizeBytes
    by_cases hl : U8_MAX < fields.length
    · rw [if_pos hl, if_pos]
      simp only [hl, decide_true, if_true]
      omega
    · rw [if_neg hl, if_neg]
      simp only [hl, decide_false, Bool.false_eq_true, if_false]
      omega
  have hidWidth : ((if decide (U8_MAX < fields.length) then 16 else 0) + (is - 1) * 4 +
    (integerSize dataSize - 1)) / 4 %
      4 + 1 = is := by
    split <;> omega
  have hwidth : ((if decide (U8_MAX < fields.length) then 16 else 0) + (is - 1) * 4 + (integerSize dataSize - 1)) %
    4 + 1 =
      integerSize dataSize := by
    split <;> omega
  have hcount := readUnsignedLE_of_at h.tail.left (sizeBytes_pos _) (lt_pow_sizeBytes hn)
  have hids := h.tail.right
  rw [length_uintLE] at hids
  have hoffsets := hids.right
  rw [length_flatMap_of_width (fun f => length_uintLE _ is)] at hoffsets
  have hdata := hoffsets.right.right
  rw [length_flatMap_of_width (fun f => length_uintLE _ _), length_uintLE] at hdata
  refine ⟨⟨fields.length, is, integerSize dataSize, v.pos + 1 + VariantBuilder.sizeBytes fields.length,
    v.pos + 1 + VariantBuilder.sizeBytes fields.length + fields.length * is,
    v.pos + 1 + VariantBuilder.sizeBytes fields.length + fields.length * is + (fields.length + 1) *
      integerSize dataSize⟩,
    ?_, ?_, rfl, his, rfl, his ▸ hids.left, ?_, ?_⟩
  · rw [getType, checkIndex_start h, getTypeInfo_of_at h, hb]
    rfl
  · rw [objectInfo, checkIndex_start h, getTypeInfo_of_at h, hb, hi]
    simp only [bind, Except.bind, ne_eq, not_true_eq_false, if_false]
    simp only [ne_eq] at hsize
    rw [hsize, hcount, hidWidth, hwidth]
    rfl
  · have hpos : v.pos + 1 + VariantBuilder.sizeBytes fields.length + (is * fields.length : Nat) =
        v.pos + 1 + VariantBuilder.sizeBytes fields.length + fields.length * is := by
      push_cast
      ring
    rw [hpos] at hoffsets
    exact hoffsets.left
  · have hpos : v.pos + 1 + VariantBuilder.sizeBytes fields.length + (is * fields.length : Nat) +
        (integerSize dataSize * fields.length : Nat) + integerSize dataSize =
        v.pos + 1 + VariantBuilder.sizeBytes fields.length + fields.length * is +
          (fields.length + 1) * integerSize dataSize := by
      push_cast
      ring
    rwa [hpos] at hdata

theorem le_maxId {fields : List FieldEntry} {f : FieldEntry} (h : f ∈ fields) : f.id ≤ maxId fields := by
  have hfold : ∀ (l : List FieldEntry) (m : Nat), m ≤ l.foldl (fun m f => max m f.id) m ∧
      ∀ f ∈ l, f.id ≤ l.foldl (fun m f => max m f.id) m := by
    intro l
    induction l with
    | nil => simp
    | cons g l ih =>
      intro m
      obtain ⟨h₁, h₂⟩ := ih (max m g.id)
      rw [List.foldl_cons]
      refine ⟨(Nat.le_max_left _ _).trans h₁, fun f hf => ?_⟩
      rcases List.mem_cons.mp hf with rfl | hf
      · exact (Nat.le_max_right _ _).trans h₁
      · exact h₂ f hf
  exact (hfold fields 0).2 f h

theorem maxId_lt {fields : List FieldEntry} {n : Nat} (hn : 0 < n) (h : ∀ f ∈ fields, f.id < n) :
    maxId fields < n := by
  unfold maxId
  generalize hm : (0 : Nat) = m
  have hlt : m < n := hm ▸ hn
  clear hm
  induction fields generalizing m with
  | nil => exact hlt
  | cons g l ih =>
    exact ih (fun f hf => h f (List.mem_cons_of_mem _ hf)) _ (max_lt hlt (h g List.mem_cons_self))

theorem readUnsignedLE_entry {α : Type} {data : Bytes} {pos : Int} {xs : List α} {f : α → Nat} {m : Nat}
    (h : At data pos (xs.flatMap fun x => uintLE (f x) (integerSize m))) {i : Nat} {x : α} (hx : xs[i]? = some x)
    (hle : f x ≤ m) (hm : m < 2 ^ 32) :
    readUnsignedLE data (pos + integerSize m * (i : Int)) (integerSize m) = .ok (f x) := by
  have hentry := h.entry (fun x => length_uintLE (f x) _) hx
  rw [Nat.cast_mul] at hentry
  exact readUnsignedLE_of_at hentry (integerSize_pos m) (lt_pow_integerSize hle hm)

theorem getElementAtIndex_of_at {keys : List Bytes} (hmeta : v.metadata = VariantBuilder.metadataBytes keys)
    {offsets : List Nat} {dataSize : Nat} {data : Bytes} {info : ArrayInfo}
    (h : v.ArrayAt offsets dataSize data info)
    (hsize : dataSize < 2 ^ 32) {i offset : Nat} (hi : offsets[i]? = some offset) (hle : offset ≤ dataSize) :
    v.getElementAtIndex i = .ok (some ⟨v.value, v.metadata, info.dataStart + offset⟩) := by
  have hlt : i < offsets.length := (List.getElem?_eq_some_iff.mp hi).choose
  have hread := readUnsignedLE_entry (f := fun o => o) h.offsets hi hle hsize
  rw [getElementAtIndex, h.eq]
  simp only [bind, Except.bind]
  rw [if_neg (by rw [h.numFields]; omega), childAt, h.offsetSize, hread]
  simp only [bind, Except.bind]
  rw [hmeta, new_metadataBytes]
  rfl

theorem getFieldAtIndex_of_at {keys : List Bytes} (hmeta : v.metadata = VariantBuilder.metadataBytes keys)
    (hlen : (VariantBuilder.metadataBytes keys).length ≤ MAX_ARRAY_LENGTH) {fields : List FieldEntry}
    {dataSize : Nat}
    {data : Bytes} {info : ObjectInfo} (h : v.ObjectAt fields (maxId fields) dataSize data info)
    (hids : ∀ f ∈ fields, f.id < 2 ^ 32) (hsize : dataSize < 2 ^ 32) {i : Nat} {f : FieldEntry}
    (hi : fields[i]? = some f)
    (hle : f.offset ≤ dataSize) {key : List Char} (hkey : keys[f.id]? = some (Utf8.encode key))
    (hs : IsString key) :
    v.getFieldAtIndex i = .ok (stripBom key, ⟨v.value, v.metadata, info.dataStart + f.offset⟩) := by
  have hid := readUnsignedLE_entry (f := fun f : FieldEntry => f.id) h.ids hi (le_maxId (List.mem_of_getElem? hi))
    (maxId_lt (by decide) hids)
  have hoffset := readUnsignedLE_entry (f := fun f : FieldEntry => f.offset) h.offsets hi hle hsize
  rw [getFieldAtIndex, h.eq]
  simp only [bind, Except.bind]
  rw [h.idSize, h.offsetSize, hid, hoffset]
  simp only
  rw [hmeta, getMetadataKey_of_getElem? hlen hkey hs, new_metadataBytes]
  rfl

end Variant

end ConfluentKafka
