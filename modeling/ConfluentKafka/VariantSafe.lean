import ConfluentKafka.VariantJson

/-!
# What reading a Variant may end with

Any two byte arrays, any position. No read is outside of the arrays, and a value inside another one is
behind it. An accessor returns or throws a `VariantError`, but where the bytes that it decodes are
those of a text that is too long for a string.
-/

namespace ConfluentKafka

open VariantFormat

/-- A result, a `VariantError` or, where that is let pass, a string that is too long. -/
def SafeUpTo {α : Type} (long : Prop) : Except VariantFault α → Prop
  | .ok _ => True
  | .error (.variantError _) => True
  | .error .stringLength => long
  | .error _ => False

/-- A result or a `VariantError`. -/
abbrev Safe {α : Type} (x : Except VariantFault α) : Prop := SafeUpTo False x

section Rules

variable {α β : Type} {long : Prop} {x : Except VariantFault α} {f : α → Except VariantFault β}

@[simp] theorem safe_ok (a : α) : SafeUpTo long (.ok a : Except VariantFault α) := trivial

@[simp] theorem safe_pure (a : α) : SafeUpTo long (pure a : Except VariantFault α) := trivial

@[simp] theorem safe_variantError (m : String) : SafeUpTo long (.error (.variantError m) : Except VariantFault α) :=
  trivial

@[simp] theorem safe_throw (m : String) : SafeUpTo long (throw (.variantError m) : Except VariantFault α) := trivial

theorem SafeUpTo.error {e : VariantFault} (h : SafeUpTo long (.error e : Except VariantFault α)) :
    SafeUpTo long (.error e : Except VariantFault β) := by
  cases e <;> exact h

theorem SafeUpTo.bind (hx : SafeUpTo long x) (hf : ∀ a, x = .ok a → SafeUpTo long (f a)) :
    SafeUpTo long (x >>= f) := by
  cases x with
  | ok a => exact hf a rfl
  | error e => exact hx.error

theorem SafeUpTo.of_bind (h : SafeUpTo long (x >>= f)) : SafeUpTo long x := by
  cases x with
  | ok a => trivial
  | error e => exact h.error

theorem SafeUpTo.map {g : α → β} (hx : SafeUpTo long x) : SafeUpTo long (x.map g) := by
  cases x with
  | ok a => trivial
  | error e => exact hx.error

theorem Safe.upTo (hx : Safe x) : SafeUpTo long x := by
  rcases x with (_ | _ | _ | _ | _) | _
  · trivial
  · exact hx.elim
  · exact hx.elim
  · exact hx.elim
  · exact hx.elim
  · trivial

theorem SafeUpTo.safe (hx : SafeUpTo True x) (hlong : x ≠ .error .stringLength) : Safe x := by
  rcases x with (_ | _ | _ | _ | _) | _
  · trivial
  · exact hx.elim
  · exact hx.elim
  · exact hx.elim
  · exact absurd rfl hlong
  · trivial

theorem bind_eq_ok {b : β} (h : (x >>= f) = .ok b) : ∃ a, x = .ok a ∧ f a = .ok b := by
  cases x with
  | ok a => exact ⟨a, rfl, h⟩
  | error e => cases h

end Rules

/-! ## Bytes -/

theorem safe_checkIndex (pos : Int) (length : Nat) : Safe (checkIndex pos length) := by
  unfold checkIndex
  split <;> trivial

theorem checkIndex_eq_ok {pos : Int} {length : Nat} {u : Unit} :
    checkIndex pos length = .ok u ↔ 0 ≤ pos ∧ pos < length := by
  unfold checkIndex
  split
  · simp
    omega
  · simp
    omega

theorem byteAt_ok {data : Bytes} {pos : Int} (h₀ : 0 ≤ pos) (h₁ : pos < data.length) :
    byteAt data pos = .ok (data.getD pos.toNat 0).toNat := by
  rw [byteAt, if_pos ⟨h₀, h₁⟩]

theorem safe_byteAt {data : Bytes} {pos : Int} (h₀ : 0 ≤ pos) (h₁ : pos < data.length) :
    Safe (byteAt data pos) := by
  rw [byteAt_ok h₀ h₁]
  trivial

theorem safe_readLoop {data : Bytes} {pos : Int} (h₀ : 0 ≤ pos) :
    ∀ (n result : Nat), pos + n ≤ data.length → Safe (readLoop data pos n result)
  | 0, _, _ => trivial
  | n + 1, result, h => by
    rw [readLoop]
    refine (safe_byteAt (by omega) (by push_cast at h; omega)).bind fun b _ => ?_
    exact safe_readLoop h₀ n _ (by push_cast at h; omega)

theorem safe_readUnsignedLE (data : Bytes) (pos : Int) (n : Nat) : Safe (readUnsignedLE data pos n) := by
  refine (safe_checkIndex pos _).bind fun _ h₁ => (safe_checkIndex _ _).bind fun _ h₂ => ?_
  rw [checkIndex_eq_ok] at h₁ h₂
  exact safe_readLoop h₁.1 n 0 (by omega)

theorem safe_readSignedLE (data : Bytes) (pos : Int) (n : Nat) : Safe (readSignedLE data pos n) := by
  refine (safe_checkIndex pos _).bind fun _ h₁ => (safe_checkIndex _ _).bind fun _ h₂ => ?_
  rw [checkIndex_eq_ok] at h₁ h₂
  refine (safe_readLoop h₁.1 n 0 (by omega)).bind fun _ _ => ?_
  exact (safe_byteAt h₂.1 h₂.2).bind fun _ _ => trivial

theorem safe_subarray {data : Bytes} {start stop : Int} (h₀ : 0 ≤ start) (h₁ : start ≤ stop)
    (h₂ : stop ≤ data.length) :
    Safe (subarray data start stop) := by
  rw [subarray, if_pos ⟨h₀, h₁, h₂⟩]
  trivial

theorem safe_metadataKeyBytes (metadata : Bytes) (id : Nat) : Safe (metadataKeyBytes metadata id) := by
  refine (safe_checkIndex 0 _).bind fun _ h₀ => ?_
  rw [checkIndex_eq_ok] at h₀
  refine (safe_byteAt h₀.1 h₀.2).bind fun header _ => (safe_readUnsignedLE _ _ _).bind fun dictSize _ => ?_
  split
  · exact safe_throw _
  refine (safe_readUnsignedLE _ _ _).bind fun offset _ => (safe_readUnsignedLE _ _ _).bind fun nextOffset _ => ?_
  split
  · exact safe_throw _
  · next hle =>
    refine (safe_checkIndex _ _).bind fun _ h₁ => ?_
    rw [checkIndex_eq_ok] at h₁
    exact safe_subarray (by omega) (by omega) (by omega)

/-! ## Strings -/

/-- The bytes, if there are any, are decoded to a string of the engine. -/
def FitsString (x : Except VariantFault Bytes) : Prop := ∀ bs, x = .ok bs → IsString (textDecode bs)

theorem makeString_of_not {text : List Char} (h : ¬IsString text) :
    makeString text = .error .stringLength := if_neg h

section Decode

variable {x : Except VariantFault Bytes} (hx : Safe x)
include hx

theorem safe_decode_iff : Safe (x >>= fun bs => makeString (textDecode bs)) ↔ FitsString x := by
  constructor
  · rintro h bs rfl
    by_contra hlong
    have hfault := makeString_of_not hlong
    change Safe (makeString (textDecode bs)) at h
    rw [hfault] at h
    exact h
  · intro hfit
    refine hx.bind fun bs hbs => ?_
    rw [makeString, if_pos (hfit bs hbs)]
    trivial

theorem safe_decode : SafeUpTo True (x >>= fun bs => makeString (textDecode bs)) := by
  refine hx.upTo.bind fun bs _ => ?_
  unfold makeString
  split <;> trivial

end Decode

/-! ## Accessors -/

namespace Variant

theorem safe_new (value metadata : Bytes) (pos : Int) : Safe (new value metadata pos) := by
  refine (safe_checkIndex 0 _).bind fun _ h₀ => ?_
  rw [checkIndex_eq_ok] at h₀
  refine (safe_byteAt h₀.1 h₀.2).bind fun header _ => ?_
  split
  · exact safe_throw _
  · trivial

theorem new_eq_ok {value metadata : Bytes} {pos : Int} {v : Variant} (h : new value metadata pos = .ok v) :
    v = ⟨value, metadata, pos⟩ := by
  obtain ⟨_, -, h⟩ := bind_eq_ok h
  obtain ⟨header, -, h⟩ := bind_eq_ok h
  split at h
  · cases h
  · cases h
    rfl

section Getters

variable (v : Variant)

/-- What starts with the header byte, read after its check. -/
theorem safe_header {α : Type} {f : Nat × Nat → Except VariantFault α}
    (hf : ∀ basicType typeInfo, 0 ≤ v.pos → Safe (f (basicType, typeInfo))) :
    Safe (do checkIndex v.pos v.value.length; let b ← getTypeInfo v.value v.pos; f b) := by
  refine (safe_checkIndex _ _).bind fun _ h => ?_
  rw [checkIndex_eq_ok] at h
  refine SafeUpTo.bind ?_ fun b _ => hf b.1 b.2 h.1
  exact (safe_byteAt h.1 h.2).bind fun _ _ => trivial

theorem safe_getType : Safe v.getType := by
  refine v.safe_header fun basicType typeInfo _ => ?_
  dsimp only
  split
  · trivial
  split
  · trivial
  split
  · trivial
  split
  · exact safe_throw _
  · trivial

theorem safe_primitiveInfo : Safe v.primitiveInfo := by
  refine v.safe_header fun basicType typeInfo _ => ?_
  dsimp only
  split
  · exact safe_throw _
  · trivial

theorem safe_primitive {α : Type} {f : Nat → Except VariantFault α} (hf : ∀ ti, 0 ≤ v.pos → Safe (f ti)) :
    Safe (v.primitiveInfo >>= f) := by
  refine v.safe_primitiveInfo.bind fun ti h => hf ti ?_
  obtain ⟨_, h, -⟩ := bind_eq_ok h
  exact (checkIndex_eq_ok.mp h).1

theorem safe_payload (hpos : 0 ≤ v.pos) (width : Nat) : Safe (v.payload width) := by
  refine (safe_checkIndex _ _).bind fun _ h => ?_
  rw [checkIndex_eq_ok] at h
  exact safe_readLoop (by omega) width 0 (by omega)

theorem safe_signedPayload (hpos : 0 ≤ v.pos) (width : Nat) : Safe (v.signedPayload width) :=
  (v.safe_payload hpos width).bind fun _ _ => trivial

theorem safe_getBoolean : Safe v.getBoolean := by
  refine v.safe_primitive fun ti _ => ?_
  split
  · exact safe_throw _
  · trivial

theorem safe_getByte : Safe v.getByte := by
  refine v.safe_primitive fun ti hpos => ?_
  split
  · exact v.safe_signedPayload hpos 1
  · exact safe_throw _

theorem safe_getShort : Safe v.getShort := by
  refine v.safe_primitive fun ti hpos => ?_
  split
  · exact v.safe_signedPayload hpos 1
  split
  · exact v.safe_signedPayload hpos 2
  · exact safe_throw _

theorem safe_getInt : Safe v.getInt := by
  refine v.safe_primitive fun ti hpos => ?_
  split
  · exact v.safe_signedPayload hpos 1
  split
  · exact v.safe_signedPayload hpos 2
  split
  · exact v.safe_signedPayload hpos 4
  · exact safe_throw _

theorem safe_getLong : Safe v.getLong := by
  refine v.safe_primitive fun ti hpos => ?_
  split
  · exact v.safe_signedPayload hpos 1
  split
  · exact v.safe_signedPayload hpos 2
  split
  · exact v.safe_signedPayload hpos 4
  split
  · exact v.safe_signedPayload hpos 8
  · exact safe_throw _

theorem safe_getFloat : Safe v.getFloat := by
  refine v.safe_primitive fun ti hpos => ?_
  split
  · exact (v.safe_payload hpos 4).bind fun _ _ => trivial
  · exact safe_throw _

theorem safe_getDouble : Safe v.getDouble := by
  refine v.safe_primitive fun ti hpos => ?_
  split
  · exact (v.safe_payload hpos 8).bind fun _ _ => trivial
  · exact safe_throw _

theorem safe_checkDecimal (unscaled : Int) (precision : Nat) : Safe (checkDecimal unscaled precision) := by
  unfold checkDecimal
  split <;> trivial

theorem safe_decimalFormat (ti : Nat) : Safe (decimalFormat ti) := by
  unfold decimalFormat
  split
  · trivial
  split
  · trivial
  split <;> trivial

theorem safe_getDecimalParts : Safe v.getDecimalParts := by
  refine v.safe_primitive fun ti hpos => (safe_checkIndex _ _).bind fun _ h => ?_
  rw [checkIndex_eq_ok] at h
  refine (safe_byteAt h.1 h.2).bind fun scale _ => (safe_decimalFormat ti).bind fun wp _ => ?_
  exact (safe_readSignedLE _ _ _).bind fun _ _ => (safe_checkDecimal _ _).bind fun _ _ => trivial

theorem safe_getDecimal : Safe v.getDecimal := v.safe_getDecimalParts.bind fun _ _ => trivial

theorem safe_getBinary : Safe v.getBinary := by
  refine v.safe_primitive fun ti hpos => ?_
  split
  · exact safe_throw _
  refine (safe_readUnsignedLE _ _ _).bind fun length _ => (safe_checkIndex _ _).bind fun _ h => ?_
  rw [checkIndex_eq_ok] at h
  exact safe_subarray (by omega) (by omega) (by omega)

theorem safe_getUuid : Safe v.getUuid := by
  refine v.safe_primitive fun ti hpos => ?_
  split
  · exact safe_throw _
  refine (safe_checkIndex _ _).bind fun _ h => ?_
  rw [checkIndex_eq_ok] at h
  exact (safe_subarray (by omega) (by omega) (by omega)).bind fun _ _ => trivial

theorem safe_stringBounds : Safe v.stringBounds := by
  refine v.safe_header fun basicType typeInfo _ => ?_
  dsimp only
  split
  · trivial
  split
  · exact (safe_readUnsignedLE _ _ _).bind fun _ _ => trivial
  · exact safe_throw _

theorem stringBounds_nonneg {start : Int} {length : Nat} (h : v.stringBounds = .ok (start, length)) :
    0 ≤ start := by
  obtain ⟨_, h₀, h⟩ := bind_eq_ok h
  rw [checkIndex_eq_ok] at h₀
  obtain ⟨⟨basicType, typeInfo⟩, -, h⟩ := bind_eq_ok h
  dsimp only at h
  split at h
  · cases h
    omega
  split at h
  · obtain ⟨_, -, h⟩ := bind_eq_ok h
    cases h
    omega
  · cases h

theorem safe_stringBytes : Safe v.stringBytes := by
  refine v.safe_stringBounds.bind fun p hp => ?_
  have hstart := v.stringBounds_nonneg hp
  refine (safe_checkIndex _ _).bind fun _ h => ?_
  rw [checkIndex_eq_ok] at h
  exact safe_subarray hstart (by omega) (by omega)

theorem safe_getString_iff : Safe v.getString ↔ FitsString v.stringBytes := safe_decode_iff v.safe_stringBytes

end Getters

/-! ## Objects and arrays -/

section Containers

variable (v : Variant)

theorem safe_objectInfo : Safe v.objectInfo := by
  refine v.safe_header fun basicType typeInfo _ => ?_
  dsimp only
  split
  · exact safe_throw _
  · exact (safe_readUnsignedLE _ _ _).bind fun _ _ => trivial

theorem safe_arrayInfo : Safe v.arrayInfo := by
  refine v.safe_header fun basicType typeInfo _ => ?_
  dsimp only
  split
  · exact safe_throw _
  · exact (safe_readUnsignedLE _ _ _).bind fun _ _ => trivial

theorem safe_numObjectFields : Safe v.numObjectFields := v.safe_objectInfo.bind fun _ _ => trivial

theorem safe_numArrayElements : Safe v.numArrayElements := v.safe_arrayInfo.bind fun _ _ => trivial

variable {v}

theorem objectInfo_dataStart {info : ObjectInfo} (h : v.objectInfo = .ok info) : v.pos < info.dataStart := by
  obtain ⟨_, -, h⟩ := bind_eq_ok h
  obtain ⟨⟨basicType, typeInfo⟩, -, h⟩ := bind_eq_ok h
  dsimp only at h
  split at h
  · cases h
  · obtain ⟨n, -, h⟩ := bind_eq_ok h
    cases h
    dsimp only
    have h₁ : (0 : Int) ≤ n * (typeInfo / 4 % 4 + 1 : Nat) := by positivity
    have h₂ : (0 : Int) ≤ (n + 1) * (typeInfo % 4 + 1 : Nat) := by positivity
    omega

theorem arrayInfo_dataStart {info : ArrayInfo} (h : v.arrayInfo = .ok info) : v.pos < info.dataStart := by
  obtain ⟨_, -, h⟩ := bind_eq_ok h
  obtain ⟨⟨basicType, typeInfo⟩, -, h⟩ := bind_eq_ok h
  dsimp only at h
  split at h
  · cases h
  · obtain ⟨n, -, h⟩ := bind_eq_ok h
    cases h
    dsimp only
    have h₂ : (0 : Int) ≤ (n + 1) * (typeInfo % 4 + 1 : Nat) := by positivity
    omega

def keyBytesAt (v : Variant) (info : ObjectInfo) (i : Int) : Except VariantFault Bytes := do
  let id ← readUnsignedLE v.value (info.idStart + info.idSize * i) info.idSize
  metadataKeyBytes v.metadata id

theorem keyAt_eq (info : ObjectInfo) (i : Int) :
    v.keyAt info i = v.keyBytesAt info i >>= fun bs => makeString (textDecode bs) := (bind_assoc ..).symm

theorem safe_keyBytesAt (info : ObjectInfo) (i : Int) : Safe (v.keyBytesAt info i) :=
  (safe_readUnsignedLE _ _ _).bind fun id _ => safe_metadataKeyBytes _ id

theorem safe_keyAt_iff (info : ObjectInfo) (i : Int) : Safe (v.keyAt info i) ↔
    FitsString (v.keyBytesAt info i) := by
  rw [keyAt_eq]
  exact safe_decode_iff (safe_keyBytesAt info i)

theorem safe_childAt (offsetStart : Int) (offsetSize : Nat) (dataStart i : Int) :
    Safe (v.childAt offsetStart offsetSize dataStart i) :=
  (safe_readUnsignedLE _ _ _).bind fun _ _ => safe_new _ _ _

theorem childAt_eq_ok {offsetStart dataStart i : Int} {offsetSize : Nat} {c : Variant}
    (h : v.childAt offsetStart offsetSize dataStart i = .ok c) : c.value = v.value ∧ dataStart ≤ c.pos := by
  obtain ⟨offset, -, h⟩ := bind_eq_ok h
  rw [new_eq_ok h]
  exact ⟨rfl, by dsimp only; omega⟩

/-- The bytes of the key of a field, which are come to once the offset of the field is read. -/
def fieldKeyBytes (v : Variant) (idx : Int) : Except VariantFault Bytes := do
  let info ← v.objectInfo
  let id ← readUnsignedLE v.value (info.idStart + info.idSize * idx) info.idSize
  let _ ← readUnsignedLE v.value (info.offsetStart + info.offsetSize * idx) info.offsetSize
  metadataKeyBytes v.metadata id

def fieldChild (v : Variant) (idx : Int) : Except VariantFault Variant := do
  let info ← v.objectInfo
  v.childAt info.offsetStart info.offsetSize info.dataStart idx

theorem getFieldAtIndex_of_bytes {idx : Int} {bs : Bytes} (h : v.fieldKeyBytes idx = .ok bs) :
    v.getFieldAtIndex idx = makeString (textDecode bs) >>= fun key => (v.fieldChild idx).map fun c => (key, c) := by
  obtain ⟨info, hinfo, h⟩ := bind_eq_ok h
  obtain ⟨id, hid, h⟩ := bind_eq_ok h
  obtain ⟨offset, hoffset, h⟩ := bind_eq_ok h
  rw [getFieldAtIndex, fieldChild, hinfo]
  simp only [bind, Except.bind, hid, hoffset, getMetadataKey, h, childAt]
  cases makeString (textDecode bs) with
  | error e => rfl
  | ok key => cases new v.value v.metadata (info.dataStart + offset) <;> rfl

theorem getFieldAtIndex_of_error {idx : Int} {e : VariantFault} (h : v.fieldKeyBytes idx = .error e) :
    v.getFieldAtIndex idx = .error e := by
  rw [fieldKeyBytes] at h
  rw [getFieldAtIndex]
  cases hinfo : v.objectInfo with
  | error e' =>
    rw [hinfo] at h
    exact congrArg Except.error (Except.error.inj h)
  | ok info =>
    rw [hinfo] at h
    simp only [bind, Except.bind] at h ⊢
    split at h
    · exact congrArg Except.error (Except.error.inj h)
    · split at h
      · exact congrArg Except.error (Except.error.inj h)
      · simp only [getMetadataKey, h, bind, Except.bind]

theorem safe_fieldKeyBytes (idx : Int) : Safe (v.fieldKeyBytes idx) := by
  refine v.safe_objectInfo.bind fun info _ => (safe_readUnsignedLE _ _ _).bind fun id _ => ?_
  exact (safe_readUnsignedLE _ _ _).bind fun offset _ => safe_metadataKeyBytes _ _

theorem safe_fieldChild (idx : Int) : Safe (v.fieldChild idx) :=
  v.safe_objectInfo.bind fun _ _ => safe_childAt _ _ _ _

variable (v) in
theorem safe_getFieldAtIndex_iff (idx : Int) : Safe (v.getFieldAtIndex idx) ↔ FitsString (v.fieldKeyBytes idx) := by
  cases hbytes : v.fieldKeyBytes idx with
  | error e =>
    have hsafe := v.safe_fieldKeyBytes idx
    rw [hbytes] at hsafe
    rw [getFieldAtIndex_of_error hbytes]
    exact iff_of_true hsafe.error nofun
  | ok bs =>
    rw [getFieldAtIndex_of_bytes hbytes]
    constructor
    · intro h
      exact (safe_decode_iff (x := .ok bs) trivial).mp h.of_bind
    · intro hfit
      exact ((safe_decode_iff (x := .ok bs) trivial).mpr hfit).bind fun key _ => (safe_fieldChild idx).map

variable (v) in
theorem safe_getFieldAtIndex (idx : Int) : SafeUpTo True (v.getFieldAtIndex idx) := by
  refine v.safe_objectInfo.upTo.bind fun info _ => (safe_readUnsignedLE _ _ _).upTo.bind fun id _ => ?_
  refine (safe_readUnsignedLE _ _ _).upTo.bind fun offset _ => ?_
  refine (safe_decode (safe_metadataKeyBytes _ _)).bind fun key _ => ?_
  exact (safe_new _ _ _).upTo.bind fun c _ => trivial

theorem getFieldAtIndex_eq_ok {idx : Int} {key : List Char} {c : Variant}
    (h : v.getFieldAtIndex idx = .ok (key, c)) :
    c.value = v.value ∧ v.pos < c.pos := by
  obtain ⟨info, hinfo, h⟩ := bind_eq_ok h
  obtain ⟨id, -, h⟩ := bind_eq_ok h
  obtain ⟨offset, -, h⟩ := bind_eq_ok h
  obtain ⟨key', -, h⟩ := bind_eq_ok h
  obtain ⟨c', hc, h⟩ := bind_eq_ok h
  cases h
  have hstart := objectInfo_dataStart hinfo
  rw [new_eq_ok hc]
  exact ⟨rfl, by dsimp only; omega⟩

variable (v) in
theorem safe_getElementAtIndex (index : Int) : Safe (v.getElementAtIndex index) := by
  refine v.safe_arrayInfo.bind fun info _ => ?_
  split
  · trivial
  · exact (safe_childAt _ _ _ _).bind fun _ _ => trivial

theorem getElementAtIndex_eq_ok {index : Int} {c : Variant} (h : v.getElementAtIndex index = .ok (some c)) :
    c.value = v.value ∧ v.pos < c.pos := by
  obtain ⟨info, hinfo, h⟩ := bind_eq_ok h
  split at h
  · cases h
  · obtain ⟨c', hc, h⟩ := bind_eq_ok h
    cases h
    have hstart := arrayInfo_dataStart hinfo
    obtain ⟨hval, hpos⟩ := childAt_eq_ok hc
    exact ⟨hval, by omega⟩

theorem getElementAtIndex_ne_none {n : Nat} (hn : v.numArrayElements = .ok n) {i : Nat} (hi : i < n) :
    v.getElementAtIndex i ≠ .ok none := by
  intro h
  obtain ⟨info, hinfo, hn⟩ := bind_eq_ok hn
  cases hn
  obtain ⟨info', hinfo', h⟩ := bind_eq_ok h
  obtain rfl := Except.ok.inj (hinfo.symm.trans hinfo')
  rw [if_neg (by omega)] at h
  obtain ⟨_, -, h⟩ := bind_eq_ok h
  cases h

theorem toInt32_eq {n : Int} (h₁ : -2 ^ 31 ≤ n) (h₂ : n < 2 ^ 31) : toInt32 n = n := by
  apply Int.bmod_eq_of_le_mul_two
  · omega
  · omega

theorem toInt32_bounds (n : Int) : -2 ^ 31 ≤ toInt32 n ∧ toInt32 n < 2 ^ 31 := by
  have h₁ := Int.le_bmod (x := n) (m := 2 ^ 32) (by decide)
  have h₂ := Int.bmod_lt (x := n) (m := 2 ^ 32) (by decide)
  unfold toInt32
  omega

end Containers

end Variant

end ConfluentKafka
