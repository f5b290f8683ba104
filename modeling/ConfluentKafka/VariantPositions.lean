import ConfluentKafka.VariantSafe
import ConfluentKafka.VariantTree

/-!
# A Variant without the bytes before it

A Variant that was reached by navigation is a position in the bytes of its root, and
`standaloneValueBytes` are the bytes from there on. All offsets are relative to the value they
belong to, so nothing that is read depends on what was in front.
-/

namespace ConfluentKafka

open VariantFormat

theorem bind_congr_ok {α β : Type} {x : Except VariantFault α} {f g : α → Except VariantFault β}
    (h : ∀ a, x = .ok a → f a = g a) : x >>= f = x >>= g := by
  cases x with
  | error e => rfl
  | ok a => exact h a rfl

theorem map_bind_eq {α β γ : Type} {x : Except VariantFault α} {f : α → Except VariantFault β}
    {k : β → γ} : (x >>= f).map k = x >>= fun a => (f a).map k := by
  cases x <;> rfl

/-! ## Bytes from a position on -/

section Bytes

variable {data : Bytes} {p : Nat} {x y : Int}

theorem checkIndex_drop (hx : p ≤ x) (hy : y = x - p) : checkIndex y (data.drop p).length =
    checkIndex x data.length := by
  subst hy
  simp only [checkIndex, List.length_drop]
  by_cases h : x < 0 ∨ data.length ≤ x
  · rw [if_pos h, if_pos (by omega)]
  · rw [if_neg h, if_neg (by omega)]

theorem byteAt_drop (hx : p ≤ x) (hy : y = x - p) : byteAt (data.drop p) y = byteAt data x := by
  subst hy
  simp only [byteAt, List.length_drop]
  by_cases h : 0 ≤ x ∧ x < data.length
  · have hindex : p + (x - p).toNat = x.toNat := by omega
    rw [if_pos h, if_pos (by omega), List.getD_eq_getElem?_getD, List.getD_eq_getElem?_getD,
      List.getElem?_drop, hindex]
  · rw [if_neg h, if_neg (by omega)]

theorem readLoop_drop (hx : p ≤ x) (hy : y = x - p) (n r : Nat) : readLoop (data.drop p) y n r =
    readLoop data x n r := by
  induction n generalizing r with
  | zero => rfl
  | succ n ih =>
    rw [readLoop, readLoop, byteAt_drop (show p ≤ x + n by omega) (by omega)]
    simp only [ih]

theorem readUnsignedLE_drop (hx : p ≤ x) (hy : y = x - p) {n : Nat} (hn : 0 < n) :
    readUnsignedLE (data.drop p) y n = readUnsignedLE data x n := by
  rw [readUnsignedLE, readUnsignedLE, checkIndex_drop hx hy, checkIndex_drop
    (show p ≤ x + n - 1 by omega) (by omega)]
  simp only [readLoop_drop hx hy]

theorem readSignedLE_drop (hx : p ≤ x) (hy : y = x - p) {n : Nat} (hn : 0 < n) :
    readSignedLE (data.drop p) y n = readSignedLE data x n := by
  rw [readSignedLE, readSignedLE, checkIndex_drop hx hy, checkIndex_drop (show p ≤ x + n - 1 by omega) (by omega),
    byteAt_drop (show p ≤ x + n - 1 by omega) (by omega)]
  simp only [readLoop_drop hx hy]

theorem subarray_drop (hx : p ≤ x) (hy : y = x - p) {n : Nat} (hlen : x + n - 1 < data.length) :
    subarray (data.drop p) y (y + n) = subarray data x (x + n) := by
  subst hy
  simp only [subarray, List.length_drop]
  by_cases h : 0 ≤ x ∧ x ≤ x + n ∧ x + n ≤ data.length
  · have hindex : p + (x - p).toNat = x.toNat := by omega
    have hlength : (x - p + n - (x - p)).toNat = (x + n - x).toNat := by omega
    rw [if_pos h, if_pos (by omega), List.drop_drop, hindex, hlength]
  · rw [if_neg h, if_neg (by omega)]

theorem getTypeInfo_drop (hx : p ≤ x) (hy : y = x - p) : getTypeInfo (data.drop p) y = getTypeInfo data x := by
  rw [getTypeInfo, getTypeInfo, byteAt_drop hx hy]

end Bytes

def ObjectInfo.drop (p : Nat) (info : ObjectInfo) : ObjectInfo :=
  { info with idStart := info.idStart - p, offsetStart := info.offsetStart - p, dataStart := info.dataStart - p }

def ArrayInfo.drop (p : Nat) (info : ArrayInfo) : ArrayInfo :=
  { info with offsetStart := info.offsetStart - p, dataStart := info.dataStart - p }

namespace Variant

/-- `subarray` counts a negative start from the end. -/
def standaloneValueBytes (v : Variant) : Bytes :=
  if v.pos = 0 then v.value
  else if 0 ≤ v.pos then v.value.drop v.pos.toNat
  else v.value.drop ((v.value.length : Int) + v.pos).toNat

def drop (p : Nat) (v : Variant) : Variant := ⟨v.value.drop p, v.metadata, v.pos - p⟩

/-! ## Getters -/

theorem decimalFormat_width {ti width precision : Nat} (h : decimalFormat ti = .ok (width, precision)) :
    0 < width := by
  unfold decimalFormat at h
  split_ifs at h
  · cases h
    decide
  · cases h
    decide
  · cases h
    decide

section Getters

variable {v : Variant} {p : Nat} (hp : p ≤ v.pos)
include hp

theorem getType_drop : (v.drop p).getType = v.getType := by
  simp only [getType, drop, checkIndex_drop hp rfl, getTypeInfo_drop hp rfl]

theorem primitiveInfo_drop : (v.drop p).primitiveInfo = v.primitiveInfo := by
  simp only [primitiveInfo, drop, checkIndex_drop hp rfl, getTypeInfo_drop hp rfl]

theorem payload_drop (width : Nat) : (v.drop p).payload width = v.payload width := by
  unfold payload drop
  rw [checkIndex_drop (show p ≤ v.pos + width by omega) (by dsimp only; omega),
    readLoop_drop (show p ≤ v.pos + 1 by omega) (by dsimp only; omega)]

theorem signedPayload_drop (width : Nat) : (v.drop p).signedPayload width = v.signedPayload width := by
  rw [signedPayload, signedPayload, payload_drop hp]

theorem getBoolean_drop : (v.drop p).getBoolean = v.getBoolean := by
  rw [getBoolean, getBoolean, primitiveInfo_drop hp]

theorem getByte_drop : (v.drop p).getByte = v.getByte := by
  simp only [getByte, primitiveInfo_drop hp, signedPayload_drop hp]

theorem getShort_drop : (v.drop p).getShort = v.getShort := by
  simp only [getShort, primitiveInfo_drop hp, signedPayload_drop hp]

theorem getInt_drop : (v.drop p).getInt = v.getInt := by
  simp only [getInt, primitiveInfo_drop hp, signedPayload_drop hp]

theorem getLong_drop : (v.drop p).getLong = v.getLong := by
  simp only [getLong, primitiveInfo_drop hp, signedPayload_drop hp]

theorem getFloat_drop : (v.drop p).getFloat = v.getFloat := by
  simp only [getFloat, primitiveInfo_drop hp, payload_drop hp]

theorem getDouble_drop : (v.drop p).getDouble = v.getDouble := by
  simp only [getDouble, primitiveInfo_drop hp, payload_drop hp]

theorem getDecimalParts_drop : (v.drop p).getDecimalParts = v.getDecimalParts := by
  unfold getDecimalParts
  rw [primitiveInfo_drop hp]
  apply bind_congr_ok
  intro ti _
  unfold drop
  rw [checkIndex_drop (show p ≤ v.pos + 1 by omega) (by dsimp only; omega),
    byteAt_drop (show p ≤ v.pos + 1 by omega) (by dsimp only; omega)]
  apply bind_congr_ok
  intro _ _
  apply bind_congr_ok
  intro scale _
  apply bind_congr_ok
  rintro ⟨width, precision⟩ hformat
  dsimp only
  rw [readSignedLE_drop (show p ≤ v.pos + 2 by omega) (by omega) (decimalFormat_width hformat)]

theorem getBinary_drop : (v.drop p).getBinary = v.getBinary := by
  unfold getBinary
  rw [primitiveInfo_drop hp]
  apply bind_congr_ok
  intro ti _
  split_ifs with hti
  · rfl
  · unfold drop
    rw [readUnsignedLE_drop (show p ≤ v.pos + 1 by omega) (by dsimp only; omega) (by decide)]
    apply bind_congr_ok
    intro length _
    dsimp only
    rw [checkIndex_drop (show p ≤ v.pos + 1 + U32_SIZE + length - 1 by omega) (by omega)]
    apply bind_congr_ok
    intro _ hindex
    rw [checkIndex_eq_ok] at hindex
    exact subarray_drop (show p ≤ v.pos + 1 + U32_SIZE by omega) (by omega) hindex.2

theorem getUuid_drop : (v.drop p).getUuid = v.getUuid := by
  unfold getUuid
  rw [primitiveInfo_drop hp]
  apply bind_congr_ok
  intro ti _
  split_ifs with hti
  · rfl
  · unfold drop
    dsimp only
    rw [checkIndex_drop (show p ≤ v.pos + 1 + 15 by omega) (by omega)]
    apply bind_congr_ok
    intro _ hindex
    rw [checkIndex_eq_ok] at hindex
    have hsub : subarray (v.value.drop p) (v.pos + 1 - p) (v.pos + 1 - p + (16 : Nat)) =
        subarray v.value (v.pos + 1) (v.pos + 1 + (16 : Nat)) :=
      subarray_drop (by omega) rfl (by omega)
    have hpos : v.pos - p + 1 = v.pos + 1 - p := by omega
    rw [hpos]
    exact congrArg (fun r => r >>= fun bs => pure (formatUuid bs)) hsub

theorem stringBounds_drop : (v.drop p).stringBounds = v.stringBounds.map fun b => (b.1 - (p : Int), b.2) := by
  unfold stringBounds
  rw [map_bind_eq]
  simp only [drop, checkIndex_drop hp rfl, getTypeInfo_drop hp rfl]
  apply bind_congr_ok
  intro _ _
  rw [map_bind_eq]
  apply bind_congr_ok
  rintro ⟨basicType, typeInfo⟩ _
  dsimp only
  split_ifs with h₁ h₂
  · refine congrArg Except.ok ?_
    rw [Prod.mk.injEq]
    exact ⟨by omega, rfl⟩
  · rw [map_bind_eq, readUnsignedLE_drop (show p ≤ v.pos + 1 by omega) (by omega) (by decide)]
    apply bind_congr_ok
    intro length _
    refine congrArg Except.ok ?_
    rw [Prod.mk.injEq]
    exact ⟨by omega, rfl⟩
  · rfl

theorem lt_start_of_stringBounds {start : Int} {length : Nat} (h : v.stringBounds = .ok (start, length)) :
    p < start := by
  obtain ⟨_, -, h⟩ := bind_eq_ok h
  obtain ⟨⟨basicType, typeInfo⟩, -, h⟩ := bind_eq_ok h
  dsimp only at h
  split at h
  · cases h
    omega
  split at h
  · obtain ⟨_, -, h⟩ := bind_eq_ok h
    cases h
    omega
  · cases h

theorem stringBytes_drop : (v.drop p).stringBytes = v.stringBytes := by
  unfold stringBytes
  rw [stringBounds_drop hp]
  cases hbounds : v.stringBounds with
  | error e => rfl
  | ok b =>
    obtain ⟨start, length⟩ := b
    have hstart := lt_start_of_stringBounds hp hbounds
    show (do
      checkIndex (start - p + length - 1) (v.value.drop p).length
      subarray (v.value.drop p) (start - p) (start - p + length)) = (do
      checkIndex (start + length - 1) v.value.length
      subarray v.value start (start + length))
    rw [checkIndex_drop (show p ≤ start + length - 1 by omega) (by omega)]
    apply bind_congr_ok
    intro _ hindex
    rw [checkIndex_eq_ok] at hindex
    rw [subarray_drop (show p ≤ start by omega) rfl hindex.2]

theorem getString_drop : (v.drop p).getString = v.getString := by
  rw [getString, stringBytes_drop hp, getString]

theorem readPrimitive_drop (t : VariantType) : (v.drop p).readPrimitive t = v.readPrimitive t := by
  cases t <;> simp only [readPrimitive, getBoolean_drop hp, getByte_drop hp, getShort_drop hp, getInt_drop hp,
    getLong_drop hp, getFloat_drop hp, getDouble_drop hp, getDecimalParts_drop hp, getBinary_drop hp,
      getUuid_drop hp,
    getString_drop hp]

theorem leafJson_drop (nt : NumberText) (t : VariantType) : leafJson nt (v.drop p) t = leafJson nt v t := by
  cases t <;> simp only [leafJson, getBoolean_drop hp, getLong_drop hp, getFloat_drop hp, getDouble_drop hp,
    getDecimalParts_drop hp, getBinary_drop hp, getUuid_drop hp, getString_drop hp]

end Getters

/-! ## Objects and arrays -/

section Containers

variable {v : Variant} {p : Nat} (hp : p ≤ v.pos)
include hp

theorem objectInfo_drop : (v.drop p).objectInfo = v.objectInfo.map (ObjectInfo.drop p) := by
  unfold objectInfo
  rw [map_bind_eq]
  simp only [drop, checkIndex_drop hp rfl, getTypeInfo_drop hp rfl]
  apply bind_congr_ok
  intro _ _
  rw [map_bind_eq]
  apply bind_congr_ok
  rintro ⟨basicType, typeInfo⟩ _
  dsimp only
  by_cases hbasic : basicType ≠ OBJECT
  · rw [if_pos hbasic, if_pos hbasic]
    rfl
  · obtain ⟨sizeBytes, hsize⟩ : ∃ n, n = if typeInfo / 16 % 2 ≠ 0 then U32_SIZE else 1 := ⟨_, rfl⟩
    have hpos : 0 < sizeBytes := by
      rw [hsize]
      split_ifs <;> decide
    rw [if_neg hbasic, if_neg hbasic, ← hsize, map_bind_eq,
      readUnsignedLE_drop (show p ≤ v.pos + 1 by omega) (by omega) hpos]
    apply bind_congr_ok
    intro numFields _
    refine congrArg Except.ok ?_
    simp only [ObjectInfo.drop, ObjectInfo.mk.injEq, true_and]
    refine ⟨by omega, by omega, by omega⟩

theorem arrayInfo_drop : (v.drop p).arrayInfo = v.arrayInfo.map (ArrayInfo.drop p) := by
  unfold arrayInfo
  rw [map_bind_eq]
  simp only [drop, checkIndex_drop hp rfl, getTypeInfo_drop hp rfl]
  apply bind_congr_ok
  intro _ _
  rw [map_bind_eq]
  apply bind_congr_ok
  rintro ⟨basicType, typeInfo⟩ _
  dsimp only
  by_cases hbasic : basicType ≠ ARRAY
  · rw [if_pos hbasic, if_pos hbasic]
    rfl
  · obtain ⟨sizeBytes, hsize⟩ : ∃ n, n = if typeInfo / 4 % 2 ≠ 0 then U32_SIZE else 1 := ⟨_, rfl⟩
    have hpos : 0 < sizeBytes := by
      rw [hsize]
      split_ifs <;> decide
    rw [if_neg hbasic, if_neg hbasic, ← hsize, map_bind_eq,
      readUnsignedLE_drop (show p ≤ v.pos + 1 by omega) (by omega) hpos]
    apply bind_congr_ok
    intro numFields _
    refine congrArg Except.ok ?_
    simp only [ArrayInfo.drop, ArrayInfo.mk.injEq, true_and]
    refine ⟨by omega, by omega⟩

theorem numObjectFields_drop : (v.drop p).numObjectFields = v.numObjectFields := by
  rw [numObjectFields, numObjectFields, objectInfo_drop hp]
  cases v.objectInfo <;> rfl

theorem numArrayElements_drop : (v.drop p).numArrayElements = v.numArrayElements := by
  rw [numArrayElements, numArrayElements, arrayInfo_drop hp]
  cases v.arrayInfo <;> rfl

omit hp in
theorem new_drop (value metadata : Bytes) (pos : Int) :
    new (value.drop p) metadata (pos - p) = (new value metadata pos).map (drop p) := by
  unfold new
  rw [map_bind_eq]
  apply bind_congr_ok
  intro _ _
  rw [map_bind_eq]
  apply bind_congr_ok
  intro header _
  split_ifs
  · rfl
  · rfl

structure Behind (p : Int) (info : ObjectInfo) : Prop where
  idStart : p < info.idStart
  offsetStart : p < info.offsetStart
  dataStart : p < info.dataStart
  idSize : 0 < info.idSize
  offsetSize : 0 < info.offsetSize

omit hp in
theorem behind_of_objectInfo {info : ObjectInfo} (h : v.objectInfo = .ok info) : Behind v.pos info := by
  have hdata := objectInfo_dataStart h
  obtain ⟨_, -, h⟩ := bind_eq_ok h
  obtain ⟨⟨basicType, typeInfo⟩, -, h⟩ := bind_eq_ok h
  dsimp only at h
  split at h
  · cases h
  · obtain ⟨n, -, h⟩ := bind_eq_ok h
    cases h
    have hids : (0 : Int) ≤ n * (typeInfo / 4 % 4 + 1 : Nat) := by positivity
    exact ⟨by dsimp only; omega, by dsimp only; omega, hdata, Nat.succ_pos _, Nat.succ_pos _⟩

theorem childAt_drop (dataStart : Int) {offsetStart i : Int} {offsetSize : Nat} (hstart : v.pos < offsetStart)
    (hsize : 0 < offsetSize) (hi : 0 ≤ i) :
    (v.drop p).childAt (offsetStart - p) offsetSize (dataStart - p) i =
      (v.childAt offsetStart offsetSize dataStart i).map (drop p) := by
  have hoffset : 0 ≤ offsetSize * i := by positivity
  unfold childAt
  rw [map_bind_eq]
  unfold drop
  rw [readUnsignedLE_drop (show p ≤ offsetStart + offsetSize * i by omega) (by omega) hsize]
  apply bind_congr_ok
  intro offset _
  have hpos : dataStart - p + offset = dataStart + offset - p := by omega
  dsimp only
  rw [hpos]
  exact new_drop _ _ _

/-- A field, by a number that is not negative. -/
theorem getFieldAtIndex_drop (i : Nat) :
    (v.drop p).getFieldAtIndex i = (v.getFieldAtIndex i).map fun f => (f.1, f.2.drop p) := by
  unfold getFieldAtIndex
  rw [objectInfo_drop hp, map_bind_eq]
  cases hinfo : v.objectInfo with
  | error e => rfl
  | ok info =>
    have hbehind := behind_of_objectInfo hinfo
    have hidStart := hbehind.idStart
    have hoffsetStart := hbehind.offsetStart
    have hid : 0 ≤ info.idSize * (i : Int) := by positivity
    have hoffset : 0 ≤ info.offsetSize * (i : Int) := by positivity
    show (do
      let id ← readUnsignedLE (v.value.drop p) (info.idStart - p + info.idSize * i) info.idSize
      let offset ← readUnsignedLE (v.value.drop p) (info.offsetStart - p + info.offsetSize * i) info.offsetSize
      return (← getMetadataKey v.metadata id, ← new (v.value.drop p) v.metadata (info.dataStart - p + offset))) =
      Except.map (fun f => (f.1, f.2.drop p)) (do
        let id ← readUnsignedLE v.value (info.idStart + info.idSize * i) info.idSize
        let offset ← readUnsignedLE v.value (info.offsetStart + info.offsetSize * i) info.offsetSize
        return (← getMetadataKey v.metadata id, ← new v.value v.metadata (info.dataStart + offset)))
    rw [map_bind_eq, readUnsignedLE_drop (show p ≤ info.idStart + info.idSize * i by omega)
      (by omega) hbehind.idSize]
    apply bind_congr_ok
    intro id _
    rw [map_bind_eq,
      readUnsignedLE_drop (show p ≤ info.offsetStart + info.offsetSize * i by omega) (by omega) hbehind.offsetSize]
    apply bind_congr_ok
    intro offset _
    rw [map_bind_eq]
    apply bind_congr_ok
    intro key _
    have hpos : info.dataStart - p + offset = info.dataStart + offset - p := by omega
    rw [hpos, new_drop]
    cases new v.value v.metadata (info.dataStart + offset) <;> rfl

omit hp in
theorem arrayInfo_behind {info : ArrayInfo} (h : v.arrayInfo = .ok info) : v.pos < info.offsetStart ∧
    0 < info.offsetSize := by
  obtain ⟨_, -, h⟩ := bind_eq_ok h
  obtain ⟨⟨basicType, typeInfo⟩, -, h⟩ := bind_eq_ok h
  dsimp only at h
  split at h
  · cases h
  · obtain ⟨n, -, h⟩ := bind_eq_ok h
    cases h
    exact ⟨by dsimp only; omega, Nat.succ_pos _⟩

theorem getElementAtIndex_drop (i : Int) :
    (v.drop p).getElementAtIndex i = (v.getElementAtIndex i).map (Option.map (drop p)) := by
  unfold getElementAtIndex
  rw [arrayInfo_drop hp, map_bind_eq]
  cases hinfo : v.arrayInfo with
  | error e => rfl
  | ok info =>
    obtain ⟨hstart, hsize⟩ := arrayInfo_behind hinfo
    show (if i < 0 ∨ info.numFields ≤ i then pure none else (do
      return some (← (v.drop p).childAt (info.offsetStart - p) info.offsetSize (info.dataStart - p) i))) =
      Except.map (Option.map (drop p)) (if i < 0 ∨ info.numFields ≤ i then pure none else (do
        return some (← v.childAt info.offsetStart info.offsetSize info.dataStart i)))
    by_cases hi : i < 0 ∨ info.numFields ≤ i
    · rw [if_pos hi, if_pos hi]
      rfl
    · rw [if_neg hi, if_neg hi, childAt_drop hp info.dataStart hstart hsize (by omega)]
      cases v.childAt info.offsetStart info.offsetSize info.dataStart i <;> rfl

end Containers

/-! ## Trees -/

section Trees

theorem parts_congr {α : Type} {f g : Nat → Option (Except VariantFault α)} (h : ∀ i, f i = g i) (n i : Nat) :
    parts f i n = parts g i n := by
  rw [funext h]

theorem le_pos_of_getFieldAtIndex {v c : Variant} {p : Nat} {i : Int} {key : List Char} (hp : p ≤ v.pos)
    (h : v.getFieldAtIndex i = .ok (key, c)) : p ≤ c.pos := by
  have hpos := (getFieldAtIndex_eq_ok h).2
  omega

theorem le_pos_of_getElementAtIndex {v c : Variant} {p : Nat} {i : Int} (hp : p ≤ v.pos)
    (h : v.getElementAtIndex i = .ok (some c)) : p ≤ c.pos := by
  have hpos := (getElementAtIndex_eq_ok h).2
  omega

theorem toJson_drop (nt : NumberText) (fuel : Nat) {v : Variant} {p : Nat} (hp : p ≤ v.pos) :
    toJson nt fuel (v.drop p) = toJson nt fuel v := by
  induction fuel generalizing v with
  | zero => rfl
  | succ fuel ih =>
    rw [toJson, toJson, getType_drop hp]
    simp only [numObjectFields_drop hp, numArrayElements_drop hp, leafJson_drop hp]
    congr 1
    · funext _
      congr 1
      funext n
      congr 1
      apply parts_congr
      intro i
      rw [fieldText, fieldText, getFieldAtIndex_drop hp]
      cases hget : v.getFieldAtIndex i with
      | error e => rfl
      | ok f => simp only [Except.map, ih (le_pos_of_getFieldAtIndex hp hget)]
    · funext _
      congr 1
      funext n
      congr 1
      apply parts_congr
      intro i
      rw [elementText, elementText, getElementAtIndex_drop hp]
      rcases hget : v.getElementAtIndex i with e | _ | c
      · rfl
      · rfl
      · exact ih (le_pos_of_getElementAtIndex hp hget)

theorem readTree_drop (fuel : Nat) {v : Variant} {p : Nat} (hp : p ≤ v.pos) :
    readTree fuel (v.drop p) = readTree fuel v := by
  induction fuel generalizing v with
  | zero => rfl
  | succ fuel ih =>
    rw [readTree, readTree, getType_drop hp]
    simp only [numObjectFields_drop hp, numArrayElements_drop hp, readPrimitive_drop hp]
    congr 1
    · funext _
      congr 1
      funext n
      congr 1
      apply parts_congr
      intro i
      rw [getFieldAtIndex_drop hp]
      cases hget : v.getFieldAtIndex i with
      | error e => rfl
      | ok f => simp only [Except.map, ih (le_pos_of_getFieldAtIndex hp hget)]
    · funext _
      congr 1
      funext n
      congr 1
      apply parts_congr
      intro i
      rw [getElementAtIndex_drop hp]
      rcases hget : v.getElementAtIndex i with e | _ | c
      · rfl
      · rfl
      · exact ih (le_pos_of_getElementAtIndex hp hget)

end Trees

/-! ## What navigation reaches -/

inductive ChildStep where
  | field (i : Nat)
  | element (i : Nat)

def follow : List ChildStep → Variant → Except VariantFault (Option Variant)
  | [], v => .ok (some v)
  | .field i :: path, v => do
    let (_, c) ← v.getFieldAtIndex i
    follow path c
  | .element i :: path, v => do
    match ← v.getElementAtIndex i with
    | none => return none
    | some c => follow path c

theorem follow_drop (path : List ChildStep) {v : Variant} {p : Nat} (hp : p ≤ v.pos) :
    follow path (v.drop p) = (follow path v).map (Option.map (drop p)) := by
  induction path generalizing v with
  | nil => rfl
  | cons s path ih =>
    cases s with
    | field i =>
      rw [follow, follow, getFieldAtIndex_drop hp]
      cases hget : v.getFieldAtIndex i with
      | error e => rfl
      | ok f => exact ih (le_pos_of_getFieldAtIndex hp hget)
    | element i =>
      rw [follow, follow, getElementAtIndex_drop hp]
      rcases hget : v.getElementAtIndex i with e | _ | c
      · rfl
      · rfl
      · exact ih (le_pos_of_getElementAtIndex hp hget)

structure SameNode (v w : Variant) : Prop where
  type : v.getType = w.getType
  boolean : v.getBoolean = w.getBoolean
  byte : v.getByte = w.getByte
  short : v.getShort = w.getShort
  int : v.getInt = w.getInt
  long : v.getLong = w.getLong
  float : v.getFloat = w.getFloat
  double : v.getDouble = w.getDouble
  decimal : v.getDecimalParts = w.getDecimalParts
  binary : v.getBinary = w.getBinary
  uuid : v.getUuid = w.getUuid
  string : v.getString = w.getString
  fields : v.numObjectFields = w.numObjectFields
  elements : v.numArrayElements = w.numArrayElements
  keys : ∀ i : Nat, (v.getFieldAtIndex i).map Prod.fst = (w.getFieldAtIndex i).map Prod.fst

theorem sameNode_drop {v : Variant} {p : Nat} (hp : p ≤ v.pos) : SameNode v (v.drop p) where
  type := (getType_drop hp).symm
  boolean := (getBoolean_drop hp).symm
  byte := (getByte_drop hp).symm
  short := (getShort_drop hp).symm
  int := (getInt_drop hp).symm
  long := (getLong_drop hp).symm
  float := (getFloat_drop hp).symm
  double := (getDouble_drop hp).symm
  decimal := (getDecimalParts_drop hp).symm
  binary := (getBinary_drop hp).symm
  uuid := (getUuid_drop hp).symm
  string := (getString_drop hp).symm
  fields := (numObjectFields_drop hp).symm
  elements := (numArrayElements_drop hp).symm
  keys i := by
    rw [getFieldAtIndex_drop hp]
    cases v.getFieldAtIndex i <;> rfl

def Agree (R : Variant → Variant → Prop) : Except VariantFault (Option Variant) → Except VariantFault
    (Option Variant) → Prop
  | .error e, .error e' => e = e'
  | .ok none, .ok none => True
  | .ok (some c), .ok (some d) => R c d
  | _, _ => False

theorem le_pos_of_follow (path : List ChildStep) {v c : Variant} {p : Nat} (hp : p ≤ v.pos)
    (h : follow path v = .ok (some c)) : p ≤ c.pos := by
  induction path generalizing v with
  | nil =>
    cases h
    exact hp
  | cons s path ih =>
    cases s with
    | field i =>
      obtain ⟨⟨key, d⟩, hget, h⟩ := bind_eq_ok h
      exact ih (le_pos_of_getFieldAtIndex hp hget) h
    | element i =>
      obtain ⟨_ | d, hget, h⟩ := bind_eq_ok h
      · cases h
      · exact ih (le_pos_of_getElementAtIndex hp hget) h

theorem agree_follow_drop (path : List ChildStep) {v : Variant} {p : Nat} (hp : p ≤ v.pos) :
    Agree SameNode (follow path v) (follow path (v.drop p)) := by
  rw [follow_drop path hp]
  rcases hfollow : follow path v with e | _ | c
  · rfl
  · trivial
  · exact sameNode_drop (le_pos_of_follow path hp hfollow)

/-- What calls of the navigation lead to, with any key and any index. -/
inductive Reached (r : Variant) : Variant → Prop where
  | root : Reached r r
  | byKey {v c : Variant} {key : List Char} {fuel : Nat} (h : Reached r v)
      (hget : v.getFieldByKey key fuel = some (.ok (some c))) : Reached r c
  | field {v c : Variant} {key : List Char} {idx : Int} (h : Reached r v)
    (hget : v.getFieldAtIndex idx = .ok (key, c)) :
      Reached r c
  | element {v c : Variant} {index : Int} (h : Reached r v) (hget : v.getElementAtIndex index = .ok (some c)) :
      Reached r c

section Reach

variable {v c : Variant}

theorem childAt_metadata {offsetStart dataStart i : Int} {offsetSize : Nat}
    (h : v.childAt offsetStart offsetSize dataStart i = .ok c) : c.metadata = v.metadata := by
  obtain ⟨offset, -, h⟩ := bind_eq_ok h
  rw [new_eq_ok h]

theorem exists_childAt_of_linearSearch {info : ObjectInfo} {key : List Char} (n i : Nat)
    (h : v.linearSearch info key i n = .ok (some c)) :
    ∃ j, v.childAt info.offsetStart info.offsetSize info.dataStart j = .ok c := by
  induction n generalizing i with
  | zero => cases h
  | succ n ih =>
    obtain ⟨k, -, h⟩ := bind_eq_ok h
    split at h
    · obtain ⟨c', hc, h⟩ := bind_eq_ok h
      cases h
      exact ⟨_, hc⟩
    · exact ih (i + 1) h

theorem exists_childAt_of_binarySearch {info : ObjectInfo} {keyBytes : Bytes} (fuel : Nat) (low high : Int)
    (h : v.binarySearch info keyBytes fuel low high = some (.ok (some c))) :
    ∃ j, v.childAt info.offsetStart info.offsetSize info.dataStart j = .ok c := by
  induction fuel generalizing low high with
  | zero => cases h
  | succ fuel ih =>
    rw [binarySearch] at h
    split at h
    · dsimp only at h
      split at h
      · cases h
      · split at h
        · exact ih _ _ h
        split at h
        · exact ih _ _ h
        · refine ⟨toInt32 (low + high) / 2, ?_⟩
          cases hc : v.childAt info.offsetStart info.offsetSize info.dataStart (toInt32 (low + high) / 2) with
          | error e => simp [hc, Except.map] at h
          | ok c' =>
            simp only [hc, Except.map, Option.some.injEq, Except.ok.injEq] at h
            rw [h]
    · cases h

/-- A field that was found is one that stands behind the header of the object. -/
theorem getFieldByKey_eq_ok {key : List Char} {fuel : Nat} (h : v.getFieldByKey key fuel = some (.ok (some c))) :
    c.metadata = v.metadata ∧ v.pos < c.pos := by
  rw [getFieldByKey] at h
  cases hinfo : v.objectInfo with
  | error e => simp [hinfo] at h
  | ok info =>
    have hstart := objectInfo_dataStart hinfo
    obtain ⟨j, hchild⟩ : ∃ j, v.childAt info.offsetStart info.offsetSize info.dataStart j = .ok c := by
      simp only [hinfo] at h
      split at h
      · exact exists_childAt_of_linearSearch _ _ (Option.some.inj h)
      · exact exists_childAt_of_binarySearch _ _ _ h
    have hpos := (childAt_eq_ok hchild).2
    exact ⟨childAt_metadata hchild, by omega⟩

theorem getFieldAtIndex_metadata {idx : Int} {key : List Char} (h : v.getFieldAtIndex idx = .ok (key, c)) :
    c.metadata = v.metadata := by
  obtain ⟨info, -, h⟩ := bind_eq_ok h
  obtain ⟨id, -, h⟩ := bind_eq_ok h
  obtain ⟨offset, -, h⟩ := bind_eq_ok h
  obtain ⟨key', -, h⟩ := bind_eq_ok h
  obtain ⟨c', hc, h⟩ := bind_eq_ok h
  cases h
  rw [new_eq_ok hc]

theorem getElementAtIndex_metadata {index : Int} (h : v.getElementAtIndex index = .ok (some c)) :
    c.metadata = v.metadata := by
  obtain ⟨info, -, h⟩ := bind_eq_ok h
  split at h
  · cases h
  · obtain ⟨c', hc, h⟩ := bind_eq_ok h
    cases h
    exact childAt_metadata hc

theorem Reached.spec {r : Variant} (hr : 0 ≤ r.pos) (h : Reached r v) : v.metadata = r.metadata ∧ 0 ≤ v.pos := by
  induction h with
  | root => exact ⟨rfl, hr⟩
  | byKey _ hget ih =>
    obtain ⟨hmetadata, hpos⟩ := getFieldByKey_eq_ok hget
    exact ⟨hmetadata.trans ih.1, by omega⟩
  | field _ hget ih =>
    have hpos := (getFieldAtIndex_eq_ok hget).2
    exact ⟨(getFieldAtIndex_metadata hget).trans ih.1, by omega⟩
  | element _ hget ih =>
    have hpos := (getElementAtIndex_eq_ok hget).2
    exact ⟨(getElementAtIndex_metadata hget).trans ih.1, by omega⟩

/-- The constructor looks at the metadata only. -/
theorem new_eq_of_metadata {value metadata : Bytes} {pos : Int} (h : new value metadata pos = .ok v)
    (value' : Bytes)
    (pos' : Int) : new value' metadata pos' = .ok ⟨value', metadata, pos'⟩ := by
  obtain ⟨_, hindex, h⟩ := bind_eq_ok h
  obtain ⟨header, hheader, h⟩ := bind_eq_ok h
  split at h
  · cases h
  · next hversion =>
    rw [new, hindex, hheader]
    show (if header % 16 ≠ VERSION then _ else _) = _
    rw [if_neg hversion]
    rfl

theorem standalone_eq_drop (hpos : 0 ≤ v.pos) :
    (⟨v.standaloneValueBytes, v.metadata, 0⟩ : Variant) = v.drop v.pos.toNat := by
  have hbytes : v.standaloneValueBytes = v.value.drop v.pos.toNat := by
    unfold standaloneValueBytes
    split_ifs with hzero
    · rw [hzero]
      rfl
    · rfl
  have hstart : v.pos - v.pos.toNat = 0 := by omega
  rw [drop, hbytes, hstart]

/-- What navigation reaches is read alike from its own bytes. -/
theorem standalone_same {value metadata : Bytes} {pos : Int} {r : Variant} (hr : new value metadata pos = .ok r)
    (hpos : 0 ≤ pos) (h : Reached r v) :
    ∃ w, new v.standaloneValueBytes v.metadata 0 = .ok w ∧
      (∀ path, Agree SameNode (follow path v) (follow path w)) ∧
      (∀ fuel, readTree fuel w = readTree fuel v) ∧
      ∀ nt fuel, toJson nt fuel w = toJson nt fuel v := by
  have hroot := new_eq_ok hr
  have hmetadata : r.metadata = metadata := by rw [hroot]
  obtain ⟨hsame, hv⟩ := h.spec (by rw [hroot]; exact hpos)
  have hp : (v.pos.toNat : Int) ≤ v.pos := by omega
  refine ⟨v.drop v.pos.toNat, ?_, fun path => agree_follow_drop path hp, fun fuel => readTree_drop fuel hp,
    fun nt fuel => toJson_drop nt fuel hp⟩
  rw [hsame, hmetadata, new_eq_of_metadata hr, ← hmetadata, ← hsame, standalone_eq_drop hv]

end Reach

def pairBytes : Bytes := [0x03, 2, 0, 2, 5, 0x0C, 1, 0x09, 0x68, 0x69]

theorem standalone_same_second : ∃ w, new [0x09, 0x68, 0x69] [1, 0, 0] 0 = .ok w ∧
    (∀ path, Agree SameNode (follow path ⟨pairBytes, [1, 0, 0], 7⟩) (follow path w)) ∧
    (∀ fuel, readTree fuel w = readTree fuel ⟨pairBytes, [1, 0, 0], 7⟩) ∧
    ∀ nt fuel, toJson nt fuel w = toJson nt fuel ⟨pairBytes, [1, 0, 0], 7⟩ := by
  have hnew : new pairBytes [1, 0, 0] 0 = .ok ⟨pairBytes, [1, 0, 0], 0⟩ := by decide
  have hget : getElementAtIndex ⟨pairBytes, [1, 0, 0], 0⟩ 1 = .ok (some ⟨pairBytes, [1, 0, 0], 7⟩) := by decide
  exact standalone_same hnew (by decide) (.element .root hget)

end Variant

end ConfluentKafka
