import ConfluentKafka.Layout
import ConfluentKafka.VariantSafe
import ConfluentKafka.VariantTree

/-!
# What the builder writes

The encoding of a tree as a function of the ids of its keys, and the builder's run: the calls of a
tree append its encoding, with the ids that the dictionary gives the keys, unless a limit on the
size stops them. A container's offsets are relative to its start, so the headers that are put in
front later move its values as they are.
-/

namespace ConfluentKafka

open VariantFormat

/-! ## The encoding -/

def Primitive.encode : Primitive → Bytes
  | .null => [primitiveHeader NULL]
  | .boolean x => [primitiveHeader (if x then TRUE else FALSE)]
  | .byte value => primitiveHeader INT1 :: signedLE value 1
  | .short value => primitiveHeader INT2 :: signedLE value 2
  | .int value => primitiveHeader INT4 :: signedLE value 4
  | .long value => primitiveHeader INT8 :: signedLE value 8
  | .float bits => primitiveHeader FLOAT :: bytesLE 4 bits.toNat
  | .double bits => primitiveHeader DOUBLE :: bytesLE 8 bits.toNat
  | .decimal unscaled scale =>
    match VariantBuilder.decimalCode scale (decimalDigits unscaled).length with
    | .ok (code, width) => primitiveHeader code :: UInt8.ofNat scale :: signedLE unscaled width
    | .error _ => []
  | .date value => primitiveHeader DATE :: signedLE value 4
  | .time value => primitiveHeader TIME :: signedLE value 8
  | .timestampTz value => primitiveHeader TIMESTAMP :: signedLE value 8
  | .timestampNtz value => primitiveHeader TIMESTAMP_NTZ :: signedLE value 8
  | .timestampNanosTz value => primitiveHeader TIMESTAMP_NANOS :: signedLE value 8
  | .timestampNanosNtz value => primitiveHeader TIMESTAMP_NANOS_NTZ :: signedLE value 8
  | .uuid bytes => primitiveHeader UUID :: bytes
  | .binary data => primitiveHeader BINARY :: (uintLE data.length U32_SIZE ++ data)
  | .string s =>
    let text := Utf8.encode s
    if MAX_SHORT_STR_SIZE < text.length then primitiveHeader LONG_STR :: (uintLE text.length U32_SIZE ++ text)
    else UInt8.ofNat (text.length * 4 + SHORT_STR) :: text

def arrayBytes (elements : List Bytes) : Bytes :=
  VariantBuilder.arrayHeader (runningOffsets 0 elements) elements.flatten.length ++ elements.flatten

def fieldEntries (ids : List Char → Nat) : Nat → List (List Char × Bytes) → List FieldEntry
  | _, [] => []
  | offset, (key, bs) :: rest => ⟨key, ids key, offset⟩ :: fieldEntries ids (offset + bs.length) rest

def entryLe (f g : FieldEntry) : Prop := keyLe (Utf8.encode f.key) (Utf8.encode g.key)

instance : DecidableRel entryLe := fun f g => inferInstanceAs
    (Decidable (keyLe (Utf8.encode f.key) (Utf8.encode g.key)))

def fieldData (fields : List (List Char × Bytes)) : Bytes := (fields.map Prod.snd).flatten

def objectBytes (ids : List Char → Nat) (fields : List (List Char × Bytes)) : Bytes :=
  VariantBuilder.objectHeader ((fieldEntries ids 0 fields).insertionSort entryLe) (fieldData fields).length ++
    fieldData fields

mutual

def VariantTree.encode (ids : List Char → Nat) : VariantTree → Bytes
  | .primitive p => p.encode
  | .array elements => arrayBytes (encodeElements ids elements)
  | .object fields => objectBytes ids (encodeFields ids fields)

def encodeElements (ids : List Char → Nat) : List VariantTree → List Bytes
  | [] => []
  | t :: ts => t.encode ids :: encodeElements ids ts

def encodeFields (ids : List Char → Nat) : List (List Char × VariantTree) → List (List Char × Bytes)
  | [] => []
  | (key, t) :: fs => (key, t.encode ids) :: encodeFields ids fs

end

mutual

def VariantTree.headers (ids : List Char → Nat) : VariantTree → List Bytes
  | .primitive _ => []
  | .array elements => elementHeaders ids elements ++ [VariantBuilder.arrayHeader
      (runningOffsets 0 (encodeElements ids elements)) (encodeElements ids elements).flatten.length]
  | .object fields => fieldHeaders ids fields ++ [VariantBuilder.objectHeader
      ((fieldEntries ids 0 (encodeFields ids fields)).insertionSort entryLe)
      (fieldData (encodeFields ids fields)).length]

def elementHeaders (ids : List Char → Nat) : List VariantTree → List Bytes
  | [] => []
  | t :: ts => t.headers ids ++ elementHeaders ids ts

def fieldHeaders (ids : List Char → Nat) : List (List Char × VariantTree) → List Bytes
  | [] => []
  | (_, t) :: fs => t.headers ids ++ fieldHeaders ids fs

end

def HeadersFit (maxArguments : Nat) (headers : List Bytes) : Prop := ∀ header ∈ headers,
    2 + header.length ≤ maxArguments

instance (maxArguments : Nat) (headers : List Bytes) : Decidable (HeadersFit maxArguments headers) :=
  inferInstanceAs (Decidable (∀ header ∈ headers, 2 + header.length ≤ maxArguments))

@[simp] theorem headersFit_append {maxArguments : Nat} {hs hs' : List Bytes} :
    HeadersFit maxArguments (hs ++ hs') ↔ HeadersFit maxArguments hs ∧ HeadersFit maxArguments hs' :=
  List.forall_mem_append

@[simp] theorem headersFit_singleton {maxArguments : Nat} {header : Bytes} :
    HeadersFit maxArguments [header] ↔ 2 + header.length ≤ maxArguments :=
  List.forall_mem_singleton

theorem headersFit_nil (maxArguments : Nat) : HeadersFit maxArguments [] := List.forall_mem_nil _

/-! ## The dictionary -/

instance chars_lawfulBEq : LawfulBEq (List Char) := inferInstance

def addKey (keys : List (List Char)) (key : List Char) :
    List (List Char) := if key ∈ keys then keys else keys ++ [key]

mutual

def VariantTree.keys : VariantTree → List (List Char) → List (List Char)
  | .primitive _, keys => keys
  | .array elements, keys => elementKeys elements keys
  | .object fields, keys => fieldKeys fields keys

def elementKeys : List VariantTree → List (List Char) → List (List Char)
  | [], keys => keys
  | t :: ts, keys => elementKeys ts (t.keys keys)

def fieldKeys : List (List Char × VariantTree) → List (List Char) → List (List Char)
  | [], keys => keys
  | (key, t) :: fs, keys => fieldKeys fs (t.keys (addKey keys key))

end

theorem prefix_addKey (keys : List (List Char)) (key : List Char) : keys <+: addKey keys key := by
  unfold addKey
  split
  · exact List.prefix_refl _
  · exact List.prefix_append _ _

theorem mem_addKey (keys : List (List Char)) (key : List Char) : key ∈ addKey keys key := by
  unfold addKey
  split
  · assumption
  · simp

mutual

theorem VariantTree.prefix_keys : ∀ (t : VariantTree) (keys : List (List Char)), keys <+: t.keys keys
  | .primitive p, keys => by
    rw [VariantTree.keys]
  | .array elements, keys => by
    rw [VariantTree.keys]
    exact prefix_elementKeys elements keys
  | .object fields, keys => by
    rw [VariantTree.keys]
    exact prefix_fieldKeys fields keys

theorem prefix_elementKeys : ∀ (ts : List VariantTree) (keys : List (List Char)), keys <+: elementKeys ts keys
  | [], keys => by
    rw [elementKeys]
  | t :: ts, keys => by
    rw [elementKeys]
    exact (t.prefix_keys keys).trans (prefix_elementKeys ts _)

theorem prefix_fieldKeys : ∀ (fs : List (List Char × VariantTree)) (keys : List (List Char)),
    keys <+: fieldKeys fs keys
  | [], keys => by
    rw [fieldKeys]
  | (key, t) :: fs, keys => by
    rw [fieldKeys]
    exact (prefix_addKey keys key).trans ((t.prefix_keys _).trans (prefix_fieldKeys fs _))

end

/-- The id of a key does not change when further keys are added. -/
theorem idxOf_of_prefix {keys keys' : List (List Char)} (h : keys <+: keys') {key : List Char} (hk : key ∈ keys) :
    keys'.idxOf key = keys.idxOf key := by
  obtain ⟨rest, rfl⟩ := h
  exact List.idxOf_append_of_mem hk

namespace VariantBuilder

/-- The builder's dictionary holds these keys, each with its place as id. -/
structure HasKeys (b : VariantBuilder) (keys : List (List Char)) : Prop where
  dictionary : ∀ key, b.dictionary.get? key = if key ∈ keys then some (keys.idxOf key) else none
  dictionaryKeys : b.dictionaryKeys = keys.map Utf8.encode

theorem HasKeys.addKey {b : VariantBuilder} {keys : List (List Char)} (h : b.HasKeys keys) (key : List Char) :
    (b.addKey key).1 = (ConfluentKafka.addKey keys key).idxOf key ∧
      (b.addKey key).2.HasKeys (ConfluentKafka.addKey keys key) := by
  by_cases hk : key ∈ keys
  · have hd : b.dictionary.get? key = some (keys.idxOf key) := by rw [h.dictionary, if_pos hk]
    have hkeys : ConfluentKafka.addKey keys key = keys := if_pos hk
    rw [VariantBuilder.addKey, hd, hkeys]
    exact ⟨rfl, h⟩
  · have hd : b.dictionary.get? key = none := by rw [h.dictionary, if_neg hk]
    have hkeys : ConfluentKafka.addKey keys key = keys ++ [key] := if_neg hk
    have hlen : b.dictionaryKeys.length = keys.length := by rw [h.dictionaryKeys, List.length_map]
    have hidx : (keys ++ [key]).idxOf key = keys.length := by simp [List.idxOf_append, hk]
    rw [VariantBuilder.addKey, hd, hkeys]
    refine ⟨hlen.trans hidx.symm, ?_, ?_⟩
    · intro k
      rw [JsMap.get?_set, h.dictionary, hlen]
      by_cases hkk : k = key
      · subst hkk
        simp [hidx]
      · by_cases hmem : k ∈ keys
        · simp [hkk, hmem, List.idxOf_append_of_mem]
        · simp [hkk, hmem]
    · simp [h.dictionaryKeys]

theorem addKey_frame (b : VariantBuilder) (key : List Char) :
    (b.addKey key).2.value = b.value ∧ (b.addKey key).2.rootWritten = b.rootWritten ∧
      (b.addKey key).2.maxArguments = b.maxArguments := by
  unfold VariantBuilder.addKey
  split <;> exact ⟨rfl, rfl, rfl⟩

theorem appendKey_of_object {b : VariantBuilder} {start : Nat} {entries : List FieldEntry} {rest : List Context}
    (h : b.stack = .object start entries none :: rest) (key : List Char) :
    b.appendKey key =
      .ok { (b.addKey key).2 with stack := .object start entries (some (key, (b.addKey key).1)) :: rest } := by
  rw [appendKey, h]

theorem hasKeys_new (sizeLimit maxArguments : Nat) : (new sizeLimit maxArguments).HasKeys [] where
  dictionary key := by simp [new]
  dictionaryKeys := rfl

/-! ## Steps -/

/-- The step does this, or a limit stops it: that on the arguments of a call only where the headers do not fit. -/
def Limited {α : Type} (headersFit : Prop) (P : α → Prop) : Except VariantFault α → Prop
  | .ok a => P a
  | .error e => e = sizeLimitExceeded ∨ e = .arrayLength ∨ (e = .arguments ∧ ¬headersFit)

section

variable {F : Prop}

theorem Limited.bind {α β : Type} {P : α → Prop} {Q : β → Prop} {x : Except VariantFault α}
    {f : α → Except VariantFault β} (hx : Limited F P x) (hf : ∀ a, P a → Limited F Q (f a)) : Limited F Q
    (x >>= f) := by
  cases x with
  | ok a => exact hf a hx
  | error e => exact hx

theorem Limited.mono {α : Type} {P Q : α → Prop} {x : Except VariantFault α} (hx : Limited F P x)
    (h : ∀ a, P a → Q a) : Limited F Q x := by
  cases x with
  | ok a => exact h a hx
  | error e => exact hx

/-- Where more headers are to fit, less is asked of the one that does not. -/
theorem Limited.among {α : Type} {F' : Prop} {P : α → Prop} {x : Except VariantFault α} (hx : Limited F P x)
    (h : F' → F) : Limited F' P x := by
  cases x with
  | ok a => exact hx
  | error e => exact hx.imp id (Or.imp id (And.imp id fun hn hF => hn (h hF)))

theorem limited_checkCapacity (b : VariantBuilder) (n : Nat) : Limited F (fun _ => True) (b.checkCapacity n) := by
  unfold checkCapacity
  split
  · exact .inl rfl
  · trivial

/-- The bytes are behind the others, and all of them fit in an array. -/
structure Wrote (b : VariantBuilder) (bs : Bytes) (b' : VariantBuilder) : Prop where
  eq : b' = { b with value := b.value ++ bs }
  length_le : b'.value.length ≤ MAX_ARRAY_LENGTH

theorem limited_push (b : VariantBuilder) (bs : Bytes) : Limited F (b.Wrote bs) (b.push bs) := by
  unfold push
  split
  · exact .inr (.inl rfl)
  · next h =>
    refine ⟨rfl, ?_⟩
    simp only [List.length_append]
    omega

theorem limited_write (b : VariantBuilder) (n : Nat) (bs : Bytes) :
    Limited F (b.Wrote bs) (do b.checkCapacity n; b.push bs) :=
  (b.limited_checkCapacity n).bind fun _ _ => b.limited_push bs

theorem limited_writeFixedInt (b : VariantBuilder) (typeCode : Nat) {value : Int} {width : Nat}
    (h : FitsBytes width value) :
    Limited F (b.Wrote (primitiveHeader typeCode :: signedLE value width))
      (b.writeFixedInt typeCode value width) := by
  rw [writeFixedInt, if_neg (not_not_intro h)]
  exact b.limited_write _ _

theorem limited_writeString (b : VariantBuilder) (s : List Char) :
    Limited F (b.Wrote (Primitive.string s).encode) (b.writeString s) := by
  simp only [writeString, Primitive.encode]
  split
  · exact b.limited_write _ _
  · exact b.limited_write _ _

theorem decimalCode_eq_ok {scale digits : Nat} (hs : scale ≤ 38) (hd : digits ≤ 38) :
    ∃ code width, decimalCode scale digits = .ok (code, width) := by
  unfold decimalCode
  split
  · exact ⟨_, _, rfl⟩
  split
  · exact ⟨_, _, rfl⟩
  · rw [if_pos ⟨by exact_mod_cast hs, hd⟩]
    exact ⟨_, _, rfl⟩

theorem limited_writeDecimalUnscaled (b : VariantBuilder) {unscaled : Int} {scale : Nat}
    (hd : (decimalDigits unscaled).length ≤ 38) (hs : scale ≤ 38) :
    Limited F (b.Wrote (Primitive.decimal unscaled scale).encode) (b.writeDecimalUnscaled unscaled scale) := by
  obtain ⟨code, width, hc⟩ := decimalCode_eq_ok hs hd
  rw [writeDecimalUnscaled, if_neg (by omega)]
  refine (b.limited_checkCapacity _).bind fun _ _ => ?_
  simp only [Primitive.encode, hc]
  exact b.limited_push _

theorem limited_append {b b₁ : VariantBuilder} (h : b.beforeAppend = .ok b₁) {p : Primitive}
    (hp : p.WellFormed) : Limited F (b₁.Wrote p.encode) (b.append p) := by
  have slot : ∀ {Q : VariantBuilder → Prop} {f : VariantBuilder → Except VariantFault VariantBuilder},
      Limited F Q (f b₁) → Limited F Q (b.beforeAppend >>= f) := by
    intro Q f hf
    rw [h]
    exact hf
  cases p with
  | null => exact slot (b₁.limited_write _ _)
  | boolean x => exact slot (b₁.limited_write _ _)
  | byte value => exact slot (b₁.limited_writeFixedInt INT1 hp)
  | short value => exact slot (b₁.limited_writeFixedInt INT2 hp)
  | int value => exact slot (b₁.limited_writeFixedInt INT4 hp)
  | long value => exact slot (b₁.limited_writeFixedInt INT8 hp)
  | float bits => exact slot (b₁.limited_write _ _)
  | double bits => exact slot (b₁.limited_write _ _)
  | decimal unscaled scale => exact slot (b₁.limited_writeDecimalUnscaled hp.1 hp.2)
  | date value => exact slot (b₁.limited_writeFixedInt DATE hp)
  | time value => exact slot (b₁.limited_writeFixedInt TIME hp)
  | timestampTz value => exact slot (b₁.limited_writeFixedInt TIMESTAMP hp)
  | timestampNtz value => exact slot (b₁.limited_writeFixedInt TIMESTAMP_NTZ hp)
  | timestampNanosTz value => exact slot (b₁.limited_writeFixedInt TIMESTAMP_NANOS hp)
  | timestampNanosNtz value => exact slot (b₁.limited_writeFixedInt TIMESTAMP_NANOS_NTZ hp)
  | uuid bytes =>
    have hlen : ¬bytes.length ≠ 16 := not_not_intro hp
    refine slot ?_
    dsimp only
    rw [if_neg hlen]
    exact b₁.limited_write _ _
  | binary data => exact slot (b₁.limited_write _ _)
  | string s => exact slot (b₁.limited_writeString s)

theorem beforeAppend_eq_ok {b b₁ : VariantBuilder} (h : b.beforeAppend = .ok b₁) :
    b₁ = { b with stack := b₁.stack, rootWritten := b₁.rootWritten } := by
  unfold beforeAppend at h
  split at h
  · split at h
    · cases h
    · cases h
      rfl
  · cases h
  · cases h
    rfl
  · cases h
    rfl

/-- The header is put between what is in front of the container and its data. -/
theorem limited_splice {b : VariantBuilder} {front data : Bytes} (h : b.value = front ++ data) (header : Bytes) :
    Limited (2 + header.length ≤ b.maxArguments) (fun b' => b' = { b with value := front ++ (header ++ data) } ∧
      b'.value.length ≤ MAX_ARRAY_LENGTH ∧ 2 + header.length ≤ b.maxArguments) (b.splice front.length header) := by
  rw [splice]
  refine (b.limited_checkCapacity _).bind fun _ _ => ?_
  split
  · next hargs => exact .inr (.inr ⟨rfl, Nat.not_le.mpr hargs⟩)
  next hargs =>
  split
  · exact .inr (.inl rfl)
  · next hlen =>
    rw [h, List.length_append] at hlen
    refine ⟨?_, ?_, Nat.not_lt.mp hargs⟩
    · simp [h]
    · simp [h]
      omega

end

/-! ## Runs -/

theorem run_append (cs cs' : List BuilderCall) (b : VariantBuilder) :
    b.run (cs ++ cs') = b.run cs >>= fun b' => b'.run cs' := by
  induction cs generalizing b with
  | nil => rfl
  | cons c cs ih =>
    rw [List.cons_append, run, run]
    cases b.call c with
    | ok b₁ => exact ih b₁
    | error e => rfl

theorem run_cons_of_ok {b b₁ : VariantBuilder} {c : BuilderCall} (h : b.call c = .ok b₁) (cs : List BuilderCall) :
    b.run (c :: cs) = b₁.run cs := by
  rw [run, h]
  rfl

theorem run_singleton (b : VariantBuilder) (c : BuilderCall) : b.run [c] = b.call c := by
  rw [run]
  cases b.call c with
  | ok b₁ => rfl
  | error e => rfl

/-- A value is in its slot, its keys are in the dictionary, and its headers have fit. -/
structure Appended (b : VariantBuilder) (bs : Bytes) (keys : List (List Char)) (headers : List Bytes)
    (b' : VariantBuilder) : Prop where
  value : b'.value = b.value ++ bs
  stack : b'.stack = b.stack
  rootWritten : b'.rootWritten = b.rootWritten
  keys : b'.HasKeys keys
  maxArguments : b'.maxArguments = b.maxArguments
  fit : HeadersFit b.maxArguments headers
  length_le : b'.value.length ≤ MAX_ARRAY_LENGTH

structure Elements (b : VariantBuilder) (stack : List Context) (parts : List Bytes) (keys : List (List Char))
    (headers : List Bytes) (b' : VariantBuilder) : Prop where
  value : b'.value = b.value ++ parts.flatten
  stack : b'.stack = stack
  rootWritten : b'.rootWritten = b.rootWritten
  keys : b'.HasKeys keys
  maxArguments : b'.maxArguments = b.maxArguments
  fit : HeadersFit b.maxArguments headers

theorem HasKeys.of_eq {b b' : VariantBuilder} {keys : List (List Char)} (h : b.HasKeys keys)
    (hd : b'.dictionary = b.dictionary) (hk : b'.dictionaryKeys = b.dictionaryKeys) : b'.HasKeys keys where
  dictionary := by
    rw [hd]
    exact h.dictionary
  dictionaryKeys := by
    rw [hk]
    exact h.dictionaryKeys

theorem HasKeys.beforeAppend {b b₁ : VariantBuilder} {keys : List (List Char)} (h : b.HasKeys keys)
    (hb : b.beforeAppend = .ok b₁) : b₁.HasKeys keys := by
  rw [beforeAppend_eq_ok hb]
  exact h.of_eq rfl rfl

theorem Wrote.appended {b b' : VariantBuilder} {bs : Bytes} {keys : List (List Char)} (h : b.Wrote bs b')
    (hk : b.HasKeys keys) : b.Appended bs keys [] b' where
  value := by rw [h.eq]
  stack := by rw [h.eq]
  rootWritten := by rw [h.eq]
  keys := by
    rw [h.eq]
    exact hk.of_eq rfl rfl
  maxArguments := by rw [h.eq]
  fit := headersFit_nil _
  length_le := h.length_le

theorem limited_endArray {b : VariantBuilder} {front : Bytes} {parts : List Bytes} {rest : List Context}
    (hv : b.value = front ++ parts.flatten) (hs : b.stack = .array front.length (runningOffsets 0 parts) :: rest) :
    Limited (2 + (arrayHeader (runningOffsets 0 parts) parts.flatten.length).length ≤ b.maxArguments)
      (fun b' => b' = { b with value := front ++ arrayBytes parts, stack := rest } ∧
        b'.value.length ≤ MAX_ARRAY_LENGTH ∧
        2 + (arrayHeader (runningOffsets 0 parts) parts.flatten.length).length ≤ b.maxArguments) b.endArray := by
  have hlen : b.value.length - front.length = parts.flatten.length := by
    rw [hv, List.length_append, Nat.add_sub_cancel_left]
  rw [endArray, hs]
  dsimp only
  rw [finishWritingArray]
  dsimp only
  rw [hlen]
  exact limited_splice (b := { b with stack := rest }) hv _

theorem mem_fieldEntries {ids : List Char → Nat} {parts : List (List Char × Bytes)} {offset : Nat} {e : FieldEntry}
    (h : e ∈ fieldEntries ids offset parts) : ∃ p ∈ parts, e.key = p.1 ∧ e.id = ids p.1 := by
  induction parts generalizing offset with
  | nil => simp [fieldEntries] at h
  | cons p parts ih =>
    rw [fieldEntries, List.mem_cons] at h
    rcases h with rfl | h
    · exact ⟨p, List.mem_cons_self, rfl, rfl⟩
    · obtain ⟨q, hq, he⟩ := ih h
      exact ⟨q, List.mem_cons_of_mem _ hq, he⟩

theorem HasKeys.getD_idxOf {b : VariantBuilder} {keys : List (List Char)} (h : b.HasKeys keys) {key : List Char}
    (hk : key ∈ keys) : b.dictionaryKeys.getD (keys.idxOf key) [] = Utf8.encode key := by
  have hlt : keys.idxOf key < keys.length := List.idxOf_lt_length_of_mem hk
  rw [h.dictionaryKeys, List.getD_eq_getElem?_getD, List.getElem?_map, List.getElem?_eq_getElem hlt]
  simp

theorem limited_endObject {b : VariantBuilder} {front : Bytes} {parts : List (List Char × Bytes)}
    {rest : List Context} {keys : List (List Char)} {ids : List Char → Nat} (hk : b.HasKeys keys)
    (hids : ∀ p ∈ parts, p.1 ∈ keys ∧ ids p.1 = keys.idxOf p.1) (hv : b.value = front ++ fieldData parts)
    (hs : b.stack = .object front.length (fieldEntries ids 0 parts) none :: rest) :
    let header := objectHeader ((fieldEntries ids 0 parts).insertionSort entryLe) (fieldData parts).length
    Limited (2 + header.length ≤ b.maxArguments)
      (fun b' => b' = { b with value := front ++ objectBytes ids parts, stack := rest } ∧
        b'.value.length ≤ MAX_ARRAY_LENGTH ∧ 2 + header.length ≤ b.maxArguments) b.endObject := by
  have hlen : b.value.length - front.length = (fieldData parts).length := by
    rw [hv, List.length_append, Nat.add_sub_cancel_left]
  have hkey : ∀ e ∈ fieldEntries ids 0 parts, b.dictionaryKeys.getD e.id [] = Utf8.encode e.key := by
    intro e he
    obtain ⟨p, hp, hkey, hid⟩ := mem_fieldEntries he
    rw [hkey, hid, (hids p hp).2]
    exact hk.getD_idxOf (hids p hp).1
  have hsort : (fieldEntries ids 0 parts).insertionSort
      (fun f g => keyLe (b.dictionaryKeys.getD f.id []) (b.dictionaryKeys.getD g.id [])) =
      (fieldEntries ids 0 parts).insertionSort entryLe := by
    have h := List.map_insertionSort (r := fun f g : FieldEntry =>
      keyLe (b.dictionaryKeys.getD f.id []) (b.dictionaryKeys.getD g.id [])) (s := entryLe) id
      (fieldEntries ids 0 parts) (fun f hf g hg => by rw [hkey f hf, hkey g hg]; rfl)
    simpa using h
  rw [endObject, hs]
  dsimp only
  rw [finishWritingObject]
  dsimp only
  rw [hlen, hsort]
  exact limited_splice (b := { b with stack := rest }) hv _

structure Fields (b : VariantBuilder) (stack : List Context) (parts : List (List Char × Bytes))
    (keys : List (List Char)) (headers : List Bytes) (b' : VariantBuilder) : Prop where
  value : b'.value = b.value ++ fieldData parts
  stack : b'.stack = stack
  rootWritten : b'.rootWritten = b.rootWritten
  keys : b'.HasKeys keys
  maxArguments : b'.maxArguments = b.maxArguments
  fit : HeadersFit b.maxArguments headers

theorem mem_fieldKeys : ∀ (fs : List (List Char × VariantTree)) (keys : List (List Char)),
    ∀ key ∈ fs.map Prod.fst, key ∈ fieldKeys fs keys
  | [], _, key, h => by simp at h
  | (key', t) :: fs, keys, key, h => by
    rw [fieldKeys]
    rw [List.map_cons, List.mem_cons] at h
    rcases h with rfl | h
    · exact ((t.prefix_keys _).trans (prefix_fieldKeys fs _)).subset (mem_addKey keys _)
    · exact mem_fieldKeys fs _ key h

theorem map_fst_encodeFields (ids : List Char → Nat) :
    ∀ fs : List (List Char × VariantTree), (encodeFields ids fs).map Prod.fst = fs.map Prod.fst
  | [] => by rw [encodeFields]; rfl
  | (key, t) :: fs => by
    rw [encodeFields, List.map_cons, List.map_cons, map_fst_encodeFields ids fs]

mutual

theorem limited_run_calls {keys' : List (List Char)} :
    ∀ (t : VariantTree) {b b₁ : VariantBuilder} {keys : List (List Char)}, t.WellFormed → b.beforeAppend = .ok b₁ →
      b.HasKeys keys → t.keys keys <+: keys' →
      Limited (HeadersFit b.maxArguments (t.headers fun key => keys'.idxOf key))
        (b₁.Appended (t.encode fun key => keys'.idxOf key) (t.keys keys) (t.headers fun key => keys'.idxOf key))
        (b.run t.calls)
  | .primitive p, b, b₁, keys, hwf, hb, hk, hpre => by
    rw [VariantTree.calls, VariantTree.encode, VariantTree.keys, VariantTree.headers, run_singleton]
    rw [VariantTree.WellFormed] at hwf
    exact (limited_append hb hwf).mono fun b' h => h.appended (hk.beforeAppend hb)
  | .array elements, b, b₁, keys, hwf, hb, hk, hpre => by
    rw [VariantTree.calls, VariantTree.encode, VariantTree.keys, VariantTree.headers, headersFit_append,
      headersFit_singleton]
    rw [VariantTree.WellFormed] at hwf
    rw [VariantTree.keys] at hpre
    have hstart : b.call .startArray = .ok { b₁ with stack := .array b₁.value.length [] :: b₁.stack } := by
      rw [call, startArray, hb]
      rfl
    rw [run_cons_of_ok hstart, run_append]
    have hk₁ := hk.beforeAppend hb
    have hmax : b₁.maxArguments = b.maxArguments := by rw [beforeAppend_eq_ok hb]
    rw [← hmax]
    refine ((limited_run_elementCalls (b := { b₁ with stack := .array b₁.value.length [] :: b₁.stack })
      elements hwf rfl
      (Nat.le_refl _) (hk₁.of_eq rfl rfl) hpre).among And.left).bind fun b₂ h₂ => ?_
    rw [run_singleton]
    have hmax₂ : b₂.maxArguments = b₁.maxArguments := h₂.maxArguments
    refine ((limited_endArray h₂.value (by simpa using h₂.stack)).among (by rw [hmax₂]; exact And.right)).mono ?_
    rintro b₃ ⟨rfl, hlen, hfit⟩
    rw [hmax₂] at hfit
    exact ⟨rfl, rfl, h₂.rootWritten, h₂.keys.of_eq rfl rfl, hmax₂,
      headersFit_append.mpr ⟨h₂.fit, headersFit_singleton.mpr hfit⟩, hlen⟩
  | .object fields, b, b₁, keys, hwf, hb, hk, hpre => by
    rw [VariantTree.calls, VariantTree.encode, VariantTree.keys, VariantTree.headers, headersFit_append,
      headersFit_singleton]
    rw [VariantTree.WellFormed] at hwf
    rw [VariantTree.keys] at hpre
    have hstart : b.call .startObject = .ok { b₁ with stack := .object b₁.value.length [] none :: b₁.stack } := by
      rw [call, startObject, hb]
      rfl
    rw [run_cons_of_ok hstart, run_append]
    have hk₁ := hk.beforeAppend hb
    have hmax : b₁.maxArguments = b.maxArguments := by rw [beforeAppend_eq_ok hb]
    rw [← hmax]
    refine ((limited_run_fieldCalls (b := { b₁ with stack := .object b₁.value.length [] none :: b₁.stack }) fields
      hwf.2
      rfl (Nat.le_refl _) (hk₁.of_eq rfl rfl) hpre).among And.left).bind fun b₂ h₂ => ?_
    rw [run_singleton]
    have hmax₂ : b₂.maxArguments = b₁.maxArguments := h₂.maxArguments
    have hids : ∀ p ∈ encodeFields (fun key => keys'.idxOf key) fields,
        p.1 ∈ fieldKeys fields keys ∧ keys'.idxOf p.1 = (fieldKeys fields keys).idxOf p.1 := by
      intro p hp
      have hmem : p.1 ∈ fields.map Prod.fst := by
        rw [← map_fst_encodeFields fun key => keys'.idxOf key]
        exact List.mem_map_of_mem hp
      have hkey := mem_fieldKeys fields keys p.1 hmem
      exact ⟨hkey, idxOf_of_prefix hpre hkey⟩
    refine ((limited_endObject h₂.keys hids h₂.value (by simpa using h₂.stack)).among
      (by rw [hmax₂]; exact And.right)).mono ?_
    rintro b₃ ⟨rfl, hlen, hfit⟩
    rw [hmax₂] at hfit
    exact ⟨rfl, rfl, h₂.rootWritten, h₂.keys.of_eq rfl rfl, hmax₂,
      headersFit_append.mpr ⟨h₂.fit, headersFit_singleton.mpr hfit⟩, hlen⟩

theorem limited_run_elementCalls {keys' : List (List Char)} :
    ∀ (ts : List VariantTree) {b : VariantBuilder} {start : Nat} {offsets : List Nat} {rest : List Context}
      {keys : List (List Char)}, elementsWellFormed ts → b.stack = .array start offsets :: rest →
      start ≤ b.value.length → b.HasKeys keys → elementKeys ts keys <+: keys' →
      Limited (HeadersFit b.maxArguments (elementHeaders (fun key => keys'.idxOf key) ts))
        (b.Elements (.array start (offsets ++ runningOffsets (b.value.length - start)
          (encodeElements (fun key => keys'.idxOf key) ts)) :: rest)
            (encodeElements (fun key => keys'.idxOf key) ts)
          (elementKeys ts keys) (elementHeaders (fun key => keys'.idxOf key) ts)) (b.run (elementCalls ts))
  | [], b, start, offsets, rest, keys, _, hs, _, hk, _ => by
    rw [elementCalls, encodeElements, elementKeys, elementHeaders, runningOffsets]
    exact ⟨by simp, by simpa using hs, rfl, hk, rfl, headersFit_nil _⟩
  | t :: ts, b, start, offsets, rest, keys, hwf, hs, hle, hk, hpre => by
    rw [elementCalls, encodeElements, elementKeys, elementHeaders, runningOffsets, run_append, headersFit_append]
    rw [elementsWellFormed] at hwf
    rw [elementKeys] at hpre
    have hb : b.beforeAppend = .ok
      { b with stack := .array start (offsets ++ [b.value.length - start]) :: rest } := by
      rw [beforeAppend, hs]
    have hpre' := (prefix_elementKeys ts (t.keys keys)).trans hpre
    refine ((limited_run_calls t hwf.1 hb hk hpre').among And.left).bind fun b₂ h₂ => ?_
    have hmax₂ : b₂.maxArguments = b.maxArguments := h₂.maxArguments
    have hv : b₂.value.length = b.value.length + (t.encode fun key => keys'.idxOf key).length := by
      rw [h₂.value, List.length_append]
    refine ((limited_run_elementCalls ts hwf.2 h₂.stack (by omega) h₂.keys hpre).among
      (by rw [hmax₂]; exact And.right)).mono fun b₃ h₃ => ?_
    have hoff : b₂.value.length - start =
        b.value.length - start + (t.encode fun key => keys'.idxOf key).length := by omega
    have hfit₃ := h₃.fit
    rw [hmax₂] at hfit₃
    refine ⟨?_, ?_, h₃.rootWritten.trans h₂.rootWritten, h₃.keys, h₃.maxArguments.trans hmax₂,
      headersFit_append.mpr ⟨h₂.fit, hfit₃⟩⟩
    · rw [h₃.value, h₂.value, List.flatten_cons, List.append_assoc]
    · rw [h₃.stack, hoff, List.append_assoc, List.singleton_append]

theorem limited_run_fieldCalls {keys' : List (List Char)} :
    ∀ (fs : List (List Char × VariantTree)) {b : VariantBuilder} {start : Nat} {entries : List FieldEntry}
      {rest : List Context} {keys : List (List Char)}, fieldsWellFormed fs →
        b.stack = .object start entries none :: rest →
      start ≤ b.value.length → b.HasKeys keys → fieldKeys fs keys <+: keys' →
      Limited (HeadersFit b.maxArguments (fieldHeaders (fun key => keys'.idxOf key) fs))
        (b.Fields (.object start (entries ++ fieldEntries (fun key => keys'.idxOf key) (b.value.length - start)
          (encodeFields (fun key => keys'.idxOf key) fs)) none :: rest)
            (encodeFields (fun key => keys'.idxOf key) fs)
          (fieldKeys fs keys) (fieldHeaders (fun key => keys'.idxOf key) fs)) (b.run (fieldCalls fs))
  | [], b, start, entries, rest, keys, _, hs, _, hk, _ => by
    rw [fieldCalls, encodeFields, fieldKeys, fieldHeaders, fieldEntries]
    exact ⟨by simp [fieldData], by simpa using hs, rfl, hk, rfl, headersFit_nil _⟩
  | (key, t) :: fs, b, start, entries, rest, keys, hwf, hs, hle, hk, hpre => by
    rw [fieldCalls, encodeFields, fieldKeys, fieldHeaders, fieldEntries, headersFit_append]
    rw [fieldsWellFormed] at hwf
    rw [fieldKeys] at hpre
    have hpre₂ := (prefix_fieldKeys fs _).trans hpre
    have hpre₁ := (t.prefix_keys _).trans hpre₂
    obtain ⟨hid, hkeys⟩ := hk.addKey key
    rw [← idxOf_of_prefix hpre₁ (mem_addKey keys key)] at hid
    obtain ⟨hvalue, hroot, hmax⟩ := b.addKey_frame key
    obtain ⟨b₁, hb₁, hv₁, hs₁, hr₁, hmax₁, hk₁⟩ : ∃ b₁, b.call (.appendKey key) = .ok b₁ ∧ b₁.value = b.value ∧
        b₁.stack = .object start entries (some (key, keys'.idxOf key)) :: rest ∧ b₁.rootWritten = b.rootWritten ∧
        b₁.maxArguments = b.maxArguments ∧ b₁.HasKeys (ConfluentKafka.addKey keys key) := by
      refine ⟨_, appendKey_of_object hs key, hvalue, ?_, hroot, hmax, hkeys.of_eq rfl rfl⟩
      rw [← hid]
    have hb₂ : b₁.beforeAppend = .ok { b₁ with
        stack := .object start (entries ++ [⟨key, keys'.idxOf key, b.value.length - start⟩]) none :: rest } := by
      rw [beforeAppend, hs₁, hv₁]
    rw [run_cons_of_ok hb₁, run_append]
    refine ((limited_run_calls t hwf.1 hb₂ hk₁ hpre₂).among (by rw [hmax₁]; exact And.left)).bind fun b₃ h₃ => ?_
    have hmax₃ : b₃.maxArguments = b.maxArguments := h₃.maxArguments.trans hmax₁
    have hv₃ : b₃.value = b.value ++ t.encode fun key => keys'.idxOf key := by rw [h₃.value, hv₁]
    have hlen : b₃.value.length = b.value.length + (t.encode fun key => keys'.idxOf key).length := by
      rw [hv₃, List.length_append]
    refine ((limited_run_fieldCalls fs hwf.2 h₃.stack (by omega) h₃.keys hpre).among
      (by rw [hmax₃]; exact And.right)).mono fun b₄ h₄ => ?_
    have hoff : b₃.value.length - start =
        b.value.length - start + (t.encode fun key => keys'.idxOf key).length := by omega
    have hfit₃ : HeadersFit b.maxArguments (t.headers fun key => keys'.idxOf key) := by
      rw [← hmax₁]
      exact h₃.fit
    have hfit₄ := h₄.fit
    rw [hmax₃] at hfit₄
    refine ⟨?_, ?_, h₄.rootWritten.trans (h₃.rootWritten.trans hr₁), h₄.keys, h₄.maxArguments.trans hmax₃,
      headersFit_append.mpr ⟨hfit₃, hfit₄⟩⟩
    · rw [h₄.value, hv₃, fieldData, fieldData, List.map_cons, List.flatten_cons, List.append_assoc]
    · rw [h₄.stack, hoff, List.append_assoc, List.singleton_append]

end

/-! ## The end -/

theorem limited_finalize {F : Prop} (b : VariantBuilder) :
    Limited F (fun r => r = (b.value, metadataBytes b.dictionaryKeys) ∧
      (metadataBytes b.dictionaryKeys).length ≤ MAX_ARRAY_LENGTH) b.finalize := by
  rw [finalize]
  dsimp only
  split
  · exact .inl rfl
  split
  · exact .inl rfl
  split
  · exact .inr (.inl rfl)
  · next h => exact ⟨rfl, Nat.not_lt.mp h⟩

end VariantBuilder

theorem integerSize_pos (n : Nat) : 0 < integerSize n := by
  unfold integerSize
  split
  · exact Nat.one_pos
  split
  · exact Nat.two_pos
  split <;> decide

theorem integerSize_le (n : Nat) : integerSize n ≤ 4 := by
  unfold integerSize
  split
  · decide
  split
  · decide
  split <;> decide

theorem Variant.new_metadataBytes (value : Bytes) (keys : List Bytes) (pos : Int) :
    Variant.new value (VariantBuilder.metadataBytes keys) pos = .ok
      ⟨value, VariantBuilder.metadataBytes keys, pos⟩ := by
  have h₁ := integerSize_pos (max (VariantBuilder.totalLength keys) keys.length)
  have h₄ := integerSize_le (max (VariantBuilder.totalLength keys) keys.length)
  have hpos : (0 : Int) < (VariantBuilder.metadataBytes keys).length := by
    simp only [VariantBuilder.metadataBytes, List.length_cons]
    omega
  have hb : byteAt (VariantBuilder.metadataBytes keys) 0 =
      .ok (VERSION + (integerSize (max (VariantBuilder.totalLength keys) keys.length) - 1) * 64) := by
    rw [byteAt_ok (le_refl _) hpos]
    simp [VariantBuilder.metadataBytes, UInt8.toNat_ofNat', VERSION]
    omega
  have hi : checkIndex 0 (VariantBuilder.metadataBytes keys).length = .ok () := by
    rw [checkIndex_eq_ok]
    exact ⟨le_refl _, hpos⟩
  have hv : ¬(VERSION + (integerSize (max (VariantBuilder.totalLength keys) keys.length) - 1) * 64) %
    16 ≠ VERSION := by
    simp only [VERSION]
    omega
  rw [Variant.new, hi, hb]
  exact if_neg hv

def VariantTree.ids (t : VariantTree) (key : List Char) : Nat := (t.keys []).idxOf key

def VariantTree.dictionaryKeys (t : VariantTree) : List Bytes := (t.keys []).map Utf8.encode

def VariantTree.encoded (t : VariantTree) : Variant :=
  ⟨t.encode t.ids, VariantBuilder.metadataBytes t.dictionaryKeys, 0⟩

structure VariantTree.Sized (t : VariantTree) : Prop where
  value : t.encoded.value.length ≤ MAX_ARRAY_LENGTH
  metadata : t.encoded.metadata.length ≤ MAX_ARRAY_LENGTH

/-- The engine takes the bytes of every header as arguments of a call. -/
def VariantTree.HeadersFit (t : VariantTree) (maxArguments : Nat) : Prop :=
  ConfluentKafka.HeadersFit maxArguments (t.headers t.ids)

theorem VariantTree.limited_build {t : VariantTree} (h : t.WellFormed) (sizeLimit maxArguments : Nat) :
    VariantBuilder.Limited (t.HeadersFit maxArguments)
      (fun v => v = t.encoded ∧ t.Sized ∧ t.HeadersFit maxArguments) (t.build sizeLimit maxArguments) := by
  refine (VariantBuilder.limited_run_calls t h rfl (VariantBuilder.hasKeys_new sizeLimit maxArguments)
    (List.prefix_refl _)).bind fun b hb => ?_
  have hvalue : b.value = t.encode t.ids := hb.value
  have hkeys : b.dictionaryKeys = t.dictionaryKeys := hb.keys.dictionaryKeys
  have hstack : ¬b.stack ≠ [] := not_not_intro hb.stack
  have hroot : ¬¬b.rootWritten = true := not_not_intro hb.rootWritten
  have hlen := hb.length_le
  rw [VariantBuilder.build, if_neg hstack, if_neg hroot]
  refine b.limited_finalize.bind ?_
  rintro _ ⟨rfl, hmeta⟩
  dsimp only
  rw [hkeys, hvalue, Variant.new_metadataBytes]
  rw [hkeys] at hmeta
  rw [hvalue] at hlen
  exact ⟨rfl, ⟨hlen, hmeta⟩, hb.fit⟩

end ConfluentKafka
