import ConfluentKafka.JsMap
import ConfluentKafka.Variant
import Mathlib.Data.List.Sort

/-!
# The Variant builder

`VariantBuilder` of `variant-utils.ts`. The containers that are open are a stack, the last one
first; a container's header is put in front of its data when it is closed, by a call that takes
each byte of it as an argument. The language allows an array no more than 2^32 - 1 elements, and
the engine a call no more than `maxArguments` arguments.
-/

namespace ConfluentKafka

open VariantFormat

structure FieldEntry where
  key : List Char
  id : Nat
  offset : Nat

/-- An open container; `pendingKey` with its id is the key whose value comes next. -/
inductive Context where
  | object (start : Nat) (fields : List FieldEntry) (pendingKey : Option (List Char × Nat))
  | array (start : Nat) (offsets : List Nat)

structure VariantBuilder where
  value : Bytes
  dictionary : JsMap (List Char) Nat
  dictionaryKeys : List Bytes
  sizeLimit : Nat
  maxArguments : Nat
  stack : List Context
  rootWritten : Bool

/-! ## Bytes -/

def MAX_ARRAY_LENGTH : Nat := 2 ^ 32 - 1

def primitiveHeader (typeCode : Nat) : UInt8 := UInt8.ofNat (typeCode * 4 + PRIMITIVE)

def integerSize (value : Nat) : Nat :=
  if value ≤ U8_MAX then 1
  else if value ≤ U16_MAX then 2
  else if value ≤ U24_MAX then U24_SIZE
  else U32_SIZE

def uintLE (value numBytes : Nat) : Bytes := bytesLE numBytes value

def signedLE (value : Int) (width : Nat) : Bytes :=
  bytesLE width (if value < 0 then (256 ^ width : Int) + value else value).toNat

def keyLe (a b : Bytes) : Prop := compareKeysBytes a b ≤ 0

instance (a b : Bytes) : Decidable (keyLe a b) := inferInstanceAs (Decidable (_ ≤ _))

namespace VariantBuilder

def new (sizeLimit maxArguments : Nat) : VariantBuilder where
  value := []
  dictionary := JsMap.empty
  dictionaryKeys := []
  sizeLimit := sizeLimit
  maxArguments := maxArguments
  stack := []
  rootWritten := false

def sizeLimitExceeded : VariantFault := .variantError "variant size limit exceeded"

def checkCapacity (b : VariantBuilder) (additional : Nat) : Except VariantFault Unit :=
  if b.sizeLimit < b.value.length + additional then .error sizeLimitExceeded else .ok ()

def push (b : VariantBuilder) (bs : Bytes) : Except VariantFault VariantBuilder :=
  if MAX_ARRAY_LENGTH < b.value.length + bs.length then .error .arrayLength
  else .ok { b with value := b.value ++ bs }

/-! ## The current slot -/

def beforeAppend (b : VariantBuilder) : Except VariantFault VariantBuilder :=
  match b.stack with
  | [] =>
    if b.rootWritten then .error (.variantError "cannot append multiple root values")
    else .ok { b with rootWritten := true }
  | .object _ _ none :: _ => .error (.variantError "a value in an object must follow appendKey")
  | .object start fields (some (key, id)) :: rest =>
    .ok { b with stack := .object start (fields ++ [⟨key, id, b.value.length - start⟩]) none :: rest }
  | .array start offsets :: rest =>
    .ok { b with stack := .array start (offsets ++ [b.value.length - start]) :: rest }

/-! ## Values -/

def writeNull (b : VariantBuilder) : Except VariantFault VariantBuilder := do
  b.checkCapacity 1
  b.push [primitiveHeader NULL]

def writeBoolean (b : VariantBuilder) (x : Bool) : Except VariantFault VariantBuilder := do
  b.checkCapacity 1
  b.push [primitiveHeader (if x then TRUE else FALSE)]

def writeString (b : VariantBuilder) (s : List Char) : Except VariantFault VariantBuilder := do
  let text := Utf8.encode s
  if MAX_SHORT_STR_SIZE < text.length then
    b.checkCapacity (1 + U32_SIZE + text.length)
    b.push (primitiveHeader LONG_STR :: (uintLE text.length U32_SIZE ++ text))
  else
    b.checkCapacity (1 + text.length)
    b.push (UInt8.ofNat (text.length * 4 + SHORT_STR) :: text)

def writeFixedInt (b : VariantBuilder) (typeCode : Nat) (value : Int) (width : Nat) :
    Except VariantFault VariantBuilder := do
  if ¬FitsBytes width value then
    throw (.variantError ("integer value out of range for a " ++ toString width ++ "-byte width"))
  b.checkCapacity (1 + width)
  b.push (primitiveHeader typeCode :: signedLE value width)

def decimalCode (scale : Int) (digits : Nat) : Except VariantFault (Nat × Nat) :=
  if scale ≤ MAX_DECIMAL4_PRECISION ∧ digits ≤ MAX_DECIMAL4_PRECISION then .ok (DECIMAL4, 4)
  else if scale ≤ MAX_DECIMAL8_PRECISION ∧ digits ≤ MAX_DECIMAL8_PRECISION then .ok (DECIMAL8, 8)
  else if scale ≤ MAX_DECIMAL16_PRECISION ∧ digits ≤ MAX_DECIMAL16_PRECISION then .ok (DECIMAL16, 16)
  else .error (.variantError "decimal exceeds maximum precision (38)")

def writeDecimalUnscaled (b : VariantBuilder) (unscaled scale : Int) : Except VariantFault VariantBuilder := do
  if scale < 0 then throw (.variantError "cannot encode decimal with negative scale")
  b.checkCapacity (2 + 16)
  let (code, width) ← decimalCode scale (decimalDigits unscaled).length
  b.push (primitiveHeader code :: UInt8.ofNat scale.toNat :: signedLE unscaled width)

def writeDouble (b : VariantBuilder) (bits : BitVec 64) : Except VariantFault VariantBuilder := do
  b.checkCapacity (1 + 8)
  b.push (primitiveHeader DOUBLE :: bytesLE 8 bits.toNat)

def appendNull (b : VariantBuilder) : Except VariantFault VariantBuilder := do
  (← b.beforeAppend).writeNull

def appendBoolean (b : VariantBuilder) (x : Bool) : Except VariantFault VariantBuilder := do
  (← b.beforeAppend).writeBoolean x

def appendFixedInt (b : VariantBuilder) (typeCode : Nat) (value : Int) (width : Nat) :
    Except VariantFault VariantBuilder := do
  (← b.beforeAppend).writeFixedInt typeCode value width

def appendByte (b : VariantBuilder) (value : Int) := b.appendFixedInt INT1 value 1
def appendShort (b : VariantBuilder) (value : Int) := b.appendFixedInt INT2 value 2
def appendInt (b : VariantBuilder) (value : Int) := b.appendFixedInt INT4 value 4
def appendLong (b : VariantBuilder) (value : Int) := b.appendFixedInt INT8 value 8
def appendDate (b : VariantBuilder) (daysSinceEpoch : Int) := b.appendFixedInt DATE daysSinceEpoch 4
def appendTime (b : VariantBuilder) (microsSinceMidnight : Int) := b.appendFixedInt TIME microsSinceMidnight 8
def appendTimestampTz (b : VariantBuilder) (micros : Int) := b.appendFixedInt TIMESTAMP micros 8
def appendTimestampNtz (b : VariantBuilder) (micros : Int) := b.appendFixedInt TIMESTAMP_NTZ micros 8
def appendTimestampNanosTz (b : VariantBuilder) (nanos : Int) := b.appendFixedInt TIMESTAMP_NANOS nanos 8
def appendTimestampNanosNtz (b : VariantBuilder) (nanos : Int) := b.appendFixedInt TIMESTAMP_NANOS_NTZ nanos 8

def appendFloat (b : VariantBuilder) (bits : BitVec 32) : Except VariantFault VariantBuilder := do
  let b ← b.beforeAppend
  b.checkCapacity (1 + 4)
  b.push (primitiveHeader FLOAT :: bytesLE 4 bits.toNat)

def appendDouble (b : VariantBuilder) (bits : BitVec 64) : Except VariantFault VariantBuilder := do
  (← b.beforeAppend).writeDouble bits

def appendDecimal (b : VariantBuilder) (unscaled scale : Int) : Except VariantFault VariantBuilder := do
  (← b.beforeAppend).writeDecimalUnscaled unscaled scale

def appendString (b : VariantBuilder) (s : List Char) : Except VariantFault VariantBuilder := do
  (← b.beforeAppend).writeString s

def appendBinary (b : VariantBuilder) (data : Bytes) : Except VariantFault VariantBuilder := do
  let b ← b.beforeAppend
  b.checkCapacity (1 + U32_SIZE + data.length)
  b.push (primitiveHeader BINARY :: (uintLE data.length U32_SIZE ++ data))

def appendUuid (b : VariantBuilder) (uuid16 : Bytes) : Except VariantFault VariantBuilder := do
  let b ← b.beforeAppend
  if uuid16.length ≠ 16 then throw (.variantError "uuid must be 16 bytes")
  b.checkCapacity (1 + 16)
  b.push (primitiveHeader UUID :: uuid16)

/-! ## Containers -/

/-- Puts the header in front of the data from `start` on. -/
def splice (b : VariantBuilder) (start : Nat) (header : Bytes) : Except VariantFault VariantBuilder := do
  b.checkCapacity header.length
  -- the arguments are `start`, the number of elements to remove, and the bytes of the header
  if b.maxArguments < 2 + header.length then throw .arguments
  else if MAX_ARRAY_LENGTH < b.value.length + header.length then throw .arrayLength
  else return { b with value := b.value.take start ++ (header ++ b.value.drop start) }

def sizeBytes (n : Nat) : Nat := if U8_MAX < n then U32_SIZE else 1

def arrayHeader (offsets : List Nat) (dataSize : Nat) : Bytes :=
  let offsetSize := integerSize dataSize
  UInt8.ofNat ((if U8_MAX < offsets.length then 16 else 0) + (offsetSize - 1) * 4 + ARRAY) ::
    (uintLE offsets.length (sizeBytes offsets.length) ++ (offsets.flatMap (fun o => uintLE o offsetSize) ++
      uintLE dataSize offsetSize))

def objectHeader (fields : List FieldEntry) (dataSize : Nat) : Bytes :=
  let maxId := fields.foldl (fun m f => max m f.id) 0
  let idSize := integerSize maxId
  let offsetSize := integerSize dataSize
  UInt8.ofNat ((if U8_MAX < fields.length then 64 else 0) + (idSize - 1) * 16 + (offsetSize - 1) * 4 + OBJECT) ::
    (uintLE fields.length (sizeBytes fields.length) ++ (fields.flatMap (fun f => uintLE f.id idSize) ++
      (fields.flatMap (fun f => uintLE f.offset offsetSize) ++ uintLE dataSize offsetSize)))

def finishWritingArray (b : VariantBuilder) (start : Nat) (offsets : List Nat) :
    Except VariantFault VariantBuilder :=
  b.splice start (arrayHeader offsets (b.value.length - start))

def finishWritingObject (b : VariantBuilder) (start : Nat) (fields : List FieldEntry) :
    Except VariantFault VariantBuilder :=
  let sorted := fields.insertionSort fun f g => keyLe (b.dictionaryKeys.getD f.id [])
    (b.dictionaryKeys.getD g.id [])
  b.splice start (objectHeader sorted (b.value.length - start))

def startObject (b : VariantBuilder) : Except VariantFault VariantBuilder := do
  let b ← b.beforeAppend
  return { b with stack := .object b.value.length [] none :: b.stack }

def addKey (b : VariantBuilder) (key : List Char) : Nat × VariantBuilder :=
  match b.dictionary.get? key with
  | some existing => (existing, b)
  | none =>
    let id := b.dictionaryKeys.length
    (id, { b with dictionary := b.dictionary.set key id, dictionaryKeys := b.dictionaryKeys ++ [Utf8.encode key] })

def appendKey (b : VariantBuilder) (key : List Char) : Except VariantFault VariantBuilder :=
  match b.stack with
  | .object _ _ (some _) :: _ => .error (.variantError "appendKey called twice without an intervening value")
  | .object start fields none :: rest =>
    let (id, b) := b.addKey key
    .ok { b with stack := .object start fields (some (key, id)) :: rest }
  | _ => .error (.variantError "appendKey called outside of an object")

def endObject (b : VariantBuilder) : Except VariantFault VariantBuilder :=
  match b.stack with
  | .object _ _ (some _) :: _ => .error (.variantError "endObject with a dangling appendKey (no value)")
  | .object start fields none :: rest => finishWritingObject { b with stack := rest } start fields
  | _ => .error (.variantError "endObject without a matching startObject")

def startArray (b : VariantBuilder) : Except VariantFault VariantBuilder := do
  let b ← b.beforeAppend
  return { b with stack := .array b.value.length [] :: b.stack }

def endArray (b : VariantBuilder) : Except VariantFault VariantBuilder :=
  match b.stack with
  | .array start offsets :: rest => finishWritingArray { b with stack := rest } start offsets
  | _ => .error (.variantError "endArray without a matching startArray")

/-! ## The end -/

def totalLength (keys : List Bytes) : Nat := (keys.map List.length).sum

def keyOffsets : Nat → List Bytes → List Nat
  | offset, [] => [offset]
  | offset, key :: keys => offset :: keyOffsets (offset + key.length) keys

def metadataBytes (keys : List Bytes) : Bytes :=
  let offsetSize := integerSize (max (totalLength keys) keys.length)
  UInt8.ofNat (VERSION + (offsetSize - 1) * 64) :: (uintLE keys.length offsetSize ++
    ((keyOffsets 0 keys).flatMap (fun o => uintLE o offsetSize) ++ keys.flatten))

def finalize (b : VariantBuilder) : Except VariantFault (Bytes × Bytes) := do
  let numKeys := b.dictionaryKeys.length
  let dictStringSize := totalLength b.dictionaryKeys
  let maxSize := max dictStringSize numKeys
  if b.sizeLimit < maxSize then throw sizeLimitExceeded
  let offsetSize := integerSize maxSize
  let stringStart := 1 + offsetSize + (numKeys + 1) * offsetSize
  if b.sizeLimit < stringStart + dictStringSize then throw sizeLimitExceeded
  let metadata := metadataBytes b.dictionaryKeys
  if MAX_ARRAY_LENGTH < metadata.length then throw .arrayLength
  return (b.value, metadata)

def build (b : VariantBuilder) : Except VariantFault Variant := do
  if b.stack ≠ [] then throw (.variantError "cannot build with an open container")
  if ¬b.rootWritten then throw (.variantError "cannot build an empty variant")
  let (value, metadata) ← b.finalize
  Variant.new value metadata 0

end VariantBuilder

end ConfluentKafka
