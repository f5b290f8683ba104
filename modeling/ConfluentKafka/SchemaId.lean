import ConfluentKafka.JsMap
import ConfluentKafka.Rules
import ConfluentKafka.VarInt

/-!
# Framing a payload with its schema id

`SchemaId` of `serde.ts` and the functions that put it before the payload or into a header and
read it back. The id is a tagged int32, the guid a tagged UUID of 16 bytes; for protobuf a
list of message indexes follows, with a short form for the list `[0]`.
-/

namespace ConfluentKafka

def MAGIC_BYTE_V0 : Bytes := [0]
def MAGIC_BYTE_V1 : Bytes := [1]

def MAX_VARINT_LEN_64 : Nat := 10

structure SchemaId where
  schemaType : String
  id : Option Int := none
  guid : Option String := none
  messageIndexes : Option (List Int) := none

/-! ## UUIDs -/

def byteToHex (b : UInt8) : List Char := [Nat.digitChar (b.toNat / 16), Nat.digitChar (b.toNat % 16)]

/-- The digits of the bytes `arr[i]` up to `arr[j - 1]`; a missing byte shows as text. -/
def hexBetween (arr : Bytes) (i j : Nat) : List Char :=
  (List.range' i (j - i)).flatMap fun k => (arr[k]?.map byteToHex).getD "undefined".toList

def stringifyUuid (arr : Bytes) : String :=
  -- of no bytes at all, the first sum is one of `undefined` with itself, which is no text yet
  let first := if arr = [] then "nan".toList else hexBetween arr 0 4
  String.ofList (first ++ '-' :: (hexBetween arr 4 6 ++ '-' :: (hexBetween arr 6 8 ++
    '-' :: (hexBetween arr 8 10 ++ '-' :: hexBetween arr 10 16))))

def hexValue (c : Char) : Option Nat :=
  if '0' ≤ c ∧ c ≤ '9' then some (c.toNat - '0'.toNat)
  else if 'a' ≤ c ∧ c ≤ 'f' then some (c.toNat - 'a'.toNat + 10)
  else if 'A' ≤ c ∧ c ≤ 'F' then some (c.toNat - 'A'.toNat + 10)
  else none

/-- `parseInt(s, 16)` on digits: the longest run of them at the front. Where there is none the result
is NaN, which the bit operators take as 0. -/
def parseHex (s : List Char) : Nat := (s.map hexValue).takeWhile Option.isSome |>.foldl
    (fun v d => v * 16 + d.getD 0) 0

def parseUuid (uuid : String) : Bytes :=
  let s := uuid.toList
  let slice := fun i j => parseHex ((s.take j).drop i)
  let v1 := slice 0 8
  let v2 := slice 9 13
  let v3 := slice 14 18
  let v4 := slice 19 23
  let v5 := slice 24 36
  [v1 % 2 ^ 32 / 2 ^ 24, v1 % 2 ^ 32 / 2 ^ 16, v1 % 2 ^ 32 / 2 ^ 8, v1, v2 % 2 ^ 32 / 2 ^ 8, v2,
    v3 % 2 ^ 32 / 2 ^ 8, v3,
    v4 % 2 ^ 32 / 2 ^ 8, v4, v5 / 0x10000000000, v5 / 0x100000000, v5 % 2 ^ 32 / 2 ^ 24, v5 % 2 ^ 32 / 2 ^ 16,
    v5 % 2 ^ 32 / 2 ^ 8, v5].map UInt8.ofNat

/-! ## Reading and writing -/

def writeInt32BE (value : Int) : Except Thrown Bytes :=
  if -2147483648 ≤ value ∧ value ≤ 2147483647 then .ok (bytesBE 4 (unsigned 4 value))
  else .error (.error "The value of \"value\" is out of range.")

def readInt32BE (bytes : Bytes) : Except Thrown Int :=
  if 4 ≤ bytes.length then .ok (signed 4 (natBE (bytes.take 4)))
  else .error (.error "Attempt to access memory outside buffer bounds")

namespace SchemaId

def writeMessageIndexes (msgIndexes : List Int) : Bytes :=
  if msgIndexes = [0] then [0]
  else
    let buffer := List.replicate ((1 + msgIndexes.length) * MAX_VARINT_LEN_64) 0
    let bw := (⟨buffer, 0⟩ : BufferWrapper).writeVarInt msgIndexes.length
    let bw := msgIndexes.foldl BufferWrapper.writeVarInt bw
    bw.buf.take bw.pos

def malformedIndexes : Thrown := .serialization "message indexes are absent or malformed"

def readIndexes (payload : Bytes) : Nat → BufferWrapper → Except Thrown (List Int × BufferWrapper)
  | 0, bw => .ok ([], bw)
  | count + 1, bw =>
    if payload.length ≤ bw.pos then .error malformedIndexes
    else
      let (idx, bw) := bw.readVarInt
      if idx < 0 then .error malformedIndexes
      else do
        let (msgIndexes, bw) ← readIndexes payload count bw
        return (idx :: msgIndexes, bw)

def readMessageIndexes (payload : Bytes) : Except Thrown (Nat × List Int) :=
  let (count, bw) := (⟨payload, 0⟩ : BufferWrapper).readVarInt
  if count = 0 then .ok (1, [0])
  else if count < 0 then .error malformedIndexes
  else do
    let (msgIndexes, bw) ← readIndexes payload count.toNat bw
    return (bw.pos, msgIndexes)

/-- The second half of `fromBytes`: the message indexes after the id. -/
def fromIndexBytes (schemaId : SchemaId) (payload : Bytes) (totalBytesRead : Nat) :
    Except Thrown (SchemaId × Nat) :=
  if schemaId.schemaType = "PROTOBUF" then do
    let (bytesRead, msgIndexes) ← readMessageIndexes (payload.drop totalBytesRead)
    return ({ schemaId with messageIndexes := some msgIndexes }, totalBytesRead + bytesRead)
  else .ok (schemaId, totalBytesRead)

def fromBytes (schemaId : SchemaId) (payload : Bytes) : Except Thrown (SchemaId × Nat) :=
  let magicByte := payload.take 1
  if magicByte = MAGIC_BYTE_V0 then do
    let id ← readInt32BE ((payload.take 5).drop 1)
    fromIndexBytes { schemaId with id := some id } payload 5
  else if magicByte = MAGIC_BYTE_V1 then
    fromIndexBytes { schemaId with guid := some (stringifyUuid ((payload.take 17).drop 1)) } payload 17
  else .error (.serialization "Unknown magic byte")

def indexBytes (schemaId : SchemaId) : Bytes := (schemaId.messageIndexes.map writeMessageIndexes).getD []

def idToBytes (schemaId : SchemaId) : Except Thrown Bytes :=
  match schemaId.id with
  | none => .error (.serialization "Schema id is not set")
  | some id => do
    let idBuffer ← writeInt32BE id
    return MAGIC_BYTE_V0 ++ idBuffer ++ schemaId.indexBytes

def guidToBytes (schemaId : SchemaId) : Except Thrown Bytes :=
  match schemaId.guid with
  | none => .error (.serialization "Schema guid is not set")
  | some guid => .ok (MAGIC_BYTE_V1 ++ parseUuid guid ++ schemaId.indexBytes)

end SchemaId

/-! ## Serializers and deserializers -/

inductive SerdeType where
  | key
  | value
deriving DecidableEq, Repr

inductive HeaderItem where
  | buffer (value : Bytes)
  | text (value : String)

inductive HeaderValue where
  | one (item : HeaderItem)
  | many (items : List HeaderItem)

def HeaderItem.toBuffer : HeaderItem → Bytes
  | .buffer value => value
  | .text value => value.toUTF8.toList

abbrev Headers := JsMap String HeaderValue

def headerKey (serdeType : SerdeType) : String :=
  if serdeType = .key then "__key_schema_id" else "__value_schema_id"

def HeaderSchemaIdSerializer (serdeType : SerdeType) (payload : Bytes) (schemaId : SchemaId)
    (headers : Option Headers) : Except Thrown (Bytes × Headers) :=
  match headers with
  | none => .error (.serialization "Missing Headers")
  | some headers => do
    let bytes ← schemaId.guidToBytes
    return (payload, headers.set (headerKey serdeType) (.one (.buffer bytes)))

def PrefixSchemaIdSerializer (payload : Bytes) (schemaId : SchemaId) : Except Thrown Bytes := do
  let idBytes ← schemaId.idToBytes
  return idBytes ++ payload

/-- The buffer that the deserializer takes from the headers, if there is one. -/
def headerBuffer (serdeType : SerdeType) (headers : Option Headers) : Option Bytes :=
  match headers.bind (·.get? (headerKey serdeType)) with
  | none => none
  | some (.one item) => some item.toBuffer
  | some (.many items) => items.getLast?.map HeaderItem.toBuffer

def PrefixSchemaIdDeserializer (payload : Bytes) (schemaId : SchemaId) : Except Thrown (SchemaId × Nat) :=
  schemaId.fromBytes payload

def DualSchemaIdDeserializer (serdeType : SerdeType) (payload : Bytes) (schemaId : SchemaId)
    (headers : Option Headers) : Except Thrown (SchemaId × Nat) :=
  match headerBuffer serdeType headers with
  | some buf => do
    let (schemaId, _) ← schemaId.fromBytes buf
    return (schemaId, 0)
  | none => schemaId.fromBytes payload

end ConfluentKafka
