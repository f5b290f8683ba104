import ConfluentKafka.Utf16
import ConfluentKafka.Utf8

/-!
# The Variant reader

`Variant` of `variant-utils.ts`: a view over two byte arrays, the values and the dictionary of
keys, at a position. Every index is an integer, also one that a check has still to refuse. The
search of `getFieldByKey` takes fuel and is `none` where that does not suffice.
-/

namespace ConfluentKafka

namespace VariantFormat

def MAX_SHORT_STR_SIZE : Nat := 0x3f

def PRIMITIVE : Nat := 0
def SHORT_STR : Nat := 1
def OBJECT : Nat := 2
def ARRAY : Nat := 3

def NULL : Nat := 0
def TRUE : Nat := 1
def FALSE : Nat := 2
def INT1 : Nat := 3
def INT2 : Nat := 4
def INT4 : Nat := 5
def INT8 : Nat := 6
def DOUBLE : Nat := 7
def DECIMAL4 : Nat := 8
def DECIMAL8 : Nat := 9
def DECIMAL16 : Nat := 10
def DATE : Nat := 11
def TIMESTAMP : Nat := 12
def TIMESTAMP_NTZ : Nat := 13
def FLOAT : Nat := 14
def BINARY : Nat := 15
def LONG_STR : Nat := 16
def TIME : Nat := 17
def TIMESTAMP_NANOS : Nat := 18
def TIMESTAMP_NANOS_NTZ : Nat := 19
def UUID : Nat := 20

def VERSION : Nat := 1

def U8_MAX : Nat := 0xff
def U16_MAX : Nat := 0xffff
def U24_SIZE : Nat := 3
def U24_MAX : Nat := 0xffffff
def U32_SIZE : Nat := 4

def MAX_DECIMAL4_PRECISION : Nat := 9
def MAX_DECIMAL8_PRECISION : Nat := 18
def MAX_DECIMAL16_PRECISION : Nat := 38

def BINARY_SEARCH_THRESHOLD : Nat := 32

end VariantFormat

open VariantFormat

inductive VariantType where
  | OBJECT
  | ARRAY
  | NULL
  | BOOLEAN
  | BYTE
  | SHORT
  | INT
  | LONG
  | STRING
  | DOUBLE
  | DECIMAL4
  | DECIMAL8
  | DECIMAL16
  | DATE
  | TIMESTAMP_TZ
  | TIMESTAMP_NTZ
  | FLOAT
  | BINARY
  | TIME
  | TIMESTAMP_NANOS_TZ
  | TIMESTAMP_NANOS_NTZ
  | UUID
  deriving DecidableEq

/-- What a call ends with where it has no result: a `VariantError`, a read outside of an array, an
array made longer than the language allows, a call with more arguments than the engine takes, or a
string longer than its strings are. -/
inductive VariantFault where
  | variantError (message : String)
  | outside
  | arrayLength
  | arguments
  | stringLength
  deriving DecidableEq

/-! ## Bytes -/

def checkIndex (pos : Int) (length : Nat) : Except VariantFault Unit :=
  if pos < 0 ∨ length ≤ pos then .error (.variantError "malformed variant: index out of bounds") else .ok ()

def byteAt (data : Bytes) (pos : Int) : Except VariantFault Nat :=
  if 0 ≤ pos ∧ pos < data.length then .ok (data.getD pos.toNat 0).toNat else .error .outside

/-- The bytes at `pos + i - 1` down to `pos`, in front of which stands `result`. -/
def readLoop (data : Bytes) (pos : Int) : Nat → Nat → Except VariantFault Nat
  | 0, result => .ok result
  | i + 1, result => do
    let b ← byteAt data (pos + i)
    readLoop data pos i (result * 256 + b)

def readUnsignedLE (data : Bytes) (pos : Int) (numBytes : Nat) : Except VariantFault Nat := do
  checkIndex pos data.length
  checkIndex (pos + numBytes - 1) data.length
  readLoop data pos numBytes 0

def readSignedLE (data : Bytes) (pos : Int) (width : Nat) : Except VariantFault Int := do
  checkIndex pos data.length
  checkIndex (pos + width - 1) data.length
  let result ← readLoop data pos width 0
  let top ← byteAt data (pos + width - 1)
  return if 0x80 ≤ top then (result : Int) - 256 ^ width else result

def subarray (data : Bytes) (start stop : Int) : Except VariantFault Bytes :=
  if 0 ≤ start ∧ start ≤ stop ∧ stop ≤ data.length then
    .ok ((data.drop start.toNat).take (stop - start).toNat)
  else .error .outside

/-- A `TextDecoder` takes a byte order mark at the front for a mark and not for text. -/
def textDecode : Bytes → List Char
  | 0xEF :: 0xBB :: 0xBF :: bs => Utf8.decode bs
  | bs => Utf8.decode bs

def MAX_STRING_LENGTH : Nat := 2 ^ 29 - 24

def textLength (text : List Char) : Nat := (Utf16.ofChars text).length

def IsString (text : List Char) : Prop := textLength text ≤ MAX_STRING_LENGTH

instance (text : List Char) : Decidable (IsString text) := inferInstanceAs (Decidable (_ ≤ _))

def makeString (text : List Char) : Except VariantFault (List Char) :=
  if IsString text then .ok text else .error .stringLength

def getTypeInfo (value : Bytes) (pos : Int) : Except VariantFault (Nat × Nat) := do
  let b ← byteAt value pos
  return (b % 4, b / 4 % 64)

def metadataKeyBytes (metadata : Bytes) (id : Nat) : Except VariantFault Bytes := do
  checkIndex 0 metadata.length
  let header ← byteAt metadata 0
  let offsetSize := header / 64 % 4 + 1
  let dictSize ← readUnsignedLE metadata 1 offsetSize
  if dictSize ≤ id then throw (.variantError "malformed variant: field id out of range")
  let stringStart := 1 + (dictSize + 2) * offsetSize
  let offset ← readUnsignedLE metadata ((1 + (id + 1) * offsetSize : Nat) : Int) offsetSize
  let nextOffset ← readUnsignedLE metadata ((1 + (id + 2) * offsetSize : Nat) : Int) offsetSize
  if nextOffset < offset then throw (.variantError "malformed variant: non-monotonic metadata offsets")
  checkIndex ((stringStart + nextOffset : Nat) - 1 : Int) metadata.length
  subarray metadata (stringStart + offset : Nat) (stringStart + nextOffset : Nat)

def getMetadataKey (metadata : Bytes) (id : Nat) : Except VariantFault (List Char) := do
  makeString (textDecode (← metadataKeyBytes metadata id))

def compareKeysBytes : Bytes → Bytes → Int
  | a :: as, b :: bs => if a ≠ b then (a.toNat : Int) - b.toNat else compareKeysBytes as bs
  | as, bs => (as.length : Int) - bs.length

def toInt32 (n : Int) : Int := Int.bmod n (2 ^ 32)

/-! ## Values -/

structure Variant where
  value : Bytes
  metadata : Bytes
  pos : Int
  deriving DecidableEq

def TYPE_MAP (typeInfo : Nat) : Option VariantType :=
  if typeInfo = NULL then some .NULL
  else if typeInfo = TRUE then some .BOOLEAN
  else if typeInfo = FALSE then some .BOOLEAN
  else if typeInfo = INT1 then some .BYTE
  else if typeInfo = INT2 then some .SHORT
  else if typeInfo = INT4 then some .INT
  else if typeInfo = INT8 then some .LONG
  else if typeInfo = DOUBLE then some .DOUBLE
  else if typeInfo = DECIMAL4 then some .DECIMAL4
  else if typeInfo = DECIMAL8 then some .DECIMAL8
  else if typeInfo = DECIMAL16 then some .DECIMAL16
  else if typeInfo = DATE then some .DATE
  else if typeInfo = TIMESTAMP then some .TIMESTAMP_TZ
  else if typeInfo = TIMESTAMP_NTZ then some .TIMESTAMP_NTZ
  else if typeInfo = FLOAT then some .FLOAT
  else if typeInfo = BINARY then some .BINARY
  else if typeInfo = LONG_STR then some .STRING
  else if typeInfo = TIME then some .TIME
  else if typeInfo = TIMESTAMP_NANOS then some .TIMESTAMP_NANOS_TZ
  else if typeInfo = TIMESTAMP_NANOS_NTZ then some .TIMESTAMP_NANOS_NTZ
  else if typeInfo = UUID then some .UUID
  else none

def decimalDigits (i : Int) : List Char := Nat.toDigits 10 i.natAbs

def checkDecimal (unscaled : Int) (precision : Nat) : Except VariantFault Unit :=
  if precision < (decimalDigits unscaled).length then
    .error (.variantError "malformed variant: decimal out of range")
  else .ok ()

def hexByte (b : UInt8) : List Char := [Nat.digitChar (b.toNat / 16), Nat.digitChar (b.toNat % 16)]

def formatUuid (bytes : Bytes) : List Char :=
  let h := bytes.flatMap hexByte
  h.take 8 ++ '-' :: ((h.take 12).drop 8 ++ '-' :: ((h.take 16).drop 12 ++ '-' :: ((h.take 20).drop 16 ++
    '-' :: h.drop 20)))

structure ObjectInfo where
  numFields : Nat
  idSize : Nat
  offsetSize : Nat
  idStart : Int
  offsetStart : Int
  dataStart : Int

structure ArrayInfo where
  numFields : Nat
  offsetSize : Nat
  offsetStart : Int
  dataStart : Int

namespace Variant

def new (value metadata : Bytes) (pos : Int) : Except VariantFault Variant := do
  checkIndex 0 metadata.length
  let header ← byteAt metadata 0
  if header % 16 ≠ VERSION then
    throw (.variantError ("unsupported variant metadata version: " ++ toString (header % 16)))
  return ⟨value, metadata, pos⟩

def getType (v : Variant) : Except VariantFault VariantType := do
  checkIndex v.pos v.value.length
  let (basicType, typeInfo) ← getTypeInfo v.value v.pos
  if basicType = SHORT_STR then return .STRING
  if basicType = OBJECT then return .OBJECT
  if basicType = ARRAY then return .ARRAY
  match TYPE_MAP typeInfo with
  | none => throw (.variantError ("unknown variant primitive type: " ++ toString typeInfo))
  | some t => return t

def primitiveInfo (v : Variant) : Except VariantFault Nat := do
  checkIndex v.pos v.value.length
  let (basicType, typeInfo) ← getTypeInfo v.value v.pos
  if basicType ≠ PRIMITIVE then throw (.variantError "expected a primitive variant value")
  return typeInfo

/-! ## Typed getters -/

/-- The `width` bytes after the header, through the `DataView`. -/
def payload (v : Variant) (width : Nat) : Except VariantFault Nat := do
  checkIndex (v.pos + width) v.value.length
  readLoop v.value (v.pos + 1) width 0

def signedPayload (v : Variant) (width : Nat) : Except VariantFault Int := do
  return signed width (← v.payload width)

def getBoolean (v : Variant) : Except VariantFault Bool := do
  let ti ← v.primitiveInfo
  if ti ≠ TRUE ∧ ti ≠ FALSE then throw (.variantError "variant is not a boolean")
  return ti = TRUE

def getByte (v : Variant) : Except VariantFault Int := do
  let ti ← v.primitiveInfo
  if ti = INT1 then v.signedPayload 1
  else throw (.variantError "variant is not a byte-width integer")

def getShort (v : Variant) : Except VariantFault Int := do
  let ti ← v.primitiveInfo
  if ti = INT1 then v.signedPayload 1
  else if ti = INT2 then v.signedPayload 2
  else throw (.variantError "variant is not a short-width integer")

def getInt (v : Variant) : Except VariantFault Int := do
  let ti ← v.primitiveInfo
  if ti = INT1 then v.signedPayload 1
  else if ti = INT2 then v.signedPayload 2
  else if ti = INT4 then v.signedPayload 4
  else throw (.variantError "variant is not an int-width integer")

def getLong (v : Variant) : Except VariantFault Int := do
  let ti ← v.primitiveInfo
  if ti = INT1 then v.signedPayload 1
  else if ti = INT2 then v.signedPayload 2
  else if ti = INT4 ∨ ti = DATE then v.signedPayload 4
  else if ti = INT8 ∨ ti = TIMESTAMP ∨ ti = TIMESTAMP_NTZ ∨ ti = TIME ∨ ti = TIMESTAMP_NANOS ∨
      ti = TIMESTAMP_NANOS_NTZ then v.signedPayload 8
  else throw (.variantError "variant is not an integer-backed type")

def getFloat (v : Variant) : Except VariantFault (BitVec 32) := do
  let ti ← v.primitiveInfo
  if ti = FLOAT then return BitVec.ofNat 32 (← v.payload 4)
  else throw (.variantError "variant is not a float")

def getDouble (v : Variant) : Except VariantFault (BitVec 64) := do
  let ti ← v.primitiveInfo
  if ti = DOUBLE then return BitVec.ofNat 64 (← v.payload 8)
  else throw (.variantError "variant is not a double")

def decimalFormat (ti : Nat) : Except VariantFault (Nat × Nat) :=
  if ti = DECIMAL4 then .ok (4, MAX_DECIMAL4_PRECISION)
  else if ti = DECIMAL8 then .ok (8, MAX_DECIMAL8_PRECISION)
  else if ti = DECIMAL16 then .ok (16, MAX_DECIMAL16_PRECISION)
  else .error (.variantError "variant is not a decimal")

def getDecimalParts (v : Variant) : Except VariantFault (Int × Nat) := do
  let ti ← v.primitiveInfo
  checkIndex (v.pos + 1) v.value.length
  let scale ← byteAt v.value (v.pos + 1)
  let (width, precision) ← decimalFormat ti
  let unscaled ← readSignedLE v.value (v.pos + 2) width
  checkDecimal unscaled precision
  return (unscaled, scale)

def getBinary (v : Variant) : Except VariantFault Bytes := do
  let ti ← v.primitiveInfo
  if ti ≠ BINARY then throw (.variantError "variant is not binary")
  let length ← readUnsignedLE v.value (v.pos + 1) U32_SIZE
  let start := v.pos + 1 + U32_SIZE
  checkIndex (start + length - 1) v.value.length
  subarray v.value start (start + length)

def getUuid (v : Variant) : Except VariantFault (List Char) := do
  let ti ← v.primitiveInfo
  if ti ≠ UUID then throw (.variantError "variant is not a uuid")
  let start := v.pos + 1
  checkIndex (start + 15) v.value.length
  return formatUuid (← subarray v.value start (start + 16))

def stringBounds (v : Variant) : Except VariantFault (Int × Nat) := do
  checkIndex v.pos v.value.length
  let (basicType, typeInfo) ← getTypeInfo v.value v.pos
  if basicType = SHORT_STR then return (v.pos + 1, typeInfo)
  else if basicType = PRIMITIVE ∧ typeInfo = LONG_STR then
    let length ← readUnsignedLE v.value (v.pos + 1) U32_SIZE
    return (v.pos + 1 + U32_SIZE, length)
  else throw (.variantError "variant is not a string")

def stringBytes (v : Variant) : Except VariantFault Bytes := do
  let (start, length) ← v.stringBounds
  checkIndex (start + length - 1) v.value.length
  subarray v.value start (start + length)

def getString (v : Variant) : Except VariantFault (List Char) := do
  makeString (textDecode (← v.stringBytes))

/-! ## Objects and arrays -/

def objectInfo (v : Variant) : Except VariantFault ObjectInfo := do
  checkIndex v.pos v.value.length
  let (basicType, typeInfo) ← getTypeInfo v.value v.pos
  if basicType ≠ OBJECT then throw (.variantError "variant is not an object")
  let sizeBytes := if typeInfo / 16 % 2 ≠ 0 then U32_SIZE else 1
  let numFields ← readUnsignedLE v.value (v.pos + 1) sizeBytes
  let idSize := typeInfo / 4 % 4 + 1
  let offsetSize := typeInfo % 4 + 1
  let idStart := v.pos + 1 + sizeBytes
  let offsetStart := idStart + numFields * idSize
  return { numFields, idSize, offsetSize, idStart, offsetStart,
           dataStart := offsetStart + (numFields + 1) * offsetSize }

def arrayInfo (v : Variant) : Except VariantFault ArrayInfo := do
  checkIndex v.pos v.value.length
  let (basicType, typeInfo) ← getTypeInfo v.value v.pos
  if basicType ≠ ARRAY then throw (.variantError "variant is not an array")
  let sizeBytes := if typeInfo / 4 % 2 ≠ 0 then U32_SIZE else 1
  let numFields ← readUnsignedLE v.value (v.pos + 1) sizeBytes
  let offsetSize := typeInfo % 4 + 1
  let offsetStart := v.pos + 1 + sizeBytes
  return { numFields, offsetSize, offsetStart, dataStart := offsetStart + (numFields + 1) * offsetSize }

def numObjectFields (v : Variant) : Except VariantFault Nat := do
  return (← v.objectInfo).numFields

def numArrayElements (v : Variant) : Except VariantFault Nat := do
  return (← v.arrayInfo).numFields

def keyAt (v : Variant) (info : ObjectInfo) (i : Int) : Except VariantFault (List Char) := do
  let id ← readUnsignedLE v.value (info.idStart + info.idSize * i) info.idSize
  getMetadataKey v.metadata id

def childAt (v : Variant) (offsetStart : Int) (offsetSize : Nat) (dataStart i : Int) :
    Except VariantFault Variant := do
  let offset ← readUnsignedLE v.value (offsetStart + offsetSize * i) offsetSize
  new v.value v.metadata (dataStart + offset)

def linearSearch (v : Variant) (info : ObjectInfo) (key : List Char) : Nat → Nat → Except VariantFault
    (Option Variant)
  | _, 0 => .ok none
  | i, n + 1 => do
    let k ← v.keyAt info i
    if k = key then return some (← v.childAt info.offsetStart info.offsetSize info.dataStart i)
    else linearSearch v info key (i + 1) n

def binarySearch (v : Variant) (info : ObjectInfo) (keyBytes : Bytes) :
    Nat → Int → Int → Option (Except VariantFault (Option Variant))
  | 0, _, _ => none
  | fuel + 1, low, high =>
    if low ≤ high then
      -- the shift takes the sum as a 32-bit number
      let mid := toInt32 (low + high) / 2
      match v.keyAt info mid with
      | .error e => some (.error e)
      | .ok midKey =>
        let cmp := compareKeysBytes (Utf8.encode midKey) keyBytes
        if cmp < 0 then binarySearch v info keyBytes fuel (mid + 1) high
        else if 0 < cmp then binarySearch v info keyBytes fuel low (mid - 1)
        else some ((v.childAt info.offsetStart info.offsetSize info.dataStart mid).map some)
    else some (.ok none)

def getFieldByKey (v : Variant) (key : List Char) (fuel : Nat) : Option (Except VariantFault (Option Variant)) :=
  match v.objectInfo with
  | .error e => some (.error e)
  | .ok info =>
    if info.numFields < BINARY_SEARCH_THRESHOLD then some (v.linearSearch info key 0 info.numFields)
    else v.binarySearch info (Utf8.encode key) fuel 0 ((info.numFields : Int) - 1)

def getFieldAtIndex (v : Variant) (idx : Int) : Except VariantFault (List Char × Variant) := do
  let info ← v.objectInfo
  let id ← readUnsignedLE v.value (info.idStart + info.idSize * idx) info.idSize
  let offset ← readUnsignedLE v.value (info.offsetStart + info.offsetSize * idx) info.offsetSize
  return (← getMetadataKey v.metadata id, ← new v.value v.metadata (info.dataStart + offset))

def getElementAtIndex (v : Variant) (index : Int) : Except VariantFault (Option Variant) := do
  let info ← v.arrayInfo
  if index < 0 ∨ info.numFields ≤ index then return none
  return some (← v.childAt info.offsetStart info.offsetSize info.dataStart index)

end Variant

end ConfluentKafka
