import ConfluentKafka.DekRegistry
import ConfluentKafka.SchemaId
import ConfluentKafka.Utf16
import ConfluentKafka.Utf8
import Mathlib.Data.Rat.Defs

/-!
# The encryption executor

The functions of `EncryptionExecutorTransform` in `encrypt-executor.ts` as programs over the
calls of `DekOp`, and the pool of all the transforms that any number of executors have under
way on one registry.
-/

namespace ConfluentKafka

inductive FieldType where
  | RECORD | ENUM | ARRAY | MAP | COMBINED | FIXED | STRING | BYTES | INT | LONG | FLOAT | DOUBLE | BOOLEAN | NULL
  deriving DecidableEq

inductive FieldValue where
  | null
  | bytes (b : Bytes)
  | string (s : String)
  deriving DecidableEq

inductive EncryptError where
  | ruleError (message : String)
  /-- A `RuleError` whose message ends with the error that caused it. -/
  | ruleErrorFor (message : String) (status : Option Nat)
  | thrown (name : String)

def FieldType.name : FieldType → String
  | RECORD => "RECORD"
  | ENUM => "ENUM"
  | ARRAY => "ARRAY"
  | MAP => "MAP"
  | COMBINED => "COMBINED"
  | FIXED => "FIXED"
  | STRING => "STRING"
  | BYTES => "BYTES"
  | INT => "INT"
  | LONG => "LONG"
  | FLOAT => "FLOAT"
  | DOUBLE => "DOUBLE"
  | BOOLEAN => "BOOLEAN"
  | NULL => "NULL"

def ENCRYPT_ALTERNATE_KMS_KEY_IDS : String := "encrypt.alternate.kms.key.ids"

def MILLIS_IN_DAY : Int := 24 * 60 * 60 * 1000

/-- A transform object and the rule context it is used with. `object` tells it from the others,
`client` is the client of its executor. -/
structure Transform where
  object : Nat
  client : Nat
  /-- The alternate KMS key ids of the executor's configuration. -/
  alternateKmsKeyIds : Option String
  kekName : String
  subject : String
  ruleMode : RuleMode
  kmsType : Option String
  kmsKeyId : Option String
  dekFormat : DekFormat
  dekExpiryDays : ℚ

abbrev EncryptProg (α : Type) := Prog DekOp DekOp.Ans EncryptError α

namespace Transform

def call (op : DekOp) : EncryptProg op.Ans := Prog.lift op

def isDekRotated (t : Transform) : Bool := 0 < t.dekExpiryDays

/-! ## The KEK -/

def retrieveKekFromRegistry (t : Transform) (id : KekId) : EncryptProg (Option Kek) := do
  let r ← call (.getKek t.client id)
  match r with
  | .ok kek => pure (some kek)
  | r => if r.status = some 404 then pure none else throw (.ruleErrorFor ("could not get kek " ++ id.name) r.status)

def storeKekToRegistry (t : Transform) (id : KekId) (kmsType kmsKeyId : String) (shared : Bool) :
    EncryptProg (Option Kek) := do
  let r ← call (.registerKek t.client id.name kmsType kmsKeyId shared id.context)
  match r with
  | .ok kek => pure (some kek)
  | r =>
    if r.status = some 409 then pure none else throw (.ruleErrorFor ("could not register kek " ++ id.name) r.status)

def kekId (t : Transform) : KekId := { name := t.kekName, deleted := false, context := contextFor t.subject }

/-- The rule's KMS type and key id have to be those of the KEK, where the rule gives them. -/
def checkKek (t : Transform) (kek : Kek) : EncryptProg Kek :=
  if (t.kmsType.getD "") ≠ "" ∧ t.kmsType ≠ some kek.kmsType then
    throw (.ruleError ("found " ++ t.kekName ++ " with kms type " ++ kek.kmsType ++
      " which differs from rule kms type " ++
      t.kmsType.getD ""))
  else if (t.kmsKeyId.getD "") ≠ "" ∧ t.kmsKeyId ≠ some kek.kmsKeyId then
    throw (.ruleError ("found " ++ t.kekName ++ " with kms key id " ++ kek.kmsKeyId ++
      " which differs from rule kms keyId " ++ t.kmsKeyId.getD ""))
  else pure kek

def createKek (t : Transform) : EncryptProg Kek := do
  if t.ruleMode = .read then throw (.ruleError ("no kek found for " ++ t.kekName ++ " during consume"))
  else if t.kmsType.getD "" =
    "" then throw (.ruleError ("no kms type found for " ++ t.kekName ++ " during produce"))
  else if t.kmsKeyId.getD "" =
    "" then throw (.ruleError ("no kms key id found for " ++ t.kekName ++ " during produce"))
  else
    match ← t.storeKekToRegistry t.kekId (t.kmsType.getD "") (t.kmsKeyId.getD "") false with
    | some kek => pure kek
    | none =>
      match ← t.retrieveKekFromRegistry t.kekId with
      | some kek => pure kek
      | none => throw (.ruleError ("no kek found for " ++ t.kekName ++ " during produce"))

def getOrCreateKek (t : Transform) : EncryptProg Kek := do
  match ← t.retrieveKekFromRegistry t.kekId with
  | some kek => t.checkKek kek
  | none =>
    let kek ← t.createKek
    t.checkKek kek

def getKek (t : Transform) : EncryptProg Kek := do
  let kek? ← call (.thisKek t.object)
  match kek? with
  | some kek => pure kek
  | none =>
    let kek ← t.getOrCreateKek
    let _ ← call (.setThisKek t.object kek)
    pure kek

/-! ## The KMS -/

def trim (s : List Char) : List Char :=
  ((s.dropWhile fun c => Utf16.isWhiteSpace c.toNat).reverse.dropWhile fun c => Utf16.isWhiteSpace c.toNat).reverse

/-- `alternates` are those of the executor's configuration; those of the KEK go before them. -/
def getKmsKeyIds (alternates : Option String) (kek : Kek) : List String :=
  match (kek.kmsProps.bind fun props => props.lookup ENCRYPT_ALTERNATE_KMS_KEY_IDS).or alternates with
  | none => [kek.kmsKeyId]
  | some ids => kek.kmsKeyId :: ((ids.toList.splitOn ',').map fun id => String.ofList (trim id))

def keyUrl (kek : Kek) (id : String) : String := kek.kmsType ++ "://" ++ id

def kmsEncryptWith (kek : Kek) (rawKey : Bytes) : List String → EncryptProg Bytes
  | [] => throw (.ruleError "no KEK found for encryption")
  | id :: ids => do
    let r ← call (.kmsEncrypt (keyUrl kek id) rawKey)
    match r with
    | some bytes => pure bytes
    | none =>
      match ids with
      | [] => throw (.ruleErrorFor "failed to encrypt key with all KMS keys" none)
      | _ => kmsEncryptWith kek rawKey ids

def kmsDecryptWith (kek : Kek) (encryptedKey : Bytes) : List String → EncryptProg Bytes
  | [] => throw (.ruleError "no KEK found for decryption")
  | id :: ids => do
    let r ← call (.kmsDecrypt (keyUrl kek id) encryptedKey)
    match r with
    | some bytes => pure bytes
    | none =>
      match ids with
      | [] => throw (.ruleErrorFor "failed to decrypt key with all KMS keys" none)
      | _ => kmsDecryptWith kek encryptedKey ids

/-! ## The DEK -/

def retrieveDekFromRegistry (t : Transform) (id : DekId) : EncryptProg (Option Dek) := do
  let version := if id.version = 0 then 1 else id.version
  let r ← call (.getDek t.client { id with version })
  match r with
  | .ok dek => pure (if dek.encryptedKeyMaterial.isSome then some dek else none)
  | r =>
    if r.status = some 404 then pure none
    else throw (.ruleErrorFor ("could not get dek for kek " ++ id.kekName ++ ", subject " ++ id.subject) r.status)

def storeDekToRegistry (t : Transform) (id : DekId) (version : Option Nat) (encryptedDek : Option Bytes) :
    EncryptProg (Option Dek) := do
  let version := if version.getD 0 = 0 then 1 else version.getD 0
  let r ← call (.registerDek t.client id.kekName id.subject id.algorithm version (encryptedDek.map Base64.encode))
  match r with
  | .ok dek => pure (some dek)
  | r =>
    if r.status = some 409 then pure none
    else throw (.ruleErrorFor ("could not register dek for kek " ++ id.kekName ++ ", subject " ++
      id.subject) r.status)

def createDek (t : Transform) (id : DekId) (newVersion : Option Nat) (encryptedDek : Option Bytes) :
    EncryptProg Dek := do
  match ← t.storeDekToRegistry id newVersion encryptedDek with
  | some dek => pure dek
  | none =>
    match ← t.retrieveDekFromRegistry id with
    | some dek => pure dek
    | none => throw (.ruleError ("no dek found for " ++ id.kekName ++ " during produce"))

def isExpired (t : Transform) (now : Int) : Option Dek → Bool
  | none => false
  | some dek =>
    match dek.ts with
    | none => false
    | some ts => t.ruleMode ≠ .read ∧ 0 < t.dekExpiryDays ∧ t.dekExpiryDays ≤ ((now - ts : Int) : ℚ) / MILLIS_IN_DAY

/-- A new key, encrypted by the KMS unless the registry makes the keys of the KEK. -/
def newEncryptedDek (t : Transform) (kek : Kek) : EncryptProg (Option Bytes) := do
  if kek.shared then pure none
  else
    let rawKey ← call (.generateKey t.dekFormat)
    let bytes ← kmsEncryptWith kek rawKey (getKmsKeyIds t.alternateKmsKeyIds kek)
    pure (some bytes)

def selectDek (t : Transform) (kek : Kek) (id : DekId) : EncryptProg Dek := do
  let dek ← t.retrieveDekFromRegistry id
  let now ← call .now
  match dek, t.isExpired now dek with
  | some dek, false => pure dek
  | none, _ =>
    if t.ruleMode = .read then throw (.ruleError ("no dek found for " ++ t.kekName ++ " during consume"))
    else
      let encryptedDek ← t.newEncryptedDek kek
      t.createDek id none encryptedDek
  | some dek, true =>
    if t.ruleMode = .read then throw (.ruleError ("no dek found for " ++ t.kekName ++ " during consume"))
    else
      let encryptedDek ← t.newEncryptedDek kek
      -- a failed rotation is logged, and the expired version is used
      tryCatch (t.createDek id (some (dek.version + 1)) encryptedDek) fun _ => pure dek

def fillKeyMaterial (t : Transform) (kek : Kek) (dek : Dek) : EncryptProg Unit := do
  let keyMaterialBytes ← call (.getDekKeyMaterialBytes t.client dek)
  match keyMaterialBytes with
  | some _ => pure ()
  | none =>
    let encryptedKeyMaterialBytes ← call (.getDekEncryptedKeyMaterialBytes t.client dek)
    match encryptedKeyMaterialBytes with
    | none => throw (.thrown "TypeError")
    | some bytes =>
      let rawDek ← kmsDecryptWith kek bytes (getKmsKeyIds t.alternateKmsKeyIds kek)
      call (.setDekKeyMaterial t.client dek rawDek)

def getOrCreateDek (t : Transform) (version : Option Int) : EncryptProg Dek := do
  let kek ← t.getKek
  let version := if version.getD 0 = 0 then 1 else version.getD 0
  let dek ← t.selectDek kek { kekName := t.kekName, subject := t.subject, version, algorithm := t.dekFormat,
                              deleted := t.ruleMode = .read }
  let _ ← t.fillKeyMaterial kek dek
  pure dek

/-! ## Transforming a field -/

def prefixVersion (version : Int) (ciphertext : Bytes) : EncryptProg Bytes :=
  if FitsBytes 4 version then pure (MAGIC_BYTE_V0 ++ bytesBE 4 (unsigned 4 version) ++ ciphertext)
  else throw (.thrown "RangeError")

/-- `JSON.stringify` of a buffer. -/
def bufferJson (b : Bytes) : String :=
  "\x7b\"type\":\"Buffer\",\"data\":[" ++ String.intercalate "," (b.map fun x => toString x.toNat) ++ "]\x7d"

def extractVersion (ciphertext : Bytes) : EncryptProg Int :=
  if ciphertext.take 1 ≠ MAGIC_BYTE_V0 then
    throw (.ruleError ("Message encoded with magic byte " ++ bufferJson (ciphertext.take 1) ++ ", expected " ++
      bufferJson MAGIC_BYTE_V0))
  else if ((ciphertext.take 5).drop 1).length < 4 then throw (.thrown "RangeError")
  else pure (signed 4 (natBE ((ciphertext.take 5).drop 1)))

def toBytes : FieldType → FieldValue → Option Bytes
  | .BYTES, .bytes b => some b
  | .STRING, .string s => some (Utf8.encode s.toList)
  | _, _ => none

def toObject : FieldType → Bytes → FieldValue
  | .BYTES, b => .bytes b
  | .STRING, b => .string (String.ofList (Utf8.decode b))
  | _, _ => .null

def present {α : Type} : Option α → EncryptProg α
  | some a => pure a
  | none => throw (.thrown "TypeError")

/-- What the AEAD throws on a key or a ciphertext that it does not take. -/
def accepted {α : Type} : Option α → EncryptProg α
  | some a => pure a
  | none => throw (.thrown "SecurityException")

def frame (t : Transform) (version : Int) (ciphertext : Bytes) : EncryptProg Bytes :=
  if t.isDekRotated then prefixVersion version ciphertext else pure ciphertext

def unframe (t : Transform) (ciphertext : Bytes) : EncryptProg (Option Int × Bytes) :=
  if t.isDekRotated then do
    let version ← extractVersion ciphertext
    pure (some version, ciphertext.drop 5)
  else pure (none, ciphertext)

def write (t : Transform) (fieldType : FieldType) (fieldValue : FieldValue) : EncryptProg FieldValue := do
  match toBytes fieldType fieldValue with
  | none => throw (.ruleError ("type " ++ fieldType.name ++ " not supported for encryption"))
  | some plaintext =>
    let dek ← t.getOrCreateDek (if t.isDekRotated then some (-1) else none)
    let keyMaterialBytes ← call (.getDekKeyMaterialBytes t.client dek)
    let key ← present keyMaterialBytes
    let encrypted ← call (.encrypt dek t.dekFormat key plaintext)
    let ciphertext ← accepted encrypted
    let ciphertext ← t.frame dek.version ciphertext
    if fieldType = .STRING then pure (.string (String.ofList (Base64.encode ciphertext)))
    else pure (toObject fieldType ciphertext)

def ciphertextOf : FieldType → FieldValue → Option Bytes
  | .STRING, .string s => some (Base64.decode s.toList)
  | fieldType, fieldValue => toBytes fieldType fieldValue

def read (t : Transform) (fieldType : FieldType) (fieldValue : FieldValue) : EncryptProg FieldValue := do
  match ciphertextOf fieldType fieldValue with
  | none => pure fieldValue
  | some ciphertext =>
    let (version, ciphertext) ← t.unframe ciphertext
    let dek ← t.getOrCreateDek version
    let keyMaterialBytes ← call (.getDekKeyMaterialBytes t.client dek)
    let key ← present keyMaterialBytes
    let decrypted ← call (.decrypt t.dekFormat key ciphertext)
    let plaintext ← accepted decrypted
    pure (toObject fieldType plaintext)

def transform (t : Transform) (fieldType : FieldType) (fieldValue : FieldValue) : EncryptProg FieldValue :=
  if fieldValue = .null then pure .null
  else
    match t.ruleMode with
    | .write => t.write fieldType fieldValue
    | .read => t.read fieldType fieldValue
    | .upgrade => throw (.ruleError "unsupported rule mode UPGRADE")
    | .downgrade => throw (.ruleError "unsupported rule mode DOWNGRADE")
    | .updown => throw (.ruleError "unsupported rule mode UPDOWN")
    | .writeread => throw (.ruleError "unsupported rule mode WRITEREAD")

end Transform

/-! ## The pool of transforms -/

structure TransformCall where
  object : Nat
  fieldType : FieldType
  fieldValue : FieldValue

/-- `objects` are the transform objects of all executors. -/
def transforms (cr : Crypto) (objects : Nat → Transform) :
    System DekOp DekOp.Ans EncryptError FieldValue TransformCall DekEvent DekWorld DekInput Eviction where
  toMachine := dekMachine cr
  start c := ({ objects c.object with object := c.object }).transform c.fieldType c.fieldValue
  env e w := w.evict e

end ConfluentKafka
