import ConfluentKafka.Base64
import ConfluentKafka.JsMap
import ConfluentKafka.Prog

/-!
# The DEK registry and its client

The registry keeps the KEKs and every version of every DEK it created; the client of
`dekregistry-client.ts` caches what it answers. DEK objects are shared and filled in lazily, so
a `Dek` names a cell of its client where the key material is kept. `DekOp` are the calls that
the encryption executor awaits, with what each of them does to the registry and to a client.
-/

namespace ConfluentKafka

structure KekId where
  name : String
  deleted : Bool
  context : Option String
  deriving DecidableEq

structure Kek where
  kmsType : String
  kmsKeyId : String
  kmsProps : Option (List (String × String))
  shared : Bool
  deriving DecidableEq

inductive DekFormat where
  | AES128_GCM
  | AES256_GCM
  | AES256_SIV
  deriving DecidableEq

structure DekId where
  kekName : String
  subject : String
  version : Int
  algorithm : DekFormat
  deleted : Bool
  deriving DecidableEq

/-- A DEK as the client got it; what is filled in later is in the cell. -/
structure Dek where
  kekName : String
  subject : String
  version : Nat
  algorithm : DekFormat
  encryptedKeyMaterial : Option (List Char)
  ts : Option Int
  cell : Nat
  deriving DecidableEq

structure DekCell where
  dek : Dek
  encryptedKeyMaterialBytes : Option Bytes
  keyMaterial : Option (List Char)
  keyMaterialBytes : Option Bytes
  deriving DecidableEq

/-- The context of a qualified subject, of the form `:.context:subject`. -/
def contextFor (subject : String) : Option String :=
  match subject.toList with
  | ':' :: '.' :: rest =>
    let context := '.' :: rest.takeWhile fun c => c ≠ ':'
    if context = ['.'] then none else some (String.ofList context)
  | _ => none

/-! ## The registry -/

structure DekRecord where
  kekName : String
  subject : String
  version : Nat
  algorithm : DekFormat
  encryptedKeyMaterial : List Char
  keyMaterial : Option (List Char)
  ts : Option Int
  deriving DecidableEq

def DekRecord.dek (r : DekRecord) (cell : Nat) : Dek where
  kekName := r.kekName
  subject := r.subject
  version := r.version
  algorithm := r.algorithm
  encryptedKeyMaterial := some r.encryptedKeyMaterial
  ts := r.ts
  cell := cell

structure DekRegistry where
  keks : List ((String × Option String) × Kek)
  deks : List DekRecord

namespace DekRegistry

def kek? (r : DekRegistry) (name : String) (context : Option String) : Option Kek :=
  (r.keks.find? fun k => k.1 = (name, context)).map Prod.snd

def versionsOf (r : DekRegistry) (kekName subject : String) (algorithm : DekFormat) : List DekRecord :=
  r.deks.filter fun d => d.kekName = kekName ∧ d.subject = subject ∧ d.algorithm = algorithm

def newest (r : DekRegistry) (kekName subject : String) (algorithm : DekFormat) : Option Nat :=
  ((r.versionsOf kekName subject algorithm).map DekRecord.version).max?

def version? (r : DekRegistry) (kekName subject : String) (algorithm : DekFormat) (version : Nat) :
    Option DekRecord :=
  (r.versionsOf kekName subject algorithm).find? fun d => d.version = version

def dek? (r : DekRegistry) (kekName subject : String) (algorithm : DekFormat) (version : Int) : Option DekRecord :=
  if version = -1 then (r.newest kekName subject algorithm).bind (r.version? kekName subject algorithm)
  else if 0 < version then r.version? kekName subject algorithm version.toNat
  else none

end DekRegistry

/-! ## Calls and their answers -/

inductive Outcome (α : Type) where
  | ok (a : α)
  | notFound
  | conflict
  | failed (status : Option Nat)

/-- The status of a `RestError`; an error of another kind has none. -/
def Outcome.status {α : Type} : Outcome α → Option Nat
  | ok _ => none
  | notFound => some 404
  | conflict => some 409
  | failed status => status

/-- What becomes of a request: it may fail before the server acts on it or after. -/
inductive Delivery where
  | delivered
  | refused (status : Option Nat)
  | lost (status : Option Nat)

inductive DekOp where
  | thisKek (object : Nat)
  | setThisKek (object : Nat) (kek : Kek)
  | getKek (client : Nat) (id : KekId)
  | registerKek (client : Nat) (name kmsType kmsKeyId : String) (shared : Bool) (context : Option String)
  | getDek (client : Nat) (id : DekId)
  | registerDek (client : Nat) (kekName subject : String) (algorithm : DekFormat) (version : Nat)
      (encryptedKeyMaterial : Option (List Char))
  | now
  | generateKey (format : DekFormat)
  | kmsEncrypt (keyUrl : String) (rawKey : Bytes)
  | kmsDecrypt (keyUrl : String) (encryptedKey : Bytes)
  | getDekEncryptedKeyMaterialBytes (client : Nat) (dek : Dek)
  | getDekKeyMaterialBytes (client : Nat) (dek : Dek)
  | setDekKeyMaterial (client : Nat) (dek : Dek) (keyMaterialBytes : Bytes)
  | encrypt (dek : Dek) (format : DekFormat) (key plaintext : Bytes)
  | decrypt (format : DekFormat) (key ciphertext : Bytes)

@[reducible] def DekOp.Ans : DekOp → Type
  | thisKek _ => Option Kek
  | setThisKek _ _ => Unit
  | getKek _ _ => Outcome Kek
  | registerKek _ _ _ _ _ _ => Outcome Kek
  | getDek _ _ => Outcome Dek
  | registerDek _ _ _ _ _ _ => Outcome Dek
  | now => Int
  | generateKey _ => Bytes
  | kmsEncrypt _ _ => Option Bytes
  | kmsDecrypt _ _ => Option Bytes
  | getDekEncryptedKeyMaterialBytes _ _ => Option Bytes
  | getDekKeyMaterialBytes _ _ => Option Bytes
  | setDekKeyMaterial _ _ _ => Unit
  | encrypt _ _ _ _ => Option Bytes
  | decrypt _ _ _ => Option Bytes

/-- The services outside the repository: the KMS, the AEADs and the encoding of the keys. -/
structure Crypto where
  kmsEncrypt : String → Bytes → Bytes → Bytes
  kmsDecrypt : String → Bytes → Option Bytes
  toBinary : DekFormat → Bytes → Bytes
  fromBinary : DekFormat → Bytes → Option Bytes
  aeadEncrypt : DekFormat → Bytes → Bytes → Bytes → Option Bytes
  aeadDecrypt : DekFormat → Bytes → Bytes → Option Bytes

def keySize : DekFormat → Nat
  | .AES256_SIV => 64
  | .AES128_GCM => 16
  | .AES256_GCM => 32

structure DekInput where
  delivery : Delivery := .delivered
  /-- The second request of `createDek`, after a 405. -/
  retry : Delivery := .delivered
  now : Int := 0
  random : Nat → UInt8 := fun _ => 0
  nonce : Bytes := []
  ts : Option Int := none
  /-- Whether the registry's answer carries the key material it has. -/
  showKey : Bool := false

def generateKey (cr : Crypto) (i : DekInput) (format : DekFormat) : Bytes :=
  cr.toBinary format ((List.range (keySize format)).map i.random)

/-! ## The client -/

structure DekClient where
  kekCache : JsMap KekId Kek
  dekCache : JsMap DekId Dek
  cells : List DekCell

structure DekWorld where
  registry : DekRegistry
  clients : Nat → DekClient
  thisKek : Nat → Option Kek

namespace DekWorld

def setClient (w : DekWorld) (c : Nat) (cl : DekClient) : DekWorld :=
  { w with clients := fun c' => if c' = c then cl else w.clients c' }

def addKek (w : DekWorld) (name : String) (context : Option String) (kek : Kek) : DekWorld :=
  { w with registry := { w.registry with keks := w.registry.keks ++ [((name, context), kek)] } }

def addDek (w : DekWorld) (r : DekRecord) : DekWorld :=
  { w with registry := { w.registry with deks := w.registry.deks ++ [r] } }

def cacheKek (c : Nat) (id : KekId) (kek : Kek) (w : DekWorld) : DekWorld :=
  w.setClient c { w.clients c with kekCache := (w.clients c).kekCache.set id kek }

def uncacheKek (c : Nat) (id : KekId) (w : DekWorld) : DekWorld :=
  w.setClient c { w.clients c with kekCache := (w.clients c).kekCache.delete id }

def getKek (i : DekInput) (c : Nat) (id : KekId) (w : DekWorld) : Outcome Kek × DekWorld :=
  match (w.clients c).kekCache.get? id with
  | some kek => (.ok kek, w)
  | none =>
    match i.delivery with
    | .refused status => (.failed status, w)
    | .lost status => (.failed status, w)
    | .delivered =>
      match w.registry.kek? id.name id.context with
      | none => (.notFound, w)
      | some kek => (.ok kek, cacheKek c id kek w)

def deliver {α : Type} (d : Delivery) (f : DekWorld → Outcome α × DekWorld) (w : DekWorld) : Outcome α × DekWorld :=
  match d with
  | .delivered => f w
  | .refused status => (.failed status, w)
  | .lost status => (.failed status, (f w).2)

def createKek (name kmsType kmsKeyId : String) (shared : Bool) (context : Option String) (w : DekWorld) :
    Outcome Kek × DekWorld :=
  match w.registry.kek? name context with
  | some _ => (.conflict, w)
  | none =>
    let kek : Kek := { kmsType, kmsKeyId, kmsProps := none, shared }
    (.ok kek, w.addKek name context kek)

def registerKek (i : DekInput) (c : Nat) (name kmsType kmsKeyId : String) (shared : Bool) (context : Option String)
    (w : DekWorld) : Outcome Kek × DekWorld :=
  let id : KekId := { name, deleted := false, context }
  match (w.clients c).kekCache.get? id with
  | some kek => (.ok kek, w)
  | none =>
    match deliver i.delivery (createKek name kmsType kmsKeyId shared context) w with
    | (.ok kek, w') => (.ok kek, cacheKek c id kek w')
    | r => r

/-- The client takes an answer: a new object, whose cell has the key material the answer carries. -/
def receive (i : DekInput) (c : Nat) (r : DekRecord) (w : DekWorld) : Dek × DekWorld :=
  let cl := w.clients c
  let dek := r.dek cl.cells.length
  (dek, w.setClient c { cl with cells := cl.cells ++
     [{ dek, encryptedKeyMaterialBytes := none, keyMaterial := if i.showKey then r.keyMaterial else none,
        keyMaterialBytes := none }] })

def cacheDek (c : Nat) (id : DekId) (dek : Dek) (w : DekWorld) : DekWorld :=
  w.setClient c { w.clients c with dekCache := (w.clients c).dekCache.set id dek }

def uncacheDek (c : Nat) (id : DekId) (w : DekWorld) : DekWorld :=
  w.setClient c { w.clients c with dekCache := (w.clients c).dekCache.delete id }

def getDek (i : DekInput) (c : Nat) (id : DekId) (w : DekWorld) : Outcome Dek × DekWorld :=
  match (w.clients c).dekCache.get? id with
  | some dek => (.ok dek, w)
  | none =>
    match i.delivery with
    | .refused status => (.failed status, w)
    | .lost status => (.failed status, w)
    | .delivered =>
      match w.registry.dek? id.kekName id.subject id.algorithm id.version with
      | none => (.notFound, w)
      | some r =>
        let (dek, w') := w.receive i c r
        (.ok dek, cacheDek c id dek w')

/-- What the registry keeps of a new version. With no encrypted key material in the request it
makes a key itself and encrypts it with the KMS key of the KEK. -/
def newRecord (cr : Crypto) (i : DekInput) (kek : Kek) (kekName subject : String) (algorithm : DekFormat)
    (version : Nat) :
    Option (List Char) → DekRecord
  | some encryptedKeyMaterial =>
    { kekName, subject, version, algorithm, encryptedKeyMaterial, keyMaterial := none, ts := i.ts }
  | none =>
    let rawKey := generateKey cr i algorithm
    { kekName, subject, version, algorithm,
      encryptedKeyMaterial := Base64.encode (cr.kmsEncrypt (kek.kmsType ++ "://" ++ kek.kmsKeyId) i.nonce rawKey),
      keyMaterial := some (Base64.encode rawKey), ts := i.ts }

def postDek (cr : Crypto) (i : DekInput) (kekName subject : String) (algorithm : DekFormat) (version : Nat)
    (encryptedKeyMaterial : Option (List Char)) (w : DekWorld) : Outcome DekRecord × DekWorld :=
  match w.registry.kek? kekName (contextFor subject) with
  | none => (.notFound, w)
  | some kek =>
    match w.registry.version? kekName subject algorithm version with
    | some _ => (.conflict, w)
    | none =>
      let r := newRecord cr i kek kekName subject algorithm version encryptedKeyMaterial
      (.ok r, w.addDek r)

def createDek (cr : Crypto) (i : DekInput) (kekName subject : String) (algorithm : DekFormat) (version : Nat)
    (encryptedKeyMaterial : Option (List Char)) (w : DekWorld) : Outcome DekRecord × DekWorld :=
  let post := postDek cr i kekName subject algorithm version encryptedKeyMaterial
  let r := deliver i.delivery post w
  if r.1.status = some 405 then deliver i.retry post r.2 else r

def registerDek (cr : Crypto) (i : DekInput) (c : Nat) (kekName subject : String) (algorithm : DekFormat)
    (version : Nat)
    (encryptedKeyMaterial : Option (List Char)) (w : DekWorld) : Outcome Dek × DekWorld :=
  let id : DekId := { kekName, subject, version, algorithm, deleted := false }
  match (w.clients c).dekCache.get? id with
  | some dek => (.ok dek, w)
  | none =>
    match createDek cr i kekName subject algorithm version (encryptedKeyMaterial.filter fun s => s ≠ []) w with
    | (.ok r, w₁) =>
      let (dek, w₂) := w₁.receive i c r
      (.ok dek, uncacheDek c { id with version := -1, deleted := true }
        (uncacheDek c { id with version := -1 } (cacheDek c id dek w₂)))
    | (.notFound, w₁) => (.notFound, w₁)
    | (.conflict, w₁) => (.conflict, w₁)
    | (.failed status, w₁) => (.failed status, w₁)

/-! ## Key material -/

def cell (w : DekWorld) (c : Nat) (dek : Dek) : DekCell :=
  ((w.clients c).cells[dek.cell]?).getD ⟨dek, none, none, none⟩

def setCell (c : Nat) (dek : Dek) (cell : DekCell) (w : DekWorld) : DekWorld :=
  w.setClient c { w.clients c with cells := (w.clients c).cells.set dek.cell cell }

/-- The text decoded once and kept; an empty text is taken for a missing one. -/
def decoded (text : Option (List Char)) (bytes : Option Bytes) : Option Bytes :=
  match text with
  | none => none
  | some [] => none
  | some s => some (bytes.getD (Base64.decode s))

def getDekEncryptedKeyMaterialBytes (c : Nat) (dek : Dek) (w : DekWorld) : Option Bytes × DekWorld :=
  let cell := w.cell c dek
  let bytes := decoded dek.encryptedKeyMaterial cell.encryptedKeyMaterialBytes
  (bytes, setCell c dek { cell with encryptedKeyMaterialBytes := bytes.or cell.encryptedKeyMaterialBytes } w)

def getDekKeyMaterialBytes (c : Nat) (dek : Dek) (w : DekWorld) : Option Bytes × DekWorld :=
  let cell := w.cell c dek
  let bytes := decoded cell.keyMaterial cell.keyMaterialBytes
  (bytes, setCell c dek { cell with keyMaterialBytes := bytes.or cell.keyMaterialBytes } w)

def setDekKeyMaterial (c : Nat) (dek : Dek) (keyMaterialBytes : Bytes) (w : DekWorld) : DekWorld :=
  setCell c dek { w.cell c dek with keyMaterial := some (Base64.encode keyMaterialBytes) } w

end DekWorld

/-! ## Executing a call -/

def kmsRequest {α : Type} (i : DekInput) (r : Option α) : Option α :=
  match i.delivery with
  | .delivered => r
  | _ => none

def DekOp.exec (cr : Crypto) (i : DekInput) : (op : DekOp) → DekWorld → op.Ans × DekWorld
  | thisKek o, w => (w.thisKek o, w)
  | setThisKek o kek, w => ((), { w with thisKek := fun o' => if o' = o then some kek else w.thisKek o' })
  | getKek c id, w => w.getKek i c id
  | registerKek c name kmsType kmsKeyId shared context, w => w.registerKek i c name kmsType kmsKeyId shared context
  | getDek c id, w => w.getDek i c id
  | registerDek c kekName subject algorithm version encryptedKeyMaterial, w =>
    w.registerDek cr i c kekName subject algorithm version encryptedKeyMaterial
  | now, w => (i.now, w)
  | generateKey format, w => (ConfluentKafka.generateKey cr i format, w)
  | kmsEncrypt url rawKey, w => (kmsRequest i (some (cr.kmsEncrypt url i.nonce rawKey)), w)
  | kmsDecrypt url encryptedKey, w => (kmsRequest i (cr.kmsDecrypt url encryptedKey), w)
  | getDekEncryptedKeyMaterialBytes c dek, w => w.getDekEncryptedKeyMaterialBytes c dek
  | getDekKeyMaterialBytes c dek, w => w.getDekKeyMaterialBytes c dek
  | setDekKeyMaterial c dek keyMaterialBytes, w => ((), w.setDekKeyMaterial c dek keyMaterialBytes)
  | encrypt _ format key plaintext, w =>
    ((cr.fromBinary format key).bind fun rawKey => cr.aeadEncrypt format rawKey i.nonce plaintext, w)
  | decrypt format key ciphertext, w =>
    ((cr.fromBinary format key).bind fun rawKey => cr.aeadDecrypt format rawKey ciphertext, w)

/-- What a call is remembered by: the DEK it was answered with, whether from the cache, and the
newest version that the registry has then. -/
inductive DekEvent where
  | answer (dek : Dek) (cached : Bool) (newest : Option Nat)
  | conflict
  | failed (status : Option Nat)
  | now (t : Int)
  | encrypt (dek : Dek)
  | other
  deriving DecidableEq

def Outcome.event {α : Type} (ok : α → DekEvent) : Outcome α → DekEvent
  | .ok a => ok a
  | .notFound => .other
  | .conflict => .conflict
  | .failed status => .failed status

def dekEvent (cached : Bool) (r : Outcome Dek × DekWorld) : DekEvent :=
  r.1.event fun dek => .answer dek cached (r.2.registry.newest dek.kekName dek.subject dek.algorithm)

def DekOp.event (cr : Crypto) (i : DekInput) : DekOp → DekWorld → DekEvent
  | getKek c id, w => (w.getKek i c id).1.event fun _ => .other
  | registerKek c name kmsType kmsKeyId shared context, w =>
    (w.registerKek i c name kmsType kmsKeyId shared context).1.event fun _ => .other
  | getDek c id, w => dekEvent ((w.clients c).dekCache.has id) (w.getDek i c id)
  | registerDek c kekName subject algorithm version encryptedKeyMaterial, w =>
    dekEvent ((w.clients c).dekCache.has { kekName, subject, version, algorithm, deleted := false })
      (w.registerDek cr i c kekName subject algorithm version encryptedKeyMaterial)
  | now, _ => .now i.now
  | kmsEncrypt _ _, _ => if i.delivery matches .delivered then .other else .failed none
  | kmsDecrypt _ _, _ => if i.delivery matches .delivered then .other else .failed none
  | encrypt dek _ _ _, _ => .encrypt dek
  | _, _ => .other

def dekMachine (cr : Crypto) : Machine DekOp DekOp.Ans DekWorld DekInput DekEvent where
  exec := DekOp.exec cr
  event := DekOp.event cr

inductive Eviction where
  | kek (client : Nat) (id : KekId)
  | dek (client : Nat) (id : DekId)

def DekWorld.evict (w : DekWorld) : Eviction → DekWorld
  | .kek c id => w.uncacheKek c id
  | .dek c id => w.uncacheDek c id

end ConfluentKafka
