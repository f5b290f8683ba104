import ConfluentKafka.Migrations
import ConfluentKafka.SchemaId

/-!
# The Avro serializer and deserializer

`serialize` and `deserialize` of `avro.ts`, with `getSchemaId`, `getWriterSchema` and `getReaderSchema` of
`serde.ts`. The registry client, the types of avsc, the naming of subjects and the inline validation are
parameters; a type stands for what `toType` makes of a schema and its references.
-/

namespace ConfluentKafka

/-- A value of the program that is neither null nor undefined. -/
inductive Payload (μ : Type) where
  | buffer (bytes : Bytes)
  | other (value : μ)
deriving DecidableEq, Repr

/-- The registry, as a serde calls it. Only a registration changes what it holds. -/
structure SchemaRegistry (σ : Type) where
  registerFullResponse : σ → String → Option SchemaInfo → Bool → Except Thrown SchemaMetadata × σ
  getIdFullResponse : σ → String → Option SchemaInfo → Bool → Except Thrown SchemaMetadata
  getBySubjectAndId : σ → String → Int → Option String → Except Thrown SchemaInfo
  getByGuid : σ → String → Option String → Except Thrown SchemaInfo
  getLatestSchemaMetadata : σ → String → Option String → Except Thrown SchemaMetadata
  getLatestWithMetadata : σ → String → List (String × String) → Bool → Option String → Except Thrown SchemaMetadata
  migrationClient : σ → MigrationClient

/-- What the error hook of `isValid` is called with; the value is described. -/
structure Complaint where
  path : List String
  type : String
  got : String

/-- The types of avsc. A resolver is made and used in one call, which reads with the first type what was
written with the second. -/
structure Avsc (μ τ : Type) where
  toType : SchemaInfo → Except Thrown τ
  messageToSchema : Payload μ → Except Thrown String
  typeName : τ → String
  isValid : τ → Option (Payload μ) → Option Complaint
  toBuffer : τ → Option (Payload μ) → Except Thrown Bytes
  fromBuffer : τ → Option (Payload μ) → Except Thrown (Option (Payload μ))
  equals : τ → τ → Bool
  resolve : τ → τ → Option (Payload μ) → Except Thrown (Option (Payload μ))

inductive SchemaIdFraming where
  | prefixed
  | header
deriving DecidableEq, Repr

inductive ValidationRulesExecution where
  | disabled
  | beforeDomainRules
  | afterDomainRules
deriving DecidableEq, Repr

structure SerdeConfig where
  useLatestVersion : Bool := false
  useLatestWithMetadata : Option (List (String × String)) := none

structure SerializerConfig extends SerdeConfig where
  autoRegisterSchemas : Bool := false
  useSchemaId : Option Int := none
  normalizeSchemas : Bool := false
  schemaIdSerializer : SchemaIdFraming := .prefixed
  validationRulesExecution : ValidationRulesExecution := .disabled

structure AvroSerde (μ τ : Type) where
  rules : Serde (Payload μ)
  avsc : Avsc μ τ
  subjectName : String → Option SchemaInfo → Except Thrown String
  validateAvroMessage : τ → SchemaInfo → Option (Payload μ) → Except Thrown (List String)

def AVRO_TYPE : String := "AVRO"

namespace AvroSerde

variable {μ τ σ : Type} (a : AvroSerde μ τ) (reg : SchemaRegistry σ)

def serdeType : SerdeType := if a.rules.isKey then .key else .value

/-- A call of `executeRulesWithPhase` for a written or read message. -/
def ruleCall (subject topic : String) (rulePhase : RulePhase) (ruleMode : RuleMode) (target : SchemaInfo) :
    RuleCall where
  subject := subject
  topic := topic
  rulePhase := rulePhase
  ruleMode := ruleMode
  source := none
  target := some target

/-! ## Serializing -/

def raiseValidationViolations (violations : List String) : Except Thrown Unit :=
  if violations = [] then .ok ()
  else
    let count := violations.length
    let first := "Validation rule failed (" ++ toString count ++ " violation" ++
      (if count = 1 then "" else "s") ++ "):"
    .error (.serialization ("\n".intercalate (first :: violations.map fun violation => "  - " ++ violation)))

def validateInlineRules (avroType : τ) (info : SchemaInfo) (msg : Option (Payload μ)) : Except Thrown Unit := do
  raiseValidationViolations (← a.validateAvroMessage avroType info msg)

/-- The branches of `getSchemaId` that do not register. -/
def findSchema (w : σ) (conf : SerializerConfig) (subject : String) (info : Option SchemaInfo)
    (format : Option String) :
    Except Thrown (SchemaMetadata × Option SchemaInfo) :=
  match conf.useSchemaId.filter (0 ≤ ·), conf.useLatestWithMetadata.getD [] with
  | some useSchemaId, _ => do
    let info ← reg.getBySubjectAndId w subject useSchemaId format
    let metadata ← reg.getIdFullResponse w subject (some info) conf.normalizeSchemas
    return (metadata, some info)
  | none, entry :: entries => do
    let metadata ← reg.getLatestWithMetadata w subject (entry :: entries) true format
    return (metadata, some metadata.toSchemaInfo)
  | none, [] =>
    if conf.useLatestVersion then do
      let metadata ← reg.getLatestSchemaMetadata w subject format
      return (metadata, some metadata.toSchemaInfo)
    else do
      let metadata ← reg.getIdFullResponse w subject info conf.normalizeSchemas
      return (metadata, info)

def getSchemaId (w : σ) (conf : SerializerConfig) (schemaType topic : String) (info : Option SchemaInfo)
    (format : Option String) : Except Thrown (SchemaId × Option SchemaInfo) × σ :=
  match a.subjectName topic info with
  | .error error => (.error error, w)
  | .ok subject =>
    if conf.autoRegisterSchemas then
      let (metadata, w) := reg.registerFullResponse w subject info conf.normalizeSchemas
      (metadata.map fun m => ({ schemaType := schemaType, id := m.id, guid := m.guid }, info), w)
    else
      ((findSchema reg w conf subject info format).map fun r =>
        ({ schemaType := schemaType, id := r.1.id, guid := r.1.guid }, r.2), w)

def serializeSchemaId (framing : SchemaIdFraming) (payload : Option (Payload μ)) (schemaId : SchemaId)
    (headers : Option Headers) : Except Thrown (Option (Payload μ) × Option Headers) :=
  match framing with
  | .header => do
    let (_, headers) ← HeaderSchemaIdSerializer a.serdeType [] schemaId headers
    return (payload, some headers)
  | .prefixed =>
    match payload with
    | some (.buffer bytes) => do return (some (.buffer (← PrefixSchemaIdSerializer bytes schemaId)), headers)
    | _ => do
      let _ ← schemaId.idToBytes
      .error (.error "The \"list[1]\" argument must be an instance of Buffer or Uint8Array.")

def validateAt (phase : ValidationRulesExecution) (conf : SerializerConfig) (avroType : τ) (info : SchemaInfo)
    (msg : Option (Payload μ)) : Except Thrown Unit :=
  if conf.validationRulesExecution = phase then a.validateInlineRules avroType info msg else .ok ()

def checkValid (avroType : τ) (msg : Option (Payload μ)) : Except Thrown Unit :=
  match a.avsc.isValid avroType msg with
  | none => .ok ()
  | some complaint =>
    .error (.serialization ("Invalid message at " ++ ".".intercalate complaint.path ++ ", expected " ++
      complaint.type ++
      ", got " ++ complaint.got))

def toMsgBytes (avroType : τ) (msg : Option (Payload μ)) : Except Thrown (Option (Payload μ)) :=
  if a.avsc.typeName avroType = "bytes" then .ok msg
  else (a.avsc.toBuffer avroType msg).map fun bytes => some (.buffer bytes)

/-- `serialize` from the schema on. -/
def encode (conf : SerializerConfig) (topic : String) (schemaId : SchemaId) (info : SchemaInfo)
    (msg : Option (Payload μ))
    (headers : Option Headers) : Except Thrown (Option (Payload μ) × Option Headers) := do
  let avroType ← a.avsc.toType info
  let subject ← a.subjectName topic (some info)
  a.validateAt .beforeDomainRules conf avroType info msg
  let msg ← (a.rules.executeRulesWithPhase (ruleCall subject topic .domain .write info) msg).result
  a.validateAt .afterDomainRules conf avroType info msg
  a.checkValid avroType msg
  let msgBytes ← a.toMsgBytes avroType msg
  let msgBytes ← (a.rules.executeRulesWithPhase (ruleCall subject topic .encoding .write info) msgBytes).result
  a.serializeSchemaId conf.schemaIdSerializer msgBytes schemaId headers

/-- The schema derived from a message, as `serialize` passes it on. -/
def derivedSchema (text : String) : SchemaInfo := { schemaType := some "AVRO", schema := text }

def schemaOf (conf : SerializerConfig) (msg : Payload μ) : Except Thrown (Option SchemaInfo) :=
  if conf.useSchemaId = none ∧ conf.useLatestVersion = false ∧ conf.useLatestWithMetadata = none then
    (a.avsc.messageToSchema msg).map fun text => some (derivedSchema text)
  else .ok none

def serialize (w : σ) (conf : SerializerConfig) (topic : String) (msg : Option (Payload μ))
    (headers : Option Headers) :
    Except Thrown (Option (Payload μ) × Option Headers) × σ :=
  match msg with
  | none => (.error (.error "message is empty"), w)
  | some m =>
    match a.schemaOf conf m with
    | .error error => (.error error, w)
    | .ok schema =>
      match a.getSchemaId reg w conf AVRO_TYPE topic schema none with
      | (.error error, w) => (.error error, w)
      | (.ok (_, none), w) => (.error (.error "Cannot read properties of undefined (reading 'schemaType')"), w)
      | (.ok (schemaId, some info), w) => (a.encode conf topic schemaId info msg headers, w)

/-! ## Deserializing -/

def getWriterSchema (w : σ) (topic : String) (payload : Bytes) (schemaId : SchemaId) (headers : Option Headers)
    (format : Option String) : Except Thrown (SchemaInfo × Nat) := do
  let (schemaId, bytesRead) ← DualSchemaIdDeserializer a.serdeType payload schemaId headers
  match schemaId.id, schemaId.guid with
  | some id, _ =>
    let subject ← a.subjectName topic none
    return (← reg.getBySubjectAndId w subject id format, bytesRead)
  | none, some guid => return (← reg.getByGuid w guid format, bytesRead)
  | none, none => throw (.serialization "Invalid schema ID")

def getReaderSchema (w : σ) (conf : SerdeConfig) (subject : String) (format : Option String) :
    Except Thrown (Option SchemaMetadata) :=
  match conf.useLatestWithMetadata.getD [] with
  | entry :: entries => (reg.getLatestWithMetadata w subject (entry :: entries) true format).map some
  | [] =>
    if conf.useLatestVersion then (reg.getLatestSchemaMetadata w subject format).map some
    else .ok none

def fromMsgBytes (avroType : τ) (msgBytes : Option (Payload μ)) : Except Thrown (Option (Payload μ)) :=
  if a.avsc.typeName avroType = "bytes" then .ok msgBytes else a.avsc.fromBuffer avroType msgBytes

/-- The message of the encoded bytes, in the reader's schema where there is one. -/
def decode (subject topic : String) (migrations : List Migration) (readerMeta : Option SchemaMetadata) (writer : τ)
    (msgBytes : Option (Payload μ)) : Except Thrown (Option (Payload μ)) :=
  if migrations ≠ [] then do
    let msg ← a.fromMsgBytes writer msgBytes
    a.rules.executeMigrations subject topic migrations msg
  else
    match readerMeta with
    | none => a.fromMsgBytes writer msgBytes
    | some readerMeta =>
      if a.avsc.typeName writer = "bytes" then .ok msgBytes
      else do
        let reader ← a.avsc.toType readerMeta.toSchemaInfo
        if a.avsc.equals reader writer then a.avsc.fromBuffer reader msgBytes
        else a.avsc.resolve reader writer msgBytes

def readerMigrations (w : σ) (subject : String) (info : SchemaInfo) (readerMeta : Option SchemaMetadata) :
    Except Thrown (List Migration) :=
  match readerMeta with
  | none => .ok []
  | some readerMeta => getMigrations (reg.migrationClient w) subject info readerMeta none

/-- `deserialize` from the writer's schema on. -/
def readMessage (w : σ) (conf : SerdeConfig) (topic : String) (info : SchemaInfo) (payload : Bytes) :
    Except Thrown (Option (Payload μ)) := do
  let subject ← a.subjectName topic (some info)
  let payload ← (a.rules.executeRulesWithPhase (ruleCall subject topic .encoding .read info)
    (some (.buffer payload))).result
  let readerMeta ← getReaderSchema reg w conf subject none
  let migrations ← readerMigrations reg w subject info readerMeta
  let writer ← a.avsc.toType info
  let msg ← a.decode subject topic migrations readerMeta writer payload
  let target := (readerMeta.map SchemaMetadata.toSchemaInfo).getD info
  (a.rules.executeRulesWithPhase (ruleCall subject topic .domain .read target) msg).result

def deserialize (w : σ) (conf : SerdeConfig) (topic : String) (payload : Option (Payload μ))
    (headers : Option Headers) :
    Except Thrown (Option (Payload μ)) :=
  match payload with
  | some (.buffer payload) =>
    if payload = [] then .ok none
    else do
      let (info, bytesRead) ← a.getWriterSchema reg w topic payload { schemaType := AVRO_TYPE } headers none
      a.readMessage reg w conf topic info (payload.drop bytesRead)
  | _ => .error (.error "Invalid buffer")

end AvroSerde

end ConfluentKafka
