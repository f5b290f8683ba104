import ConfluentKafka.JsMapLoops
import ConfluentKafka.RegistryClient

/-!
# The mock of the schema registry

`MockClient` of `mock-schemaregistry-client.ts`: its four maps, and the functions that register, delete and look up
versions. A key of a map is written by `stringify` and parsed again where the map is searched; here it is the parsed
object. The `n`-th call of `v4` answers `v4 n`.
-/

namespace ConfluentKafka

structure RestError where
  message : String
  status : Nat
  errorCode : Nat
  deriving DecidableEq

structure VersionCacheEntry where
  version : Int
  softDeleted : Bool
  deriving DecidableEq

structure InfoCacheEntry where
  info : SchemaInfo
  softDeleted : Bool

structure MetadataCacheEntry where
  metadata : SchemaMetadata
  softDeleted : Bool

structure MockClient where
  infoToSchemaCache : JsMap (String × SchemaInfo) MetadataCacheEntry
  idToSchemaCache : JsMap (String × Int) InfoCacheEntry
  guidToSchemaCache : JsMap String InfoCacheEntry
  schemaToVersionCache : JsMap (String × SchemaInfo) VersionCacheEntry
  counter : Nat

namespace MockClient

def new : MockClient := ⟨.empty, .empty, .empty, .empty, 0⟩

/-- `stringify({ subject, schema: minimize(schema) })`, parsed. -/
def cacheKey (subject : String) (schema : SchemaInfo) : String × SchemaInfo :=
  (subject, (minimize ⟨schema, none, none, none, none⟩).sorted)

def schemasEqual (schema1 schema2 : SchemaInfo) : Bool := schema1.sorted = schema2.sorted

/-! ## Versions -/

/-- The versions of a subject that are not deleted, as the map has them. -/
def allVersions (c : MockClient) (subject : String) : List Int :=
  (c.schemaToVersionCache.entries.filter fun e => e.1.1 = subject ∧ !e.2.softDeleted).map (·.2.version)

def latestVersion (c : MockClient) (subject : String) : Int := (c.allVersions subject).getLast?.getD (-1)

def newVersion (c : MockClient) (subject : String) : Int :=
  match (c.allVersions subject).getLast? with
  | none => 1
  | some version => version + 1

def generateVersion (c : MockClient) (subject : String) (schema : SchemaInfo) : MockClient :=
  { c with
    schemaToVersionCache := c.schemaToVersionCache.set (cacheKey subject schema) ⟨c.newVersion subject, false⟩ }

/-! ## Registration -/

section
variable (v4 : Nat → String)

def getIDFromRegistry (c : MockClient) (subject : String) (schema : SchemaInfo) : Int × String × MockClient :=
  let id :=
    ((c.idToSchemaCache.entries.find? fun e => e.1.1 = subject ∧ schemasEqual e.2.info schema).map (·.1.2)).getD
    (-1)
  let guid := ((c.guidToSchemaCache.entries.find? fun e => schemasEqual e.2.info schema).map (·.1)).getD ""
  let c := c.generateVersion subject schema
  if id < 0 then
    let c := { c with counter := c.counter + 1 }
    let id : Int := c.counter
    let guid := v4 c.counter
    (id, guid, { c with
      idToSchemaCache := c.idToSchemaCache.set (subject, id) ⟨schema, false⟩
      guidToSchemaCache := c.guidToSchemaCache.set guid ⟨schema, false⟩ })
  else (id, guid, c)

def registerFullResponse (c : MockClient) (subject : String) (schema : SchemaInfo) :
    Except RestError SchemaMetadata × MockClient :=
  match c.infoToSchemaCache.get? (cacheKey subject schema) with
  | some ⟨metadata, false⟩ => (.ok metadata, c)
  | _ =>
    let (id, guid, c) := c.getIDFromRegistry v4 subject schema
    if id = -1 then (.error ⟨"Failed to retrieve schema ID from registry", 422, 42200⟩, c) else
      let metadata : SchemaMetadata := { toSchemaInfo := schema, id := some id, guid := some guid }
      (.ok metadata, { c with infoToSchemaCache :=
        c.infoToSchemaCache.set (cacheKey subject schema) ⟨metadata, false⟩ })

end

/-! ## Lookup -/

def schemaNotFound : RestError := ⟨"Schema not found", 404, 40400⟩

def getSchemaMetadata (c : MockClient) (subject : String) (version : Int) : Except RestError SchemaMetadata :=
  match c.schemaToVersionCache.entries.find? fun e => e.1.1 = subject ∧ e.2.version = version with
  | none => .error schemaNotFound
  | some json =>
    let schema := json.1.2
    let id :=
      ((c.idToSchemaCache.entries.find? fun e => e.1.1 = subject ∧ e.2.info.schema = schema.schema).map
        (·.1.2)).getD (-1)
    if id = -1 then .error schemaNotFound else
      let guid := ((c.guidToSchemaCache.entries.find? fun e => e.2.info.schema = schema.schema).map (·.1)).getD ""
      if guid = "" then .error schemaNotFound else
        .ok {
          toSchemaInfo := schema, id := some id, guid := some guid, subject := some subject, version :=
            some version }

def getLatestSchemaMetadata (c : MockClient) (subject : String) : Except RestError SchemaMetadata :=
  let version := c.latestVersion subject
  if version = -1 then .error ⟨"No versions found for subject", 404, 40400⟩ else c.getSchemaMetadata subject version

/-! ## Deletion -/

def deleteVersion (c : MockClient) (key : String × SchemaInfo) (version : Int) (permanent : Bool) : MockClient :=
  { c with schemaToVersionCache := c.schemaToVersionCache.retire key ⟨version, true⟩ permanent }

def deleteInfo (c : MockClient) (key : String × Int) (info : SchemaInfo) (permanent : Bool) : MockClient :=
  { c with idToSchemaCache := c.idToSchemaCache.retire key ⟨info, true⟩ permanent }

def deleteMetadata (c : MockClient) (key : String × SchemaInfo) (metadata : SchemaMetadata) (permanent : Bool) :
    MockClient :=
  { c with infoToSchemaCache := c.infoToSchemaCache.retire key ⟨metadata, true⟩ permanent }

/-- A loop deletes only the entry it stands at. The configurations of the subject are left out. -/
def deleteSubject (c : MockClient) (subject : String) (permanent : Bool) : List Int × MockClient :=
  let c := c.infoToSchemaCache.entries.foldl
    (fun c e =>
      if e.1.1 = subject ∧ (permanent ∨ !e.2.softDeleted) then c.deleteMetadata e.1 e.2.metadata permanent else c) c
  let deletedVersions :=
    (c.schemaToVersionCache.entries.filter fun e => e.1.1 = subject ∧ (permanent ∨ !e.2.softDeleted)).map
    (·.2.version)
  let c := c.schemaToVersionCache.entries.foldl
    (fun c e =>
      if e.1.1 = subject ∧ (permanent ∨ !e.2.softDeleted) then c.deleteVersion e.1 e.2.version permanent else c) c
  let c := if permanent then
      c.idToSchemaCache.entries.foldl
        (fun c e => if e.1.1 = subject ∧ !e.2.softDeleted then c.deleteInfo e.1 e.2.info permanent else c) c
    else c
  (deletedVersions, c)

/-- What `deleteSubjectVersion` does where it meets the version. -/
def deleteEntry (c : MockClient) (key : String × SchemaInfo) (version : Int) (permanent : Bool) : MockClient :=
  let c := c.deleteVersion key version permanent
  let cacheKeySchema := cacheKey key.1 key.2
  match c.infoToSchemaCache.get? cacheKeySchema with
  | none => c
  | some cacheEntry =>
    let c := c.deleteMetadata cacheKeySchema cacheEntry.metadata permanent
    if permanent then
      match cacheEntry.metadata.id with
      | none => c
      | some id =>
        match c.idToSchemaCache.get? (key.1, id) with
        | none => c
        | some cacheSchemaEntry => c.deleteInfo (key.1, id) cacheSchemaEntry.info permanent
    else c

def deleteSubjectVersion (c : MockClient) (subject : String) (version : Int) (permanent : Bool) :
    Int × MockClient :=
  (version, c.schemaToVersionCache.entries.foldl
    (fun c e => if e.1.1 = subject ∧ e.2.version = version then c.deleteEntry e.1 version permanent else c) c)

end MockClient

/-! ## Runs -/

inductive MockOp where
  | register (subject : String) (schema : SchemaInfo)
  | deleteSubject (subject : String) (permanent : Bool)
  | deleteSubjectVersion (subject : String) (version : Int) (permanent : Bool)

def MockClient.step (v4 : Nat → String) (c : MockClient) : MockOp → MockClient
  | .register subject schema => (c.registerFullResponse v4 subject schema).2
  | .deleteSubject subject permanent => (c.deleteSubject subject permanent).2
  | .deleteSubjectVersion subject version permanent => (c.deleteSubjectVersion subject version permanent).2

end ConfluentKafka
