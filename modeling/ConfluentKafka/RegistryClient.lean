import ConfluentKafka.JsMap
import ConfluentKafka.Prog
import ConfluentKafka.Schema
import ConfluentKafka.UriComponent
import Mathlib.Data.List.Sort

/-!
# The schema registry client

`SchemaRegistryClient` of `schemaregistry-client.ts`: the functions that read or clear its seven
caches, as programs over the caches, the mutexes and the registry. A cache key is written by
`stringify`, which sorts the keys of every object; here it is the object so sorted, and it says
which cache it is a key of. The caches are one map under these keys.

Each request that the registry answers has a time, and what is cached has the time of its answer.
No function reads a time.
-/

namespace ConfluentKafka

/-! ## Keys -/

def sortEntries {α : Type} (es : List (String × α)) : List (String × α) :=
  es.insertionSort fun a b => a.1 ≤ b.1

def Rule.sorted (r : Rule) : Rule := { r with params := r.params.map sortEntries }

def RuleSet.sorted (r : RuleSet) : RuleSet :=
  { r with
    migrationRules := r.migrationRules.map fun rs => rs.map Rule.sorted
    domainRules := r.domainRules.map fun rs => rs.map Rule.sorted
    encodingRules := r.encodingRules.map fun rs => rs.map Rule.sorted }

def Metadata.sorted (m : Metadata) : Metadata :=
  { m with tags := m.tags.map sortEntries, properties := m.properties.map sortEntries }

def SchemaInfo.sorted (s : SchemaInfo) : SchemaInfo :=
  { s with metadata := s.metadata.map Metadata.sorted, ruleSet := s.ruleSet.map RuleSet.sorted }

inductive ClientCache where
  | idToSchemaInfo
  | guidToSchemaInfo
  | infoToSchema
  | latestToSchema
  | schemaToVersion
  | versionToSchema
  | metadataToSchema
  deriving DecidableEq

inductive CacheKey where
  | idToSchemaInfo (subject : String) (id : Option Int)
  | guidToSchemaInfo (guid : String)
  | infoToSchema (subject : String) (schema : SchemaInfo)
  | latestToSchema (subject : String)
  | schemaToVersion (subject : String) (schema : SchemaInfo) (deleted : Bool)
  | versionToSchema (subject : String) (version : Int) (deleted : Option Bool)
  | metadataToSchema (subject : String) (metadata : List (String × String)) (deleted : Bool)
  deriving DecidableEq

namespace CacheKey

def cache : CacheKey → ClientCache
  | idToSchemaInfo _ _ => .idToSchemaInfo
  | guidToSchemaInfo _ => .guidToSchemaInfo
  | infoToSchema _ _ => .infoToSchema
  | latestToSchema _ => .latestToSchema
  | schemaToVersion _ _ _ => .schemaToVersion
  | versionToSchema _ _ _ => .versionToSchema
  | metadataToSchema _ _ _ => .metadataToSchema

def subject? : CacheKey → Option String
  | idToSchemaInfo subject _ => some subject
  | guidToSchemaInfo _ => none
  | infoToSchema subject _ => some subject
  | latestToSchema _ => none
  | schemaToVersion subject _ _ => some subject
  | versionToSchema subject _ _ => some subject
  | metadataToSchema subject _ _ => some subject

end CacheKey

inductive CacheValue where
  | schema (data : SchemaMetadata)
  | version (version : Option Int)
  deriving DecidableEq

namespace CacheValue

def truthy : CacheValue → Bool
  | schema _ => true
  | version v => v ≠ none ∧ v ≠ some 0

def version? : CacheValue → Option Int
  | schema data => data.version
  | version v => v

/-- The test of `getIdFullResponse`: `version != null && version > 0`. -/
def hasValidVersion (v : CacheValue) : Bool := v.version?.any fun n => 0 < n

end CacheValue

structure CacheEntry where
  value : CacheValue
  time : Nat
  deriving DecidableEq

/-! ## Requests -/

inductive Method where
  | GET
  | POST
  | DELETE
  deriving DecidableEq

structure Request where
  method : Method
  url : String
  body : Option SchemaMetadata := none
  deriving DecidableEq

def formatStr (separator : String) : Option String → String
  | some format => separator ++ "format=" ++ format
  | none => ""

inductive ClientMutex where
  | schemaToId
  | idToSchemaInfo
  | guidToSchemaInfo
  | infoToSchema
  | latestToSchema
  | schemaToVersion
  | versionToSchema
  | metadataToSchema
  deriving DecidableEq

/-- A function that answers from a cache where it can and else asks the registry and caches what
that answers. -/
structure CachedRequest where
  mutex : ClientMutex
  lookup : CacheKey
  store : CacheKey := lookup
  usable : CacheValue → Bool := CacheValue.truthy
  request : Request
  value : SchemaMetadata → CacheValue := .schema

def registerFullResponse (subject : String) (schema : SchemaMetadata) (normalize : Bool) : CachedRequest where
  mutex := .infoToSchema
  lookup := .infoToSchema subject (minimize schema).sorted
  request :=
    { method := .POST
      url := "/subjects/" ++ encodeURIComponent subject ++ "/versions?normalize=" ++ toString normalize
      body := some schema }

def getBySubjectAndId (subject : String) (id : Int) (format : Option String) : CachedRequest where
  mutex := .idToSchemaInfo
  lookup := .idToSchemaInfo subject (some id)
  request :=
    { method := .GET
      url := "/schemas/ids/" ++ toString id ++ "?subject=" ++ encodeURIComponent subject ++ formatStr "&" format }

def getByGuid (guid : String) (format : Option String) : CachedRequest where
  mutex := .guidToSchemaInfo
  lookup := .guidToSchemaInfo guid
  request :=
    { method := .GET
      url := "/schemas/guids/" ++ guid ++ formatStr "?" format }

def getIdFullResponse (subject : String) (schema : SchemaMetadata) (normalize : Bool) : CachedRequest where
  mutex := .schemaToId
  lookup := .infoToSchema subject (minimize schema).sorted
  usable := CacheValue.hasValidVersion
  request :=
    { method := .POST
      url := "/subjects/" ++ encodeURIComponent subject ++ "?normalize=" ++ toString normalize
      body := some schema }

def getLatestSchemaMetadata (subject : String) (format : Option String) : CachedRequest where
  mutex := .latestToSchema
  lookup := .latestToSchema subject
  -- `subject` is assigned its encoding before the answer is stored
  store := .latestToSchema (encodeURIComponent subject)
  request :=
    { method := .GET
      url := "/subjects/" ++ encodeURIComponent subject ++ "/versions/latest" ++ formatStr "?" format }

def getSchemaMetadata (subject : String) (version : Int) (deleted : Bool) (format : Option String) :
    CachedRequest where
  mutex := .versionToSchema
  lookup := .versionToSchema subject version (some deleted)
  request :=
    { method := .GET
      url := "/subjects/" ++ encodeURIComponent subject ++ "/versions/" ++ toString version ++ "?deleted=" ++
        toString deleted ++ formatStr "&" format }

def metadataStr : List (String × String) → String
  | [] => ""
  | (key, value) :: rest =>
    "&key=" ++ encodeURIComponent key ++ "&value=" ++ encodeURIComponent value ++ metadataStr rest

def getLatestWithMetadata (subject : String) (metadata : List (String × String)) (deleted : Bool)
    (format : Option String) : CachedRequest where
  mutex := .metadataToSchema
  lookup := .metadataToSchema subject (sortEntries metadata) deleted
  request :=
    { method := .GET
      url := "/subjects/" ++ encodeURIComponent subject ++ "/metadata?deleted=" ++ toString deleted ++ "&" ++
        metadataStr metadata ++ formatStr "&" format }

def getVersion (subject : String) (schema : SchemaMetadata) (normalize deleted : Bool) : CachedRequest where
  mutex := .schemaToVersion
  lookup := .schemaToVersion subject (minimize schema).sorted deleted
  request :=
    { method := .POST
      url := "/subjects/" ++ encodeURIComponent subject ++ "?normalize=" ++ toString normalize ++ "&deleted=" ++
        toString deleted
      body := some schema }
  value := fun data => .version data.version

/-! ## Steps -/

/-- The tasks that `deleteSubjectVersion` starts under other mutexes and does not await. -/
inductive ClientTask where
  | deleteInfo (subject : String) (schema : SchemaInfo)
  | delete (mutex : ClientMutex) (key : CacheKey)
  deriving DecidableEq

def ClientTask.mutex : ClientTask → ClientMutex
  | deleteInfo _ _ => .infoToSchema
  | delete mutex _ => mutex

inductive ClientOp where
  | lock (mutex : ClientMutex)
  | unlock (mutex : ClientMutex)
  | get (key : CacheKey)
  | set (key : CacheKey) (entry : CacheEntry)
  | deleteSubjectKeys (cache : ClientCache) (subject : String)
  | deleteVersionKeys (subject : String) (version : Int)
  | start (task : ClientTask)
  | send (request : Request)
  | sendDeleteSubject (request : Request)
  | sendDeleteVersion (request : Request)

structure Timed (α : Type) where
  data : α
  time : Nat

@[reducible] def ClientOp.Ans (ε : Type) : ClientOp → Type
  | lock _ => Unit
  | unlock _ => Unit
  | get _ => Option CacheEntry
  | set _ _ => Unit
  | deleteSubjectKeys _ _ => Unit
  | deleteVersionKeys _ _ => Unit
  | start _ => Unit
  | send _ => Except ε (Timed SchemaMetadata)
  | sendDeleteSubject _ => Except ε (Timed (List Int))
  | sendDeleteVersion _ => Except ε (Timed Int)

inductive ClientReply where
  | cached (key : CacheKey) (entry : CacheEntry)
  | fetched (value : CacheValue)
  | deleted (versions : List Int) (time : Nat)
  deriving DecidableEq

abbrev ClientProg (ε α : Type) := Prog ClientOp (ClientOp.Ans ε) ε α

namespace ClientProg

variable {ε : Type}

def call (op : ClientOp) : ClientProg ε (op.Ans ε) := Prog.lift op

def ask (r : CachedRequest) : ClientProg ε ClientReply := do
  match ← call (.send r.request) with
  | .error e => do
    call (.unlock r.mutex)
    throw e
  | .ok answer => do
    call (.set r.store ⟨r.value answer.data, answer.time⟩)
    call (.unlock r.mutex)
    return .fetched (r.value answer.data)

def cachedRequest (r : CachedRequest) : ClientProg ε ClientReply := do
  call (.lock r.mutex)
  match ← call (.get r.lookup) with
  | some entry =>
    if r.usable entry.value then do
      call (.unlock r.mutex)
      return .cached r.lookup entry
    else ask r
  | none => ask r

/-- One of the sections of `deleteSubject`. -/
def clearSubject (mutex : ClientMutex) (cache : ClientCache) (subject : String) : ClientProg ε Unit := do
  call (.lock mutex)
  call (.deleteSubjectKeys cache subject)
  call (.unlock mutex)

def deleteSubject (subject : String) (permanent : Bool) : ClientProg ε ClientReply := do
  clearSubject .infoToSchema .infoToSchema subject
  clearSubject .schemaToVersion .schemaToVersion subject
  clearSubject .versionToSchema .versionToSchema subject
  clearSubject .idToSchemaInfo .idToSchemaInfo subject
  match ← call (.sendDeleteSubject
      { method := .DELETE
        url := "/subjects/" ++ encodeURIComponent subject ++ "?permanent=" ++ toString permanent }) with
  | .error e => throw e
  | .ok answer => return .deleted answer.data answer.time

def deleteSubjectVersion (subject : String) (version : Int) (permanent : Bool) : ClientProg ε ClientReply := do
  call (.lock .schemaToVersion)
  call (.deleteVersionKeys subject version)
  call (.start (.delete .versionToSchema (.versionToSchema subject version none)))
  match ← call (.sendDeleteVersion
      { method := .DELETE
        url := "/subjects/" ++ encodeURIComponent subject ++ "/versions/" ++ toString version ++ "?permanent=" ++
          toString permanent }) with
  | .error e => do
    call (.unlock .schemaToVersion)
    throw e
  | .ok answer => do
    call (.unlock .schemaToVersion)
    return .deleted [answer.data] answer.time

end ClientProg

/-! ## Calls -/

inductive ReadCall where
  | getBySubjectAndId (subject : String) (id : Int) (format : Option String)
  | getByGuid (guid : String) (format : Option String)
  | getIdFullResponse (subject : String) (schema : SchemaMetadata) (normalize : Bool)
  | getLatestSchemaMetadata (subject : String) (format : Option String)
  | getSchemaMetadata (subject : String) (version : Int) (deleted : Bool) (format : Option String)
  | getLatestWithMetadata (subject : String) (metadata : List (String × String)) (deleted : Bool)
      (format : Option String)
  | getVersion (subject : String) (schema : SchemaMetadata) (normalize deleted : Bool)
  deriving DecidableEq

def ReadCall.cachedRequest : ReadCall → CachedRequest
  | getBySubjectAndId subject id format => ConfluentKafka.getBySubjectAndId subject id format
  | getByGuid guid format => ConfluentKafka.getByGuid guid format
  | getIdFullResponse subject schema normalize => ConfluentKafka.getIdFullResponse subject schema normalize
  | getLatestSchemaMetadata subject format => ConfluentKafka.getLatestSchemaMetadata subject format
  | getSchemaMetadata subject version deleted format =>
    ConfluentKafka.getSchemaMetadata subject version deleted format
  | getLatestWithMetadata subject metadata deleted format =>
    ConfluentKafka.getLatestWithMetadata subject metadata deleted format
  | getVersion subject schema normalize deleted => ConfluentKafka.getVersion subject schema normalize deleted

inductive ClientCall where
  | read (call : ReadCall)
  | registerFullResponse (subject : String) (schema : SchemaMetadata) (normalize : Bool)
  | deleteSubject (subject : String) (permanent : Bool)
  | deleteSubjectVersion (subject : String) (version : Int) (permanent : Bool)

def ClientCall.prog {ε : Type} : ClientCall → ClientProg ε ClientReply
  | read call => ClientProg.cachedRequest call.cachedRequest
  | registerFullResponse subject schema normalize =>
    ClientProg.cachedRequest (ConfluentKafka.registerFullResponse subject schema normalize)
  | deleteSubject subject permanent => ClientProg.deleteSubject subject permanent
  | deleteSubjectVersion subject version permanent =>
    ClientProg.deleteSubjectVersion subject version permanent

/-! ## The world of a client -/

/-- How the registry answers, and what it does to its own state meanwhile. -/
structure Registry (ρ ε : Type) where
  answer : Request → ρ → Except ε SchemaMetadata × ρ
  deleteSubject : Request → ρ → Except ε (List Int) × ρ
  deleteVersion : Request → ρ → Except ε Int × ρ

structure ClientWorld (ρ : Type) where
  caches : JsMap CacheKey CacheEntry
  locked : List ClientMutex
  tasks : List ClientTask
  registry : ρ
  clock : Nat

namespace ClientWorld

variable {ρ ε : Type}

def mapCaches (f : JsMap CacheKey CacheEntry → JsMap CacheKey CacheEntry) (w : ClientWorld ρ) : ClientWorld ρ :=
  { w with caches := f w.caches }

def exchange {α : Type} (w : ClientWorld ρ) (r : Except ε α × ρ) : Except ε (Timed α) × ClientWorld ρ :=
  (r.1.map fun a => ⟨a, w.clock⟩, { w with registry := r.2, clock := w.clock + 1 })

/-- The keys that `deleteSubjectVersion` finds in `schemaToVersionCache`. -/
def isVersionKey (subject : String) (version : Int) (key : CacheKey) (entry : CacheEntry) : Bool :=
  key.cache = .schemaToVersion ∧ key.subject? = some subject ∧ entry.value.version? = some version

def deleteInfoTask? (subject : String) : CacheKey → Option ClientTask
  | .schemaToVersion _ schema _ => some (.deleteInfo subject schema)
  | _ => none

def deleteVersionKeys (subject : String) (version : Int) (w : ClientWorld ρ) : ClientWorld ρ :=
  let found := w.caches.entries.filter fun e => isVersionKey subject version e.1 e.2
  { w with
    caches := w.caches.deleteWhere (isVersionKey subject version)
    tasks := w.tasks ++ found.filterMap fun e => deleteInfoTask? subject e.1 }

def deleteSubjectKeys (cache : ClientCache) (subject : String) (w : ClientWorld ρ) : ClientWorld ρ :=
  w.mapCaches fun m => m.deleteWhere fun key _ => key.cache = cache ∧ key.subject? = some subject

def runTask (w : ClientWorld ρ) : ClientTask → ClientWorld ρ
  | .delete _ key => w.mapCaches fun m => m.delete key
  | .deleteInfo subject schema =>
    match w.caches.get? (.infoToSchema subject schema) with
    | none => w
    | some entry =>
      let id := match entry.value with
        | .schema data => data.id
        | .version _ => none
      { w with
        caches := w.caches.delete (.infoToSchema subject schema)
        tasks := w.tasks ++ [.delete .idToSchemaInfo (.idToSchemaInfo subject id)] }

end ClientWorld

inductive ClientEvent where
  | other
  | cleared (cache : ClientCache)
  | answered (value : SchemaMetadata) (time : Nat)
  | deleted (versions : List Int) (time : Nat)
  | refused
  deriving DecidableEq

/-- What happens to the client and the registry outside the modelled calls. -/
inductive ClientEnv (ρ : Type) where
  | evict (key : CacheKey)
  | clearLatestCaches
  | clearCaches
  | task (n : Nat)
  | registry (r : ρ)

namespace Registry

variable {ρ ε : Type} (reg : Registry ρ ε)

def exec (op : ClientOp) (w : ClientWorld ρ) : ClientOp.Ans ε op × ClientWorld ρ :=
  match op with
  | .lock mutex => ((), { w with locked := mutex :: w.locked })
  | .unlock mutex => ((), { w with locked := w.locked.erase mutex })
  | .get key => (w.caches.get? key, w)
  | .set key entry => ((), w.mapCaches fun m => m.set key entry)
  | .deleteSubjectKeys cache subject => ((), w.deleteSubjectKeys cache subject)
  | .deleteVersionKeys subject version => ((), w.deleteVersionKeys subject version)
  | .start task => ((), { w with tasks := w.tasks ++ [task] })
  | .send request => w.exchange (reg.answer request w.registry)
  | .sendDeleteSubject request => w.exchange (reg.deleteSubject request w.registry)
  | .sendDeleteVersion request => w.exchange (reg.deleteVersion request w.registry)

def event (op : ClientOp) (w : ClientWorld ρ) : ClientEvent :=
  match op with
  | .deleteSubjectKeys cache _ => .cleared cache
  | .deleteVersionKeys _ _ => .cleared .schemaToVersion
  | .send request =>
    match (reg.answer request w.registry).1 with
    | .ok data => .answered data w.clock
    | .error _ => .refused
  | .sendDeleteSubject request =>
    match (reg.deleteSubject request w.registry).1 with
    | .ok versions => .deleted versions w.clock
    | .error _ => .refused
  | .sendDeleteVersion request =>
    match (reg.deleteVersion request w.registry).1 with
    | .ok version => .deleted [version] w.clock
    | .error _ => .refused
  | _ => .other

def env : ClientEnv ρ → ClientWorld ρ → ClientWorld ρ
  | .evict key, w => w.mapCaches fun m => m.delete key
  | .clearLatestCaches, w => w.mapCaches fun m => m.deleteWhere fun key _ =>
      key.cache = .latestToSchema ∨ key.cache = .metadataToSchema
  | .clearCaches, w => w.mapCaches fun _ => JsMap.empty
  | .task n, w =>
    match w.tasks[n]? with
    | none => w
    | some task =>
      if task.mutex ∈ w.locked then w
      else ClientWorld.runTask { w with tasks := w.tasks.eraseIdx n } task
  | .registry r, w => { w with registry := r }

def client : System ClientOp (ClientOp.Ans ε) ε ClientReply ClientCall ClientEvent (ClientWorld ρ) Unit
    (ClientEnv ρ) where
  exec _ := reg.exec
  event _ := reg.event
  start := ClientCall.prog
  env := env

end Registry

end ConfluentKafka
