import ConfluentKafka.CacheWf
import ConfluentKafka.Lts

/-!
# The run loop of `_consumer.js`

The workers, the fetch they share, the pending operations and the loop that
spawns the workers and executes the operations between their rounds. A step is
what runs between two `await`s, so that every interleaving of the asynchronous
functions is a run, and also some that the order of the microtasks excludes.

`promises` is the heap of the promises that workers and callbacks wait for:
`#fetchInProgress`, `#nonEmpty` and `#rebalanceCbInProgress` are addresses in
it, and a promise is resolved when its entry is `true`. Of
`#workerTerminationScheduled` only `resolved` is ever read.

Of librdkafka the assignment and the position of each partition are modelled:
`consume` returns the messages of the partition's log from its position on,
`seek` sets the position, `pause` and `resume` leave it. Timers may fire at any
time.
-/

namespace ConfluentKafka

namespace Consumer

structure TopicPartitionOffset where
  topic : String
  partition : Int
  offset : Int
  leaderEpoch : Int
  deriving DecidableEq, Repr

instance : Toppar TopicPartitionOffset := ⟨TopicPartitionOffset.topic, TopicPartitionOffset.partition⟩

def TopicPartitionOffset.toppar (t : TopicPartitionOffset) : TopicPartition := ⟨t.topic, t.partition⟩

/-- `log` tells the offsets of a partition, given by its key, that hold a message. -/
structure Config where
  eachMessage : Bool
  eachBatchAutoResolve : Bool
  deserializes : Bool
  maxBatchSize : Int
  maxBatchSize_ne : maxBatchSize ≠ 0
  concurrency : Int
  eager : Bool
  log : String → Int → Bool

/-- The operations passed to `#addPendingOperation`. Whether the application called `seek` or a processor, for a
message to be processed again, is recorded and read by nobody. -/
inductive Op where
  | seek (tpo : TopicPartitionOffset) (user : Bool)
  | pause (topicPartitions : List TopicPartition)
  | resume (topicPartitions : List TopicPartition)
  | unassign (assignment : List TopicPartition)
  | clearCacheAndResetPositions
  deriving DecidableEq, Repr

/-- What a processor works on, with the fields of the payload of a batch. -/
structure Batch where
  messages : List Message
  ppc : Nat
  lastResolvedOffset : Int
  lastResolvedEpoch : Int
  stale : Bool
  seeked : Bool
  deriving DecidableEq, Repr

/-- Where a worker is. `consumed` and `waitRebalance` carry what `consume` called back with, `none` for an error. -/
inductive Phase where
  | top
  | waitAvailable (gen : Nat)
  | waitFetch (promise : Nat)
  | waitNonEmpty (promise : Nat)
  | consuming
  | consumed (result : Option (List Message))
  | waitRebalance (result : Option (List Message)) (promise : Nat)
  | got (messages : List Message) (ppc : Nat)
  | deserializing (messages : List Message) (ppc : Nat)
  | handling (batch : Batch)
  | done
  deriving DecidableEq, Repr

structure Worker where
  ppc : Option Nat
  phase : Phase
  deriving DecidableEq, Repr

inductive Main where
  | start
  | workers
  | expiration
  | ops
  | op
  | stopped
  deriving DecidableEq, Repr

/-- Where `#cacheExpirationLoop` is: not running, in its loop, or in `#checkMaxPollIntervalNotExceeded`. -/
inductive Expiration where
  | idle
  | loop
  | check
  deriving DecidableEq, Repr

inductive Rebalance where
  | assign
  | revoke
  deriving DecidableEq, Repr

/-- `added`, `executed`, `woken` and `owed` only record what happened: the operations added and executed, whether a
wake-up came since `consume` was last called, and the messages put in the cache that are neither delivered nor
superseded by a seek of the application. -/
structure State where
  cache : Cache Message
  lastConsumedOffsets : JsMap String TopicPartitionOffset
  pendingSeeks : JsMap String TopicPartitionOffset
  pendingOperations : List Op
  workerTerminationScheduled : Bool
  fetchInProgress : Option Nat
  nonEmpty : Option Nat
  rebalanceCbInProgress : Option Nat
  promises : List Bool
  callbacks : List Nat
  workers : List Worker
  main : Main
  expiration : Expiration
  disconnectStarted : Bool
  partitionCount : Int
  assignment : List TopicPartition
  position : String → Int
  rebalancing : Option Rebalance
  added : List Op
  executed : List Op
  woken : Bool
  owed : List Message

namespace State

def setWorker (s : State) (i : Nat) (w : Worker) : State := { s with workers := s.workers.set i w }

def resolved (s : State) (p : Nat) : Bool := s.promises[p]? = some true

/-! ## Waking the workers -/

def notifyNonEmpty (s : State) : State :=
  let s :=
    match s.nonEmpty with
    | some p => { s with promises := s.promises.set p true, nonEmpty := none }
    | none => s
  { s with cache := s.cache.notifyAvailablePartitions }

/-- `nonEmptyAction` waits for the fetch in progress, if there is one. -/
def queueNonEmptyCb (s : State) : State :=
  let s := { s with woken := true }
  match s.fetchInProgress with
  | some f => { s with callbacks := s.callbacks ++ [f] }
  | none => s.notifyNonEmpty

def resolveWorkerTerminationScheduled (s : State) : State :=
  { s with workerTerminationScheduled := true }.queueNonEmptyCb

def addPendingOperation (s : State) (op : Op) : State :=
  let s := if s.pendingOperations = [] then s.resolveWorkerTerminationScheduled else s
  { s with pendingOperations := s.pendingOperations ++ [op], added := s.added ++ [op] }

/-! ## Requests -/

def markBatchPayloadsStale {τ : Type} [Toppar τ] (s : State) (topicPartitions : List τ) (isSeek : Bool) : State :=
  let mark (b : Batch) : Batch :=
    if b.messages.any fun m => topicPartitions.any fun tp => partitionKey m = partitionKey tp then
      { b with stale := true, seeked := b.seeked || isSeek }
    else b
  { s with
    workers := s.workers.map fun w =>
      match w.phase with
      | .handling b => { w with phase := .handling (mark b) }
      | _ => w }

def seek (s : State) (tpo : TopicPartitionOffset) (user : Bool) : State :=
  (s.markBatchPayloadsStale [tpo] true).addPendingOperation (.seek tpo user)

def pause (s : State) (topicPartitions : List TopicPartition) : State :=
  if topicPartitions = [] then s
  else (s.markBatchPayloadsStale topicPartitions false).addPendingOperation (.pause topicPartitions)

def resume (s : State) (topicPartitions : List TopicPartition) : State :=
  if topicPartitions = [] then s else s.addPendingOperation (.resume topicPartitions)

end State

/-! ## Fetching -/

/-- `next` or `nextN` of the cache, as the configuration asks for messages or batches. -/
def takeFromCache (cfg : Config) (c : Cache Message) (ppc : Option Nat) :
    Cache Message × Option (List Message × Nat) :=
  if cfg.eachMessage then ((c.next ppc).1, (c.next ppc).2.map fun r => ([r.1], r.2))
  else c.nextN ppc cfg.maxBatchSize cfg.maxBatchSize_ne

namespace State

def fetchAndResolveWith (s : State) (i : Nat) (w : Worker) : State :=
  match s.fetchInProgress with
  | some f => s.setWorker i { w with phase := .waitFetch f }
  | none =>
    match s.nonEmpty with
    | some p => s.setWorker i { w with phase := .waitNonEmpty p }
    | none =>
      if s.workerTerminationScheduled then s.setWorker i { w with phase := .top }
      else
        { s with
          promises := s.promises ++ [false]
          fetchInProgress := some s.promises.length
          woken := false }.setWorker i { w with phase := .consuming }

/-- The loop of `#worker` with `#consumeSingleCached` or `#consumeCachedN`, up to its first `await`. -/
def workerTop (cfg : Config) (s : State) (i : Nat) (w : Worker) : State :=
  if s.workerTerminationScheduled then
    { s with cache := w.ppc.elim s.cache s.cache.giveBack }.setWorker i ⟨none, .done⟩
  else
    match takeFromCache cfg s.cache w.ppc with
    | (c, some (ms, p)) => { s with cache := c }.setWorker i { w with phase := .got ms p }
    | (c, none) =>
      if c.raw.assignedSize ≠ 0 then
        { s with cache := c }.setWorker i { w with phase := .waitAvailable c.raw.availableGen }
      else { s with cache := c }.fetchAndResolveWith i w

/-- The `finally` of `#fetchAndResolveWith`; `quiet` when there was neither an error nor a rebalance. -/
def endFetch (s : State) (quiet : Bool) : State :=
  let s :=
    match s.fetchInProgress with
    | some f => { s with promises := s.promises.set f true, fetchInProgress := none }
    | none => s
  if quiet ∧ s.cache.raw.assignedSize = 0 then
    { s with promises := s.promises ++ [false], nonEmpty := some s.promises.length }
  else s

def putFetched (cfg : Config) (s : State) (ms : List Message) : State :=
  { s with
    cache := (takeFromCache cfg (s.cache.addMessages ms) none).1
    owed := s.owed ++ ms.filter fun m => s.assignment.any fun tp => partitionKey tp = partitionKey m }

def finishFetch (cfg : Config) (s : State) (i : Nat) (w : Worker) (processedRebalance : Bool) :
    Option (List Message) → State
  | none => (s.endFetch false).setWorker i { w with phase := .top }
  | some ms =>
    ((s.putFetched cfg ms).endFetch !processedRebalance).setWorker i
      { w with phase := (takeFromCache cfg (s.cache.addMessages ms) none).2.elim .top fun r => .got r.1 r.2 }

/-! ## Processing -/

def returnMessages (s : State) (i : Nat) (ms : List Message) (ppc : Nat) : State :=
  let key := s.cache.view.key ppc
  let lastConsumedOffsets :=
    match ms with
    | m :: _ =>
      if s.lastConsumedOffsets.has key then s.lastConsumedOffsets
      else s.lastConsumedOffsets.set key ⟨m.topic, m.partition, m.offset - 1, -1⟩
    | [] => s.lastConsumedOffsets
  { s with
    cache := s.cache.returnMessages ms
    lastConsumedOffsets }.setWorker i ⟨some ppc, .top⟩

def deliver (s : State) (i : Nat) (w : Worker) (ms : List Message) (ppc : Nat) : State :=
  { s with
    owed := s.owed.filter fun m => ¬ ms.any fun m' => partitionKey m' = partitionKey m ∧ m'.offset = m.offset
  }.setWorker i { w with phase := .handling ⟨ms, ppc, -1, -1, false, false⟩ }

/-- Messages are returned to the cache if operations are pending, else they go to their processor. -/
def process (cfg : Config) (s : State) (i : Nat) (w : Worker) (ms : List Message) (ppc : Nat) : State :=
  if s.pendingOperations ≠ [] then s.returnMessages i ms ppc
  else if cfg.deserializes then s.setWorker i { w with phase := .deserializing ms ppc }
  else s.deliver i w ms ppc

/-- `resolveOffset` of a payload; `stored` unless storing the offset throws. -/
def resolveOffset (s : State) (b : Batch) (offset leaderEpoch : Int) (stored : Bool) : State × Batch :=
  match b.messages with
  | [] => (s, b)
  | m :: _ =>
    if offset ≤ b.lastResolvedOffset then (s, b)
    else
      (if stored then
        { s with
          lastConsumedOffsets :=
            s.lastConsumedOffsets.set (partitionKey m) ⟨m.topic, m.partition, offset, leaderEpoch⟩ }
       else s, { b with lastResolvedOffset := offset, lastResolvedEpoch := leaderEpoch })

/-- The end of `#messageProcessor`. -/
def messageProcessed (s : State) (i : Nat) (m : Message) (ppc : Nat) (processed stored : Bool) : State :=
  let s := s.setWorker i ⟨some ppc, .top⟩
  if !processed then s.seek ⟨m.topic, m.partition, m.offset, m.leaderEpoch⟩ false
  else if stored then
    { s with
      lastConsumedOffsets :=
        s.lastConsumedOffsets.set (partitionKey m) ⟨m.topic, m.partition, m.offset, m.leaderEpoch⟩ }
  else s

/-- A batch that was not resolved to its end is to be processed again from there on. -/
def seekUnresolved (s : State) (b : Batch) (first last : Message) : State :=
  if !b.seeked ∧ b.lastResolvedOffset ≠ last.offset then
    if b.lastResolvedOffset = -1 then s.seek ⟨first.topic, first.partition, first.offset, first.leaderEpoch⟩ false
    else s.seek ⟨first.topic, first.partition, b.lastResolvedOffset + 1, b.lastResolvedEpoch⟩ false
  else s

/-- The end of `#batchProcessor`. -/
def batchProcessed (cfg : Config) (s : State) (i : Nat) (b : Batch) (first last : Message)
    (processed stored : Bool) :
    State :=
  let (s, b) :=
    if processed ∧ cfg.eachBatchAutoResolve ∧ !b.stale then s.resolveOffset b last.offset last.leaderEpoch stored
    else (s, b)
  (s.setWorker i ⟨some b.ppc, .top⟩).seekUnresolved b first last

/-! ## The pending operations -/

def seekPartition (s : State) (tpo : TopicPartitionOffset) : State :=
  { s with
    lastConsumedOffsets := s.lastConsumedOffsets.delete (partitionKey tpo)
    cache := s.cache.markStale [tpo]
    position := Function.update s.position (partitionKey tpo) tpo.offset
    pendingSeeks := s.pendingSeeks.delete (partitionKey tpo) }

def isAssigned (s : State) (key : String) : Bool := s.assignment.any fun tp => partitionKey tp = key

/-- Partitions that are not assigned are kept in `#pendingSeeks`. Its other entries are deleted when the seeks have
completed; nobody reads them before. -/
def seekInternal (s : State) (topicPartitionOffsets : List TopicPartitionOffset) : State :=
  let seeks := topicPartitionOffsets.foldl (fun m t => m.set (partitionKey t) t)
    (.empty : JsMap String TopicPartitionOffset)
  let seekedPartitions := s.assignment.filterMap fun tp => seeks.get? (partitionKey tp)
  let pendingSeeks := topicPartitionOffsets.foldl
    (fun m t => if s.isAssigned (partitionKey t) then m else m.set (partitionKey t) t) s.pendingSeeks
  seekedPartitions.foldl seekPartition { s with pendingSeeks }

/-- Where a partition goes on after its last consumed message, if that is known. -/
def resetOffset (s : State) (tp : TopicPartition) : Option TopicPartitionOffset :=
  (s.lastConsumedOffsets.get? (partitionKey tp)).map fun last =>
    ⟨tp.topic, tp.partition, last.offset + 1, last.leaderEpoch⟩

def pauseInternal (s : State) (topicPartitions : List TopicPartition) : State :=
  let s := { s with cache := s.cache.markStale topicPartitions }
  s.seekInternal (topicPartitions.filterMap s.resetOffset)

def clearCacheAndResetPositions (s : State) : State :=
  let s := { s with cache := s.cache.clear }
  s.assignment.foldl (fun s tp => s.seekInternal (s.resetOffset tp).toList) s

def unassign (cfg : Config) (s : State) (assignment : List TopicPartition) : State :=
  if cfg.eager then { s with assignment := [], cache := s.cache.clear, partitionCount := 0, owed := [] }
  else
    { s with
      assignment := s.assignment.filter fun tp => tp ∉ assignment
      cache := s.cache.markStale assignment
      partitionCount := s.partitionCount - assignment.length
      owed := s.owed.filter fun m => ¬ assignment.any fun tp => partitionKey tp = partitionKey m }

def execute (cfg : Config) (s : State) : Op → State
  | .seek tpo user =>
    let s := s.seekInternal [tpo]
    if user then { s with owed := s.owed.filter fun m => partitionKey m ≠ partitionKey tpo } else s
  | .pause tps => s.pauseInternal tps
  | .resume _ => s
  | .unassign tps => s.unassign cfg tps
  | .clearCacheAndResetPositions => s.clearCacheAndResetPositions

/-! ## Rebalances -/

def workersToSpawn (cfg : Config) (s : State) : Int := max 1 (min cfg.concurrency s.partitionCount)

/-- The offsets asked for by seeks of partitions that were not assigned then. -/
def assignAsPerSeekedOffsets (s : State) (assignment : List TopicPartitionOffset) : List TopicPartitionOffset :=
  assignment.map fun tpo =>
    match s.pendingSeeks.get? (partitionKey tpo) with
    | some t => { tpo with offset := t.offset, leaderEpoch := t.leaderEpoch }
    | none => tpo

def assign (cfg : Config) (s : State) (modified : Bool) (tpos : List TopicPartitionOffset) : State :=
  let tpos' : List TopicPartitionOffset := if modified then tpos else s.assignAsPerSeekedOffsets tpos
  let tps := tpos'.map TopicPartitionOffset.toppar
  { s with
    pendingSeeks := if modified then s.pendingSeeks else tpos.foldl (fun m t => m.delete (partitionKey t))
      s.pendingSeeks
    assignment := if cfg.eager then tps else s.assignment ++ tps
    position := tpos'.foldl (fun pos t => Function.update pos (partitionKey t) t.offset) s.position
    partitionCount := if cfg.eager then tps.length else s.partitionCount + tps.length }

def endRebalance (cfg : Config) (s : State) : State :=
  let s := if s.workersToSpawn cfg ≠ s.workers.length then s.resolveWorkerTerminationScheduled else s
  { s with
    promises := s.rebalanceCbInProgress.elim s.promises fun p => s.promises.set p true
    rebalancing := none }

/-- The end of `#rebalanceCallback`, with the assignment that the application has modified or not. -/
def rebalanced (cfg : Config) (s : State) (r : Rebalance) (modified : Bool) (tpos : List TopicPartitionOffset) :
    State :=
  match r with
  | .assign => (s.assign cfg modified tpos).endRebalance cfg
  | .revoke =>
    let tps := tpos.map TopicPartitionOffset.toppar
    (if s.disconnectStarted then s.unassign cfg tps else s.addPendingOperation (.unassign tps)).endRebalance cfg

end State

/-! ## The steps -/

inductive Tick where
  | cacheExpired
  | fetchDue
  | early
  deriving DecidableEq, Repr

inductive Ev where
  | worker (i : Nat)
  | consumed (i : Nat) (result : Option (List Message))
  | resolveOffset (i : Nat) (offset leaderEpoch : Int) (stored : Bool)
  | handled (i : Nat) (processed stored : Bool)
  | queueNonEmpty
  | callback (j : Nat)
  | seek (tpo : TopicPartitionOffset)
  | pause (topicPartitions : List TopicPartition)
  | resume (topicPartitions : List TopicPartition)
  | rebalance (r : Rebalance)
  | rebalanced (modified : Bool) (tpos : List TopicPartitionOffset)
  | main
  | opDone
  | tick (t : Tick)
  | checked (stale : Bool)
  | disconnect
  deriving DecidableEq, Repr

/-- The positions after `consume` has returned the messages, if it can return them: those of assigned
partitions, each the first that its log has from the position on. -/
def advance (cfg : Config) (s : State) : List Message → (String → Int) → Option (String → Int)
  | [], position => some position
  | m :: ms, position =>
    let key := partitionKey m
    if s.isAssigned key ∧ position key ≤ m.offset ∧ cfg.log key m.offset ∧
        (List.range (m.offset - position key).toNat).all fun d => ¬ cfg.log key (position key + d) then
      advance cfg s ms (Function.update position key (m.offset + 1))
    else none

def stepWorker (cfg : Config) (s : State) (i : Nat) (w : Worker) : Option State :=
  match w.phase with
  | .top => some (s.workerTop cfg i w)
  | .waitAvailable gen =>
    if gen < s.cache.raw.availableGen then some (s.setWorker i { w with phase := .top }) else none
  | .waitFetch p => if s.resolved p then some (s.setWorker i { w with phase := .top }) else none
  | .waitNonEmpty p => if s.resolved p then some (s.setWorker i { w with phase := .top }) else none
  | .consumed r =>
    match s.rebalanceCbInProgress with
    | some p => some (s.setWorker i { w with phase := .waitRebalance r p })
    | none => some (s.finishFetch cfg i w false r)
  | .waitRebalance r p =>
    if s.resolved p then some ({ s with rebalanceCbInProgress := none }.finishFetch cfg i w true r) else none
  | .got ms p => some (s.process cfg i w ms p)
  | .deserializing ms p => some (s.deliver i w ms p)
  | _ => none

def stepHandled (cfg : Config) (s : State) (i : Nat) (b : Batch) (processed stored : Bool) : Option State :=
  match b.messages, b.messages.getLast? with
  | first :: _, some last =>
    if cfg.eachMessage then some (s.messageProcessed i first b.ppc processed stored)
    else some (s.batchProcessed cfg i b first last processed stored)
  | _, _ => none

def stepMain (cfg : Config) (s : State) : Option State :=
  match s.main with
  | .start =>
    if s.disconnectStarted then some { s with main := .stopped }
    else
      let s := { s with workerTerminationScheduled := false }
      if s.pendingOperations = [] then
        some { s with
          workers := List.replicate (s.workersToSpawn cfg).toNat ⟨none, .top⟩
          expiration := .loop
          main := .workers }
      else some { s with main := .ops }
  | .workers => if s.workers.all fun w => w.phase = .done then some { s with main := .expiration } else none
  | .expiration => if s.expiration = .idle then some { s with main := .ops } else none
  | .ops =>
    match s.pendingOperations with
    | [] => some { s with main := .start }
    | op :: ops =>
      let s := { s with pendingOperations := ops }.execute cfg op
      some { s with main := .op, executed := s.executed ++ [op] }
  | .op => none
  | .stopped => none

def stepTick (s : State) (t : Tick) : Option State :=
  if s.expiration ≠ .loop then none
  else if s.workerTerminationScheduled then some { s with expiration := .idle }
  else
    match t with
    | .cacheExpired => some ({ s with expiration := .check }.addPendingOperation .clearCacheAndResetPositions)
    | .fetchDue => some s.notifyNonEmpty
    | .early => some s

def step (cfg : Config) (s : State) : Ev → Option State
  | .worker i => s.workers[i]?.bind fun w => stepWorker cfg s i w
  | .consumed i r =>
    match s.workers[i]? with
    | some ⟨ppc, .consuming⟩ =>
      (advance cfg s (r.getD []) s.position).map fun position =>
        { s with position }.setWorker i ⟨ppc, .consumed r⟩
    | _ => none
  | .resolveOffset i offset leaderEpoch stored =>
    match s.workers[i]? with
    | some ⟨ppc, .handling b⟩ =>
      if cfg.eachMessage then none
      else
        let (s, b) := s.resolveOffset b offset leaderEpoch stored
        some (s.setWorker i ⟨ppc, .handling b⟩)
    | _ => none
  | .handled i processed stored =>
    match s.workers[i]? with
    | some ⟨_, .handling b⟩ => stepHandled cfg s i b processed stored
    | _ => none
  | .queueNonEmpty => some s.queueNonEmptyCb
  | .callback j =>
    match s.callbacks[j]? with
    | some f => if s.resolved f then some { s with callbacks := s.callbacks.eraseIdx j }.notifyNonEmpty else none
    | none => none
  | .seek tpo =>
    if 0 ≤ tpo.offset ∨ tpo.offset = -2 ∨ tpo.offset = -3 then some (s.seek tpo true) else none
  | .pause tps => some (s.pause tps)
  | .resume tps => some (s.resume tps)
  | .rebalance r =>
    -- librdkafka rebalances from within `consume` only, one rebalance after the other
    if s.rebalancing = none ∧ s.workers.any (fun w => w.phase = .consuming) ∧
        ¬ (r = .assign ∧ cfg.eager ∧ s.assignment ≠ []) then
      some { s with
        promises := s.promises ++ [false]
        rebalanceCbInProgress := some s.promises.length
        rebalancing := some r }
    else none
  | .rebalanced modified tpos =>
    s.rebalancing.bind fun r =>
      -- and assigns no partition that is assigned already
      if r = .assign ∧ tpos.any (fun t => s.isAssigned (partitionKey t)) then none
      else some (s.rebalanced cfg r modified tpos)
  | .main => stepMain cfg s
  | .opDone => if s.main = .op then some { s with main := .ops } else none
  | .tick t => stepTick s t
  | .checked stale =>
    if s.expiration = .check then
      let s := if stale then s.markBatchPayloadsStale s.assignment false else s
      some { s with expiration := .idle }
    else none
  | .disconnect => some { s with disconnectStarted := true }.resolveWorkerTerminationScheduled

def lts (cfg : Config) : Lts State Ev where
  init := ⟨.new, .empty, .empty, [], false, none, none, none, [], [], [], .start, .idle, false, 0, [],
    fun _ => 0, none,
    [], [], false, []⟩
  step := step cfg

end Consumer

end ConfluentKafka
