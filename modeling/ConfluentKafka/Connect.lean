import ConfluentKafka.Lock

/-!
# `connect` and `disconnect` of `_producer.js` and `_consumer.js`

The two classes have the same `connect`, with retries, and differ in
`#onConnected` and in `disconnect`: the consumer waits for its lock, which the
run loop holds, before it leaves `CONNECTED`. A step is what runs between two
`await`s; timers and callbacks may come at any time.

A client is the `Client` of `client.js` with its flags. `disconnect` of a
producer's client flushes it first, which is part of its disconnect here.
-/

namespace ConfluentKafka

namespace Connect

inductive Kind where
  | producer (transactional : Bool)
  | consumer
  deriving DecidableEq, Repr

structure Config where
  kind : Kind
  retries : Nat
  deriving DecidableEq, Repr

inductive Status where
  | init
  | connecting
  | initializingTransactions
  | connected
  | disconnecting
  | disconnected
  deriving DecidableEq, Repr

/-- `state >= DISCONNECTING`. -/
def Status.ended : Status → Bool
  | .disconnecting => true
  | .disconnected => true
  | _ => false

/-- An error of an attempt, as `isConnectRetriable` tells them apart. -/
inductive Failure where
  | retriable
  | other
  deriving DecidableEq, Repr

structure Client where
  isConnecting : Bool
  isConnected : Bool
  isDisconnecting : Bool
  unsubscribes : Nat
  disconnects : Nat
  deriving DecidableEq, Repr

namespace Client

def live (c : Client) : Bool := c.isConnecting || c.isConnected

def disconnect (c : Client) : Client := { c with isDisconnecting := true, disconnects := c.disconnects + 1 }

def disconnected (c : Client) : Client := { c with isDisconnecting := false, isConnected := false }

end Client

inductive Phase where
  | idle
  | config
  | resolverThrew
  | attemptConfig
  | buildThrew
  | native
  | metadata
  | failing (e : Failure)
  | attempted (e : Option Failure)
  | onConnected
  | initTransactions
  | onConnectedSettled (e : Option Failure)
  | teardown (e : Option Failure)
  | tornDown (e : Option Failure)
  | backoff
  | closingSerdes
  | settled
  deriving DecidableEq, Repr

inductive DisconnectPhase where
  | waiting
  | lock (index : Nat)
  | written
  | closing
  | ignored
  | serdes (ok : Bool)
  | resolved
  | rejected
  deriving DecidableEq, Repr

structure Disconnect where
  phase : DisconnectPhase
  connects : Nat
  calledIn : Phase
  calledAt : Status
  deriving DecidableEq, Repr

inductive Note where
  | attempt
  | succeeded
  | failed (e : Failure)
  | aborted
  deriving DecidableEq, Repr

/-- `abandoned` are the clients of earlier attempts, `connects` counts the calls of `connect` that began to
connect and `log` is about the last of them. -/
structure State where
  status : Status
  phase : Phase
  connectAbort : Option Bool
  attempt : Nat
  internalClient : Option Client
  abandoned : List Client
  lock : Lock.State
  run : Option Nat
  disconnectStarted : Bool
  disconnects : List Disconnect
  connects : Nat
  log : List Note

namespace State

def clients (s : State) : List Client := s.abandoned ++ s.internalClient.toList

def setClient (s : State) (f : Client → Client) : State := { s with internalClient := s.internalClient.map f }

def setDisconnect (s : State) (i : Nat) (d : Disconnect) (phase : DisconnectPhase) : State :=
  { s with disconnects := s.disconnects.set i { d with phase } }

/-! ## Connecting -/

def connect (s : State) : State :=
  if s.phase ≠ .idle then s
  else if s.status ≠ .init then s
  else { s with phase := .config, connects := s.connects + 1, log := [] }

def beginAttempt (s : State) : State := { s with phase := .attemptConfig, log := s.log ++ [.attempt] }

/-- The `finally` of `#connectWithRetries`. -/
def finish (s : State) : State := { s with phase := .settled, connectAbort := none }

def teardownFailedClient (s : State) (e : Option Failure) : State :=
  if s.internalClient.any (·.isConnected) then { s.setClient Client.disconnect with phase := .teardown e }
  else { s with phase := .teardown e }

def afterAttempt (s : State) (e : Option Failure) : State :=
  let s := { s with log := s.log ++ [e.elim Note.succeeded Note.failed] }
  if e = none ∧ s.connectAbort = some false then s.finish else s.teardownFailedClient e

def fail (s : State) : State := { s with status := .disconnected, phase := .closingSerdes }

def build (cfg : Config) (s : State) : State :=
  { s with
    status := match cfg.kind with
      | .producer _ => .connecting
      | .consumer => s.status
    abandoned := s.clients
    internalClient := some ⟨true, false, false, 0, 0⟩
    phase := .native }

/-- After `#connectInternalClientOnce`, up to the first `await`. -/
def attempted (cfg : Config) (s : State) (e : Option Failure) : State :=
  if e = none ∧ s.connectAbort = some false then
    match cfg.kind with
    | .producer _ => { s with phase := .onConnected }
    | .consumer => { s with status := .connected }.afterAttempt none
  else s.afterAttempt e

def onConnected (cfg : Config) (s : State) : State :=
  if cfg.kind = .producer true then { s with status := .initializingTransactions, phase := .initTransactions }
  else { s with status := .connected, phase := .onConnectedSettled none }

def tornDown (cfg : Config) (s : State) (e : Option Failure) : State :=
  if s.connectAbort = some true then s.fail
  else if s.attempt ≥ cfg.retries ∨ e ≠ some .retriable then s.fail
  else { s with phase := .backoff }

def backedOff (s : State) : State :=
  if s.connectAbort = some true then s.fail else { s with attempt := s.attempt + 1 }.beginAttempt

/-! ## Disconnecting -/

def addDisconnect (s : State) (phase : DisconnectPhase) (calledAt : Status) : State :=
  { s with disconnects := s.disconnects ++ [⟨phase, s.connects, s.phase, calledAt⟩] }

/-- The call of the internal client's `disconnect`, with what its caller does next. -/
def closeClient (s : State) : State × DisconnectPhase :=
  (s.setClient Client.disconnect, if s.internalClient.any (·.isDisconnecting) then .ignored else .closing)

def disconnect (cfg : Config) (s : State) : Option State :=
  if s.status = .init then some (s.addDisconnect .resolved s.status)
  else
    match s.connectAbort with
    | some _ =>
      some ({ s with connectAbort := some true, log := s.log ++ [Note.aborted] }.addDisconnect .waiting s.status)
    | none =>
      if s.status.ended then some (s.addDisconnect .resolved s.status)
      else
        match cfg.kind with
        | .consumer =>
          (Lock.step s.lock (.begin (s.disconnects.length + 1) .write)).map fun lock =>
            { s with lock, disconnectStarted := true }.addDisconnect (.lock s.lock.sections.length) s.status
        | .producer _ =>
          -- the flush of a client that is not connected throws
          let (t, phase) :=
            if s.internalClient.any (·.isConnected) then { s with status := .disconnecting }.closeClient
            else ({ s with status := .disconnecting }, .serdes false)
          some (t.addDisconnect phase s.status)

end State

/-! ## The steps -/

inductive ConfigOutcome where
  | ok
  | threw
  | resolverThrew
  deriving DecidableEq, Repr

inductive Ev where
  | connect
  | config (outcome : ConfigOutcome)
  | build (ok : Bool)
  | native (e : Option Failure)
  | metadata (e : Option Failure)
  | failed
  | attempted
  | onConnected
  | transactions (e : Option Failure)
  | onConnectedSettled
  | torn
  | tornDown
  | timer
  | serdesClosed
  | settle
  | run
  | runEnded
  | resume (i : Nat)
  | disconnect
  | waited (i : Nat)
  | write (i : Nat)
  | unsubscribe (i : Nat) (ok : Bool)
  | closed (i : Nat)
  | closedSerdes (i : Nat) (ok : Bool)
  deriving DecidableEq, Repr

/-- The steps of `#connectWithRetries`. -/
def stepConnect (cfg : Config) (s : State) : Ev → Option State
  | .config outcome =>
    match s.phase, outcome with
    | .config, .ok => some { s with status := .connecting, connectAbort := some false, attempt := 0 }.beginAttempt
    | .config, .threw => some { s with phase := .settled }
    | .config, .resolverThrew => some { s with phase := .resolverThrew }
    | _, _ => none
  | .build ok =>
    match s.phase with
    | .attemptConfig => if ok then some (s.build cfg) else some { s with status := .init, phase := .buildThrew }
    | _ => none
  | .native e =>
    match s.phase with
    | .native =>
      match e with
      | none => some { s.setClient fun c => { c with isConnected := true } with phase := .metadata }
      | some e => some { s.setClient fun c => { c with isConnecting := false } with phase := .attempted (some e) }
    | _ => none
  | .metadata e =>
    match s.phase with
    | .metadata =>
      match e with
      | none => some { s.setClient fun c => { c with isConnecting := false } with phase := .attempted none }
      | some e => some { s.setClient fun c => { c with isConnected := false } with phase := .failing e }
    | _ => none
  | .failed =>
    match s.phase with
    | .failing e => some { s.setClient fun c => { c with isConnecting := false } with phase := .attempted (some e) }
    | _ => none
  | .attempted =>
    match s.phase with
    | .attempted e => some (s.attempted cfg e)
    | _ => none
  | .onConnected =>
    match s.phase with
    | .onConnected => some (s.onConnected cfg)
    | _ => none
  | .transactions e =>
    match s.phase with
    | .initTransactions =>
      some { s with status := if e = none then .connected else s.status, phase := .onConnectedSettled e }
    | _ => none
  | .onConnectedSettled =>
    match s.phase with
    | .onConnectedSettled e => some (s.afterAttempt e)
    | _ => none
  | .torn =>
    match s.phase with
    | .teardown e =>
      if s.internalClient.any (·.isConnected) then some
        { s.setClient Client.disconnected with phase := .tornDown e }
      else some { s with phase := .tornDown e }
    | _ => none
  | .tornDown =>
    match s.phase with
    | .tornDown e => some (s.tornDown cfg e)
    | _ => none
  | .timer =>
    match s.phase with
    | .backoff => some s.backedOff
    | _ => none
  | .serdesClosed =>
    match s.phase with
    | .resolverThrew => some s.finish
    | .buildThrew => some s.finish
    | .closingSerdes => some s.finish
    | _ => none
  | .settle =>
    match s.phase with
    | .settled => some { s with phase := .idle }
    | _ => none
  | _ => none

def stepDisconnect (s : State) : Ev → Option State
  | .waited i =>
    match s.disconnects[i]? with
    | some d => if d.phase = .waiting ∧ (s.phase = .idle ∨ d.connects < s.connects) then
        some (s.setDisconnect i d .resolved) else none
    | none => none
  | .write i =>
    match s.disconnects[i]? with
    | some d =>
      match d.phase with
      | .lock j => (Lock.step s.lock (.finish j)).map fun lock =>
          { s with lock, status := .disconnecting }.setDisconnect i d .written
      | _ => none
    | none => none
  | .unsubscribe i ok =>
    match s.disconnects[i]? with
    | some d =>
      if d.phase = .written then
        let s := s.setClient fun c => { c with unsubscribes := c.unsubscribes + 1 }
        if ok then some (s.closeClient.1.setDisconnect i d s.closeClient.2)
        else some (s.setDisconnect i d (.serdes false))
      else none
    | none => none
  | .closed i =>
    match s.disconnects[i]? with
    | some d =>
      if d.phase = .closing then
        some ({ s.setClient Client.disconnected with status := .disconnected }.setDisconnect i d (.serdes true))
      else none
    | none => none
  | .closedSerdes i ok =>
    match s.disconnects[i]? with
    | some d =>
      match d.phase with
      | .serdes ok' => some (s.setDisconnect i d (if ok' ∧ ok then .resolved else .rejected))
      | _ => none
    | none => none
  | _ => none

def stepRun (cfg : Config) (s : State) : Ev → Option State
  | .run =>
    if cfg.kind = .consumer ∧ s.status = .connected ∧ s.run = none then
      (Lock.step s.lock (.begin 0 .write)).map fun lock => { s with lock, run := some s.lock.sections.length }
    else none
  | .runEnded =>
    s.run.bind fun j =>
      if s.disconnectStarted then (Lock.step s.lock (.finish j)).map fun lock => { s with lock } else none
  | .resume i => (Lock.step s.lock (.resume i)).map fun lock => { s with lock }
  | _ => none

def step (cfg : Config) (s : State) : Ev → Option State
  | .connect => some s.connect
  | .disconnect => s.disconnect cfg
  | .run => stepRun cfg s .run
  | .runEnded => stepRun cfg s .runEnded
  | .resume i => stepRun cfg s (.resume i)
  | .waited i => stepDisconnect s (.waited i)
  | .write i => stepDisconnect s (.write i)
  | .unsubscribe i ok => stepDisconnect s (.unsubscribe i ok)
  | .closed i => stepDisconnect s (.closed i)
  | .closedSerdes i ok => stepDisconnect s (.closedSerdes i ok)
  | e => stepConnect cfg s e

def lts (cfg : Config) : Lts State Ev where
  init := ⟨.init, .idle, none, 0, none, [], Lock.lts.init, none, false, [], 0, []⟩
  step := step cfg

end Connect

end ConfluentKafka
