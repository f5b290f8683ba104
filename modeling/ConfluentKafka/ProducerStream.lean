import ConfluentKafka.Lts

/-!
# The producer stream

`ProducerStream` is a `Writable` over `produce`. Node hands it a chunk with
`_write`, which is `_write_buffer` or `_write_message`, or several with
`_writev`, and makes the next call when the last one has called back without
an error. The outcomes of `produce` are a sequence `σ`, one for each attempt.
The producer stays connected once it is, and `ready` comes after that.
-/

namespace ConfluentKafka
namespace ProducerStream

/-- A message object: its topic, when that is a string, and its other fields. -/
structure Message (ρ : Type) where
  topic : Option String
  fields : ρ
  deriving DecidableEq, Repr

inductive Chunk (ρ β : Type) where
  | buffer (b : β)
  | message (m : Message ρ)
  deriving DecidableEq, Repr

inductive Arguments (ρ β : Type) where
  /-- `null, data, null` -/
  | value (b : β)
  | fields (r : ρ)
  /-- the fields of a buffer -/
  | undefined
  deriving DecidableEq, Repr

structure Call (ρ β : Type) where
  topic : Option String
  arguments : Arguments ρ β
  deriving DecidableEq, Repr

inductive Outcome where
  | accepted
  | queueFull
  | failed
  deriving DecidableEq, Repr

structure Config where
  objectMode : Bool
  topicName : Option String
  deriving DecidableEq, Repr

variable {ρ β : Type}

/-- `!topic || typeof topic !== 'string'` does not hold. -/
def validTopic : Option String → Bool
  | some t => t ≠ ""
  | none => false

/-- `Producer.prototype.produce`, which throws for a topic that is no text whatever librdkafka would answer. -/
def produce (call : Call ρ β) (answer : Outcome) : Outcome :=
  if validTopic call.topic then answer else .failed

inductive Event (ρ β : Type) where
  | accepted (call : Call ρ β)
  | callback (id : Nat) (err : Bool)
  deriving DecidableEq, Repr

inductive Phase (ρ β : Type) where
  | idle
  /-- `this.producer.once('ready', ..)` -/
  | waitingProducer (id : Nat) (chunk : Chunk ρ β)
  /-- `this.once('ready', ..)` on the stream, which never emits it -/
  | waitingStream (id : Nat) (chunks : List (Chunk ρ β))
  | retryWrite (id : Nat) (chunk : Chunk ρ β)
  | retryWritev (id : Nat) (rest : List (Chunk ρ β))
  /-- the callback is with `setImmediate` -/
  | immediate (id : Nat) (err : Bool)
  /-- an `error` was emitted in the place of the callback -/
  | dropped
  | errored
  deriving DecidableEq, Repr

/-- `calls` are the chunks of each call of Node, `events` what was accepted and called back. -/
structure State (ρ β : Type) where
  isConnected : Bool
  readyEmitted : Bool
  phase : Phase ρ β
  calls : List (List (Chunk ρ β))
  attempts : Nat
  events : List (Event ρ β)
  deriving DecidableEq, Repr

namespace State

def called (s : State ρ β) (id : Nat) (err : Bool) : State ρ β :=
  { s with
    events := s.events ++ [.callback id err]
    phase := if err then .errored else .idle }

end State

section Writes

variable (cfg : Config) (σ : Nat → Outcome)

/-- The `try` of `_write_buffer` and `_write_message`, for the call they make. -/
def attempt (id : Nat) (chunk : Chunk ρ β) (call : Call ρ β) (s : State ρ β) : State ρ β :=
  match produce call (σ s.attempts) with
  | .accepted =>
    { s with attempts := s.attempts + 1, events := s.events ++ [.accepted call], phase := .immediate id false }
  | .queueFull => { s with attempts := s.attempts + 1, phase := .retryWrite id chunk }
  | .failed => { s with attempts := s.attempts + 1, phase := .immediate id true }

def writeBuffer (id : Nat) (data : Chunk ρ β) (s : State ρ β) : State ρ β :=
  match data with
  | .message _ => { s with phase := .dropped }
  | .buffer b =>
    if ¬ s.isConnected then { s with phase := .waitingProducer id data }
    else attempt σ id data ⟨cfg.topicName, .value b⟩ s

/-- The call that `_write_message` makes: a buffer has none of the fields. -/
def messageCall : Chunk ρ β → Call ρ β
  | .message m => ⟨m.topic, .fields m.fields⟩
  | .buffer _ => ⟨none, .undefined⟩

def writeMessage (id : Nat) (message : Chunk ρ β) (s : State ρ β) : State ρ β :=
  if ¬ s.isConnected then { s with phase := .waitingProducer id message }
  else attempt σ id message (messageCall message) s

def write (id : Nat) (chunk : Chunk ρ β) (s : State ρ β) : State ρ β :=
  if cfg.objectMode then writeMessage σ id chunk s else writeBuffer cfg σ id chunk s

/-- The call that `writev` makes for a chunk. -/
def chunkCall : Chunk ρ β → Call ρ β
  | .buffer b => ⟨cfg.topicName, .value b⟩
  | .message m => ⟨m.topic, .fields m.fields⟩

def writevLoop (id length : Nat) (doneCount : Nat) (s : State ρ β) : List (Chunk ρ β) → State ρ β
  | [] => s
  | chunk :: rest =>
    match produce (chunkCall cfg chunk) (σ s.attempts) with
    | .accepted =>
      let s₁ := { s with attempts := s.attempts + 1, events := s.events ++ [.accepted (chunkCall cfg chunk)] }
      -- `maybeDone`
      if doneCount + 1 = length then writevLoop id length (doneCount + 1) (s₁.called id false) rest
      else writevLoop id length (doneCount + 1) s₁ rest
    | .queueFull => { s with attempts := s.attempts + 1, phase := .retryWritev id (chunk :: rest) }
    | .failed => { s with attempts := s.attempts + 1 }.called id true

def writevChunks (id : Nat) (chunks : List (Chunk ρ β)) (s : State ρ β) : State ρ β :=
  writevLoop cfg σ id chunks.length 0 s chunks

def writev (id : Nat) (chunks : List (Chunk ρ β)) (s : State ρ β) : State ρ β :=
  if ¬ s.isConnected then { s with phase := .waitingStream id chunks } else writevChunks cfg σ id chunks s

end Writes

inductive Label (ρ β : Type) where
  | write (chunk : Chunk ρ β)
  | writev (chunks : List (Chunk ρ β))
  /-- the native connection is there, before the metadata -/
  | connected
  | ready
  | timer
  | immediate

/-- Node checks the chunks of a stream that is not in object mode itself. -/
def allowed (cfg : Config) : Chunk ρ β → Bool
  | .buffer _ => true
  | .message _ => cfg.objectMode

def step (cfg : Config) (σ : Nat → Outcome) (s : State ρ β) : Label ρ β → Option (State ρ β)
  | .write chunk =>
    match s.phase with
    | .idle =>
      if allowed cfg chunk then some (write cfg σ s.calls.length chunk { s with calls := s.calls ++ [[chunk]] })
      else none
    | _ => none
  | .writev chunks =>
    match s.phase with
    | .idle =>
      if chunks ≠ [] ∧ chunks.all (allowed cfg) then
        some (writev cfg σ s.calls.length chunks { s with calls := s.calls ++ [chunks] })
      else none
    | _ => none
  | .connected => some { s with isConnected := true }
  | .ready =>
    match s.phase with
    | .waitingProducer id chunk => some (write cfg σ id chunk { s with isConnected := true, readyEmitted := true })
    | _ => some { s with isConnected := true, readyEmitted := true }
  | .timer =>
    match s.phase with
    | .retryWrite id chunk => some (write cfg σ id chunk s)
    | .retryWritev id rest => some (writevChunks cfg σ id rest s)
    | _ => none
  | .immediate =>
    match s.phase with
    | .immediate id err => some (s.called id err)
    | _ => none

def lts (ρ β : Type) (cfg : Config) (σ : Nat → Outcome) (isConnected : Bool) : Lts (State ρ β) (Label ρ β) where
  init := ⟨isConnected, isConnected, .idle, [], 0, []⟩
  step := step cfg σ

/-! ## What does not depend on the split -/

/-- The accepted calls for the chunks: one for each, in order, up to the first error that is not a full queue. -/
def expected (cfg : Config) : List (Chunk ρ β) → List Outcome → List (Call ρ β)
  | [], _ => []
  | _ :: _, [] => []
  | chunk :: rest, answer :: answers =>
    match produce (chunkCall cfg chunk) answer with
    | .accepted => chunkCall cfg chunk :: expected cfg rest answers
    | .queueFull => expected cfg (chunk :: rest) answers
    | .failed => []

/-- How the chunks of one call end, with the answers left: with an error, without one, or not yet. -/
def verdict (cfg : Config) : List (Chunk ρ β) → List Outcome → Option Bool × List Outcome
  | [], answers => (some false, answers)
  | _ :: _, [] => (none, [])
  | chunk :: rest, answer :: answers =>
    match produce (chunkCall cfg chunk) answer with
    | .accepted => verdict cfg rest answers
    | .queueFull => verdict cfg (chunk :: rest) answers
    | .failed => (some true, answers)

def owedCallbacks (cfg : Config) (id : Nat) : List (List (Chunk ρ β)) → List Outcome → List (Nat × Bool)
  | [], _ => []
  | chunks :: calls, answers =>
    match verdict cfg chunks answers with
    | (some false, rest) => (id, false) :: owedCallbacks cfg (id + 1) calls rest
    | (some true, _) => [(id, true)]
    | (none, _) => []

def Event.accepted? : Event ρ β → Option (Call ρ β)
  | .accepted call => some call
  | .callback .. => none

def Event.callback? : Event ρ β → Option (Nat × Bool)
  | .accepted _ => none
  | .callback id err => some (id, err)

/-- The answers of `produce` so far. -/
def State.answers (σ : Nat → Outcome) (s : State ρ β) : List Outcome :=
  (List.range s.attempts).map σ

/-! ## The trace of the calls

The chunks of the calls with a mark at the end of each: what is accepted and
called back for them is one list. -/

inductive Item (ρ β : Type) where
  | chunk (id : Nat) (c : Chunk ρ β)
  | done (id : Nat)

def trace (cfg : Config) : List (Item ρ β) → List Outcome → List (Event ρ β)
  | [], _ => []
  | .done id :: items, answers => .callback id false :: trace cfg items answers
  | .chunk _ _ :: _, [] => []
  | .chunk id c :: items, answer :: answers =>
    match produce (chunkCall cfg c) answer with
    | .accepted => .accepted (chunkCall cfg c) :: trace cfg items answers
    | .queueFull => trace cfg (.chunk id c :: items) answers
    | .failed => [.callback id true]
  termination_by items answers => items.length + answers.length

def itemsOf (id : Nat) (chunks : List (Chunk ρ β)) : List (Item ρ β) :=
  chunks.map (.chunk id) ++ [.done id]

def itemsFrom (id : Nat) : List (List (Chunk ρ β)) → List (Item ρ β)
  | [] => []
  | chunks :: calls => itemsOf id chunks ++ itemsFrom (id + 1) calls

theorem itemsFrom_append (calls : List (List (Chunk ρ β))) (chunks : List (Chunk ρ β)) :
    ∀ id, itemsFrom id (calls ++ [chunks]) = itemsFrom id calls ++ itemsOf (id + calls.length) chunks := by
  induction calls with
  | nil => intro id; simp [itemsFrom]
  | cons cs calls ih => intro id; simp [itemsFrom, ih, Nat.add_assoc, Nat.add_comm 1]

section Owed

variable {cfg : Config} {σ : Nat → Outcome}

/-- The trace of the calls is `events` and what is left to do, whatever comes after. -/
def Owes (cfg : Config) (σ : Nat → Outcome) (calls : List (List (Chunk ρ β))) (attempts : Nat)
    (events : List (Event ρ β)) (rest : List (Item ρ β)) : Prop :=
  ∀ more answers, trace cfg (itemsFrom 0 calls ++ more) ((List.range attempts).map σ ++ answers) =
    events ++ trace cfg (rest ++ more) answers

def Stops (cfg : Config) (σ : Nat → Outcome) (calls : List (List (Chunk ρ β))) (attempts : Nat)
    (events : List (Event ρ β)) : Prop :=
  ∀ more answers, trace cfg (itemsFrom 0 calls ++ more) ((List.range attempts).map σ ++ answers) = events

variable {calls : List (List (Chunk ρ β))} {attempts : Nat} {events : List (Event ρ β)} {rest : List (Item ρ β)}
  {id : Nat} {c : Chunk ρ β}

theorem answers_succ (answers : List Outcome) :
    (List.range (attempts + 1)).map σ ++ answers = (List.range attempts).map σ ++ σ attempts :: answers := by
  simp [List.range_succ]

theorem Owes.accepted (h : Owes cfg σ calls attempts events (.chunk id c :: rest))
    (hp : produce (chunkCall cfg c) (σ attempts) = .accepted) :
    Owes cfg σ calls (attempts + 1) (events ++ [.accepted (chunkCall cfg c)]) rest := by
  intro more answers
  rw [answers_succ, h, List.cons_append, trace, hp]
  simp

theorem Owes.queueFull (h : Owes cfg σ calls attempts events (.chunk id c :: rest))
    (hp : produce (chunkCall cfg c) (σ attempts) = .queueFull) :
    Owes cfg σ calls (attempts + 1) events (.chunk id c :: rest) := by
  intro more answers
  rw [answers_succ, h, List.cons_append, trace, hp]

theorem Owes.failed (h : Owes cfg σ calls attempts events (.chunk id c :: rest))
    (hp : produce (chunkCall cfg c) (σ attempts) = .failed) :
    Stops cfg σ calls (attempts + 1) (events ++ [.callback id true]) := by
  intro more answers
  rw [answers_succ, h, List.cons_append, trace, hp]

theorem Owes.done (h : Owes cfg σ calls attempts events (.done id :: rest)) :
    Owes cfg σ calls attempts (events ++ [.callback id false]) rest := by
  intro more answers
  rw [h, List.cons_append, trace]
  simp

theorem Owes.call (h : Owes cfg σ calls attempts events []) (chunks : List (Chunk ρ β)) :
    Owes cfg σ (calls ++ [chunks]) attempts events (itemsOf calls.length chunks) := by
  intro more answers
  rw [itemsFrom_append, List.append_assoc, h, Nat.zero_add, List.nil_append]

end Owed

/-! ## The invariant -/

/-- The chunks for which `_write` makes the call that `writev` makes, or both throw. -/
def plain (cfg : Config) (c : Chunk ρ β) : Bool :=
  match c with
  | .message _ => cfg.objectMode
  | .buffer _ => !cfg.objectMode || !validTopic cfg.topicName

def busy : Phase ρ β → Bool
  | .idle => false
  | .errored => false
  | _ => true

def PhaseInv (cfg : Config) (σ : Nat → Outcome) (s : State ρ β) : Prop :=
  match s.phase with
  | .idle => Owes cfg σ s.calls s.attempts s.events []
  | .waitingProducer id c =>
    plain cfg c = true ∧ s.readyEmitted = false ∧ Owes cfg σ s.calls s.attempts s.events (itemsOf id [c])
  | .waitingStream _ _ => False
  | .retryWrite id c =>
    plain cfg c = true ∧ s.isConnected = true ∧ Owes cfg σ s.calls s.attempts s.events (itemsOf id [c])
  | .retryWritev id rest => rest ≠ [] ∧ Owes cfg σ s.calls s.attempts s.events (itemsOf id rest)
  | .immediate id false => Owes cfg σ s.calls s.attempts (s.events ++ [.callback id false]) []
  | .immediate id true => Stops cfg σ s.calls s.attempts (s.events ++ [.callback id true])
  | .dropped => False
  | .errored => Stops cfg σ s.calls s.attempts s.events

structure Inv (cfg : Config) (σ : Nat → Outcome) (s : State ρ β) : Prop where
  phase : PhaseInv cfg σ s
  ready : s.readyEmitted = true → s.isConnected = true
  callbacks : (s.events.filterMap Event.callback?).length + (if busy s.phase then 1 else 0) = s.calls.length

@[simp]
theorem callbacks_accepted (call : Call ρ β) : [Event.accepted call].filterMap Event.callback? = [] := rfl

@[simp]
theorem callbacks_callback (id : Nat) (err : Bool) :
    [(Event.callback id err : Event ρ β)].filterMap Event.callback? = [(id, err)] := rfl

section Steps

variable {cfg : Config} {σ : Nat → Outcome} {s : State ρ β} {id : Nat} {c : Chunk ρ β}

theorem inv_called_ok (h : Owes cfg σ s.calls s.attempts s.events [.done id])
    (hr : s.readyEmitted = true → s.isConnected = true)
    (hc : (s.events.filterMap Event.callback?).length + 1 = s.calls.length) : Inv cfg σ (s.called id false) :=
  ⟨h.done, hr, by simpa [State.called, busy] using hc⟩

theorem inv_called_error (h : Stops cfg σ s.calls s.attempts (s.events ++ [.callback id true]))
    (hr : s.readyEmitted = true → s.isConnected = true)
    (hc : (s.events.filterMap Event.callback?).length + 1 = s.calls.length) : Inv cfg σ (s.called id true) :=
  ⟨h, hr, by simpa [State.called, busy] using hc⟩

theorem inv_attempt (hp : plain cfg c = true) (hu : s.isConnected = true)
    (h : Owes cfg σ s.calls s.attempts s.events (itemsOf id [c]))
    (hc : (s.events.filterMap Event.callback?).length + 1 = s.calls.length) :
    Inv cfg σ (attempt σ id c (chunkCall cfg c) s) := by
  unfold attempt
  split
  · rename_i ha
    exact ⟨(h.accepted ha).done, fun _ => hu, by simpa [busy] using hc⟩
  · rename_i ha
    exact ⟨⟨hp, hu, h.queueFull ha⟩, fun _ => hu, by simpa [busy] using hc⟩
  · rename_i ha
    exact ⟨h.failed ha, fun _ => hu, by simpa [busy] using hc⟩

/-- A single write makes the call of the batch, or both calls throw. -/
theorem write_eq (hp : plain cfg c = true) (hu : s.isConnected = true) :
    write cfg σ id c s = attempt σ id c (chunkCall cfg c) s := by
  cases c with
  | message m =>
    have ho : cfg.objectMode = true := hp
    simp [write, ho, writeMessage, hu, messageCall, chunkCall]
  | buffer b =>
    cases ho : cfg.objectMode with
    | false => simp [write, ho, writeBuffer, hu, chunkCall]
    | true =>
      have ht : validTopic cfg.topicName = false := by simpa [plain, ho] using hp
      have hn : validTopic none = false := rfl
      simp [write, ho, writeMessage, hu, attempt, produce, messageCall, chunkCall, ht, hn]

theorem inv_write (hp : plain cfg c = true) (h : Owes cfg σ s.calls s.attempts s.events (itemsOf id [c]))
    (hr : s.readyEmitted = true → s.isConnected = true)
    (hc : (s.events.filterMap Event.callback?).length + 1 = s.calls.length) : Inv cfg σ (write cfg σ id c s) := by
  cases hu : s.isConnected with
  | true => rw [write_eq hp hu]; exact inv_attempt hp hu h hc
  | false =>
    have hw : write cfg σ id c s = { s with phase := .waitingProducer id c } := by
      cases c with
      | message m =>
        have ho : cfg.objectMode = true := hp
        simp [write, ho, writeMessage, hu]
      | buffer b => cases ho : cfg.objectMode <;> simp [write, ho, writeMessage, writeBuffer, hu]
    have hre : s.readyEmitted = false := by
      by_contra hne
      simp [hu] at hr
      exact hne hr
    rw [hw]
    exact ⟨⟨hp, hre, h⟩, hr, by simpa [busy] using hc⟩

theorem inv_writevLoop (length : Nat) (chunks : List (Chunk ρ β)) :
    ∀ (doneCount : Nat) (s : State ρ β), chunks ≠ [] → doneCount + chunks.length = length →
      Owes cfg σ s.calls s.attempts s.events (itemsOf id chunks) → (s.readyEmitted = true → s.isConnected = true) →
      (s.events.filterMap Event.callback?).length + 1 = s.calls.length →
      Inv cfg σ (writevLoop cfg σ id length doneCount s chunks) := by
  induction chunks with
  | nil => intro _ _ hne; exact absurd rfl hne
  | cons c rest ih =>
    intro doneCount s _ hl h hr hc
    unfold writevLoop
    split
    · rename_i ha
      have h' := h.accepted ha
      cases rest with
      | nil =>
        have hd : doneCount + 1 = length := by simpa using hl
        simp only [if_pos hd, writevLoop]
        exact inv_called_ok h' hr (by simpa using hc)
      | cons c' rest =>
        have hd : doneCount + 1 ≠ length := by simp at hl; omega
        simp only [if_neg hd]
        exact ih (doneCount + 1) _ (by simp) (by simp at hl ⊢; omega) h' hr (by simpa using hc)
    · rename_i ha
      exact ⟨⟨by simp, h.queueFull ha⟩, hr, by simpa [busy] using hc⟩
    · rename_i ha
      exact inv_called_error (h.failed ha) hr hc

/-- No batch before the connection, and no single write of a buffer in object mode. -/
def condition (cfg : Config) (s : State ρ β) : Label ρ β → Bool
  | .write c => plain cfg c
  | .writev _ => s.isConnected
  | _ => true

theorem inv_step {s' : State ρ β} {e : Label ρ β} (h : Inv cfg σ s) (he : condition cfg s e = true)
    (hs : step cfg σ s e = some s') : Inv cfg σ s' := by
  obtain ⟨hp, hr, hc⟩ := h
  cases e with
  | write c =>
    simp only [step] at hs
    split at hs
    · rename_i hi
      simp only [PhaseInv, hi] at hp
      split at hs
      · cases hs
        refine inv_write he (hp.call [c]) hr ?_
        simpa [hi, busy] using hc
      · cases hs
    · cases hs
  | writev chunks =>
    simp only [step] at hs
    split at hs
    · rename_i hi
      simp only [PhaseInv, hi] at hp
      split at hs
      · rename_i hne
        have hu : s.isConnected = true := he
        cases hs
        simp only [writev, hu, not_true, if_false, writevChunks]
        refine inv_writevLoop chunks.length chunks 0 _ hne.1 (Nat.zero_add _) (hp.call chunks) (fun _ => rfl) ?_
        simpa [hi, busy] using hc
      · cases hs
    · cases hs
  | connected =>
    cases hs
    refine ⟨?_, fun _ => rfl, hc⟩
    revert hp
    simp only [PhaseInv]
    split <;> simp +contextual
  | ready =>
    simp only [step] at hs
    split at hs
    · rename_i id c hi
      simp only [PhaseInv, hi] at hp
      cases hs
      exact inv_write hp.1 hp.2.2 (fun _ => rfl) (by simpa [hi, busy] using hc)
    · rename_i hne
      cases hs
      refine ⟨?_, fun _ => rfl, hc⟩
      revert hp
      simp only [PhaseInv]
      split <;> simp_all +contextual
  | timer =>
    simp only [step] at hs
    split at hs
    · rename_i id c hi
      simp only [PhaseInv, hi] at hp
      cases hs
      exact inv_write hp.1 hp.2.2 hr (by simpa [hi, busy] using hc)
    · rename_i id rest hi
      simp only [PhaseInv, hi] at hp
      cases hs
      exact inv_writevLoop rest.length rest 0 s hp.1 (Nat.zero_add _) hp.2 hr (by simpa [hi, busy] using hc)
    · cases hs
  | immediate =>
    simp only [step] at hs
    split at hs
    · rename_i id err hi
      simp only [PhaseInv, hi] at hp
      have hc' : (s.events.filterMap Event.callback?).length + 1 = s.calls.length := by simpa [hi, busy] using hc
      cases hs
      cases err with
      | true => exact inv_called_error hp hr hc'
      | false => exact ⟨hp, hr, by simpa [State.called, busy] using hc'⟩
    · cases hs

end Steps

/-! ## Reading the trace -/

def Item.chunk? : Item ρ β → Option (Chunk ρ β)
  | .chunk _ c => some c
  | .done _ => none

theorem accepted_trace (cfg : Config) (items : List (Item ρ β)) (answers : List Outcome) :
    (trace cfg items answers).filterMap Event.accepted? = expected cfg (items.filterMap Item.chunk?) answers := by
  induction items, answers using trace.induct cfg with
  | case1 answers => simp [trace, expected]
  | case2 id items answers ih =>
    simpa [trace, List.filterMap_cons, Event.accepted?, Item.chunk?] using ih
  | case3 => simp [trace, expected, Item.chunk?]
  | case4 id c items answer answers ha ih => simp [trace, expected, Item.chunk?, ha, Event.accepted?, ih]
  | case5 id c items answer answers ha ih => simpa [trace, expected, Item.chunk?, ha] using ih
  | case6 id c items answer answers ha => simp [trace, expected, Item.chunk?, ha, Event.accepted?]

theorem chunks_itemsFrom (calls : List (List (Chunk ρ β))) :
    ∀ id, (itemsFrom id calls).filterMap Item.chunk? = calls.flatten := by
  induction calls with
  | nil => intro id; rfl
  | cons chunks calls ih =>
    intro id
    simp [itemsFrom, itemsOf, ih, List.filterMap_cons, List.filterMap_map, Function.comp_def, Item.chunk?]

theorem callbacks_itemsOf (cfg : Config) (id : Nat) (more : List (Item ρ β)) (chunks : List (Chunk ρ β))
    (answers : List Outcome) :
    (trace cfg (itemsOf id chunks ++ more) answers).filterMap Event.callback? =
      match verdict cfg chunks answers with
      | (some false, rest) => (id, false) :: (trace cfg more rest).filterMap Event.callback?
      | (some true, _) => [(id, true)]
      | (none, _) => [] := by
  induction chunks, answers using verdict.induct cfg with
  | case1 answers => simp [itemsOf, trace, verdict, Event.callback?]
  | case2 => simp [itemsOf, trace, verdict]
  | case3 c rest answer answers ha ih =>
    simpa [itemsOf, trace, verdict, ha, List.filterMap_cons, Event.callback?] using ih
  | case4 c rest answer answers ha ih => simpa [itemsOf, trace, verdict, ha] using ih
  | case5 c rest answer answers ha => simp [itemsOf, trace, verdict, ha]

theorem callbacks_trace (cfg : Config) (calls : List (List (Chunk ρ β))) :
    ∀ (id : Nat) (answers : List Outcome),
      (trace cfg (itemsFrom id calls) answers).filterMap Event.callback? = owedCallbacks cfg id calls answers := by
  induction calls with
  | nil => intro id answers; simp [itemsFrom, trace, owedCallbacks]
  | cons chunks calls ih =>
    intro id answers
    rw [itemsFrom, callbacks_itemsOf, owedCallbacks]
    simp only [ih]

/-- The callback that `setImmediate` is to make. -/
def pending : Phase ρ β → List (Event ρ β)
  | .immediate id err => [.callback id err]
  | _ => []

def waiting : Phase ρ β → Bool
  | .waitingProducer _ _ => true
  | .waitingStream _ _ => true
  | _ => false

theorem Inv.trace_eq {cfg : Config} {σ : Nat → Outcome} {s : State ρ β} (h : Inv cfg σ s) :
    trace cfg (itemsFrom 0 s.calls) (s.answers σ) = s.events ++ pending s.phase := by
  have owes : ∀ {events : List (Event ρ β)} {rest : List (Item ρ β)}, trace cfg rest [] = [] →
      Owes cfg σ s.calls s.attempts events rest → trace cfg (itemsFrom 0 s.calls) (s.answers σ) = events := by
    intro events rest hr ho
    simpa [hr, State.answers] using ho [] []
  have hp := h.phase
  simp only [PhaseInv] at hp
  split at hp
  · rename_i hi
    rw [owes (by simp [trace]) hp, hi]
    exact (List.append_nil _).symm
  · rename_i id c hi
    rw [owes (by simp [trace, itemsOf]) hp.2.2, hi]
    exact (List.append_nil _).symm
  · exact hp.elim
  · rename_i id c hi
    rw [owes (by simp [trace, itemsOf]) hp.2.2, hi]
    exact (List.append_nil _).symm
  · rename_i id rest hi
    obtain ⟨c, rest, rfl⟩ := List.exists_cons_of_ne_nil hp.1
    rw [owes (by simp [trace, itemsOf]) hp.2, hi]
    exact (List.append_nil _).symm
  · rename_i id hi
    rw [owes (by simp [trace]) hp, hi, pending]
  · rename_i id hi
    simpa [hi, pending, State.answers] using hp [] []
  · exact hp.elim
  · rename_i hi
    simpa [hi, pending, State.answers] using hp [] []

theorem inv_init (cfg : Config) (σ : Nat → Outcome) (isConnected : Bool) :
    Inv cfg σ (lts ρ β cfg σ isConnected).init := by
  refine ⟨?_, id, rfl⟩
  intro more answers
  simp [lts, itemsFrom]

/-- Without a batch before the connection and without a single write of a buffer in object mode, what is accepted
depends on the chunks and not on their split into calls, every call is called back once, with an error just when one
of its chunks met one, and nothing waits for `ready` once it was emitted. -/
theorem writes_do_not_depend_on_split {cfg : Config} {σ : Nat → Outcome} {isConnected : Bool}
    {es : List (Label ρ β)} {s : State ρ β}
    (hr : (lts ρ β cfg σ isConnected).RunWhere (fun s e => condition cfg s e = true) es s) :
    s.events.filterMap Event.accepted? = expected cfg s.calls.flatten (s.answers σ) ∧
      (s.events ++ pending s.phase).filterMap Event.callback? = owedCallbacks cfg 0 s.calls (s.answers σ) ∧
      (busy s.phase = false → (s.events.filterMap Event.callback?).length = s.calls.length) ∧
      (s.readyEmitted = true → waiting s.phase = false) := by
  have h : Inv cfg σ s := hr.inv (inv_init cfg σ isConnected) fun _ _ _ hi he hs => inv_step hi he hs
  refine ⟨?_, ?_, fun hb => by simpa [hb] using h.callbacks, fun hre => ?_⟩
  · have hp : (pending s.phase).filterMap Event.accepted? = [] := by
      unfold pending
      split <;> rfl
    rw [← chunks_itemsFrom s.calls 0, ← accepted_trace, h.trace_eq, List.filterMap_append, hp, List.append_nil]
  · rw [← h.trace_eq, callbacks_trace]
  · have hp := h.phase
    simp only [PhaseInv] at hp
    unfold waiting
    split at hp <;> simp_all

def fullOnce : Nat → Outcome
  | 1 => .queueFull
  | _ => .accepted

def orders (n : Nat) : Chunk Nat Nat :=
  .message ⟨some "orders", n⟩

def objects : Config := ⟨true, some "events"⟩

theorem writes_do_not_depend_on_split_orders :
    ∃ s, (lts Nat Nat objects fullOnce false).RunWhere (fun s e => condition objects s e = true)
      [.write (orders 1), .ready, .immediate, .writev [orders 2, orders 3], .timer] s ∧
      s.events.filterMap Event.accepted? = expected objects [orders 1, orders 2, orders 3] (s.answers fullOnce) ∧
      s.events.filterMap Event.callback? = [(0, false), (1, false)] := by
  have hs : ∃ s, (lts Nat Nat objects fullOnce false).exec (fun s e => condition objects s e)
      (lts Nat Nat objects fullOnce false).init
      [.write (orders 1), .ready, .immediate, .writev [orders 2, orders 3], .timer] = some s ∧
      s.calls = [[orders 1], [orders 2, orders 3]] ∧ s.events.filterMap Event.callback? =
        [(0, false), (1, false)] :=
    ⟨_, rfl, rfl, rfl⟩
  obtain ⟨s, hs, hc, hb⟩ := hs
  have hr := Lts.RunWhere.of_exec .nil hs
  refine ⟨s, hr, ?_, hb⟩
  have := (writes_do_not_depend_on_split hr).1
  rwa [hc] at this

/-- A batch that comes before the connection waits for an event that the stream never emits. -/
theorem batch_waits_after_ready :
    ¬ ∀ (cfg : Config) (σ : Nat → Outcome) (isConnected : Bool) (es : List (Label Nat Nat)) (s : State Nat Nat),
      (lts Nat Nat cfg σ isConnected).Run es s →
      s.events.filterMap Event.accepted? = expected cfg s.calls.flatten (s.answers σ) ∧
        (s.events ++ pending s.phase).filterMap Event.callback? = owedCallbacks cfg 0 s.calls (s.answers σ) ∧
        (busy s.phase = false → (s.events.filterMap Event.callback?).length = s.calls.length) ∧
        (s.readyEmitted = true → waiting s.phase = false) := by
  intro h
  have hs : ∃ s, (lts Nat Nat objects fullOnce false).exec (fun _ _ => true)
      (lts Nat Nat objects fullOnce false).init [.writev [orders 1, orders 2], .ready] = some s ∧
      s.readyEmitted = true ∧ waiting s.phase = true := ⟨_, rfl, rfl, rfl⟩
  obtain ⟨s, hs, hready, hw⟩ := hs
  have := (h objects fullOnce false _ s (Lts.Run.of_exec hs)).2.2.2 hready
  rw [hw] at this
  cases this

/-- In object mode a buffer is refused by a single write and accepted in a batch. -/
example :
    ((lts Nat Nat objects (fun _ => .accepted) true).exec (fun _ _ => true)
      (lts Nat Nat objects (fun _ => .accepted) true).init [.write (.buffer 7), .immediate]).map State.events =
        some [.callback 0 true] ∧
      ((lts Nat Nat objects (fun _ => .accepted) true).exec (fun _ _ => true)
        (lts Nat Nat objects (fun _ => .accepted) true).init [.writev [.buffer 7]]).map State.events =
        some [.accepted ⟨some "events", .value 7⟩, .callback 0 false] :=
  ⟨rfl, rfl⟩

end ProducerStream
end ConfluentKafka
