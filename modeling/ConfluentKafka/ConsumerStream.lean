import ConfluentKafka.Lts

/-!
# The consumer stream

`KafkaConsumerStream` is a `Readable` over `consume`. Its `_read` is
`_read_message` in object mode and `_read_buffer` otherwise: the two differ
in what they put into the inner queue. A step is what runs without a break:
a `_read` of Node, the callback of `consume`, a retry, or the `ready` of the
consumer. Node calls `_read` again only after a push, and not after the end.
The batch mode is off, and nobody unsubscribes or destroys the stream.
-/

namespace ConfluentKafka
namespace ConsumerStream

structure Message (α β : Type) where
  value : Option β
  rest : α
  deriving DecidableEq, Repr

inductive Chunk (α β : Type) where
  | message (m : Message α β)
  | buffer (b : β)
  | null
  deriving DecidableEq, Repr

structure Config where
  objectMode : Bool
  fetchSize : Nat
  /-- Without a listener `emit('error')` throws. -/
  errorListener : Bool

inductive Phase where
  | idle
  | waitingReady (size : Nat)
  | consuming (size fetchSize : Nat)
  | retrying (size : Nat)
  | ended
  | thrown
  deriving DecidableEq, Repr

/-- `pushed` and `fetched` record what was given to `push` and what `consume` called back with. -/
structure State (α β : Type) where
  messages : List (Chunk α β)
  isConnected : Bool
  phase : Phase
  pushed : List (Chunk α β)
  fetched : List (Message α β)
  deriving DecidableEq, Repr

variable {α β ε : Type}

namespace State

def push (s : State α β) (c : Chunk α β) : State α β :=
  { s with
    pushed := s.pushed ++ [c]
    phase := match c with
      | .null => .ended
      | _ => .idle }

/-- `this.push(this.messages.shift())`. -/
def pushShifted (s : State α β) : State α β :=
  match s.messages with
  | c :: rest => { s with messages := rest }.push c
  -- `shift` of an empty array is undefined, which Node takes for the end
  | [] => s.push .null

end State

def read (cfg : Config) (size : Nat) (s : State α β) : State α β :=
  if s.messages ≠ [] then s.pushShifted
  else if ¬ s.isConnected then { s with phase := .waitingReady size }
  else { s with phase := .consuming size (if size ≥ cfg.fetchSize then cfg.fetchSize else size) }

/-- The callback of `consume`, for what one copy of the code queues of a message. -/
def onread (queued : Message α β → Chunk α β) (cfg : Config) (size : Nat) (s : State α β) :
    Except ε (List (Message α β)) → State α β
  | .error _ => { s with phase := if cfg.errorListener then .retrying size else .thrown }
  | .ok [] => { s with phase := .retrying size }
  | .ok (m :: ms) =>
    { s with
      messages := s.messages ++ (m :: ms).map queued
      fetched := s.fetched ++ m :: ms }.pushShifted

def queuedMessage (m : Message α β) : Chunk α β :=
  .message m

def queuedValue (m : Message α β) : Chunk α β :=
  match m.value with
  | some b => .buffer b
  | none => .null

def onreadMessage (cfg : Config) (size : Nat) (s : State α β) (r : Except ε (List (Message α β))) : State α β :=
  onread queuedMessage cfg size s r

def onreadBuffer (cfg : Config) (size : Nat) (s : State α β) (r : Except ε (List (Message α β))) : State α β :=
  onread queuedValue cfg size s r

inductive Label (α β ε : Type) where
  | read (size : Nat)
  | consumed (result : Except ε (List (Message α β)))
  | retry
  | ready
  | connection (up : Bool)

def step (cfg : Config) (s : State α β) : Label α β ε → Option (State α β)
  | .read size => if s.phase = .idle then some (read cfg size s) else none
  | .consumed result =>
    match s.phase with
    | .consuming size _ =>
      some (if cfg.objectMode then onreadMessage cfg size s result else onreadBuffer cfg size s result)
    | _ => none
  | .retry =>
    match s.phase with
    | .retrying size => some (read cfg size s)
    | _ => none
  | .ready =>
    match s.phase with
    | .waitingReady size => some (read cfg size { s with isConnected := true })
    | _ => some { s with isConnected := true }
  | .connection up => some { s with isConnected := up }

def lts (α β ε : Type) (cfg : Config) (isConnected : Bool) : Lts (State α β) (Label α β ε) where
  init := ⟨[], isConnected, .idle, [], []⟩
  step := step cfg

/-! ## What the stream owes -/

/-- The messages in object mode, their values that are not null in buffer mode. -/
def owed (cfg : Config) (ms : List (Message α β)) : List (Chunk α β) :=
  if cfg.objectMode then ms.map .message else ms.filterMap fun m => m.value.map .buffer

def noTombstone (cfg : Config) : Label α β ε → Bool
  | .consumed (.ok ms) => cfg.objectMode || ms.all fun m => m.value.isSome
  | _ => true

structure Inv (cfg : Config) (s : State α β) : Prop where
  owed : s.pushed ++ s.messages = owed cfg s.fetched
  notNull : Chunk.null ∉ s.pushed ++ s.messages
  -- the queue is refilled only when it is empty
  empty : s.phase ≠ .idle → s.messages = []
  running : s.phase ≠ .ended

theorem inv_init (cfg : Config) (isConnected : Bool) : Inv cfg (lts α β ε cfg isConnected).init :=
  ⟨by simp [lts, ConsumerStream.owed], by simp [lts], fun _ => rfl, by simp [lts]⟩

theorem inv_pushShifted {cfg : Config} {s : State α β} (hne : s.messages ≠ [])
    (howed : s.pushed ++ s.messages = owed cfg s.fetched) (hnull : Chunk.null ∉ s.pushed ++ s.messages) :
    Inv cfg s.pushShifted ∧ s.pushShifted.phase = .idle := by
  obtain ⟨c, rest, hc⟩ := List.exists_cons_of_ne_nil hne
  have hidle : s.pushShifted.phase = .idle := by
    have : c ≠ .null := fun h => hnull (by simp [hc, h])
    simp only [State.pushShifted, hc, State.push]
  refine ⟨⟨?_, ?_, fun h => absurd hidle h, by simp [hidle]⟩, hidle⟩
  · simpa [State.pushShifted, hc, State.push] using howed
  · simpa [State.pushShifted, hc, State.push] using hnull

theorem inv_read {cfg : Config} {s : State α β} (size : Nat) (h : Inv cfg s) : Inv cfg (read cfg size s) := by
  unfold read
  split
  · rename_i hne
    exact (inv_pushShifted hne h.owed h.notNull).1
  · rename_i hnil
    split <;> exact ⟨h.owed, h.notNull, fun _ => not_not.mp hnil, by simp⟩

theorem owed_append (cfg : Config) (ms ms' : List (Message α β)) :
    owed cfg (ms ++ ms') = owed cfg ms ++ owed cfg ms' := by
  unfold owed
  split <;> simp

/-- What the mode's copy of the code queues is what is owed, up to tombstones. -/
theorem map_queued {cfg : Config} {ms : List (Message α β)}
    (h : noTombstone (ε := ε) cfg (.consumed (.ok ms)) = true) :
    ms.map (if cfg.objectMode then queuedMessage else queuedValue) = owed cfg ms ∧
      Chunk.null ∉ owed cfg ms := by
  unfold owed
  split
  · exact ⟨rfl, by simp⟩
  · rename_i ho
    simp only [noTombstone, ho, Bool.false_or, List.all_eq_true] at h
    refine ⟨?_, by simp⟩
    induction ms with
    | nil => rfl
    | cons m ms ih =>
      obtain ⟨b, hb⟩ := Option.isSome_iff_exists.mp (h m (List.mem_cons_self ..))
      have := ih fun m' h' => h m' (List.mem_cons_of_mem _ h')
      simp [queuedValue, hb, this]

theorem inv_onread {cfg : Config} {s : State α β} (size : Nat) (h : Inv cfg s) (hs : s.phase ≠ .idle)
    {r : Except ε (List (Message α β))} (hr : noTombstone cfg (.consumed r) = true) :
    Inv cfg (onread (if cfg.objectMode then queuedMessage else queuedValue) cfg size s r) := by
  have hempty := h.empty hs
  match r with
  | .error _ => exact ⟨h.owed, h.notNull, fun _ => hempty, by simp only [onread]; split <;> simp⟩
  | .ok [] => exact ⟨h.owed, h.notNull, fun _ => hempty, by simp [onread]⟩
  | .ok (m :: ms) =>
    obtain ⟨hq, hn⟩ := map_queued hr
    have howed : s.pushed = owed cfg s.fetched := by simpa [hempty] using h.owed
    refine (inv_pushShifted ?_ ?_ ?_).1
    · simp
    · simp only [hempty, List.nil_append, hq, howed, owed_append]
    · simp only [hempty, List.nil_append, hq, List.mem_append, not_or]
      exact ⟨fun hm => h.notNull (List.mem_append_left _ hm), hn⟩

theorem inv_step {cfg : Config} {s s' : State α β} {e : Label α β ε} (h : Inv cfg s) (he : noTombstone cfg e = true)
    (hs : step cfg s e = some s') : Inv cfg s' := by
  cases e with
  | read size =>
    simp only [step] at hs
    split at hs
    · cases hs; exact inv_read size h
    · cases hs
  | consumed r =>
    simp only [step] at hs
    split at hs
    · rename_i size n hp
      have := inv_onread size h (by simp [hp]) he
      cases hs
      cases ho : cfg.objectMode with
      | true => simpa [ho, onreadMessage] using this
      | false => simpa [ho, onreadBuffer] using this
    · cases hs
  | retry =>
    simp only [step] at hs
    split at hs
    · cases hs; exact inv_read _ h
    · cases hs
  | ready =>
    have hup : Inv cfg { s with isConnected := true } := ⟨h.owed, h.notNull, h.empty, h.running⟩
    simp only [step] at hs
    split at hs
    · cases hs; exact inv_read _ hup
    · cases hs; exact hup
  | connection up =>
    cases hs
    exact ⟨h.owed, h.notNull, h.empty, h.running⟩

theorem exec_reads {cfg : Config} {isConnected : Bool} (size : Nat) :
    ∀ (n : Nat) (s : State α β), s.messages.length = n → Inv cfg s → s.phase = .idle →
      ∃ s', (lts α β ε cfg isConnected).exec (fun _ _ => true) s (List.replicate n (.read size)) = some s' ∧
        s'.pushed = owed cfg s.fetched ∧ s'.fetched = s.fetched := by
  intro n
  induction n with
  | zero =>
    intro s hn h _
    have := List.length_eq_zero_iff.mp hn
    exact ⟨s, rfl, by simpa [this] using h.owed, rfl⟩
  | succ n ih =>
    intro s hn h hi
    have hne : s.messages ≠ [] := by rintro h0; simp [h0] at hn
    obtain ⟨h1, hi1⟩ := inv_pushShifted hne h.owed h.notNull
    have hr : read cfg size s = s.pushShifted := by simp [read, hne]
    obtain ⟨c, rest, hc⟩ := List.exists_cons_of_ne_nil hne
    have hl : s.pushShifted.messages.length = n := by
      simp only [State.pushShifted, hc, State.push]
      simpa [hc] using hn
    have hf : s.pushShifted.fetched = s.fetched := by simp [State.pushShifted, hc, State.push]
    obtain ⟨s', he, hp, hf'⟩ := ih s.pushShifted hl h1 hi1
    refine ⟨s', ?_, by rw [hp, hf], by rw [hf', hf]⟩
    simp only [List.replicate_succ, Lts.exec, if_true, lts, step, if_pos hi, hr, Option.bind_some]
    exact he

/-- Without tombstones in buffer mode nothing is lost: what was fetched has been pushed, once each and in order, or
waits in the queue for the next reads, and the end is never pushed. -/
theorem pushes_fetched {cfg : Config} {isConnected : Bool} {es : List (Label α β ε)} {s : State α β}
    (hr : (lts α β ε cfg isConnected).RunWhere (fun _ e => noTombstone cfg e = true) es s) :
    s.pushed ++ s.messages = owed cfg s.fetched ∧ Chunk.null ∉ s.pushed ∧ s.phase ≠ .ended ∧
      (s.phase ≠ .idle → s.pushed = owed cfg s.fetched) ∧
      (s.phase = .idle → ∀ size, ∃ s',
        (lts α β ε cfg isConnected).exec (fun _ _ => true) s (List.replicate s.messages.length (.read size)) =
          some s' ∧
          s'.pushed = owed cfg s.fetched ∧ s'.fetched = s.fetched) := by
  have h : Inv cfg s := hr.inv (inv_init cfg isConnected) fun _ _ _ hi he hs => inv_step hi he hs
  refine ⟨h.owed, fun hm => h.notNull (List.mem_append_left _ hm), h.running, fun hp => ?_, fun hp size => ?_⟩
  · simpa [h.empty hp] using h.owed
  · exact exec_reads size _ s rfl h hp

def bufferMode : Config := ⟨false, 10, true⟩

theorem pushes_fetched_batch :
    ∃ s, (lts Unit Nat Unit bufferMode true).RunWhere (fun _ e => noTombstone bufferMode e = true)
      [.read 1, .consumed (.error ()), .retry, .consumed (.ok [⟨some 7, ()⟩, ⟨some 8, ()⟩]), .read 1] s ∧
      s.pushed ++ s.messages = owed bufferMode s.fetched ∧ s.pushed = [.buffer 7, .buffer 8] := by
  have hs : (lts Unit Nat Unit bufferMode true).exec (fun _ e => noTombstone bufferMode e)
      (lts Unit Nat Unit bufferMode true).init
      [.read 1, .consumed (.error ()), .retry, .consumed (.ok [⟨some 7, ()⟩, ⟨some 8, ()⟩]), .read 1] =
      some ⟨[], true, .idle, [.buffer 7, .buffer 8], [⟨some 7, ()⟩, ⟨some 8, ()⟩]⟩ := rfl
  have hr := Lts.RunWhere.of_exec .nil hs
  exact ⟨_, hr, (pushes_fetched hr).1, rfl⟩

/-- In buffer mode the null value of a tombstone ends the stream, with a fetched value left in the queue. -/
theorem pushes_end_at_tombstone :
    ¬ ∀ (es : List (Label Unit Nat Unit)) (s : State Unit Nat), (lts Unit Nat Unit bufferMode true).Run es s →
      s.pushed ++ s.messages = owed bufferMode s.fetched ∧ Chunk.null ∉ s.pushed := by
  intro h
  have hs : (lts Unit Nat Unit bufferMode true).exec (fun _ _ => true) (lts Unit Nat Unit bufferMode true).init
      [.read 1, .consumed (.ok [⟨none, ()⟩, ⟨some 8, ()⟩])] =
      some ⟨[.buffer 8], true, .ended, [.null], [⟨none, ()⟩, ⟨some 8, ()⟩]⟩ := rfl
  exact (h _ _ (Lts.Run.of_exec hs)).2 (List.mem_singleton_self _)

end ConsumerStream
end ConfluentKafka
