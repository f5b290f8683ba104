import Mathlib.Data.List.Basic
import Mathlib.Algebra.GroupWithZero.Nat

/-!
# Consuming a number of messages

`consume(n, cb)` crosses the native boundary once. The worker
`KafkaConsumerConsumeNum` collects messages and partition-EOF markers in one
vector, hands them over as two arrays, and `_consumeNum` merges these back
into events. `Execute` runs over the outcomes of the native `Consume`; where
these run out the worker is still waiting for one.
-/

namespace ConfluentKafka
namespace ConsumeNum

abbrev ErrorCode := Int

def errNoError : ErrorCode := 0

def errPartitionEof : ErrorCode := -191

def errTimedOut : ErrorCode := -185

def errTimedOutQueue : ErrorCode := -166

/-- `RdKafka::Message`; `payload` is all that `ToV8Object` reads besides. -/
structure Message (α : Type) where
  err : ErrorCode
  topic : String
  partition : Int
  offset : Int
  payload : α
  deriving DecidableEq, Repr

/-- The baton of one `m_consumer->Consume`: a message, or the error of the call. -/
inductive Outcome (α : Type) where
  | data (message : Message α)
  | failed (err : ErrorCode)
  deriving DecidableEq, Repr

variable {α : Type}

/-! ## The native worker -/

structure Worker (α : Type) where
  messages : List (Message α) := []
  eofEventCount : Nat := 0
  looping : Bool := true
  timeoutMs : Int
  /-- The baton that `SetErrorBaton` keeps. -/
  baton : Option ErrorCode := none

/-- The body of the loop of `Execute`. -/
def Worker.take (timeoutOnlyForFirstMessage : Bool) (w : Worker α) : Outcome α → Worker α
  | .data message =>
    if message.err = errPartitionEof then
      { w with
        timeoutMs := if w.messages.length > w.eofEventCount then 1 else w.timeoutMs
        messages := w.messages ++ [message]
        eofEventCount := w.eofEventCount + 1 }
    else if message.err = errTimedOut ∨ message.err = errTimedOutQueue then { w with looping := false }
    else if message.err = errNoError then
      { w with
        messages := w.messages ++ [message]
        timeoutMs := if timeoutOnlyForFirstMessage then 1 else w.timeoutMs }
    else
      { w with
        baton := if w.messages.length = w.eofEventCount then some message.err else w.baton
        looping := false }
  | .failed err =>
    { w with
      baton := if w.messages.length = w.eofEventCount then some err else w.baton
      looping := false }

def execute (max : Nat) (first : Bool) (w : Worker α) : List (Outcome α) → Option (Worker α × List (Outcome α))
  | [] => if w.messages.length - w.eofEventCount < max ∧ w.looping then none else some (w, [])
  | o :: os =>
    if w.messages.length - w.eofEventCount < max ∧ w.looping then execute max first (w.take first o) os
    else some (w, o :: os)

structure EofEvent where
  topic : String
  offset : Int
  partition : Int
  messageIndex : Int
  deriving DecidableEq, Repr

/-- The loop of `HandleOKCallback`, from `returnArrayIndex` on: the messages and the EOF events. -/
def handleOk (returnArrayIndex : Int) : List (Message α) → List (Message α) × List EofEvent
  | [] => ([], [])
  | message :: rest =>
    if message.err = errNoError then
      let (returnArray, eofEvents) := handleOk (returnArrayIndex + 1) rest
      (message :: returnArray, eofEvents)
    else if message.err = errPartitionEof then
      let (returnArray, eofEvents) := handleOk returnArrayIndex rest
      (returnArray, ⟨message.topic, message.offset, message.partition, returnArrayIndex⟩ :: eofEvents)
    else handleOk returnArrayIndex rest

def Worker.callback (w : Worker α) : Except ErrorCode (List (Message α) × List EofEvent) :=
  match w.baton with
  | some err => .error err
  | none => .ok (handleOk (-1) w.messages)

/-! ## The JavaScript side -/

inductive Event (α : Type) where
  | data (message : Message α)
  | partitionEof (topic : String) (offset partition : Int)
  | cb (result : Except ErrorCode (List (Message α)))

def EofEvent.emitted (e : EofEvent) : Event α :=
  .partitionEof e.topic e.offset e.partition

/-- The EOF events of one index, and those from the new `currentEofEventsIndex` on. -/
def emitEofEventsFor (messageIndex : Int) : List EofEvent → List (Event α) × List EofEvent
  | [] => ([], [])
  | e :: rest =>
    if e.messageIndex = messageIndex then
      let (out, rest') := emitEofEventsFor messageIndex rest
      (e.emitted :: out, rest')
    else ([], e :: rest)

def emitMessages (i : Int) (eofEvents : List EofEvent) : List (Message α) → List (Event α) × List EofEvent
  | [] => ([], eofEvents)
  | message :: rest =>
    let (eofs, eofEvents₁) := emitEofEventsFor i eofEvents
    let (out, eofEvents₂) := emitMessages (i + 1) eofEvents₁ rest
    (.data message :: eofs ++ out, eofEvents₂)

def consumeNumCallback : Except ErrorCode (List (Message α) × List EofEvent) → List (Event α)
  | .error err => [.cb (.error err)]
  | .ok (messages, eofEvents) =>
    let (before, eofEvents₁) := emitEofEventsFor (-1) eofEvents
    let (during, eofEvents₂) := emitMessages 0 eofEvents₁ messages
    let (after, _) := emitEofEventsFor messages.length eofEvents₂
    before ++ during ++ after ++ [.cb (.ok messages)]

/-- `_consumeNum(timeoutMs, numMessages, cb)`: the events, with the outcomes that were not taken. -/
def consumeNum (timeoutMs : Int) (numMessages : Nat) (first : Bool) (os : List (Outcome α)) :
    Option (List (Event α) × List (Outcome α)) :=
  -- the native method reads the number with `To<uint32_t>`
  (execute (numMessages % 2 ^ 32) first { timeoutMs := timeoutMs } os).map fun (w, rest) =>
    (consumeNumCallback w.callback, rest)

/-! ## What a call is for -/

inductive Kind where
  | message
  | eof
  | timeout
  | error (err : ErrorCode)
  deriving DecidableEq

def Outcome.kind : Outcome α → Kind
  | .failed err => .error err
  | .data message =>
    if message.err = errNoError then .message
    else if message.err = errPartitionEof then .eof
    else if message.err = errTimedOut ∨ message.err = errTimedOutQueue then .timeout
    else .error message.err

/-- The outcomes up to the `n`-th message, or the first timeout or error; none when they do not reach so far. -/
def taken : Nat → List (Outcome α) → Option (List (Outcome α))
  | 0, _ => some []
  | _ + 1, [] => none
  | n + 1, o :: os =>
    match o.kind with
    | .message => (taken n os).map (o :: ·)
    | .eof => (taken (n + 1) os).map (o :: ·)
    | .timeout => some [o]
    | .error _ => some [o]

def Outcome.event? (o : Outcome α) : Option (Event α) :=
  match o, o.kind with
  | .data message, .message => some (.data message)
  | .data message, .eof => some (.partitionEof message.topic message.offset message.partition)
  | _, _ => none

def Outcome.message? (o : Outcome α) : Option (Message α) :=
  match o, o.kind with
  | .data message, .message => some message
  | _, _ => none

def Outcome.error? (o : Outcome α) : Option ErrorCode :=
  match o.kind with
  | .error err => some err
  | _ => none

def result (os : List (Outcome α)) : Except ErrorCode (List (Message α)) :=
  match os.filterMap Outcome.message?, os.findSome? Outcome.error? with
  | [], some err => .error err
  | messages, _ => .ok messages

def expected (n : Nat) (os : List (Outcome α)) : Option (List (Event α) × List (Outcome α)) :=
  (taken n os).map fun ts => (ts.filterMap Outcome.event? ++ [.cb (result ts)], os.drop ts.length)

/-! ## Splitting and merging -/

def Outcome.kept? (o : Outcome α) : Option (Message α) :=
  match o, o.kind with
  | .data message, .message => some message
  | .data message, .eof => some message
  | _, _ => none

theorem kind_message {o : Outcome α} (h : o.kind = .message) : ∃ m, o = .data m ∧ m.err = errNoError := by
  cases o with
  | failed err => cases h
  | data m =>
    refine ⟨m, rfl, ?_⟩
    simp only [Outcome.kind] at h
    split at h
    · assumption
    · split at h
      · cases h
      · split at h <;> cases h

theorem kind_eof {o : Outcome α} (h : o.kind = .eof) : ∃ m, o = .data m ∧ m.err = errPartitionEof := by
  cases o with
  | failed err => cases h
  | data m =>
    refine ⟨m, rfl, ?_⟩
    simp only [Outcome.kind] at h
    split at h
    · cases h
    · split at h
      · assumption
      · split at h <;> cases h

theorem index_le (ms : List (Message α)) :
    ∀ {i : Int} {e : EofEvent}, e ∈ (handleOk i ms).2 → i ≤ e.messageIndex := by
  induction ms with
  | nil => intro i e h; cases h
  | cons m ms ih =>
    intro i e h
    simp only [handleOk] at h
    split at h
    · have := ih h
      omega
    · split at h
      · rcases List.mem_cons.mp h with rfl | h
        · exact Int.le_refl i
        · exact ih h
      · exact ih h

theorem emitEofEventsFor_of_ne {i : Int} {es : List EofEvent} (h : ∀ e ∈ es, e.messageIndex ≠ i) :
    emitEofEventsFor (α := α) i es = ([], es) := by
  cases es with
  | nil => rfl
  | cons e es => simp [emitEofEventsFor, h e (List.mem_cons_self ..)]

def merged (i : Int) (arrays : List (Message α) × List EofEvent) : List (Event α) × List EofEvent :=
  let (before, eofEvents) := emitEofEventsFor i arrays.2
  let (during, rest) := emitMessages (i + 1) eofEvents arrays.1
  (before ++ during, rest)

theorem merged_handleOk (ts : List (Outcome α)) :
    ∀ i, merged i (handleOk i (ts.filterMap Outcome.kept?)) = (ts.filterMap Outcome.event?, []) := by
  induction ts with
  | nil => intro i; rfl
  | cons o ts ih =>
    intro i
    rcases hk : o.kind with _ | _ | _ | err
    · obtain ⟨m, rfl, hm⟩ := kind_message hk
      have hne : ∀ e ∈ (handleOk (i + 1) (ts.filterMap Outcome.kept?)).2, e.messageIndex ≠ i := by
        intro e he
        have := index_le _ he
        omega
      have := ih (i + 1)
      simp only [merged] at this
      simp only [List.filterMap_cons, Outcome.kept?, Outcome.event?, hk, handleOk, hm, if_true, merged,
        emitEofEventsFor_of_ne hne, emitMessages, List.nil_append, List.cons_append, Prod.mk.injEq, List.cons.injEq,
        true_and]
      exact Prod.mk.inj this
    · obtain ⟨m, rfl, hm⟩ := kind_eof hk
      have := ih i
      simp only [merged] at this
      have hne : errPartitionEof ≠ errNoError := by decide
      simp only [List.filterMap_cons, Outcome.kept?, Outcome.event?, hk, handleOk, hm, if_true, if_neg hne, merged,
        emitEofEventsFor, EofEvent.emitted, List.cons_append, Prod.mk.injEq, List.cons.injEq, true_and]
      exact Prod.mk.inj this
    · have h1 : o.kept? = none := by cases o <;> simp [Outcome.kept?, hk]
      have h2 : o.event? = none := by cases o <;> simp [Outcome.event?, hk]
      rw [List.filterMap_cons_none h1, List.filterMap_cons_none h2, ih]
    · have h1 : o.kept? = none := by cases o <;> simp [Outcome.kept?, hk]
      have h2 : o.event? = none := by cases o <;> simp [Outcome.event?, hk]
      rw [List.filterMap_cons_none h1, List.filterMap_cons_none h2, ih]

theorem handleOk_messages (ts : List (Outcome α)) :
    ∀ i, (handleOk i (ts.filterMap Outcome.kept?)).1 = ts.filterMap Outcome.message? := by
  induction ts with
  | nil => intro i; rfl
  | cons o ts ih =>
    intro i
    rcases hk : o.kind with _ | _ | _ | err
    · obtain ⟨m, rfl, hm⟩ := kind_message hk
      simp [Outcome.kept?, Outcome.message?, hk, handleOk, hm, ih]
    · obtain ⟨m, rfl, hm⟩ := kind_eof hk
      have hne : errPartitionEof ≠ errNoError := by decide
      simp [Outcome.kept?, Outcome.message?, hk, handleOk, hm, hne, ih]
    · have h1 : o.kept? = none := by cases o <;> simp [Outcome.kept?, hk]
      have h2 : o.message? = none := by cases o <;> simp [Outcome.message?, hk]
      rw [List.filterMap_cons_none h1, List.filterMap_cons_none h2, ih]
    · have h1 : o.kept? = none := by cases o <;> simp [Outcome.kept?, hk]
      have h2 : o.message? = none := by cases o <;> simp [Outcome.message?, hk]
      rw [List.filterMap_cons_none h1, List.filterMap_cons_none h2, ih]

theorem consumeNumCallback_ok (ts : List (Outcome α)) :
    consumeNumCallback (.ok (handleOk (-1) (ts.filterMap Outcome.kept?))) =
      ts.filterMap Outcome.event? ++ [.cb (.ok (ts.filterMap Outcome.message?))] := by
  have h := merged_handleOk ts (-1)
  simp only [merged, Int.reduceNeg, Int.reduceAdd, Prod.mk.injEq] at h
  simp only [consumeNumCallback, h.2, emitEofEventsFor, List.append_nil, h.1]
  rw [handleOk_messages]

/-! ## What the worker takes -/

theorem execute_stopped {max : Nat} {first : Bool} {w : Worker α} (h : w.looping = false) (os : List (Outcome α)) :
    execute max first w os = some (w, os) := by
  cases os <;> simp [execute, h]

/-- The error that is kept for the outcomes `ts`: none once a message was taken. -/
def errorOf (ts : List (Outcome α)) : Option ErrorCode :=
  if ts.filterMap Outcome.message? = [] then ts.findSome? Outcome.error? else none

theorem errorOf_cons_eof {o : Outcome α} (h : o.kind = .eof) (ts : List (Outcome α)) :
    errorOf (o :: ts) = errorOf ts := by
  have h1 : o.message? = none := by cases o <;> simp [Outcome.message?, h]
  have h2 : o.error? = none := by simp [Outcome.error?, h]
  simp [errorOf, h1, h2]

theorem errorOf_cons_message {o : Outcome α} (h : o.kind = .message) (ts : List (Outcome α)) :
    errorOf (o :: ts) = none := by
  obtain ⟨m, rfl, _⟩ := kind_message h
  simp [errorOf, Outcome.message?, h]

theorem take_timeout {first : Bool} {w : Worker α} {o : Outcome α} (h : o.kind = .timeout) :
    w.take first o = { w with looping := false } := by
  cases o with
  | failed err => cases h
  | data m =>
    simp only [Outcome.kind] at h
    split at h
    · cases h
    · split at h
      · cases h
      · split at h
        · rename_i h1 h2 h3
          simp only [Worker.take, if_neg h2, if_pos h3]
        · cases h

theorem take_error {first : Bool} {w : Worker α} {o : Outcome α} {err : ErrorCode} (h : o.kind = .error err) :
    w.take first o =
      { w with
        baton := if w.messages.length = w.eofEventCount then some err else w.baton
        looping := false } := by
  cases o with
  | failed e =>
    obtain rfl : e = err := by simpa [Outcome.kind] using h
    rfl
  | data m =>
    simp only [Outcome.kind] at h
    split at h
    · cases h
    · split at h
      · cases h
      · split at h
        · cases h
        · rename_i h1 h2 h3
          obtain rfl : m.err = err := by simpa using h
          simp only [Worker.take, if_neg h1, if_neg h2, if_neg h3]

theorem execute_eq (max : Nat) (first : Bool) (os : List (Outcome α)) :
    ∀ (r : Nat) (w : Worker α), w.looping = true → w.baton = none → w.eofEventCount ≤ w.messages.length →
      max = w.messages.length - w.eofEventCount + r →
      (execute max first w os).map (fun p => (p.1.messages, p.1.baton, p.2)) =
        (taken r os).map fun ts =>
          (w.messages ++ ts.filterMap Outcome.kept?,
            (if w.messages.length = w.eofEventCount then errorOf ts else none), os.drop ts.length) := by
  induction os with
  | nil =>
    intro r w hl hb he hm
    cases r with
    | zero => simp [execute, taken, hm, hl, hb, errorOf]
    | succ r => simp [execute, taken, hm, hl]
  | cons o os ih =>
    intro r w hl hb he hm
    cases r with
    | zero => simp [execute, taken, hm, hl, hb, errorOf]
    | succ r =>
      have hc : w.messages.length - w.eofEventCount < max ∧ w.looping := ⟨by omega, hl⟩
      simp only [execute, if_pos hc, taken]
      rcases hk : o.kind with _ | _ | _ | err
      · obtain ⟨m, rfl, hm'⟩ := kind_message hk
        have hk' : (Outcome.data m).kept? = some m := by simp [Outcome.kept?, hk]
        have hne : errNoError ≠ errPartitionEof ∧ errNoError ≠ errTimedOut ∧ errNoError ≠ errTimedOutQueue := by
          decide
        rw [ih r _ (by simp [Worker.take, hm', hne, hl]) (by simp [Worker.take, hm', hne, hb])
          (by simp [Worker.take, hm', hne]; omega) (by simp [Worker.take, hm', hne]; omega)]
        cases taken r os with
        | none => rfl
        | some ts =>
          have hlt : w.messages.length + 1 ≠ w.eofEventCount := by omega
          simp [Worker.take, hm', hne, hk', hlt, errorOf_cons_message hk]
      · obtain ⟨m, rfl, hm'⟩ := kind_eof hk
        have hk' : (Outcome.data m).kept? = some m := by simp [Outcome.kept?, hk]
        rw [ih (r + 1) _ (by simp [Worker.take, hm', hl]) (by simp [Worker.take, hm', hb])
          (by simp [Worker.take, hm', he]) (by simp [Worker.take, hm']; omega)]
        cases taken (r + 1) os with
        | none => rfl
        | some ts => simp [Worker.take, hm', hk', errorOf_cons_eof hk]
      · have h1 : o.kept? = none := by cases o <;> simp [Outcome.kept?, hk]
        have h2 : errorOf [o] = none := by simp [errorOf, Outcome.error?, hk]
        rw [take_timeout hk, execute_stopped rfl]
        simp [h1, h2, hb]
      · have h1 : o.kept? = none := by cases o <;> simp [Outcome.kept?, hk]
        have h2 : o.message? = none := by cases o <;> simp [Outcome.message?, hk]
        have h3 : errorOf [o] = some err := by simp [errorOf, h2, Outcome.error?, hk]
        rw [take_error hk, execute_stopped rfl]
        simp [h1, h3, hb]

def observed (ts : List (Outcome α)) : List (Event α) :=
  match errorOf ts with
  | some err => [.cb (.error err)]
  | none => ts.filterMap Outcome.event? ++ [.cb (.ok (ts.filterMap Outcome.message?))]

theorem consumeNum_eq (timeoutMs : Int) (n : Nat) (first : Bool) (os : List (Outcome α)) :
    consumeNum timeoutMs n first os =
      (taken (n % 2 ^ 32) os).map fun ts => (observed ts, os.drop ts.length) := by
  have h := execute_eq (n % 2 ^ 32) first os (n % 2 ^ 32) { timeoutMs := timeoutMs } rfl rfl
    (Nat.le_refl 0) (by simp)
  have hf : ∀ p : Worker α × List (Outcome α), (consumeNumCallback p.1.callback, p.2) =
      (fun q : List (Message α) × Option ErrorCode × List (Outcome α) =>
        (consumeNumCallback (match q.2.1 with
          | some err => .error err
          | none => .ok (handleOk (-1) q.1)), q.2.2)) (p.1.messages, p.1.baton, p.2) := fun p => rfl
  have hg := congrArg (Option.map fun q : List (Message α) × Option ErrorCode × List (Outcome α) =>
    (consumeNumCallback (match q.2.1 with
      | some err => .error err
      | none => .ok (handleOk (-1) q.1)), q.2.2)) h
  rw [Option.map_map, Option.map_map] at hg
  refine Eq.trans ?_ (hg.trans ?_)
  · rfl
  · congr 1
    funext ts
    simp only [Function.comp_apply, List.nil_append, List.length_nil, if_true, observed]
    cases errorOf ts with
    | some err => rfl
    | none => simp only [consumeNumCallback_ok]

/-! ## When nothing is lost -/

/-- Some EOF markers and then an error, before any message. -/
def EofsThenError (os : List (Outcome α)) : Prop :=
  ∃ es e rest err, os = es ++ e :: rest ∧ es ≠ [] ∧ (∀ o ∈ es, o.kind = .eof) ∧ e.kind = .error err

def messagesBeforeEnd : List (Outcome α) → Nat
  | [] => 0
  | o :: os =>
    match o.kind with
    | .message => messagesBeforeEnd os + 1
    | .eof => messagesBeforeEnd os
    | .timeout => 0
    | .error _ => 0

theorem taken_eofs_error {es : List (Outcome α)} {e : Outcome α} {err : ErrorCode}
    (rest : List (Outcome α)) (n : Nat)
    (h : ∀ o ∈ es, o.kind = .eof) (he : e.kind = .error err) : taken (n + 1) (es ++ e :: rest) = some
    (es ++ [e]) := by
  induction es with
  | nil => simp [taken, he]
  | cons o es ih =>
    have ho := h o (List.mem_cons_self ..)
    have := ih fun o' h' => h o' (List.mem_cons_of_mem _ h')
    simp [taken, ho, this]

theorem eofs_error_of_taken {n : Nat} (os : List (Outcome α)) :
    ∀ {ts : List (Outcome α)} {err : ErrorCode}, taken (n + 1) os = some ts → errorOf ts = some err →
      ∃ es e rest, os = es ++ e :: rest ∧ (∀ o ∈ es, o.kind = .eof) ∧ e.kind = .error err ∧ ts = es ++ [e] := by
  induction os with
  | nil => intro ts err h; cases h
  | cons o os ih =>
    intro ts err h herr
    simp only [taken] at h
    rcases hk : o.kind with _ | _ | _ | err'
    · simp only [hk] at h
      obtain ⟨ts', _, rfl⟩ := Option.map_eq_some_iff.mp h
      rw [errorOf_cons_message hk] at herr
      cases herr
    · simp only [hk] at h
      obtain ⟨ts', h', rfl⟩ := Option.map_eq_some_iff.mp h
      rw [errorOf_cons_eof hk] at herr
      obtain ⟨es, e, rest, rfl, hes, he, rfl⟩ := ih h' herr
      exact ⟨o :: es, e, rest, rfl, by simpa [hk] using hes, he, rfl⟩
    · simp only [hk, Option.some.injEq] at h
      subst h
      simp [errorOf, Outcome.error?, hk] at herr
    · simp only [hk, Option.some.injEq] at h
      subst h
      have h2 : o.message? = none := by cases o <;> simp [Outcome.message?, hk]
      simp only [errorOf, List.filterMap_cons_none h2, List.filterMap_nil, if_true, List.findSome?_cons,
        Outcome.error?, hk, Option.some.injEq] at herr
      subst herr
      exact ⟨[], o, os, rfl, by simp, hk, rfl⟩

theorem taken_of_le (os : List (Outcome α)) :
    ∀ {m : Nat}, m ≤ messagesBeforeEnd os → ∃ ts, taken m os = some ts := by
  induction os with
  | nil =>
    intro m h
    obtain rfl : m = 0 := by simpa [messagesBeforeEnd] using h
    exact ⟨[], rfl⟩
  | cons o os ih =>
    intro m h
    cases m with
    | zero => exact ⟨[], rfl⟩
    | succ m =>
      simp only [messagesBeforeEnd] at h
      simp only [taken]
      rcases hk : o.kind with _ | _ | _ | err
      · simp only [hk] at h
        obtain ⟨ts, h'⟩ := ih (Nat.le_of_succ_le_succ h)
        exact ⟨o :: ts, by simp [h']⟩
      · simp only [hk] at h
        obtain ⟨ts, h'⟩ := ih h
        exact ⟨o :: ts, by simp [h']⟩
      · exact ⟨[o], rfl⟩
      · exact ⟨[o], rfl⟩

theorem length_taken_le (os : List (Outcome α)) :
    ∀ {n : Nat} {ts : List (Outcome α)}, taken n os = some ts → ts.length ≤ os.length := by
  induction os with
  | nil =>
    intro n ts h
    cases n with
    | zero =>
      obtain rfl : [] = ts := by simpa [taken] using h
      exact Nat.le_refl _
    | succ n => cases h
  | cons o os ih =>
    intro n ts h
    cases n with
    | zero =>
      obtain rfl : [] = ts := by simpa [taken] using h
      exact Nat.zero_le _
    | succ n =>
      simp only [taken] at h
      rcases hk : o.kind with _ | _ | _ | err
      · simp only [hk] at h
        obtain ⟨ts', h', rfl⟩ := Option.map_eq_some_iff.mp h
        exact Nat.succ_le_succ (ih h')
      · simp only [hk] at h
        obtain ⟨ts', h', rfl⟩ := Option.map_eq_some_iff.mp h
        exact Nat.succ_le_succ (ih h')
      · obtain rfl : [o] = ts := by simpa [hk] using h
        exact Nat.succ_le_succ (Nat.zero_le _)
      · obtain rfl : [o] = ts := by simpa [hk] using h
        exact Nat.succ_le_succ (Nat.zero_le _)

/-- Where the run does not end early, asking for more takes more. -/
theorem length_taken_lt (os : List (Outcome α)) :
    ∀ {m n : Nat} {ts ts' : List (Outcome α)}, m < n → m ≤ messagesBeforeEnd os → taken m os = some ts →
      taken n os = some ts' → ts.length < ts'.length := by
  induction os with
  | nil =>
    intro m n ts ts' hlt _ _ h'
    obtain ⟨n, rfl⟩ := Nat.exists_eq_succ_of_ne_zero (Nat.ne_of_gt (Nat.zero_lt_of_lt hlt))
    cases h'
  | cons o os ih =>
    intro m n ts ts' hlt hle h h'
    obtain ⟨n, rfl⟩ := Nat.exists_eq_succ_of_ne_zero (Nat.ne_of_gt (Nat.zero_lt_of_lt hlt))
    simp only [taken] at h'
    cases m with
    | zero =>
      obtain rfl : [] = ts := by simpa [taken] using h
      rcases hk : o.kind with _ | _ | _ | err
      · simp only [hk] at h'
        obtain ⟨_, _, rfl⟩ := Option.map_eq_some_iff.mp h'
        exact Nat.succ_pos _
      · simp only [hk] at h'
        obtain ⟨_, _, rfl⟩ := Option.map_eq_some_iff.mp h'
        exact Nat.succ_pos _
      · obtain rfl : [o] = ts' := by simpa [hk] using h'
        exact Nat.succ_pos _
      · obtain rfl : [o] = ts' := by simpa [hk] using h'
        exact Nat.succ_pos _
    | succ m =>
      simp only [taken] at h
      simp only [messagesBeforeEnd] at hle
      rcases hk : o.kind with _ | _ | _ | err
      · simp only [hk] at h h' hle
        obtain ⟨us, hu, rfl⟩ := Option.map_eq_some_iff.mp h
        obtain ⟨us', hu', rfl⟩ := Option.map_eq_some_iff.mp h'
        exact Nat.succ_lt_succ (ih (Nat.lt_of_succ_lt_succ hlt) (Nat.le_of_succ_le_succ hle) hu hu')
      · simp only [hk] at h h' hle
        obtain ⟨us, hu, rfl⟩ := Option.map_eq_some_iff.mp h
        obtain ⟨us', hu', rfl⟩ := Option.map_eq_some_iff.mp h'
        exact Nat.succ_lt_succ (ih hlt hle hu hu')
      · simp [hk] at hle
      · simp [hk] at hle

/-- Where the run ends early, the number asked for does not matter. -/
theorem taken_eq_of_lt (os : List (Outcome α)) :
    ∀ {m n : Nat}, m ≤ n → messagesBeforeEnd os < m → taken m os = taken n os := by
  induction os with
  | nil =>
    intro m n hle hlt
    obtain ⟨m, rfl⟩ := Nat.exists_eq_succ_of_ne_zero (Nat.ne_of_gt (Nat.zero_lt_of_lt hlt))
    obtain ⟨n, rfl⟩ := Nat.exists_eq_succ_of_ne_zero (Nat.ne_of_gt (Nat.zero_lt_of_lt hle))
    rfl
  | cons o os ih =>
    intro m n hle hlt
    obtain ⟨m, rfl⟩ := Nat.exists_eq_succ_of_ne_zero (Nat.ne_of_gt (Nat.zero_lt_of_lt hlt))
    obtain ⟨n, rfl⟩ := Nat.exists_eq_succ_of_ne_zero (Nat.ne_of_gt (Nat.zero_lt_of_lt hle))
    simp only [messagesBeforeEnd] at hlt
    simp only [taken]
    rcases hk : o.kind with _ | _ | _ | err
    · simp only [hk] at hlt
      simp only [ih (Nat.le_of_succ_le_succ hle) (Nat.lt_of_succ_lt_succ hlt)]
    · simp only [hk] at hlt
      simp only [ih hle hlt]
    · rfl
    · rfl

theorem result_eq (ts : List (Outcome α)) :
    result ts = match errorOf ts with
      | some err => .error err
      | none => .ok (ts.filterMap Outcome.message?) := by
  simp only [result, errorOf]
  cases hm : ts.filterMap Outcome.message? with
  | nil => cases ts.findSome? Outcome.error? <;> rfl
  | cons m ms => simp

theorem observed_eq_iff (ts : List (Outcome α)) :
    observed ts = ts.filterMap Outcome.event? ++ [.cb (result ts)] ↔
      errorOf ts = none ∨ ts.filterMap Outcome.event? = [] := by
  rw [result_eq, observed]
  cases errorOf ts with
  | none => simp
  | some err => simp

/-- Of the outcomes that end with an error, only EOF markers have events. -/
theorem events_eofs_error {es : List (Outcome α)} {e : Outcome α} {err : ErrorCode} (h : ∀ o ∈ es, o.kind = .eof)
    (he : e.kind = .error err) : (es ++ [e]).filterMap Outcome.event? = [] ↔ es = [] := by
  have h1 : e.event? = none := by cases e <;> simp [Outcome.event?, he]
  cases es with
  | nil => simp [h1]
  | cons o es =>
    have ho := h o (List.mem_cons_self ..)
    obtain ⟨m, rfl, _⟩ := kind_eof ho
    simp [Outcome.event?, ho]

theorem not_eofsThenError_iff {n : Nat} (os : List (Outcome α)) :
    (∀ ts, taken (n + 1) os = some ts → errorOf ts = none ∨ ts.filterMap Outcome.event? = []) ↔
      ¬ EofsThenError os := by
  constructor
  · rintro h ⟨es, e, rest, err, rfl, hne, hes, he⟩
    have ht := taken_eofs_error rest n hes he
    have h2 : e.message? = none := by cases e <;> simp [Outcome.message?, he]
    rcases h _ ht with h0 | h0
    · have : errorOf (es ++ [e]) = some err := by
        clear h ht hne
        induction es with
        | nil => simp [errorOf, h2, Outcome.error?, he]
        | cons o es ih =>
          rw [List.cons_append, errorOf_cons_eof (hes o (List.mem_cons_self ..))]
          apply ih
          · exact fun o' h' => hes o' (List.mem_cons_of_mem _ h')
          · rwa [List.cons_append, errorOf_cons_eof (hes o (List.mem_cons_self ..))] at h0
      rw [this] at h0
      cases h0
    · exact hne ((events_eofs_error hes he).mp h0)
  · intro h ts ht
    cases herr : errorOf ts with
    | none => exact Or.inl rfl
    | some err =>
      obtain ⟨es, e, rest, rfl, hes, he, rfl⟩ := eofs_error_of_taken os ht herr
      refine Or.inr ((events_eofs_error hes he).mpr ?_)
      by_contra hne
      exact h ⟨es, e, rest, err, rfl, hne, hes, he⟩

/-- A call of `consume` emits and calls back what is expected just when the number fits the native call, or the run
ends early enough not to need it, and no EOF marker is followed by an error before any message. -/
theorem consumeNum_eq_expected_iff (timeoutMs : Int) (n : Nat) (first : Bool) (os : List (Outcome α)) (hn : 1 ≤ n) :
    consumeNum timeoutMs n first os = expected n os ↔
      (n < 2 ^ 32 ∨ messagesBeforeEnd os < n % 2 ^ 32) ∧ ¬ EofsThenError os := by
  rw [consumeNum_eq, expected]
  by_cases hb : n < 2 ^ 32 ∨ messagesBeforeEnd os < n % 2 ^ 32
  · have ht : taken (n % 2 ^ 32) os = taken n os := by
      rcases hb with hb | hb
      · rw [Nat.mod_eq_of_lt hb]
      · exact taken_eq_of_lt os (Nat.mod_le ..) hb
    obtain ⟨n, rfl⟩ := Nat.exists_eq_add_of_le' hn
    rw [ht, and_iff_right hb, ← not_eofsThenError_iff (n := n) os]
    cases taken (n + 1) os with
    | none => simp
    | some ts => simp [observed_eq_iff]
  · refine iff_of_false ?_ fun h => hb h.1
    obtain ⟨h1, h2⟩ := not_or.mp hb
    obtain ⟨ts, ht⟩ := taken_of_le os (Nat.not_lt.mp h2)
    have hlt : n % 2 ^ 32 < n := Nat.lt_of_lt_of_le (Nat.mod_lt _ (by decide)) (Nat.not_lt.mp h1)
    rw [ht]
    cases ht' : taken n os with
    | none => simp
    | some ts' =>
      have hl := length_taken_lt os hlt (Nat.not_lt.mp h2) ht ht'
      have hl' := length_taken_le os ht'
      intro h
      have := congrArg List.length (Prod.mk.inj (Option.some.inj h)).2
      simp only [List.length_drop] at this
      omega

/-- The end of partition 0 of `orders`, met at offset 5. -/
def eofAtFive : Outcome Unit :=
  .data ⟨errPartitionEof, "orders", 0, 5, ()⟩

def messageAtFour : Outcome Unit :=
  .data ⟨errNoError, "orders", 0, 4, ()⟩

theorem consumeNum_message_eof_failed :
    consumeNum 1000 2 false [messageAtFour, eofAtFive, .failed (-172)] =
      expected 2 [messageAtFour, eofAtFive, .failed (-172)] := by
  refine (consumeNum_eq_expected_iff 1000 2 false [messageAtFour, eofAtFive, .failed (-172)] (by decide)).mpr
    ⟨Or.inl (by decide), ?_⟩
  rintro ⟨es, e, rest, err, h, hne, hes, -⟩
  cases es with
  | nil => exact hne rfl
  | cons o es =>
    have hm : messageAtFour.kind = .eof := (List.cons.inj h).1 ▸ hes o (List.mem_cons_self ..)
    exact absurd hm (by decide)

/-- The EOF is taken and then the call fails: the callback gets the error and no `partition.eof` is emitted. -/
theorem consumeNum_eof_failed :
    ¬ ∀ (n : Nat) (os : List (Outcome Unit)), 1 ≤ n → consumeNum 1000 n false os = expected n os := by
  intro h
  have := h 1 [eofAtFive, .failed (-172)] (by decide)
  simp [consumeNum, expected, execute, taken, Worker.take, Worker.callback, consumeNumCallback, eofAtFive,
    Outcome.kind, Outcome.event?, errPartitionEof, errNoError] at this

end ConsumeNum
end ConfluentKafka
