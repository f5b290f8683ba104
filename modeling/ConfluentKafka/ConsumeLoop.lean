import ConfluentKafka.ConsumeNum
import ConfluentKafka.Lts

/-!
# The loop that consumes in the background

`consume(cb)` without a number starts `KafkaConsumerConsumeLoop`: a thread that fetches messages one by one
and puts them into the vectors of a `MessageWorker`, and an asynchronous handle through which the main thread
is woken to take them out. A step is what one of the two threads does between two points at which the other
can be seen.

The main thread is woken once for any number of sends. The handle is no longer pending when its callback
begins, so that a send during the callback wakes it again.
-/

namespace ConfluentKafka

namespace ConsumeLoop

open ConsumeNum (ErrorCode Outcome errNoError errPartitionEof errTimedOut errTimedOutQueue)

def errState : ErrorCode := -172

def errUnknownTopicOrPart : ErrorCode := 3

def errTopicAuthorizationFailed : ErrorCode := 29

variable {α : Type}

/-! ## JavaScript -/

structure Call (α : Type) where
  err : Option ErrorCode := none
  message : Option (ConsumeNum.Message α) := none
  eofEvent : Option (String × Int × Int) := none
  warning : Option ErrorCode := none

inductive Event (α : Type) where
  | data (message : ConsumeNum.Message α)
  | partitionEof (topic : String) (offset partition : Int)
  | warning (err : ErrorCode)
  | cb (result : Except ErrorCode (ConsumeNum.Message α))
  deriving DecidableEq

def readCallback (c : Call α) : List (Event α) :=
  match c.err, c.eofEvent, c.warning, c.message with
  | some err, _, _, _ => [.cb (.error err)]
  | none, some (topic, offset, partition), _, _ => [.partitionEof topic offset partition]
  | none, none, some warning, _ => [.warning warning]
  | none, none, none, some message => [.data message, .cb (.ok message)]
  | none, none, none, none => []

def messageCall (message : ConsumeNum.Message α) : Call α :=
  if message.err = errPartitionEof then { eofEvent := some (message.topic, message.offset, message.partition) }
  else { message := some message }

/-- The same with `NULL` in its place. -/
def warningCall (err : ErrorCode) : Call α := { warning := some err }

def errorCall (err : ErrorCode) : Call α := { err := some err }

/-! ## The two threads -/

/-- Where `ConsumeLoop` stands: at the condition of the loop, in `Consume`, before it has the lock for a
message or a warning, with the lock between `push_back` and `uv_async_send`, or at its end. -/
inductive Thread (α : Type) where
  | check
  | consume
  | send (message : ConsumeNum.Message α)
  | sendWarning (err : ErrorCode)
  | notify
  | done

/-- Where the main thread stands: outside, at the beginning of `WorkMessage`, or in its loops, with what is
left of the two queues and whether a callback has been called. -/
inductive Main (α : Type) where
  | idle
  | woken
  | delivering (inCallback : Bool) (messageQueue : List (ConsumeNum.Message α)) (warningQueue : List ErrorCode)

/-- `callback` says whether it is not `NULL`, and `crashed` that it was called when it was. `joining` is the
main thread in `Close`. What `Consume` returned, and what JavaScript has seen, are kept in the order of time.
-/
structure State (α : Type) where
  thread : Thread α := .check
  looping : Bool := true
  connected : Bool := true
  baton : Option ErrorCode := none
  asyncdata : List (ConsumeNum.Message α) := []
  asyncwarning : List ErrorCode := []
  pending : Bool := false
  main : Main α := .idle
  joining : Bool := false
  callback : Bool := true
  crashed : Bool := false
  consumed : List (Outcome α) := []
  events : List (Event α) := []

inductive Label (α : Type) where
  | check
  /-- librdkafka answers with a message. -/
  | consume (message : ConsumeNum.Message α)
  | push
  | asyncSend
  | wake
  | swap
  | deliver
  | close
  | joined
  | disconnected

def consume (connected : Bool) (message : ConsumeNum.Message α) : Outcome α :=
  if connected then
    if message.err ≠ errNoError ∧ message.err ≠ errPartitionEof ∧ message.err ≠ errTimedOut ∧
        message.err ≠ errTimedOutQueue then .failed message.err
    else .data message
  else .failed errState

/-- What the body of the loop does with the baton. The error of a message that it does not know is not one
that `Consume` returns. -/
def State.take (s : State α) : Outcome α → State α
  | .data message =>
    if message.err = errPartitionEof then { s with thread := .send message }
    else if message.err = errTimedOut ∨ message.err = errTimedOutQueue then { s with thread := .check }
    else if message.err = errNoError then { s with thread := .send message }
    else { s with thread := .check, baton := some errNoError, looping := false }
  | .failed err =>
    if err = errUnknownTopicOrPart ∨ err = errTopicAuthorizationFailed then { s with thread := .sendWarning err }
    else { s with thread := .check, baton := some err, looping := false }

def State.call (s : State α) (c : Call α) : State α := { s with events := s.events ++ readCallback c }

/-- `WorkComplete` and `Destroy`: the error is called back if there is one, the callback is deleted, and the handle
closed. -/
def State.workComplete (s : State α) : State α :=
  let s := match s.baton with
    | none => s
    | some err => s.call (errorCall err)
  { s with callback := false, joining := false }

def step (s : State α) (l : Label α) : Option (State α) :=
  match l with
  | .check =>
    match s.thread with
    | .check => some { s with thread := if s.looping && s.connected then .consume else .done }
    | _ => none
  | .consume message =>
    match s.thread with
    | .consume =>
      some ({ s with consumed := s.consumed ++ [consume s.connected message] }.take (consume s.connected message))
    | _ => none
  | .push =>
    match s.thread with
    | .send message => some { s with thread := .notify, asyncdata := s.asyncdata ++ [message] }
    | .sendWarning err => some { s with thread := .notify, asyncwarning := s.asyncwarning ++ [err] }
    | _ => none
  | .asyncSend =>
    match s.thread with
    | .notify => some { s with thread := .check, pending := true }
    | _ => none
  | .wake =>
    match s.main with
    | .idle =>
      -- a closed handle calls back no more, so that there is a callback where `WorkMessage` begins
      if s.pending && s.callback && !s.joining then some { s with pending := false, main := .woken } else none
    | _ => none
  | .swap =>
    match s.main, s.thread with
    -- the other thread has the lock
    | .woken, .notify => none
    | .woken, _ =>
      some { s with main := .delivering false s.asyncdata s.asyncwarning, asyncdata := [], asyncwarning := [] }
    | _, _ => none
  | .deliver =>
    if s.joining || s.crashed then none else
      match s.main with
      | .delivering _ (message :: messageQueue) warningQueue =>
        if s.callback then
          some { s.call (messageCall message) with main := .delivering true messageQueue warningQueue }
        else some { s with crashed := true }
      | .delivering _ [] (err :: warningQueue) =>
        if s.callback then some { s.call (warningCall err) with main := .delivering true [] warningQueue }
        else some { s with crashed := true }
      | .delivering _ [] [] => some { s with main := .idle }
      | _ => none
  | .close =>
    if s.joining || s.crashed || !s.callback then none else
      match s.main with
      | .idle | .delivering true _ _ => some { s with joining := true, looping := false }
      | _ => none
  | .joined =>
    match s.thread with
    | .done => if s.joining then some s.workComplete else none
    | _ => none
  | .disconnected => some { s with connected := false }

def consumeLoop : Lts (State α) (Label α) where
  init := {}
  step := step

/-! ## What is to be delivered -/

def kept (o : Outcome α) : List (ConsumeNum.Message α) :=
  match o with
  | .data message => if message.err = errPartitionEof ∨ message.err = errNoError then [message] else []
  | .failed _ => []

def warned (o : Outcome α) : List ErrorCode :=
  match o with
  | .data _ => []
  | .failed err => if err = errUnknownTopicOrPart ∨ err = errTopicAuthorizationFailed then [err] else []

def Thread.messages : Thread α → List (ConsumeNum.Message α)
  | .send message => [message]
  | _ => []

def Thread.warnings : Thread α → List ErrorCode
  | .sendWarning err => [err]
  | _ => []

def Main.messages : Main α → List (ConsumeNum.Message α)
  | .delivering _ messageQueue _ => messageQueue
  | _ => []

def Main.warnings : Main α → List ErrorCode
  | .delivering _ _ warningQueue => warningQueue
  | _ => []

def Event.ofMessage : Event α → Bool
  | .data _ | .partitionEof .. | .cb (.ok _) => true
  | _ => false

def Event.ofWarning : Event α → Bool
  | .warning _ => true
  | _ => false

def Event.ofError : Event α → Bool
  | .cb (.error _) => true
  | _ => false

def State.Quiet (s : State α) : Prop :=
  s.pending = false ∧ s.main = .idle ∧ (s.thread = .check ∨ s.thread = .consume ∨ s.thread = .done)

def Thread.left : Thread α → Nat
  | .done => 0
  | .check => 1
  | .notify => 2
  | .send _ | .sendWarning _ => 3
  | .consume => 4

def messageEvents (message : ConsumeNum.Message α) : List (Event α) := readCallback (messageCall message)

theorem messageEvents_eq (message : ConsumeNum.Message α) : messageEvents message =
    [.data message, .cb (.ok message)] ∨
    messageEvents message = [.partitionEof message.topic message.offset message.partition] := by
  unfold messageEvents messageCall
  split_ifs
  · exact .inr rfl
  · exact .inl rfl

theorem ofMessage_messageEvents (message : ConsumeNum.Message α) :
    (messageEvents message).filter Event.ofMessage = messageEvents message ∧
      (messageEvents message).filter Event.ofWarning = [] ∧ (messageEvents message).filter Event.ofError = [] := by
  rcases messageEvents_eq message with h | h <;> rw [h] <;> exact ⟨rfl, rfl, rfl⟩

/-! ## The invariant -/

/-- Every message that was kept has been delivered, is about to be, or is in the queue or on its way into it;
so with the warnings. As long as there is a callback, the main thread is called for what is in the queues. -/
structure Inv (s : State α) : Prop where
  messages : s.events.filter Event.ofMessage ++
      (s.main.messages ++ (s.asyncdata ++ s.thread.messages)).flatMap messageEvents =
    (s.consumed.flatMap kept).flatMap messageEvents
  warnings : s.events.filter Event.ofWarning ++
      (s.main.warnings ++ (s.asyncwarning ++ s.thread.warnings)).map Event.warning =
    (s.consumed.flatMap warned).map Event.warning
  errors : s.events.filter Event.ofError = if s.callback then [] else s.baton.toList.map fun err => .cb (.error err)
  awake : s.callback = true → s.asyncdata ≠ [] ∨ s.asyncwarning ≠ [] →
    s.thread = .notify ∨ s.pending = true ∨ s.main = .woken
  stopped : s.joining = true ∨ s.callback = false → s.looping = false
  closed : s.callback = false → s.thread = .done ∧ s.joining = false

theorem take_spec (s : State α) (o : Outcome α) :
    (s.take o).thread.messages = kept o ∧ (s.take o).thread.warnings = warned o ∧ (s.take o).thread.left < 4 ∧
      (s.looping = false → (s.take o).looping = false) ∧
      { s.take o with thread := s.thread, baton := s.baton, looping := s.looping } = s := by
  cases o with
  | data message =>
    by_cases heof : message.err = errPartitionEof
    · simp [State.take, kept, warned, Thread.messages, Thread.warnings, Thread.left, heof]
    by_cases htimedOut : message.err = errTimedOut ∨ message.err = errTimedOutQueue
    · have hok : message.err ≠ errNoError := by
        rcases htimedOut with h | h <;> rw [h] <;> decide
      simp [State.take, kept, warned, Thread.messages, Thread.warnings, Thread.left, heof, htimedOut, hok]
    · by_cases hok : message.err = errNoError
      · rw [hok] at heof htimedOut
        simp [State.take, kept, warned, Thread.messages, Thread.warnings, Thread.left, heof, htimedOut, hok]
      · simp [State.take, kept, warned, Thread.messages, Thread.warnings, Thread.left, heof, htimedOut, hok]
  | failed err =>
    by_cases hwarn : err = errUnknownTopicOrPart ∨ err = errTopicAuthorizationFailed
    · simp [State.take, kept, warned, Thread.messages, Thread.warnings, Thread.left, hwarn]
    · simp [State.take, kept, warned, Thread.messages, Thread.warnings, Thread.left, hwarn]

theorem inv_init : Inv (consumeLoop (α := α)).init where
  messages := rfl
  warnings := rfl
  errors := rfl
  awake := fun _ h => h.elim (absurd rfl) (absurd rfl)
  stopped := fun h => by rcases h with h | h <;> cases h
  closed := fun h => nomatch h

section
variable {s s' : State α}

theorem inv_check (h : Inv s) (hs : step s .check = some s') : Inv s' := by
  simp only [step] at hs
  split at hs
  · next hthread =>
    obtain rfl := Option.some.inj hs
    have hmessages := h.messages
    have hwarnings := h.warnings
    rw [hthread] at hmessages hwarnings
    have hnot : s.callback = true := by
      by_contra hcallback
      have hdone := (h.closed (Bool.eq_false_iff.mpr hcallback)).1
      rw [hthread] at hdone
      cases hdone
    constructor
    · dsimp only
      split_ifs <;> exact hmessages
    · dsimp only
      split_ifs <;> exact hwarnings
    · exact h.errors
    · intro hcallback hqueue
      rcases h.awake hcallback hqueue with hnotify | hrest
      · rw [hthread] at hnotify
        cases hnotify
      · exact .inr hrest
    · exact h.stopped
    · intro hcallback
      rw [hnot] at hcallback
      cases hcallback
  · cases hs

theorem inv_consume (h : Inv s) {message : ConsumeNum.Message α} (hs : step s (.consume message) = some s') :
    Inv s' := by
  simp only [step] at hs
  split at hs
  · next hthread =>
    obtain ⟨hmessages, hwarnings, _, hlooping, hrest⟩ :=
      take_spec { s with consumed := s.consumed ++ [consume s.connected message] } (consume s.connected message)
    rw [Option.some.inj hs] at hmessages hwarnings hlooping hrest
    have hnot : s.callback = true := by
      by_contra hcallback
      have hdone := (h.closed (Bool.eq_false_iff.mpr hcallback)).1
      rw [hthread] at hdone
      cases hdone
    obtain ⟨thread, looping, connected, baton, asyncdata, asyncwarning, pending, main, joining, callback,
      crashed, consumed,
      events⟩ := s'
    simp only [State.mk.injEq, true_and] at hrest
    obtain ⟨rfl, rfl, rfl, rfl, rfl, rfl, rfl, rfl, rfl, rfl⟩ := hrest
    constructor
    · dsimp only
      dsimp only at hmessages
      have hbefore := h.messages
      rw [hthread] at hbefore
      simp only [Thread.messages, List.append_nil, List.flatMap_append] at hbefore
      simp only [hmessages, List.flatMap_append, List.flatMap_singleton, ← hbefore, List.append_assoc]
    · dsimp only
      dsimp only at hwarnings
      have hbefore := h.warnings
      rw [hthread] at hbefore
      simp only [Thread.warnings, List.append_nil, List.map_append] at hbefore
      simp only [hwarnings, List.flatMap_append, List.flatMap_singleton, List.map_append, ← hbefore,
        List.append_assoc]
    · dsimp only
      have hbefore := h.errors
      rw [hnot] at hbefore ⊢
      exact hbefore
    · intro hcallback hqueue
      rcases h.awake hcallback hqueue with hnotify | hrest
      · rw [hthread] at hnotify
        cases hnotify
      · exact .inr hrest
    · exact fun hclosing => hlooping (h.stopped hclosing)
    · intro hcallback
      dsimp only at hcallback
      rw [hnot] at hcallback
      cases hcallback
  · cases hs

theorem inv_push (h : Inv s) (hs : step s .push = some s') : Inv s' := by
  have hmessages := h.messages
  have hwarnings := h.warnings
  simp only [step] at hs
  split at hs
  · next message hthread =>
    obtain rfl := Option.some.inj hs
    rw [hthread] at hmessages hwarnings
    refine ⟨?_, hwarnings, h.errors, fun _ _ => .inl rfl, h.stopped, fun hcallback => ?_⟩
    · rw [← hmessages]
      simp [Thread.messages]
    · have hdone := (h.closed hcallback).1
      rw [hthread] at hdone
      cases hdone
  · next err hthread =>
    obtain rfl := Option.some.inj hs
    rw [hthread] at hmessages hwarnings
    refine ⟨hmessages, ?_, h.errors, fun _ _ => .inl rfl, h.stopped, fun hcallback => ?_⟩
    · rw [← hwarnings]
      simp [Thread.warnings]
    · have hdone := (h.closed hcallback).1
      rw [hthread] at hdone
      cases hdone
  · cases hs

theorem inv_asyncSend (h : Inv s) (hs : step s .asyncSend = some s') : Inv s' := by
  have hmessages := h.messages
  have hwarnings := h.warnings
  simp only [step] at hs
  split at hs
  · next hthread =>
    obtain rfl := Option.some.inj hs
    rw [hthread] at hmessages hwarnings
    refine ⟨hmessages, hwarnings, h.errors, fun _ _ => .inr (.inl rfl), h.stopped, fun hcallback => ?_⟩
    have hdone := (h.closed hcallback).1
    rw [hthread] at hdone
    cases hdone
  · cases hs

theorem inv_wake (h : Inv s) (hs : step s .wake = some s') : Inv s' := by
  have hmessages := h.messages
  have hwarnings := h.warnings
  simp only [step] at hs
  split at hs
  · next hmain =>
    split_ifs at hs
    obtain rfl := Option.some.inj hs
    rw [hmain] at hmessages hwarnings
    exact ⟨hmessages, hwarnings, h.errors, fun _ _ => .inr (.inr rfl), h.stopped, h.closed⟩
  · cases hs

theorem inv_swap (h : Inv s) (hs : step s .swap = some s') : Inv s' := by
  have hmessages := h.messages
  have hwarnings := h.warnings
  simp only [step] at hs
  split at hs
  · cases hs
  · next hmain _ =>
    obtain rfl := Option.some.inj hs
    rw [hmain] at hmessages hwarnings
    refine ⟨?_, ?_, h.errors, fun _ hqueue => hqueue.elim (absurd rfl) (absurd rfl), h.stopped, h.closed⟩
    · rw [← hmessages]
      simp [Main.messages]
    · rw [← hwarnings]
      simp [Main.warnings]
  · cases hs

theorem filter_readCallback_warning (err : ErrorCode) :
    (readCallback (α := α) (warningCall err)).filter Event.ofMessage = [] ∧
      (readCallback (α := α) (warningCall err)).filter Event.ofWarning = [.warning err] ∧
      (readCallback (α := α) (warningCall err)).filter Event.ofError = [] :=
  ⟨rfl, rfl, rfl⟩

theorem inv_deliver (h : Inv s) (hs : step s .deliver = some s') : Inv s' := by
  have hmessages := h.messages
  have hwarnings := h.warnings
  have hnotWoken : s.main ≠ .woken → s.callback = true → s.asyncdata ≠ [] ∨ s.asyncwarning ≠ [] →
      s.thread = .notify ∨ s.pending = true := by
    intro hmain hcallback hqueue
    rcases h.awake hcallback hqueue with hnotify | hpending | hwoken
    · exact .inl hnotify
    · exact .inr hpending
    · exact absurd hwoken hmain
  simp only [step] at hs
  split at hs
  · cases hs
  split at hs
  · next inCallback message messageQueue warningQueue hmain =>
    split_ifs at hs with hcallback
    · obtain rfl := Option.some.inj hs
      rw [hmain] at hmessages hwarnings
      obtain ⟨hkept, hno, hnoError⟩ := ofMessage_messageEvents message
      refine ⟨?_, ?_, ?_, fun hcallback hqueue => ?_, h.stopped, h.closed⟩
      · refine Eq.trans ?_ hmessages
        show (s.events ++ messageEvents message).filter _ ++ _ = _
        rw [List.filter_append, hkept]
        simp [State.call, Main.messages]
      · refine Eq.trans ?_ hwarnings
        show (s.events ++ messageEvents message).filter _ ++ _ = _
        rw [List.filter_append, hno, List.append_nil]
        rfl
      · show (s.events ++ messageEvents message).filter _ = _
        rw [List.filter_append, hnoError, List.append_nil]
        exact h.errors
      · exact (hnotWoken (by rw [hmain]; nofun) hcallback hqueue).imp id .inl
    · obtain rfl := Option.some.inj hs
      exact ⟨h.messages, h.warnings, h.errors, h.awake, h.stopped, h.closed⟩
  · next inCallback err warningQueue hmain =>
    split_ifs at hs with hcallback
    · obtain rfl := Option.some.inj hs
      rw [hmain] at hmessages hwarnings
      obtain ⟨hno, hkept, hnoError⟩ := filter_readCallback_warning (α := α) err
      refine ⟨?_, ?_, ?_, fun hcallback hqueue => ?_, h.stopped, h.closed⟩
      · refine Eq.trans ?_ hmessages
        show (s.events ++ readCallback (warningCall err)).filter _ ++ _ = _
        rw [List.filter_append, hno, List.append_nil]
        rfl
      · refine Eq.trans ?_ hwarnings
        show (s.events ++ readCallback (warningCall err)).filter _ ++ _ = _
        rw [List.filter_append, hkept]
        simp [State.call, Main.warnings]
      · show (s.events ++ readCallback (warningCall err)).filter _ = _
        rw [List.filter_append, hnoError, List.append_nil]
        exact h.errors
      · exact (hnotWoken (by rw [hmain]; nofun) hcallback hqueue).imp id .inl
    · obtain rfl := Option.some.inj hs
      exact ⟨h.messages, h.warnings, h.errors, h.awake, h.stopped, h.closed⟩
  · next inCallback hmain =>
    obtain rfl := Option.some.inj hs
    rw [hmain] at hmessages hwarnings
    refine ⟨hmessages, hwarnings, h.errors, fun hcallback hqueue => ?_, h.stopped, h.closed⟩
    exact (hnotWoken (by rw [hmain]; nofun) hcallback hqueue).imp id .inl
  · cases hs

theorem inv_close (h : Inv s) (hs : step s .close = some s') : Inv s' := by
  simp only [step] at hs
  split_ifs at hs with hcondition
  have hcallback : s.callback = true := by
    by_contra hcallback
    exact hcondition (by simp [Bool.eq_false_iff.mpr hcallback])
  have hafter : Inv { s with joining := true, looping := false } := by
    refine ⟨h.messages, h.warnings, h.errors, h.awake, fun _ => rfl, fun hnot => ?_⟩
    dsimp only at hnot
    rw [hcallback] at hnot
    cases hnot
  split at hs
  · rwa [← Option.some.inj hs]
  · rwa [← Option.some.inj hs]
  · cases hs

theorem inv_joined (h : Inv s) (hs : step s .joined = some s') : Inv s' := by
  simp only [step] at hs
  split at hs
  · next hthread =>
    split_ifs at hs with hjoining
    obtain rfl := Option.some.inj hs
    have hlooping := h.stopped (.inl hjoining)
    have hcallback : s.callback = true := by
      by_contra hcallback
      have hnot := (h.closed (Bool.eq_false_iff.mpr hcallback)).2
      rw [hjoining] at hnot
      cases hnot
    have herrors := h.errors
    rw [hcallback, if_pos rfl] at herrors
    unfold State.workComplete
    cases hbaton : s.baton with
    | none =>
      refine ⟨h.messages, h.warnings, ?_, fun hnot => (nomatch hnot), fun _ => hlooping, fun _ => ⟨hthread, rfl⟩⟩
      dsimp only
      rw [herrors, hbaton]
      rfl
    | some err =>
      refine ⟨?_, ?_, ?_, fun hnot => (nomatch hnot), fun _ => hlooping, fun _ => ⟨hthread, rfl⟩⟩
      · refine Eq.trans ?_ h.messages
        show (s.events ++ [Event.cb (.error err)]).filter _ ++ _ = _
        rw [List.filter_append, List.filter_cons_of_neg (by simp [Event.ofMessage]), List.filter_nil,
          List.append_nil]
        rfl
      · refine Eq.trans ?_ h.warnings
        show (s.events ++ [Event.cb (.error err)]).filter _ ++ _ = _
        rw [List.filter_append, List.filter_cons_of_neg (by simp [Event.ofWarning]), List.filter_nil,
          List.append_nil]
        rfl
      · show (s.events ++ [Event.cb (.error err)]).filter _ = _
        rw [List.filter_append, herrors]
        dsimp only [State.call]
        rw [hbaton]
        rfl
  · cases hs

theorem inv_step (h : Inv s) {l : Label α} (hs : step s l = some s') : Inv s' := by
  cases l with
  | check => exact inv_check h hs
  | consume message => exact inv_consume h hs
  | push => exact inv_push h hs
  | asyncSend => exact inv_asyncSend h hs
  | wake => exact inv_wake h hs
  | swap => exact inv_swap h hs
  | deliver => exact inv_deliver h hs
  | close => exact inv_close h hs
  | joined => exact inv_joined h hs
  | disconnected =>
    obtain rfl := Option.some.inj hs
    exact ⟨h.messages, h.warnings, h.errors, h.awake, h.stopped, h.closed⟩

end

/-! ## Nothing is lost -/

theorem Inv.empty_of_quiet {s : State α} (h : Inv s) (hcallback : s.callback = true) (hquiet : s.Quiet) :
    s.asyncdata = [] ∧ s.asyncwarning = [] := by
  obtain ⟨hpending, hmain, hthread⟩ := hquiet
  by_contra hne
  have hqueue : s.asyncdata ≠ [] ∨ s.asyncwarning ≠ [] := by
    by_contra hnot
    rw [not_or, not_not, not_not] at hnot
    exact hne hnot
  rcases h.awake hcallback hqueue with hnotify | hp | hwoken
  · rw [hnotify] at hthread
    rcases hthread with h | h | h <;> cases h
  · rw [hpending] at hp
    cases hp
  · rw [hmain] at hwoken
    cases hwoken

/-- JavaScript sees the messages and the ends of partitions that were consumed, each once and in their order,
and so it sees the warnings. Once nothing is on its way it has seen all of them. The error that ends the loop
is called back when the loop is closed, and not before. -/
theorem consumed_delivered {ls : List (Label α)} {s : State α} (hr : consumeLoop.Run ls s) :
    s.events.filter Event.ofMessage <+: (s.consumed.flatMap kept).flatMap messageEvents ∧
    s.events.filter Event.ofWarning <+: (s.consumed.flatMap warned).map Event.warning ∧
    (s.callback = true → s.Quiet →
      s.events.filter Event.ofMessage = (s.consumed.flatMap kept).flatMap messageEvents ∧
      s.events.filter Event.ofWarning = (s.consumed.flatMap warned).map Event.warning) ∧
    s.events.filter Event.ofError = if s.callback then [] else s.baton.toList.map fun err => .cb (.error err) := by
  have hinv := hr.inv (I := fun s => Inv s) inv_init fun _ _ _ h _ hs => inv_step h hs
  refine ⟨⟨_, hinv.messages⟩, ⟨_, hinv.warnings⟩, fun hcallback hquiet => ?_, hinv.errors⟩
  obtain ⟨hdata, hwarning⟩ := hinv.empty_of_quiet hcallback hquiet
  have hmessages := hinv.messages
  have hwarnings := hinv.warnings
  obtain ⟨-, hmain, hthread⟩ := hquiet
  have hempty : s.thread.messages = [] ∧ s.thread.warnings = [] := by
    rcases hthread with h | h | h <;> rw [h] <;> exact ⟨rfl, rfl⟩
  rw [hdata, hmain, hempty.1] at hmessages
  rw [hwarning, hmain, hempty.2] at hwarnings
  simp only [Main.messages, Main.warnings, List.append_nil, List.flatMap_nil, List.map_nil] at hmessages hwarnings
  exact ⟨hmessages, hwarnings⟩

/-- Two sends for which the main thread is woken once, a timeout, a warning and the end of a partition; then
an error, after which the loop is closed. -/
def someLabels : List (Label Unit) :=
  [.check, .consume ⟨errNoError, "t", 0, 7, ()⟩, .push, .asyncSend, .check, .consume ⟨errTimedOut, "", 0, 0, ()⟩,
    .check,
    .consume ⟨errUnknownTopicOrPart, "u", 0, 0, ()⟩, .push, .asyncSend, .wake, .check,
    .consume ⟨errPartitionEof, "t", 0, 8, ()⟩, .swap, .push, .deliver, .deliver, .deliver, .asyncSend, .wake, .swap,
    .deliver, .check, .consume ⟨-195, "", 0, 0, ()⟩, .deliver, .close, .check, .joined, .disconnected]

theorem consumed_delivered_some : ∃ s, consumeLoop.Run someLabels s ∧
    s.events = [.data ⟨errNoError, "t", 0, 7, ()⟩, .cb (.ok ⟨errNoError, "t", 0, 7, ()⟩),
      .warning errUnknownTopicOrPart,
      .partitionEof "t" 8 0, .cb (.error (-195))] ∧
    s.events.filter Event.ofMessage <+: (s.consumed.flatMap kept).flatMap messageEvents ∧
    s.events.filter Event.ofWarning <+: (s.consumed.flatMap warned).map Event.warning ∧
    (s.callback = true → s.Quiet →
      s.events.filter Event.ofMessage = (s.consumed.flatMap kept).flatMap messageEvents ∧
      s.events.filter Event.ofWarning = (s.consumed.flatMap warned).map Event.warning) ∧
    s.events.filter Event.ofError = if s.callback then [] else s.baton.toList.map fun err => .cb (.error err) := by
  have hexec : (consumeLoop.exec (fun _ _ => true) {} someLabels).map State.events =
      some [.data ⟨errNoError, "t", 0, 7, ()⟩, .cb (.ok ⟨errNoError, "t", 0, 7, ()⟩),
        .warning errUnknownTopicOrPart,
        .partitionEof "t" 8 0, .cb (.error (-195))] := by
    decide
  obtain ⟨s, hs, hevents⟩ := Option.map_eq_some_iff.mp hexec
  have hr := Lts.Run.of_exec hs
  exact ⟨s, hr, hevents, consumed_delivered hr⟩

/-! ## Closing the loop -/

def Thread.next (message : ConsumeNum.Message α) : Thread α → Label α
  | .check | .done => .check
  | .consume => .consume message
  | .send _ | .sendWarning _ => .push
  | .notify => .asyncSend

theorem next_step {s : State α} (hlooping : s.looping = false) (hdone : s.thread ≠ .done)
    (message : ConsumeNum.Message α) :
    ∃ s', step s (s.thread.next message) = some s' ∧ s'.thread.left < s.thread.left ∧ s'.looping = false ∧
      s'.joining = s.joining := by
  cases hthread : s.thread with
  | check =>
    refine ⟨{ s with thread := .done }, ?_, Nat.zero_lt_one, hlooping, rfl⟩
    simp only [Thread.next, step, hthread, hlooping, Bool.false_and, Bool.false_eq_true, if_false]
  | consume =>
    obtain ⟨_, _, hleft, hkept, hrest⟩ :=
      take_spec { s with consumed := s.consumed ++ [consume s.connected message] } (consume s.connected message)
    have hjoining := congrArg State.joining hrest
    refine ⟨_, ?_, hleft, hkept hlooping, hjoining⟩
    simp only [Thread.next, step, hthread]
  | send message =>
    refine ⟨{ s with thread := .notify, asyncdata := s.asyncdata ++ [message] }, ?_, Nat.lt_succ_self 2,
      hlooping, rfl⟩
    simp only [Thread.next, step, hthread]
  | sendWarning err =>
    refine ⟨{ s with thread := .notify, asyncwarning := s.asyncwarning ++ [err] }, ?_, Nat.lt_succ_self 2,
      hlooping, rfl⟩
    simp only [Thread.next, step, hthread]
  | notify =>
    refine ⟨{ s with thread := .check, pending := true }, ?_, Nat.lt_succ_self 1, hlooping, rfl⟩
    simp only [Thread.next, step, hthread]
  | done => exact absurd hthread hdone

/-- The thread comes to its end whatever librdkafka answers, and then the main thread goes on. -/
theorem joined_after (message : ConsumeNum.Message α) (n : Nat) : ∀ s : State α, s.looping = false →
    s.joining = true →
    s.thread.left ≤ n → ∃ ls s', ls.length ≤ n ∧ (∀ l ∈ ls, ∃ t : Thread α, l = t.next message) ∧
      consumeLoop.exec (fun _ _ => true) s (ls ++ [.joined]) = some s' ∧ s'.callback = false := by
  induction n with
  | zero =>
    intro s _ hjoining hleft
    have hdone : s.thread = .done := by
      cases hthread : s.thread <;> rw [hthread] at hleft <;> first | rfl | cases hleft
    refine ⟨[], s.workComplete, Nat.le_refl 0, fun l hl => (nomatch hl), ?_, rfl⟩
    simp only [List.nil_append, Lts.exec, consumeLoop, step, hdone, hjoining, if_true, Option.bind_some]
  | succ n ih =>
    intro s hlooping hjoining hleft
    by_cases hdone : s.thread = .done
    · obtain ⟨ls, s', hlength, hrest⟩ := ih s hlooping hjoining (by rw [hdone]; exact Nat.zero_le n)
      exact ⟨ls, s', Nat.le_succ_of_le hlength, hrest⟩
    · obtain ⟨s₁, hs₁, hless, hlooping₁, hjoining₁⟩ := next_step hlooping hdone message
      obtain ⟨ls, s', hlength, hlabels, hexec, hcallback⟩ := ih s₁ hlooping₁ (hjoining₁.trans hjoining) (by omega)
      refine ⟨s.thread.next message :: ls, s', Nat.succ_le_succ hlength, ?_, ?_, hcallback⟩
      · rintro l (_ | ⟨_, hl⟩)
        · exact ⟨_, rfl⟩
        · exact hlabels l hl
      · rw [List.cons_append, Lts.exec, if_pos rfl]
        show (step s (s.thread.next message)).bind _ = _
        rw [hs₁, Option.bind_some]
        exact hexec

/-- The loop is closed while no message is being delivered. -/
def ClosesOutside (s : State α) (l : Label α) : Prop := l = .close → s.main = .idle

structure Open (s : State α) : Prop where
  running : s.crashed = false
  inside : s.main ≠ .idle → s.callback = true ∧ s.joining = false

theorem Open.of_same {s s' : State α} (h : Open s) (hmain : s'.main = s.main) (hcallback : s'.callback = s.callback)
    (hjoining : s'.joining = s.joining) (hcrashed : s'.crashed = s.crashed) : Open s' := by
  refine ⟨hcrashed.trans h.running, fun hne => ?_⟩
  rw [hmain] at hne
  rw [hcallback, hjoining]
  exact h.inside hne

theorem open_step {s s' : State α} {l : Label α} (h : Open s) (hl : ClosesOutside s l) (hs : step s l = some s') :
    Open s' := by
  cases l with
  | check | push | asyncSend =>
    simp only [step] at hs
    split at hs
    all_goals
      first
      | cases hs; done
      | obtain rfl := Option.some.inj hs
        exact h.of_same rfl rfl rfl rfl
  | consume message =>
    simp only [step] at hs
    split at hs
    · obtain ⟨_, _, _, _, hrest⟩ :=
        take_spec { s with consumed := s.consumed ++ [consume s.connected message] } (consume s.connected message)
      rw [Option.some.inj hs] at hrest
      have hmain := congrArg State.main hrest
      have hcallback := congrArg State.callback hrest
      have hjoining := congrArg State.joining hrest
      have hcrashed := congrArg State.crashed hrest
      exact h.of_same hmain hcallback hjoining hcrashed
    · cases hs
  | wake =>
    simp only [step] at hs
    split at hs
    · split_ifs at hs with hcondition
      obtain rfl := Option.some.inj hs
      simp only [Bool.and_eq_true, Bool.not_eq_true'] at hcondition
      exact ⟨h.running, fun _ => ⟨hcondition.1.2, hcondition.2⟩⟩
    · cases hs
  | swap =>
    simp only [step] at hs
    split at hs
    · cases hs
    · next hmain _ =>
      obtain rfl := Option.some.inj hs
      exact ⟨h.running, fun _ => h.inside (by rw [hmain]; nofun)⟩
    · cases hs
  | deliver =>
    simp only [step] at hs
    split at hs
    · cases hs
    split at hs
    · next hmain =>
      obtain ⟨hcallback, hjoining⟩ := h.inside (by rw [hmain]; nofun)
      rw [if_pos hcallback] at hs
      obtain rfl := Option.some.inj hs
      exact ⟨h.running, fun _ => ⟨hcallback, hjoining⟩⟩
    · next hmain =>
      obtain ⟨hcallback, hjoining⟩ := h.inside (by rw [hmain]; nofun)
      rw [if_pos hcallback] at hs
      obtain rfl := Option.some.inj hs
      exact ⟨h.running, fun _ => ⟨hcallback, hjoining⟩⟩
    · obtain rfl := Option.some.inj hs
      exact ⟨h.running, fun hne => absurd rfl hne⟩
    · cases hs
  | close =>
    have hmain := hl rfl
    simp only [step] at hs
    split_ifs at hs
    rw [hmain] at hs
    obtain rfl := Option.some.inj hs
    exact ⟨h.running, fun hne => absurd rfl hne⟩
  | joined =>
    simp only [step] at hs
    split at hs
    · split_ifs at hs with hjoining
      obtain rfl := Option.some.inj hs
      have hmain : s.main = .idle := by
        by_contra hne
        have hnot := (h.inside hne).2
        rw [hjoining] at hnot
        cases hnot
      unfold State.workComplete
      cases s.baton with
      | none => exact ⟨h.running, fun hne => absurd hmain hne⟩
      | some err => exact ⟨h.running, fun hne => absurd hmain hne⟩
    · cases hs
  | disconnected =>
    obtain rfl := Option.some.inj hs
    exact h.of_same rfl rfl rfl rfl

/-- Where the loop is not closed from a callback, no callback is called that has been deleted, and `Close`
returns: the thread needs at most four steps to its end, whatever message librdkafka answers. -/
theorem close_returns {ls : List (Label α)} {s : State α} (hr : consumeLoop.RunWhere ClosesOutside ls s) :
    s.crashed = false ∧ (s.joining = true → ∀ message : ConsumeNum.Message α, ∃ ls' s', ls'.length ≤ 4 ∧
      (∀ l ∈ ls', ∃ t : Thread α, l = t.next message) ∧
      consumeLoop.exec (fun _ _ => true) s (ls' ++ [.joined]) = some s' ∧ s'.callback = false) := by
  have hinv := hr.inv (I := fun s => Inv s) inv_init fun _ _ _ h _ hs => inv_step h hs
  have hopen := hr.inv (I := fun s => Open s) ⟨rfl, fun h => absurd rfl h⟩ fun _ _ _ h hl hs => open_step h hl hs
  refine ⟨hopen.running, fun hjoining message => ?_⟩
  have hleft : s.thread.left ≤ 4 := by
    cases s.thread <;> simp [Thread.left]
  exact joined_after message 4 s (hinv.stopped (.inl hjoining)) hjoining hleft

def closesOutside (s : State α) (l : Label α) : Bool :=
  match l, s.main with
  | .close, .idle => true
  | .close, _ => false
  | _, _ => true

theorem closesOutside_of_eq {s : State α} {l : Label α} (h : closesOutside s l = true) : ClosesOutside s l := by
  rintro rfl
  cases hmain : s.main with
  | idle => rfl
  | woken => simp [closesOutside, hmain] at h
  | delivering => simp [closesOutside, hmain] at h

/-- The loop is closed while a message is on its way into the queue. -/
theorem close_returns_sending : ∃ s, consumeLoop.RunWhere ClosesOutside
      [.check, .consume (⟨errNoError, "t", 0, 7, ()⟩ : ConsumeNum.Message Unit), .close] s ∧
    s.crashed = false ∧ (s.joining = true → ∀ message : ConsumeNum.Message Unit, ∃ ls' s', ls'.length ≤ 4 ∧
      (∀ l ∈ ls', ∃ t : Thread Unit, l = t.next message) ∧
      consumeLoop.exec (fun _ _ => true) s (ls' ++ [.joined]) = some s' ∧ s'.callback = false) := by
  have hexec : (consumeLoop.exec closesOutside {}
      [.check, .consume (⟨errNoError, "t", 0, 7, ()⟩ : ConsumeNum.Message Unit), .close]).map State.joining =
      some true := by
    decide
  obtain ⟨s, hs, _⟩ := Option.map_eq_some_iff.mp hexec
  have hr := (Lts.RunWhere.of_exec .nil hs).mono fun _ _ => closesOutside_of_eq
  exact ⟨s, hr, close_returns hr⟩

/-- Closed from the callback of the first of two messages. -/
example : (consumeLoop.exec (fun _ _ => true) {}
    [.check, .consume (⟨errNoError, "t", 0, 7, ()⟩ : ConsumeNum.Message Unit), .push, .asyncSend,
    .check, .consume ⟨errNoError, "t", 0, 8, ()⟩, .push, .asyncSend, .wake, .swap, .deliver, .close,
      .check, .joined,
    .deliver]).map State.crashed = some true := by
  decide

end ConsumeLoop

end ConfluentKafka
