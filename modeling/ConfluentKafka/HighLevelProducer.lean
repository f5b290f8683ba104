import ConfluentKafka.Lts
import Mathlib.Logic.Function.Basic

/-!
# The high-level producer

`_modifiedProduce` serializes the value and the key, each with a serializer
that may take the topic, that may return, call back or return a promise, and
produces when it has both. The closures of one call share two results and a
flag. What happens while a serializer runs is part of the call; callbacks and
promises that come later, immediates and delivery reports are steps of their
own. A reference counter polls fast while calls are under way.
-/

namespace ConfluentKafka
namespace HighLevelProducer

/-! ## Serializers -/

inductive Style where
  | returns
  | calls
  | promises
  deriving DecidableEq, Repr

inductive Arg where
  | topic
  | message
  | key
  | callback
  | undefined
  deriving DecidableEq, Repr

inductive Out (ν : Type) where
  | value (v : ν)
  | failed
  | throws
  deriving DecidableEq, Repr

structure Serializer (ν : Type) where
  needsTopic : Bool
  style : Style
  out : List Arg → Out ν

inductive Side where
  | value
  | key
  deriving DecidableEq, Repr

/-- One call: its serializers, what happens while they run, and the answers of the underlying `produce`. -/
structure Spec (ν : Type) where
  value : Serializer ν
  key : Serializer ν
  /-- the key of the call is truthy -/
  keyTruthy : Bool
  /-- the value serializer calls back before it returns -/
  valueEarly : Bool
  /-- the callbacks that come while the key serializer runs -/
  during : List Side
  answer : Nat → Bool

variable {ν : Type}

namespace Spec

def valueArgs (spec : Spec ν) : List Arg :=
  if spec.value.needsTopic then [.topic, .message] else [.message]

/-- The arguments of the key serializer, chosen by the kind of the value serializer, and whether the last of them is
the callback in its place. The wrapper of a plain serializer takes its second argument for the callback, and the
wrapper of a serializer with a topic its third. -/
def keyArgs (spec : Spec ν) : List Arg × Bool :=
  match spec.value.needsTopic, spec.key.needsTopic with
  | true, true => ([.topic, .key], true)
  | false, false => ([.key], true)
  | false, true => ([.key, if spec.key.style = .calls then .callback else .undefined], false)
  | true, false => (if spec.keyTruthy then [.topic, .key] else [.topic], false)

def valueOut (spec : Spec ν) : Out ν :=
  spec.value.out spec.valueArgs

def keyOut (spec : Spec ν) : Out ν :=
  spec.key.out spec.keyArgs.1

end Spec

def Out.thrownBy (style : Style) : Out ν → Bool
  | .value _ => false
  | .failed => style = .returns
  | .throws => true

/-! ## One call -/

/-- The shared variables of the closures, what is outstanding, and what the call has done. `ended` tells
whether the call has failed or has received its delivery report. -/
structure Call (ν : Type) where
  spec : Spec ν
  resolvedValue : Option ν
  resolvedKey : Option ν
  calledBack : Bool
  pendingValue : Bool
  pendingKey : Bool
  /-- the immediate of the `catch` -/
  thrown : Bool
  /-- the listeners for the delivery report -/
  listeners : Nat
  /-- accepted messages without a report -/
  undelivered : Nat
  /-- immediates that a report has made -/
  reported : Nat
  produced : List (ν × ν)
  callbacks : Nat
  ended : Bool

namespace Call

def start (spec : Spec ν) : Call ν :=
  ⟨spec, none, none, false, false, false, false, 0, 0, 0, [], 0, false⟩

def doProduce (c : Call ν) (v k : ν) : Call ν :=
  if c.spec.answer c.produced.length then
    { c with produced := c.produced ++ [(v, k)], listeners := c.listeners + 1, undelivered := c.undelivered + 1 }
  else { c with produced := c.produced ++ [(v, k)], callbacks := c.callbacks + 1, ended := true }

def produceIfComplete (c : Call ν) : Call ν :=
  match c.resolvedValue, c.resolvedKey with
  | some v, some k => c.doProduce v k
  | _, _ => c

def finishSerializedValue (c : Call ν) (v : ν) : Call ν :=
  if c.calledBack then c else { c with resolvedValue := some v }.produceIfComplete

def finishSerializedKey (c : Call ν) (k : ν) : Call ν :=
  if c.calledBack then { c with resolvedKey := some k } else { c with resolvedKey := some k }.produceIfComplete

def failSerialized (c : Call ν) : Call ν :=
  if c.calledBack then c else { c with calledBack := true, callbacks := c.callbacks + 1, ended := true }

/-- `valueSerializerCallback`, or the `then` and `catch` of the promise. -/
def completeValue (c : Call ν) : Call ν :=
  match c.spec.valueOut with
  | .value v => { c with pendingValue := false }.finishSerializedValue v
  | _ => { c with pendingValue := false }.failSerialized

def completeKey (c : Call ν) : Call ν :=
  match c.spec.keyOut with
  | .value k => { c with pendingKey := false }.finishSerializedKey k
  | _ => { c with pendingKey := false }.failSerialized

def applyValue (c : Call ν) : Call ν :=
  match c.spec.value.style, c.spec.valueOut with
  | .returns, .value v => { c with resolvedValue := some v }
  | .returns, _ => c
  | .calls, _ => if c.spec.valueEarly then c.completeValue else { c with pendingValue := true }
  | .promises, _ => { c with pendingValue := true }

def callbackDuring (c : Call ν) : Side → Call ν
  | .value => if c.pendingValue ∧ c.spec.value.style = .calls then c.completeValue else c
  | .key => if c.pendingKey then c.completeKey else c

def runKey (c : Call ν) : Call ν :=
  c.spec.during.foldl callbackDuring
    { c with
      pendingKey := c.spec.key.style = .calls && c.spec.keyArgs.2 && !c.spec.keyOut.thrownBy c.spec.key.style }

def returnKey (c : Call ν) : Call ν :=
  match c.spec.key.style, c.spec.keyOut with
  | .returns, .value k => { c with resolvedKey := some k }
  | .returns, _ => c
  | .calls, _ => c
  | .promises, _ => { c with pendingKey := true }

def catchThrown (c : Call ν) : Call ν :=
  { c with thrown := true, ended := true }

def modifiedProduce (spec : Spec ν) : Call ν :=
  if spec.valueOut.thrownBy spec.value.style then (start spec).catchThrown
  else if spec.keyOut.thrownBy spec.key.style then (start spec).applyValue.runKey.catchThrown
  else (start spec).applyValue.runKey.returnKey.produceIfComplete

/-- The immediate of the `catch`. -/
def thrownImmediate (c : Call ν) : Call ν :=
  { c with thrown := false, calledBack := true, callbacks := c.callbacks + 1 }

def report (c : Call ν) : Call ν :=
  { c with undelivered := c.undelivered - 1, reported := c.reported + c.listeners, listeners := 0, ended := true }

def reportImmediate (c : Call ν) : Call ν :=
  { c with reported := c.reported - 1, callbacks := c.callbacks + 1 }

end Call

/-! ## The producer -/

structure RefCounter where
  currentValue : Int
  isRunning : Bool
  deriving DecidableEq, Repr

/-- `pollingRef` and the interval that its two callbacks set and clear. -/
structure Polling where
  ref : RefCounter
  interval : Bool
  deriving DecidableEq, Repr

namespace Polling

def increment (p : Polling) : Polling :=
  let currentValue := p.ref.currentValue + 1
  if currentValue > 0 ∧ ¬ p.ref.isRunning then ⟨⟨currentValue, true⟩, true⟩
  else { p with ref := ⟨currentValue, p.ref.isRunning⟩ }

def decrement (p : Polling) : Polling :=
  let currentValue := p.ref.currentValue - 1
  if currentValue ≤ 0 ∧ p.ref.isRunning then ⟨⟨currentValue, false⟩, false⟩
  else { p with ref := ⟨currentValue, p.ref.isRunning⟩ }

def decrements : Nat → Polling → Polling
  | 0, p => p
  | n + 1, p => decrements n p.decrement

end Polling

structure State (ν : Type) where
  count : Nat
  calls : Nat → Option (Call ν)
  polling : Polling

namespace State

def update (s : State ν) (i : Nat) (c : Call ν) : State ν :=
  { s with calls := Function.update s.calls i (some c) }

end State

inductive Label (ν : Type) where
  | produce (spec : Spec ν)
  /-- a callback or a promise that comes later -/
  | complete (i : Nat) (side : Side)
  | thrownImmediate (i : Nat)
  | report (i : Nat)
  | reportImmediate (i : Nat)
  /-- `poll` of the interval threw, and the producer is not connected -/
  | pollDisconnected

def step (s : State ν) : Label ν → Option (State ν)
  | .produce spec =>
    some { count := s.count + 1
           calls := Function.update s.calls s.count (some (Call.modifiedProduce spec))
           polling := s.polling.increment }
  | .complete i .value =>
    match s.calls i with
    | some c => if c.pendingValue then some (s.update i c.completeValue) else none
    | none => none
  | .complete i .key =>
    match s.calls i with
    | some c => if c.pendingKey then some (s.update i c.completeKey) else none
    | none => none
  | .thrownImmediate i =>
    match s.calls i with
    | some c => if c.thrown then some (s.update i c.thrownImmediate) else none
    | none => none
  | .report i =>
    match s.calls i with
    | some c =>
      if c.undelivered > 0 then
        some { s.update i c.report with polling := s.polling.decrements c.listeners }
      else none
    | none => none
  | .reportImmediate i =>
    match s.calls i with
    | some c => if c.reported > 0 then some (s.update i c.reportImmediate) else none
    | none => none
  | .pollDisconnected =>
    if s.polling.interval then some { s with polling := { s.polling with interval := false } } else none

def lts (ν : Type) : Lts (State ν) (Label ν) where
  init := ⟨0, fun _ => none, ⟨⟨0, false⟩, false⟩⟩
  step := step

/-! ## What each call is promised -/

def Out.isValue : Out ν → Bool
  | .value _ => true
  | _ => false

namespace Spec

def ownValue (spec : Spec ν) : Out ν :=
  spec.value.out (if spec.value.needsTopic then [.topic, .message] else [.message])

def ownKey (spec : Spec ν) : Out ν :=
  spec.key.out (if spec.key.needsTopic then [.topic, .key] else [.key])

def valueThrows (spec : Spec ν) : Bool :=
  spec.valueOut.thrownBy spec.value.style

def keyThrows (spec : Spec ν) : Bool :=
  spec.keyOut.thrownBy spec.key.style

/-- The outcome of the value serializer is in before the key serializer returns. -/
def earlyValue (spec : Spec ν) : Bool :=
  match spec.value.style with
  | .returns => true
  | .calls => spec.valueEarly || spec.during.contains .value
  | .promises => false

def earlyKey (spec : Spec ν) : Bool :=
  spec.key.style = .calls && spec.during.contains .key

def keyGiven (spec : Spec ν) : Bool :=
  spec.key.style = .calls && spec.keyArgs.2 && !spec.keyThrows

end Spec

namespace Call

def Quiet (c : Call ν) : Prop :=
  c.pendingValue = false ∧ c.pendingKey = false ∧ c.thrown = false ∧ c.undelivered = 0 ∧ c.reported = 0

structure Delivered (c : Call ν) : Prop where
  once : c.produced.length ≤ 1
  own : ∀ p ∈ c.produced, c.spec.ownValue = .value p.1 ∧ c.spec.ownKey = .value p.2
  atMost : c.callbacks ≤ 1
  all : c.Quiet → c.callbacks = 1

end Call

/-- The serializers are of one kind, a key serializer that calls back before it returns does not find the
value already serialized, and a value that failed already does not meet a key serializer that throws. -/
def Spec.orderly (spec : Spec ν) : Bool :=
  spec.value.needsTopic == spec.key.needsTopic &&
    (spec.valueThrows ||
      (!(spec.earlyValue && spec.earlyKey && spec.valueOut.isValue && spec.keyOut.isValue) &&
        !(spec.earlyValue && !spec.valueOut.isValue && spec.keyThrows)))

def condition (s : State ν) : Label ν → Bool
  | .produce spec => spec.orderly
  | .complete i .value => (s.calls i).all fun c => !c.thrown || c.spec.valueOut.isValue
  | _ => true

/-! ## While the serializers run -/

namespace Call

/-- What holds from the value serializer to the return of the key serializer. `given` tells whether the key
serializer has been given its callback. -/
structure Running (spec : Spec ν) (given : Bool) (c : Call ν) : Prop where
  same : c.spec = spec
  unproduced : c.produced = []
  unthrown : c.thrown = false
  unheard : c.listeners = 0 ∧ c.undelivered = 0 ∧ c.reported = 0
  value : ∀ v, c.resolvedValue = some v → spec.valueOut = .value v ∧ spec.earlyValue = true ∧ c.pendingValue = false
  key : ∀ k, c.resolvedKey = some k → spec.keyOut = .value k ∧ spec.earlyKey = true ∧ c.pendingKey = false
  keyCalls : c.pendingKey = true → spec.key.style = .calls ∧ spec.keyThrows = false
  called : c.callbacks = if c.calledBack then 1 else 0
  ended : c.ended = c.calledBack
  failed : c.calledBack = true → (spec.earlyValue = true ∧ spec.valueOut.isValue = false) ∨
    (spec.keyThrows = false ∧ spec.keyOut.isValue = false)
  openValue : c.calledBack = false → c.resolvedValue = none → c.pendingValue = true
  openKey : given = true → c.calledBack = false → c.resolvedKey = none → c.pendingKey = true

/-- The two results do not meet before the key serializer returns. -/
def Apart (spec : Spec ν) : Prop :=
  ¬(spec.earlyValue = true ∧ spec.earlyKey = true ∧ spec.valueOut.isValue = true ∧ spec.keyOut.isValue = true)

section
variable {spec : Spec ν} {given : Bool} {c : Call ν}

theorem Running.apart (ha : Apart spec) (h : c.Running spec given) :
    c.resolvedValue = none ∨ c.resolvedKey = none := by
  cases hv : c.resolvedValue with
  | none => exact .inl rfl
  | some v =>
    cases hk : c.resolvedKey with
    | none => exact .inr rfl
    | some k =>
      obtain ⟨hv', he, -⟩ := h.value v hv
      obtain ⟨hk', he', -⟩ := h.key k hk
      exact absurd ⟨he, he', by simp [hv', Out.isValue], by simp [hk', Out.isValue]⟩ ha

theorem produceIfComplete_of_none (h : c.resolvedValue = none ∨ c.resolvedKey = none) :
    c.produceIfComplete = c := by
  unfold produceIfComplete
  rcases h with h | h
  · simp [h]
  · rw [h]
    split <;> simp_all

theorem isValue_eq_false {o : Out ν} (h : ∀ v, o ≠ .value v) : o.isValue = false := by
  cases o with
  | value v => exact absurd rfl (h v)
  | failed => rfl
  | throws => rfl

theorem running_completeValue (ha : Apart spec) (h : c.Running spec given) (hp : c.pendingValue = true)
    (he : spec.earlyValue = true) : c.completeValue.Running spec given := by
  have hnone : c.resolvedValue = none := by
    cases hv : c.resolvedValue with
    | none => rfl
    | some v => simp [(h.value v hv).2.2] at hp
  obtain ⟨same, unproduced, unthrown, unheard, value, key, keyCalls, called, ended, failed, openValue, openKey⟩ := h
  unfold completeValue
  split
  · rename_i v hv
    rw [same] at hv
    unfold finishSerializedValue
    split
    · constructor <;> grind
    · have hr : Running spec given { c with pendingValue := false, resolvedValue := some v } := by
        constructor <;> grind
      rwa [produceIfComplete_of_none (hr.apart ha)]
  · rename_i hv
    have hf : spec.valueOut.isValue = false := isValue_eq_false (same ▸ hv)
    unfold failSerialized
    split <;> constructor <;> grind

theorem running_completeKey (ha : Apart spec) (h : c.Running spec given) (hp : c.pendingKey = true)
    (he : spec.earlyKey = true) : c.completeKey.Running spec given := by
  obtain ⟨same, unproduced, unthrown, unheard, value, key, keyCalls, called, ended, failed, openValue, openKey⟩ := h
  unfold completeKey
  split
  · rename_i k hk
    rw [same] at hk
    have hr : Running spec given { c with pendingKey := false, resolvedKey := some k } := by
      constructor <;> grind
    unfold finishSerializedKey
    split
    · exact hr
    · rwa [produceIfComplete_of_none (hr.apart ha)]
  · rename_i hk
    have hf : spec.keyOut.isValue = false := isValue_eq_false (same ▸ hk)
    unfold failSerialized
    split <;> constructor <;> grind

theorem running_callbackDuring {side : Side} (ha : Apart spec) (h : c.Running spec given)
    (hm : side ∈ spec.during) :
    (c.callbackDuring side).Running spec given := by
  cases side with
  | value =>
    simp only [callbackDuring]
    split
    · rename_i hc
      have he : spec.earlyValue = true := by
        have hs : spec.value.style = .calls := by rw [← h.same]; exact hc.2
        simp [Spec.earlyValue, hs, hm]
      exact running_completeValue ha h hc.1 he
    · exact h
  | key =>
    simp only [callbackDuring]
    split
    · rename_i hc
      have he : spec.earlyKey = true := by simp [Spec.earlyKey, (h.keyCalls hc).1, hm]
      exact running_completeKey ha h hc he
    · exact h

theorem running_applyValue (ha : Apart spec) (ht : spec.valueThrows = false) :
    (start spec).applyValue.Running spec false := by
  have hs : Running spec false { start spec with pendingValue := true } := by
    constructor <;> simp [start]
  unfold applyValue
  split
  · rename_i v hst hv
    have he : spec.earlyValue = true := by
      have : spec.value.style = .returns := hst
      simp [Spec.earlyValue, this]
    have hv' : spec.valueOut = .value v := hv
    constructor <;> simp [start, he, hv']
  · rename_i hst hv
    have hst' : spec.value.style = .returns := hst
    have hv' : ∀ v, spec.valueOut ≠ .value v := hv
    cases ho : spec.valueOut with
    | value v => exact absurd ho (hv' v)
    | failed => simp [Spec.valueThrows, Out.thrownBy, ho, hst'] at ht
    | throws => simp [Spec.valueThrows, Out.thrownBy, ho] at ht
  · rename_i hst
    have hst' : spec.value.style = .calls := hst
    split
    · rename_i hearly
      have hearly' : spec.valueEarly = true := hearly
      have he : spec.earlyValue = true := by simp [Spec.earlyValue, hst', hearly']
      have heq : (start spec).completeValue = { start spec with pendingValue := true }.completeValue := rfl
      rw [heq]
      exact running_completeValue ha hs rfl he
    · exact hs
  · exact hs

@[simp]
theorem produceIfComplete_spec : c.produceIfComplete.spec = c.spec := by
  unfold produceIfComplete doProduce
  split
  · split <;> rfl
  · rfl

@[simp]
theorem completeValue_spec : c.completeValue.spec = c.spec := by
  unfold completeValue finishSerializedValue failSerialized
  split
  · split <;> simp
  · split <;> rfl

@[simp]
theorem completeKey_spec : c.completeKey.spec = c.spec := by
  unfold completeKey finishSerializedKey failSerialized
  split
  · split <;> simp
  · split <;> rfl

theorem applyValue_spec : c.applyValue.spec = c.spec := by
  unfold applyValue
  split
  · rfl
  · rfl
  · split <;> simp
  · rfl

theorem callbackDuring_spec {side : Side} : (c.callbackDuring side).spec = c.spec := by
  cases side <;> simp only [callbackDuring] <;> split <;> simp

theorem runKey_spec : c.runKey.spec = c.spec := by
  unfold runKey
  refine List.foldlRecOn (motive := fun d : Call ν => d.spec = c.spec) _ _ ?_ ?_
  · rfl
  · exact fun _ hd _ _ => callbackDuring_spec.trans hd

theorem returnKey_spec : c.returnKey.spec = c.spec := by
  unfold returnKey
  split <;> rfl

theorem modifiedProduce_spec (spec : Spec ν) : (modifiedProduce spec).spec = spec := by
  unfold modifiedProduce
  split
  · rfl
  · split
    · exact runKey_spec.trans applyValue_spec
    · rw [produceIfComplete_spec, returnKey_spec, runKey_spec, applyValue_spec]
      rfl

@[simp]
theorem produceIfComplete_resolvedKey : c.produceIfComplete.resolvedKey = c.resolvedKey := by
  unfold produceIfComplete doProduce
  split
  · split <;> rfl
  · rfl

theorem completeValue_resolvedKey : c.completeValue.resolvedKey = c.resolvedKey := by
  unfold completeValue finishSerializedValue failSerialized
  split
  · split <;> simp
  · split <;> rfl

theorem applyValue_resolvedKey : c.applyValue.resolvedKey = c.resolvedKey := by
  unfold applyValue
  split
  · rfl
  · rfl
  · split
    · exact completeValue_resolvedKey
    · rfl
  · rfl

theorem running_runKey (ha : Apart spec) (h : c.Running spec false) (hk : c.resolvedKey = none) :
    c.runKey.Running spec spec.keyGiven := by
  have hs : Running spec spec.keyGiven { c with pendingKey := spec.keyGiven } := by
    obtain ⟨same, unproduced, unthrown, unheard, value, key, keyCalls, called, ended, failed, openValue, openKey⟩ :=
      h
    constructor <;> grind [Spec.keyGiven]
  have hr : c.runKey = spec.during.foldl callbackDuring { c with pendingKey := spec.keyGiven } := by
    rw [← h.same]
    rfl
  rw [hr]
  exact List.foldlRecOn spec.during callbackDuring hs fun b hb side hm => running_callbackDuring ha hb hm

end

/-! ## The stages of a call -/

structure Unsent (c : Call ν) : Prop where
  unproduced : c.produced = []
  unthrown : c.thrown = false
  unheard : c.listeners = 0 ∧ c.undelivered = 0 ∧ c.reported = 0
  uncalled : c.calledBack = false ∧ c.callbacks = 0 ∧ c.ended = false
  value : ∀ v, c.resolvedValue = some v → c.spec.valueOut = .value v ∧ c.pendingValue = false
  key : ∀ k, c.resolvedKey = some k → c.spec.keyOut = .value k ∧ c.pendingKey = false

structure Waiting (c : Call ν) : Prop extends Unsent c where
  missing : c.resolvedValue = none ∨ c.resolvedKey = none

def Open (c : Call ν) : Prop :=
  (c.resolvedValue = none → c.pendingValue = true) ∧ (c.resolvedKey = none → c.pendingKey = true)

/-- The call has produced its message, and a report, an immediate or the callback is what follows. -/
structure Sent (c : Call ν) : Prop where
  produced : ∃ v k, c.produced = [(v, k)] ∧ c.spec.valueOut = .value v ∧ c.spec.keyOut = .value k
  unthrown : c.thrown = false
  settled : c.pendingValue = false ∧ c.pendingKey = false
  heard : c.listeners = c.undelivered
  one : c.listeners + c.reported + c.callbacks = 1
  ended : c.ended = (c.listeners = 0)

structure JustSent (c : Call ν) : Prop extends Sent c where
  accepted : c.spec.answer 0 = true → c.ended = false

structure Failed (c : Call ν) : Prop where
  unproduced : c.produced = []
  unthrown : c.thrown = false
  unheard : c.listeners = 0 ∧ c.undelivered = 0 ∧ c.reported = 0
  called : c.calledBack = true ∧ c.callbacks = 1

structure Thrown (c : Call ν) : Prop where
  unproduced : c.produced = []
  thrown : c.thrown = true
  unheard : c.listeners = 0 ∧ c.undelivered = 0 ∧ c.reported = 0
  uncalled : c.calledBack = false ∧ c.callbacks = 0
  keyless : c.resolvedKey = none ∧ c.pendingKey = false

section
variable {c : Call ν}

theorem Unsent.doProduce {v k : ν} (h : c.Unsent) (hv : c.resolvedValue = some v) (hk : c.resolvedKey = some k) :
    (c.doProduce v k).JustSent := by
  obtain ⟨hl, hd, hr⟩ := h.unheard
  obtain ⟨-, hb, ho⟩ := h.uncalled
  obtain ⟨hv, hpv⟩ := h.value v hv
  obtain ⟨hk, hpk⟩ := h.key k hk
  have hp := h.unproduced
  unfold Call.doProduce
  split
  · exact ⟨⟨⟨v, k, by simp [hp], hv, hk⟩, h.unthrown, ⟨hpv, hpk⟩, by simp [hl, hd], by simp [hl, hr, hb],
      by simp [ho]⟩, fun _ => ho⟩
  · rename_i hn
    exact ⟨⟨⟨v, k, by simp [hp], hv, hk⟩, h.unthrown, ⟨hpv, hpk⟩, by simp [hl, hd], by simp [hl, hr, hb],
      by simp [hl]⟩, fun ha => absurd (by simpa [hp] using ha) hn⟩

theorem Unsent.produceIfComplete (h : c.Unsent) :
    (c.produceIfComplete = c ∧ c.Waiting) ∨ c.produceIfComplete.JustSent := by
  by_cases hm : c.resolvedValue = none ∨ c.resolvedKey = none
  · exact .inl ⟨produceIfComplete_of_none hm, h, hm⟩
  · push Not at hm
    obtain ⟨v, hv⟩ := Option.ne_none_iff_exists'.mp hm.1
    obtain ⟨k, hk⟩ := Option.ne_none_iff_exists'.mp hm.2
    have he : c.produceIfComplete = c.doProduce v k := by
      simp [Call.produceIfComplete, hv, hk]
    rw [he]
    exact .inr (h.doProduce hv hk)

theorem Unsent.failSerialized (h : c.Unsent) : c.failSerialized.Failed := by
  obtain ⟨hc, hb, -⟩ := h.uncalled
  simp only [Call.failSerialized, hc, Bool.false_eq_true, if_false]
  exact ⟨h.unproduced, h.unthrown, h.unheard, rfl, by simp [hb]⟩

theorem Waiting.completeValue (h : c.Waiting) :
    (c.completeValue.Waiting ∧ (c.Open → c.completeValue.Open)) ∨ c.completeValue.JustSent ∨
      (c.spec.valueOut.isValue = false ∧ c.completeValue.Failed) := by
  unfold Call.completeValue
  split
  · rename_i v hv
    have hu : Unsent { c with pendingValue := false, resolvedValue := some v } :=
      { h with value := fun w hw => by cases hw; exact ⟨hv, rfl⟩ }
    rw [finishSerializedValue, if_neg (by simp [h.uncalled.1])]
    rcases hu.produceIfComplete with ⟨he, hw⟩ | hs
    · rw [he]
      exact .inl ⟨hw, fun ho => ⟨fun hn => (nomatch hn), ho.2⟩⟩
    · exact .inr (.inl hs)
  · rename_i hv
    have hu : Unsent { c with pendingValue := false } :=
      { h with value := fun w hw => ⟨(h.value w hw).1, rfl⟩ }
    exact .inr (.inr ⟨isValue_eq_false hv, hu.failSerialized⟩)

theorem Waiting.completeKey (h : c.Waiting) :
    (c.completeKey.Waiting ∧ (c.Open → c.completeKey.Open)) ∨ c.completeKey.JustSent ∨
      (c.spec.keyOut.isValue = false ∧ c.completeKey.Failed) := by
  unfold Call.completeKey
  split
  · rename_i k hk
    have hu : Unsent { c with pendingKey := false, resolvedKey := some k } :=
      { h with key := fun w hw => by cases hw; exact ⟨hk, rfl⟩ }
    rw [finishSerializedKey, if_neg (by simp [h.uncalled.1])]
    rcases hu.produceIfComplete with ⟨he, hw⟩ | hs
    · rw [he]
      exact .inl ⟨hw, fun ho => ⟨ho.1, fun hn => (nomatch hn)⟩⟩
    · exact .inr (.inl hs)
  · rename_i hk
    have hu : Unsent { c with pendingKey := false } :=
      { h with key := fun w hw => ⟨(h.key w hw).1, rfl⟩ }
    exact .inr (.inr ⟨isValue_eq_false hk, hu.failSerialized⟩)

theorem Failed.completeValue (h : c.Failed) : c.completeValue.Failed := by
  obtain ⟨hc, hb⟩ := h.called
  unfold Call.completeValue
  split
  · rw [finishSerializedValue, if_pos hc]
    exact { h with }
  · rw [Call.failSerialized, if_pos hc]
    exact { h with }

theorem Failed.completeKey (h : c.Failed) : c.completeKey.Failed := by
  obtain ⟨hc, hb⟩ := h.called
  unfold Call.completeKey
  split
  · rw [finishSerializedKey, if_pos hc]
    exact { h with }
  · rw [Call.failSerialized, if_pos hc]
    exact { h with }

theorem Thrown.completeValue (h : c.Thrown) (hv : c.spec.valueOut.isValue = true) : c.completeValue.Thrown := by
  unfold Call.completeValue
  split
  · rename_i v _
    have ht : Thrown { c with pendingValue := false, resolvedValue := some v } := { h with }
    have he := produceIfComplete_of_none (c := { c with pendingValue := false, resolvedValue := some v })
      (.inr h.keyless.1)
    rw [finishSerializedValue, if_neg (by simp [h.uncalled.1])]
    exact he.symm ▸ ht
  · rename_i hn
    simp [isValue_eq_false hn] at hv

theorem Thrown.thrownImmediate (h : c.Thrown) : c.thrownImmediate.Failed :=
  ⟨h.unproduced, rfl, h.unheard, rfl, by simp [Call.thrownImmediate, h.uncalled.2]⟩

theorem Sent.report (h : c.Sent) (hd : c.undelivered > 0) : c.report.Sent := by
  obtain ⟨produced, unthrown, settled, heard, one, ended⟩ := h
  refine ⟨produced, unthrown, settled, ?_, ?_, ?_⟩
  · simp only [Call.report]
    omega
  · simp only [Call.report]
    omega
  · simp [Call.report]

theorem Sent.reportImmediate (h : c.Sent) (hr : c.reported > 0) : c.reportImmediate.Sent := by
  obtain ⟨produced, unthrown, settled, heard, one, ended⟩ := h
  refine ⟨produced, unthrown, settled, heard, ?_, ended⟩
  simp only [Call.reportImmediate]
  omega

end

/-! ### The call itself -/

section
variable {spec : Spec ν} {c : Call ν}

theorem thrown_start : (start spec).catchThrown.Thrown :=
  ⟨rfl, rfl, ⟨rfl, rfl, rfl⟩, ⟨rfl, rfl⟩, rfl, rfl⟩

/-- The key serializer throws, and no callback has reported a failure before. -/
theorem Running.catchThrown (h : c.Running spec spec.keyGiven) (hk : spec.keyThrows = true)
    (hf : ¬(spec.earlyValue = true ∧ spec.valueOut.isValue = false)) : c.catchThrown.Thrown := by
  have hc : c.calledBack = false := by
    cases hc : c.calledBack with
    | false => rfl
    | true =>
      rcases h.failed hc with h' | h'
      · exact absurd h' hf
      · simp [hk] at h'
  have hpk : c.pendingKey = false := by
    cases hp : c.pendingKey with
    | false => rfl
    | true => exact absurd (h.keyCalls hp).2 (by simp [hk])
  have hn : c.resolvedKey = none := by
    cases hr : c.resolvedKey with
    | none => rfl
    | some k => simp [Spec.keyThrows, Out.thrownBy, (h.key k hr).1] at hk
  exact ⟨h.unproduced, rfl, h.unheard, ⟨hc, by simp [Call.catchThrown, h.called, hc]⟩, hn, hpk⟩

theorem Running.returnKey (h : c.Running spec spec.keyGiven) (hk : spec.keyThrows = false)
    (hc : c.calledBack = false) :
    c.returnKey.Unsent ∧ (spec.keyArgs.2 = true → c.returnKey.Open) := by
  have hb := h.called
  have ho := h.ended
  have hg := h.openKey
  have hlate : spec.key.style ≠ .calls → c.resolvedKey = none := by
    intro hs
    cases hr : c.resolvedKey with
    | none => rfl
    | some k => exact absurd (h.key k hr).2.1 (by simp [Spec.earlyKey, hs])
  obtain ⟨same, unproduced, unthrown, unheard, value, key, keyCalls, called, ended, failed, openValue, openKey⟩ := h
  subst same
  unfold Call.returnKey
  split
  · rename_i k hst hko
    have hn := hlate (by simp [hst])
    refine ⟨?_, fun _ => ?_⟩
    · constructor <;> grind
    · exact ⟨openValue hc, fun h => (nomatch h)⟩
  · rename_i hst hko
    exfalso
    cases hv : c.spec.keyOut with
    | value k => exact hko k hv
    | failed => simp [Spec.keyThrows, Out.thrownBy, hv, hst] at hk
    | throws => simp [Spec.keyThrows, Out.thrownBy, hv] at hk
  · rename_i hst
    refine ⟨?_, fun ha => ⟨openValue hc, openKey (by simp [Spec.keyGiven, hst, hk, ha]) hc⟩⟩
    constructor <;> grind
  · rename_i hst
    have hn := hlate (by simp [hst])
    refine ⟨?_, fun _ => ⟨openValue hc, fun _ => rfl⟩⟩
    constructor <;> grind

theorem Failed.returnKey (h : c.Failed) : c.returnKey.Failed := by
  unfold Call.returnKey
  split
  · exact { h with }
  · exact h
  · exact h
  · exact { h with }

theorem Running.returnKey_failed (h : c.Running spec spec.keyGiven) (hc : c.calledBack = true) :
    c.returnKey.produceIfComplete.Failed ∧ (spec.valueOut.isValue = false ∨ spec.keyOut.isValue = false) := by
  have hf : c.Failed := ⟨h.unproduced, h.unthrown, h.unheard, hc, by simp [h.called, hc]⟩
  obtain ⟨same, -, -, -, value, key, -, -, -, failed, -, -⟩ := h
  subst same
  have hnone : c.returnKey.resolvedValue = none ∨ c.returnKey.resolvedKey = none := by
    rcases failed hc with ⟨-, hv⟩ | ⟨-, hk⟩
    · refine .inl ?_
      have hn : c.resolvedValue = none := by
        cases hr : c.resolvedValue with
        | none => rfl
        | some v => simp [(value v hr).1, Out.isValue] at hv
      unfold Call.returnKey
      split <;> exact hn
    · refine .inr ?_
      have hn : c.resolvedKey = none := by
        cases hr : c.resolvedKey with
        | none => rfl
        | some k => simp [(key k hr).1, Out.isValue] at hk
      unfold Call.returnKey
      split
      · rename_i k _ hko
        simp [hko, Out.isValue] at hk
      · exact hn
      · exact hn
      · exact hn
  rw [produceIfComplete_of_none hnone]
  exact ⟨hf.returnKey, (failed hc).imp And.right And.right⟩

theorem modifiedProduce_returns (ha : Apart spec) (hv : spec.valueThrows = false) (hk : spec.keyThrows = false) :
    ((modifiedProduce spec).Waiting ∧ (spec.keyArgs.2 = true → (modifiedProduce spec).Open)) ∨
      (modifiedProduce spec).JustSent ∨
      ((spec.valueOut.isValue = false ∨ spec.keyOut.isValue = false) ∧ (modifiedProduce spec).Failed) := by
  have hr := running_runKey ha (running_applyValue ha hv) (applyValue_resolvedKey.trans rfl)
  have he : modifiedProduce spec = (start spec).applyValue.runKey.returnKey.produceIfComplete := by
    rw [modifiedProduce, if_neg (by simpa [Spec.valueThrows] using hv), if_neg (by simpa [Spec.keyThrows] using hk)]
  rw [he]
  cases hc : (start spec).applyValue.runKey.calledBack with
  | true => exact .inr (.inr (hr.returnKey_failed hc).symm)
  | false =>
    obtain ⟨hu, ho⟩ := hr.returnKey hk hc
    rcases hu.produceIfComplete with ⟨he, hw⟩ | hs
    · rw [he]
      exact .inl ⟨hw, ho⟩
    · exact .inr (.inl hs)

end

end Call

/-! ## Orderly calls -/

section
variable {c : Call ν}

def Call.Orderly (c : Call ν) : Prop :=
  c.spec.keyOut = c.spec.ownKey ∧ ((c.Waiting ∧ c.Open) ∨ c.Thrown ∨ c.Failed ∨ c.Sent)

theorem keyOut_eq_ownKey {spec : Spec ν} (h : spec.value.needsTopic = spec.key.needsTopic) :
    spec.keyOut = spec.ownKey ∧ spec.keyArgs.2 = true := by
  cases hk : spec.key.needsTopic <;> rw [hk] at h <;> simp [Spec.keyOut, Spec.ownKey, Spec.keyArgs, h, hk]

theorem Call.Orderly.delivered (h : c.Orderly) : c.Delivered := by
  obtain ⟨hk, ⟨hw, ho⟩ | ht | hf | hs⟩ := h
  · obtain ⟨-, hb, -⟩ := hw.uncalled
    refine ⟨by simp [hw.unproduced], by simp [hw.unproduced], by simp [hb], fun hq => ?_⟩
    obtain ⟨hv, hk, -⟩ := hq
    rcases hw.missing with hm | hm
    · simp [ho.1 hm] at hv
    · simp [ho.2 hm] at hk
  · refine ⟨by simp [ht.unproduced], by simp [ht.unproduced], by simp [ht.uncalled.2], fun hq => ?_⟩
    simp [Call.Quiet, ht.thrown] at hq
  · exact ⟨by simp [hf.unproduced], by simp [hf.unproduced], by simp [hf.called.2], fun _ => hf.called.2⟩
  · obtain ⟨v, k, hp, hv, hk'⟩ := hs.produced
    have hone := hs.one
    refine ⟨by simp [hp], ?_, by omega, fun hq => ?_⟩
    · intro p hm
      rw [hp, List.mem_singleton] at hm
      subst hm
      exact ⟨hv, hk ▸ hk'⟩
    · have hh := hs.heard
      obtain ⟨-, -, -, hu, hr⟩ := hq
      omega

theorem orderly_modifiedProduce {spec : Spec ν} (h : spec.orderly = true) :
    (Call.modifiedProduce spec).Orderly := by
  simp only [Spec.orderly, Bool.and_eq_true, beq_iff_eq, Bool.or_eq_true] at h
  obtain ⟨hkind, h⟩ := h
  obtain ⟨hown, hargs⟩ := keyOut_eq_ownKey hkind
  refine ⟨by rw [Call.modifiedProduce_spec]; exact hown, ?_⟩
  cases hv : spec.valueThrows with
  | true =>
    have he : Call.modifiedProduce spec = (Call.start spec).catchThrown := if_pos hv
    rw [he]
    exact .inr (.inl Call.thrown_start)
  | false =>
    obtain ⟨ha, hf⟩ := h.resolve_left (by simp [hv])
    have ha : Call.Apart spec := by
      rintro ⟨h₁, h₂, h₃, h₄⟩
      simp [h₁, h₂, h₃, h₄] at ha
    cases hk : spec.keyThrows with
    | true =>
      have he : Call.modifiedProduce spec = (Call.start spec).applyValue.runKey.catchThrown := by
        rw [Call.modifiedProduce, if_neg (by simpa [Spec.valueThrows] using hv), if_pos (by exact hk)]
      have hr := Call.running_runKey ha (Call.running_applyValue ha hv) (Call.applyValue_resolvedKey.trans rfl)
      have hf : ¬(spec.earlyValue = true ∧ spec.valueOut.isValue = false) := by
        rintro ⟨h₁, h₂⟩
        simp [h₁, h₂, hk] at hf
      rw [he]
      exact .inr (.inl (hr.catchThrown hk hf))
    | false =>
      rcases Call.modifiedProduce_returns ha hv hk with ⟨hw, ho⟩ | hs | ⟨-, hf⟩
      · exact .inl ⟨hw, ho hargs⟩
      · exact .inr (.inr (.inr hs.toSent))
      · exact .inr (.inr (.inl hf))

theorem Call.Orderly.completeValue (h : c.Orderly) (hp : c.pendingValue = true)
    (hc : c.thrown = false ∨ c.spec.valueOut.isValue = true) : c.completeValue.Orderly := by
  obtain ⟨hk, h⟩ := h
  refine ⟨by simpa using hk, ?_⟩
  rcases h with ⟨hw, ho⟩ | ht | hf | hs
  · rcases hw.completeValue with ⟨hw, ho'⟩ | hs | ⟨-, hf⟩
    · exact .inl ⟨hw, ho' ho⟩
    · exact .inr (.inr (.inr hs.toSent))
    · exact .inr (.inr (.inl hf))
  · exact .inr (.inl (ht.completeValue (hc.resolve_left (by simp [ht.thrown]))))
  · exact .inr (.inr (.inl hf.completeValue))
  · simp [hs.settled.1] at hp

theorem Call.Orderly.completeKey (h : c.Orderly) (hp : c.pendingKey = true) : c.completeKey.Orderly := by
  obtain ⟨hk, h⟩ := h
  refine ⟨by simpa using hk, ?_⟩
  rcases h with ⟨hw, ho⟩ | ht | hf | hs
  · rcases hw.completeKey with ⟨hw, ho'⟩ | hs | ⟨-, hf⟩
    · exact .inl ⟨hw, ho' ho⟩
    · exact .inr (.inr (.inr hs.toSent))
    · exact .inr (.inr (.inl hf))
  · simp [ht.keyless.2] at hp
  · exact .inr (.inr (.inl hf.completeKey))
  · simp [hs.settled.2] at hp

theorem Call.Orderly.thrownImmediate (h : c.Orderly) (ht : c.thrown = true) : c.thrownImmediate.Orderly := by
  obtain ⟨hk, ⟨hw, -⟩ | h | hf | hs⟩ := h
  · simp [hw.unthrown] at ht
  · exact ⟨hk, .inr (.inr (.inl h.thrownImmediate))⟩
  · simp [hf.unthrown] at ht
  · simp [hs.unthrown] at ht

theorem Call.Orderly.report (h : c.Orderly) (hu : c.undelivered > 0) : c.report.Orderly := by
  obtain ⟨hk, ⟨hw, -⟩ | ht | hf | hs⟩ := h
  · simp [hw.unheard] at hu
  · simp [ht.unheard] at hu
  · simp [hf.unheard] at hu
  · exact ⟨hk, .inr (.inr (.inr (hs.report hu)))⟩

theorem Call.Orderly.reportImmediate (h : c.Orderly) (hr : c.reported > 0) : c.reportImmediate.Orderly := by
  obtain ⟨hk, ⟨hw, -⟩ | ht | hf | hs⟩ := h
  · simp [hw.unheard] at hr
  · simp [ht.unheard] at hr
  · simp [hf.unheard] at hr
  · exact ⟨hk, .inr (.inr (.inr (hs.reportImmediate hr)))⟩

end

/-! ## Every run -/

inductive Moves (s : State ν) : Label ν → State ν → Prop where
  | produce (spec : Spec ν) : Moves s (.produce spec)
      ⟨s.count + 1, Function.update s.calls s.count (some (Call.modifiedProduce spec)), s.polling.increment⟩
  | completeValue {i : Nat} {c : Call ν} (hc : s.calls i = some c) (hp : c.pendingValue = true) :
      Moves s (.complete i .value) (s.update i c.completeValue)
  | completeKey {i : Nat} {c : Call ν} (hc : s.calls i = some c) (hp : c.pendingKey = true) :
      Moves s (.complete i .key) (s.update i c.completeKey)
  | thrownImmediate {i : Nat} {c : Call ν} (hc : s.calls i = some c) (ht : c.thrown = true) :
      Moves s (.thrownImmediate i) (s.update i c.thrownImmediate)
  | report {i : Nat} {c : Call ν} (hc : s.calls i = some c) (hu : c.undelivered > 0) :
      Moves s (.report i) { s.update i c.report with polling := s.polling.decrements c.listeners }
  | reportImmediate {i : Nat} {c : Call ν} (hc : s.calls i = some c) (hr : c.reported > 0) :
      Moves s (.reportImmediate i) (s.update i c.reportImmediate)
  | pollDisconnected (hi : s.polling.interval = true) :
      Moves s .pollDisconnected { s with polling := { s.polling with interval := false } }

/-- A step of one call that is there and meets the condition of the step. -/
theorem of_call {o : Option (Call ν)} {p : Call ν → Prop} [DecidablePred p] {f : Call ν → State ν} {s' : State ν}
    (h : (match o with
      | some c => if p c then some (f c) else none
      | none => none) = some s') : ∃ c, o = some c ∧ p c ∧ f c = s' := by
  split at h
  · rename_i c
    split at h
    · rename_i hp
      exact ⟨c, rfl, hp, Option.some.inj h⟩
    · cases h
  · cases h

theorem step_moves {s s' : State ν} {e : Label ν} (h : step s e = some s') : Moves s e s' := by
  cases e with
  | produce spec =>
    cases h
    exact .produce spec
  | complete i side =>
    cases side with
    | value =>
      obtain ⟨c, hc, hp, rfl⟩ := of_call h
      exact .completeValue hc hp
    | key =>
      obtain ⟨c, hc, hp, rfl⟩ := of_call h
      exact .completeKey hc hp
  | thrownImmediate i =>
    obtain ⟨c, hc, ht, rfl⟩ := of_call h
    exact .thrownImmediate hc ht
  | report i =>
    obtain ⟨c, hc, hu, rfl⟩ := of_call h
    exact .report hc hu
  | reportImmediate i =>
    obtain ⟨c, hc, hr, rfl⟩ := of_call h
    exact .reportImmediate hc hr
  | pollDisconnected =>
    simp only [step] at h
    split at h
    · rename_i hi
      cases h
      exact .pollDisconnected hi
    · cases h

def State.All (P : Call ν → Prop) (s : State ν) : Prop :=
  ∀ i c, s.calls i = some c → P c

theorem State.All.update {P : Call ν → Prop} {s : State ν} {i : Nat} {c : Call ν} (h : s.All P) (hc : P c) :
    ∀ j d, Function.update s.calls i (some c) j = some d → P d := by
  intro j d hd
  rw [Function.update_apply] at hd
  split at hd
  · cases hd
    exact hc
  · exact h j d hd

theorem orderly_step {s s' : State ν} {e : Label ν} (h : s.All Call.Orderly) (hc : condition s e = true)
    (hs : step s e = some s') : s'.All Call.Orderly := by
  cases step_moves hs with
  | produce spec => exact h.update (orderly_modifiedProduce hc)
  | completeValue hi hp =>
    refine h.update ((h _ _ hi).completeValue hp ?_)
    simpa [condition, hi] using hc
  | completeKey hi hp => exact h.update ((h _ _ hi).completeKey hp)
  | thrownImmediate hi ht => exact h.update ((h _ _ hi).thrownImmediate ht)
  | report hi hu => exact h.update ((h _ _ hi).report hu)
  | reportImmediate hi hr => exact h.update ((h _ _ hi).reportImmediate hr)
  | pollDisconnected _ => exact h

/-- Each call of a run whose steps meet the condition produces once at most, what its serializers return for
their own arguments, and calls back once. -/
theorem calls_deliver_once {es : List (Label ν)} {s : State ν}
    (hr : (lts ν).RunWhere (fun s e => condition s e = true) es s) : s.All Call.Delivered := by
  have h : s.All Call.Orderly :=
    hr.inv (fun i c hc => (nomatch hc)) fun s e s' h hc hs => orderly_step h hc hs
  exact fun i c hc => (h i c hc).delivered

/-- A message whose key comes from a promise: it is produced when the promise resolves, and reported. -/
theorem calls_deliver_once_promised :
    ∃ s : State Nat, s.count = 1 ∧ (s.calls 0).any (fun c => c.produced = [(7, 8)] ∧ c.callbacks = 1) = true ∧
      s.All Call.Delivered := by
  let spec : Spec Nat :=
    ⟨⟨false, .returns, fun _ => .value 7⟩, ⟨false, .promises, fun _ => .value 8⟩, true, false, [], fun _ => true⟩
  have hr := Lts.RunWhere.of_exec (M := lts Nat) (C := condition) .nil
    (show (lts Nat).exec condition (lts Nat).init
      [.produce spec, .complete 0 .key, .report 0, .reportImmediate 0] = some _ from rfl)
  exact ⟨_, rfl, rfl, calls_deliver_once hr⟩

/-- The key serializer calls back before it returns, with the value serialized: the message is produced twice. -/
theorem not_all_calls_deliver_once :
    ¬ ∀ (es : List (Label Nat)) (s : State Nat), (lts Nat).Run es s → s.All Call.Delivered := by
  intro h
  let spec : Spec Nat :=
    ⟨⟨false, .returns, fun _ => .value 7⟩, ⟨false, .calls, fun _ => .value 8⟩, true, false, [.key], fun _ => true⟩
  have hr := Lts.Run.of_exec (M := lts Nat)
    (show (lts Nat).exec (fun _ _ => true) (lts Nat).init [.produce spec] = some _ from rfl)
  have hd := h _ _ hr 0 (Call.modifiedProduce spec) rfl
  exact absurd hd.once (by decide)

end HighLevelProducer
end ConfluentKafka
