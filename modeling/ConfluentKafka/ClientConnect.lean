import ConfluentKafka.Lts
import Mathlib.Logic.Function.Basic

/-!
# `connect` and `disconnect` of the low-level client

`Client.prototype.connect` starts a native connect, then a metadata request,
and tears the connection down again if that fails, for ten seconds at most.
A step is a call of the application, or the completion of something
outstanding: a native operation, the timer of a failed attempt or an
immediate. Every call is one of a pool, with what it waits for and with the
invocations of its callback.
-/

namespace ConfluentKafka
namespace ClientConnect

inductive Stage where
  | unused
  /-- the native connect of the attempt -/
  | connecting
  /-- the metadata request of the attempt -/
  | metadata
  /-- the native disconnect of the failed attempt, and its timer until `callbackCalled` -/
  | failing (callbackCalled : Bool)
  /-- `once('ready')` -/
  | waiting
  /-- `setImmediate(next)` -/
  | immediate
  /-- the native disconnect of `disconnect` -/
  | disconnecting
  /-- nothing: the client was disconnecting -/
  | dropped
  | done
  deriving DecidableEq, Repr

/-- One invocation of a callback: with an error or not, whether the metadata request of the attempt had
succeeded, and whether the client was connected. -/
structure Result where
  err : Bool
  metadataSucceeded : Bool
  connected : Bool
  deriving DecidableEq, Repr

/-- A call of `connect` or `disconnect`. The attempt is the `connect` call that started the connection it is
about. -/
structure Call where
  isConnect : Bool
  attempt : Nat
  stage : Stage
  metadataOk : Bool
  callbacks : List Result
  deriving DecidableEq, Repr

structure State where
  isConnected : Bool
  isConnecting : Bool
  isDisconnecting : Bool
  native : Bool
  /-- the attempt that was started last -/
  current : Nat
  count : Nat
  calls : Nat → Call

def unusedCall : Call := ⟨true, 0, .unused, false, []⟩

namespace State

def update (s : State) (i : Nat) (c : Call) : State :=
  { s with calls := Function.update s.calls i c }

def result (s : State) (err : Bool) (attempt : Nat) : Result :=
  ⟨err, (s.calls attempt).metadataOk, s.isConnected && s.native⟩

def called (s : State) (err : Bool) (stage : Stage) (c : Call) : Call :=
  { c with stage := stage, callbacks := c.callbacks ++ [s.result err c.attempt] }

def next (s : State) (i : Nat) (err : Bool) (stage : Stage) : State :=
  { s with isConnecting := false }.update i (s.called err stage (s.calls i))

def call (s : State) (c : Call) : State :=
  { s with count := s.count + 1 }.update s.count c

end State

def connect (s : State) : State :=
  if s.isConnected then s.call ⟨true, s.current, .immediate, false, []⟩
  else if s.isConnecting then s.call ⟨true, s.current, .waiting, false, []⟩
  else { s with isConnecting := true, current := s.count }.call ⟨true, s.count, .connecting, false, []⟩

def fail (s : State) (i : Nat) : State :=
  if s.isConnected then { s with isConnected := false }.update i { s.calls i with stage := .failing false }
  else s.next i true .done

/-- The callback of the native connect; `getMetadata` finds the client connected. -/
def connected (s : State) (i : Nat) (ok : Bool) : State :=
  if ok then { s with isConnected := true, native := true }.update i { s.calls i with stage := .metadata }
  else fail s i

def ready (s : State) : State :=
  { s with calls := fun j => if (s.calls j).stage = .waiting then s.called false .done (s.calls j) else s.calls j }

def gotMetadata (s : State) (i : Nat) (ok : Bool) : State :=
  if ok then
    let s₁ := { s with isConnecting := false, isConnected := true }.update i { s.calls i with metadataOk := true }
    (ready s₁).next i false .done
  else fail s i

def disconnect (s : State) : State :=
  if s.isDisconnecting then s.call ⟨false, s.current, .dropped, false, []⟩
  else { s with isDisconnecting := true }.call ⟨false, s.current, .disconnecting, false, []⟩

/-- The callback of the native disconnect of `disconnect`, with the `disconnected` event. -/
def disconnected (s : State) (i : Nat) : State :=
  let s₁ := { s with isDisconnecting := false, isConnected := false, native := false }
  s₁.update i (s₁.called false .done (s.calls i))

inductive Label where
  | connect
  | disconnect
  | connected (i : Nat) (ok : Bool)
  | metadata (i : Nat) (ok : Bool)
  | failDisconnected (i : Nat)
  | timer (i : Nat)
  | disconnected (i : Nat)
  | immediate (i : Nat)
  deriving DecidableEq, Repr

def step (s : State) : Label → Option State
  | .connect => some (connect s)
  | .disconnect => some (disconnect s)
  | .connected i ok => if (s.calls i).stage = .connecting then some (connected s i ok) else none
  | .metadata i ok => if (s.calls i).stage = .metadata then some (gotMetadata s i ok) else none
  | .failDisconnected i =>
    match (s.calls i).stage with
    | .failing false => some ({ s with native := false }.next i true .done)
    | .failing true => some ({ s with native := false }.update i { s.calls i with stage := .done })
    | _ => none
  | .timer i => if (s.calls i).stage = .failing false then some (s.next i true (.failing true)) else none
  | .disconnected i => if (s.calls i).stage = .disconnecting then some (disconnected s i) else none
  | .immediate i => if (s.calls i).stage = .immediate then some (s.next i false .done) else none

def lts : Lts State Label where
  init := ⟨false, false, false, false, 0, 0, fun _ => unusedCall⟩
  step := step

/-! ## What the callers are promised -/

def Quiet (s : State) : Prop :=
  ∀ i < s.count, (s.calls i).stage = .waiting ∨ (s.calls i).stage = .dropped ∨ (s.calls i).stage = .done

structure Promised (s : State) : Prop where
  once : ∀ i < s.count, (s.calls i).callbacks.length ≤ 1
  all : Quiet s → ∀ i < s.count, (s.calls i).callbacks.length = 1
  truthful : ∀ i < s.count, (s.calls i).isConnect = true → ∀ r ∈ (s.calls i).callbacks, r.err = false →
    r.metadataSucceeded = true ∧ r.connected = true

def State.none (s : State) (p : Stage → Bool) : Bool :=
  (List.range s.count).all fun i => !p (s.calls i).stage

def isFailing : Stage → Bool
  | .failing _ => true
  | _ => false

/-- The steps that keep the promise. `connect` comes when the client is idle, while the native connect of an
attempt is outstanding or when the client is ready; an attempt that others wait for does not fail;
`disconnect` comes once at a time, and completes with no metadata request and no immediate outstanding. -/
def condition (s : State) : Label → Bool
  | .connect =>
    if s.isConnected then !s.isConnecting
    else if s.isConnecting then (s.calls s.current).stage = .connecting
    else s.none isFailing
  | .disconnect => !s.isDisconnecting
  | .connected _ ok => ok || s.none (· = .waiting)
  | .metadata _ ok => ok || s.none (· = .waiting)
  | .disconnected _ => s.none fun g => g = .metadata || g = .immediate
  | _ => true

/-! ## The invariant -/

def isOver : Stage → Bool
  | .failing true => true
  | .done => true
  | _ => false

def inProgress : Stage → Bool
  | .connecting => true
  | .metadata => true
  | .failing false => true
  | _ => false

def Truthful (c : Call) : Prop :=
  c.isConnect = true → ∀ r ∈ c.callbacks, r.err = false → r.metadataSucceeded = true ∧ r.connected = true

structure Call.Ok (count i : Nat) (c : Call) : Prop where
  called : isOver c.stage = true → c.callbacks.length = 1
  uncalled : isOver c.stage = false → c.callbacks = []
  undropped : c.stage ≠ .dropped
  truthful : Truthful c
  used : c.stage ≠ .unused → i < count
  fresh : c.stage = .unused → c = unusedCall
  kind : c.stage = .disconnecting → c.isConnect = false

structure FlagInv (s : State) : Prop where
  -- one attempt is in progress at a time, the current one
  current : ∀ i, inProgress (s.calls i).stage = true →
    i = s.current ∧ (s.calls i).attempt = i ∧ s.isConnecting = true
  progress : s.isConnecting = true → inProgress (s.calls s.current).stage = true
  up : ∀ i, inProgress (s.calls i).stage = true → (s.isConnected = true ↔ (s.calls i).stage = .metadata)
  late : ∀ i, (s.calls i).stage = .failing true → s.isConnected = false ∧ s.isConnecting = false
  waiting : ∀ i, (s.calls i).stage = .waiting → (s.calls i).attempt = s.current ∧ s.isConnecting = true ∧
    (s.calls s.current).stage ≠ .failing false
  immediate : ∀ i, (s.calls i).stage = .immediate →
    (s.calls i).attempt = s.current ∧ s.isConnected = true ∧ s.isConnecting = false
  native : s.isConnected = true → s.native = true
  ready : s.isConnected = true → s.isConnecting = false → (s.calls s.current).metadataOk = true

structure Inv (s : State) : Prop where
  calls : ∀ i, (s.calls i).Ok s.count i
  flags : FlagInv s

/-! ### Calls -/

@[simp, grind =]
theorem update_calls (s : State) (i j : Nat) (c : Call) :
    (s.update i c).calls j = if j = i then c else s.calls j := by
  simp [State.update, Function.update_apply]

theorem ok_update {s : State} {i : Nat} {c : Call} (h : ∀ j, (s.calls j).Ok s.count j) (hc : c.Ok s.count i) :
    ∀ j, ((s.update i c).calls j).Ok s.count j := by
  intro j
  rw [update_calls]
  split
  · rename_i hj
    exact hj ▸ hc
  · exact h j

theorem ok_call {s : State} {c : Call} (h : ∀ j, (s.calls j).Ok s.count j) (hc : c.Ok (s.count + 1) s.count) :
    ∀ j, ((s.call c).calls j).Ok (s.count + 1) j := by
  refine ok_update (s := { s with count := s.count + 1 }) (fun j => ?_) hc
  exact { h j with used := fun hu => Nat.lt_succ_of_lt ((h j).used hu) }

theorem ok_new {isConnect : Bool} {count attempt : Nat} {stage : Stage} (ho : isOver stage = false)
    (hd : stage ≠ .dropped) (hu : stage ≠ .unused) (hk : stage = .disconnecting → isConnect = false) :
    (Call.mk isConnect attempt stage false []).Ok (count + 1) count :=
  ⟨fun h => by simp [ho] at h, fun _ => rfl, hd, fun _ _ hr => (nomatch hr), fun _ => Nat.lt_succ_self _,
    fun h => absurd h hu, hk⟩

theorem Call.Ok.moved {count i : Nat} {c : Call} {stage : Stage} (h : c.Ok count i) (ho : isOver c.stage = false)
    (hu : c.stage ≠ .unused) (ho' : isOver stage = false) (hd : stage ≠ .dropped ∧ stage ≠ .unused ∧
      stage ≠ .disconnecting) :
    Call.Ok count i { c with stage := stage } :=
  ⟨fun h' => by simp [ho'] at h', fun _ => h.uncalled ho, hd.1, h.truthful, fun _ => h.used hu,
    fun h' => absurd h' hd.2.1, fun h' => absurd h' hd.2.2⟩

theorem Call.Ok.called_back {s : State} {count i : Nat} {err : Bool} {stage : Stage} {c : Call} (h : c.Ok count i)
    (ho : isOver c.stage = false) (hu : c.stage ≠ .unused) (ho' : isOver stage = true)
    (ht : c.isConnect = true → err = false → (s.calls c.attempt).metadataOk = true ∧
      (s.isConnected && s.native) = true) :
    (s.called err stage c).Ok count i := by
  have he := h.uncalled ho
  refine ⟨fun _ => by simp [State.called, he], fun h' => ?_, ?_, ?_, fun _ => h.used hu, ?_, ?_⟩
  · exact absurd h' (by simp [State.called, ho'])
  · intro hd
    simp only [State.called] at hd
    simp [hd, isOver] at ho'
  · intro hc r hr herr
    simp only [State.called, he, List.nil_append, List.mem_singleton] at hr
    subst hr
    exact ht hc herr
  · intro hd
    simp only [State.called] at hd
    simp [hd, isOver] at ho'
  · intro hd
    simp only [State.called] at hd
    simp [hd, isOver] at ho'

/-! ### Steps -/

theorem inv_init : Inv lts.init := by
  constructor
  · intro i
    exact ⟨fun h => by simp [lts, unusedCall, isOver] at h, fun _ => rfl, by simp [lts, unusedCall],
      fun _ _ hr => (nomatch hr), fun h => absurd rfl h, fun _ => rfl, by simp [lts, unusedCall]⟩
  · constructor <;> simp [lts, unusedCall, inProgress]

theorem Inv.fresh_count {s : State} (h : Inv s) : s.calls s.count = unusedCall := by
  apply (h.calls s.count).fresh
  by_contra hne
  exact Nat.lt_irrefl _ ((h.calls s.count).used hne)

theorem Inv.current_ne_count {s : State} (h : Inv s) (hc : s.isConnected = true ∨ s.isConnecting = true) :
    s.current ≠ s.count := by
  intro he
  have hf := h.fresh_count
  rw [← he] at hf
  cases hi : s.isConnecting with
  | true =>
    have := h.flags.progress hi
    simp [hf, unusedCall, inProgress] at this
  | false =>
    have := h.flags.ready (hc.resolve_right (by simp [hi])) hi
    simp [hf, unusedCall] at this

theorem none_iff {s : State} {p : Stage → Bool} : s.none p = true ↔ ∀ i < s.count, p (s.calls i).stage = false := by
  simp [State.none]

theorem inv_connect {s : State} (h : Inv s) (hc : condition s .connect = true) : Inv (connect s) := by
  have hnew := h.fresh_count
  have hcur := h.current_ne_count
  obtain ⟨current, progress, up, late, waiting, immediate, native, ready⟩ := h.flags
  unfold connect
  split
  · rename_i hu
    have hi : s.isConnecting = false := by simpa [condition, hu] using hc
    have hne := hcur (.inl hu)
    refine ⟨ok_call h.calls (ok_new rfl (by decide) (by decide) (by decide)), ?_⟩
    constructor <;> grind [inProgress, State.call, State.update]
  · rename_i hu
    split
    · rename_i hi
      have hst : (s.calls s.current).stage = .connecting := by simpa [condition, hu, hi] using hc
      have hne := hcur (.inr hi)
      refine ⟨ok_call h.calls (ok_new rfl (by decide) (by decide) (by decide)), ?_⟩
      constructor <;> grind [inProgress, State.call, State.update]
    · rename_i hi
      have hf : ∀ i < s.count, isFailing (s.calls i).stage = false := by
        simpa [condition, hu, hi, none_iff] using hc
      have hused : ∀ i, (s.calls i).stage = .failing true → i < s.count :=
        fun i h' => (h.calls i).used (by simp [h'])
      refine ⟨ok_call h.calls (ok_new rfl (by decide) (by decide) (by decide)), ?_⟩
      constructor <;> grind [inProgress, State.call, State.update, isFailing]

theorem inv_disconnect {s : State} (h : Inv s) (hc : condition s .disconnect = true) : Inv (disconnect s) := by
  have hnew := h.fresh_count
  have hcur := h.current_ne_count
  obtain ⟨current, progress, up, late, waiting, immediate, native, ready⟩ := h.flags
  have hd : s.isDisconnecting = false := by simpa [condition] using hc
  simp only [disconnect, hd, Bool.false_eq_true, if_false]
  refine ⟨ok_call h.calls (ok_new rfl (by decide) (by decide) (fun _ => rfl)), ?_⟩
  constructor <;> grind [inProgress, State.call, State.update, unusedCall]

theorem inv_connected {s : State} {i : Nat} (h : Inv s) (hi : (s.calls i).stage = .connecting) :
    Inv (connected s i true) := by
  obtain ⟨current, progress, up, late, waiting, immediate, native, ready⟩ := h.flags
  simp only [connected, if_true]
  refine ⟨ok_update h.calls ((h.calls i).moved ?_ ?_ rfl ⟨?_, ?_, ?_⟩), ?_⟩
  · simp [hi, isOver]
  · simp [hi]
  · simp
  · simp
  · simp
  · constructor <;> grind [inProgress, State.update]

theorem inv_fail {s : State} {i : Nat} (h : Inv s)
    (hi : (s.calls i).stage = .connecting ∨ (s.calls i).stage = .metadata)
    (hw : ∀ j < s.count, (s.calls j).stage ≠ .waiting) : Inv (fail s i) := by
  obtain ⟨current, progress, up, late, waiting, immediate, native, ready⟩ := h.flags
  have hused : ∀ j, (s.calls j).stage = .waiting → j < s.count := fun j h' => (h.calls j).used (by simp [h'])
  have ho : isOver (s.calls i).stage = false := by rcases hi with hi | hi <;> simp [hi, isOver]
  have hu : (s.calls i).stage ≠ .unused := by rcases hi with hi | hi <;> simp [hi]
  unfold fail
  split
  · refine ⟨ok_update h.calls ((h.calls i).moved ho hu rfl (by simp)), ?_⟩
    constructor <;> grind [inProgress, State.update]
  · refine ⟨ok_update h.calls ((h.calls i).called_back ho hu rfl (by simp)), ?_⟩
    constructor <;> grind [inProgress, State.update, State.next, State.called]

theorem inv_failDisconnected {s s' : State} {i : Nat} (h : Inv s) (hs : step s (.failDisconnected i) = some s') :
    Inv s' := by
  obtain ⟨current, progress, up, late, waiting, immediate, native, ready⟩ := h.flags
  simp only [step] at hs
  split at hs
  · rename_i hi
    cases hs
    refine ⟨ok_update h.calls ((h.calls i).called_back (by simp [hi, isOver]) (by simp [hi]) rfl (by simp)), ?_⟩
    constructor <;> grind [inProgress, State.update, State.next, State.called]
  · rename_i hi
    cases hs
    obtain ⟨called, -, -, truthful, used, -, -⟩ := h.calls i
    refine ⟨ok_update h.calls ⟨fun _ => called (by simp [hi, isOver]), by simp [isOver], by simp, truthful,
      fun _ => used (by simp [hi]), by simp, by simp⟩, ?_⟩
    constructor <;> grind [inProgress, State.update]
  · cases hs

theorem inv_timer {s : State} {i : Nat} (h : Inv s) (hi : (s.calls i).stage = .failing false) :
    Inv (s.next i true (.failing true)) := by
  obtain ⟨current, progress, up, late, waiting, immediate, native, ready⟩ := h.flags
  refine ⟨ok_update h.calls ((h.calls i).called_back (by simp [hi, isOver]) (by simp [hi]) rfl (by simp)), ?_⟩
  constructor <;> grind [inProgress, State.update, State.next, State.called]

theorem inv_disconnected {s : State} {i : Nat} (h : Inv s) (hi : (s.calls i).stage = .disconnecting)
    (hq : ∀ j < s.count, (s.calls j).stage ≠ .metadata ∧ (s.calls j).stage ≠ .immediate) :
      Inv (disconnected s i) := by
  obtain ⟨current, progress, up, late, waiting, immediate, native, ready⟩ := h.flags
  have hused : ∀ j, (s.calls j).stage ≠ .unused → j < s.count := fun j => (h.calls j).used
  have hf := (h.calls i).kind hi
  refine ⟨ok_update h.calls ((h.calls i).called_back (by simp [hi, isOver]) (by simp [hi]) rfl (by simp [hf])), ?_⟩
  constructor <;> grind [inProgress, State.update, disconnected, State.called]

theorem inv_immediate {s : State} {i : Nat} (h : Inv s) (hi : (s.calls i).stage = .immediate) :
    Inv (s.next i false .done) := by
  obtain ⟨current, progress, up, late, waiting, immediate, native, ready⟩ := h.flags
  obtain ⟨ha, hu, hc⟩ := immediate i hi
  have ht : (s.calls (s.calls i).attempt).metadataOk = true ∧ (s.isConnected && s.native) = true := by
    rw [ha]
    exact ⟨ready hu hc, by simp [hu, native hu]⟩
  refine ⟨ok_update h.calls ((h.calls i).called_back (by simp [hi, isOver]) (by simp [hi]) rfl fun _ _ => ht), ?_⟩
  constructor <;> grind [inProgress, State.update, State.next, State.called]

theorem inv_gotMetadata {s : State} {i : Nat} (h : Inv s) (hi : (s.calls i).stage = .metadata) :
    Inv (gotMetadata s i true) := by
  obtain ⟨current, progress, up, late, waiting, immediate, native, ready⟩ := h.flags
  obtain ⟨hcur, hatt, -⟩ := current i (by simp [hi, inProgress])
  have hnative : s.native = true := native ((up i (by simp [hi, inProgress])).mpr hi)
  have hnw : (s.calls i).stage ≠ .waiting := by simp [hi]
  -- the state in which the callbacks run: the request of the attempt has succeeded
  obtain ⟨s₁, hs₁⟩ : ∃ s₁, s₁ = State.update { s with isConnecting := false, isConnected := true } i
    { s.calls i with metadataOk := true } := ⟨_, rfl⟩
  have hok : ∀ j, (s₁.calls j).Ok s.count j := by
    rw [hs₁]
    exact ok_update h.calls { h.calls i with fresh := fun hu => absurd hu (by simp [hi]) }
  have htrue : ∀ j, (s₁.calls j).attempt = i → (s₁.calls (s₁.calls j).attempt).metadataOk = true ∧
      (s₁.isConnected && s₁.native) = true := by
    intro j hj
    rw [hj]
    simp [hs₁, State.update, hnative]
  have hready : ∀ j, ((ClientConnect.ready s₁).calls j).Ok s.count j := by
    intro j
    simp only [ClientConnect.ready]
    split
    · rename_i hw
      refine (hok j).called_back (by simp [hw, isOver]) (by simp [hw]) rfl fun _ _ => htrue j ?_
      have hj : j ≠ i := by
        rintro rfl
        simp [hs₁, hi] at hw
      have hc : s₁.calls j = s.calls j := by simp [hs₁, hj]
      rw [hc] at hw ⊢
      exact (waiting j hw).1.trans hcur.symm
    · exact hok j
  have hri : (ClientConnect.ready s₁).calls i = { s.calls i with metadataOk := true } := by
    simp [ClientConnect.ready, hs₁, hi]
  have hg : gotMetadata s i true = (ClientConnect.ready s₁).next i false .done := by rw [hs₁]; rfl
  have hcount : (ClientConnect.ready s₁).count = s.count := by rw [hs₁]; rfl
  rw [hg]
  constructor
  · have hdone : ((ClientConnect.ready s₁).called false .done ((ClientConnect.ready s₁).calls i)).Ok s.count i := by
      refine (hready i).called_back (by rw [hri]; simp [hi, isOver]) (by rw [hri]; simp [hi]) rfl fun _ _ => ?_
      have hup := (htrue i (by simp [hs₁, hatt])).2
      rw [hri]
      simp only [hatt, hri]
      exact ⟨trivial, hup⟩
    rw [← hcount] at hready hdone
    exact ok_update hready hdone
  · constructor <;> grind [inProgress, State.update, ClientConnect.ready, State.next, State.called]

theorem inv_step {s s' : State} {e : Label} (h : Inv s) (hc : condition s e = true) (hs : step s e = some s') :
    Inv s' := by
  cases e with
  | connect => cases hs; exact inv_connect h hc
  | disconnect => cases hs; exact inv_disconnect h hc
  | connected i ok =>
    simp only [step] at hs
    split at hs
    · rename_i hi
      cases hs
      cases ok with
      | true => exact inv_connected h hi
      | false => exact inv_fail h (.inl hi) (by simpa [condition, none_iff] using hc)
    · cases hs
  | metadata i ok =>
    simp only [step] at hs
    split at hs
    · rename_i hi
      cases hs
      cases ok with
      | true => exact inv_gotMetadata h hi
      | false => exact inv_fail h (.inr hi) (by simpa [condition, none_iff] using hc)
    · cases hs
  | failDisconnected i => exact inv_failDisconnected h hs
  | timer i =>
    simp only [step] at hs
    split at hs
    · rename_i hi
      cases hs
      exact inv_timer h hi
    · cases hs
  | disconnected i =>
    simp only [step] at hs
    split at hs
    · rename_i hi
      cases hs
      exact inv_disconnected h hi (by simpa [condition, none_iff] using hc)
    · cases hs
  | immediate i =>
    simp only [step] at hs
    split at hs
    · rename_i hi
      cases hs
      exact inv_immediate h hi
    · cases hs

/-- In a quiet state nobody waits for `ready`, since the attempt would be in progress. -/
theorem Inv.done_of_quiet {s : State} (h : Inv s) (hq : Quiet s) {i : Nat} (hi : i < s.count) :
    (s.calls i).stage = .done := by
  rcases hq i hi with hw | hd | hd
  · obtain ⟨-, hconnecting, -⟩ := h.flags.waiting i hw
    have hp := h.flags.progress hconnecting
    have hlt : s.current < s.count := by
      apply (h.calls s.current).used
      intro hu
      simp [hu, inProgress] at hp
    rcases hq s.current hlt with hs | hs | hs <;> simp [hs, inProgress] at hp
  · exact absurd hd (h.calls i).undropped
  · exact hd

/-- In every run whose steps meet the condition every callback is invoked at most once, in a quiet state all
have been, and a `connect` that is called back without an error has a client with metadata. -/
theorem callbacks_promised {es : List Label} {s : State}
    (hr : lts.RunWhere (fun s e => condition s e = true) es s) : Promised s := by
  have h : Inv s := hr.inv inv_init fun _ _ _ hi hc hs => inv_step hi hc hs
  refine ⟨fun i _ => ?_, fun hq i hi => ?_, fun i _ => (h.calls i).truthful⟩
  · cases ho : isOver (s.calls i).stage with
    | true => exact Nat.le_of_eq ((h.calls i).called ho)
    | false => simp [(h.calls i).uncalled ho]
  · exact (h.calls i).called (by rw [h.done_of_quiet hq hi]; rfl)

/-- A second `connect` joins the first, a third one finds the client ready, and then it is disconnected. -/
def session : List Label :=
  [.connect, .connect, .connected 0 true, .metadata 0 true, .connect, .immediate 2, .disconnect, .disconnected 3]

theorem callbacks_promised_session :
    ∃ s, lts.RunWhere (fun s e => condition s e = true) session s ∧ Quiet s ∧ Promised s := by
  have hs : ∃ s, lts.exec condition lts.init session = some s ∧ s.count = 4 ∧
      (List.range 4).all (fun i => (s.calls i).stage = .done) = true := ⟨_, rfl, rfl, by decide⟩
  obtain ⟨s, hs, hn, hd⟩ := hs
  have hr := Lts.RunWhere.of_exec .nil hs
  refine ⟨s, hr, fun i hi => ?_, callbacks_promised hr⟩
  rw [List.all_eq_true] at hd
  exact .inr (.inr (by simpa using hd i (List.mem_range.mpr (hn ▸ hi))))

/-- The `connect` that joined an attempt that fails is never called back. -/
theorem joined_connect_never_called : ¬ ∀ (es : List Label) (s : State), lts.Run es s → Promised s := by
  intro h
  have hs : ∃ s, lts.exec (fun _ _ => true) lts.init [.connect, .connect, .connected 0 false] = some s ∧
      s.count = 2 ∧ (s.calls 0).stage = .done ∧ (s.calls 1).stage = .waiting ∧ (s.calls 1).callbacks = [] :=
    ⟨_, rfl, rfl, rfl, rfl, rfl⟩
  obtain ⟨s, hs, hn, h0, h1, hc⟩ := hs
  have hq : Quiet s := by
    intro i hi
    rw [hn] at hi
    have : i = 0 ∨ i = 1 := by omega
    rcases this with rfl | rfl
    · exact .inr (.inr h0)
    · exact .inl h1
  have := (h _ s (Lts.Run.of_exec hs)).all hq 1 (by omega)
  simp [hc] at this

end ClientConnect
end ConfluentKafka
