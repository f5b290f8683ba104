import ConfluentKafka.Lts

/-!
# The delivery-report dispatcher

Threads of librdkafka add reports to the queue of the dispatcher, and the
event loop dispatches them in `Flush`, which a `uv_async_t` wakes up. The
handle is made by `Activate` and closed by `Deactivate`, with the wake-up
that is pending on it. A callback is registered throughout. The steps are
`dr_cb`, the locked section of `Flush`, one turn of its loop, its tail, and
the two changes of the handle.
-/

namespace ConfluentKafka
namespace DeliveryReports

/-- What a running `Flush` has in `events_list`, with the counts of its locked section. -/
structure Flush (ρ : Type) where
  eventsList : List ρ
  outstandingEventCount : Nat
  flushCount : Nat
  deriving DecidableEq, Repr

/-- `active` is `async != NULL`; `added` and `dispatched` record the reports, oldest first. -/
structure State (ρ : Type) where
  active : Bool
  pending : Bool
  events : List ρ
  flushing : Option (Flush ρ)
  added : List ρ
  dispatched : List ρ
  deriving DecidableEq, Repr

variable {ρ : Type}

namespace State

/-- `uv_async_send` on the open handle. -/
def execute (s : State ρ) : State ρ :=
  if s.active then { s with pending := true } else s

def activate (s : State ρ) : State ρ :=
  if s.active then s else { s with active := true, pending := false }

def deactivate (s : State ρ) : State ρ :=
  if s.active then { s with active := false, pending := false } else s

def add (s : State ρ) (r : ρ) : State ρ × Nat :=
  ({ s with events := s.events ++ [r], added := s.added ++ [r] }, (s.events ++ [r]).length)

def drCb (s : State ρ) (r : ρ) : State ρ :=
  let (s₁, size) := s.add r
  if size = 1 then s₁.execute else s₁

def quota : Nat := 100

def flushLocked (s : State ρ) : State ρ :=
  let flushCount := min s.events.length quota
  { s with
    pending := false
    events := s.events.drop flushCount
    flushing := some ⟨s.events.take flushCount, s.events.length, flushCount⟩ }

def flushTail (s : State ρ) (f : Flush ρ) : State ρ :=
  let s₁ := { s with flushing := none }
  if f.outstandingEventCount > f.flushCount then s₁.execute else s₁

end State

inductive Label (ρ : Type) where
  | drCb (r : ρ)
  | flush
  | dispatch
  | tail
  | activate
  | deactivate

/-- `Flush` runs on the event loop while the handle is open; it may also run without a wake-up of ours. -/
def step (s : State ρ) : Label ρ → Option (State ρ)
  | .drCb r => some (s.drCb r)
  | .flush => if s.active ∧ s.flushing.isNone then some s.flushLocked else none
  | .dispatch =>
    match s.flushing with
    | some ⟨r :: rest, n, m⟩ => some { s with flushing := some ⟨rest, n, m⟩, dispatched := s.dispatched ++ [r] }
    | _ => none
  | .tail =>
    match s.flushing with
    | some ⟨[], n, m⟩ => some (s.flushTail ⟨[], n, m⟩)
    | _ => none
  | .activate => some s.activate
  | .deactivate => some s.deactivate

def lts (ρ : Type) : Lts (State ρ) (Label ρ) where
  init := ⟨false, false, [], none, [], []⟩
  step := step

/-! ## Nothing is stranded -/

/-- A running `Flush` left more than its quota, so its tail sends a wake-up. -/
def State.willSend (s : State ρ) : Bool :=
  match s.flushing with
  | some f => f.outstandingEventCount > f.flushCount
  | none => false

/-- The reports that a running `Flush` has taken and not dispatched yet. -/
def State.inFlush (s : State ρ) : List ρ :=
  match s.flushing with
  | some f => f.eventsList
  | none => []

structure Inv (s : State ρ) : Prop where
  woken : s.active = true → s.events ≠ [] → s.pending = true ∨ s.willSend = true
  order : s.dispatched ++ s.inFlush ++ s.events = s.added

/-- The handle is opened over an empty queue, or while a `Flush` runs that will send. -/
def condition (s : State ρ) : Label ρ → Bool
  | .activate => s.active || s.events.isEmpty || s.willSend
  | _ => true

theorem woken_execute {s : State ρ} : s.execute.active = true → s.execute.pending = true := by
  unfold State.execute
  split
  · exact fun _ => rfl
  · rename_i h
    exact fun h' => absurd h' h

@[simp]
theorem execute_events (s : State ρ) : s.execute.events = s.events := by
  unfold State.execute
  split <;> rfl

@[simp]
theorem execute_dispatched (s : State ρ) : s.execute.dispatched = s.dispatched := by
  unfold State.execute
  split <;> rfl

@[simp]
theorem execute_added (s : State ρ) : s.execute.added = s.added := by
  unfold State.execute
  split <;> rfl

@[simp]
theorem execute_inFlush (s : State ρ) : s.execute.inFlush = s.inFlush := by
  unfold State.execute
  split <;> rfl

theorem inv_execute {s : State ρ} (h : s.dispatched ++ s.inFlush ++ s.events = s.added) : Inv s.execute :=
  ⟨fun ha _ => Or.inl (woken_execute ha), by simpa using h⟩

theorem inv_drCb {s : State ρ} (h : Inv s) (r : ρ) : Inv (s.drCb r) := by
  have horder : s.dispatched ++ s.inFlush ++ (s.events ++ [r]) = s.added ++ [r] := by
    rw [← List.append_assoc, h.order]
  have hd : s.drCb r = if (s.add r).2 = 1 then (s.add r).1.execute else (s.add r).1 := rfl
  rw [hd]
  split
  · exact inv_execute horder
  · rename_i hsize
    refine ⟨fun ha _ => h.woken ha ?_, horder⟩
    intro he
    exact hsize (by simp [State.add, he])

theorem inv_flushLocked {s : State ρ} (h : Inv s) (hf : s.flushing = none) : Inv s.flushLocked := by
  have horder : s.dispatched ++ s.events = s.added := by simpa [State.inFlush, hf] using h.order
  refine ⟨fun _ hne => Or.inr ?_, ?_⟩
  · -- what is left is more than the quota
    have : 0 < (s.events.drop (min s.events.length State.quota)).length := List.length_pos_iff.mpr hne
    simp only [List.length_drop] at this
    simp only [State.willSend, State.flushLocked, gt_iff_lt, decide_eq_true_eq]
    omega
  · simpa [State.flushLocked, State.inFlush] using horder

theorem inv_flushTail {s : State ρ} {n m : Nat} (h : Inv s) (hf : s.flushing = some ⟨[], n, m⟩) :
    Inv (s.flushTail ⟨[], n, m⟩) := by
  have horder : s.dispatched ++ s.events = s.added := by simpa [State.inFlush, hf] using h.order
  unfold State.flushTail
  split
  · exact inv_execute (by simpa [State.inFlush] using horder)
  · rename_i hle
    refine ⟨fun ha hne => Or.inl ?_, by simpa [State.inFlush] using horder⟩
    rcases h.woken ha hne with hp | hw
    · exact hp
    · exact absurd (by simpa [State.willSend, hf] using hw) hle

theorem inv_step {s s' : State ρ} {e : Label ρ} (h : Inv s) (he : condition s e = true) (hs : step s e = some s') :
    Inv s' := by
  cases e with
  | drCb r => cases hs; exact inv_drCb h r
  | flush =>
    simp only [step] at hs
    split at hs
    · rename_i hc
      cases hs
      exact inv_flushLocked h (Option.isNone_iff_eq_none.mp hc.2)
    · cases hs
  | dispatch =>
    simp only [step] at hs
    split at hs
    · rename_i r rest n m hf
      cases hs
      refine ⟨fun ha hne => ?_, ?_⟩
      · simpa [State.willSend, hf] using h.woken ha hne
      · simpa [State.inFlush, hf] using h.order
    · cases hs
  | tail =>
    simp only [step] at hs
    split at hs
    · rename_i n m hf
      cases hs
      exact inv_flushTail h hf
    · cases hs
  | activate =>
    cases hs
    unfold State.activate
    split
    · exact h
    · rename_i ha
      refine ⟨fun _ hne => Or.inr ?_, h.order⟩
      simp only [condition, ha, Bool.false_or, Bool.or_eq_true, List.isEmpty_iff] at he
      exact he.resolve_left hne
  | deactivate =>
    cases hs
    unfold State.deactivate
    split
    · exact ⟨fun ha => (nomatch ha), h.order⟩
    · exact h

/-- The reports are dispatched in the order added, each at most once; and where the handle is only ever opened
over an empty queue, a queue that is not empty has a wake-up pending or to be sent. -/
theorem reports_not_stranded {es : List (Label ρ)} {s : State ρ}
    (hr : (lts ρ).RunWhere (fun s e => condition s e = true) es s) :
    (s.active = true → s.events ≠ [] → s.pending = true ∨ s.willSend = true) ∧ s.dispatched <+: s.added ∧
      s.dispatched ++ s.inFlush ++ s.events = s.added := by
  have h : Inv s :=
    hr.inv ⟨fun _ hne => absurd rfl hne, rfl⟩ fun _ _ _ hi he hs => inv_step hi he hs
  refine ⟨h.woken, ⟨s.inFlush ++ s.events, ?_⟩, h.order⟩
  rw [← List.append_assoc, h.order]

theorem reports_not_stranded_reconnect :
    ∃ s, (lts Nat).RunWhere (fun s e => condition s e = true)
      [.activate, .drCb 1, .drCb 2, .flush, .drCb 3, .dispatch, .dispatch, .tail, .flush, .dispatch, .tail,
        .deactivate, .activate, .drCb 4] s ∧
      s.events ≠ [] ∧ s.dispatched = [1, 2, 3] ∧ (s.pending = true ∨ s.willSend = true) := by
  have hs : ∃ s, (lts Nat).exec condition (lts Nat).init
      [.activate, .drCb 1, .drCb 2, .flush, .drCb 3, .dispatch, .dispatch, .tail, .flush, .dispatch, .tail,
        .deactivate, .activate, .drCb 4] = some s ∧ s.active = true ∧ s.events = [4] ∧ s.dispatched = [1, 2, 3] :=
    ⟨_, rfl, rfl, rfl, rfl⟩
  obtain ⟨s, hs, ha, he, hd⟩ := hs
  have hr := Lts.RunWhere.of_exec .nil hs
  have hne : s.events ≠ [] := by simp [he]
  exact ⟨s, hr, hne, hd, (reports_not_stranded hr).1 ha hne⟩

/-- A report is in the queue when the handle is closed. Over the new handle nobody wakes the dispatcher for it, nor
for any report that follows. -/
theorem reports_stranded_after_reconnect :
    ¬ ∀ (es : List (Label Nat)) (s : State Nat), (lts Nat).Run es s →
      (s.active = true → s.events ≠ [] → s.pending = true ∨ s.willSend = true) ∧ s.dispatched <+: s.added ∧
        s.dispatched ++ s.inFlush ++ s.events = s.added := by
  intro h
  have hs : ∃ s, (lts Nat).exec (fun _ _ => true) (lts Nat).init
      [.activate, .drCb 1, .deactivate, .activate, .drCb 2] = some s ∧ s.active = true ∧ s.events = [1, 2] ∧
      s.pending = false ∧ s.willSend = false := ⟨_, rfl, rfl, rfl, rfl, rfl⟩
  obtain ⟨s, hs, ha, he, hp, hw⟩ := hs
  have := (h _ s (Lts.Run.of_exec hs)).1 ha (by simp [he])
  simp [hp, hw] at this

end DeliveryReports
end ConfluentKafka
