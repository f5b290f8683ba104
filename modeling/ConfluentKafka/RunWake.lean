import ConfluentKafka.RunFloor

/-!
# Who waits, and who wakes

The promises that workers and callbacks wait for, and the pending operations:
`Prom`. A promise that is waited for is resolved or still in its place, and a
wake-up is never lost: as long as it has not reached `#nonEmpty` its callback
is there.
-/

namespace ConfluentKafka

namespace Consumer

theorem resolved_iff {s : State} {p : Nat} : s.resolved p = true ↔ s.promises[p]? = some true := by
  simp [State.resolved]

/-- What a worker waits for is resolved or will be, and what it holds is not nothing. -/
def WaitOk (s : State) : Phase → Prop
  | .waitAvailable g => g ≤ s.cache.raw.availableGen ∧
      (s.workerTerminationScheduled = true → g = s.cache.raw.availableGen → s.callbacks ≠ [])
  | .waitFetch p => s.resolved p = true ∨ s.fetchInProgress = some p
  | .waitNonEmpty p => s.resolved p = true ∨ s.nonEmpty = some p
  | .waitRebalance _ p => s.rebalanceCbInProgress = some p
  | .got ms _ => ms ≠ []
  | .deserializing ms _ => ms ≠ []
  | .handling b => b.messages ≠ []
  | _ => True

structure Prom (s : State) : Prop where
  fetch : ∀ f, s.fetchInProgress = some f → s.promises[f]? = some false
  nonEmpty : ∀ p, s.nonEmpty = some p → s.promises[p]? = some false
  alone : s.fetchInProgress ≠ none → s.nonEmpty = none
  rebalance : ∀ p, s.rebalanceCbInProgress = some p →
    s.fetchInProgress ≠ none ∧ s.fetchInProgress ≠ some p ∧ p < s.promises.length ∧
      (s.resolved p = true ∨ s.rebalancing ≠ none)
  rebalancing : s.rebalancing ≠ none → ∃ p, s.rebalanceCbInProgress = some p ∧ s.promises[p]? = some false
  callbacks : ∀ f ∈ s.callbacks, s.resolved f = true ∨ s.fetchInProgress = some f
  waits : ∀ w ∈ s.workers, WaitOk s w.phase
  woken : s.woken = true → (∀ f, s.fetchInProgress = some f → f ∈ s.callbacks) ∧
    (s.fetchInProgress = none → s.nonEmpty = none ∨ s.callbacks ≠ [])
  term : s.main = .workers → s.workerTerminationScheduled = true → s.woken = true
  pending : s.main = .workers → s.pendingOperations ≠ [] → s.workerTerminationScheduled = true
  queue : s.added = s.executed ++ s.pendingOperations

theorem WaitOk.mono {s t : State} {ph : Phase} (h : WaitOk s ph)
    (hgen : s.cache.raw.availableGen ≤ t.cache.raw.availableGen)
    (hcb : s.cache.raw.availableGen = t.cache.raw.availableGen → t.workerTerminationScheduled = true →
      s.workerTerminationScheduled = true ∧ (s.callbacks ≠ [] → t.callbacks ≠ []) ∨ t.callbacks ≠ [])
    (hres : ∀ p, s.resolved p = true → t.resolved p = true)
    (hf : ∀ p, s.fetchInProgress = some p → t.resolved p = true ∨ t.fetchInProgress = some p)
    (hn : ∀ p, s.nonEmpty = some p → t.resolved p = true ∨ t.nonEmpty = some p)
    (hr : ∀ r p, ph = .waitRebalance r p → s.rebalanceCbInProgress = some p → t.rebalanceCbInProgress = some p) :
    WaitOk t ph := by
  cases ph with
  | waitAvailable g =>
    obtain ⟨hle, hc⟩ := h
    refine ⟨Nat.le_trans hle hgen, fun ht hg => ?_⟩
    have heq : s.cache.raw.availableGen = t.cache.raw.availableGen :=
      Nat.le_antisymm hgen (hg ▸ hle)
    rcases hcb heq ht with ⟨hs, hk⟩ | hk
    · exact hk (hc hs (hg.trans heq.symm))
    · exact hk
  | waitFetch p => exact h.elim (fun h => .inl (hres p h)) (hf p)
  | waitNonEmpty p => exact h.elim (fun h => .inl (hres p h)) (hn p)
  | waitRebalance r p => exact hr r p rfl h
  | _ => exact h

theorem set_true_resolved {l : List Bool} {p q : Nat} (h : l[q]? = some true) : (l.set p true)[q]? = some true := by
  rw [List.getElem?_set]
  split_ifs with hpq hlt
  · rfl
  · subst hpq
    exact absurd (List.getElem?_eq_some_iff.mp h).1 hlt
  · exact h

theorem set_true_self {l : List Bool} {p : Nat} {b : Bool} (h : l[p]? = some b) :
    (l.set p true)[p]? = some true := by
  rw [List.getElem?_set_self (List.getElem?_eq_some_iff.mp h).1]

theorem append_get {l : List Bool} {p : Nat} {b c : Bool} (h : l[p]? = some b) : (l ++ [c])[p]? = some b := by
  rw [List.getElem?_append_left (List.getElem?_eq_some_iff.mp h).1, h]

theorem notifyNonEmpty_eq (s : State) : s.notifyNonEmpty = { s with
    promises := s.nonEmpty.elim s.promises fun p => s.promises.set p true
    nonEmpty := none
    cache := s.cache.notifyAvailablePartitions } := by
  unfold State.notifyNonEmpty
  cases hn : s.nonEmpty with
  | some p => rfl
  | none => simp only [Option.elim_none]; rw [← hn]

/-- Nothing that somebody waits for has changed, up to the promise of available partitions. -/
structure Same (s t : State) : Prop where
  fetch : t.fetchInProgress = s.fetchInProgress
  nonEmpty : t.nonEmpty = s.nonEmpty
  rebalance : t.rebalanceCbInProgress = s.rebalanceCbInProgress
  rebalancing : t.rebalancing = s.rebalancing
  promises : t.promises = s.promises
  callbacks : t.callbacks = s.callbacks
  woken : t.woken = s.woken
  main : t.main = s.main
  term : t.workerTerminationScheduled = s.workerTerminationScheduled
  pending : t.pendingOperations = s.pendingOperations
  added : t.added = s.added
  executed : t.executed = s.executed
  gen : s.cache.raw.availableGen ≤ t.cache.raw.availableGen

theorem Same.withCache (s : State) {c : Cache Message} (hc : s.cache.raw.availableGen ≤ c.raw.availableGen) :
    Same s { s with cache := c } := ⟨rfl, rfl, rfl, rfl, rfl, rfl, rfl, rfl, rfl, rfl, rfl, rfl, hc⟩

theorem WaitOk.same {s t : State} (h : Same s t) {ph : Phase} (hw : WaitOk s ph) : WaitOk t ph := by
  have hres : ∀ p, t.resolved p = s.resolved p := fun p => by simp only [State.resolved, h.promises]
  refine hw.mono h.gen (fun _ ht => .inl ⟨h.term ▸ ht, fun hc => h.callbacks ▸ hc⟩) ?_ ?_ ?_ ?_
  · intro p hp; rw [hres]; exact hp
  · intro p hp; rw [h.fetch]; exact .inr hp
  · intro p hp; rw [h.nonEmpty]; exact .inr hp
  · intro _ p _ hp; rw [h.rebalance]; exact hp

namespace Prom

variable {s : State} (hp : Prom s)
include hp

theorem same {t : State} (h : Same s t) (hw : ∀ w ∈ t.workers, WaitOk s w.phase) : Prom t where
  fetch := by rw [h.fetch, h.promises]; exact hp.fetch
  nonEmpty := by rw [h.nonEmpty, h.promises]; exact hp.nonEmpty
  alone := by rw [h.fetch, h.nonEmpty]; exact hp.alone
  rebalance := by unfold State.resolved; rw [h.rebalance, h.fetch, h.promises, h.rebalancing]; exact hp.rebalance
  rebalancing := by rw [h.rebalancing, h.rebalance, h.promises]; exact hp.rebalancing
  callbacks := by unfold State.resolved; rw [h.callbacks, h.fetch, h.promises]; exact hp.callbacks
  waits w hx := (hw w hx).same h
  woken := by rw [h.woken, h.fetch, h.nonEmpty, h.callbacks]; exact hp.woken
  term := by rw [h.main, h.term, h.woken]; exact hp.term
  pending := by rw [h.main, h.pending, h.term]; exact hp.pending
  queue := by rw [h.added, h.executed, h.pending]; exact hp.queue

theorem withCache {c : Cache Message} (hc : s.cache.raw.availableGen ≤ c.raw.availableGen) :
    Prom { s with cache := c } := hp.same (.withCache s hc) hp.waits

theorem setWorker {i : Nat} {w : Worker} (hw : WaitOk s w.phase) : Prom (s.setWorker i w) := by
  refine hp.same (t := s.setWorker i w) ⟨rfl, rfl, rfl, rfl, rfl, rfl, rfl, rfl, rfl, rfl, rfl, rfl,
    Nat.le_refl _⟩ ?_
  intro x hx
  rcases List.mem_or_eq_of_mem_set hx with h | rfl
  · exact hp.waits x h
  · exact hw

/-- `#notifyNonEmpty`, perhaps for a termination request `b` and as a wake-up `u`. -/
theorem notified {b u : Bool} (hb : s.workerTerminationScheduled = true → b = true)
    (hu : u = true → s.woken = true ∨ s.fetchInProgress = none)
    (hbu : b = true → u = true ∨ s.workerTerminationScheduled = true ∧ u = s.woken) :
    Prom { s.notifyNonEmpty with workerTerminationScheduled := b, woken := u } := by
  have hkeep : ∀ q : Nat, s.promises[q]? = some true →
      (s.nonEmpty.elim s.promises fun p => s.promises.set p true)[q]? = some true := by
    intro q hq
    cases s.nonEmpty with
    | none => exact hq
    | some p => exact set_true_resolved hq
  have hother : ∀ (q : Nat) (c : Bool), s.fetchInProgress ≠ none → s.promises[q]? = some c →
      (s.nonEmpty.elim s.promises fun p => s.promises.set p true)[q]? = some c := by
    intro q c hf hq
    rw [hp.alone hf]
    exact hq
  rw [notifyNonEmpty_eq]
  refine ⟨?_, ?_, ?_, ?_, ?_, ?_, ?_, ?_, ?_, ?_, hp.queue⟩
  · intro f hf
    exact hother f false (by rw [show s.fetchInProgress = some f from hf]; simp) (hp.fetch f hf)
  · intro q hq; cases hq
  · intro _; rfl
  · intro q hq
    obtain ⟨h₁, h₂, h₃, h₄⟩ := hp.rebalance q hq
    unfold State.resolved
    simp only
    rw [hp.alone h₁]
    exact ⟨h₁, h₂, h₃, h₄⟩
  · intro hr
    obtain ⟨q, hq, hf⟩ := hp.rebalancing hr
    exact ⟨q, hq, hother q false (hp.rebalance q hq).1 hf⟩
  · intro f hf
    exact (hp.callbacks f hf).imp (fun h => resolved_iff.mpr (hkeep f (resolved_iff.mp h))) id
  · intro w hw
    refine (hp.waits w hw).mono (Nat.le_succ _) (fun he => absurd he (Nat.ne_of_lt (Nat.lt_succ_self _))) ?_
      (fun _ => .inr) ?_ (fun _ _ _ => id)
    · intro q hq; exact resolved_iff.mpr (hkeep q (resolved_iff.mp hq))
    · intro q hq
      refine .inl (resolved_iff.mpr ?_)
      rw [hq]
      exact set_true_self (hp.nonEmpty q hq)
  · intro hx
    rcases hu hx with h | h
    · exact ⟨(hp.woken h).1, fun _ => .inl rfl⟩
    · exact ⟨fun f hf => absurd (h.symm.trans hf) (by simp), fun _ => .inl rfl⟩
  · intro hm ht
    rcases hbu ht with h | ⟨h, rfl⟩
    · exact h
    · exact hp.term hm h
  · intro hm hne
    exact hb (hp.pending hm hne)

theorem notifyNonEmpty : Prom s.notifyNonEmpty := by
  have h := hp.notified (b := s.workerTerminationScheduled) (u := s.woken) id .inl fun h => .inr ⟨h, rfl⟩
  rw [notifyNonEmpty_eq] at h ⊢
  exact h

/-- A wake-up reaches `#nonEmpty`, or leaves a callback that waits for the fetch. -/
theorem wake {b : Bool} (hb : s.workerTerminationScheduled = true → b = true) :
    Prom { s with workerTerminationScheduled := b }.queueNonEmptyCb := by
  unfold State.queueNonEmptyCb
  simp only
  split
  · rename_i f hf
    refine ⟨hp.fetch, hp.nonEmpty, hp.alone, hp.rebalance, hp.rebalancing, ?_, ?_, ?_, fun _ _ => rfl,
      fun hm hne => hb (hp.pending hm hne), hp.queue⟩
    · intro g hg
      rcases List.mem_append.mp hg with hg | hg
      · exact hp.callbacks g hg
      · obtain rfl := List.mem_singleton.mp hg
        exact .inr hf
    · intro w hw
      exact (hp.waits w hw).mono (Nat.le_refl _) (fun _ _ => .inr (by simp)) (fun _ => id) (fun _ => .inr)
        (fun _ => .inr) (fun _ _ _ => id)
    · intro _
      refine ⟨fun g hg => ?_, fun hn => ?_⟩
      · obtain rfl : f = g := Option.some.inj (hf.symm.trans hg)
        simp
      · rw [show s.fetchInProgress = none from hn] at hf; cases hf
  · rename_i hf
    have h := hp.notified (b := b) (u := true) hb (fun _ => .inr hf) fun _ => .inl rfl
    rw [notifyNonEmpty_eq] at h ⊢
    exact h

theorem queueNonEmptyCb : Prom s.queueNonEmptyCb := hp.wake id

theorem resolveWorkerTerminationScheduled : Prom s.resolveWorkerTerminationScheduled := hp.wake fun _ => rfl

/-- The request is made when the queue gets its first operation, and stands until the round has ended. -/
theorem addPendingOperation (op : Op) : Prom (s.addPendingOperation op) := by
  have hadd : ∀ t : State, Prom t → (t.main = .workers → t.workerTerminationScheduled = true) →
      Prom { t with pendingOperations := t.pendingOperations ++ [op], added := t.added ++ [op] } := by
    intro t ht hT
    refine ⟨ht.fetch, ht.nonEmpty, ht.alone, ht.rebalance, ht.rebalancing, ht.callbacks, ?_, ht.woken, ht.term,
      fun hm _ => hT hm, ?_⟩
    · intro w hw
      exact (ht.waits w hw).mono (Nat.le_refl _) (fun _ h => .inl ⟨h, id⟩) (fun _ => id) (fun _ => .inr)
        (fun _ => .inr)
        (fun _ _ _ => id)
    · show t.added ++ [op] = t.executed ++ (t.pendingOperations ++ [op])
      rw [ht.queue, List.append_assoc]
  unfold State.addPendingOperation
  simp only
  split_ifs with he
  · refine hadd _ hp.resolveWorkerTerminationScheduled fun _ => ?_
    unfold State.resolveWorkerTerminationScheduled State.queueNonEmptyCb
    simp only
    split
    · rfl
    · rw [notifyNonEmpty_eq]
  · exact hadd s hp fun hm => hp.pending hm he

theorem markBatchPayloadsStale {τ : Type} [Toppar τ] (tps : List τ) (isSeek : Bool) :
    Prom (s.markBatchPayloadsStale tps isSeek) := by
  refine hp.same (t := s.markBatchPayloadsStale tps isSeek)
    ⟨rfl, rfl, rfl, rfl, rfl, rfl, rfl, rfl, rfl, rfl, rfl, rfl, Nat.le_refl _⟩ ?_
  intro x hx
  obtain ⟨w, hw, rfl⟩ := List.mem_map.mp hx
  have hok := hp.waits w hw
  obtain ⟨ppc, phase⟩ := w
  cases phase with
  | handling b =>
    simp only [WaitOk] at hok ⊢
    split_ifs <;> exact hok
  | _ => exact hok

theorem seek (tpo : TopicPartitionOffset) (user : Bool) : Prom (s.seek tpo user) :=
  (hp.markBatchPayloadsStale [tpo] true).addPendingOperation _

theorem pause (tps : List TopicPartition) : Prom (s.pause tps) := by
  unfold State.pause
  split_ifs
  · exact hp
  · exact (hp.markBatchPayloadsStale tps false).addPendingOperation _

theorem resume (tps : List TopicPartition) : Prom (s.resume tps) := by
  unfold State.resume
  split_ifs
  · exact hp
  · exact hp.addPendingOperation _

theorem fetchAndResolveWith (i : Nat) (w : Worker) : Prom (s.fetchAndResolveWith i w) := by
  unfold State.fetchAndResolveWith
  cases hf : s.fetchInProgress with
  | some f => exact hp.setWorker (.inr hf)
  | none =>
    simp only
    cases hn : s.nonEmpty with
    | some p => exact hp.setWorker (.inr hn)
    | none =>
      simp only
      split_ifs with ht
      · exact hp.setWorker trivial
      · refine Prom.setWorker ?_ trivial
        have hnone : s.rebalanceCbInProgress = none := by
          by_contra h
          obtain ⟨p, hr⟩ := Option.ne_none_iff_exists'.mp h
          exact (hp.rebalance p hr).1 hf
        refine ⟨?_, ?_, fun _ => rfl, ?_, ?_, ?_, ?_, ?_, ?_, hp.pending, hp.queue⟩
        · intro f h
          obtain rfl := Option.some.inj h
          simp
        · intro p h; cases h
        · intro p h; rw [show s.rebalanceCbInProgress = some p from h] at hnone; cases hnone
        · intro h
          obtain ⟨p, hr, _⟩ := hp.rebalancing h
          rw [hr] at hnone; cases hnone
        · intro g hg
          rcases hp.callbacks g hg with h | h
          · exact .inl (resolved_iff.mpr (append_get (resolved_iff.mp h)))
          · rw [hf] at h; cases h
        · intro x hx
          refine (hp.waits x hx).mono (Nat.le_refl _) (fun _ h => .inl ⟨h, id⟩) ?_ ?_ ?_ (fun _ _ _ => id)
          · intro q hq; exact resolved_iff.mpr (append_get (resolved_iff.mp hq))
          · intro q hq; rw [hf] at hq; cases hq
          · intro q hq; rw [hn] at hq; cases hq
        · intro h; cases h
        · intro _ h; rw [show s.workerTerminationScheduled = true from h] at ht; exact absurd rfl ht

end Prom

theorem takeFromCache_gen (cfg : Config) (c : Cache Message) (ppc : Option Nat) :
    (takeFromCache cfg c ppc).1.raw.availableGen = c.raw.availableGen := by
  unfold takeFromCache
  split_ifs
  · exact c.raw.next_gen ppc
  · exact c.raw.nextN_gen ppc _

section
variable {cfg : Config} {s : State} {i : Nat} {w : Worker}

theorem Prom.workerTop (hp : Prom s) : Prom (s.workerTop cfg i w) := by
  unfold State.workerTop
  split_ifs with ht
  · refine Prom.setWorker (hp.withCache ?_) trivial
    cases w.ppc with
    | none => exact Nat.le_refl _
    | some p => exact s.cache.raw.giveBack_gen p
  · have hg := takeFromCache_gen cfg s.cache w.ppc
    split
    · rename_i c ms p he
      rw [he] at hg
      refine (hp.withCache (c := c) (Nat.le_of_eq hg.symm)).setWorker ?_
      exact ((takeFromCache_handed cfg s.cache w.ppc).handed ms p (by rw [he])).1
    · rename_i c he
      rw [he] at hg
      have hc := hp.withCache (c := c) (Nat.le_of_eq hg.symm)
      split_ifs
      · exact hc.setWorker ⟨Nat.le_refl _, fun h => absurd h ht⟩
      · exact hc.fetchAndResolveWith i w

theorem endFetch_setWorker (s : State) (quiet : Bool) (i : Nat) (w : Worker) :
    (s.endFetch quiet).setWorker i w = (s.setWorker i w).endFetch quiet := by
  unfold State.endFetch State.setWorker
  cases hf : s.fetchInProgress with
  | some f => simp only; split_ifs <;> rfl
  | none => simp only; split_ifs <;> rw [hf]

theorem Prom.endFetch (hp : Prom s) {f : Nat} (hf : s.fetchInProgress = some f)
    (hr : s.rebalanceCbInProgress = none) (quiet : Bool) : Prom (s.endFetch quiet) := by
  have hno : s.nonEmpty = none := hp.alone (by rw [hf]; simp)
  have hnr : s.rebalancing = none := by
    by_contra h
    obtain ⟨p, h, _⟩ := hp.rebalancing h
    rw [hr] at h; cases h
  have hend : Prom { s with promises := s.promises.set f true, fetchInProgress := none } := by
    refine ⟨?_, ?_, ?_, ?_, ?_, ?_, ?_, ?_, hp.term, hp.pending, hp.queue⟩
    · intro g hg; cases hg
    · intro p h; rw [show s.nonEmpty = some p from h] at hno; cases hno
    · intro h; exact absurd rfl h
    · intro p h; rw [show s.rebalanceCbInProgress = some p from h] at hr; cases hr
    · intro h; exact absurd hnr h
    · intro g hg
      rcases hp.callbacks g hg with h | h
      · exact .inl (resolved_iff.mpr (set_true_resolved (resolved_iff.mp h)))
      · obtain rfl : f = g := Option.some.inj (hf.symm.trans h)
        exact .inl (resolved_iff.mpr (set_true_self (hp.fetch f hf)))
    · intro x hx
      refine (hp.waits x hx).mono (Nat.le_refl _) (fun _ h => .inl ⟨h, id⟩) ?_ ?_ (fun _ => .inr) (fun _ _ _ => id)
      · intro q hq; exact resolved_iff.mpr (set_true_resolved (resolved_iff.mp hq))
      · intro q hq
        obtain rfl : f = q := Option.some.inj (hf.symm.trans hq)
        exact .inl (resolved_iff.mpr (set_true_self (hp.fetch f hf)))
    · intro h
      exact ⟨fun g hg => (by cases hg), fun _ => .inl hno⟩
  unfold State.endFetch
  rw [hf]
  simp only
  split_ifs
  · refine ⟨?_, ?_, ?_, ?_, ?_, ?_, ?_, ?_, hend.term, hend.pending, hend.queue⟩
    · intro g hg; cases hg
    · intro p h
      obtain rfl := Option.some.inj h
      simp
    · intro h; exact absurd rfl h
    · intro p h; rw [show s.rebalanceCbInProgress = some p from h] at hr; cases hr
    · intro h; exact absurd hnr h
    · intro g hg
      rcases hend.callbacks g hg with h | h
      · exact .inl (resolved_iff.mpr (append_get (resolved_iff.mp h)))
      · cases h
    · intro x hx
      refine (hend.waits x hx).mono (Nat.le_refl _) (fun _ h => .inl ⟨h, id⟩) ?_ (fun _ h => by cases h) ?_
        (fun _ _ _ => id)
      · intro q hq; exact resolved_iff.mpr (append_get (resolved_iff.mp hq))
      · intro q hq; rw [show s.nonEmpty = some q from hq] at hno; cases hno
    · -- the callback of the wake-up waited for this fetch
      intro h
      exact ⟨fun g hg => (by cases hg), fun _ => .inr (List.ne_nil_of_mem ((hp.woken h).1 f hf))⟩
  · exact hend

theorem Floor.fetching_unique (hi : Floor s) (hw : s.workers[i]? = some w)
    (hf : w.phase.fetching = true) (w' : Worker)
    {x : Worker} (hx : x ∈ (s.setWorker i w').workers) : x = w' ∨ x.phase.fetching = false := by
  have hlt : i < s.workers.length := (List.getElem?_eq_some_iff.mp hw).1
  obtain ⟨j, hj⟩ := List.mem_iff_getElem?.mp hx
  rw [show (s.setWorker i w').workers = s.workers.set i w' from rfl, List.getElem?_set] at hj
  split_ifs at hj with hij
  · exact .inl (Option.some.inj hj).symm
  · cases hxf : x.phase.fetching with
    | false => exact .inr rfl
    | true => exact absurd (hi.one i j _ _ (sketches_get hw) (sketches_get hj) hf hxf) hij

theorem Prom.finishFetch (hp : Prom s) (hi : Floor s) (hw : s.workers[i]? = some w) (hf : w.phase.fetching = true)
    (hr : s.rebalancing = none) (processedRebalance : Bool) (result : Option (List Message)) :
    Prom ({ s with rebalanceCbInProgress := none }.finishFetch cfg i w processedRebalance result) := by
  have hsome : s.fetchInProgress.isSome = true := hi.fetcher.mpr ⟨i, _, sketches_get hw, hf⟩
  obtain ⟨f, hfe⟩ := Option.isSome_iff_exists.mp hsome
  -- the worker leaves the fetch, the only one that may wait for the rebalance
  have hset : ∀ w' : Worker, WaitOk s w'.phase → w'.phase.fetching = false →
      Prom { s.setWorker i w' with rebalanceCbInProgress := none } := by
    intro w' hok hnf
    have h := hp.setWorker (i := i) hok
    refine ⟨h.fetch, h.nonEmpty, h.alone, fun p hp => (by cases hp), fun hne => absurd hr hne,
      h.callbacks, ?_, h.woken,
      h.term, h.pending, h.queue⟩
    intro x hx
    have hxf : x.phase.fetching = false := (hi.fetching_unique hw hf w' hx).elim (fun e => e ▸ hnf) id
    refine (h.waits x hx).mono (Nat.le_refl _) (fun _ h => .inl ⟨h, id⟩) (fun _ => id) (fun _ => .inr)
      (fun _ => .inr) ?_
    intro r p e
    rw [e] at hxf; cases hxf
  cases result with
  | none =>
    show Prom (({ s with rebalanceCbInProgress := none }.endFetch false).setWorker i _)
    rw [endFetch_setWorker]
    exact (hset { w with phase := .top } trivial rfl).endFetch hfe rfl false
  | some ms =>
    set ph : Phase := (takeFromCache cfg (s.cache.addMessages ms) none).2.elim .top fun r => .got r.1 r.2 with hph
    have hok : WaitOk s ph ∧ ph.fetching = false := by
      rw [hph]
      have hh := takeFromCache_handed cfg (s.cache.addMessages ms) none
      cases hr : (takeFromCache cfg (s.cache.addMessages ms) none).2 with
      | none => exact ⟨trivial, rfl⟩
      | some r => exact ⟨(hh.handed r.1 r.2 hr).1, rfl⟩
    show Prom ((({ s with rebalanceCbInProgress := none }.putFetched cfg ms).endFetch _).setWorker i ⟨w.ppc, ph⟩)
    rw [endFetch_setWorker]
    have h := hset ⟨w.ppc, ph⟩ hok.1 hok.2
    have hput : Prom (({ s with rebalanceCbInProgress := none }.putFetched cfg ms).setWorker i ⟨w.ppc, ph⟩) := by
      refine h.same (t := ({ s with rebalanceCbInProgress := none }.putFetched cfg ms).setWorker i ⟨w.ppc, ph⟩)
        ⟨rfl, rfl, rfl, rfl, rfl, rfl, rfl, rfl, rfl, rfl, rfl, rfl, ?_⟩ h.waits
      show s.cache.raw.availableGen ≤ (takeFromCache cfg (s.cache.addMessages ms) none).1.raw.availableGen
      rw [takeFromCache_gen]
      exact s.cache.raw.addMessages_gen ms
    exact hput.endFetch hfe rfl _

theorem Prom.returnMessages (hp : Prom s) (ms : List Message) (p : Nat) : Prom (s.returnMessages i ms p) := by
  have hc := (hp.withCache (c := s.cache.returnMessages ms) (s.cache.raw.returnMessages_gen ms)).setWorker
    (i := i) (w := ⟨some p, .top⟩) trivial
  exact hc.same (t := s.returnMessages i ms p)
    ⟨rfl, rfl, rfl, rfl, rfl, rfl, rfl, rfl, rfl, rfl, rfl, rfl, Nat.le_refl _⟩ hc.waits

theorem Prom.deliver (hp : Prom s) {ms : List Message} (hne : ms ≠ []) (p : Nat) : Prom (s.deliver i w ms p) := by
  have hc := hp.setWorker (i := i) (w := { w with phase := .handling ⟨ms, p, -1, -1, false, false⟩ }) hne
  exact hc.same (t := s.deliver i w ms p)
    ⟨rfl, rfl, rfl, rfl, rfl, rfl, rfl, rfl, rfl, rfl, rfl, rfl, Nat.le_refl _⟩ hc.waits

theorem Prom.process (hp : Prom s) {ms : List Message} (hne : ms ≠ []) (p : Nat) :
    Prom (s.process cfg i w ms p) := by
  unfold State.process
  split_ifs
  · exact hp.returnMessages ms p
  · exact hp.setWorker hne
  · exact hp.deliver hne p

theorem Prom.stepWorker (hp : Prom s) (hi : Floor s) (hw : s.workers[i]? = some w) {t : State}
    (h : stepWorker cfg s i w = some t) : Prom t := by
  have hwait := hp.waits w (List.mem_of_getElem? hw)
  unfold Consumer.stepWorker at h
  split at h
  · obtain rfl := Option.some.inj h
    exact hp.workerTop
  · split_ifs at h
    obtain rfl := Option.some.inj h
    exact hp.setWorker trivial
  · split_ifs at h
    obtain rfl := Option.some.inj h
    exact hp.setWorker trivial
  · split_ifs at h
    obtain rfl := Option.some.inj h
    exact hp.setWorker trivial
  · rename_i r hph
    split at h
    · rename_i p hr
      obtain rfl := Option.some.inj h
      exact hp.setWorker hr
    · rename_i hr
      obtain rfl := Option.some.inj h
      have hnr : s.rebalancing = none := by
        by_contra hne
        obtain ⟨p, h, _⟩ := hp.rebalancing hne
        rw [hr] at h; cases h
      have hf : Prom ({ s with rebalanceCbInProgress := none }.finishFetch cfg i w false r) :=
        hp.finishFetch hi hw (by rw [hph]; rfl) hnr false r
      rwa [← hr] at hf
  · rename_i r p hph
    split_ifs at h with hres
    obtain rfl := Option.some.inj h
    rw [hph] at hwait
    refine hp.finishFetch hi hw (by rw [hph]; rfl) ?_ true r
    by_contra hne
    obtain ⟨q, hq, hfalse⟩ := hp.rebalancing hne
    obtain rfl : p = q := Option.some.inj ((show s.rebalanceCbInProgress = some p from hwait).symm.trans hq)
    rw [resolved_iff.mp hres] at hfalse
    cases hfalse
  · rename_i hph
    obtain rfl := Option.some.inj h
    rw [hph] at hwait
    exact hp.process hwait _
  · rename_i hph
    obtain rfl := Option.some.inj h
    rw [hph] at hwait
    exact hp.deliver hwait _
  · cases h

end

end Consumer

end ConfluentKafka
