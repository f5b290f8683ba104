import ConfluentKafka.RunWake

/-!
# The invariants of the run loop

Every step keeps the ownership of the PPCs and the promises in order: the steps
of the workers as the modules before say, those of the main loop because no
worker runs then, and those of a rebalance because a fetch is in progress.
-/

namespace ConfluentKafka

namespace Consumer

structure Inv (s : State) : Prop where
  floor : Floor s
  prom : Prom s

/-! ## What the operations leave alone -/

/-- An operation changes the cache, the offsets and the assignment, and nothing else. -/
structure Executed (s t : State) : Prop where
  eq : t = { s with
    cache := t.cache
    lastConsumedOffsets := t.lastConsumedOffsets
    pendingSeeks := t.pendingSeeks
    partitionCount := t.partitionCount
    assignment := t.assignment
    position := t.position
    owed := t.owed }
  gen : t.cache.raw.availableGen = s.cache.raw.availableGen

namespace Executed

theorem refl (s : State) : Executed s s := ⟨rfl, rfl⟩

theorem trans {s t u : State} (h : Executed s t) (h' : Executed t u) : Executed s u := by
  refine ⟨?_, h'.gen.trans h.gen⟩
  have := h'.eq
  rw [h.eq] at this
  exact this

theorem foldl {α : Type} {f : State → α → State} (hf : ∀ s x, Executed s (f s x)) :
    ∀ (xs : List α) (s : State), Executed s (xs.foldl f s)
  | [], s => refl s
  | x :: xs, s => (hf s x).trans (foldl hf xs (f s x))

theorem seekPartition (s : State) (tpo : TopicPartitionOffset) : Executed s (s.seekPartition tpo) :=
  ⟨rfl, MessageCache.markStale_gen [tpo] s.cache.raw⟩

theorem seekInternal (s : State) (tpos : List TopicPartitionOffset) : Executed s (s.seekInternal tpos) := by
  unfold State.seekInternal
  refine .trans (t := { s with pendingSeeks := _ }) ?_ (foldl seekPartition _ _)
  exact ⟨rfl, rfl⟩

theorem pauseInternal (s : State) (tps : List TopicPartition) : Executed s (s.pauseInternal tps) :=
  .trans (t := { s with cache := s.cache.markStale tps }) ⟨rfl, MessageCache.markStale_gen tps s.cache.raw⟩
    (seekInternal _ _)

theorem clearCacheAndResetPositions (s : State) : Executed s s.clearCacheAndResetPositions :=
  .trans (t := { s with cache := s.cache.clear }) ⟨rfl, rfl⟩ (foldl (fun s _ => seekInternal s _) _ _)

theorem unassign (cfg : Config) (s : State) (tps : List TopicPartition) : Executed s (s.unassign cfg tps) := by
  unfold State.unassign
  split_ifs
  · exact ⟨rfl, rfl⟩
  · exact ⟨rfl, MessageCache.markStale_gen tps s.cache.raw⟩

theorem assign (cfg : Config) (s : State) (modified : Bool) (tpos : List TopicPartitionOffset) :
    Executed s (s.assign cfg modified tpos) := ⟨rfl, rfl⟩

theorem execute (cfg : Config) (s : State) (op : Op) : Executed s (s.execute cfg op) := by
  cases op with
  | seek tpo user =>
    have h := seekInternal s [tpo]
    cases user with
    | false => exact h
    | true => exact h.trans (u := { s.seekInternal [tpo] with owed := _ }) ⟨rfl, rfl⟩
  | pause tps => exact pauseInternal s tps
  | resume _ => exact refl s
  | unassign tps => exact unassign cfg s tps
  | clearCacheAndResetPositions => exact clearCacheAndResetPositions s

variable {s t : State} (h : Executed s t)
include h

theorem workers : t.workers = s.workers := by rw [h.eq]

theorem same : Same s t := by
  refine ⟨?_, ?_, ?_, ?_, ?_, ?_, ?_, ?_, ?_, ?_, ?_, ?_, Nat.le_of_eq h.gen.symm⟩ <;> rw [h.eq]

theorem prom (hp : Prom s) : Prom t := hp.same h.same (by rw [h.workers]; exact hp.waits)

/-- When all workers have ended, an operation may do anything to the cache. -/
theorem floor_idle (hi : Floor s) (hm : s.main ≠ .workers) : Floor t := by
  have hall : ∀ (i : Nat) (x : Sketch), s.sketches[i]? = some x → x.done = true := hi.barrier (by simpa using hm)
  have hf : s.fetchInProgress = none := by
    cases hf : s.fetchInProgress with
    | none => rfl
    | some f =>
      obtain ⟨i, x, hx, hxf⟩ := hi.fetcher.mp (by rw [hf]; rfl)
      rw [hi.ended i x hx (hall i x hx)] at hxf
      cases hxf
  have := InvAt.idle hi hall t.cache.view (s.main = .workers)
  unfold Floor
  rw [show t.sketches = s.sketches by rw [State.sketches, h.workers]; rfl, h.same.fetch, h.same.main, hf]
  exact this

end Executed

theorem resolveOffset_eq (s : State) (b : Batch) (offset leaderEpoch : Int) (stored : Bool) :
    ∃ lastConsumedOffsets b', s.resolveOffset b offset leaderEpoch stored = ({ s with lastConsumedOffsets }, b') ∧
      b'.messages = b.messages ∧ b'.ppc = b.ppc := by
  unfold State.resolveOffset
  split
  · exact ⟨_, _, rfl, rfl, rfl⟩
  · split_ifs
    · exact ⟨_, _, rfl, rfl, rfl⟩
    · exact ⟨_, _, rfl, rfl, rfl⟩
    · exact ⟨_, _, rfl, rfl, rfl⟩

theorem seekUnresolved_cases (s : State) (b : Batch) (first last : Message) :
    s.seekUnresolved b first last = s ∨ ∃ offset epoch, b.lastResolvedOffset ≠ last.offset ∧
      (offset = first.offset ∨ b.lastResolvedOffset ≠ -1 ∧ offset = b.lastResolvedOffset + 1) ∧
      s.seekUnresolved b first last = s.seek ⟨first.topic, first.partition, offset, epoch⟩ false := by
  unfold State.seekUnresolved
  split_ifs with h h1
  · exact .inr ⟨_, _, h.2, .inl rfl, rfl⟩
  · exact .inr ⟨_, _, h.2, .inr ⟨h1, rfl⟩, rfl⟩
  · exact .inl rfl

/-- A processor ends with its PPC, perhaps with another last consumed offset, that of a message it had, and
perhaps with a seek back to its first message or to the one after the last that was resolved. -/
theorem stepHandled_cases {cfg : Config} {s t : State} {i : Nat} {b : Batch} {processed stored : Bool}
    (h : stepHandled cfg s i b processed stored = some t) :
    ∃ first last l, b.messages.head? = some first ∧ b.messages.getLast? = some last ∧
      (l = s.lastConsumedOffsets ∨ ∃ m ∈ b.messages, l = s.lastConsumedOffsets.set (partitionKey first)
        ⟨first.topic, first.partition, m.offset, m.leaderEpoch⟩) ∧
      (t = { s with lastConsumedOffsets := l }.setWorker i ⟨some b.ppc, .top⟩ ∨
        ∃ offset epoch, (offset = first.offset ∨ b.lastResolvedOffset ≠ -1 ∧ offset = b.lastResolvedOffset + 1) ∧
          t = ({ s with lastConsumedOffsets := l }.setWorker i ⟨some b.ppc, .top⟩).seek
            ⟨first.topic, first.partition, offset, epoch⟩ false) := by
  unfold stepHandled at h
  split at h
  · rename_i first ms last hm hl
    have hlast : last ∈ b.messages := List.mem_of_getLast? hl
    have hfirst : b.messages.head? = some first := by rw [hm]; rfl
    split_ifs at h
    · obtain rfl := Option.some.inj h
      unfold State.messageProcessed
      simp only
      split_ifs
      · exact ⟨first, last, _, hfirst, hl, .inl rfl, .inr ⟨_, _, .inl rfl, rfl⟩⟩
      · exact ⟨first, last, _, hfirst, hl, .inr ⟨first, by rw [hm]; simp, rfl⟩, .inl rfl⟩
      · exact ⟨first, last, _, hfirst, hl, .inl rfl, .inl rfl⟩
    · obtain rfl := Option.some.inj h
      obtain ⟨l, b', he, hl', hp, hb'⟩ : ∃ l b',
          (if processed ∧ cfg.eachBatchAutoResolve ∧ !b.stale then s.resolveOffset b last.offset
            last.leaderEpoch stored
            else (s, b)) = ({ s with lastConsumedOffsets := l }, b') ∧
          (l = s.lastConsumedOffsets ∨ ∃ m ∈ b.messages, l = s.lastConsumedOffsets.set (partitionKey first)
            ⟨first.topic, first.partition, m.offset, m.leaderEpoch⟩) ∧ b'.ppc = b.ppc ∧
          (b' = b ∨ b'.lastResolvedOffset = last.offset) := by
        by_cases hres : processed = true ∧ cfg.eachBatchAutoResolve = true ∧ (!b.stale) = true
        · rw [if_pos hres]
          unfold State.resolveOffset
          rw [hm]
          simp only
          split_ifs
          · exact ⟨_, _, rfl, .inl rfl, rfl, .inl rfl⟩
          · exact ⟨_, _, rfl, .inr ⟨last, hm ▸ hlast, rfl⟩, rfl, .inr rfl⟩
          · exact ⟨_, _, rfl, .inl rfl, rfl, .inr rfl⟩
        · rw [if_neg hres]
          exact ⟨_, _, rfl, .inl rfl, rfl, .inl rfl⟩
      refine ⟨first, last, l, hfirst, hl, hl', ?_⟩
      unfold State.batchProcessed
      rw [he, ← hp]
      rcases seekUnresolved_cases ({ s with lastConsumedOffsets := l }.setWorker i ⟨some b'.ppc, .top⟩) b' first
        last
        with hs | ⟨offset, epoch, hne, ho, hs⟩
      · exact .inl hs
      · obtain rfl : b' = b := hb'.resolve_right hne
        exact .inr ⟨offset, epoch, ho, hs⟩
  · cases h

theorem Floor.atMain {s : State} (hi : Floor s) {m : Main} (hm : s.main ≠ .workers) (hm' : m ≠ .workers) :
    Floor { s with main := m } := by
  unfold Floor at hi ⊢
  rw [show decide (s.main = .workers) = false by simpa using hm] at hi
  rw [show decide (({ s with main := m } : State).main = .workers) = false by simpa using hm']
  exact hi

/-! ## Every step keeps the invariants -/

namespace Inv

variable {cfg : Config} {s : State} (hi : Inv s)
include hi

theorem lastConsumed (l : JsMap String TopicPartitionOffset) : Inv { s with lastConsumedOffsets := l } :=
  ⟨hi.floor, hi.prom.same (t := { s with lastConsumedOffsets := l })
    ⟨rfl, rfl, rfl, rfl, rfl, rfl, rfl, rfl, rfl, rfl, rfl, rfl, Nat.le_refl _⟩ hi.prom.waits⟩

theorem notifyNonEmpty : Inv s.notifyNonEmpty :=
  ⟨(Frame.notifyNonEmpty s).floor hi.floor, hi.prom.notifyNonEmpty⟩

theorem queueNonEmptyCb : Inv s.queueNonEmptyCb :=
  ⟨(Frame.queueNonEmptyCb s).floor hi.floor, hi.prom.queueNonEmptyCb⟩

theorem resolveWorkerTerminationScheduled : Inv s.resolveWorkerTerminationScheduled :=
  ⟨(Frame.resolveWorkerTerminationScheduled s).floor hi.floor, hi.prom.resolveWorkerTerminationScheduled⟩

theorem addPendingOperation (op : Op) : Inv (s.addPendingOperation op) :=
  ⟨(Frame.addPendingOperation s op).floor hi.floor, hi.prom.addPendingOperation op⟩

theorem seek (tpo : TopicPartitionOffset) (user : Bool) : Inv (s.seek tpo user) :=
  ⟨(Frame.seek s tpo user).floor hi.floor, hi.prom.seek tpo user⟩

theorem pause (tps : List TopicPartition) : Inv (s.pause tps) :=
  ⟨(Frame.pause s tps).floor hi.floor, hi.prom.pause tps⟩

theorem resume (tps : List TopicPartition) : Inv (s.resume tps) :=
  ⟨(Frame.resume s tps).floor hi.floor, hi.prom.resume tps⟩

/-- A handler ends or goes on, with the PPC of its messages. -/
theorem setHandling {i : Nat} {w : Worker} {b : Batch} (hw : s.workers[i]? = some w) (hb : w.phase = .handling b)
    {w' : Worker} (hw' : w' = ⟨some b.ppc, .top⟩ ∨ ∃ b', w' = ⟨w.ppc, .handling b'⟩ ∧
      b'.messages = b.messages ∧ b'.ppc = b.ppc) : Inv (s.setWorker i w') := by
  have hd : w.phase ≠ .done := by rw [hb]; simp
  rcases hw' with rfl | ⟨b', rfl, hm, hp⟩
  · refine ⟨hi.floor.setWorker hw hd ?_ ?_ (by rw [hb]; rfl) (by simp), hi.prom.setWorker trivial⟩
    · intro p h
      obtain rfl : b.ppc = p := by simpa [Sketch.mem_handles, Worker.sketch, Phase.hand] using h
      simp [Sketch.mem_handles, Worker.sketch, hb, Phase.hand]
    · intro p h; cases h
  · have hne := hi.prom.waits w (List.mem_of_getElem? hw)
    rw [hb] at hne
    refine ⟨hi.floor.setWorker hw hd ?_ ?_ (by rw [hb]; rfl) (by simp), hi.prom.setWorker (hm.trans_ne hne)⟩
    · intro p h; simpa [Sketch.mem_handles, Worker.sketch, hb, Phase.hand, hp] using h
    · intro p h; simpa [Worker.sketch, hb, Phase.hand, hp] using h

theorem stepHandled {i : Nat} {w : Worker} {b : Batch} (hw : s.workers[i]? = some w) (hb : w.phase = .handling b)
    {processed stored : Bool} {t : State} (h : stepHandled cfg s i b processed stored = some t) : Inv t := by
  obtain ⟨_, _, l, _, _, _, rfl | ⟨_, _, _, rfl⟩⟩ := stepHandled_cases h
  · exact (hi.lastConsumed l).setHandling hw hb (.inl rfl)
  · exact ((hi.lastConsumed l).setHandling hw hb (.inl rfl)).seek _ _

theorem consumed {i : Nat} {ppc : Option Nat} (hw : s.workers[i]? = some ⟨ppc, .consuming⟩)
    (position : String → Int)
    (r : Option (List Message)) : Inv ({ s with position }.setWorker i ⟨ppc, .consumed r⟩) := by
  have hf : Floor { s with position } := hi.floor
  have hp : Prom { s with position } := hi.prom.same (t := { s with position })
    ⟨rfl, rfl, rfl, rfl, rfl, rfl, rfl, rfl, rfl, rfl, rfl, rfl, Nat.le_refl _⟩ hi.prom.waits
  refine ⟨hf.setWorker hw (by simp) ?_ ?_ rfl (by simp), hp.setWorker trivial⟩
  · intro p h; exact h
  · intro p h; exact h

/-- The callback that ran is not the one of the fetch in progress. -/
theorem callback {j f : Nat} (hj : s.callbacks[j]? = some f) (hres : s.resolved f = true) :
    Inv { s with callbacks := s.callbacks.eraseIdx j }.notifyNonEmpty := by
  refine ⟨(Frame.notifyNonEmpty _).floor hi.floor, ?_⟩
  have hp := hi.prom.notifyNonEmpty
  rw [notifyNonEmpty_eq] at hp ⊢
  refine ⟨hp.fetch, hp.nonEmpty, hp.alone, hp.rebalance, hp.rebalancing, ?_, ?_, ?_, hp.term, hp.pending, hp.queue⟩
  · intro g hg
    exact hp.callbacks g (List.mem_of_mem_eraseIdx hg)
  · intro w hw
    have hlt : ∀ g, w.phase = .waitAvailable g → g ≤ s.cache.raw.availableGen := fun g e => by
      have := hi.prom.waits w hw
      rw [e] at this
      exact this.1
    have h := hp.waits w hw
    cases hph : w.phase with
    | waitAvailable g =>
      refine ⟨Nat.le_succ_of_le (hlt g hph), fun _ hg => ?_⟩
      exact absurd hg (Nat.ne_of_lt (Nat.lt_succ_of_le (hlt g hph)))
    | _ => rw [hph] at h; exact h
  · intro hw
    refine ⟨fun g hg => ?_, fun _ => .inl rfl⟩
    have hmem := (hi.prom.woken hw).1 g hg
    refine (List.mem_eraseIdx_iff_getElem? ).mpr ?_
    obtain ⟨k, hk⟩ := List.mem_iff_getElem?.mp hmem
    refine ⟨k, fun e => ?_, hk⟩
    subst e
    obtain rfl : f = g := Option.some.inj (hj.symm.trans hk)
    have := hi.prom.fetch f hg
    rw [resolved_iff.mp hres] at this
    cases this

theorem fetch_of_consuming (hc : s.workers.any (fun w => w.phase = .consuming) = true) :
    s.fetchInProgress ≠ none ∧ ∀ w ∈ s.workers, ∀ r p, w.phase ≠ .waitRebalance r p := by
  obtain ⟨w, hw, hph⟩ := List.any_eq_true.mp hc
  have hph : w.phase = .consuming := by simpa using hph
  obtain ⟨i, hi'⟩ := List.mem_iff_getElem?.mp hw
  have hfe : w.sketch.fetching = true := by rw [Worker.sketch, hph]; rfl
  refine ⟨fun h => ?_, fun x hx r p e => ?_⟩
  · have := hi.floor.fetcher.mpr ⟨i, _, sketches_get hi', hfe⟩
    rw [h] at this; cases this
  · obtain ⟨j, hj⟩ := List.mem_iff_getElem?.mp hx
    have hxe : x.sketch.fetching = true := by rw [Worker.sketch, e]; rfl
    obtain rfl := hi.floor.one i j _ _ (sketches_get hi') (sketches_get hj) hfe hxe
    obtain rfl := Option.some.inj (hi'.symm.trans hj)
    rw [hph] at e; cases e

theorem rebalance (hc : s.workers.any (fun w => w.phase = .consuming) = true) (r : Rebalance) :
    Inv { s with
      promises := s.promises ++ [false]
      rebalanceCbInProgress := some s.promises.length
      rebalancing := some r } := by
  have hp := hi.prom
  obtain ⟨hf, hno⟩ := hi.fetch_of_consuming hc
  refine ⟨hi.floor, ?_, ?_, hp.alone, ?_, ?_, ?_, ?_, hp.woken, hp.term, hp.pending, hp.queue⟩
  · intro f h; exact append_get (hp.fetch f h)
  · intro p h; exact append_get (hp.nonEmpty p h)
  · intro p h
    obtain rfl := Option.some.inj h
    refine ⟨hf, fun e => ?_, by simp, .inr (by simp)⟩
    have := hp.fetch _ e
    simp at this
  · intro _
    exact ⟨_, rfl, by simp⟩
  · intro f h
    exact (hp.callbacks f h).imp (fun h => resolved_iff.mpr (append_get (resolved_iff.mp h))) id
  · intro w hw
    refine (hp.waits w hw).mono (Nat.le_refl _) (fun _ h => .inl ⟨h, id⟩) ?_ (fun _ => .inr) (fun _ => .inr) ?_
    · intro q hq; exact resolved_iff.mpr (append_get (resolved_iff.mp hq))
    · intro x q e; exact absurd e (hno w hw x q)

/-- While a fetch is in progress the cache is empty, and so it stays. -/
theorem unassign (hf : s.fetchInProgress ≠ none) (tps : List TopicPartition) : Inv (s.unassign cfg tps) := by
  have he := Executed.unassign cfg s tps
  refine ⟨?_, he.prom hi.prom⟩
  have hsome : s.fetchInProgress.isSome = true := Option.isSome_iff_ne_none.mpr hf
  have hat := hi.floor
  unfold Floor at hat ⊢
  rw [hsome] at hat
  rw [show (s.unassign cfg tps).sketches = s.sketches by rw [State.sketches, he.workers]; rfl, he.same.fetch,
    he.same.main, hsome]
  have hdis : ∃ P, s.cache.view.Discarded (s.unassign cfg tps).cache.view P := by
    unfold State.unassign
    split_ifs
    · exact ⟨_, s.cache.clear_discarded⟩
    · exact ⟨_, s.cache.markStale_discarded tps⟩
  obtain ⟨P, hdis⟩ := hdis
  refine hat.emptied ?_ hdis.fresh
  refine List.eq_nil_iff_forall_not_mem.mpr fun p hp => ?_
  have := ((hdis.live p).mp hp).1
  rw [hat.empty rfl] at this
  cases this

theorem callbackDone : Inv { s with
    promises := s.rebalanceCbInProgress.elim s.promises fun p => s.promises.set p true
    rebalancing := none } := by
  have hp := hi.prom
  have hkeep : ∀ q : Nat, s.promises[q]? = some true →
      (s.rebalanceCbInProgress.elim s.promises fun p => s.promises.set p true)[q]? = some true := by
    intro q hq
    cases s.rebalanceCbInProgress with
    | none => exact hq
    | some p => exact set_true_resolved hq
  refine ⟨hi.floor, ?_, ?_, hp.alone, ?_, fun h => absurd rfl h, ?_, ?_, hp.woken, hp.term, hp.pending, hp.queue⟩
  · intro f hf
    cases hr : s.rebalanceCbInProgress with
    | none => exact hp.fetch f hf
    | some p =>
      have hne : p ≠ f := fun e => (hp.rebalance p hr).2.1 (e ▸ hf)
      show (s.promises.set p true)[f]? = some false
      rw [List.getElem?_set_ne hne]
      exact hp.fetch f hf
  · intro q hq
    cases hr : s.rebalanceCbInProgress with
    | none => exact hp.nonEmpty q hq
    | some p =>
      have := hp.alone (hp.rebalance p hr).1
      rw [show s.nonEmpty = some q from hq] at this; cases this
  · intro p h
    obtain ⟨h₁, h₂, h₃, _⟩ := hp.rebalance p h
    rw [show s.rebalanceCbInProgress = some p from h]
    refine ⟨h₁, h₂, by simpa using h₃, .inl (resolved_iff.mpr ?_)⟩
    exact List.getElem?_set_self h₃
  · intro f hf
    exact (hp.callbacks f hf).imp (fun h => resolved_iff.mpr (hkeep f (resolved_iff.mp h))) id
  · intro w hw
    refine (hp.waits w hw).mono (Nat.le_refl _) (fun _ h => .inl ⟨h, id⟩) ?_ (fun _ => .inr) (fun _ => .inr)
      (fun _ _ _ => id)
    intro q hq
    exact resolved_iff.mpr (hkeep q (resolved_iff.mp hq))

theorem endRebalance : Inv (s.endRebalance cfg) := by
  unfold State.endRebalance
  by_cases h : s.workersToSpawn cfg ≠ s.workers.length
  · rw [if_pos h]; exact hi.resolveWorkerTerminationScheduled.callbackDone
  · rw [if_neg h]; exact hi.callbackDone

theorem rebalanced {r : Rebalance} (hr : s.rebalancing = some r) (modified : Bool)
    (tpos : List TopicPartitionOffset) :
    Inv (s.rebalanced cfg r modified tpos) := by
  obtain ⟨p, hrp, _⟩ := hi.prom.rebalancing (by rw [hr]; simp)
  have hf := (hi.prom.rebalance p hrp).1
  unfold State.rebalanced
  cases r with
  | assign =>
    refine Inv.endRebalance ?_
    exact ⟨hi.floor, (Executed.assign cfg s modified tpos).prom hi.prom⟩
  | revoke =>
    refine Inv.endRebalance ?_
    split_ifs
    · exact hi.unassign hf _
    · exact hi.addPendingOperation _

theorem atMain {m : Main} (hm : s.main ≠ .workers) (hm' : m ≠ .workers) : Inv { s with main := m } := by
  have hp := hi.prom
  exact ⟨hi.floor.atMain hm hm', hp.fetch, hp.nonEmpty, hp.alone, hp.rebalance, hp.rebalancing, hp.callbacks,
    fun w hw => (hp.waits w hw).mono (Nat.le_refl _) (fun _ h => .inl ⟨h, id⟩) (fun _ => id) (fun _ => .inr)
      (fun _ => .inr) (fun _ _ _ => id),
    hp.woken, fun h => absurd h hm', fun h => absurd h hm', hp.queue⟩

theorem newTermination (hm : s.main ≠ .workers) : Inv { s with workerTerminationScheduled := false } := by
  have hp := hi.prom
  exact ⟨hi.floor, hp.fetch, hp.nonEmpty, hp.alone, hp.rebalance, hp.rebalancing, hp.callbacks,
    fun w hw => (hp.waits w hw).mono (Nat.le_refl _) (fun _ h => by cases h) (fun _ => id) (fun _ => .inr)
      (fun _ => .inr) (fun _ _ _ => id),
    hp.woken, fun h => absurd h hm, fun h => absurd h hm, hp.queue⟩

theorem fetch_idle (hm : s.main ≠ .workers) : s.fetchInProgress = none := by
  cases hf : s.fetchInProgress with
  | none => rfl
  | some f =>
    obtain ⟨i, x, hx, hxf⟩ := hi.floor.fetcher.mp (by rw [hf]; rfl)
    rw [hi.floor.ended i x hx (hi.floor.barrier (by simpa using hm) i x hx)] at hxf
    cases hxf

theorem spawn (hm : s.main ≠ .workers) (hno : s.pendingOperations = []) (n : Nat) :
    Inv { s with
      workerTerminationScheduled := false
      workers := List.replicate n ⟨none, .top⟩
      expiration := .loop
      main := .workers } := by
  have hp := hi.prom
  constructor
  · refine Floor.of_at rfl ?_
    have hf := hi.fetch_idle hm
    show InvAt s.cache.view ((List.replicate n (⟨none, .top⟩ : Worker)).map Worker.sketch)
      s.fetchInProgress.isSome true
    rw [hf, List.map_replicate]
    exact InvAt.spawn _ n
  · refine ⟨hp.fetch, hp.nonEmpty, hp.alone, hp.rebalance, hp.rebalancing, hp.callbacks, ?_, hp.woken,
      fun _ h => (by cases h), fun _ h => absurd hno h, hp.queue⟩
    intro w hw
    rw [(List.mem_replicate.mp hw).2]
    trivial

theorem workersEnded (hm : s.main = .workers) (hall : s.workers.all (fun w => w.phase = .done) = true) :
    Inv { s with main := .expiration } := by
  have hp := hi.prom
  have hd : ∀ (i : Nat) (x : Sketch), s.sketches[i]? = some x → x.done = true := by
    intro i x hx
    obtain ⟨w, hw, rfl⟩ := List.mem_map.mp (List.mem_of_getElem? hx)
    simpa [Worker.sketch] using List.all_eq_true.mp hall w hw
  have hf : s.fetchInProgress = none := by
    cases hf : s.fetchInProgress with
    | none => rfl
    | some f =>
      obtain ⟨i, x, hx, hxf⟩ := hi.floor.fetcher.mp (by rw [hf]; rfl)
      rw [hi.floor.ended i x hx (hd i x hx)] at hxf
      cases hxf
  constructor
  · have := InvAt.idle (hi.floor.at hm) hd s.cache.view false
    show InvAt s.cache.view s.sketches s.fetchInProgress.isSome _
    rw [hf]
    exact this
  · exact ⟨hp.fetch, hp.nonEmpty, hp.alone, hp.rebalance, hp.rebalancing, hp.callbacks,
      fun w hw => (hp.waits w hw).mono (Nat.le_refl _) (fun _ h => .inl ⟨h, id⟩) (fun _ => id) (fun _ => .inr)
        (fun _ => .inr) (fun _ _ _ => id),
      hp.woken, fun h => (by cases h), fun h => (by cases h), hp.queue⟩

/-- An operation leaves the queue and is executed, while no worker runs. -/
theorem executeOp (hm : s.main = .ops) {op : Op} {ops : List Op} (hops : s.pendingOperations = op :: ops) :
    Inv { ({ s with pendingOperations := ops }.execute cfg op) with
      main := .op
      executed := ({ s with pendingOperations := ops }.execute cfg op).executed ++ [op] } := by
  have hne : s.main ≠ .workers := by rw [hm]; simp
  have he := Executed.execute cfg { s with pendingOperations := ops } op
  have hfl : Floor { s with pendingOperations := ops } := hi.floor
  constructor
  · have := (he.floor_idle hfl hne).atMain (m := .op) (by rw [he.same.main]; exact hne) (by simp)
    exact this
  · have hp := hi.prom
    have hq : Prom { s with pendingOperations := ops, executed := s.executed ++ [op], main := .op } := by
      refine ⟨hp.fetch, hp.nonEmpty, hp.alone, hp.rebalance, hp.rebalancing, hp.callbacks,
        fun w hw => (hp.waits w hw).mono (Nat.le_refl _) (fun _ h => .inl ⟨h, id⟩) (fun _ => id) (fun _ => .inr)
          (fun _ => .inr) (fun _ _ _ => id),
        hp.woken, fun h => (by cases h), fun h => (by cases h), ?_⟩
      show s.added = s.executed ++ [op] ++ ops
      rw [hp.queue, hops, List.append_assoc, List.singleton_append]
    obtain ⟨h₁, h₂, h₃, h₄, h₅, h₆, h₇, _, h₉, h₁₀, h₁₁, h₁₂, h₁₃⟩ := he.same
    refine hq.same ⟨h₁, h₂, h₃, h₄, h₅, h₆, h₇, rfl, h₉, h₁₀, h₁₁, ?_, h₁₃⟩ ?_
    · show (State.execute cfg _ op).executed ++ [op] = _
      rw [h₁₂]
    · intro w hw
      rw [show _ = s.workers from he.workers] at hw
      exact hq.waits w hw

theorem stepMain {t : State} (h : stepMain cfg s = some t) : Inv t := by
  unfold Consumer.stepMain at h
  split at h
  · rename_i hm
    have hne : s.main ≠ .workers := by rw [hm]; simp
    simp only at h
    split_ifs at h
    · obtain rfl := Option.some.inj h
      exact hi.atMain hne (by simp)
    · rename_i hno
      obtain rfl := Option.some.inj h
      exact hi.spawn hne hno _
    · obtain rfl := Option.some.inj h
      exact (hi.newTermination hne).atMain hne (by simp)
  · rename_i hm
    split_ifs at h with hall
    obtain rfl := Option.some.inj h
    exact hi.workersEnded hm hall
  · rename_i hm
    split_ifs at h
    obtain rfl := Option.some.inj h
    exact hi.atMain (by rw [hm]; simp) (by simp)
  · rename_i hm
    split at h
    · obtain rfl := Option.some.inj h
      exact hi.atMain (by rw [hm]; simp) (by simp)
    · rename_i op ops hops
      obtain rfl := Option.some.inj h
      exact hi.executeOp hm hops
  · cases h
  · cases h

theorem atExpiration (e : Expiration) : Inv { s with expiration := e } :=
  ⟨hi.floor, hi.prom.same (t := { s with expiration := e })
    ⟨rfl, rfl, rfl, rfl, rfl, rfl, rfl, rfl, rfl, rfl, rfl, rfl, Nat.le_refl _⟩ hi.prom.waits⟩

theorem stepTick {tk : Tick} {t : State} (h : stepTick s tk = some t) : Inv t := by
  unfold Consumer.stepTick at h
  split_ifs at h
  · obtain rfl := Option.some.inj h
    exact hi.atExpiration _
  · cases tk with
    | cacheExpired =>
      obtain rfl := Option.some.inj h
      exact (hi.atExpiration _).addPendingOperation _
    | fetchDue =>
      obtain rfl := Option.some.inj h
      exact hi.notifyNonEmpty
    | early =>
      obtain rfl := Option.some.inj h
      exact hi

theorem disconnect : Inv { s with disconnectStarted := true }.resolveWorkerTerminationScheduled := by
  refine Inv.resolveWorkerTerminationScheduled ⟨hi.floor, ?_⟩
  exact hi.prom.same (t := { s with disconnectStarted := true })
    ⟨rfl, rfl, rfl, rfl, rfl, rfl, rfl, rfl, rfl, rfl, rfl, rfl, Nat.le_refl _⟩ hi.prom.waits

theorem step {e : Ev} {t : State} (h : step cfg s e = some t) : Inv t := by
  cases e with
  | worker i =>
    obtain ⟨w, hw, h⟩ := Option.bind_eq_some_iff.mp h
    exact ⟨hi.floor.stepWorker hw h, hi.prom.stepWorker hi.floor hw h⟩
  | consumed i r =>
    simp only [Consumer.step] at h
    split at h
    · rename_i hw
      obtain ⟨position, _, rfl⟩ := Option.map_eq_some_iff.mp h
      exact hi.consumed hw position r
    · cases h
  | resolveOffset i offset leaderEpoch stored =>
    simp only [Consumer.step] at h
    split at h
    · rename_i ppc b hw
      split_ifs at h
      obtain rfl := Option.some.inj h
      obtain ⟨l, b', he, hm, hp⟩ := resolveOffset_eq s b offset leaderEpoch stored
      rw [he]
      exact (hi.lastConsumed l).setHandling hw rfl (.inr ⟨b', rfl, hm, hp⟩)
    · cases h
  | handled i processed stored =>
    simp only [Consumer.step] at h
    split at h
    · rename_i hw
      exact hi.stepHandled hw rfl h
    · cases h
  | queueNonEmpty =>
    obtain rfl := Option.some.inj h
    exact hi.queueNonEmptyCb
  | callback j =>
    simp only [Consumer.step] at h
    split at h
    · rename_i hj
      split_ifs at h with hres
      obtain rfl := Option.some.inj h
      exact hi.callback hj hres
    · cases h
  | seek tpo =>
    simp only [Consumer.step] at h
    split_ifs at h
    obtain rfl := Option.some.inj h
    exact hi.seek _ _
  | pause tps =>
    obtain rfl := Option.some.inj h
    exact hi.pause _
  | resume tps =>
    obtain rfl := Option.some.inj h
    exact hi.resume _
  | rebalance r =>
    simp only [Consumer.step] at h
    split_ifs at h with hc
    obtain rfl := Option.some.inj h
    exact hi.rebalance hc.2.1 r
  | rebalanced modified tpos =>
    obtain ⟨r, hr, h⟩ := Option.bind_eq_some_iff.mp h
    split_ifs at h
    obtain rfl := Option.some.inj h
    exact hi.rebalanced hr modified tpos
  | main => exact hi.stepMain h
  | opDone =>
    simp only [Consumer.step] at h
    split_ifs at h with hm
    obtain rfl := Option.some.inj h
    exact hi.atMain (by rw [hm]; simp) (by simp)
  | tick t => exact hi.stepTick h
  | checked stale =>
    simp only [Consumer.step] at h
    split_ifs at h
    · obtain rfl := Option.some.inj h
      exact Inv.atExpiration ⟨(Frame.markBatchPayloadsStale s _ false).floor hi.floor,
        hi.prom.markBatchPayloadsStale _ false⟩ _
    · obtain rfl := Option.some.inj h
      exact hi.atExpiration _
  | disconnect =>
    obtain rfl := Option.some.inj h
    exact hi.disconnect

end Inv

theorem inv_init (cfg : Config) : Inv (lts cfg).init := by
  constructor
  · exact InvAt.idle (InvAt.spawn Cache.new.view 0) (fun i x h => (by cases h)) _ _
  · refine ⟨?_, ?_, fun _ => rfl, ?_, fun h => absurd rfl h, ?_, ?_, ?_, ?_, ?_, rfl⟩
    · intro f h; cases h
    · intro p h; cases h
    · intro p h; cases h
    · intro f h; cases h
    · intro w h; cases h
    · intro h; cases h
    · intro h; cases h
    · intro h; cases h

theorem Inv.run {cfg : Config} {es : List Ev} {s : State} (hr : (lts cfg).Run es s) : Inv s :=
  Lts.RunWhere.inv (inv_init cfg) (fun _ _ _ hi _ h => hi.step h) hr

/-! ## A fetch is alone -/

theorem Floor.hand_of_fetch {s : State} (hi : Floor s) (hf : s.fetchInProgress ≠ none) {w : Worker}
    (hw : w ∈ s.workers) :
    w.phase.hand = none := by
  obtain ⟨i, hi'⟩ := List.mem_iff_getElem?.mp hw
  have hat := hi
  unfold Floor at hat
  rw [Option.isSome_iff_ne_none.mpr hf] at hat
  have := hat.hand_of_fetch (sketches_get hi')
  simpa [Worker.sketch] using this

def twoPartitions : Config where
  eachMessage := true
  eachBatchAutoResolve := true
  deserializes := false
  maxBatchSize := 32
  maxBatchSize_ne := by decide
  concurrency := 2
  eager := true
  log _ offset := offset = 0

/-- The first round ends when the partitions are assigned; in the second one worker fetches and the other waits. -/
def secondRound : List Ev :=
  [.main, .worker 0, .rebalance .assign, .rebalanced false [⟨"t", 0, 0, -1⟩, ⟨"t", 1, 0, -1⟩],
    .consumed 0 (some []),
    .worker 0, .worker 0, .worker 0, .main, .tick .early, .main, .main, .main, .worker 1, .worker 0]

/-- No worker, no callback and not the main loop can go on before something happens outside. -/
def Quiet (cfg : Config) (s : State) : Prop :=
  (∀ i, step cfg s (.worker i) = none) ∧ (∀ j, step cfg s (.callback j) = none) ∧ step cfg s .main = none

theorem Quiet.callbacks {cfg : Config} {s : State} (hq : Quiet cfg s) (hp : Prom s)
    (hf : s.fetchInProgress = none) :
    s.callbacks = [] := by
  rcases hc : s.callbacks with _ | ⟨f, cs⟩
  · rfl
  · have hres : s.resolved f = true := by
      rcases hp.callbacks f (by rw [hc]; simp) with h | h
      · exact h
      · rw [hf] at h; cases h
    have := hq.2.1 0
    simp [step, hc, hres] at this

theorem Quiet.nonEmpty {cfg : Config} {s : State} (hq : Quiet cfg s) (hp : Prom s) {w : Worker} (hw : w ∈ s.workers)
    {p : Nat} (hph : w.phase = .waitNonEmpty p) : s.nonEmpty = some p := by
  have hwait := hp.waits w hw
  rw [hph] at hwait
  rcases hwait with h | h
  · obtain ⟨i, hi⟩ := List.mem_iff_getElem?.mp hw
    have := hq.1 i
    simp [step, hi, stepWorker, hph, h] at this
  · exact h

/-- A worker that sleeps has missed nothing: since `consume` was called last nothing was announced to
`#queueNonEmptyCb` and no termination was requested, and no operation is pending. -/
theorem sleeping_not_woken {cfg : Config} {es : List Ev} {s : State} (hr : (lts cfg).Run es s) (hq : Quiet cfg s)
    (hf : s.fetchInProgress = none) {w : Worker} (hw : w ∈ s.workers) {p : Nat} (hph : w.phase = .waitNonEmpty p) :
    s.woken = false ∧ s.workerTerminationScheduled = false ∧ s.pendingOperations = [] := by
  have hi := Inv.run hr
  have hwoken : s.woken = false := by
    rw [← Bool.not_eq_true]
    intro h
    rcases (hi.prom.woken h).2 hf with hn | hc
    · rw [hq.nonEmpty hi.prom hw hph] at hn; cases hn
    · exact hc (hq.callbacks hi.prom hf)
  obtain ⟨i, hi'⟩ := List.mem_iff_getElem?.mp hw
  have hm := hi.floor.running hi' (by rw [hph]; simp)
  have hterm : s.workerTerminationScheduled = false := by
    rw [← Bool.not_eq_true]
    intro h
    rw [hi.prom.term hm h] at hwoken
    cases hwoken
  refine ⟨hwoken, hterm, ?_⟩
  by_contra h
  rw [hi.prom.pending hm h] at hterm
  cases hterm

def emptyFetch : List Ev := [.main, .worker 0, .queueNonEmpty, .consumed 0 (some []), .worker 0,
    .callback 0, .worker 0,
  .consumed 0 (some []), .worker 0, .worker 0]

theorem sleeping_not_woken_emptyFetch : ∃ s, (lts twoPartitions).Run emptyFetch s ∧
    s.workers = [⟨none, .waitNonEmpty 3⟩] ∧ Quiet twoPartitions s ∧ s.woken = false := by
  have hs : ((lts twoPartitions).exec (fun _ _ => true) (lts twoPartitions).init emptyFetch).map
      (fun s => (s.workers, s.fetchInProgress, s.callbacks, s.main, s.promises)) =
      some ([⟨none, .waitNonEmpty 3⟩], none, [], .workers, [true, true, true, false]) := by decide +kernel
  obtain ⟨s, hs, hx⟩ := Option.map_eq_some_iff.mp hs
  simp only [Prod.mk.injEq] at hx
  obtain ⟨hw, hf, hc, hm, hp⟩ := hx
  have hr := Lts.Run.of_exec hs
  have hq : Quiet twoPartitions s := by
    refine ⟨fun i => ?_, fun j => ?_, ?_⟩
    · rcases i with _ | i <;> simp [step, hw, stepWorker, State.resolved, hp]
    · simp [step, hc]
    · simp [step, stepMain, hm, hw]
  exact ⟨s, hr, hw, hq, (sleeping_not_woken hr hq hf (w := ⟨none, .waitNonEmpty 3⟩) (by simp [hw]) rfl).1⟩

end Consumer

end ConfluentKafka
