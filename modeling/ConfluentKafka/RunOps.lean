import ConfluentKafka.RunInv

/-!
# The pending operations

Every operation is executed once, in the order of the calls, while no worker
runs. `Rounds` says where the main loop and the expiration loop can be. As long
as an operation is pending, something is left to complete, and what is left is
bounded by `work`: each completion lowers it, and nothing else raises it but a
rebalance and the announcement of messages.
-/

namespace ConfluentKafka

namespace Consumer

/-! ## The rounds -/

structure Rounds (s : State) : Prop where
  idle : s.main ≠ .workers → s.main ≠ .expiration → s.expiration = .idle
  ended : s.main = .workers → (∃ w ∈ s.workers, w.phase = .done) → s.workerTerminationScheduled = true
  expired : s.main = .expiration → s.workerTerminationScheduled = true
  spawned : s.main = .workers → s.workers ≠ []
  stopped : s.main = .stopped → s.disconnectStarted = true

/-- What every step does but those of the main loop and the timer: requests are not taken back, and a worker
ends only when it is asked to. -/
structure Steady (s t : State) : Prop where
  main : t.main = s.main
  expiration : t.expiration = s.expiration
  disconnect : t.disconnectStarted = s.disconnectStarted
  term : s.workerTerminationScheduled = true → t.workerTerminationScheduled = true
  length : t.workers.length = s.workers.length
  executed : t.executed = s.executed
  pending : s.pendingOperations <+: t.pendingOperations
  done : ∀ w ∈ t.workers, w.phase = .done → (∃ x ∈ s.workers, x.phase = .done) ∨ t.workerTerminationScheduled = true

namespace Steady

theorem refl (s : State) : Steady s s := ⟨rfl, rfl, rfl, id, rfl, rfl, List.prefix_rfl, fun w hw hd =>
    .inl ⟨w, hw, hd⟩⟩

theorem trans {s t u : State} (h : Steady s t) (h' : Steady t u) : Steady s u := by
  refine ⟨h'.main.trans h.main, h'.expiration.trans h.expiration, h'.disconnect.trans h.disconnect,
    fun ht => h'.term (h.term ht), h'.length.trans h.length, h'.executed.trans h.executed,
    h.pending.trans h'.pending, fun w hw hd => ?_⟩
  rcases h'.done w hw hd with ⟨x, hx, hxd⟩ | ht
  · exact (h.done x hx hxd).imp id h'.term
  · exact .inr ht

theorem rounds {s t : State} (h : Steady s t) (hr : Rounds s) : Rounds t where
  idle := by rw [h.main, h.expiration]; exact hr.idle
  ended := by
    rintro hm ⟨w, hw, hd⟩
    exact (h.done w hw hd).elim (fun hx => h.term (hr.ended (h.main ▸ hm) hx)) id
  expired hm := h.term (hr.expired (h.main ▸ hm))
  spawned hm he := hr.spawned (h.main ▸ hm) (List.eq_nil_of_length_eq_zero (by rw [← h.length, he]; rfl))
  stopped hm := h.disconnect.trans (hr.stopped (h.main ▸ hm))

theorem same {s t : State} (hm : t.main = s.main) (he : t.expiration = s.expiration)
    (hd : t.disconnectStarted = s.disconnectStarted)
    (ht : t.workerTerminationScheduled = s.workerTerminationScheduled)
    (hw : t.workers = s.workers) (hx : t.executed = s.executed) (hp : t.pendingOperations = s.pendingOperations) :
    Steady s t :=
  ⟨hm, he, hd, fun h => ht ▸ h, by rw [hw], hx, hp ▸ List.prefix_rfl, fun w hx hxd => .inl ⟨w, hw ▸ hx, hxd⟩⟩

theorem notifyNonEmpty (s : State) : Steady s s.notifyNonEmpty := by
  rw [notifyNonEmpty_eq]
  exact same rfl rfl rfl rfl rfl rfl rfl

theorem queueNonEmptyCb (s : State) : Steady s s.queueNonEmptyCb := by
  unfold State.queueNonEmptyCb
  simp only
  split
  · exact same rfl rfl rfl rfl rfl rfl rfl
  · exact .trans (t := { s with woken := true }) (same rfl rfl rfl rfl rfl rfl rfl) (notifyNonEmpty _)

theorem resolveWorkerTerminationScheduled (s : State) : Steady s s.resolveWorkerTerminationScheduled := by
  refine .trans (t := { s with workerTerminationScheduled := true }) ?_ (queueNonEmptyCb _)
  exact ⟨rfl, rfl, rfl, fun _ => rfl, rfl, rfl, List.prefix_rfl, fun _ _ _ => .inr rfl⟩

theorem addPendingOperation (s : State) (op : Op) : Steady s (s.addPendingOperation op) := by
  have hadd : ∀ t : State, Steady t
      { t with pendingOperations := t.pendingOperations ++ [op], added := t.added ++ [op] } := fun t =>
    ⟨rfl, rfl, rfl, id, rfl, rfl, List.prefix_append _ _, fun w hw hd => .inl ⟨w, hw, hd⟩⟩
  unfold State.addPendingOperation
  simp only
  split_ifs
  · exact (resolveWorkerTerminationScheduled s).trans (hadd _)
  · exact hadd s

theorem markBatchPayloadsStale {τ : Type} [Toppar τ] (s : State) (tps : List τ) (isSeek : Bool) :
    Steady s (s.markBatchPayloadsStale tps isSeek) := by
  refine ⟨rfl, rfl, rfl, id, List.length_map _, rfl, List.prefix_rfl, fun x hx hd => ?_⟩
  obtain ⟨w, hw, rfl⟩ := List.mem_map.mp hx
  refine .inl ⟨w, hw, ?_⟩
  obtain ⟨ppc, phase⟩ := w
  cases phase with
  | handling b => cases hd
  | _ => exact hd

theorem seek (s : State) (tpo : TopicPartitionOffset) (user : Bool) : Steady s (s.seek tpo user) :=
  (markBatchPayloadsStale s [tpo] true).trans (addPendingOperation _ _)

theorem pause (s : State) (tps : List TopicPartition) : Steady s (s.pause tps) := by
  unfold State.pause
  split_ifs
  · exact refl s
  · exact (markBatchPayloadsStale s tps false).trans (addPendingOperation _ _)

theorem resume (s : State) (tps : List TopicPartition) : Steady s (s.resume tps) := by
  unfold State.resume
  split_ifs
  · exact refl s
  · exact addPendingOperation _ _

theorem ofExecuted {s t : State} (h : Executed s t) : Steady s t :=
  same (by rw [h.eq]) (by rw [h.eq]) (by rw [h.eq]) (by rw [h.eq]) (by rw [h.eq]) (by rw [h.eq]) (by rw [h.eq])

theorem endRebalance (cfg : Config) (s : State) : Steady s (s.endRebalance cfg) := by
  unfold State.endRebalance
  by_cases h : s.workersToSpawn cfg ≠ s.workers.length
  · rw [if_pos h]; exact (resolveWorkerTerminationScheduled s).trans (same rfl rfl rfl rfl rfl rfl rfl)
  · rw [if_neg h]; exact same rfl rfl rfl rfl rfl rfl rfl

theorem rebalanced (cfg : Config) (s : State) (r : Rebalance) (modified : Bool) (tpos : List TopicPartitionOffset) :
    Steady s (s.rebalanced cfg r modified tpos) := by
  unfold State.rebalanced
  cases r with
  | assign => exact .trans (ofExecuted (Executed.assign cfg s modified tpos)) (endRebalance cfg _)
  | revoke =>
    refine .trans ?_ (endRebalance cfg _)
    split_ifs
    · exact ofExecuted (Executed.unassign cfg s _)
    · exact addPendingOperation s _

end Steady

/-! ## The steps of a worker -/

/-- A worker goes on as `w'`; the cache and the promises may change. -/
structure Moved (s t : State) (i : Nat) (w' : Worker) : Prop where
  workers : t.workers = s.workers.set i w'
  main : t.main = s.main
  expiration : t.expiration = s.expiration
  disconnect : t.disconnectStarted = s.disconnectStarted
  term : t.workerTerminationScheduled = s.workerTerminationScheduled
  pending : t.pendingOperations = s.pendingOperations
  executed : t.executed = s.executed
  callbacks : t.callbacks = s.callbacks
  rebalancing : t.rebalancing = s.rebalancing

theorem Moved.setWorker (s : State) (i : Nat) (w' : Worker) : Moved s (s.setWorker i w') i w' :=
  ⟨rfl, rfl, rfl, rfl, rfl, rfl, rfl, rfl, rfl⟩

theorem Moved.steady {s t : State} {i : Nat} {v : Worker} (h : Moved s t i v)
    (hd : v.phase = .done → s.workerTerminationScheduled = true) : Steady s t := by
  refine ⟨h.main, h.expiration, h.disconnect, fun hx => h.term ▸ hx, by simp [h.workers], h.executed,
    h.pending ▸ List.prefix_rfl, ?_⟩
  intro x hx hxd
  rw [h.workers] at hx
  rcases List.mem_or_eq_of_mem_set hx with hx | rfl
  · exact .inl ⟨x, hx, hxd⟩
  · exact .inr (h.term ▸ hd hxd)

def Phase.rank : Phase → Nat
  | .top => 1
  | .waitAvailable _ => 2
  | .waitFetch _ => 2
  | .waitNonEmpty _ => 2
  | .consuming => 5
  | .consumed _ => 4
  | .waitRebalance _ _ => 3
  | .got _ _ => 2
  | .deserializing _ _ => 3
  | .handling _ => 2
  | .done => 0

theorem fetchAndResolveWith_moved (s : State) (i : Nat) (w : Worker) :
    ∃ w', Moved s (s.fetchAndResolveWith i w) i w' ∧
    w'.phase ≠ .done := by
  unfold State.fetchAndResolveWith
  split
  · exact ⟨_, .setWorker s i _, by simp⟩
  · split
    · exact ⟨_, .setWorker s i _, by simp⟩
    · split_ifs
      · exact ⟨_, .setWorker s i _, by simp⟩
      · exact ⟨{ w with phase := .consuming }, ⟨rfl, rfl, rfl, rfl, rfl, rfl, rfl, rfl, rfl⟩, by simp⟩

theorem workerTop_moved (cfg : Config) (s : State) (i : Nat) (w : Worker) :
    ∃ w', Moved s (s.workerTop cfg i w) i w' ∧
    (w'.phase = .done ↔ s.workerTerminationScheduled = true) := by
  unfold State.workerTop
  split_ifs with ht
  · exact ⟨⟨none, .done⟩, ⟨rfl, rfl, rfl, rfl, rfl, rfl, rfl, rfl, rfl⟩, by simp [ht]⟩
  · split
    · rename_i ms p _
      exact ⟨{ w with phase := .got ms p }, ⟨rfl, rfl, rfl, rfl, rfl, rfl, rfl, rfl, rfl⟩, by simp [ht]⟩
    · rename_i c _
      split_ifs
      · exact ⟨{ w with phase := .waitAvailable c.raw.availableGen },
          ⟨rfl, rfl, rfl, rfl, rfl, rfl, rfl, rfl, rfl⟩, by simp [ht]⟩
      · obtain ⟨w', h, hd⟩ := fetchAndResolveWith_moved { s with cache := c } i w
        exact ⟨w', ⟨h.1, h.2, h.3, h.4, h.5, h.6, h.7, h.8, h.9⟩, by simp [hd, ht]⟩

theorem finishFetch_moved (cfg : Config) (s : State) (i : Nat) (w : Worker) (b : Bool) (r : Option (List Message)) :
    ∃ w', Moved s (s.finishFetch cfg i w b r) i w' ∧ w'.phase ≠ .done ∧ w'.phase.rank ≤ 2 := by
  have hend : ∀ (t : State) (q : Bool) (w' : Worker), Moved t ((t.endFetch q).setWorker i w') i w' := by
    intro t q w'
    obtain ⟨promises, nonEmpty, he⟩ := endFetch_eq t q
    rw [he]
    exact ⟨rfl, rfl, rfl, rfl, rfl, rfl, rfl, rfl, rfl⟩
  cases r with
  | none => exact ⟨_, hend s false _, by simp, by simp [Phase.rank]⟩
  | some ms =>
    obtain ⟨h₁, h₂, h₃, h₄, h₅, h₆, h₇, h₈, h₉⟩ := hend (s.putFetched cfg ms) (!b)
      { w with phase := (takeFromCache cfg (s.cache.addMessages ms) none).2.elim .top fun r => .got r.1 r.2 }
    refine ⟨_, ⟨h₁, h₂, h₃, h₄, h₅, h₆, h₇, h₈, h₉⟩, ?_⟩
    cases (takeFromCache cfg (s.cache.addMessages ms) none).2 <;> simp [Phase.rank]

theorem process_moved (cfg : Config) (s : State) (i : Nat) (w : Worker) (ms : List Message) (p : Nat) :
    ∃ w', Moved s (s.process cfg i w ms p) i w' ∧ w'.phase ≠ .done ∧
      (s.pendingOperations ≠ [] → w'.phase = .top) := by
  unfold State.process
  split_ifs with hp
  · exact ⟨⟨some p, .top⟩, ⟨rfl, rfl, rfl, rfl, rfl, rfl, rfl, rfl, rfl⟩, by simp, fun _ => rfl⟩
  · exact ⟨_, .setWorker s i _, by simp, fun h => absurd h hp⟩
  · exact ⟨{ w with phase := .handling ⟨ms, p, -1, -1, false, false⟩ },
      ⟨rfl, rfl, rfl, rfl, rfl, rfl, rfl, rfl, rfl⟩,
      by simp, fun h => absurd h hp⟩

/-- A worker ends only when it is to, and then each of its steps brings it nearer to its end. -/
theorem stepWorker_moved {cfg : Config} {s t : State} {i : Nat} {w : Worker} (h : stepWorker cfg s i w = some t) :
    ∃ w', Moved s t i w' ∧ (w'.phase = .done → s.workerTerminationScheduled = true) ∧
      (s.workerTerminationScheduled = true → s.pendingOperations ≠ [] → w'.phase.rank < w.phase.rank) := by
  have htop : ∀ ph : Phase, w.phase = ph → 1 < ph.rank → ∃ w',
    Moved s (s.setWorker i { w with phase := .top }) i w' ∧
      (w'.phase = .done → s.workerTerminationScheduled = true) ∧
      (s.workerTerminationScheduled = true → s.pendingOperations ≠ [] → w'.phase.rank < w.phase.rank) := by
    intro ph hp hlt
    exact ⟨_, .setWorker s i _, by simp, fun _ _ => hp ▸ hlt⟩
  unfold stepWorker at h
  split at h
  · rename_i hp
    obtain rfl := Option.some.inj h
    obtain ⟨w', hm, hd⟩ := workerTop_moved cfg s i w
    exact ⟨w', hm, hd.mp, fun ht _ => by rw [hd.mpr ht, hp]; decide⟩
  · rename_i hp
    split_ifs at h
    obtain rfl := Option.some.inj h
    exact htop _ hp (by simp [Phase.rank])
  · rename_i hp
    split_ifs at h
    obtain rfl := Option.some.inj h
    exact htop _ hp (by simp [Phase.rank])
  · rename_i hp
    split_ifs at h
    obtain rfl := Option.some.inj h
    exact htop _ hp (by simp [Phase.rank])
  · rename_i r hp
    split at h
    · obtain rfl := Option.some.inj h
      exact ⟨_, .setWorker s i _, by simp, fun _ _ => by simp [hp, Phase.rank]⟩
    · obtain rfl := Option.some.inj h
      obtain ⟨w', hm, hd, hr⟩ := finishFetch_moved cfg s i w false r
      exact ⟨w', hm, fun e => absurd e hd, fun _ _ => hp ▸ Nat.lt_of_le_of_lt hr (by simp [Phase.rank])⟩
  · rename_i r p hp
    split_ifs at h
    obtain rfl := Option.some.inj h
    obtain ⟨w', hm, hd, hr⟩ := finishFetch_moved cfg { s with rebalanceCbInProgress := none } i w true r
    exact ⟨w', ⟨hm.1, hm.2, hm.3, hm.4, hm.5, hm.6, hm.7, hm.8, hm.9⟩, fun e => absurd e hd,
      fun _ _ => hp ▸ Nat.lt_of_le_of_lt hr (by simp [Phase.rank])⟩
  · rename_i ms p hp
    obtain rfl := Option.some.inj h
    obtain ⟨w', hm, hd, hr⟩ := process_moved cfg s i w ms p
    exact ⟨w', hm, fun e => absurd e hd, fun _ hne => by rw [hr hne, hp]; simp [Phase.rank]⟩
  · rename_i ms p hp
    obtain rfl := Option.some.inj h
    exact ⟨{ w with phase := .handling ⟨ms, p, -1, -1, false, false⟩ },
      ⟨rfl, rfl, rfl, rfl, rfl, rfl, rfl, rfl, rfl⟩,
      by simp, fun _ _ => by simp [hp, Phase.rank]⟩
  · cases h

/-! ## Every step keeps the rounds -/

section
variable {cfg : Config} {s : State}

theorem stepHandled_steady {i : Nat} {b : Batch} {processed stored : Bool} {t : State}
    (h : stepHandled cfg s i b processed stored = some t) : Steady s t := by
  have hset : ∀ l, Steady s ({ s with lastConsumedOffsets := l }.setWorker i ⟨some b.ppc, .top⟩) := fun l =>
    .trans (t := { s with lastConsumedOffsets := l }) (.same rfl rfl rfl rfl rfl rfl rfl)
      ((Moved.setWorker _ i _).steady (by simp))
  obtain ⟨_, _, l, _, _, _, rfl | ⟨_, _, _, rfl⟩⟩ := stepHandled_cases h
  · exact hset l
  · exact (hset l).trans (.seek _ _ _)

/-- The steps of the main loop, of the timer and of `disconnect`. -/
def Ev.ofLoop : Ev → Bool
  | .main => true
  | .opDone => true
  | .tick _ => true
  | .checked _ => true
  | .disconnect => true
  | _ => false

theorem step_steady {e : Ev} {t : State} (he : e.ofLoop = false) (h : step cfg s e = some t) : Steady s t := by
  cases e with
  | worker i =>
    obtain ⟨w, _, h⟩ := Option.bind_eq_some_iff.mp h
    obtain ⟨w', hm, hd, _⟩ := stepWorker_moved h
    exact hm.steady hd
  | consumed i r =>
    simp only [step] at h
    split at h
    · rename_i ppc _
      obtain ⟨position, _, rfl⟩ := Option.map_eq_some_iff.mp h
      refine Moved.steady (v := ⟨ppc, .consumed r⟩) (i := i) ?_ (by simp)
      exact ⟨rfl, rfl, rfl, rfl, rfl, rfl, rfl, rfl, rfl⟩
    · cases h
  | resolveOffset i offset leaderEpoch stored =>
    simp only [step] at h
    split at h
    · rename_i ppc b _
      split_ifs at h
      obtain rfl := Option.some.inj h
      obtain ⟨l, b', he, _, _⟩ := resolveOffset_eq s b offset leaderEpoch stored
      rw [he]
      refine Moved.steady (v := ⟨ppc, .handling b'⟩) (i := i) ?_ (by simp)
      exact ⟨rfl, rfl, rfl, rfl, rfl, rfl, rfl, rfl, rfl⟩
    · cases h
  | handled i processed stored =>
    simp only [step] at h
    split at h
    · exact stepHandled_steady h
    · cases h
  | queueNonEmpty =>
    obtain rfl := Option.some.inj h
    exact .queueNonEmptyCb s
  | callback j =>
    simp only [step] at h
    split at h
    · split_ifs at h
      obtain rfl := Option.some.inj h
      refine .trans (t := { s with callbacks := _ }) ?_ (.notifyNonEmpty _)
      exact .same rfl rfl rfl rfl rfl rfl rfl
    · cases h
  | seek tpo =>
    simp only [step] at h
    split_ifs at h
    obtain rfl := Option.some.inj h
    exact .seek s _ _
  | pause tps =>
    obtain rfl := Option.some.inj h
    exact .pause s _
  | resume tps =>
    obtain rfl := Option.some.inj h
    exact .resume s _
  | rebalance r =>
    simp only [step] at h
    split_ifs at h
    obtain rfl := Option.some.inj h
    exact .same rfl rfl rfl rfl rfl rfl rfl
  | rebalanced modified tpos =>
    obtain ⟨r, _, h⟩ := Option.bind_eq_some_iff.mp h
    split_ifs at h
    obtain rfl := Option.some.inj h
    exact .rebalanced cfg s r modified tpos
  | _ => cases he

theorem Rounds.stepMain (hr : Rounds s) {t : State} (h : stepMain cfg s = some t) :
    Rounds t ∧ t.disconnectStarted = s.disconnectStarted := by
  unfold Consumer.stepMain at h
  split at h
  · rename_i hm
    have hidle := hr.idle (by rw [hm]; simp) (by rw [hm]; simp)
    simp only at h
    split_ifs at h with hd
    · obtain rfl := Option.some.inj h
      exact ⟨⟨fun _ _ => hidle, fun e => (by cases e), fun e => (by cases e), fun e => (by cases e), fun _ => hd⟩,
        rfl⟩
    · obtain rfl := Option.some.inj h
      refine ⟨⟨fun e => absurd rfl e, ?_, fun e => (by cases e), ?_, fun e => (by cases e)⟩, rfl⟩
      · rintro _ ⟨w, hw, hwd⟩
        rw [(List.mem_replicate.mp hw).2] at hwd
        cases hwd
      · intro _ he
        have hlen := congrArg List.length he
        simp only [List.length_replicate, List.length_nil, State.workersToSpawn] at hlen
        omega
    · obtain rfl := Option.some.inj h
      exact ⟨⟨fun _ _ => hidle, fun e => (by cases e), fun e => (by cases e), fun e => (by cases e),
        fun e => (by cases e)⟩, rfl⟩
  · rename_i hm
    split_ifs at h with hall
    obtain rfl := Option.some.inj h
    refine ⟨⟨fun _ e => absurd rfl e, fun e => (by cases e), fun _ => ?_, fun e => (by cases e),
      fun e => (by cases e)⟩, rfl⟩
    obtain ⟨w, ws, hw⟩ := List.exists_cons_of_ne_nil (hr.spawned hm)
    have hmem : w ∈ s.workers := by rw [hw]; simp
    exact hr.ended hm ⟨w, hmem, by simpa using List.all_eq_true.mp hall w hmem⟩
  · split_ifs at h with he
    obtain rfl := Option.some.inj h
    exact ⟨⟨fun _ _ => he, fun e => (by cases e), fun e => (by cases e), fun e => (by cases e),
      fun e => (by cases e)⟩, rfl⟩
  · rename_i hm
    have hidle := hr.idle (by rw [hm]; simp) (by rw [hm]; simp)
    split at h
    · obtain rfl := Option.some.inj h
      exact ⟨⟨fun _ _ => hidle, fun e => (by cases e), fun e => (by cases e), fun e => (by cases e),
        fun e => (by cases e)⟩, rfl⟩
    · rename_i op ops _
      obtain rfl := Option.some.inj h
      have he := Steady.ofExecuted (Executed.execute cfg { s with pendingOperations := ops } op)
      exact ⟨⟨fun _ _ => he.expiration.trans hidle, fun e => (by cases e), fun e => (by cases e),
        fun e => (by cases e),
        fun e => (by cases e)⟩, he.disconnect⟩
  · cases h
  · cases h

theorem Rounds.stepTick (hr : Rounds s) {tk : Tick} {t : State} (h : stepTick s tk = some t) :
    Rounds t ∧ t.disconnectStarted = s.disconnectStarted := by
  unfold Consumer.stepTick at h
  split_ifs at h with hl
  · obtain rfl := Option.some.inj h
    exact ⟨⟨fun _ _ => rfl, hr.ended, hr.expired, hr.spawned, hr.stopped⟩, rfl⟩
  · have hmain : s.main = .workers ∨ s.main = .expiration := by
      by_contra hn
      rw [not_or] at hn
      exact hl (by rw [hr.idle hn.1 hn.2]; simp)
    cases tk with
    | cacheExpired =>
      obtain rfl := Option.some.inj h
      have hs := Steady.addPendingOperation { s with expiration := .check } .clearCacheAndResetPositions
      refine ⟨hs.rounds ⟨?_, hr.ended, hr.expired, hr.spawned, hr.stopped⟩, hs.disconnect⟩
      intro h₁ h₂
      exact hmain.elim (fun e => absurd e h₁) fun e => absurd e h₂
    | fetchDue =>
      obtain rfl := Option.some.inj h
      exact ⟨(Steady.notifyNonEmpty s).rounds hr, (Steady.notifyNonEmpty s).disconnect⟩
    | early =>
      obtain rfl := Option.some.inj h
      exact ⟨hr, rfl⟩

theorem Rounds.step (hr : Rounds s) {e : Ev} {t : State} (h : step cfg s e = some t) :
    Rounds t ∧ (e ≠ .disconnect → t.disconnectStarted = s.disconnectStarted) := by
  cases e with
  | main => exact (hr.stepMain h).imp id fun h _ => h
  | opDone =>
    simp only [Consumer.step] at h
    split_ifs at h with hm
    obtain rfl := Option.some.inj h
    have hidle := hr.idle (by rw [hm]; simp) (by rw [hm]; simp)
    exact ⟨⟨fun _ _ => hidle, fun e => (by cases e), fun e => (by cases e), fun e => (by cases e),
      fun e => (by cases e)⟩, fun _ => rfl⟩
  | tick tk => exact (hr.stepTick h).imp id fun h _ => h
  | checked stale =>
    simp only [Consumer.step] at h
    split_ifs at h
    · obtain rfl := Option.some.inj h
      have := (Steady.markBatchPayloadsStale s s.assignment false).rounds hr
      exact ⟨⟨fun _ _ => rfl, this.ended, this.expired, this.spawned, this.stopped⟩, fun _ => rfl⟩
    · obtain rfl := Option.some.inj h
      exact ⟨⟨fun _ _ => rfl, hr.ended, hr.expired, hr.spawned, hr.stopped⟩, fun _ => rfl⟩
  | disconnect =>
    obtain rfl := Option.some.inj h
    refine ⟨(Steady.resolveWorkerTerminationScheduled _).rounds ?_, fun e => absurd rfl e⟩
    exact ⟨hr.idle, hr.ended, hr.expired, hr.spawned, fun _ => rfl⟩
  | _ =>
    have hs := step_steady rfl h
    exact ⟨hs.rounds hr, fun _ => hs.disconnect⟩

theorem Rounds.init : Rounds (lts cfg).init :=
  ⟨fun _ _ => rfl, fun e => (by cases e), fun e => (by cases e), fun e => (by cases e), fun e => (by cases e)⟩

/-- Operations are only appended to the queue, until `#executePendingOperations` takes the first. -/
theorem step_queue {e : Ev} {t : State} (h : step cfg s e = some t) :
    (t.executed = s.executed ∧ s.pendingOperations <+: t.pendingOperations) ∨
    (s.main = .ops ∧ ∃ op, s.pendingOperations = op :: t.pendingOperations ∧ t.executed = s.executed ++ [op]) := by
  cases e with
  | main =>
    simp only [step, stepMain] at h
    split at h
    · split_ifs at h
      · obtain rfl := Option.some.inj h; exact .inl ⟨rfl, List.prefix_rfl⟩
      · obtain rfl := Option.some.inj h; exact .inl ⟨rfl, List.prefix_rfl⟩
      · obtain rfl := Option.some.inj h; exact .inl ⟨rfl, List.prefix_rfl⟩
    · split_ifs at h
      obtain rfl := Option.some.inj h; exact .inl ⟨rfl, List.prefix_rfl⟩
    · split_ifs at h
      obtain rfl := Option.some.inj h; exact .inl ⟨rfl, List.prefix_rfl⟩
    · rename_i hm
      split at h
      · obtain rfl := Option.some.inj h; exact .inl ⟨rfl, List.prefix_rfl⟩
      · rename_i op ops hops
        obtain rfl := Option.some.inj h
        have he := (Executed.execute cfg { s with pendingOperations := ops } op).same
        refine .inr ⟨hm, op, ?_, ?_⟩
        · rw [hops, he.pending]
        · simp only [he.executed]
    · cases h
    · cases h
  | opDone =>
    simp only [step] at h
    split_ifs at h
    obtain rfl := Option.some.inj h
    exact .inl ⟨rfl, List.prefix_rfl⟩
  | tick tk =>
    simp only [step, stepTick] at h
    split_ifs at h
    · obtain rfl := Option.some.inj h; exact .inl ⟨rfl, List.prefix_rfl⟩
    · cases tk with
      | cacheExpired =>
        obtain rfl := Option.some.inj h
        have hs := Steady.addPendingOperation { s with expiration := .check } .clearCacheAndResetPositions
        exact .inl ⟨hs.executed, hs.pending⟩
      | fetchDue =>
        obtain rfl := Option.some.inj h
        exact .inl ⟨(Steady.notifyNonEmpty s).executed, (Steady.notifyNonEmpty s).pending⟩
      | early => obtain rfl := Option.some.inj h; exact .inl ⟨rfl, List.prefix_rfl⟩
  | checked stale =>
    simp only [step] at h
    split_ifs at h
    · obtain rfl := Option.some.inj h; exact .inl ⟨rfl, List.prefix_rfl⟩
    · obtain rfl := Option.some.inj h; exact .inl ⟨rfl, List.prefix_rfl⟩
  | disconnect =>
    obtain rfl := Option.some.inj h
    have hs := Steady.resolveWorkerTerminationScheduled { s with disconnectStarted := true }
    exact .inl ⟨hs.executed, hs.pending⟩
  | _ =>
    have hs := step_steady rfl h
    exact .inl ⟨hs.executed, hs.pending⟩

/-! ## What is left to complete -/

def Main.rank : Main → Nat
  | .start => 1
  | .workers => 2
  | .expiration => 1
  | .ops => 0
  | .op => 1
  | .stopped => 0

/-- How many completions there are at most before a pending operation is executed. -/
def work (s : State) : Nat :=
  (s.workers.map fun w => w.phase.rank).sum + s.callbacks.length + (if s.rebalancing = none then 0 else 2) +
    (if s.expiration = .idle then 0 else 1) + s.main.rank

/-- The steps that complete something begun; the others are those of the application and the broker. -/
def Ev.completes : Ev → Bool
  | .worker _ => true
  | .consumed _ _ => true
  | .handled _ _ _ => true
  | .callback _ => true
  | .rebalanced _ _ => true
  | .main => true
  | .opDone => true
  | .tick _ => true
  | .checked _ => true
  | _ => false

def Ev.cost : Ev → Nat
  | .queueNonEmpty => 1
  | .rebalance _ => 2
  | _ => 0

theorem sum_set {α : Type} (f : α → Nat) : ∀ {l : List α} {i : Nat} {x : α} (y : α), l[i]? = some x →
    ((l.set i y).map f).sum + f x = (l.map f).sum + f y
  | [], i, x, y, h => by simp at h
  | a :: l, 0, x, y, h => by
    obtain rfl : a = x := by simpa using h
    simp only [List.set_cons_zero, List.map_cons, List.sum_cons]
    omega
  | a :: l, i + 1, x, y, h => by
    have := sum_set f (l := l) y (by simpa using h)
    simp only [List.set_cons_succ, List.map_cons, List.sum_cons]
    omega

theorem Moved.work {t : State} {i : Nat} {w w' : Worker} (h : Moved s t i w') (hw : s.workers[i]? = some w) :
    work t + w.phase.rank = work s + w'.phase.rank := by
  have := sum_set (fun w : Worker => w.phase.rank) w' hw
  unfold Consumer.work
  rw [h.workers, h.callbacks, h.rebalancing, h.expiration, h.main]
  omega

theorem work_eq {t : State} (hw : t.workers.map (fun w => w.phase.rank) = s.workers.map fun w => w.phase.rank)
    (hc : t.callbacks = s.callbacks) (hr : t.rebalancing = s.rebalancing) (he : t.expiration = s.expiration)
    (hm : t.main = s.main) : work t = work s := by
  unfold work
  rw [hw, hc, hr, he, hm]

theorem work_notifyNonEmpty (s : State) : work s.notifyNonEmpty = work s := by
  rw [notifyNonEmpty_eq]
  rfl

theorem work_queueNonEmptyCb (s : State) : work s.queueNonEmptyCb ≤ work s + 1 := by
  unfold State.queueNonEmptyCb
  simp only
  split
  · simp only [work, List.length_append, List.length_singleton]
    omega
  · rw [work_notifyNonEmpty]
    exact Nat.le_succ _

theorem resolveWorkerTerminationScheduled_rebalancing (s : State) :
    s.resolveWorkerTerminationScheduled.rebalancing = s.rebalancing := by
  unfold State.resolveWorkerTerminationScheduled State.queueNonEmptyCb
  simp only
  split
  · rfl
  · rw [notifyNonEmpty_eq]

theorem work_addPendingOperation (hne : s.pendingOperations ≠ []) (op : Op) :
    work (s.addPendingOperation op) = work s := by
  unfold State.addPendingOperation
  simp only [if_neg hne]
  rfl

theorem work_markBatchPayloadsStale {τ : Type} [Toppar τ] (s : State) (tps : List τ) (isSeek : Bool) :
    work (s.markBatchPayloadsStale tps isSeek) = work s := by
  refine work_eq ?_ rfl rfl rfl rfl
  simp only [State.markBatchPayloadsStale, List.map_map]
  refine List.map_congr_left fun w _ => ?_
  obtain ⟨ppc, phase⟩ := w
  cases phase <;> rfl

theorem work_seek (hne : s.pendingOperations ≠ []) (tpo : TopicPartitionOffset) (user : Bool) :
    work (s.seek tpo user) = work s := by
  unfold State.seek
  rw [work_addPendingOperation (s := s.markBatchPayloadsStale [tpo] true) hne, work_markBatchPayloadsStale]

theorem work_pause (hne : s.pendingOperations ≠ []) (tps : List TopicPartition) : work (s.pause tps) = work s := by
  unfold State.pause
  split_ifs
  · rfl
  · rw [work_addPendingOperation (s := s.markBatchPayloadsStale tps false) hne, work_markBatchPayloadsStale]

theorem work_resume (hne : s.pendingOperations ≠ []) (tps : List TopicPartition) :
    work (s.resume tps) = work s := by
  unfold State.resume
  split_ifs
  · rfl
  · exact work_addPendingOperation hne _

theorem work_executed {t : State} (h : Executed s t) : work t = work s := by
  rw [h.eq]
  rfl

theorem work_endRebalance (hr : s.rebalancing ≠ none) : work (s.endRebalance cfg) + 1 ≤ work s := by
  have hdone : ∀ t : State, t.rebalancing ≠ none → work { t with
      promises := t.rebalanceCbInProgress.elim t.promises fun p => t.promises.set p true
      rebalancing := none } + 2 = work t := by
    intro t ht
    simp only [work, if_neg ht, if_true]
    omega
  unfold State.endRebalance
  by_cases h : s.workersToSpawn cfg ≠ s.workers.length
  · rw [if_pos h]
    have hw : work s.resolveWorkerTerminationScheduled ≤ work s + 1 :=
      work_queueNonEmptyCb { s with workerTerminationScheduled := true }
    have := hdone s.resolveWorkerTerminationScheduled
      (by rw [resolveWorkerTerminationScheduled_rebalancing]; exact hr)
    simp only
    omega
  · rw [if_neg h]
    have := hdone s hr
    simp only
    omega

theorem work_rebalanced (hne : s.pendingOperations ≠ []) {r : Rebalance} (hr : s.rebalancing = some r)
    (modified : Bool)
    (tpos : List TopicPartitionOffset) : work (s.rebalanced cfg r modified tpos) + 1 ≤ work s := by
  have hsome : s.rebalancing ≠ none := by rw [hr]; simp
  have hex : ∀ t, Executed s t → work (t.endRebalance cfg) + 1 ≤ work s := by
    intro t ht
    rw [← work_executed ht]
    exact work_endRebalance (by rw [ht.same.rebalancing]; exact hsome)
  unfold State.rebalanced
  cases r with
  | assign => exact hex _ (Executed.assign cfg s modified tpos)
  | revoke =>
    simp only
    split_ifs
    · exact hex _ (Executed.unassign cfg s _)
    · rw [← work_addPendingOperation hne (.unassign (tpos.map TopicPartitionOffset.toppar))]
      refine work_endRebalance ?_
      unfold State.addPendingOperation
      simp only [if_neg hne]
      exact hsome

/-- While an operation is pending the workers of the round are to end, and so is the expiration loop. -/
theorem Rounds.terminating (hr : Rounds s) (hp : Prom s) (hne : s.pendingOperations ≠ [])
    (hm : s.main = .workers ∨ s.main = .expiration) : s.workerTerminationScheduled = true :=
  hm.elim (fun h => hp.pending h hne) hr.expired

theorem work_main (hne : s.pendingOperations ≠ []) (hd : s.disconnectStarted = false) {t : State}
    (h : Consumer.stepMain cfg s = some t) (hex : t.executed = s.executed) : work t + 1 ≤ work s := by
  unfold Consumer.stepMain at h
  split at h
  · rename_i hm
    simp only at h
    split_ifs at h with h₁
    · rw [hd] at h₁; cases h₁
    · obtain rfl := Option.some.inj h
      simp only [work, hm, Main.rank]
      omega
  · rename_i hm
    split_ifs at h
    obtain rfl := Option.some.inj h
    simp only [work, hm, Main.rank]
    omega
  · rename_i hm
    split_ifs at h
    obtain rfl := Option.some.inj h
    simp only [work, hm, Main.rank]
    omega
  · split at h
    · rename_i hnil
      exact absurd hnil hne
    · rename_i op ops _
      obtain rfl := Option.some.inj h
      have he := (Executed.execute cfg { s with pendingOperations := ops } op).same.executed
      simp only [he] at hex
      simp at hex
  · cases h
  · cases h

theorem Rounds.work_tick (hr : Rounds s) (hp : Prom s) (hne : s.pendingOperations ≠ []) {tk : Tick} {t : State}
    (h : Consumer.stepTick s tk = some t) : work t + 1 ≤ work s := by
  have hl : s.expiration = .loop := by
    by_contra hl
    simp [Consumer.stepTick, hl] at h
  have ht : s.workerTerminationScheduled = true := by
    refine hr.terminating hp hne ?_
    by_contra hn
    rw [not_or] at hn
    rw [hr.idle hn.1 hn.2] at hl
    cases hl
  simp only [Consumer.stepTick, hl, ht, ne_eq, not_true_eq_false, if_false, if_true, Option.some.injEq] at h
  subst h
  simp only [work, hl]
  simp only [reduceCtorEq, if_false, if_true]
  omega

section Steps

variable {t : State}

theorem Inv.work_worker (hi : Inv s) (hne : s.pendingOperations ≠ []) {i : Nat}
    (h : Consumer.step cfg s (.worker i) = some t) : work t + (if (.worker i : Ev).completes then 1 else 0) ≤
      work s + (.worker i : Ev).cost := by
  obtain ⟨w, hw, h⟩ := Option.bind_eq_some_iff.mp h
  obtain ⟨w', hm, _, hrank⟩ := stepWorker_moved h
  have hmain := hi.floor.running hw fun e => by simp [Consumer.stepWorker, e] at h
  have := hm.work hw
  have := hrank (hi.prom.pending hmain hne) hne
  simp only [Ev.completes, Ev.cost, if_true]
  omega

theorem work_consumed {i : Nat} {r : Option (List Message)}
    (h : Consumer.step cfg s (.consumed i r) = some t) : work t +
    (if (.consumed i r : Ev).completes then 1 else 0) ≤ work s + (.consumed i r : Ev).cost := by
  simp only [Consumer.step] at h
  split at h
  · rename_i ppc hw
    obtain ⟨position, _, rfl⟩ := Option.map_eq_some_iff.mp h
    have hm : Moved s ({ s with position }.setWorker i ⟨ppc, .consumed r⟩) i ⟨ppc, .consumed r⟩ :=
      ⟨rfl, rfl, rfl, rfl, rfl, rfl, rfl, rfl, rfl⟩
    have := hm.work hw
    simp only [Phase.rank] at this
    simp only [Ev.completes, Ev.cost, if_true]
    omega
  · cases h

theorem work_resolveOffset {i : Nat} {offset leaderEpoch : Int} {stored : Bool}
    (h : Consumer.step cfg s (.resolveOffset i offset leaderEpoch stored) = some t) : work t +
    (if (.resolveOffset i offset leaderEpoch stored : Ev).completes then 1 else 0) ≤ work s +
    (.resolveOffset i offset leaderEpoch stored : Ev).cost := by
  simp only [Consumer.step] at h
  split at h
  · rename_i ppc b hw
    split_ifs at h
    obtain rfl := Option.some.inj h
    obtain ⟨l, b', he, _, _⟩ := resolveOffset_eq s b offset leaderEpoch stored
    rw [he]
    have hm : Moved s ({ s with lastConsumedOffsets := l }.setWorker i ⟨ppc, .handling b'⟩) i ⟨ppc, .handling b'⟩ :=
      ⟨rfl, rfl, rfl, rfl, rfl, rfl, rfl, rfl, rfl⟩
    have := hm.work hw
    simp only [Phase.rank] at this
    simp only [Ev.completes, Ev.cost]
    simp only [Bool.false_eq_true, if_false]
    omega
  · cases h

theorem work_handled (hne : s.pendingOperations ≠ []) {i : Nat} {processed stored : Bool}
    (h : Consumer.step cfg s (.handled i processed stored) = some t) : work t + (if (.handled i processed stored :
      Ev).completes then 1 else 0) ≤ work s + (.handled i processed stored : Ev).cost := by
  simp only [Consumer.step] at h
  split at h
  · rename_i ppc b hw
    have hset : ∀ l, work ({ s with lastConsumedOffsets := l }.setWorker i ⟨some b.ppc, .top⟩) + 1 = work s := by
      intro l
      have hm : Moved s ({ s with lastConsumedOffsets := l }.setWorker i ⟨some b.ppc, .top⟩) i ⟨some b.ppc, .top⟩ :=
        ⟨rfl, rfl, rfl, rfl, rfl, rfl, rfl, rfl, rfl⟩
      have := hm.work hw
      simp only [Phase.rank] at this
      omega
    obtain ⟨_, _, l, _, _, _, rfl | ⟨_, _, _, rfl⟩⟩ := stepHandled_cases h
    · exact Nat.le_of_eq (hset l)
    · rw [work_seek (by exact hne)]
      exact Nat.le_of_eq (hset l)
  · cases h

theorem work_checked {stale : Bool}
    (h : Consumer.step cfg s (.checked stale) = some t) : work t +
    (if (.checked stale : Ev).completes then 1 else 0) ≤ work s + (.checked stale : Ev).cost := by
  simp only [Consumer.step] at h
  split_ifs at h with hc hs
  · obtain rfl := Option.some.inj h
    have := work_markBatchPayloadsStale s s.assignment false
    have hx : (s.markBatchPayloadsStale s.assignment false).expiration = .check := hc
    simp only [work, hx, hc, reduceCtorEq, if_false] at this
    simp only [work, hc, reduceCtorEq, if_false, if_true, Ev.completes, Ev.cost]
    have hm : (s.markBatchPayloadsStale s.assignment false).main = s.main := rfl
    omega
  · obtain rfl := Option.some.inj h
    simp only [work, hc, reduceCtorEq, if_false, if_true, Ev.completes, Ev.cost]
    omega

end Steps

/-- Each completion lowers what is left, until an operation is executed. -/
theorem Inv.work_step (hi : Inv s) (hr : Rounds s) (hne : s.pendingOperations ≠ [])
    (hd : s.disconnectStarted = false)
    {e : Ev} (he : e ≠ .disconnect) {t : State} (h : Consumer.step cfg s e = some t)
    (hex : t.executed = s.executed) :
    work t + (if e.completes then 1 else 0) ≤ work s + e.cost := by
  cases e with
  | worker i => exact hi.work_worker hne h
  | consumed i r => exact work_consumed h
  | resolveOffset i offset leaderEpoch stored => exact work_resolveOffset h
  | handled i processed stored => exact work_handled hne h
  | queueNonEmpty =>
    obtain rfl := Option.some.inj h
    exact work_queueNonEmptyCb s
  | callback j =>
    simp only [Consumer.step] at h
    split at h
    · rename_i f hj
      split_ifs at h
      obtain rfl := Option.some.inj h
      rw [work_notifyNonEmpty]
      have hlt : j < s.callbacks.length := (List.getElem?_eq_some_iff.mp hj).1
      simp only [work, List.length_eraseIdx_of_lt hlt, Ev.completes, Ev.cost, if_true]
      omega
    · cases h
  | seek tpo =>
    simp only [Consumer.step] at h
    split_ifs at h
    obtain rfl := Option.some.inj h
    exact Nat.le_of_eq (work_seek hne tpo true)
  | pause tps =>
    obtain rfl := Option.some.inj h
    exact Nat.le_of_eq (work_pause hne tps)
  | resume tps =>
    obtain rfl := Option.some.inj h
    exact Nat.le_of_eq (work_resume hne tps)
  | rebalance r =>
    simp only [Consumer.step] at h
    split_ifs at h with hc
    obtain rfl := Option.some.inj h
    simp only [work, hc.1, reduceCtorEq, if_true, if_false, Ev.completes, Ev.cost, Bool.false_eq_true]
    omega
  | rebalanced modified tpos =>
    obtain ⟨r, hrb, h⟩ := Option.bind_eq_some_iff.mp h
    split_ifs at h
    obtain rfl := Option.some.inj h
    exact work_rebalanced hne hrb modified tpos
  | main => exact work_main hne hd h hex
  | opDone =>
    simp only [Consumer.step] at h
    split_ifs at h with hm
    obtain rfl := Option.some.inj h
    simp only [work, hm, Main.rank, Ev.completes, Ev.cost, if_true]
    omega
  | tick tk => exact hr.work_tick hi.prom hne h
  | checked stale => exact work_checked h
  | disconnect => exact absurd rfl he

/-! ## Something can be completed -/

def Completable (cfg : Config) (s : State) : Prop := ∃ e t, e.completes = true ∧ Consumer.step cfg s e = some t

theorem Completable.worker {i : Nat} {w : Worker} (hw : s.workers[i]? = some w)
    (h : (Consumer.stepWorker cfg s i w).isSome = true) : Completable cfg s := by
  obtain ⟨t, ht⟩ := Option.isSome_iff_exists.mp h
  exact ⟨.worker i, t, rfl, by simp [Consumer.step, hw, ht]⟩

/-- A fetch goes on: librdkafka answers, or the rebalance ends. -/
theorem Prom.fetching_completable (hp : Prom s) {i : Nat} {w : Worker} (hw : s.workers[i]? = some w)
    (hf : w.phase.fetching = true) : Completable cfg s := by
  have hwait := hp.waits w (List.mem_of_getElem? hw)
  obtain ⟨ppc, phase⟩ := w
  cases phase with
  | consuming => exact ⟨.consumed i none, _, rfl, by simp [Consumer.step, hw, advance]; rfl⟩
  | consumed r =>
    refine .worker hw ?_
    cases hr : s.rebalanceCbInProgress <;> simp [Consumer.stepWorker, hr]
  | waitRebalance r p =>
    have hwait : s.rebalanceCbInProgress = some p := hwait
    rcases (hp.rebalance p hwait).2.2.2 with h | h
    · exact .worker hw (by simp [Consumer.stepWorker, h])
    · obtain ⟨rb, hrb⟩ := Option.ne_none_iff_exists'.mp h
      exact ⟨.rebalanced false [], _, rfl, by simp [Consumer.step, hrb]; rfl⟩
  | _ => cases hf

theorem Inv.fetch_completable (hi : Inv s) {f : Nat} (hf : s.fetchInProgress = some f) : Completable cfg s := by
  obtain ⟨i, x, hx, hxf⟩ := hi.floor.fetcher.mp (by rw [hf]; rfl)
  rw [State.sketches, List.getElem?_map] at hx
  obtain ⟨w, hw, rfl⟩ := Option.map_eq_some_iff.mp hx
  exact hi.prom.fetching_completable hw hxf

theorem Inv.callback_completable (hi : Inv s) (hc : s.callbacks ≠ []) : Completable cfg s := by
  obtain ⟨f, cs, hfs⟩ := List.exists_cons_of_ne_nil hc
  rcases hi.prom.callbacks f (by rw [hfs]; simp) with h | h
  · exact ⟨.callback 0, _, rfl, by simp [Consumer.step, hfs, h]; rfl⟩
  · exact hi.fetch_completable h

theorem Inv.worker_completable (hi : Inv s) {i : Nat} {w : Worker} (hw : s.workers[i]? = some w)
    (hd : w.phase ≠ .done)
    (ht : s.workerTerminationScheduled = true) : Completable cfg s := by
  have hmain := hi.floor.running hw hd
  have hwait := hi.prom.waits w (List.mem_of_getElem? hw)
  obtain ⟨ppc, phase⟩ := w
  cases phase with
  | top => exact .worker hw (by simp [Consumer.stepWorker])
  | waitAvailable g =>
    obtain ⟨hle, hcb⟩ := hwait
    by_cases hg : g < s.cache.raw.availableGen
    · exact .worker hw (by simp [Consumer.stepWorker, hg])
    · exact hi.callback_completable (hcb ht (by omega))
  | waitFetch p =>
    rcases hwait with h | h
    · exact .worker hw (by simp [Consumer.stepWorker, h])
    · exact hi.fetch_completable h
  | waitNonEmpty p =>
    rcases hwait with h | h
    · exact .worker hw (by simp [Consumer.stepWorker, h])
    · have hf : s.fetchInProgress = none := by
        by_contra hf
        rw [hi.prom.alone hf] at h; cases h
      rcases (hi.prom.woken (hi.prom.term hmain ht)).2 hf with hn | hc
      · rw [h] at hn; cases hn
      · exact hi.callback_completable hc
  | consuming => exact hi.prom.fetching_completable hw rfl
  | consumed r => exact hi.prom.fetching_completable hw rfl
  | waitRebalance r p => exact hi.prom.fetching_completable hw rfl
  | got ms p => exact .worker hw (by simp [Consumer.stepWorker])
  | deserializing ms p => exact .worker hw (by simp [Consumer.stepWorker])
  | handling b =>
    obtain ⟨first, ms, hm⟩ := List.exists_cons_of_ne_nil (show b.messages ≠ [] from hwait)
    obtain ⟨last, hl⟩ : ∃ last, b.messages.getLast? = some last :=
      ⟨_, List.getLast?_eq_some_getLast (show b.messages ≠ [] from hwait)⟩
    have hsome : (Consumer.stepHandled cfg s i b true true).isSome = true := by
      rw [hm] at hl
      simp only [Consumer.stepHandled, hm, hl]
      split_ifs <;> rfl
    obtain ⟨t, ht⟩ := Option.isSome_iff_exists.mp hsome
    exact ⟨.handled i true true, t, rfl, by simp [Consumer.step, hw, ht]⟩
  | done => exact absurd rfl hd

/-- As long as an operation is pending the consumer is not stuck. -/
theorem Inv.completable (hi : Inv s) (hr : Rounds s) (hne : s.pendingOperations ≠ [])
    (hd : s.disconnectStarted = false) :
    Completable cfg s := by
  cases hm : s.main with
  | start => exact ⟨.main, _, rfl, by simp [Consumer.step, Consumer.stepMain, hm, hd, hne]; rfl⟩
  | workers =>
    by_cases hall : s.workers.all (fun w => w.phase = .done) = true
    · exact ⟨.main, _, rfl, by simp only [Consumer.step, Consumer.stepMain, hm, hall, if_true]; rfl⟩
    · rw [List.all_eq_true] at hall
      push Not at hall
      obtain ⟨w, hw, hwd⟩ := hall
      obtain ⟨i, hi'⟩ := List.mem_iff_getElem?.mp hw
      exact hi.worker_completable hi' (by simpa using hwd) (hi.prom.pending hm hne)
  | expiration =>
    cases he : s.expiration with
    | idle => exact ⟨.main, _, rfl, by simp [Consumer.step, Consumer.stepMain, hm, he]; rfl⟩
    | loop => exact ⟨.tick .early, _, rfl, by simp [Consumer.step, Consumer.stepTick, he, hr.expired hm]; rfl⟩
    | check => exact ⟨.checked false, _, rfl, by simp [Consumer.step, he]; rfl⟩
  | ops =>
    obtain ⟨op, ops, hops⟩ := List.exists_cons_of_ne_nil hne
    exact ⟨.main, _, rfl, by simp [Consumer.step, Consumer.stepMain, hm, hops]; rfl⟩
  | op => exact ⟨.opDone, _, rfl, by simp [Consumer.step, hm]; rfl⟩
  | stopped =>
    rw [hr.stopped hm] at hd
    cases hd

/-! ## Every operation is executed -/

theorem executed_extends {C : State → Ev → Bool} : ∀ {fs : List Ev} {s t : State}, (lts cfg).exec C s fs = some t →
    s.executed <+: t.executed
  | [], s, t, h => by
    obtain rfl : s = t := by simpa [Lts.exec] using h
    exact List.prefix_rfl
  | e :: fs, s, t, h => by
    unfold Lts.exec at h
    split at h
    · obtain ⟨u, hu, ht⟩ := Option.bind_eq_some_iff.mp h
      have hsu : s.executed <+: u.executed := by
        rcases step_queue hu with ⟨he, _⟩ | ⟨_, op, _, he⟩
        · exact he ▸ List.prefix_rfl
        · rw [he]; exact List.prefix_append _ _
      exact hsu.trans (executed_extends ht)
    · cases h

/-- Until an operation is executed, a completion can be made in every state, and only so many are. -/
theorem Inv.exec_work : ∀ {fs : List Ev} {s t : State}, Inv s → Rounds s → s.pendingOperations ≠ [] →
    s.disconnectStarted = false → (lts cfg).exec (fun _ e => e ≠ .disconnect) s fs = some t →
    t.executed = s.executed →
    Completable cfg t ∧ fs.countP Ev.completes + work t ≤ work s + (fs.map Ev.cost).sum
  | [], s, t, hi, hr, hne, hd, h, _ => by
    obtain rfl : s = t := by simpa [Lts.exec] using h
    exact ⟨hi.completable hr hne hd, by simp⟩
  | e :: fs, s, t, hi, hr, hne, hd, h, hex => by
    unfold Lts.exec at h
    split at h
    · rename_i he
      have he : e ≠ .disconnect := of_decide_eq_true he
      obtain ⟨u, hu, ht⟩ := Option.bind_eq_some_iff.mp h
      have hpre := executed_extends ht
      rcases step_queue hu with ⟨heq, hpend⟩ | ⟨_, op, _, heq⟩
      · obtain ⟨hru, hdu⟩ := hr.step hu
        have hneu : u.pendingOperations ≠ [] := fun e => hne (List.prefix_nil.mp (e ▸ hpend))
        have hstep := hi.work_step hr hne hd he hu heq
        obtain ⟨hc, hrest⟩ := Inv.exec_work (hi.step hu) hru hneu ((hdu he).trans hd) ht (hex.trans heq.symm)
        refine ⟨hc, ?_⟩
        simp only [List.countP_cons, List.map_cons, List.sum_cons]
        omega
      · rw [heq, hex] at hpre
        exact absurd hpre.length_le (by simp)
    · cases h

/-- In every run before `disconnect` the operations executed and those still pending are those added, in their
order; one is executed only when all workers have ended, and as long as one is pending the run goes on to
execute it: what is left to complete is never nothing and bounded. -/
theorem operations_executed {es : List Ev} {s : State}
    (hr : (lts cfg).RunWhere (fun _ e => e ≠ .disconnect) es s) :
    s.added = s.executed ++ s.pendingOperations ∧
    (∀ e t, Consumer.step cfg s e = some t → t.executed ≠ s.executed →
      (∀ w ∈ s.workers, w.phase = .done) ∧ ∃ op, s.pendingOperations = op :: t.pendingOperations ∧
        t.executed = s.executed ++ [op]) ∧
    (s.main = .op → ∀ w ∈ s.workers, w.phase = .done) ∧
    (s.pendingOperations ≠ [] → ∀ fs t, (lts cfg).exec (fun _ e => e ≠ .disconnect) s fs = some t →
      t.executed = s.executed →
      Completable cfg t ∧ fs.countP Ev.completes ≤ work s + (fs.map Ev.cost).sum) := by
  have hi : Inv s := Inv.run (hr.mono fun _ _ _ => trivial)
  have hinv : Rounds s ∧ s.disconnectStarted = false := by
    refine hr.inv (I := fun s => Rounds s ∧ s.disconnectStarted = false) ⟨Rounds.init, rfl⟩ ?_
    intro s e t h he hs
    obtain ⟨ht, hd⟩ := h.1.step hs
    exact ⟨ht, (hd he).trans h.2⟩
  have hdone : s.main ≠ .workers → ∀ w ∈ s.workers, w.phase = .done := by
    intro hm w hw
    by_contra hd
    obtain ⟨i, hi'⟩ := List.mem_iff_getElem?.mp hw
    exact hm (hi.floor.running hi' hd)
  refine ⟨hi.prom.queue, ?_, ?_, ?_⟩
  · intro e t h hne
    rcases step_queue h with ⟨he, _⟩ | ⟨hm, op, hp, he⟩
    · exact absurd he hne
    · exact ⟨hdone (by rw [hm]; simp), op, hp, he⟩
  · intro hm
    exact hdone (by rw [hm]; simp)
  · intro hne fs t hfs hex
    obtain ⟨hc, hw⟩ := hi.exec_work hinv.1 hne hinv.2 hfs hex
    exact ⟨hc, by omega⟩

end

/-- Both workers are in their handlers when one of them pauses the partition of the other. -/
def pauseInHandler : List Ev :=
  secondRound ++ [.consumed 1 (some [⟨"t", 0, 0, 0⟩, ⟨"t", 1, 0, 0⟩]), .worker 1, .worker 1, .worker 0, .worker 0,
    .worker 0, .pause [⟨"t", 1⟩]]

theorem operations_executed_pauseInHandler : ∃ s,
    (lts twoPartitions).RunWhere (fun _ e => e ≠ .disconnect) pauseInHandler s ∧
    s.pendingOperations = [.pause [⟨"t", 1⟩]] ∧ s.added = s.executed ++ s.pendingOperations ∧
    Completable twoPartitions s := by
  have hs : ((lts twoPartitions).exec (fun _ e => e ≠ .disconnect) (lts twoPartitions).init pauseInHandler).map
      State.pendingOperations = some [.pause [⟨"t", 1⟩]] := by decide +kernel
  obtain ⟨s, hs, hp⟩ := Option.map_eq_some_iff.mp hs
  have hr : (lts twoPartitions).RunWhere (fun _ e => e ≠ .disconnect) pauseInHandler s :=
    (Lts.RunWhere.of_exec .nil hs).mono fun _ _ h => of_decide_eq_true h
  obtain ⟨hq, _, _, hc⟩ := operations_executed hr
  exact ⟨s, hr, hp, hq, (hc (by rw [hp]; simp) [] s rfl rfl).1⟩

end Consumer

end ConfluentKafka
