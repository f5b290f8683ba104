import ConfluentKafka.RunPositions

/-!
# What the consumer holds

A message is held from the moment `consume` has returned it until its handler
is through with it or it is dropped from the cache. No step of the run loop
adds a message to what is held but the ones that `consume` returns
(`holds_step`), and the operations that reset a partition drop all of it. So
nothing of a partition is held, and nothing of it is handled, unless the
partition is assigned (`held_assigned`), and what was fetched before a
partition was paused, sought or given up is never handled after
(`handled_consumed_after`).
-/

namespace ConfluentKafka

namespace Consumer

/-- What a worker has: messages on their way to the cache, taken from it or in its handler. -/
def Phase.messages : Phase → List Message
  | .consumed r => r.getD []
  | .waitRebalance r _ => r.getD []
  | .got ms _ => ms
  | .deserializing ms _ => ms
  | .handling b => b.messages
  | _ => []

def State.Holds (s : State) (m : Message) : Prop :=
  (∃ k, m ∈ s.cache.view.queueOf k) ∨ ∃ w ∈ s.workers, m ∈ w.phase.messages

/-- When no worker has a message, what is held is cached. -/
theorem State.Holds.queued {s : State} {m : Message} (h : s.Holds m) (hw : ∀ w ∈ s.workers, w.phase.messages = []) :
    ∃ k, m ∈ s.cache.view.queueOf k := by
  refine h.resolve_right ?_
  rintro ⟨w, hmem, hm⟩
  rw [hw w hmem] at hm
  cases hm

def Filed (s : State) : Prop := ∀ k, ∀ m ∈ s.cache.view.queueOf k, partitionKey m = k

def State.isAssignedTo (s : State) (m : Message) : Prop := s.isAssigned (partitionKey m) = true

def State.duty (s : State) : List TopicPartition × Bool × Option Rebalance :=
  (s.assignment, s.disconnectStarted, s.rebalancing)

/-- `t` has no message that `s` has not, and no message of a partition that was given up. -/
structure Within (s t : State) : Prop where
  queue : ∀ k, ∀ m ∈ t.cache.view.queueOf k, m ∈ s.cache.view.queueOf k ∨ partitionKey m = k ∧ s.Holds m
  workers : ∀ w ∈ t.workers, ∀ m ∈ w.phase.messages, s.Holds m
  disconnect : t.disconnectStarted = false → s.disconnectStarted = false
  rebalancing : t.rebalancing ≠ none → t.rebalancing = s.rebalancing ∧ t.assignment ⊆ s.assignment
  assigned : t.disconnectStarted = false → ∀ m, s.isAssignedTo m → t.isAssignedTo m ∨ ¬ t.Holds m

namespace Within

variable {s t u : State}

theorem holds (h : Within s t) {m : Message} (hm : t.Holds m) : s.Holds m := by
  rcases hm with ⟨k, hm⟩ | ⟨w, hw, hm⟩
  · rcases h.queue k m hm with hm | ⟨_, hm⟩
    · exact .inl ⟨k, hm⟩
    · exact hm
  · exact h.workers w hw m hm

theorem filed (h : Within s t) (hf : Filed s) : Filed t := by
  intro k m hm
  rcases h.queue k m hm with hm | ⟨hk, _⟩
  · exact hf k m hm
  · exact hk

theorem trans (h : Within s t) (h' : Within t u) : Within s u where
  queue k m hm := by
    rcases h'.queue k m hm with hm | ⟨hk, hm⟩
    · exact h.queue k m hm
    · exact .inr ⟨hk, h.holds hm⟩
  workers w hw m hm := h.holds (h'.workers w hw m hm)
  disconnect hd := h.disconnect (h'.disconnect hd)
  rebalancing hr := by
    obtain ⟨he, ha⟩ := h'.rebalancing hr
    obtain ⟨he', ha'⟩ := h.rebalancing (he ▸ hr)
    exact ⟨he.trans he', fun _ hx => ha' (ha hx)⟩
  assigned hd m hm := by
    rcases h.assigned (h'.disconnect hd) m hm with hm | hm
    · exact h'.assigned hd m hm
    · exact .inr fun hu => hm (h'.holds hu)

/-- Fewer messages in the queues and in the hands, and the same partitions. -/
theorem of_holds (hq : ∀ k, ∀ m ∈ t.cache.view.queueOf k, m ∈ s.cache.view.queueOf k ∨
    partitionKey m = k ∧ s.Holds m)
    (hw : ∀ w ∈ t.workers, ∀ m ∈ w.phase.messages, s.Holds m) (hd : t.duty = s.duty) : Within s t := by
  obtain ⟨ha, hd, hr⟩ : t.assignment = s.assignment ∧ t.disconnectStarted = s.disconnectStarted ∧
      t.rebalancing = s.rebalancing := by simpa [State.duty] using hd
  refine ⟨hq, hw,
    fun h => by rwa [hd] at h, fun _ => ⟨hr, by rw [ha]; exact List.Subset.refl _⟩, fun _ m hm => .inl ?_⟩
  unfold State.isAssignedTo State.isAssigned at hm ⊢
  rwa [ha]

theorem of_eq (hc : t.cache.view = s.cache.view) (hw : t.workers = s.workers) (hd : t.duty = s.duty) : Within s t :=
  of_holds (fun k m hm => .inl (by rwa [hc] at hm)) (fun w hm m h => .inr ⟨w, by rwa [hw] at hm, h⟩) hd

theorem refl (s : State) : Within s s := of_eq rfl rfl rfl

/-- A state with the same cache where one worker has changed. -/
theorem setWorker {i : Nat} {w : Worker} (hc : t.cache.view = s.cache.view) (ht : t.workers = s.workers.set i w)
    (hd : t.duty = s.duty) (hw : ∀ m ∈ w.phase.messages, s.Holds m) : Within s t := by
  refine of_holds (fun k m hm => .inl (by rwa [hc] at hm)) (fun x hx m hm => ?_) hd
  rw [ht] at hx
  rcases List.mem_or_eq_of_mem_set hx with hx | rfl
  · exact .inr ⟨x, hx, hm⟩
  · exact hw m hm

theorem setBare {i : Nat} {w : Worker} (hc : t.cache.view = s.cache.view) (ht : t.workers = s.workers.set i w)
    (hd : t.duty = s.duty) (hw : w.phase.messages = []) : Within s t :=
  setWorker hc ht hd fun m hm => by rw [hw] at hm; cases hm

theorem withCache {c : Cache Message} (hc : ∀ k, ∀ m ∈ c.view.queueOf k, m ∈ s.cache.view.queueOf k) :
    Within s { s with cache := c } :=
  of_holds (fun k m hm => .inl (hc k m hm)) (fun w hw _ hm => .inr ⟨w, hw, hm⟩) rfl

theorem discarded {c : Cache Message} {P : String → Prop} (hd : s.cache.view.Discarded c.view P) :
    Within s { s with cache := c } := by
  refine withCache fun k m hm => ?_
  obtain ⟨hgone, hkept⟩ := hd.queueOf s.cache.valid k
  by_cases hP : P k
  · rw [hgone hP] at hm; cases hm
  · rwa [hkept hP] at hm

/-! ### Waking the workers -/

theorem notifyNonEmpty (s : State) : Within s s.notifyNonEmpty := by
  rw [notifyNonEmpty_eq]
  exact of_eq rfl rfl rfl

theorem queueNonEmptyCb (s : State) : Within s s.queueNonEmptyCb := by
  unfold State.queueNonEmptyCb
  simp only
  split
  · exact of_eq rfl rfl rfl
  · exact trans (t := { s with woken := true }) (of_eq rfl rfl rfl) (notifyNonEmpty _)

theorem resolveWorkerTerminationScheduled (s : State) : Within s s.resolveWorkerTerminationScheduled :=
  trans (t := { s with workerTerminationScheduled := true }) (of_eq rfl rfl rfl) (queueNonEmptyCb _)

theorem addPendingOperation (s : State) (op : Op) : Within s (s.addPendingOperation op) := by
  unfold State.addPendingOperation
  simp only
  split_ifs
  · exact (resolveWorkerTerminationScheduled s).trans (of_eq rfl rfl rfl)
  · exact of_eq rfl rfl rfl

/-! ### Requests -/

theorem markBatchPayloadsStale {τ : Type} [Toppar τ] (s : State) (tps : List τ) (isSeek : Bool) :
    Within s (s.markBatchPayloadsStale tps isSeek) := by
  refine of_holds (fun _ _ hm => .inl hm) (fun w hw m hm => ?_) rfl
  obtain ⟨x, hx, rfl⟩ := List.mem_map.mp hw
  refine .inr ⟨x, hx, ?_⟩
  cases hp : x.phase with
  | handling b =>
    simp only [hp] at hm
    split_ifs at hm <;> exact hm
  | _ => simpa only [hp] using hm

theorem seek (s : State) (tpo : TopicPartitionOffset) (user : Bool) : Within s (s.seek tpo user) :=
  (markBatchPayloadsStale s [tpo] true).trans (addPendingOperation _ _)

theorem pause (s : State) (tps : List TopicPartition) : Within s (s.pause tps) := by
  unfold State.pause
  split_ifs
  · exact refl s
  · exact (markBatchPayloadsStale s tps false).trans (addPendingOperation _ _)

theorem resume (s : State) (tps : List TopicPartition) : Within s (s.resume tps) := by
  unfold State.resume
  split_ifs
  · exact refl s
  · exact addPendingOperation _ _

/-! ### The workers -/

variable {cfg : Config} {i : Nat} {w : Worker}

theorem fetchAndResolveWith (s : State) (i : Nat) (w : Worker) : Within s (s.fetchAndResolveWith i w) := by
  unfold State.fetchAndResolveWith
  split
  · exact setBare rfl rfl rfl rfl
  · split
    · exact setBare rfl rfl rfl rfl
    · split_ifs
      · exact setBare rfl rfl rfl rfl
      · exact setBare rfl rfl rfl rfl

theorem took {c : Cache Message} {h : Option Nat} {r : Option (List Message × Nat)}
    (hh : s.cache.view.Handed c.view h r)
    (hw : w.phase.messages = (r.map Prod.fst).getD []) : Within s ({ s with cache := c }.setWorker i w) := by
  have hq := hh.queueOf s.cache.valid
  have hc : Within s { s with cache := c } := withCache fun k m hm => by
    rw [hq k]
    exact List.mem_append_right _ hm
  refine of_holds (fun k m hm => hc.queue k m hm) (fun x hx m hm => ?_) rfl
  rcases List.mem_or_eq_of_mem_set hx with hx | rfl
  · exact .inr ⟨x, hx, hm⟩
  · rw [hw] at hm
    cases r with
    | none => cases hm
    | some r =>
      refine .inl ⟨s.cache.view.key r.2, ?_⟩
      rw [hq]
      exact List.mem_append_left _ (by simpa using hm)

theorem workerTop (s : State) (i : Nat) (w : Worker) : Within s (s.workerTop cfg i w) := by
  unfold State.workerTop
  split_ifs
  · have hc : Within s { s with cache := w.ppc.elim s.cache s.cache.giveBack } := by
      cases w.ppc with
      | none => exact refl s
      | some p =>
        refine withCache fun k m hm => ?_
        simpa only [Option.elim_some, Cache.view_giveBack, (s.cache.valid.release p).2.2] using hm
    exact hc.trans (setBare rfl rfl rfl rfl)
  · have hh := takeFromCache_handed cfg s.cache w.ppc
    split
    · rename_i c ms p he
      rw [he] at hh
      exact took hh rfl
    · rename_i c he
      rw [he] at hh
      have hc : Within s { s with cache := c } := withCache fun k m hm => by
        rw [hh.queueOf s.cache.valid k]
        exact List.mem_append_right _ hm
      split_ifs
      · exact hc.trans (setBare rfl rfl rfl rfl)
      · exact hc.trans (fetchAndResolveWith _ i w)

theorem endFetch (s : State) (quiet : Bool) : Within s (s.endFetch quiet) := by
  obtain ⟨promises, nonEmpty, he⟩ := endFetch_eq s quiet
  rw [he]
  exact of_eq rfl rfl rfl

/-- The fetched messages go to the cache, and the first of them to the worker. -/
theorem finishFetch (hw : s.workers[i]? = some w) (processedRebalance : Bool)
    {result : Option (List Message)} (hr : w.phase.messages = result.getD []) :
    Within s (s.finishFetch cfg i w processedRebalance result) := by
  have hmem : w ∈ s.workers := List.mem_of_getElem? hw
  cases result with
  | none => exact (endFetch s false).trans (setBare rfl rfl rfl rfl)
  | some ms =>
    have hput : Within s { s with cache := s.cache.addMessages ms } := by
      refine of_holds (fun k m hm => ?_) (fun x hx m hm => .inr ⟨x, hx, hm⟩) rfl
      rw [Cache.view_addMessages, s.cache.valid.queueOf_pushAll] at hm
      rcases List.mem_append.mp hm with hm | hm
      · exact .inl hm
      · obtain ⟨hm, hk⟩ := List.mem_filter.mp hm
        exact .inr ⟨by simpa using hk, .inr ⟨w, hmem, by rw [hr]; exact hm⟩⟩
    have hh := takeFromCache_handed cfg (s.cache.addMessages ms) none
    show Within s (((s.putFetched cfg ms).endFetch _).setWorker i _)
    rw [endFetch_setWorker]
    refine trans ?_ (endFetch _ _)
    have htook := took (s := { s with cache := s.cache.addMessages ms }) (i := i)
      (w := { w with phase := (takeFromCache cfg (s.cache.addMessages ms) none).2.elim .top fun r => .got r.1 r.2 })
        hh
      (by cases (takeFromCache cfg (s.cache.addMessages ms) none).2 <;> rfl)
    exact hput.trans (htook.trans (of_eq rfl rfl rfl))

theorem returnMessages {ms : List Message} {p : Nat} (hw : s.workers[i]? = some w) (hp : w.phase = .got ms p) :
    Within s (s.returnMessages i ms p) := by
  have hmem : w ∈ s.workers := List.mem_of_getElem? hw
  unfold State.returnMessages
  simp only
  refine trans (t := { s with cache := s.cache.returnMessages ms }) ?_ (setBare rfl rfl rfl rfl)
  refine of_holds (fun k m hm => ?_) (fun x hx m hm => .inr ⟨x, hx, hm⟩) rfl
  rw [Cache.view_returnMessages, s.cache.valid.queueOf_putBack] at hm
  rcases List.mem_append.mp hm with hm | hm
  · obtain ⟨hm, hk⟩ := List.mem_filter.mp hm
    exact .inr ⟨by simpa using hk, .inr ⟨w, hmem, by rw [hp]; exact hm⟩⟩
  · exact .inl hm

theorem deliver {ms : List Message} {p : Nat} (hw : s.workers[i]? = some w) (hp : w.phase.messages = ms) :
    Within s (s.deliver i w ms p) :=
  setWorker rfl rfl rfl fun m hm => .inr ⟨w, List.mem_of_getElem? hw, by rw [hp]; exact hm⟩

theorem process {ms : List Message} {p : Nat} (hw : s.workers[i]? = some w) (hp : w.phase = .got ms p) :
    Within s (s.process cfg i w ms p) := by
  have hms : w.phase.messages = ms := by rw [hp]; rfl
  unfold State.process
  split_ifs
  · exact returnMessages hw hp
  · exact setWorker rfl rfl rfl fun m hm => .inr ⟨w, List.mem_of_getElem? hw, by rw [hms]; exact hm⟩
  · exact deliver hw hms

theorem stepWorker (hw : s.workers[i]? = some w) (h : stepWorker cfg s i w = some t) : Within s t := by
  cases hp : w.phase with
  | top =>
    simp only [Consumer.stepWorker, hp] at h
    obtain rfl := Option.some.inj h
    exact workerTop s i w
  | got ms p =>
    simp only [Consumer.stepWorker, hp] at h
    obtain rfl := Option.some.inj h
    exact process hw hp
  | deserializing ms p =>
    simp only [Consumer.stepWorker, hp] at h
    obtain rfl := Option.some.inj h
    exact deliver hw (by rw [hp]; rfl)
  | consumed r =>
    simp only [Consumer.stepWorker, hp] at h
    split at h
    · obtain rfl := Option.some.inj h
      exact setWorker rfl rfl rfl fun m hm => .inr ⟨w, List.mem_of_getElem? hw, by rw [hp]; exact hm⟩
    · obtain rfl := Option.some.inj h
      exact finishFetch hw false (by rw [hp]; rfl)
  | waitRebalance r p =>
    simp only [Consumer.stepWorker, hp] at h
    split_ifs at h
    obtain rfl := Option.some.inj h
    exact trans (t := { s with rebalanceCbInProgress := none }) (of_eq rfl rfl rfl)
      (finishFetch (s := { s with rebalanceCbInProgress := none }) hw true (by rw [hp]; rfl))
  | waitAvailable g =>
    simp only [Consumer.stepWorker, hp] at h
    split_ifs at h
    obtain rfl := Option.some.inj h
    exact setBare rfl rfl rfl rfl
  | waitFetch p =>
    simp only [Consumer.stepWorker, hp] at h
    split_ifs at h
    obtain rfl := Option.some.inj h
    exact setBare rfl rfl rfl rfl
  | waitNonEmpty p =>
    simp only [Consumer.stepWorker, hp] at h
    split_ifs at h
    obtain rfl := Option.some.inj h
    exact setBare rfl rfl rfl rfl
  | consuming => simp [Consumer.stepWorker, hp] at h
  | handling b => simp [Consumer.stepWorker, hp] at h
  | done => simp [Consumer.stepWorker, hp] at h

theorem stepHandled {b : Batch} {processed stored : Bool} (h : stepHandled cfg s i b processed stored = some t) :
    Within s t := by
  obtain ⟨first, last, l, _, _, _, rfl | ⟨offset, epoch, _, rfl⟩⟩ := stepHandled_cases h
  · exact setBare rfl rfl rfl rfl
  · exact (setBare rfl rfl rfl rfl : Within s ({ s with lastConsumedOffsets :=
      l }.setWorker i ⟨some b.ppc, .top⟩)).trans
      (seek _ _ _)

/-! ### The operations -/

theorem foldl {α : Type} {f : State → α → State} (hf : ∀ s x, Within s (f s x)) :
    ∀ (xs : List α) (s : State), Within s (xs.foldl f s)
  | [], s => refl s
  | x :: xs, s => (hf s x).trans (foldl hf xs (f s x))

theorem seekPartition (s : State) (tpo : TopicPartitionOffset) : Within s (s.seekPartition tpo) :=
  (discarded (s.cache.markStale_discarded [tpo])).trans (of_eq rfl rfl rfl)

theorem seekInternal (s : State) (tpos : List TopicPartitionOffset) : Within s (s.seekInternal tpos) := by
  unfold State.seekInternal
  refine .trans (t := { s with pendingSeeks := _ }) ?_ (foldl seekPartition _ _)
  exact of_eq rfl rfl rfl

theorem unassign (hf : Filed s) (hidle : s.disconnectStarted = false → ∀ w ∈ s.workers, w.phase.messages = [])
    (tps : List TopicPartition) : Within s (s.unassign cfg tps) := by
  unfold State.unassign
  split_ifs
  · have hdis := s.cache.clear_discarded
    have hw := discarded (s := s) hdis
    refine ⟨hw.queue, hw.workers, id, fun _ => ⟨rfl, List.nil_subset _⟩, fun hd m _ => .inr fun hm => ?_⟩
    obtain ⟨k, hm⟩ : ∃ k, m ∈ s.cache.clear.view.queueOf k := hm.queued (hidle hd)
    rw [(hdis.queueOf s.cache.valid k).1 trivial] at hm
    cases hm
  · have hdis := s.cache.markStale_discarded tps
    have hw := discarded (s := s) hdis
    refine ⟨hw.queue, hw.workers, id, fun _ => ⟨rfl, fun _ => List.mem_of_mem_filter⟩, fun hd m ha => ?_⟩
    by_cases hP : ∃ tp ∈ tps, partitionKey tp = partitionKey m
    · refine .inr fun hm => ?_
      obtain ⟨k, hm⟩ : ∃ k, m ∈ (s.cache.markStale tps).view.queueOf k := hm.queued (hidle hd)
      obtain rfl := hw.filed hf k m hm
      rw [(hdis.queueOf s.cache.valid _).1 hP] at hm
      cases hm
    · obtain ⟨tp, htp, hk⟩ := List.any_eq_true.mp ha
      refine .inl (List.any_eq_true.mpr ⟨tp, List.mem_filter.mpr ⟨htp, ?_⟩, hk⟩)
      exact decide_eq_true fun hmem => hP ⟨tp, hmem, by simpa using hk⟩

theorem execute (hf : Filed s) (hidle : ∀ w ∈ s.workers, w.phase.messages = []) (op : Op) :
    Within s (s.execute cfg op) := by
  cases op with
  | seek tpo user =>
    cases user with
    | false => exact seekInternal s [tpo]
    | true => exact (seekInternal s [tpo]).trans (of_eq rfl rfl rfl)
  | pause tps => exact (discarded (s.cache.markStale_discarded tps)).trans (seekInternal _ _)
  | resume _ => exact refl s
  | unassign tps => exact unassign hf (fun _ => hidle) tps
  | clearCacheAndResetPositions =>
    exact (discarded s.cache.clear_discarded).trans (foldl (fun s _ => seekInternal s _) _ _)

/-! ### Rebalances -/

theorem endRebalance_same (cfg : Config) (s : State) : (s.endRebalance cfg).cache.view = s.cache.view ∧
    (s.endRebalance cfg).workers = s.workers ∧
      (s.endRebalance cfg).duty = (s.assignment, s.disconnectStarted, none) := by
  unfold State.endRebalance State.resolveWorkerTerminationScheduled State.queueNonEmptyCb State.duty
  simp only
  split_ifs
  · split
    · exact ⟨rfl, rfl, rfl⟩
    · rw [notifyNonEmpty_eq]
      exact ⟨rfl, rfl, rfl⟩
  · exact ⟨rfl, rfl, rfl⟩

/-- Nothing was assigned where the assignment is replaced. -/
theorem assigned_rebalance (heager : cfg.eager = true → s.assignment = []) (modified : Bool)
    (tpos : List TopicPartitionOffset) : Within s ((s.assign cfg modified tpos).endRebalance cfg) := by
  obtain ⟨hc, hw, hd⟩ := endRebalance_same cfg (s.assign cfg modified tpos)
  simp only [State.duty, Prod.mk.injEq] at hd
  obtain ⟨ha, hd, hr⟩ := hd
  refine ⟨fun k m hm => .inl (by rwa [hc] at hm), fun w hm m h => .inr ⟨w, by rwa [hw] at hm, h⟩, fun h => ?_,
    fun h => absurd hr h, fun _ m hm => .inl ?_⟩
  · rwa [hd] at h
  · unfold State.isAssignedTo State.isAssigned at hm ⊢
    rw [ha]
    by_cases he : cfg.eager = true
    · rw [heager he] at hm; cases hm
    · simp only [State.assign, he, if_false, List.any_append, hm, Bool.true_or, Bool.false_eq_true]

theorem revoked_rebalance {t : State} (h : Within s t) : Within s (t.endRebalance cfg) := by
  obtain ⟨hc, hw, hd⟩ := endRebalance_same cfg t
  simp only [State.duty, Prod.mk.injEq] at hd
  obtain ⟨ha, hd, hr⟩ := hd
  refine h.trans ⟨fun k m hm => .inl (by rwa [hc] at hm), fun w hm m h => .inr ⟨w, by rwa [hw] at hm, h⟩, fun h =>
    ?_,
    fun h => absurd hr h, fun _ m hm => .inl ?_⟩
  · rwa [hd] at h
  · unfold State.isAssignedTo State.isAssigned at hm ⊢
    rwa [ha]

theorem rebalanced (hf : Filed s) {r : Rebalance} (heager : r = .assign → cfg.eager = true → s.assignment = [])
    (modified : Bool) (tpos : List TopicPartitionOffset) : Within s (s.rebalanced cfg r modified tpos) := by
  cases r with
  | assign => exact assigned_rebalance (heager rfl) modified tpos
  | revoke =>
    refine revoked_rebalance ?_
    split_ifs with hd
    · exact unassign hf (fun h => by rw [hd] at h; cases h) _
    · exact addPendingOperation s _

/-! ### The steps -/

theorem stepMain (hf : Filed s) (hi : Inv s) (h : stepMain cfg s = some t) : Within s t := by
  unfold Consumer.stepMain at h
  split at h
  · simp only at h
    split_ifs at h
    · obtain rfl := Option.some.inj h
      exact of_eq rfl rfl rfl
    · obtain rfl := Option.some.inj h
      refine of_holds (fun _ _ hm => .inl hm) (fun w hw m hm => ?_) rfl
      obtain rfl := List.eq_of_mem_replicate hw
      cases hm
    · obtain rfl := Option.some.inj h
      exact of_eq rfl rfl rfl
  · split_ifs at h
    obtain rfl := Option.some.inj h
    exact of_eq rfl rfl rfl
  · split_ifs at h
    obtain rfl := Option.some.inj h
    exact of_eq rfl rfl rfl
  · rename_i hm
    have hidle : ∀ w ∈ s.workers, w.phase.messages = [] := by
      intro w hw
      rw [hi.ended (by rw [hm]; simp) w hw]
      rfl
    split at h
    · obtain rfl := Option.some.inj h
      exact of_eq rfl rfl rfl
    · rename_i op ops _
      obtain rfl := Option.some.inj h
      have hop : Within s { s with pendingOperations := ops } := of_eq rfl rfl rfl
      exact hop.trans ((execute (hop.filed hf) hidle op).trans (of_eq rfl rfl rfl))
  · cases h
  · cases h

theorem stepTick {tk : Tick} (h : stepTick s tk = some t) : Within s t := by
  unfold Consumer.stepTick at h
  split_ifs at h
  · obtain rfl := Option.some.inj h
    exact of_eq rfl rfl rfl
  · cases tk with
    | cacheExpired =>
      obtain rfl := Option.some.inj h
      exact trans (t := { s with expiration := .check }) (of_eq rfl rfl rfl) (addPendingOperation _ _)
    | fetchDue =>
      obtain rfl := Option.some.inj h
      exact notifyNonEmpty s
    | early =>
      obtain rfl := Option.some.inj h
      exact refl s

end Within

theorem advance_assigned {cfg : Config} {s : State} : ∀ {ms : List Message} {position position' : String → Int},
    advance cfg s ms position = some position' → ∀ m ∈ ms, s.isAssigned (partitionKey m) = true
  | [], _, _, _, m, hm => by cases hm
  | m' :: ms, position, position', h, m, hm => by
    simp only [advance] at h
    split_ifs at h with hc
    rcases List.mem_cons.mp hm with rfl | hm
    · exact hc.1
    · exact advance_assigned h m hm

structure Owned (cfg : Config) (s : State) : Prop where
  filed : Filed s
  eager : s.rebalancing = some .assign → cfg.eager = true → s.assignment = []
  held : s.disconnectStarted = false → ∀ m, s.Holds m → s.isAssignedTo m

/-- A step adds no message to what the consumer holds but those that `consume` returns, of assigned partitions. -/
theorem holds_step {cfg : Config} {s t : State} {e : Ev} (ho : Owned cfg s) (hi : Inv s)
    (h : step cfg s e = some t) :
    Within s t ∨ (∃ r, ¬ (r = .assign ∧ cfg.eager = true ∧ s.assignment ≠ []) ∧ t = { s with
        promises := s.promises ++ [false]
        rebalanceCbInProgress := some s.promises.length
        rebalancing := some r }) ∨
      ∃ i ppc r, e = .consumed i r ∧ s.workers[i]? = some ⟨ppc, .consuming⟩ ∧ t.cache = s.cache ∧ t.duty = s.duty ∧
        t.workers = s.workers.set i ⟨ppc, .consumed r⟩ ∧ ∀ m ∈ r.getD [], s.isAssignedTo m := by
  cases e with
  | worker i =>
    obtain ⟨w, hw, h⟩ := Option.bind_eq_some_iff.mp h
    exact .inl (Within.stepWorker hw h)
  | consumed i r =>
    simp only [step] at h
    split at h
    · rename_i ppc hw
      obtain ⟨position, hadv, rfl⟩ := Option.map_eq_some_iff.mp h
      exact .inr (.inr ⟨i, ppc, r, rfl, hw, rfl, rfl, rfl, advance_assigned hadv⟩)
    · cases h
  | resolveOffset i offset leaderEpoch stored =>
    simp only [step] at h
    split at h
    · rename_i ppc b hw
      split_ifs at h
      obtain ⟨l, b', he, hm, _⟩ := resolveOffset_eq s b offset leaderEpoch stored
      rw [he] at h
      obtain rfl := Option.some.inj h
      refine .inl (Within.setWorker rfl rfl rfl fun m hm' => .inr ⟨_, List.mem_of_getElem? hw, ?_⟩)
      show m ∈ b.messages
      rw [← hm]
      exact hm'
    · cases h
  | handled i processed stored =>
    simp only [step] at h
    split at h
    · exact .inl (Within.stepHandled h)
    · cases h
  | queueNonEmpty =>
    obtain rfl := Option.some.inj h
    exact .inl (Within.queueNonEmptyCb s)
  | callback j =>
    simp only [step] at h
    split at h
    · split_ifs at h
      obtain rfl := Option.some.inj h
      exact .inl (.trans (t := { s with callbacks := s.callbacks.eraseIdx j }) (.of_eq rfl rfl rfl)
        (Within.notifyNonEmpty _))
    · cases h
  | seek tpo =>
    simp only [step] at h
    split_ifs at h
    obtain rfl := Option.some.inj h
    exact .inl (Within.seek s tpo true)
  | pause tps =>
    obtain rfl := Option.some.inj h
    exact .inl (Within.pause s tps)
  | resume tps =>
    obtain rfl := Option.some.inj h
    exact .inl (Within.resume s tps)
  | rebalance r =>
    simp only [step] at h
    split_ifs at h with hc
    obtain rfl := Option.some.inj h
    exact .inr (.inl ⟨r, hc.2.2, rfl⟩)
  | rebalanced modified tpos =>
    obtain ⟨r, hr, h⟩ := Option.bind_eq_some_iff.mp h
    split_ifs at h
    obtain rfl := Option.some.inj h
    exact .inl (Within.rebalanced ho.filed (fun hra => ho.eager (by rw [hr, hra])) modified tpos)
  | main => exact .inl (Within.stepMain ho.filed hi h)
  | opDone =>
    simp only [step] at h
    split_ifs at h
    obtain rfl := Option.some.inj h
    exact .inl (.of_eq rfl rfl rfl)
  | tick tk => exact .inl (Within.stepTick h)
  | checked stale =>
    simp only [step] at h
    split_ifs at h
    · obtain rfl := Option.some.inj h
      exact .inl ((Within.markBatchPayloadsStale s _ false).trans (.of_eq rfl rfl rfl))
    · obtain rfl := Option.some.inj h
      exact .inl (.of_eq rfl rfl rfl)
  | disconnect =>
    obtain rfl := Option.some.inj h
    refine .inl (.trans (t := { s with disconnectStarted := true }) ?_ (Within.resolveWorkerTerminationScheduled _))
    exact ⟨fun _ _ hm => .inl hm, fun w hw _ hm => .inr ⟨w, hw, hm⟩, fun h => (by cases h),
      fun _ => ⟨rfl, List.Subset.refl _⟩, fun h => (by cases h)⟩

theorem Within.owned {cfg : Config} {s t : State} (h : Within s t) (ho : Owned cfg s) : Owned cfg t where
  filed := h.filed ho.filed
  eager hr he := by
    obtain ⟨hre, ha⟩ := h.rebalancing (by rw [hr]; simp)
    exact List.subset_nil.mp (ho.eager (hre ▸ hr) he ▸ ha)
  held hd m hm := (h.assigned hd m (ho.held (h.disconnect hd) m (h.holds hm))).resolve_right (not_not_intro hm)

theorem Owned.step {cfg : Config} {s t : State} {e : Ev} (ho : Owned cfg s) (hi : Inv s)
    (h : step cfg s e = some t) :
    Owned cfg t := by
  rcases holds_step ho hi h with hw | ⟨r, hguard, rfl⟩ | ⟨i, ppc, r, _, hw, hc, hduty, ht, hr⟩
  · exact hw.owned ho
  · refine ⟨ho.filed, fun hre he => by_contra fun hne => hguard ⟨?_, he, hne⟩, ho.held⟩
    exact Option.some.inj hre
  · simp only [State.duty, Prod.mk.injEq] at hduty
    obtain ⟨ha, hd, hre⟩ := hduty
    refine ⟨fun k m hm => ho.filed k m (by rwa [hc] at hm), fun h he => ?_, fun h m hm => ?_⟩
    · rw [ha]
      exact ho.eager (hre ▸ h) he
    · have hs : s.isAssignedTo m := by
        rcases hm with ⟨k, hm⟩ | ⟨x, hx, hm⟩
        · exact ho.held (hd ▸ h) m (.inl ⟨k, by rwa [hc] at hm⟩)
        · rw [ht] at hx
          rcases List.mem_or_eq_of_mem_set hx with hx | rfl
          · exact ho.held (hd ▸ h) m (.inr ⟨x, hx, hm⟩)
          · exact hr m hm
      unfold State.isAssignedTo State.isAssigned at hs ⊢
      rwa [ha]

theorem owned_init (cfg : Config) : Owned cfg (lts cfg).init := by
  have hq : ∀ k, Cache.new.view.queueOf k = ([] : List Message) := fun k =>
    Leases.queueOf_of_not_live fun p hp => by rw [Cache.view_new] at hp; cases hp
  refine ⟨fun k m hm => ?_, fun h => (by cases h), fun _ m hm => ?_⟩
  · have hm : m ∈ Cache.new.view.queueOf k := hm
    rw [hq] at hm; cases hm
  · obtain ⟨k, hm⟩ := hm.queued fun w hw => (by cases hw)
    have hm : m ∈ Cache.new.view.queueOf k := hm
    rw [hq] at hm; cases hm

theorem Owned.run {cfg : Config} {es : List Ev} {s : State} (hr : (lts cfg).Run es s) : Inv s ∧ Owned cfg s :=
  Lts.RunWhere.inv (I := fun s => Inv s ∧ Owned cfg s) ⟨inv_init cfg, owned_init cfg⟩
    (fun _ _ _ h _ hs => ⟨h.1.step hs, h.2.step h.1 hs⟩) hr

/-- Until the consumer is being disconnected, every message on its way to the cache, in the cache or in a
handler is of a partition that is assigned: a partition is given up only when none of its messages is being
handled. -/
theorem held_assigned {cfg : Config} {es : List Ev} {s : State} (hr : (lts cfg).Run es s)
    (hd : s.disconnectStarted = false) {m : Message} (hm : s.Holds m) : s.isAssigned (partitionKey m) = true :=
  (Owned.run hr).2.held hd m hm

def firstHandled : List Ev :=
  [.main, .worker 0, .rebalance .assign, .rebalanced false [⟨"t", 0, 0, -1⟩, ⟨"t", 1, 0, -1⟩],
    .consumed 0 (some []),
    .worker 0, .worker 0, .worker 0, .consumed 0 (some [⟨"t", 0, 0, 0⟩, ⟨"t", 0, 1, 0⟩, ⟨"t", 1, 0, 0⟩]),
      .worker 0, .worker 0]

theorem held_assigned_firstHandled : ∃ s, (lts oneWorker).Run firstHandled s ∧ s.Holds ⟨"t", 0, 0, 0⟩ ∧
    s.isAssigned "t|0" = true := by
  have hs : ((lts oneWorker).exec (fun _ _ => true) (lts oneWorker).init firstHandled).map
      (fun s => (s.workers.map fun w => w.phase.messages, s.disconnectStarted)) = some
      ([[⟨"t", 0, 0, 0⟩]], false) := by
    decide +kernel
  obtain ⟨s, hs, hx⟩ := Option.map_eq_some_iff.mp hs
  obtain ⟨hw, hd⟩ := Prod.mk.inj hx
  have hin : [(⟨"t", 0, 0, 0⟩ : Message)] ∈ s.workers.map fun w => w.phase.messages := by rw [hw]; simp
  obtain ⟨w, hw, hm⟩ := List.mem_map.mp hin
  have hheld : s.Holds ⟨"t", 0, 0, 0⟩ := .inr ⟨w, hw, by rw [hm]; simp⟩
  have hk : partitionKey (⟨"t", 0, 0, 0⟩ : Message) = "t|0" := by decide +kernel
  exact ⟨s, Lts.Run.of_exec hs, hheld, hk ▸ held_assigned (Lts.Run.of_exec hs) hd hheld⟩

/-! ## Nothing stale is handled -/

def Op.Resets (cfg : Config) (s : State) (k : String) : Op → Prop
  | .seek tpo _ => partitionKey tpo = k ∧ s.isAssigned k = true
  | .pause tps => ∃ tp ∈ tps, partitionKey tp = k
  | .resume _ => False
  | .unassign tps => cfg.eager = true ∨ ∃ tp ∈ tps, partitionKey tp = k
  | .clearCacheAndResetPositions => True

theorem Reset.empty {G : String → Int → Prop} {s t : State} (h : Reset G s t) {k : String}
    (hq : s.cache.view.queueOf k = []) : t.cache.view.queueOf k = [] := by
  rcases h.each k with ⟨_, he, _⟩ | ⟨_, he, _⟩
  · exact he
  · exact he.trans hq

theorem seekInternal_empty (s : State) {tpo : TopicPartitionOffset} (ha : s.isAssigned (partitionKey tpo) = true) :
    (s.seekInternal [tpo]).cache.view.queueOf (partitionKey tpo) = [] := by
  have hfold : ∀ (ts : List TopicPartitionOffset) (s : State), tpo ∈ ts →
      (ts.foldl State.seekPartition s).cache.view.queueOf (partitionKey tpo) = [] := by
    intro ts
    induction ts with
    | nil => intro s h; cases h
    | cons t ts ih =>
      intro s h
      rw [List.foldl_cons]
      rcases List.mem_cons.mp h with rfl | h
      · refine Reset.empty (G := fun _ _ => True) (Reset.foldl (fun x _ v _ => .seekPartition v trivial) (.refl _))
          ?_
        exact ((s.cache.markStale_discarded [tpo]).queueOf s.cache.valid _).1 ⟨tpo, by simp, rfl⟩
      · exact ih _ h
  obtain ⟨tp, htp, e⟩ := List.any_eq_true.mp ha
  have e : partitionKey tp = partitionKey tpo := by simpa using e
  exact hfold _ _ (List.mem_filterMap.mpr ⟨tp, htp, by simp [e]⟩)

theorem Op.Resets.empty {cfg : Config} {s : State} {k : String} {op : Op} (h : op.Resets cfg s k) :
    (s.execute cfg op).cache.view.queueOf k = [] := by
  cases op with
  | seek tpo user =>
    obtain ⟨rfl, ha⟩ := h
    cases user with
    | false => exact seekInternal_empty s ha
    | true => exact seekInternal_empty s ha
  | pause tps =>
    exact (Reset.pauseInternal s tps).empty (((s.cache.markStale_discarded tps).queueOf s.cache.valid k).1 h)
  | resume _ => exact h.elim
  | unassign tps =>
    show (s.unassign cfg tps).cache.view.queueOf k = []
    unfold State.unassign
    split_ifs with he
    · exact (s.cache.clear_discarded.queueOf s.cache.valid k).1 trivial
    · exact ((s.cache.markStale_discarded tps).queueOf s.cache.valid k).1 (h.resolve_left he)
  | clearCacheAndResetPositions =>
    exact (Reset.clearCacheAndResetPositions s).empty ((s.cache.clear_discarded.queueOf s.cache.valid k).1 trivial)

theorem step_op {cfg : Config} {s s' : State} {op : Op} {ops : List Op} (hm : s.main = .ops)
    (hop : s.pendingOperations = op :: ops) (hs : step cfg s .main = some s') :
    s'.main = .op ∧ s'.cache = (({ s with pendingOperations := ops } : State).execute cfg op).cache := by
  replace hs : stepMain cfg s = some s' := hs
  unfold stepMain at hs
  split at hs
  · next h => rw [hm] at h; cases h
  · next h => rw [hm] at h; cases h
  · next h => rw [hm] at h; cases h
  · split at hs
    · next h => rw [hop] at h; cases h
    · next h =>
      rw [hop] at h
      obtain ⟨rfl, rfl⟩ := List.cons.inj h
      obtain rfl := Option.some.inj hs
      exact ⟨rfl, rfl⟩
  · cases hs
  · cases hs

theorem Op.Resets.withOperations {cfg : Config} {s : State} {k : String} {op : Op} (h : op.Resets cfg s k)
    (ops : List Op) :
    op.Resets cfg { s with pendingOperations := ops } k := by
  cases op <;> exact h

/-- After an operation that resets a partition, no message is held of it, and so none is handled, that `consume` had
returned before: each is returned by a later call. -/
theorem handled_consumed_after {cfg : Config} {es fs : List Ev} {s s' t : State} {op : Op}
    {ops : List Op} {k : String}
    (hr : (lts cfg).Run es s) (hm : s.main = .ops) (hop : s.pendingOperations = op :: ops) (hk : op.Resets cfg s k)
    (hs : step cfg s .main = some s') (hrun : (⟨s', step cfg⟩ : Lts State Ev).Run fs t) :
    ∀ m, t.Holds m → partitionKey m = k → ∃ i r, Ev.consumed i (some r) ∈ fs ∧ m ∈ r := by
  obtain ⟨hi, ho⟩ := Owned.run hr
  suffices h : Inv t ∧ Owned cfg t ∧
      ∀ m, t.Holds m → partitionKey m = k → ∃ i r, Ev.consumed i (some r) ∈ fs ∧ m ∈ r from h.2.2
  induction hrun with
  | nil =>
    refine ⟨hi.step hs, ho.step hi hs, fun m hheld hmk => ?_⟩
    obtain ⟨hmain, hcache⟩ := step_op hm hop hs
    have hempty : s'.cache.view.queueOf k = [] := by
      rw [hcache]
      exact (hk.withOperations ops).empty
    have hidle : ∀ w ∈ s'.workers, w.phase.messages = [] := fun w hw => by
      rw [(hi.step hs).ended (by rw [hmain]; decide) w hw]
      rfl
    obtain ⟨k', hq⟩ := hheld.queued hidle
    obtain rfl := (ho.step hi hs).filed k' m hq
    rw [hmk, hempty] at hq
    cases hq
  | @snoc fs t t' e hrun _ hstep ih =>
    obtain ⟨hi', ho', hsince⟩ := ih
    refine ⟨hi'.step hstep, ho'.step hi' hstep, fun m hheld hmk => ?_⟩
    have hmore : t.Holds m → ∃ i r, Ev.consumed i (some r) ∈ fs ++ [e] ∧ m ∈ r := fun h => by
      obtain ⟨i, r, hin, hmr⟩ := hsince m h hmk
      exact ⟨i, r, List.mem_append_left _ hin, hmr⟩
    rcases holds_step ho' hi' hstep with hw | ⟨r, _, rfl⟩ | ⟨i, ppc, r, rfl, _, hc, _, ht, _⟩
    · exact hmore (hw.holds hheld)
    · exact hmore hheld
    · rcases hheld with ⟨k', hq⟩ | ⟨x, hx, hx'⟩
      · exact hmore (.inl ⟨k', by rwa [hc] at hq⟩)
      · rw [ht] at hx
        rcases List.mem_or_eq_of_mem_set hx with hx | rfl
        · exact hmore (.inr ⟨x, hx, hx'⟩)
        · cases r with
          | none => cases hx'
          | some ms => exact ⟨i, ms, List.mem_append_right _ List.mem_cons_self, hx'⟩

/-- The handler of the first message pauses the second partition, of which a message is cached. -/
def secondPaused : List Ev :=
  firstHandled ++ [.pause [⟨"t", 1⟩], .handled 0 true true, .worker 0, .main, .tick .early, .main]

/-- The worker handles the message that is left, and then one that the next `consume` returns. -/
def afterPause : List Ev :=
  [.opDone, .main, .main, .worker 0, .worker 0, .handled 0 true true, .worker 0, .consumed 0
    (some [⟨"t", 1, 1, 0⟩]),
    .worker 0, .worker 0]

theorem handled_consumed_after_pause : ∃ s s' t, (lts oneWorker).Run secondPaused s ∧
    step oneWorker s .main = some s' ∧
    (⟨s', step oneWorker⟩ : Lts State Ev).Run afterPause t ∧ t.Holds ⟨"t", 1, 1, 0⟩ ∧
      ∃ i r, Ev.consumed i (some r) ∈ afterPause ∧ ⟨"t", 1, 1, 0⟩ ∈ r := by
  have hs : ((lts oneWorker).exec (fun _ _ => true) (lts oneWorker).init secondPaused).map
      (fun s => (s.main, s.pendingOperations)) = some (.ops, [.pause [⟨"t", 1⟩]]) := by decide +kernel
  have ht : (((lts oneWorker).exec (fun _ _ => true) (lts oneWorker).init secondPaused).bind fun s =>
      (step oneWorker s .main).bind fun s' => (⟨s', step oneWorker⟩ : Lts State Ev).exec (fun _ _ =>
        true) s' afterPause).map
        (fun t => t.workers.map fun w => w.phase.messages) = some [[⟨"t", 1, 1, 0⟩]] := by decide +kernel
  obtain ⟨s, hs, hx⟩ := Option.map_eq_some_iff.mp hs
  obtain ⟨hm, hop⟩ := Prod.mk.inj hx
  obtain ⟨t, ht, hw⟩ := Option.map_eq_some_iff.mp ht
  rw [hs, Option.bind_some] at ht
  obtain ⟨s', hstep, ht⟩ := Option.bind_eq_some_iff.mp ht
  have hin : [(⟨"t", 1, 1, 0⟩ : Message)] ∈ t.workers.map fun w => w.phase.messages := by rw [hw]; simp
  obtain ⟨w, hw, hm'⟩ := List.mem_map.mp hin
  have hheld : t.Holds ⟨"t", 1, 1, 0⟩ := .inr ⟨w, hw, by rw [hm']; simp⟩
  have hk : partitionKey (⟨"t", 1, 1, 0⟩ : Message) = "t|1" := by decide +kernel
  have hk' : partitionKey (⟨"t", 1⟩ : TopicPartition) = "t|1" := by decide +kernel
  exact ⟨s, s', t, Lts.Run.of_exec hs, hstep, Lts.Run.of_exec ht, hheld,
    handled_consumed_after (Lts.Run.of_exec hs) hm hop ⟨_, List.mem_singleton_self _, hk'⟩ hstep
      (Lts.Run.of_exec ht)
      _ hheld hk⟩

end Consumer

end ConfluentKafka
