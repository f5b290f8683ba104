import ConfluentKafka.RunOps

/-!
# A batch in its handler

`#batchProcessor` around the handler of the application. The handler resolves
offsets of the batch in any order, as often as it wants, and the rest of the
consumer goes on meanwhile and may mark the batch stale. Whatever is not
resolved in the end is read again. `processing_of_run` shows that the runs of
the consumer do to a batch what is assumed here of its surroundings.
-/

namespace ConfluentKafka

namespace Consumer

/-- A batch in its handler; `handed` are the offsets handed to `_offsetsStoreSingle` so far. -/
structure Processing where
  state : State
  batch : Batch
  handed : List Int

/-- While a handler runs it resolves offsets, and the rest of the consumer takes its steps, which may leave it
in any state and the batch stale. A seek of the partition is not among them. -/
inductive HandlerEv where
  | resolveOffset (offset leaderEpoch : Int) (stored : Bool)
  | elsewhere (state : State) (stale : Bool)

namespace Processing

def start (s : State) (ms : List Message) (ppc : Nat) : Processing := ⟨s, ⟨ms, ppc, -1, -1, false, false⟩, []⟩

def resolveOffset (p : Processing) (offset leaderEpoch : Int) (stored : Bool) : Processing :=
  let (state, batch) := p.state.resolveOffset p.batch offset leaderEpoch stored
  ⟨state, batch, p.handed ++ if offset ≤ p.batch.lastResolvedOffset then [] else [offset + 1]⟩

def step (p : Processing) : HandlerEv → Processing
  | .resolveOffset offset leaderEpoch stored => p.resolveOffset offset leaderEpoch stored
  | .elsewhere state stale => ⟨state, { p.batch with stale := p.batch.stale || stale }, p.handed⟩

def run (p : Processing) (es : List HandlerEv) : Processing := es.foldl step p

/-- The handler has returned or thrown, and the batch is perhaps resolved to its end. -/
def returned (cfg : Config) (p : Processing) (last : Message) (processed stored : Bool) : Processing :=
  if processed ∧ cfg.eachBatchAutoResolve ∧ !p.batch.stale then p.resolveOffset last.offset last.leaderEpoch stored
  else p

theorem resolveOffset_cases {p : Processing} (hne : p.batch.messages ≠ []) (offset leaderEpoch : Int)
    (stored : Bool) :
    (offset ≤ p.batch.lastResolvedOffset ∧ (p.resolveOffset offset leaderEpoch stored).batch = p.batch ∧
      (p.resolveOffset offset leaderEpoch stored).handed = p.handed) ∨
    (p.batch.lastResolvedOffset < offset ∧
      (p.resolveOffset offset leaderEpoch stored).batch =
        { p.batch with lastResolvedOffset := offset, lastResolvedEpoch := leaderEpoch } ∧
      (p.resolveOffset offset leaderEpoch stored).handed = p.handed ++ [offset + 1]) := by
  have hbatch : (p.resolveOffset offset leaderEpoch stored).batch = if offset ≤
    p.batch.lastResolvedOffset then p.batch
      else { p.batch with lastResolvedOffset := offset, lastResolvedEpoch := leaderEpoch } := by
    show (p.state.resolveOffset p.batch offset leaderEpoch stored).2 = _
    unfold State.resolveOffset
    split
    · next hnil => exact absurd hnil hne
    · exact apply_ite Prod.snd _ _ _
  have hhanded : (p.resolveOffset offset leaderEpoch stored).handed =
      p.handed ++ if offset ≤ p.batch.lastResolvedOffset then [] else [offset + 1] := rfl
  by_cases hle : offset ≤ p.batch.lastResolvedOffset
  · rw [if_pos hle] at hbatch hhanded
    exact .inl ⟨hle, hbatch, hhanded.trans (List.append_nil _)⟩
  · rw [if_neg hle] at hbatch hhanded
    exact .inr ⟨Int.not_le.mp hle, hbatch, hhanded⟩

end Processing

def resolveCalls (es : List HandlerEv) : List Int :=
  es.filterMap fun
    | .resolveOffset offset _ _ => some offset
    | .elsewhere _ _ => none

/-! ## What a handler keeps -/

/-- What is known of a batch with the messages `ms` while it is in its handler. -/
structure Resolving (ms : List Message) (p : Processing) : Prop where
  messages : p.batch.messages = ms
  seeked : p.batch.seeked = false
  last : p.batch.lastResolvedOffset = -1 ∨ ∃ m ∈ ms, m.offset = p.batch.lastResolvedOffset
  ordered : p.handed.Pairwise (· < ·)
  bounded : ∀ o ∈ p.handed, o ≤ p.batch.lastResolvedOffset + 1

namespace Resolving

variable {ms : List Message} {p : Processing}

theorem start (s : State) (ms : List Message) (ppc : Nat) : Resolving ms (.start s ms ppc) :=
  ⟨rfl, rfl, .inl rfl, .nil, fun o h => by cases h⟩

theorem resolveOffset (h : Resolving ms p) {offset : Int} (ho : ∃ m ∈ ms, m.offset = offset) (leaderEpoch : Int)
    (stored : Bool) : Resolving ms (p.resolveOffset offset leaderEpoch stored) ∧
      p.batch.lastResolvedOffset ≤ (p.resolveOffset offset leaderEpoch stored).batch.lastResolvedOffset ∧
      offset ≤ (p.resolveOffset offset leaderEpoch stored).batch.lastResolvedOffset := by
  obtain ⟨m, hm, hmo⟩ := ho
  have hne : p.batch.messages ≠ [] := h.messages ▸ List.ne_nil_of_mem hm
  rcases Processing.resolveOffset_cases hne offset leaderEpoch stored with ⟨hle, hb, hh⟩ | ⟨hlt, hb, hh⟩
  · rw [hb]
    refine ⟨⟨hb ▸ h.messages, hb ▸ h.seeked, hb ▸ h.last, hh ▸ h.ordered, ?_⟩, Int.le_refl _, hle⟩
    rw [hb, hh]
    exact h.bounded
  · rw [hb]
    refine ⟨⟨hb ▸ h.messages, hb ▸ h.seeked, hb ▸ .inr ⟨m, hm, hmo⟩, ?_, ?_⟩, Int.le_of_lt hlt, Int.le_refl _⟩
    · -- what was handed over before is at most the last resolved offset plus one
      rw [hh]
      refine List.pairwise_append.mpr ⟨h.ordered, List.pairwise_singleton _ _, ?_⟩
      intro o hold o' hnew
      obtain rfl := List.mem_singleton.mp hnew
      have := h.bounded o hold
      omega
    · rw [hb, hh]
      intro o hmem
      rcases List.mem_append.mp hmem with hold | hnew
      · have := h.bounded o hold
        show o ≤ offset + 1
        omega
      · exact Int.le_of_eq (List.mem_singleton.mp hnew)

theorem elsewhere (h : Resolving ms p) (state : State) (stale : Bool) :
    Resolving ms (p.step (.elsewhere state stale)) :=
  ⟨h.messages, h.seeked, h.last, h.ordered, h.bounded⟩

theorem run {es : List HandlerEv} (h : Resolving ms p) (hes : ∀ o ∈ resolveCalls es, ∃ m ∈ ms, m.offset = o) :
    Resolving ms (p.run es) ∧ p.batch.lastResolvedOffset ≤ (p.run es).batch.lastResolvedOffset ∧
      ∀ o ∈ resolveCalls es, o ≤ (p.run es).batch.lastResolvedOffset := by
  induction es generalizing p with
  | nil => exact ⟨h, Int.le_refl _, fun o ho => by cases ho⟩
  | cons e es ih =>
    cases e with
    | resolveOffset offset leaderEpoch stored =>
      obtain ⟨hstep, hmono, hle⟩ := h.resolveOffset (hes offset (List.mem_cons_self ..)) leaderEpoch stored
      obtain ⟨hrun, hmono', hall⟩ := ih hstep fun o ho => hes o (List.mem_cons_of_mem _ ho)
      refine ⟨hrun, Int.le_trans hmono hmono', fun o ho => ?_⟩
      rcases List.mem_cons.mp ho with rfl | ho
      · exact Int.le_trans hle hmono'
      · exact hall o ho
    | elsewhere state stale => exact ih (h.elsewhere state stale) hes

theorem returned (h : Resolving ms p) {last : Message} (hlast : last ∈ ms) (cfg : Config)
    (processed stored : Bool) :
    Resolving ms (p.returned cfg last processed stored) := by
  unfold Processing.returned
  split
  · exact (h.resolveOffset ⟨last, hlast, rfl⟩ last.leaderEpoch stored).1
  · exact h

end Resolving

/-! ## The end of the batch -/

theorem pendingOperations_resolveWorkerTerminationScheduled (s : State) :
    s.resolveWorkerTerminationScheduled.pendingOperations = s.pendingOperations := by
  unfold State.resolveWorkerTerminationScheduled State.queueNonEmptyCb
  simp only
  split
  · rfl
  · rw [notifyNonEmpty_eq]

theorem pendingOperations_seek (s : State) (tpo : TopicPartitionOffset) (user : Bool) :
    (s.seek tpo user).pendingOperations = s.pendingOperations ++ [.seek tpo user] := by
  unfold State.seek State.addPendingOperation
  simp only
  split
  · rw [pendingOperations_resolveWorkerTerminationScheduled]
    rfl
  · rfl

/-- All messages are resolved and nothing is queued, or a seek is queued to an offset after the last resolved
one and not after the first message that is not resolved. -/
def AtLeastOnce (ms : List Message) (lastResolved : Int) (before after : List Op) : Prop :=
  (∀ m ∈ ms, m.offset ≤ lastResolved) ∧ after = before ∨
    ∃ tpo : TopicPartitionOffset, (∀ m ∈ ms, tpo.topic = m.topic ∧ tpo.partition = m.partition) ∧
      after = before ++ [.seek tpo false] ∧ lastResolved < tpo.offset ∧
      ∃ m ∈ ms, lastResolved < m.offset ∧ (∀ m' ∈ ms, lastResolved < m'.offset → m.offset ≤ m'.offset) ∧
        tpo.offset ≤ m.offset

theorem exists_first_unresolved {ms : List Message} {o : Int} (h : ∃ m ∈ ms, o < m.offset) :
    ∃ m ∈ ms, o < m.offset ∧ ∀ m' ∈ ms, o < m'.offset → m.offset ≤ m'.offset := by
  induction ms with
  | nil =>
    obtain ⟨m, hm, _⟩ := h
    cases hm
  | cons x ms ih =>
    by_cases hrest : ∃ m ∈ ms, o < m.offset
    · obtain ⟨m, hm, hlt, hmin⟩ := ih hrest
      by_cases hx : o < x.offset ∧ x.offset < m.offset
      · refine ⟨x, List.mem_cons_self .., hx.1, fun m' hm' hlt' => ?_⟩
        rcases List.mem_cons.mp hm' with rfl | hm'
        · exact Int.le_refl _
        · have := hmin m' hm' hlt'
          omega
      · refine ⟨m, List.mem_cons_of_mem _ hm, hlt, fun m' hm' hlt' => ?_⟩
        rcases List.mem_cons.mp hm' with rfl | hm'
        · omega
        · exact hmin m' hm' hlt'
    · obtain ⟨m, hm, hlt⟩ := h
      have hm : m = x := by
        rcases List.mem_cons.mp hm with rfl | hm
        · rfl
        · exact absurd ⟨m, hm, hlt⟩ hrest
      subst hm
      refine ⟨m, List.mem_cons_self .., hlt, fun m' hm' hlt' => ?_⟩
      rcases List.mem_cons.mp hm' with rfl | hm'
      · exact Int.le_refl _
      · exact absurd ⟨m', hm', hlt'⟩ hrest

section

variable {ms : List Message} {first last : Message}

theorem offset_le_last (hord : ms.Pairwise fun m m' => m.offset < m'.offset) (hlast : ms.getLast? = some last) :
    ∀ m ∈ ms, m.offset ≤ last.offset := by
  obtain ⟨init, rfl⟩ := List.getLast?_eq_some_iff.mp hlast
  intro m hm
  rcases List.mem_append.mp hm with hm | hm
  · exact Int.le_of_lt ((List.pairwise_append.mp hord).2.2 m hm last (List.mem_singleton_self last))
  · exact Int.le_of_eq (congrArg Message.offset (List.mem_singleton.mp hm))

theorem first_le_offset (hord : ms.Pairwise fun m m' => m.offset < m'.offset) (hfirst : ms.head? = some first) :
    ∀ m ∈ ms, first.offset ≤ m.offset := by
  obtain ⟨rest, rfl⟩ := List.head?_eq_some_iff.mp hfirst
  intro m hm
  rcases List.mem_cons.mp hm with rfl | hm
  · exact Int.le_refl _
  · exact Int.le_of_lt ((List.pairwise_cons.mp hord).1 m hm)

/-- What `#batchProcessor` does last, for a batch that nobody seeked. -/
theorem Resolving.seekUnresolved {p : Processing} (h : Resolving ms p) (hfirst : ms.head? = some first)
    (hlast : ms.getLast? = some last) (hpos : ∀ m ∈ ms, 0 ≤ m.offset)
    (hone : ∀ m ∈ ms, first.topic = m.topic ∧ first.partition = m.partition)
    (hord : ms.Pairwise fun m m' => m.offset < m'.offset) (s : State) :
    AtLeastOnce ms p.batch.lastResolvedOffset s.pendingOperations
      (s.seekUnresolved p.batch first last).pendingOperations := by
  have hle := offset_le_last hord hlast
  have hfm : first ∈ ms := List.mem_of_head? hfirst
  have hlm : last ∈ ms := List.mem_of_getLast? hlast
  unfold State.seekUnresolved
  rw [h.seeked]
  by_cases hres : p.batch.lastResolvedOffset = last.offset
  · rw [if_neg (fun hne => hne.2 hres)]
    exact .inl ⟨fun m hm => hres ▸ hle m hm, rfl⟩
  · rw [if_pos ⟨rfl, hres⟩]
    have hunresolved : p.batch.lastResolvedOffset < last.offset := by
      rcases h.last with hnone | ⟨m, hm, hmo⟩
      · have := hpos last hlm
        omega
      · have := hle m hm
        omega
    obtain ⟨m, hm, hlt, hmin⟩ := exists_first_unresolved ⟨last, hlm, hunresolved⟩
    right
    split
    · -- nothing is resolved: the first message is the first unresolved one
      next hnone =>
      refine ⟨_, hone, pendingOperations_seek s _ false, ?_, m, hm, hlt, hmin, first_le_offset hord hfirst m hm⟩
      have := hpos first hfm
      show p.batch.lastResolvedOffset < first.offset
      omega
    · refine ⟨_, hone, pendingOperations_seek s _ false, ?_, m, hm, hlt, hmin, ?_⟩
      · show p.batch.lastResolvedOffset < p.batch.lastResolvedOffset + 1
        omega
      · show p.batch.lastResolvedOffset + 1 ≤ m.offset
        omega

end

theorem batchProcessed_eq (cfg : Config) (p : Processing) (i : Nat) (first last : Message)
    (processed stored : Bool) :
    p.state.batchProcessed cfg i p.batch first last processed stored =
      ((p.returned cfg last processed stored).state.setWorker i
        ⟨some (p.returned cfg last processed stored).batch.ppc, .top⟩).seekUnresolved
        (p.returned cfg last processed stored).batch first last := by
  unfold State.batchProcessed Processing.returned
  by_cases h : processed = true ∧ cfg.eachBatchAutoResolve = true ∧ (!p.batch.stale) = true
  · simp only [if_pos h]
    rfl
  · simp only [if_neg h]

theorem pendingOperations_returned (cfg : Config) (p : Processing) (last : Message) (processed stored : Bool) :
    (p.returned cfg last processed stored).state.pendingOperations = p.state.pendingOperations := by
  unfold Processing.returned
  split
  · unfold Processing.resolveOffset
    obtain ⟨l, b', he, _, _⟩ := resolveOffset_eq p.state p.batch last.offset last.leaderEpoch stored
    rw [he]
  · rfl

theorem stepHandled_eq {cfg : Config} (hcfg : cfg.eachMessage = false) {b : Batch} {first last : Message}
    (hfirst : b.messages.head? = some first) (hlast : b.messages.getLast? = some last) (s : State) (i : Nat)
    (processed stored : Bool) : stepHandled cfg s i b processed stored =
      some (s.batchProcessed cfg i b first last processed stored) := by
  obtain ⟨rest, hb⟩ := List.head?_eq_some_iff.mp hfirst
  unfold stepHandled
  rw [hlast, hb]
  simp only [hcfg, Bool.false_eq_true, if_false]

/-- However its offsets are resolved and whenever it becomes stale, a batch is resolved to its end or read
again from after its last resolved offset on, and the offsets are stored in order, none beyond the last
resolved one. -/
theorem each_batch_at_least_once {cfg : Config} (hcfg : cfg.eachMessage = false) {ms : List Message} (hne : ms ≠ [])
    (hpos : ∀ m ∈ ms, 0 ≤ m.offset) (hone : ∀ m ∈ ms, ∀ m' ∈ ms, m.topic = m'.topic ∧ m.partition = m'.partition)
    (hord : ms.Pairwise fun m m' => m.offset < m'.offset) (s : State) (ppc i : Nat) {es : List HandlerEv}
    (hes : ∀ o ∈ resolveCalls es, ∃ m ∈ ms, m.offset = o) (processed stored : Bool) :
    let p := (Processing.start s ms ppc).run es
    let q := p.returned cfg (ms.getLast hne) processed stored
    ∃ t, stepHandled cfg p.state i p.batch processed stored = some t ∧
      AtLeastOnce ms q.batch.lastResolvedOffset p.state.pendingOperations t.pendingOperations ∧
      (∀ o ∈ resolveCalls es, o ≤ q.batch.lastResolvedOffset) ∧ q.handed.Pairwise (· < ·) ∧
      ∀ o ∈ q.handed, o ≤ q.batch.lastResolvedOffset + 1 := by
  intro p q
  obtain ⟨first, rest, hms⟩ := List.exists_cons_of_ne_nil hne
  have hfirst : ms.head? = some first := by rw [hms]; rfl
  have hlast : ms.getLast? = some (ms.getLast hne) := List.getLast?_eq_some_getLast hne
  obtain ⟨hp, _, hcalls⟩ := (Resolving.start s ms ppc).run hes
  have hq : Resolving ms q := hp.returned (List.getLast_mem hne) cfg processed stored
  refine ⟨p.state.batchProcessed cfg i p.batch first (ms.getLast hne) processed stored, ?_, ?_, ?_,
    hq.ordered, hq.bounded⟩
  · exact stepHandled_eq hcfg (by rw [hp.messages, hfirst]) (by rw [hp.messages, hlast]) p.state i processed stored
  · rw [batchProcessed_eq, ← pendingOperations_returned cfg p (ms.getLast hne) processed stored]
    exact hq.seekUnresolved hfirst hlast hpos (fun m hm => hone first (List.mem_of_head? hfirst) m hm) hord _
  · intro o ho
    refine Int.le_trans (hcalls o ho) ?_
    show _ ≤ (p.returned cfg (ms.getLast hne) processed stored).batch.lastResolvedOffset
    unfold Processing.returned
    split
    · exact (hp.resolveOffset ⟨_, List.getLast_mem hne, rfl⟩ _ stored).2.1
    · exact Int.le_refl _

def autoResolving : Config := ⟨false, true, false, 3, by decide, 1, false, fun _ _ => true⟩

def sampleBatch : List Message := [⟨"t", 0, 5, 0⟩, ⟨"t", 0, 7, 0⟩, ⟨"t", 0, 9, 0⟩]

/-- Two of three messages are resolved, the later one first, and the batch becomes stale before its handler
returns. -/
theorem each_batch_stale : ∃ t,
    stepHandled autoResolving (lts autoResolving).init 0 ⟨sampleBatch, 0, 7, 0, true, false⟩ true true = some t ∧
      AtLeastOnce sampleBatch 7 [] t.pendingOperations := by
  have hcfg : autoResolving.eachMessage = false := rfl
  have hne : sampleBatch ≠ [] := by decide
  have hcalls : ∀ o ∈ resolveCalls [.resolveOffset 7 0 true, .resolveOffset 5 0 true,
      .elsewhere (lts autoResolving).init true], ∃ m ∈ sampleBatch, m.offset = o := by decide
  obtain ⟨t, ht, hrest, _⟩ := each_batch_at_least_once hcfg hne (by decide) (by decide) (by decide)
    (lts autoResolving).init 0 0 hcalls true true
  exact ⟨t, ht, hrest⟩

/-! ## In the runs of the consumer -/

def Marked (i : Nat) (s t : State) : Prop :=
  ∀ ppc b, s.workers[i]? = some ⟨ppc, .handling b⟩ → ∃ stale seeked, t.workers[i]? =
    some ⟨ppc, .handling { b with stale := b.stale || stale, seeked := b.seeked || seeked }⟩

namespace Marked

variable {i : Nat} {s t u : State}

theorem of_eq (h : t.workers[i]? = s.workers[i]?) : Marked i s t := by
  intro ppc b hw
  refine ⟨false, false, ?_⟩
  rw [h, hw, Bool.or_false, Bool.or_false]

theorem trans (h : Marked i s t) (h' : Marked i t u) : Marked i s u := by
  intro ppc b hw
  obtain ⟨stale, seeked, ht⟩ := h ppc b hw
  obtain ⟨stale', seeked', hu⟩ := h' ppc _ ht
  refine ⟨stale || stale', seeked || seeked', ?_⟩
  rw [hu, Bool.or_assoc, Bool.or_assoc]

theorem setWorker {j : Nat} (hij : i ≠ j) (s : State) (w : Worker) : Marked i s (s.setWorker j w) :=
  of_eq (List.getElem?_set_ne hij.symm)

theorem queueNonEmptyCb (s : State) : Marked i s s.queueNonEmptyCb := by
  refine of_eq ?_
  unfold State.queueNonEmptyCb
  simp only
  split
  · rfl
  · rw [notifyNonEmpty_eq]

theorem addPendingOperation (s : State) (op : Op) : Marked i s (s.addPendingOperation op) := by
  unfold State.addPendingOperation
  split
  · exact (queueNonEmptyCb { s with workerTerminationScheduled := true }).trans (of_eq rfl)
  · exact of_eq rfl

theorem markBatchPayloadsStale {τ : Type} [Toppar τ] (s : State) (tps : List τ) (isSeek : Bool) :
    Marked i s (s.markBatchPayloadsStale tps isSeek) := by
  intro ppc b hw
  by_cases hm : (b.messages.any fun m => tps.any fun tp => partitionKey m = partitionKey tp) = true
  · refine ⟨true, isSeek, ?_⟩
    unfold State.markBatchPayloadsStale
    simp only [List.getElem?_map, hw, Option.map_some, if_pos hm, Bool.or_true]
  · refine ⟨false, false, ?_⟩
    unfold State.markBatchPayloadsStale
    simp only [List.getElem?_map, hw, Option.map_some, if_neg hm, Bool.or_false]

theorem seek (s : State) (tpo : TopicPartitionOffset) (user : Bool) : Marked i s (s.seek tpo user) :=
  (markBatchPayloadsStale s [tpo] true).trans (addPendingOperation _ _)

theorem rebalanced (cfg : Config) (s : State) (r : Rebalance) (modified : Bool) (tpos : List TopicPartitionOffset) :
    Marked i s (s.rebalanced cfg r modified tpos) := by
  have hend : ∀ s : State, Marked i s (s.endRebalance cfg) := by
    intro s
    unfold State.endRebalance
    split
    · exact (queueNonEmptyCb { s with workerTerminationScheduled := true }).trans (of_eq rfl)
    · exact of_eq rfl
  unfold State.rebalanced
  cases r with
  | assign => exact (of_eq (by rw [(Executed.assign cfg s modified tpos).workers])).trans (hend _)
  | revoke =>
    refine Marked.trans ?_ (hend _)
    split
    · exact of_eq (by rw [(Executed.unassign cfg s _).workers])
    · exact addPendingOperation s _

theorem stepTick {tk : Tick} (h : stepTick s tk = some t) : Marked i s t := by
  unfold Consumer.stepTick at h
  split_ifs at h
  · obtain rfl := Option.some.inj h
    exact of_eq rfl
  · cases tk with
    | cacheExpired =>
      obtain rfl := Option.some.inj h
      exact (of_eq rfl : Marked i s { s with expiration := .check }).trans (addPendingOperation _ _)
    | fetchDue =>
      obtain rfl := Option.some.inj h
      exact of_eq (by rw [notifyNonEmpty_eq])
    | early =>
      obtain rfl := Option.some.inj h
      exact of_eq rfl

theorem pause (s : State) (tps : List TopicPartition) : Marked i s (s.pause tps) := by
  unfold State.pause
  split
  · exact of_eq rfl
  · exact (markBatchPayloadsStale s tps false).trans (addPendingOperation _ _)

theorem resume (s : State) (tps : List TopicPartition) : Marked i s (s.resume tps) := by
  unfold State.resume
  split
  · exact of_eq rfl
  · exact addPendingOperation _ _

section Handling

variable {cfg : Config} {ppc : Option Nat} {b : Batch} {j : Nat} (hw : s.workers[i]? = some ⟨ppc, .handling b⟩)
include hw

theorem worker (h : step cfg s (.worker j) = some t) : Marked i s t := by
  obtain ⟨w, hj, h⟩ := Option.bind_eq_some_iff.mp h
  have hij : i ≠ j := by
    rintro rfl
    obtain rfl := Option.some.inj (hw.symm.trans hj)
    cases h
  obtain ⟨w', hmoved, _⟩ := stepWorker_moved h
  refine of_eq ?_
  rw [hmoved.workers, List.getElem?_set_ne hij.symm]

theorem consumed {r : Option (List Message)} (h : step cfg s (.consumed j r) = some t) : Marked i s t := by
  simp only [Consumer.step] at h
  split at h
  · next hj =>
    obtain ⟨position, _, rfl⟩ := Option.map_eq_some_iff.mp h
    have hij : i ≠ j := by
      rintro rfl
      rw [hw] at hj
      cases hj
    exact setWorker hij { s with position } _
  · cases h

theorem resolveOffset {offset leaderEpoch : Int} {stored : Bool}
    (h : step cfg s (.resolveOffset j offset leaderEpoch stored) = some t) :
    (i = j ∧ t = (s.resolveOffset b offset leaderEpoch stored).1.setWorker i
      ⟨ppc, .handling (s.resolveOffset b offset leaderEpoch stored).2⟩) ∨ i ≠ j ∧ Marked i s t := by
  simp only [Consumer.step] at h
  split at h
  · next ppc' b' hj =>
    split_ifs at h
    obtain rfl := Option.some.inj h
    by_cases hij : i = j
    · subst hij
      obtain ⟨rfl, rfl⟩ : ppc = ppc' ∧ b = b' := by
        have := hw.symm.trans hj
        simpa using this
      exact .inl ⟨rfl, rfl⟩
    · refine .inr ⟨hij, ?_⟩
      obtain ⟨l, b'', he, _, _⟩ := resolveOffset_eq s b' offset leaderEpoch stored
      rw [he]
      exact setWorker hij { s with lastConsumedOffsets := l } _
  · cases h

/-- A worker that is not done keeps the main loop waiting. -/
theorem not_main (hi : Inv s) : step cfg s .main ≠ some t := by
  intro h
  have hm := hi.floor.running hw (by simp)
  have h : stepMain cfg s = some t := h
  unfold stepMain at h
  rw [hm] at h
  simp only at h
  split_ifs at h with hall
  have := List.all_eq_true.mp hall _ (List.mem_of_getElem? hw)
  simp at this

end Handling

theorem handled {cfg : Config} {j : Nat} {processed stored : Bool} (hij : i ≠ j)
    (h : step cfg s (.handled j processed stored) = some t) : Marked i s t := by
  simp only [Consumer.step] at h
  split at h
  · obtain ⟨_, _, l, _, _, _, rfl | ⟨_, _, _, rfl⟩⟩ := stepHandled_cases h
    · exact setWorker hij { s with lastConsumedOffsets := l } _
    · exact (setWorker hij { s with lastConsumedOffsets := l } _).trans (seek _ _ _)
  · cases h

end Marked

def Ev.resolves (i : Nat) : Ev → Option Int
  | .resolveOffset j offset _ _ => if j = i then some offset else none
  | _ => none

/-- The steps of the consumer while a worker has a batch in its handler. -/
theorem step_handling {cfg : Config} {s t : State} (hi : Inv s) {i : Nat} {ppc : Option Nat} {b : Batch} {e : Ev}
    (hw : s.workers[i]? = some ⟨ppc, .handling b⟩) (h : step cfg s e = some t) :
    (∃ processed stored, e = .handled i processed stored) ∨
      (∃ offset leaderEpoch stored, e = .resolveOffset i offset leaderEpoch stored ∧
        t = (s.resolveOffset b offset leaderEpoch stored).1.setWorker i
          ⟨ppc, .handling (s.resolveOffset b offset leaderEpoch stored).2⟩) ∨
      e.resolves i = none ∧ Marked i s t := by
  cases e with
  | worker j => exact .inr (.inr ⟨rfl, .worker hw h⟩)
  | consumed j r => exact .inr (.inr ⟨rfl, .consumed hw h⟩)
  | resolveOffset j offset leaderEpoch stored =>
    rcases Marked.resolveOffset hw h with ⟨rfl, ht⟩ | ⟨hij, hmark⟩
    · exact .inr (.inl ⟨offset, leaderEpoch, stored, rfl, ht⟩)
    · exact .inr (.inr ⟨if_neg fun h => hij h.symm, hmark⟩)
  | handled j processed stored =>
    by_cases hij : i = j
    · subst hij
      exact .inl ⟨processed, stored, rfl⟩
    · exact .inr (.inr ⟨rfl, .handled hij h⟩)
  | queueNonEmpty =>
    obtain rfl := Option.some.inj h
    exact .inr (.inr ⟨rfl, .queueNonEmptyCb s⟩)
  | callback j =>
    simp only [Consumer.step] at h
    split at h
    · split_ifs at h
      obtain rfl := Option.some.inj h
      exact .inr (.inr ⟨rfl, .of_eq (by rw [notifyNonEmpty_eq])⟩)
    · cases h
  | seek tpo =>
    simp only [Consumer.step] at h
    split_ifs at h
    obtain rfl := Option.some.inj h
    exact .inr (.inr ⟨rfl, .seek s tpo true⟩)
  | pause tps =>
    obtain rfl := Option.some.inj h
    exact .inr (.inr ⟨rfl, .pause s tps⟩)
  | resume tps =>
    obtain rfl := Option.some.inj h
    exact .inr (.inr ⟨rfl, .resume s tps⟩)
  | rebalance r =>
    simp only [Consumer.step] at h
    split_ifs at h
    obtain rfl := Option.some.inj h
    exact .inr (.inr ⟨rfl, .of_eq rfl⟩)
  | rebalanced modified tpos =>
    obtain ⟨r, hr, h⟩ := Option.bind_eq_some_iff.mp h
    split_ifs at h
    obtain rfl := Option.some.inj h
    exact .inr (.inr ⟨rfl, .rebalanced cfg s r modified tpos⟩)
  | main => exact absurd h (Marked.not_main hw hi)
  | opDone =>
    simp only [Consumer.step] at h
    split_ifs at h
    obtain rfl := Option.some.inj h
    exact .inr (.inr ⟨rfl, .of_eq rfl⟩)
  | tick tk => exact .inr (.inr ⟨rfl, .stepTick h⟩)
  | checked stale =>
    refine .inr (.inr ⟨rfl, ?_⟩)
    simp only [Consumer.step] at h
    split_ifs at h
    · obtain rfl := Option.some.inj h
      exact (Marked.markBatchPayloadsStale s s.assignment false).trans (.of_eq rfl)
    · obtain rfl := Option.some.inj h
      exact .of_eq rfl
  | disconnect =>
    obtain rfl := Option.some.inj h
    exact .inr (.inr ⟨rfl,
      (Marked.of_eq rfl).trans
      (.queueNonEmptyCb { s with disconnectStarted := true, workerTerminationScheduled := true })⟩)

theorem resolveOffset_seeked (s : State) (b : Batch) (offset leaderEpoch : Int) (stored : Bool) :
    (s.resolveOffset b offset leaderEpoch stored).2.seeked = b.seeked := by
  unfold State.resolveOffset
  split
  · rfl
  · split
    · rfl
    · rfl

/-- A run of the consumer during which a worker keeps its batch, and nobody seeks, is one of its handler. -/
theorem processing_of_run {cfg : Config} {i : Nat} {ppc' : Option Nat} {b' : Batch}
    (hb' : b'.seeked = false) {t : State}
    (ht : t.workers[i]? = some ⟨ppc', .handling b'⟩) : ∀ {es : List Ev} {s : State} {ppc : Option Nat} {b : Batch},
    Inv s → s.workers[i]? = some ⟨ppc, .handling b⟩ → (∀ processed stored, .handled i processed stored ∉ es) →
    (lts cfg).exec (fun _ _ => true) s es = some t → ∀ handed,
      ∃ hs handed', (Processing.mk s b handed).run hs = ⟨t, b', handed'⟩ ∧
        resolveCalls hs = es.filterMap (Ev.resolves i) ∧ (b'.seeked = false → b.seeked = false)
  | [], s, ppc, b, hi, hw, hno, he, handed => by
    obtain rfl : s = t := by simpa [Lts.exec] using he
    obtain ⟨_, rfl⟩ : ppc = ppc' ∧ b = b' := by
      have := hw.symm.trans ht
      simpa using this
    exact ⟨[], handed, rfl, rfl, id⟩
  | e :: es, s, ppc, b, hi, hw, hno, he, handed => by
    simp only [Lts.exec, if_true] at he
    obtain ⟨s₁, h₁, h₂⟩ := Option.bind_eq_some_iff.mp he
    have hrest : ∀ processed stored, Ev.handled i processed stored ∉ es := fun processed stored h =>
      hno processed stored (List.mem_cons_of_mem _ h)
    rcases step_handling hi hw h₁ with ⟨processed, stored, rfl⟩ | ⟨offset, leaderEpoch, stored, rfl,
      rfl⟩ | ⟨hne, hmark⟩
    · exact absurd (List.mem_cons_self ..) (hno processed stored)
    · obtain ⟨l, b₁, he₁, _, _⟩ := resolveOffset_eq s b offset leaderEpoch stored
      have hseeked : b₁.seeked = b.seeked := by
        rw [← resolveOffset_seeked s b offset leaderEpoch stored, he₁]
      have hstep : step cfg s (.resolveOffset i offset leaderEpoch stored) = some _ := h₁
      have hi₁ := hi.step hstep
      rw [he₁] at hi₁ h₂
      have hlt : i < s.workers.length := (List.getElem?_eq_some_iff.mp hw).1
      obtain ⟨hs, handed', hrun, hcalls, hseek⟩ := processing_of_run hb' ht hi₁
        (List.getElem?_set_self hlt) hrest h₂
        (handed ++ if offset ≤ b.lastResolvedOffset then [] else [offset + 1])
      refine ⟨.resolveOffset offset leaderEpoch stored ::
        .elsewhere ({ s with lastConsumedOffsets := l }.setWorker i ⟨ppc, .handling b₁⟩) false :: hs,
          handed', ?_, ?_,
        hseeked ▸ hseek⟩
      · rw [← hrun]
        simp only [Processing.run, List.foldl_cons, Processing.step, Processing.resolveOffset, he₁, Bool.or_false]
      · show offset :: resolveCalls hs = _
        have hself : Ev.resolves i (.resolveOffset i offset leaderEpoch stored) = some offset := if_pos rfl
        rw [List.filterMap_cons_some hself, hcalls]
    · obtain ⟨stale, seeked, hw₁⟩ := hmark ppc b hw
      obtain ⟨hs, handed', hrun, hcalls, hseek⟩ := processing_of_run hb' ht (hi.step h₁) hw₁ hrest h₂ handed
      have hseeked := Bool.or_eq_false_iff.mp (hseek hb')
      refine ⟨.elsewhere s₁ stale :: hs, handed', ?_, ?_, fun _ => hseeked.1⟩
      · rw [← hrun, hseeked.2, Bool.or_false]
        rfl
      · rw [List.filterMap_cons_none hne]
        exact hcalls

end Consumer

end ConfluentKafka
