import ConfluentKafka.RunInv
import ConfluentKafka.Flow

/-!
# No message is skipped

The run loop as readers of partitioned logs: `State.flow`. Messages leave the
cache with a position set back to them, as long as a partition that is dropped
has a last consumed offset, and that offset is one of the messages it was read
from. `pause` and the expiration of the cache do not look for one.
-/

namespace ConfluentKafka

namespace Consumer

def Message.record (m : Message) : String × Int := (partitionKey m, m.offset)

/-- What `consume` called back with and is not in the cache yet. -/
def Phase.flight : Phase → List Message
  | .consumed r => r.getD []
  | .waitRebalance r _ => r.getD []
  | _ => []

def Phase.taken : Phase → List Message
  | .got ms _ => ms
  | .deserializing ms _ => ms
  | _ => []

def Phase.note (key : Nat → String) : Phase → Note String
  | .got ms p => ⟨some (key p, ms.map (·.offset)), false, none, []⟩
  | .deserializing ms p => ⟨some (key p, ms.map (·.offset)), false, none, []⟩
  | .handling b => ⟨some (key b.ppc, b.messages.map (·.offset)), true,
      if b.lastResolvedOffset = -1 then none else some b.lastResolvedOffset, []⟩
  | .consumed r => ⟨none, false, none, (r.getD []).map Message.record⟩
  | .waitRebalance r _ => ⟨none, false, none, (r.getD []).map Message.record⟩
  | _ => .idle

def Op.back : Op → Option (String × Int)
  | .seek tpo false => some (partitionKey tpo, tpo.offset)
  | _ => none

def State.flow (s : State) : Flow String where
  queue k := (s.cache.view.queueOf k).map (·.offset)
  position := s.position
  last k := (s.lastConsumedOffsets.get? k).map (·.offset)
  notes := s.workers.map fun w => w.phase.note s.cache.view.key
  owed := s.owed.map Message.record
  back := s.pendingOperations.filterMap Op.back
  assigned k := s.isAssigned k = true
  fetching := s.fetchInProgress ≠ none
  assigning := s.rebalancing = some .assign

def State.hands (s : State) : List (Option (List Message × Nat)) := s.workers.map fun w => w.phase.hand

/-- Messages are in the queue of their partition and in hands with the PPC of their partition. -/
structure Keyed (queueOf : String → List Message) (key : Nat → String)
    (hands : List (Option (List Message × Nat))) :
    Prop where
  queue : ∀ k, ∀ m ∈ queueOf k, partitionKey m = k
  hand : ∀ ms p, some (ms, p) ∈ hands → ∀ m ∈ ms, partitionKey m = key p

structure Track (cfg : Config) (s : State) : Prop where
  flow : s.flow.Ok fun k o => cfg.log k o = true
  keyed : Keyed s.cache.view.queueOf s.cache.view.key s.hands
  eager : s.rebalancing = some .assign → cfg.eager = true → s.assignment = []

/-! ## What does not matter -/

structure Still (s t : State) : Prop where
  queue : t.cache.view.queueOf = s.cache.view.queueOf
  key : t.cache.view.key = s.cache.view.key
  hands : t.hands = s.hands
  flow : t.flow = s.flow
  assignment : t.assignment = s.assignment
  rebalancing : t.rebalancing = s.rebalancing

namespace Still

theorem track {cfg : Config} {s t : State} (h : Still s t) (ht : Track cfg s) : Track cfg t := by
  refine ⟨by rw [h.flow]; exact ht.flow, by rw [h.queue, h.key, h.hands]; exact ht.keyed, ?_⟩
  rw [h.rebalancing, h.assignment]
  exact ht.eager

theorem refl (s : State) : Still s s := ⟨rfl, rfl, rfl, rfl, rfl, rfl⟩

theorem trans {s t u : State} (h : Still s t) (h' : Still t u) : Still s u :=
  ⟨h'.queue.trans h.queue, h'.key.trans h.key, h'.hands.trans h.hands, h'.flow.trans h.flow,
    h'.assignment.trans h.assignment,
    h'.rebalancing.trans h.rebalancing⟩

theorem notifyNonEmpty (s : State) : Still s s.notifyNonEmpty := by
  rw [notifyNonEmpty_eq]
  exact ⟨rfl, rfl, rfl, rfl, rfl, rfl⟩

theorem queueNonEmptyCb (s : State) : Still s s.queueNonEmptyCb := by
  unfold State.queueNonEmptyCb
  simp only
  split
  · exact ⟨rfl, rfl, rfl, rfl, rfl, rfl⟩
  · exact .trans (t := { s with woken := true }) ⟨rfl, rfl, rfl, rfl, rfl, rfl⟩ (notifyNonEmpty _)

theorem resolveWorkerTerminationScheduled (s : State) : Still s s.resolveWorkerTerminationScheduled :=
  .trans (t := { s with workerTerminationScheduled := true }) ⟨rfl, rfl, rfl, rfl, rfl, rfl⟩ (queueNonEmptyCb _)

theorem markBatchPayloadsStale {τ : Type} [Toppar τ] (s : State) (tps : List τ) (isSeek : Bool) :
    Still s (s.markBatchPayloadsStale tps isSeek) := by
  have hmap : ∀ {β : Type} (f : Phase → β), (∀ b b' : Batch, b'.messages = b.messages → b'.ppc = b.ppc →
      b'.lastResolvedOffset = b.lastResolvedOffset → f (.handling b') = f (.handling b)) →
      (s.markBatchPayloadsStale tps isSeek).workers.map (fun w => f w.phase) = s.workers.map fun w =>
        f w.phase := by
    intro β f hf
    simp only [State.markBatchPayloadsStale, List.map_map]
    refine List.map_congr_left fun w _ => ?_
    obtain ⟨ppc, phase⟩ := w
    cases phase with
    | handling b =>
      simp only [Function.comp_apply]
      split_ifs
      · exact hf b _ rfl rfl rfl
      · rfl
    | _ => rfl
  have hhands := hmap Phase.hand fun b b' h₁ h₂ _ => by simp [Phase.hand, h₁, h₂]
  have hnotes := hmap (Phase.note s.cache.view.key) fun b b' h₁ h₂ h₃ => by simp [Phase.note, h₁, h₂, h₃]
  refine ⟨rfl, rfl, hhands, ?_, rfl, rfl⟩
  show Flow.mk _ _ _ _ _ _ _ _ _ = Flow.mk _ _ _ _ _ _ _ _ _
  simp only [Flow.mk.injEq]
  exact ⟨rfl, rfl, rfl, hnotes, rfl, rfl, rfl, rfl, rfl⟩

theorem addPendingOperation (s : State) {op : Op} (hop : op.back = none) : Still s (s.addPendingOperation op) := by
  have hadd : ∀ t : State, Still t
      { t with pendingOperations := t.pendingOperations ++ [op], added := t.added ++ [op] } := by
    intro t
    refine ⟨rfl, rfl, rfl, ?_, rfl, rfl⟩
    simp only [State.flow, List.filterMap_append, List.filterMap_cons, hop, List.filterMap_nil, List.append_nil]
    rfl
  unfold State.addPendingOperation
  simp only
  split_ifs
  · exact (resolveWorkerTerminationScheduled s).trans (hadd _)
  · exact hadd s

theorem seek (s : State) (tpo : TopicPartitionOffset) : Still s (s.seek tpo true) :=
  (markBatchPayloadsStale s [tpo] true).trans (addPendingOperation _ rfl)

theorem pause (s : State) (tps : List TopicPartition) : Still s (s.pause tps) := by
  unfold State.pause
  split_ifs
  · exact refl s
  · exact (markBatchPayloadsStale s tps false).trans (addPendingOperation _ rfl)

theorem resume (s : State) (tps : List TopicPartition) : Still s (s.resume tps) := by
  unfold State.resume
  split_ifs
  · exact refl s
  · exact addPendingOperation _ rfl

theorem setWorker {s : State} {i : Nat} {w w' : Worker} (hw : s.workers[i]? = some w)
    (hh : w'.phase.hand = w.phase.hand)
    (hn : w'.phase.note s.cache.view.key = w.phase.note s.cache.view.key) : Still s (s.setWorker i w') := by
  have hset : ∀ {β : Type} (f : Worker → β), f w' = f w → (s.workers.set i w').map f = s.workers.map f := by
    intro β f hf
    obtain ⟨hlt, he⟩ := List.getElem?_eq_some_iff.mp hw
    rw [List.map_set, hf, ← he, ← List.getElem_map f, List.set_getElem_self]
    simpa using hlt
  refine ⟨rfl, rfl, hset _ hh, ?_, rfl, rfl⟩
  show Flow.mk _ _ _ _ _ _ _ _ _ = Flow.mk _ _ _ _ _ _ _ _ _
  simp only [Flow.mk.injEq]
  exact ⟨rfl, rfl, rfl, hset _ hn, rfl, rfl, rfl, rfl, rfl⟩

end Still

/-! ## Taking, returning and processing -/

theorem flow_setWorker (s : State) (i : Nat) (w : Worker) :
    (s.setWorker i w).flow = { s.flow with notes := s.flow.notes.set i (w.phase.note s.cache.view.key) } := by
  show Flow.mk _ _ _ _ _ _ _ _ _ = Flow.mk _ _ _ _ _ _ _ _ _
  simp only [Flow.mk.injEq]
  exact ⟨rfl, rfl, rfl, List.map_set .., rfl, rfl, rfl, rfl, rfl⟩

theorem notes_get {s : State} {i : Nat} {w : Worker} (hw : s.workers[i]? = some w) :
    s.flow.notes[i]? = some (w.phase.note s.cache.view.key) := by
  simp [State.flow, hw]

theorem Keyed.set {queueOf : String → List Message} {key : Nat → String}
    {hands : List (Option (List Message × Nat))}
    (hk : Keyed queueOf key hands) {i : Nat} {h : Option (List Message × Nat)}
    (hh : ∀ ms p, h = some (ms, p) → ∀ m ∈ ms, partitionKey m = key p) : Keyed queueOf key (hands.set i h) :=
  ⟨hk.queue, fun ms p hm => (List.mem_or_eq_of_mem_set hm).elim (hk.hand ms p) fun e => hh ms p e.symm⟩

theorem hands_setWorker (s : State) (i : Nat) (w : Worker) : (s.setWorker i w).hands = s.hands.set i w.phase.hand :=
  List.map_set ..

theorem mem_hands {s : State} {i : Nat} {w : Worker} (hw : s.workers[i]? = some w) : w.phase.hand ∈ s.hands :=
  List.mem_map.mpr ⟨w, List.mem_of_getElem? hw, rfl⟩

theorem note_hand {key : Nat → String} {ph : Phase} {k : String} {os : List Int}
    (h : (ph.note key).hand = some (k, os)) :
    ∃ ms p, ph.hand = some (ms, p) ∧ k = key p ∧ os = ms.map (·.offset) := by
  cases ph with
  | got ms p =>
    obtain ⟨rfl, rfl⟩ := Prod.mk.inj (Option.some.inj h)
    exact ⟨ms, p, rfl, rfl, rfl⟩
  | deserializing ms p =>
    obtain ⟨rfl, rfl⟩ := Prod.mk.inj (Option.some.inj h)
    exact ⟨ms, p, rfl, rfl, rfl⟩
  | handling b =>
    obtain ⟨rfl, rfl⟩ := Prod.mk.inj (Option.some.inj h)
    exact ⟨b.messages, b.ppc, rfl, rfl, rfl⟩
  | _ => cases h

theorem notes_hands {s : State} (hh : ∀ w ∈ s.workers, w.phase.hand = none) : ∀ n ∈ s.flow.notes,
    n.hand = none := by
  intro n hn
  obtain ⟨w, hw, rfl⟩ := List.mem_map.mp hn
  by_contra h
  obtain ⟨⟨k, os⟩, h⟩ := Option.ne_none_iff_exists'.mp h
  obtain ⟨ms, p, h', _⟩ := note_hand h
  rw [hh w hw] at h'; cases h'

theorem note_congr {key key' : Nat → String} {ph : Phase} (h : ∀ ms q, ph.hand = some (ms, q) → key' q = key q) :
    ph.note key' = ph.note key := by
  cases ph with
  | got ms p => simp [Phase.note, h ms p rfl]
  | deserializing ms p => simp [Phase.note, h ms p rfl]
  | handling b => simp [Phase.note, h b.messages b.ppc rfl]
  | _ => rfl

section
variable {cfg : Config} {s : State} {i : Nat} {w : Worker}

theorem Track.withCache (ht : Track cfg s) {c : Cache Message} (hk : c.view.key = s.cache.view.key)
    (hq : ∀ k, c.view.queueOf k = s.cache.view.queueOf k) : Track cfg { s with cache := c } := by
  have hq' : c.view.queueOf = s.cache.view.queueOf := funext hq
  refine Still.track (s := s) ⟨hq', hk, rfl, ?_, rfl, rfl⟩ ht
  unfold State.flow
  simp only [hq', hk]
  rfl

theorem Track.take (ht : Track cfg s) (hw : s.workers[i]? = some w) (hn : w.phase.note s.cache.view.key = .idle)
    {c : Cache Message} {h : Option Nat} {ms : List Message} {p : Nat}
    (hr : s.cache.view.Handed c.view h (some (ms, p)))
    (hfree : ∀ x ∈ s.workers, ∀ ms' q, x.phase.hand = some (ms', q) → q ∈ s.cache.view.live ∧ p ≠ q) :
    Track cfg ({ s with cache := c }.setWorker i { w with phase := .got ms p }) := by
  have hkey := hr.key
  have hq := hr.queueOf s.cache.valid
  have hpl := (hr.handed ms p rfl).2.1
  have hno : ∀ n ∈ s.flow.notes, ∀ os, n.hand ≠ some (s.cache.view.key p, os) := by
    intro n hm os e
    obtain ⟨x, hx, rfl⟩ := List.mem_map.mp hm
    obtain ⟨ms', q, hh', hk, _⟩ := note_hand e
    obtain ⟨hql, hne⟩ := hfree x hx ms' q hh'
    exact hne (s.cache.valid.key_inj p hpl q hql hk)
  have hflow := ht.flow.take (fun k => (c.view.queueOf k).map (·.offset)) (s.cache.view.key p)
    (ms.map (·.offset)) (i := i) (by rw [notes_get hw, hn]) (fun k => by
      show (s.cache.view.queueOf k).map _ = _
      rw [hq k]
      by_cases e : s.cache.view.key p = k <;> simp [e]) hno
  refine ⟨?_, ?_, ht.eager⟩
  · rw [flow_setWorker]
    simp only [State.flow, Phase.note, hkey] at hflow ⊢
    exact hflow
  · have hkeyed : Keyed c.view.queueOf c.view.key s.hands := by
      rw [hkey]
      refine ⟨fun k m hm => ht.keyed.queue k m ?_, ht.keyed.hand⟩
      rw [hq k]
      exact List.mem_append_right _ hm
    rw [hands_setWorker]
    refine hkeyed.set ?_
    intro ms' p' e m hm
    obtain ⟨rfl, rfl⟩ := Prod.mk.inj (Option.some.inj e)
    rw [show c.view.key = s.cache.view.key from hkey]
    refine ht.keyed.queue _ m ?_
    rw [hq]
    simp [hm]

def Phase.Bare (ph : Phase) : Prop := ph.hand = none ∧ ∀ key, ph.note key = .idle

theorem Track.setBare (ht : Track cfg s) (hw : s.workers[i]? = some w) (hb : w.phase.Bare) {w' : Worker}
    (hb' : w'.phase.Bare) : Track cfg (s.setWorker i w') :=
  (Still.setWorker hw (hb'.1.trans hb.1.symm) ((hb'.2 _).trans (hb.2 _).symm)).track ht

/-- A worker that passes its own PPC or none is not handed messages of a PPC that another worker has messages of. -/
theorem Floor.handed_free (hi : Floor s) (hw : s.workers[i]? = some w) (hh : w.phase.hand = none)
    {a : Leases String Message} {h : Option Nat} (hpass : h = none ∨ h = w.ppc) {ms : List Message} {p : Nat}
    (hr : s.cache.view.Handed a h (some (ms, p))) :
    ∀ x ∈ s.workers, ∀ ms' q, x.phase.hand = some (ms', q) → q ∈ s.cache.view.live ∧ p ≠ q := by
  intro x hx ms' q hq
  obtain ⟨j, hj⟩ := List.mem_iff_getElem?.mp hx
  have hxq : x.sketch.hand = some q := by simp [Worker.sketch, hq]
  have hqa := hi.own j _ q (sketches_get hj) hxq
  refine ⟨List.mem_append_right _ hqa, ?_⟩
  rintro rfl
  have he := hr.fromAssigned ms p rfl hqa
  have hij : i ≠ j := by
    rintro rfl
    obtain rfl := Option.some.inj (hw.symm.trans hj)
    rw [hh] at hq; cases hq
  rcases hpass with rfl | rfl
  · cases he
  · exact hi.apart i j _ _ p (sketches_get hw) (sketches_get hj) hij (Sketch.mem_handles.mpr (.inl he))
      (Sketch.mem_handles.mpr (.inr hxq)) hqa

theorem Track.fetchAndResolveWith (ht : Track cfg s) (hp : Prom s) (hm : s.main = .workers)
    (hw : s.workers[i]? = some w)
    (hph : w.phase = .top) : Track cfg (s.fetchAndResolveWith i w) := by
  have hb : w.phase.Bare := by rw [hph]; exact ⟨rfl, fun _ => rfl⟩
  unfold State.fetchAndResolveWith
  split
  · exact ht.setBare hw hb ⟨rfl, fun _ => rfl⟩
  · split
    · exact ht.setBare hw hb ⟨rfl, fun _ => rfl⟩
    · split_ifs with hterm
      · exact ht.setBare hw hb ⟨rfl, fun _ => rfl⟩
      · have hpend : s.pendingOperations = [] := by
          by_contra h
          exact hterm (hp.pending hm h)
        have hs : Track cfg { s with
            promises := s.promises ++ [false]
            fetchInProgress := some s.promises.length
            woken := false } :=
          ⟨ht.flow.setBack _ _ (fun r hr => .inl hr) fun _ => by simp [hpend], ht.keyed, ht.eager⟩
        exact hs.setBare hw hb ⟨rfl, fun _ => rfl⟩

theorem Track.workerTop (ht : Track cfg s) (hi : Inv s) (hw : s.workers[i]? = some w) (hph : w.phase = .top) :
    Track cfg (s.workerTop cfg i w) := by
  have hm := hi.floor.running hw (by rw [hph]; simp)
  have hb : w.phase.Bare := by rw [hph]; exact ⟨rfl, fun _ => rfl⟩
  unfold State.workerTop
  split_ifs
  · have hc : Track cfg { s with cache := w.ppc.elim s.cache s.cache.giveBack } := by
      cases w.ppc with
      | none => exact ht
      | some p =>
        refine ht.withCache ?_ ?_
        · simp only [Option.elim_some, Cache.view_giveBack, (s.cache.view.release_key p).1]
        · intro k
          simp only [Option.elim_some, Cache.view_giveBack, (s.cache.valid.release p).2.2]
    exact hc.setBare hw hb ⟨rfl, fun _ => rfl⟩
  · have hh := takeFromCache_handed cfg s.cache w.ppc
    split
    · rename_i c ms p he
      rw [he] at hh
      exact ht.take hw (hb.2 _) hh (hi.floor.handed_free hw hb.1 (.inr rfl) hh)
    · rename_i c he
      rw [he] at hh
      have hc : Track cfg { s with cache := c } := ht.withCache hh.key fun k => (hh.queueOf s.cache.valid k).symm
      split_ifs
      · exact hc.setBare hw hb ⟨rfl, fun _ => rfl⟩
      · have hg := takeFromCache_gen cfg s.cache w.ppc
        rw [he] at hg
        exact hc.fetchAndResolveWith (hi.prom.withCache (Nat.le_of_eq hg.symm)) hm hw hph

/-- The messages of a fetch are put in the cache, which is empty. -/
theorem Track.put (ht : Track cfg s) (hi : Floor s) (hw : s.workers[i]? = some w) (hf : w.phase.fetching = true)
    {ms : List Message} (hfl : (w.phase.note s.cache.view.key).flight = ms.map Message.record) :
    Track cfg ({ s with
      cache := s.cache.addMessages ms
      owed := s.owed ++ ms.filter fun m => s.assignment.any fun tp => partitionKey tp = partitionKey m }.setWorker i
        { w with phase := .top }) := by
  have hfe : s.fetchInProgress.isSome = true := hi.fetcher.mpr ⟨i, _, sketches_get hw, hf⟩
  have hne : s.fetchInProgress ≠ none := Option.isSome_iff_ne_none.mp hfe
  have hlive := hi.empty hfe
  have hempty : ∀ k, s.cache.view.queueOf k = [] := fun k => Leases.queueOf_of_not_live (by simp [hlive])
  have hq : ∀ k, (s.cache.addMessages ms).view.queueOf k = ms.filter fun m => partitionKey m = k := by
    intro k
    rw [Cache.view_addMessages, s.cache.valid.queueOf_pushAll, hempty k, List.nil_append]
  have hhand : ∀ x ∈ s.workers, x.phase.hand = none := fun x hx => hi.hand_of_fetch hne hx
  -- nobody has messages, so that the keys of the PPCs do not matter
  have hnote : ∀ x ∈ s.workers, ∀ key key' : Nat → String, x.phase.note key = x.phase.note key' := by
    intro x hx key key'
    refine note_congr fun ms q e => ?_
    rw [hhand x hx] at e; cases e
  have hnh := notes_hands hhand
  have hput := ht.flow.put (fun k => ((s.cache.addMessages ms).view.queueOf k).map (·.offset))
    ((s.owed ++ ms.filter fun m => s.assignment.any fun tp => partitionKey tp = partitionKey m).map Message.record)
    (i := i) (notes_get hw) (hnh _ (List.mem_of_getElem? (notes_get hw)))
    (fun k => by simp [State.flow, hempty k]) hnh hne
    ?_ ?_
  · refine ⟨?_, ?_, ht.eager⟩
    · rw [flow_setWorker]
      have hnotes : (s.workers.map fun w => w.phase.note (s.cache.addMessages ms).view.key) = s.flow.notes :=
        List.map_congr_left fun x hx => hnote x hx _ _
      unfold State.flow at hput ⊢
      simp only at hput ⊢
      rw [hnotes]
      exact hput
    · rw [hands_setWorker]
      refine Keyed.set ⟨?_, ?_⟩ (fun _ _ h => by cases h)
      · intro k m hm
        have hm : m ∈ (s.cache.addMessages ms).view.queueOf k := hm
        rw [hq k] at hm
        simpa using (List.mem_filter.mp hm).2
      · intro ms' p hm
        obtain ⟨x, hx, e⟩ := List.mem_map.mp hm
        rw [hhand x hx] at e; cases e
  · intro k
    rw [hq k, Flow.flightOf, hfl, List.filter_map, List.map_map]
    rfl
  · intro r hr
    rw [List.map_append] at hr
    rcases List.mem_append.mp hr with hr | hr
    · exact .inl hr
    · obtain ⟨m, hm, rfl⟩ := List.mem_map.mp hr
      obtain ⟨hm, ha⟩ := List.mem_filter.mp hm
      exact .inr ⟨by rw [hfl]; exact List.mem_map_of_mem hm, ha⟩

theorem Track.endFetch (ht : Track cfg s) (quiet : Bool) : Track cfg (s.endFetch quiet) := by
  obtain ⟨promises, nonEmpty, he⟩ := endFetch_eq s quiet
  rw [he]
  exact ⟨ht.flow.setBack _ _ (fun r hr => .inl hr) fun h => absurd rfl h, ht.keyed, ht.eager⟩

theorem Track.finishFetch (ht : Track cfg s) (hi : Floor s) (hw : s.workers[i]? = some w)
    (hf : w.phase.fetching = true)
    {result : Option (List Message)}
    (hfl : (w.phase.note s.cache.view.key).flight = (result.getD []).map Message.record)
    (processedRebalance : Bool) :
    Track cfg (s.finishFetch cfg i w processedRebalance result) := by
  have hsome : s.fetchInProgress.isSome = true := hi.fetcher.mpr ⟨i, _, sketches_get hw, hf⟩
  have hhand : ∀ x ∈ s.workers, x.phase.hand = none := fun x hx =>
    hi.hand_of_fetch (Option.isSome_iff_ne_none.mp hsome) hx
  cases result with
  | none =>
    show Track cfg ((s.endFetch false).setWorker i _)
    rw [endFetch_setWorker]
    refine Track.endFetch ?_ false
    refine ht.setBare hw ⟨hhand w (List.mem_of_getElem? hw), fun key => ?_⟩ ⟨rfl, fun _ => rfl⟩
    cases hp : w.phase with
    | consuming => rfl
    | consumed r =>
      rw [hp] at hfl
      simp only [Phase.note] at hfl ⊢
      rw [hfl]
      rfl
    | waitRebalance r p =>
      rw [hp] at hfl
      simp only [Phase.note] at hfl ⊢
      rw [hfl]
      rfl
    | _ => rw [hp] at hf; cases hf
  | some ms =>
    have hput := ht.put hi hw hf hfl
    have hh := takeFromCache_handed cfg (s.cache.addMessages ms) none
    have hlt : i < s.workers.length := (List.getElem?_eq_some_iff.mp hw).1
    have hw' : (s.workers.set i { w with phase := .top })[i]? = some { w with phase := .top } :=
      List.getElem?_set_self hlt
    show Track cfg (((s.putFetched cfg ms).endFetch _).setWorker i _)
    rw [endFetch_setWorker]
    refine Track.endFetch ?_ _
    cases hr : (takeFromCache cfg (s.cache.addMessages ms) none).2 with
    | none =>
      rw [hr] at hh
      exact hput.withCache (c := (takeFromCache cfg (s.cache.addMessages ms) none).1) hh.key fun k =>
        (hh.queueOf (s.cache.addMessages ms).valid k).symm
    | some r =>
      obtain ⟨ms', p⟩ := r
      rw [hr] at hh
      have := hput.take hw' rfl (c := (takeFromCache cfg (s.cache.addMessages ms) none).1) hh ?_
      · unfold State.setWorker at this ⊢
        simp only [List.set_set] at this
        exact this
      · intro x hx ms'' q e
        rcases List.mem_or_eq_of_mem_set hx with hx | rfl
        · rw [hhand x hx] at e; cases e
        · cases e

theorem Floor.no_flight (hi : Floor s) (hw : s.workers[i]? = some w) (hh : w.phase.hand ≠ none) :
    ∀ n ∈ s.flow.notes, n.flight = [] := by
  intro n hn
  obtain ⟨x, hx, rfl⟩ := List.mem_map.mp hn
  obtain ⟨j, hj⟩ := List.mem_iff_getElem?.mp hx
  have hnf : x.phase.fetching = false := by
    by_contra hf
    have hsome := hi.fetcher.mpr ⟨j, _, sketches_get hj, by simpa [Worker.sketch] using hf⟩
    exact hh (hi.hand_of_fetch (Option.isSome_iff_ne_none.mp hsome) (List.mem_of_getElem? hw))
  cases hp : x.phase <;> rw [hp] at hnf <;> first | rfl | cases hnf

theorem Track.returnMessages (ht : Track cfg s) (hi : Floor s) (hw : s.workers[i]? = some w) {m : Message}
    {ms : List Message} {p : Nat} (hp : w.phase = .got (m :: ms) p) : Track cfg
    (s.returnMessages i (m :: ms) p) := by
  have hh : w.phase.hand = some (m :: ms, p) := by rw [hp]; rfl
  have hnote := notes_get hw
  rw [hp] at hnote
  have hkeyed : ∀ x ∈ m :: ms, partitionKey x = s.cache.view.key p := ht.keyed.hand _ p (hh ▸ mem_hands hw)
  have hfl := hi.no_flight hw (by rw [hh]; simp)
  have hn := List.mem_of_getElem? hnote
  -- the offset before the first message, unless one is known
  have hlast := ht.flow.setLast (fun k =>
    ((if s.lastConsumedOffsets.has (s.cache.view.key p) then s.lastConsumedOffsets
      else s.lastConsumedOffsets.set (s.cache.view.key p) ⟨m.topic, m.partition, m.offset - 1, -1⟩).get? k).map
        (·.offset)) ?_
  · have hq : ∀ k, (s.cache.returnMessages (m :: ms)).view.queueOf k =
        (if s.cache.view.key p = k then m :: ms else []) ++ s.cache.view.queueOf k := by
      intro k
      rw [Cache.view_returnMessages, s.cache.valid.queueOf_putBack]
      congr 1
      by_cases e : s.cache.view.key p = k
      · rw [if_pos e, List.filter_eq_self.mpr]
        intro x hx
        simp [hkeyed x hx, e]
      · rw [if_neg e, List.filter_eq_nil_iff.mpr]
        intro x hx
        simp [hkeyed x hx, e]
    have hback := hlast.putBack (fun k => ((s.cache.returnMessages (m :: ms)).view.queueOf k).map (·.offset))
      (i := i) (n := (Phase.got (m :: ms) p).note s.cache.view.key) (s.cache.view.key p)
      ((m :: ms).map (·.offset)) hnote rfl rfl fun k => by
        rw [hq k]
        by_cases e : s.cache.view.key p = k <;> simp [e, State.flow]
    -- the PPCs that workers have messages of keep their keys
    have hkey : ∀ x ∈ s.workers, ∀ ms' q, x.phase.hand = some (ms', q) →
        (s.cache.returnMessages (m :: ms)).view.key q = s.cache.view.key q := by
      intro x hx ms' q e
      obtain ⟨j, hj⟩ := List.mem_iff_getElem?.mp hx
      have hqa := hi.own j _ q (sketches_get hj) (by simp [Worker.sketch, e])
      exact ((s.cache.returnMessages_grown (m :: ms)).live q (List.mem_append_right _ hqa)).2
    have hnotes : (s.workers.map fun w => w.phase.note (s.cache.returnMessages (m :: ms)).view.key) =
      s.flow.notes :=
      List.map_congr_left fun x hx => note_congr (hkey x hx)
    refine ⟨?_, ?_, ht.eager⟩
    · unfold State.returnMessages
      rw [flow_setWorker]
      unfold State.flow at hback ⊢
      simp only at hback ⊢
      rw [hnotes]
      exact hback
    · unfold State.returnMessages
      rw [hands_setWorker]
      refine Keyed.set ⟨?_, ?_⟩ (fun _ _ h => by cases h)
      · intro k x hx
        have hx : x ∈ (s.cache.returnMessages (m :: ms)).view.queueOf k := hx
        rw [hq k] at hx
        rcases List.mem_append.mp hx with hx | hx
        · split_ifs at hx with e
          · rw [hkeyed x hx, e]
          · cases hx
        · exact ht.keyed.queue k x hx
      · intro ms' q hm x hx
        obtain ⟨y, hy, e⟩ := List.mem_map.mp hm
        show partitionKey x = (s.cache.returnMessages (m :: ms)).view.key q
        rw [hkey y hy ms' q e]
        exact ht.keyed.hand ms' q hm x hx
  · intro k t hk _
    split_ifs at hk with hhas
    · exact .inl hk
    · rw [JsMap.get?_set] at hk
      split_ifs at hk with e
      · subst e
        obtain rfl : m.offset - 1 = t := by simpa using hk
        refine .inr ⟨?_, ?_, ?_⟩
        · have := (ht.flow.hand _ hn _ _ rfl).2 m.offset (by simp)
          omega
        · intro o ho
          have := ht.flow.owed_from hn m.offset (ms.map (·.offset)) rfl hfl ho
          omega
        · intro n hn o ho
          rw [hfl n hn] at ho; cases ho
      · exact .inl hk

theorem Track.deliver (ht : Track cfg s) (hw : s.workers[i]? = some w) {ms : List Message} {p : Nat}
    (hp : w.phase = .got ms p ∨ w.phase = .deserializing ms p) : Track cfg (s.deliver i w ms p) := by
  have hh : w.phase.hand = some (ms, p) := by rcases hp with hp | hp <;> rw [hp] <;> rfl
  have hnote : w.phase.note s.cache.view.key = ⟨some (s.cache.view.key p, ms.map (·.offset)), false, none, []⟩ := by
    rcases hp with hp | hp <;> rw [hp] <;> rfl
  have hkeyed : ∀ x ∈ ms, partitionKey x = s.cache.view.key p := ht.keyed.hand _ p (hh ▸ mem_hands hw)
  have hget := notes_get hw
  rw [hnote] at hget
  have hdel := ht.flow.deliver ((s.owed.filter fun m =>
    ¬ ms.any fun m' => partitionKey m' = partitionKey m ∧ m'.offset = m.offset).map Message.record) hget rfl rfl ?_
  · refine ⟨?_, ?_, ht.eager⟩
    · unfold State.deliver
      rw [flow_setWorker]
      unfold State.flow at hdel ⊢
      exact hdel
    · unfold State.deliver
      rw [hands_setWorker]
      refine ht.keyed.set ?_
      intro ms' q e
      obtain ⟨rfl, rfl⟩ := Prod.mk.inj (Option.some.inj e)
      exact hkeyed
  · intro r hr
    obtain ⟨m, hm, rfl⟩ := List.mem_map.mp hr
    obtain ⟨hm, hno⟩ := List.mem_filter.mp hm
    refine ⟨List.mem_map_of_mem hm, ?_⟩
    rintro ⟨hk, ho⟩
    obtain ⟨m', hm', e⟩ := List.mem_map.mp ho
    have hk : partitionKey m = s.cache.view.key p := hk
    have e : m'.offset = m.offset := e
    simp only [List.any_eq_true, decide_eq_true_eq, not_exists, not_and] at hno
    exact hno m' hm' ((hkeyed m' hm').trans hk.symm) e

theorem Track.process (ht : Track cfg s) (hi : Inv s) (hw : s.workers[i]? = some w) {ms : List Message} {p : Nat}
    (hp : w.phase = .got ms p) : Track cfg (s.process cfg i w ms p) := by
  unfold State.process
  split_ifs
  · have hne : ms ≠ [] := by
      have := hi.prom.waits w (List.mem_of_getElem? hw)
      rw [hp] at this
      exact this
    obtain ⟨m, ms, rfl⟩ := List.exists_cons_of_ne_nil hne
    exact ht.returnMessages hi.floor hw hp
  · exact (Still.setWorker hw (by rw [hp]; rfl) (by rw [hp]; rfl)).track ht
  · exact ht.deliver hw (.inl hp)

theorem Track.stepWorker (ht : Track cfg s) (hi : Inv s) (hw : s.workers[i]? = some w) {t : State}
    (h : stepWorker cfg s i w = some t) : Track cfg t := by
  unfold Consumer.stepWorker at h
  split at h
  · rename_i hp
    obtain rfl := Option.some.inj h
    exact ht.workerTop hi hw hp
  · rename_i hp
    split_ifs at h
    obtain rfl := Option.some.inj h
    exact ht.setBare hw (by rw [hp]; exact ⟨rfl, fun _ => rfl⟩) ⟨rfl, fun _ => rfl⟩
  · rename_i hp
    split_ifs at h
    obtain rfl := Option.some.inj h
    exact ht.setBare hw (by rw [hp]; exact ⟨rfl, fun _ => rfl⟩) ⟨rfl, fun _ => rfl⟩
  · rename_i hp
    split_ifs at h
    obtain rfl := Option.some.inj h
    exact ht.setBare hw (by rw [hp]; exact ⟨rfl, fun _ => rfl⟩) ⟨rfl, fun _ => rfl⟩
  · rename_i r hp
    split at h
    · obtain rfl := Option.some.inj h
      exact (Still.setWorker hw (by rw [hp]; rfl) (by rw [hp]; rfl)).track ht
    · obtain rfl := Option.some.inj h
      exact ht.finishFetch hi.floor hw (by rw [hp]; rfl) (by rw [hp]; rfl) _
  · rename_i r p hp
    split_ifs at h
    obtain rfl := Option.some.inj h
    have ht' : Track cfg { s with rebalanceCbInProgress := none } := ⟨ht.flow, ht.keyed, ht.eager⟩
    exact ht'.finishFetch hi.floor hw (by rw [hp]; rfl) (by rw [hp]; rfl) _
  · rename_i ms p hp
    obtain rfl := Option.some.inj h
    exact ht.process hi hw hp
  · rename_i ms p hp
    obtain rfl := Option.some.inj h
    exact ht.deliver hw (.inr hp)
  · cases h

/-! ## The end of a handler -/

/-- A processor asks for messages to be read again that are not after what is owed. -/
theorem Track.seekBack (ht : Track cfg s) (hf : s.fetchInProgress = none) {tpo : TopicPartitionOffset}
    (hle : ∀ o, (partitionKey tpo, o) ∈ s.flow.owed → tpo.offset ≤ o) : Track cfg (s.seek tpo false) := by
  have hadd : ∀ t : State, Still s t →
      Track cfg { t with
        pendingOperations := t.pendingOperations ++ [.seek tpo false]
        added := t.added ++ [.seek tpo false] } := by
    intro t hst
    obtain ⟨hflow, hkeyed, heager⟩ := hst.track ht
    have hfe : ¬ t.flow.fetching := by rw [hst.flow]; exact fun h => h hf
    have hback := hflow.setBack (t.flow.back ++ [(partitionKey tpo, tpo.offset)]) t.flow.fetching ?_
      fun h => absurd h hfe
    · refine ⟨?_, hkeyed, heager⟩
      have he : t.flow.back ++ [(partitionKey tpo, tpo.offset)] =
          (t.pendingOperations ++ [Op.seek tpo false]).filterMap Op.back := by
        rw [List.filterMap_append]
        rfl
      rw [he] at hback
      exact hback
    · intro r hr
      rcases List.mem_append.mp hr with hr | hr
      · exact .inl hr
      · obtain rfl := List.mem_singleton.mp hr
        rw [hst.flow]
        exact .inr hle
  unfold State.seek State.addPendingOperation
  simp only
  split_ifs
  · exact hadd _ ((Still.markBatchPayloadsStale s [tpo] true).trans (.resolveWorkerTerminationScheduled _))
  · exact hadd _ (Still.markBatchPayloadsStale s [tpo] true)

theorem Track.handling (ht : Track cfg s) (hi : Floor s) (hw : s.workers[i]? = some w) {b : Batch}
    (hb : w.phase = .handling b) : (∀ m ∈ b.messages, partitionKey m = s.cache.view.key b.ppc ∧
      m.offset < s.position (partitionKey m) ∧ ∀ o, (partitionKey m, o) ∈ s.flow.owed → m.offset < o) ∧
    (∀ n ∈ s.flow.notes, n.flight = []) ∧ s.fetchInProgress = none := by
  have hh : w.phase.hand = some (b.messages, b.ppc) := by rw [hb]; rfl
  have hne : w.phase.hand ≠ none := by rw [hh]; simp
  have hfl := hi.no_flight hw hne
  have hn := List.mem_of_getElem? (notes_get hw)
  rw [hb] at hn
  refine ⟨fun m hm => ?_, hfl, ?_⟩
  · have hk := ht.keyed.hand _ b.ppc (hh ▸ mem_hands hw) m hm
    have ho : m.offset ∈ b.messages.map (·.offset) := List.mem_map_of_mem hm
    refine ⟨hk, ?_, ?_⟩
    · rw [hk]
      exact (ht.flow.hand _ hn _ _ rfl).2 _ ho
    · intro o hm'
      rw [hk] at hm'
      exact ht.flow.owed_after hn rfl rfl hfl ho hm'
  · by_contra hf
    exact hne (hi.hand_of_fetch hf (List.mem_of_getElem? hw))

/-- A last consumed offset that is not after the messages in a handler is recorded. -/
theorem Track.setLast (ht : Track cfg s) (hi : Floor s) (hw : s.workers[i]? = some w) {b : Batch}
    (hb : w.phase = .handling b) (epoch : Int) {f m : Message} (hf : f ∈ b.messages) (hm : m ∈ b.messages)
    {offset : Int}
    (hle : offset ≤ m.offset) : Track cfg { s with
      lastConsumedOffsets := s.lastConsumedOffsets.set (partitionKey f) ⟨f.topic, f.partition, offset,
        epoch⟩ } := by
  obtain ⟨hmsg, hfl, _⟩ := ht.handling hi hw hb
  refine ⟨?_, ht.keyed, ht.eager⟩
  refine ht.flow.setLast (fun k => ((s.lastConsumedOffsets.set (partitionKey f)
    ⟨f.topic, f.partition, offset, epoch⟩).get? k).map (·.offset)) ?_
  intro k t hk _
  rw [JsMap.get?_set] at hk
  split_ifs at hk with e
  · obtain rfl : offset = t := by simpa using hk
    subst e
    obtain ⟨hk, hpos, howed⟩ := hmsg m hm
    rw [hk, ← (hmsg f hf).1] at hpos howed
    refine .inr ⟨Int.lt_of_le_of_lt hle hpos, fun o ho => Int.lt_of_le_of_lt hle (howed o ho), ?_⟩
    intro n hn o ho
    rw [hfl n hn] at ho; cases ho
  · exact .inl hk

theorem Track.stepHandled (ht : Track cfg s) (hi : Floor s) (hw : s.workers[i]? = some w) {b : Batch}
    (hb : w.phase = .handling b) {processed stored : Bool} {t : State}
    (h : stepHandled cfg s i b processed stored = some t) : Track cfg t := by
  obtain ⟨hmsg, _, hfe⟩ := ht.handling hi hw hb
  obtain ⟨first, last, l, hfirst, hlast, hl, hcase⟩ := stepHandled_cases h
  have hfm : first ∈ b.messages := List.mem_of_head? hfirst
  have hlm : last ∈ b.messages := List.mem_of_getLast? hlast
  have hset : Track cfg { s with lastConsumedOffsets := l } := by
    rcases hl with rfl | ⟨m, hm, rfl⟩
    · exact ht
    · exact ht.setLast hi hw hb _ hfm hm (Int.le_refl _)
  have hnote := notes_get hw
  rw [hb] at hnote
  have hend : Track cfg ({ s with lastConsumedOffsets := l }.setWorker i ⟨some b.ppc, .top⟩) := by
    refine ⟨?_, ?_, hset.eager⟩
    · rw [flow_setWorker]
      exact hset.flow.handle hnote rfl rfl rfl (.inl rfl)
    · rw [hands_setWorker]
      exact hset.keyed.set fun _ _ e => by cases e
  rcases hcase with rfl | ⟨offset, epoch, ho, rfl⟩
  · exact hend
  · refine hend.seekBack hfe ?_
    intro o hm
    have hm : (partitionKey first, o) ∈ s.flow.owed := hm
    have h₁ := (hmsg first hfm).2.2 o hm
    rcases ho with rfl | ⟨hne, rfl⟩
    · exact Int.le_of_lt h₁
    · have hk : partitionKey last = partitionKey first := (hmsg last hlm).1.trans (hmsg first hfm).1.symm
      have h₂ := (hmsg last hlm).2.2 o (hk ▸ hm)
      have h₃ := ht.flow.resolved _ (List.mem_of_getElem? hnote) _ _ b.lastResolvedOffset last.offset rfl
        (by simp [Phase.note, hne]) (by rw [List.getLast?_map, hlast]; rfl)
      show b.lastResolvedOffset + 1 ≤ o
      omega

theorem Track.resolveOffset (ht : Track cfg s) (hi : Floor s) {ppc : Option Nat} {b : Batch}
    (hw : s.workers[i]? = some ⟨ppc, .handling b⟩) {offset leaderEpoch : Int} {stored : Bool}
    (hle : ∀ last, b.messages.getLast? = some last → offset ≤ last.offset) :
    Track cfg ((s.resolveOffset b offset leaderEpoch stored).1.setWorker i
      ⟨ppc, .handling (s.resolveOffset b offset leaderEpoch stored).2⟩) := by
  have hnote := notes_get hw
  unfold State.resolveOffset
  cases hm : b.messages with
  | nil => exact (Still.setWorker hw rfl rfl).track ht
  | cons first ms =>
    have hhand : some (first :: ms, b.ppc) ∈ s.hands := hm ▸ mem_hands hw
    simp only
    split_ifs with hdone hstored
    · exact (Still.setWorker hw rfl rfl).track ht
    all_goals
      obtain ⟨last, hlast⟩ : ∃ last, b.messages.getLast? = some last := by
        rw [hm]; exact ⟨_, List.getLast?_eq_some_getLast (by simp)⟩
      have hres : ∀ t o, (if offset = -1 then none else some offset) = some t →
          (b.messages.map (·.offset)).getLast? = some o → t ≤ o := by
        intro t o ht ho
        rw [List.getLast?_map, hlast] at ho
        obtain rfl : last.offset = o := by simpa using ho
        split_ifs at ht
        obtain rfl := Option.some.inj ht
        exact hle last hlast
    · have hset := ht.setLast hi hw rfl leaderEpoch (m := last) (f := first) (by rw [hm]; simp)
        (List.mem_of_getLast? hlast) (hle last hlast)
      refine ⟨?_, ?_, ht.eager⟩
      · rw [flow_setWorker]
        exact hset.flow.handle hnote rfl rfl rfl (.inr ⟨by simp [Phase.note, hm], rfl, hres⟩)
      · rw [hands_setWorker]
        exact hset.keyed.set fun ms' p e => ht.keyed.hand ms' p (e ▸ hhand)
    · refine ⟨?_, ?_, ht.eager⟩
      · rw [flow_setWorker]
        exact ht.flow.handle hnote rfl rfl rfl (.inr ⟨by simp [Phase.note, hm], rfl, hres⟩)
      · rw [hands_setWorker]
        exact ht.keyed.set fun ms' p e => ht.keyed.hand ms' p (e ▸ hhand)

/-! ## Reading -/

/-- `consume` returns, of each partition, all messages from the position on up to the new one, in order. -/
theorem advance_spec : ∀ (ms : List Message) (position position' : String → Int),
    advance cfg s ms position = some position' → (∀ k, position k ≤ position' k) ∧
    (∀ k, ((ms.filter fun m => partitionKey m = k).map (·.offset)).Pairwise (· < ·)) ∧
    (∀ m ∈ ms, position (partitionKey m) ≤ m.offset ∧ m.offset < position' (partitionKey m) ∧
      cfg.log (partitionKey m) m.offset = true ∧ s.isAssigned (partitionKey m) = true) ∧
    ∀ k o, cfg.log k o = true → position k ≤ o → o < position' k → ∃ m ∈ ms, partitionKey m = k ∧ m.offset = o
  | [], position, position', h => by
    obtain rfl : position = position' := by simpa [advance] using h
    exact ⟨fun _ => Int.le_refl _, fun _ => List.Pairwise.nil, fun m hm => (by cases hm),
      fun k o _ h₁ h₂ => by omega⟩
  | m :: ms, position, position', h => by
    unfold advance at h
    simp only at h
    split_ifs at h with hc
    obtain ⟨hasg, hpos, hlog, hgap⟩ := hc
    obtain ⟨h₁, h₂, h₃, h₄⟩ := advance_spec ms _ _ h
    have hself : m.offset + 1 ≤ position' (partitionKey m) := by simpa using h₁ (partitionKey m)
    have hle : ∀ k, position k ≤ Function.update position (partitionKey m) (m.offset + 1) k := by
      intro k
      by_cases e : k = partitionKey m
      · subst e
        simp only [Function.update_self]
        omega
      · exact Int.le_of_eq (Function.update_of_ne e _ _).symm
    refine ⟨fun k => Int.le_trans (hle k) (h₁ k), ?_, ?_, ?_⟩
    · intro k
      by_cases e : partitionKey m = k
      · subst e
        simp only [decide_true, List.filter_cons_of_pos, List.map_cons]
        refine List.pairwise_cons.mpr ⟨?_, h₂ _⟩
        intro o ho
        obtain ⟨x, hx, rfl⟩ := List.mem_map.mp ho
        obtain ⟨hx, e⟩ := List.mem_filter.mp hx
        have := (h₃ x hx).1
        rw [show partitionKey x = partitionKey m by simpa using e, Function.update_self] at this
        show m.offset < x.offset
        omega
      · rw [List.filter_cons_of_neg (by simpa using e)]
        exact h₂ k
    · intro x hx
      rcases List.mem_cons.mp hx with rfl | hx
      · exact ⟨hpos, by omega, hlog, hasg⟩
      · obtain ⟨h₅, h₆⟩ := h₃ x hx
        exact ⟨Int.le_trans (hle _) h₅, h₆⟩
    · intro k o hk hle' hlt
      by_cases e : k = partitionKey m
      · subst e
        rcases Int.lt_trichotomy o m.offset with ho | ho | ho
        · have hd := List.all_eq_true.mp hgap (o - position (partitionKey m)).toNat
            (List.mem_range.mpr (by omega))
          rw [show position (partitionKey m) + ((o - position (partitionKey m)).toNat : Int) = o by omega] at hd
          simp [hk] at hd
        · exact ⟨m, List.mem_cons_self, rfl, ho.symm⟩
        · obtain ⟨x, hx, hxk, hxo⟩ := h₄ _ o hk (by rw [Function.update_self]; omega) hlt
          exact ⟨x, List.mem_cons_of_mem _ hx, hxk, hxo⟩
      · obtain ⟨x, hx, hxk, hxo⟩ := h₄ k o hk (by rw [Function.update_of_ne e]; exact hle') hlt
        exact ⟨x, List.mem_cons_of_mem _ hx, hxk, hxo⟩

theorem Track.consumed (ht : Track cfg s) {ppc : Option Nat} (hw : s.workers[i]? = some ⟨ppc, .consuming⟩)
    {r : Option (List Message)} {position : String → Int} (hadv : advance cfg s (r.getD []) s.position =
      some position) :
    Track cfg ({ s with position }.setWorker i ⟨ppc, .consumed r⟩) := by
  obtain ⟨h₁, h₂, h₃, h₄⟩ := advance_spec _ _ _ hadv
  refine ⟨?_, ?_, ht.eager⟩
  · rw [flow_setWorker]
    refine ht.flow.read (notes_get hw) h₁ ?_ ?_ ?_
    · intro k
      have := h₂ k
      rw [Flow.flightOf, List.filter_map, List.map_map]
      exact this
    · intro x hx
      obtain ⟨m, hm, rfl⟩ := List.mem_map.mp hx
      exact h₃ m hm
    · rintro ⟨k, o⟩ hk hle hlt
      obtain ⟨m, hm, rfl, rfl⟩ := h₄ k o hk hle hlt
      exact List.mem_map_of_mem hm
  · rw [hands_setWorker]
    exact ht.keyed.set fun _ _ e => by cases e

end

end Consumer

end ConfluentKafka
