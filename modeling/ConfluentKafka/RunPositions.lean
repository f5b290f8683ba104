import ConfluentKafka.CacheOrder
import ConfluentKafka.RunOffsets

/-!
# The positions that the operations set

Between the rounds the operations drop messages from the cache. A partition
either gets a position that was asked for, with its messages and its last
consumed offset gone, or keeps all three: `Reset`.
-/

namespace ConfluentKafka

namespace Consumer

/-- Some partitions are set to positions that `G` allows and the others are left alone. -/
structure Reset (G : String → Int → Prop) (s t : State) : Prop where
  executed : Executed s t
  key : t.cache.view.key = s.cache.view.key
  assignment : t.assignment = s.assignment
  owed : t.owed = s.owed
  each : ∀ k, G k (t.position k) ∧ t.cache.view.queueOf k = [] ∧ t.lastConsumedOffsets.get? k = none ∨
    t.position k = s.position k ∧ t.cache.view.queueOf k = s.cache.view.queueOf k ∧
      t.lastConsumedOffsets.get? k = s.lastConsumedOffsets.get? k

namespace Reset

variable {G : String → Int → Prop} {s t u : State}

theorem refl (s : State) : Reset G s s := ⟨.refl s, rfl, rfl, rfl, fun _ => .inr ⟨rfl, rfl, rfl⟩⟩

theorem trans (h : Reset G s t) (h' : Reset G t u) : Reset G s u := by
  refine ⟨h.executed.trans h'.executed, h'.key.trans h.key, h'.assignment.trans h.assignment,
    h'.owed.trans h.owed, ?_⟩
  intro k
  rcases h'.each k with hk | ⟨hp, hq, hl⟩
  · exact .inl hk
  · rw [hp, hq, hl]
    exact h.each k

theorem foldl {α : Type} {f : State → α → State} {xs : List α}
    (hf : ∀ x ∈ xs, ∀ u, Reset G s u → Reset G u (f u x)) (ht : Reset G s t) : Reset G s (xs.foldl f t) := by
  induction xs generalizing t with
  | nil => exact ht
  | cons x xs ih =>
    refine ih (fun y hy => hf y (List.mem_cons_of_mem _ hy)) ?_
    exact ht.trans (hf x List.mem_cons_self t ht)

theorem last_eq (h : Reset G s t) {k : String} {l : TopicPartitionOffset}
    (hk : t.lastConsumedOffsets.get? k = some l) :
    s.lastConsumedOffsets.get? k = some l := by
  rcases h.each k with ⟨_, _, hl⟩ | ⟨_, _, hl⟩
  · rw [hl] at hk; cases hk
  · exact hl.symm.trans hk

theorem last_none (h : Reset G s t) {k : String} (hk : s.lastConsumedOffsets.get? k = none) :
    t.lastConsumedOffsets.get? k = none := by
  cases hl : t.lastConsumedOffsets.get? k with
  | none => rfl
  | some l => rw [h.last_eq hl] at hk; cases hk

theorem seekPartition (s : State) {tpo : TopicPartitionOffset} (hG : G (partitionKey tpo) tpo.offset) :
    Reset G s (s.seekPartition tpo) := by
  have hd := s.cache.markStale_discarded [tpo]
  refine ⟨.seekPartition s tpo, hd.key, rfl, rfl, fun k => ?_⟩
  obtain ⟨hdrop, hkeep⟩ := hd.queueOf s.cache.valid k
  by_cases e : partitionKey tpo = k
  · subst e
    refine .inl ⟨?_, hdrop ⟨tpo, by simp, rfl⟩, ?_⟩
    · simpa [State.seekPartition] using hG
    · simp [State.seekPartition]
  · refine .inr ⟨?_, hkeep ?_, ?_⟩
    · simp [State.seekPartition, Ne.symm e]
    · rintro ⟨t, ht, ht'⟩
      obtain rfl := List.mem_singleton.mp ht
      exact e ht'
    · simp [State.seekPartition, Ne.symm e]

/-- The seek that is asked for last of a partition counts. -/
theorem seeks_get (tpos : List TopicPartitionOffset) : ∀ (m : JsMap String TopicPartitionOffset) (k : String),
    ((∀ t ∈ tpos, partitionKey t ≠ k) ∧ (tpos.foldl (fun m t => m.set (partitionKey t) t) m).get? k = m.get? k) ∨
    ∃ t ∈ tpos, partitionKey t = k ∧ (tpos.foldl (fun m t => m.set (partitionKey t) t) m).get? k = some t := by
  induction tpos with
  | nil => exact fun m k => .inl ⟨fun t ht => (by cases ht), rfl⟩
  | cons t ts ih =>
    intro m k
    rw [List.foldl_cons]
    rcases ih (m.set (partitionKey t) t) k with ⟨hno, hk⟩ | ⟨u, hu, huk, hk⟩
    · by_cases e : partitionKey t = k
      · exact .inr ⟨t, List.mem_cons_self, e, by rw [hk, JsMap.get?_set, if_pos e.symm]⟩
      · refine .inl ⟨?_, by rw [hk, JsMap.get?_set, if_neg (Ne.symm e)]⟩
        intro u hu
        rcases List.mem_cons.mp hu with rfl | hu
        · exact e
        · exact hno u hu
    · exact .inr ⟨u, List.mem_cons_of_mem _ hu, huk, hk⟩

theorem seekInternal (s : State) {tpos : List TopicPartitionOffset} (hG : ∀ t ∈ tpos, G (partitionKey t) t.offset) :
    Reset G s (s.seekInternal tpos) := by
  refine Reset.foldl (s := s) ?_ ⟨⟨rfl, rfl⟩, rfl, rfl, rfl, fun _ => .inr ⟨rfl, rfl, rfl⟩⟩
  intro t ht u _
  obtain ⟨tp, _, hget⟩ := List.mem_filterMap.mp ht
  refine seekPartition u (hG t ?_)
  rcases seeks_get tpos .empty (partitionKey tp) with ⟨_, hk⟩ | ⟨t', ht', _, hk⟩
  · rw [hk] at hget; cases hget
  · obtain rfl := Option.some.inj (hk.symm.trans hget)
    exact ht'

end Reset

/-- An assigned partition that is sought has no last consumed offset afterwards. -/
theorem seekInternal_last (s : State) {tpos : List TopicPartitionOffset} {k : String} (ha : s.isAssigned k = true)
    (hk : ∃ t ∈ tpos, partitionKey t = k) : (s.seekInternal tpos).lastConsumedOffsets.get? k = none := by
  have hfold : ∀ (ts : List TopicPartitionOffset) (s : State), (∃ t ∈ ts, partitionKey t = k) →
      (ts.foldl State.seekPartition s).lastConsumedOffsets.get? k = none := by
    intro ts
    induction ts with
    | nil => rintro s ⟨t, ht, _⟩; cases ht
    | cons t ts ih =>
      rintro s ⟨u, hu, e⟩
      rw [List.foldl_cons]
      by_cases h : ∃ t ∈ ts, partitionKey t = k
      · exact ih _ h
      · rcases List.mem_cons.mp hu with rfl | hu
        · refine Reset.last_none (G := fun _ _ => True)
            (Reset.foldl (fun x _ v _ => .seekPartition v trivial) (.refl _)) ?_
          simp [State.seekPartition, e]
        · exact absurd ⟨u, hu, e⟩ h
  obtain ⟨tp, htp, e⟩ := List.any_eq_true.mp ha
  have e : partitionKey tp = k := by simpa using e
  refine hfold _ _ ?_
  rcases Reset.seeks_get tpos .empty k with ⟨hno, _⟩ | ⟨t, _, htk, hget⟩
  · obtain ⟨t, ht, htk⟩ := hk
    exact absurd htk (hno t ht)
  · exact ⟨t, List.mem_filterMap.mpr ⟨tp, htp, by rw [e]; exact hget⟩, htk⟩

theorem resetOffset_eq {s : State} {tp : TopicPartition} {t : TopicPartitionOffset}
    (h : s.resetOffset tp = some t) :
    partitionKey t = partitionKey tp ∧
      ∃ l, s.lastConsumedOffsets.get? (partitionKey tp) = some l ∧ t.offset = l.offset + 1 := by
  obtain ⟨l, hl, rfl⟩ := Option.map_eq_some_iff.mp h
  exact ⟨rfl, l, hl, rfl⟩

def State.After (s : State) (k : String) (offset : Int) : Prop :=
  ∃ l, s.lastConsumedOffsets.get? k = some l ∧ offset = l.offset + 1

theorem Reset.pauseInternal (s : State) (tps : List TopicPartition) :
    Reset s.After { s with cache := s.cache.markStale tps } (s.pauseInternal tps) := by
  refine Reset.seekInternal _ ?_
  intro t ht
  obtain ⟨tp, _, h⟩ := List.mem_filterMap.mp ht
  obtain ⟨hk, l, hl, ho⟩ := resetOffset_eq h
  exact ⟨l, hk ▸ hl, ho⟩

theorem Reset.clearCacheAndResetPositions (s : State) :
    Reset s.After { s with cache := s.cache.clear } s.clearCacheAndResetPositions := by
  refine Reset.foldl ?_ (.refl _)
  intro tp _ u hu
  refine Reset.seekInternal u ?_
  intro t ht
  obtain ⟨hk, l, hl, ho⟩ := resetOffset_eq (Option.mem_toList.mp ht)
  exact ⟨l, hk ▸ hu.last_eq hl, ho⟩

theorem pauseInternal_last (s : State) {tps : List TopicPartition} {tp : TopicPartition} (htp : tp ∈ tps)
    (ha : s.isAssigned (partitionKey tp) = true) :
    (s.pauseInternal tps).lastConsumedOffsets.get? (partitionKey tp) = none := by
  cases hl : s.lastConsumedOffsets.get? (partitionKey tp) with
  | none => exact (Reset.pauseInternal s tps).last_none hl
  | some l =>
    refine seekInternal_last _ ha ⟨⟨tp.topic, tp.partition, l.offset + 1, l.leaderEpoch⟩, ?_, rfl⟩
    exact List.mem_filterMap.mpr ⟨tp, htp, by simp [State.resetOffset, hl]⟩

theorem clearCacheAndResetPositions_last (s : State) {k : String} (ha : s.isAssigned k = true) :
    s.clearCacheAndResetPositions.lastConsumedOffsets.get? k = none := by
  have hfold : ∀ (tps : List TopicPartition) (t : State), t.isAssigned k = true →
    (∃ tp ∈ tps, partitionKey tp = k) →
      (tps.foldl (fun s tp => s.seekInternal (s.resetOffset tp).toList) t).lastConsumedOffsets.get? k = none := by
    intro tps
    induction tps with
    | nil => rintro t _ ⟨tp, h, _⟩; cases h
    | cons tp tps ih =>
      rintro t hta ⟨tp', h, e⟩
      rw [List.foldl_cons]
      by_cases hin : ∃ tp ∈ tps, partitionKey tp = k
      · refine ih _ ?_ hin
        have hr : Reset (fun _ _ => True) t (t.seekInternal (t.resetOffset tp).toList) :=
          Reset.seekInternal t fun _ _ => trivial
        unfold State.isAssigned
        rw [hr.assignment]
        exact hta
      · rcases List.mem_cons.mp h with rfl | h
        · refine Reset.last_none (G := fun _ _ => True)
            (Reset.foldl (fun x _ v _ => .seekInternal v fun _ _ => trivial) (.refl _)) ?_
          cases hl : t.lastConsumedOffsets.get? k with
          | none =>
            exact (Reset.seekInternal (G := fun _ _ => True) t fun _ _ => trivial).last_none hl
          | some l =>
            refine seekInternal_last t hta ⟨⟨tp'.topic, tp'.partition, l.offset + 1, l.leaderEpoch⟩, ?_, e⟩
            simp [State.resetOffset, e, hl]
        · exact absurd ⟨tp', h, e⟩ hin
  obtain ⟨tp, htp, e⟩ := List.any_eq_true.mp ha
  exact hfold s.assignment _ ha ⟨tp, htp, by simpa using e⟩

section
variable {cfg : Config} {s t : State}

theorem Inv.ended (hi : Inv s) (hm : s.main ≠ .workers) : ∀ w ∈ s.workers, w.phase = .done := by
  intro w hw
  obtain ⟨i, hw⟩ := List.mem_iff_getElem?.mp hw
  simpa [Worker.sketch] using hi.floor.barrier (by simpa using hm) i _ (sketches_get hw)

theorem notes_idle (hd : ∀ w ∈ s.workers, w.phase = .done) : ∀ n ∈ s.flow.notes, n = .idle := by
  intro n hn
  obtain ⟨w, hw, rfl⟩ := List.mem_map.mp hn
  rw [hd w hw]
  rfl

theorem hands_none (hd : ∀ w ∈ s.workers, w.phase.hand = none) {key : Nat → String} :
    ∀ ms p, some (ms, p) ∈ s.hands → ∀ m ∈ ms, partitionKey m = key p := by
  intro ms p hm
  obtain ⟨w, hw, e⟩ := List.mem_map.mp hm
  rw [hd w hw] at e; cases e

/-- Messages are dropped and positions set, as long as a partition that is dropped is set if it has messages. -/
theorem Track.reset (ht : Track cfg s) (hd : ∀ w ∈ s.workers, w.phase = .done) {c : Cache Message}
    {D : String → Prop}
    (hdis : s.cache.view.Discarded c.view D) {G : String → Int → Prop} (hr : Reset G { s with cache := c } t)
    (owed : List Message) (hsub : ∀ m ∈ owed, m ∈ s.owed)
    (hG : ∀ k offset, G k offset → ∀ m ∈ owed, partitionKey m = k → offset ≤ m.offset)
    (hD : ∀ k, D k → s.isAssigned k = true → s.cache.view.queueOf k = [] ∨
      s.lastConsumedOffsets.get? k ≠ none ∧ t.lastConsumedOffsets.get? k = none) : Track cfg { t with owed } := by
  have hq := hdis.queueOf s.cache.valid
  have hnil : ∀ k, s.cache.view.queueOf k = [] → c.view.queueOf k = [] := by
    intro k hk
    by_cases hP : D k
    · exact (hq k).1 hP
    · rw [(hq k).2 hP, hk]
  have hflow := ht.flow.reset (fun k => (t.cache.view.queueOf k).map (·.offset)) t.position
    (fun k => (t.lastConsumedOffsets.get? k).map (·.offset)) (owed.map Message.record)
    (P := fun k => G k (t.position k) ∧ t.cache.view.queueOf k = [] ∧ t.lastConsumedOffsets.get? k = none)
    (notes_idle hd) ?_ ?_ ?_
  · obtain ⟨he, _⟩ := hr.executed
    have hasg := hr.assignment
    have hkey := hr.key.trans hdis.key
    have hnotes : (s.workers.map fun w => w.phase.note t.cache.view.key) = s.flow.notes := by rw [hkey]; rfl
    refine ⟨?_, ⟨?_, ?_⟩, ?_⟩
    · have : ({ t with owed } : State).flow = { s.flow with
          queue := fun k => (t.cache.view.queueOf k).map (·.offset)
          position := t.position
          last := fun k => (t.lastConsumedOffsets.get? k).map (·.offset)
          owed := owed.map Message.record } := by
        show Flow.mk _ _ _ _ _ _ _ _ _ = Flow.mk _ _ _ _ _ _ _ _ _
        rw [Flow.mk.injEq]
        refine ⟨rfl, rfl, rfl, ?_, rfl, ?_, ?_, ?_, ?_⟩
        · rw [← hnotes, hr.executed.workers]
        · rw [he]; rfl
        · show (fun k => t.isAssigned k = true) = fun k => s.isAssigned k = true
          unfold State.isAssigned
          rw [hasg]
        · rw [he]; rfl
        · rw [he]; rfl
      rw [this]
      exact hflow
    · intro k m hm
      rcases hr.each k with ⟨_, hk, _⟩ | ⟨_, hk, _⟩
      · rw [show _ = [] from hk] at hm; cases hm
      · rw [show _ = c.view.queueOf k from hk] at hm
        by_cases hP : D k
        · rw [(hq k).1 hP] at hm; cases hm
        · rw [(hq k).2 hP] at hm
          exact ht.keyed.queue k m hm
    · have hw : ({ t with owed } : State).workers = s.workers := hr.executed.workers
      exact hands_none fun w h => by rw [hd w (hw ▸ h)]; rfl
    · intro h
      show cfg.eager = true → t.assignment = []
      rw [hasg]
      refine ht.eager ?_
      rw [show _ = s.rebalancing from hr.executed.same.rebalancing] at h
      exact h
  · intro r h
    obtain ⟨m, hm, rfl⟩ := List.mem_map.mp h
    exact List.mem_map_of_mem (hsub m hm)
  · rintro k ⟨hk, hq, hl⟩
    refine ⟨?_, by rw [hq]; rfl, by rw [hl]; rfl⟩
    intro o ho
    obtain ⟨m, hm, e⟩ := List.mem_map.mp ho
    obtain ⟨rfl, rfl⟩ := Prod.mk.inj e
    exact hG _ _ hk m hm rfl
  · intro k hP
    rcases hr.each k with h | ⟨hp, hk, hl⟩
    · exact absurd h hP
    · refine ⟨hp, by rw [hl]; rfl, ?_⟩
      rw [hk]
      show (c.view.queueOf k).map _ = (s.cache.view.queueOf k).map _ ∨ (c.view.queueOf k).map _ = [] ∧ _
      by_cases hDk : D k
      · by_cases ha : s.isAssigned k = true
        · rcases hD k hDk ha with h | ⟨h, h'⟩
          · exact .inl (by rw [h, hnil k h])
          · exact absurd (hl.symm.trans h') h
        · exact .inr ⟨by rw [(hq k).1 hDk]; rfl, ha⟩
      · exact .inl (by rw [(hq k).2 hDk])

/-- An assigned partition whose messages are dropped has a last consumed offset. -/
def Anchored (s : State) (k : String) : Prop := s.cache.cached k ≠ [] → s.lastConsumedOffsets.get? k ≠ none

theorem Track.after (ht : Track cfg s) {k : String} {offset : Int} (h : s.After k offset) :
    ∀ m ∈ s.owed, partitionKey m = k → offset ≤ m.offset := by
  rintro m hm rfl
  obtain ⟨l, hl, rfl⟩ := h
  have hm' := List.mem_map_of_mem (f := Message.record) hm
  have := (ht.flow.last (partitionKey m) l.offset (by simp [State.flow, hl]) (ht.flow.owed _ hm').1).2.1 _ hm'
  show l.offset + 1 ≤ m.offset
  omega

theorem Track.pauseInternal (ht : Track cfg s) (hd : ∀ w ∈ s.workers, w.phase = .done) {tps : List TopicPartition}
    (ha : ∀ tp ∈ tps, s.isAssigned (partitionKey tp) = true → Anchored s (partitionKey tp)) :
    Track cfg (s.pauseInternal tps) := by
  have hr := Reset.pauseInternal s tps
  have ho : (s.pauseInternal tps).owed = s.owed := hr.owed
  refine ht.reset hd (s.cache.markStale_discarded tps) hr (s.pauseInternal tps).owed
    (fun m hm => ho ▸ hm) (fun k offset h m hm => ht.after h m (ho ▸ hm)) ?_
  rintro k ⟨tp, htp, rfl⟩ hasg
  by_cases h : s.cache.cached (partitionKey tp) = []
  · exact .inl (by rw [← s.cache.cached_eq]; exact h)
  · exact .inr ⟨ha tp htp hasg h, pauseInternal_last s htp hasg⟩

theorem Track.clearCacheAndResetPositions (ht : Track cfg s) (hd : ∀ w ∈ s.workers, w.phase = .done)
    (ha : ∀ k, s.isAssigned k = true → Anchored s k) : Track cfg s.clearCacheAndResetPositions := by
  have hr := Reset.clearCacheAndResetPositions s
  have ho : s.clearCacheAndResetPositions.owed = s.owed := hr.owed
  refine ht.reset hd s.cache.clear_discarded hr s.clearCacheAndResetPositions.owed
    (fun m hm => ho ▸ hm) (fun k offset h m hm => ht.after h m (ho ▸ hm)) ?_
  intro k _ hasg
  by_cases h : s.cache.cached k = []
  · exact .inl (by rw [← s.cache.cached_eq]; exact h)
  · exact .inr ⟨ha k hasg h, clearCacheAndResetPositions_last s hasg⟩

/-- A seek of the application supersedes what is owed of the partition, and a processor seeks back only. -/
theorem Track.seekInternal (ht : Track cfg s) (hd : ∀ w ∈ s.workers, w.phase = .done) (tpo : TopicPartitionOffset)
    (owed : List Message) (hsub : ∀ m ∈ owed, m ∈ s.owed)
    (hle : ∀ m ∈ owed, partitionKey m = partitionKey tpo → tpo.offset ≤ m.offset) :
    Track cfg { s.seekInternal [tpo] with owed } := by
  have hr : Reset (fun k offset => k = partitionKey tpo ∧ offset = tpo.offset) s (s.seekInternal [tpo]) := by
    refine Reset.seekInternal s fun t h => ?_
    obtain rfl := List.mem_singleton.mp h
    exact ⟨rfl, rfl⟩
  refine ht.reset hd (c := s.cache) s.cache.valid.discard_nothing hr owed hsub ?_ (fun _ h => h.elim)
  rintro k offset ⟨rfl, rfl⟩ m hm e
  exact hle m hm e

theorem Track.unassign (ht : Track cfg s) (hh : ∀ w ∈ s.workers, w.phase.hand = none)
    (hna : s.rebalancing ≠ some .assign) (tps : List TopicPartition) : Track cfg (s.unassign cfg tps) := by
  have hnotes := notes_hands hh
  have hna' : ¬ s.flow.assigning := hna
  unfold State.unassign
  split_ifs with heager
  · have hd := s.cache.clear_discarded
    have hq : ∀ k, s.cache.clear.view.queueOf k = [] := fun k => (hd.queueOf s.cache.valid k).1 trivial
    refine ⟨?_, ⟨?_, hands_none hh⟩, fun h => absurd h hna⟩
    · have := ht.flow.unassign (fun k => (s.cache.clear.view.queueOf k).map (·.offset)) []
        (fun k => ([] : List TopicPartition).any (fun tp => partitionKey tp = k) = true) hnotes hna'
        (fun k h => (by cases h)) (fun r h => (by cases h)) (fun k => .inr ⟨by rw [hq]; rfl, by simp⟩)
      unfold State.flow at this ⊢
      rw [← hd.key] at this
      exact this
    · intro k m hm
      rw [show _ = [] from hq k] at hm; cases hm
  · have hd := s.cache.markStale_discarded tps
    have hq := hd.queueOf s.cache.valid
    refine ⟨?_, ⟨?_, hands_none hh⟩, fun h => absurd h hna⟩
    · have := ht.flow.unassign (fun k => ((s.cache.markStale tps).view.queueOf k).map (·.offset))
        ((s.owed.filter fun m => ¬ tps.any fun tp => partitionKey tp = partitionKey m).map Message.record)
        (fun k => (s.assignment.filter fun tp => tp ∉ tps).any (fun tp => partitionKey tp = k) = true) hnotes hna'
        ?_ ?_ ?_
      · unfold State.flow at this ⊢
        rw [← hd.key] at this
        exact this
      · intro k h
        obtain ⟨tp, htp, e⟩ := List.any_eq_true.mp h
        exact List.any_eq_true.mpr ⟨tp, (List.mem_filter.mp htp).1, e⟩
      · intro r hr
        obtain ⟨m, hm, rfl⟩ := List.mem_map.mp hr
        obtain ⟨hm, hno⟩ := List.mem_filter.mp hm
        have hm' := List.mem_map_of_mem (f := Message.record) hm
        obtain ⟨tp, htp, e⟩ := List.any_eq_true.mp (ht.flow.owed _ hm').1
        refine ⟨hm', List.any_eq_true.mpr ⟨tp, List.mem_filter.mpr ⟨htp, ?_⟩, e⟩⟩
        simp only [decide_eq_true_eq]
        intro hin
        have hno : ¬ tps.any (fun tp => partitionKey tp = partitionKey m) = true := by simpa using hno
        exact hno (List.any_eq_true.mpr ⟨tp, hin, e⟩)
      · intro k
        by_cases hk : ∃ tp ∈ tps, partitionKey tp = k
        · refine .inr ⟨by rw [(hq k).1 hk]; rfl, ?_⟩
          intro h
          obtain ⟨tp, htp, e⟩ := List.any_eq_true.mp h
          obtain ⟨tp', htp', rfl⟩ := hk
          obtain ⟨h₁, h₂⟩ := partitionKey_inj.mp (show partitionKey tp = partitionKey tp' by simpa using e)
          have heq : tp = tp' := by
            cases tp; cases tp'
            simp only [TopicPartition.mk.injEq]
            exact ⟨h₁, h₂⟩
          subst heq
          have := (List.mem_filter.mp htp).2
          simp only [decide_eq_true_eq] at this
          exact this htp'
        · exact .inl (by rw [(hq k).2 hk]; rfl)
    · intro k m hm
      have hm : m ∈ (s.cache.markStale tps).view.queueOf k := hm
      by_cases hk : ∃ tp ∈ tps, partitionKey tp = k
      · rw [(hq k).1 hk] at hm; cases hm
      · rw [(hq k).2 hk] at hm
        exact ht.keyed.queue k m hm

/-! ## Rebalances -/

theorem position_assigned (tpos : List TopicPartitionOffset) : ∀ (position : String → Int) (k : String),
    (∀ t ∈ tpos, partitionKey t ≠ k) ∧
      tpos.foldl (fun pos t => Function.update pos (partitionKey t) t.offset) position k = position k ∨
    ∃ t ∈ tpos, partitionKey t = k ∧
      tpos.foldl (fun pos t => Function.update pos (partitionKey t) t.offset) position k = t.offset := by
  induction tpos with
  | nil => exact fun position k => .inl ⟨fun t ht => (by cases ht), rfl⟩
  | cons t ts ih =>
    intro position k
    rw [List.foldl_cons]
    rcases ih (Function.update position (partitionKey t) t.offset) k with ⟨hno, hk⟩ | ⟨u, hu, huk, hk⟩
    · by_cases e : partitionKey t = k
      · refine .inr ⟨t, List.mem_cons_self, e, ?_⟩
        rw [hk, ← e, Function.update_self]
      · refine .inl ⟨?_, by rw [hk, Function.update_of_ne (Ne.symm e)]⟩
        intro u hu
        rcases List.mem_cons.mp hu with rfl | hu
        · exact e
        · exact hno u hu
    · exact .inr ⟨u, List.mem_cons_of_mem _ hu, huk, hk⟩

def State.assigning (s : State) (modified : Bool) (tpos : List TopicPartitionOffset) : List TopicPartitionOffset :=
  if modified then tpos else s.assignAsPerSeekedOffsets tpos

theorem assigning_keys {modified : Bool} {tpos : List TopicPartitionOffset} {t : TopicPartitionOffset}
    (h : t ∈ s.assigning modified tpos) : ∃ u ∈ tpos, partitionKey u = partitionKey t := by
  unfold State.assigning at h
  split_ifs at h
  · exact ⟨t, h, rfl⟩
  · obtain ⟨u, hu, rfl⟩ := List.mem_map.mp h
    refine ⟨u, hu, ?_⟩
    split
    · rfl
    · rfl

/-- Partitions come while a worker fetches, so that nothing is in the cache. -/
theorem Track.assign (ht : Track cfg s) (hi : Floor s) (hfe : s.fetchInProgress ≠ none)
    (hr : s.rebalancing = some .assign)
    {modified : Bool} {tpos : List TopicPartitionOffset} (hno : ∀ t ∈ tpos, s.isAssigned (partitionKey t) = false)
    (hlast : ∀ t ∈ s.assigning modified tpos, ∀ l, s.lastConsumedOffsets.get? (partitionKey t) = some l →
      l.offset < t.offset) : Track cfg { s.assign cfg modified tpos with rebalancing := none } := by
  have hhand : ∀ w ∈ s.workers, w.phase.hand = none := fun w hw => hi.hand_of_fetch hfe hw
  have hlive := hi.empty (Option.isSome_iff_ne_none.mpr hfe)
  have hempty : ∀ k, s.cache.view.queueOf k = [] := fun k => Leases.queueOf_of_not_live (by simp [hlive])
  have hnotes := notes_hands hhand
  have hmem : ∀ k, (s.assign cfg modified tpos).isAssigned k = true ↔
      s.isAssigned k = true ∨ ∃ t ∈ s.assigning modified tpos, partitionKey t = k := by
    intro k
    have hmap : ((s.assigning modified tpos).map TopicPartitionOffset.toppar).any
      (fun tp => partitionKey tp = k) = true ↔
        ∃ t ∈ s.assigning modified tpos, partitionKey t = k := by
      rw [List.any_map, List.any_eq_true]
      exact exists_congr fun t => and_congr_right fun _ => decide_eq_true_iff
    unfold State.isAssigned
    show ((if cfg.eager then (s.assigning modified tpos).map TopicPartitionOffset.toppar
      else s.assignment ++ (s.assigning modified tpos).map TopicPartitionOffset.toppar).any _ = true) ↔ _
    split_ifs with heager
    · rw [hmap, ht.eager hr heager]
      simp
    · rw [List.any_append, Bool.or_eq_true, hmap]
  have hassign := ht.flow.assign ((s.assigning modified tpos).foldl
      (fun pos t => Function.update pos (partitionKey t) t.offset) s.position)
    (fun k => (s.assign cfg modified tpos).isAssigned k = true) (fun k => by simp [State.flow, hempty k]) hnotes hr
    (fun k h => (hmem k).mpr (.inl h)) ?_ ?_
  · have := hassign.setAssigning ((none : Option Rebalance) = some .assign) fun h => by cases h
    exact ⟨this, ht.keyed, fun h => by cases h⟩
  · intro k hk
    rcases position_assigned (s.assigning modified tpos) s.position k with ⟨_, h⟩ | ⟨t, htm, rfl, _⟩
    · exact h
    · obtain ⟨u, hu, e⟩ := assigning_keys htm
      rw [← e] at hk
      exact absurd hk (by simp [State.flow, hno u hu])
  · intro k l hk hk' hl
    obtain ⟨l, hget, rfl⟩ := Option.map_eq_some_iff.mp hl
    obtain ⟨t, htm, e⟩ := ((hmem k).mp hk').resolve_left hk
    rcases position_assigned (s.assigning modified tpos) s.position k with ⟨hne, _⟩ | ⟨u, hu, rfl, h⟩
    · exact absurd e (hne t htm)
    · rw [h]
      exact hlast u hu l hget

theorem Track.endRebalance (ht : Track cfg { s with rebalancing := none }) : Track cfg (s.endRebalance cfg) := by
  have hend : ∀ t : State, Still s t → ∀ promises, Track cfg { t with promises, rebalancing := none } := by
    intro t hst promises
    refine ⟨?_, ?_, fun h => by cases h⟩
    · show Flow.Ok _ { t.flow with assigning := (none : Option Rebalance) = some .assign }
      rw [hst.flow]
      exact ht.flow
    · show Keyed t.cache.view.queueOf t.cache.view.key t.hands
      rw [hst.queue, hst.key, hst.hands]
      exact ht.keyed
  unfold State.endRebalance
  by_cases h : s.workersToSpawn cfg ≠ s.workers.length
  · rw [if_pos h]; exact hend _ (.resolveWorkerTerminationScheduled s) _
  · rw [if_neg h]; exact hend _ (.refl s) _

theorem Track.notRebalancing (ht : Track cfg s) : Track cfg { s with rebalancing := none } :=
  ⟨ht.flow.setAssigning _ fun h => (by cases h), ht.keyed, fun h => by cases h⟩

/-- A rebalance begins while `consume` is called, so that nothing is on its way. -/
theorem Track.rebalance (ht : Track cfg s) (hi : Floor s)
    (hc : s.workers.any (fun w => w.phase = .consuming) = true)
    {r : Rebalance} (he : ¬ (r = .assign ∧ cfg.eager = true ∧ s.assignment ≠ [])) :
    Track cfg { s with
      promises := s.promises ++ [false]
      rebalanceCbInProgress := some s.promises.length
      rebalancing := some r } := by
  obtain ⟨w, hw, hph⟩ := List.any_eq_true.mp hc
  have hph : w.phase = .consuming := by simpa using hph
  obtain ⟨i, hw⟩ := List.mem_iff_getElem?.mp hw
  have hfl : ∀ n ∈ s.flow.notes, n.flight = [] := by
    intro n hn
    obtain ⟨x, hx, rfl⟩ := List.mem_map.mp hn
    obtain ⟨j, hx⟩ := List.mem_iff_getElem?.mp hx
    have hone : x.phase.fetching = true → x.phase = .consuming := by
      intro hxf
      obtain rfl := hi.one i j _ _ (sketches_get hw) (sketches_get hx) (by rw [Worker.sketch, hph]; rfl) hxf
      obtain rfl := Option.some.inj (hw.symm.trans hx)
      exact hph
    cases hp : x.phase with
    | consumed r => rw [hp] at hone; cases hone rfl
    | waitRebalance r p => rw [hp] at hone; cases hone rfl
    | _ => rfl
  refine ⟨ht.flow.setAssigning (some r = some .assign) ?_, ht.keyed, ?_⟩
  · intro _ n hn x hx
    rw [hfl n hn] at hx; cases hx
  · intro h heager
    by_contra hne
    exact he ⟨Option.some.inj h, heager, hne⟩

/-! ## Every step -/

/-- No step goes wrong: an assigned partition whose messages are dropped by `pause` or because they expired
has a last consumed offset, no handler resolves an offset after its batch, and no partition is assigned at an
offset that it is known to be consumed up to. -/
def anchored (s : State) : Ev → Bool
  | .main =>
    match s.main, s.pendingOperations with
    | .ops, .pause tps :: _ =>
      tps.all fun tp => s.isAssigned (partitionKey tp) → s.cache.cached (partitionKey tp) ≠ [] →
        s.lastConsumedOffsets.has (partitionKey tp)
    | .ops, .clearCacheAndResetPositions :: _ => s.assignment.all fun tp => s.cache.cached (partitionKey tp) ≠ [] →
        s.lastConsumedOffsets.has (partitionKey tp)
    | _, _ => true
  | .resolveOffset i offset _ _ =>
    match s.workers[i]? with
    | some ⟨_, .handling b⟩ => b.messages.getLast?.all fun last => offset ≤ last.offset
    | _ => true
  | .rebalanced modified tpos =>
    s.rebalancing ≠ some .assign ∨ (s.assigning modified tpos).all fun t =>
      (s.lastConsumedOffsets.get? (partitionKey t)).all fun l => l.offset < t.offset
  | _ => true

theorem anchored_of_has {k : String} (h : s.cache.cached k ≠ [] → s.lastConsumedOffsets.has k = true) :
    Anchored s k :=
  fun hne => Option.isSome_iff_ne_none.mp (h hne)

theorem Track.executeOp (ht : Track cfg s) (hi : Inv s) (hm : s.main = .ops) {op : Op} {ops : List Op}
    (hops : s.pendingOperations = op :: ops) (ha : anchored s .main = true) :
    Track cfg ({ s with pendingOperations := ops }.execute cfg op) := by
  have hne : s.main ≠ .workers := by rw [hm]; simp
  have hd := hi.ended hne
  have hfe := hi.fetch_idle hne
  have ht' : Track cfg { s with pendingOperations := ops } := by
    refine ⟨ht.flow.setBack (ops.filterMap Op.back) s.flow.fetching ?_ fun h => absurd hfe h,
      ht.keyed, ht.eager⟩
    intro r hr
    refine .inl ?_
    show r ∈ s.pendingOperations.filterMap Op.back
    rw [hops]
    obtain ⟨o, ho, e⟩ := List.mem_filterMap.mp hr
    exact List.mem_filterMap.mpr ⟨o, List.mem_cons_of_mem _ ho, e⟩
  simp only [anchored, hm, hops] at ha
  cases op with
  | seek tpo user =>
    have ho : ({ s with pendingOperations := ops }.seekInternal [tpo]).owed = s.owed :=
      (Reset.seekInternal (G := fun _ _ => True) _ fun _ _ => trivial).owed
    cases user with
    | true =>
      refine ht'.seekInternal hd tpo (({ s with pendingOperations := ops }.seekInternal [tpo]).owed.filter
        fun m => partitionKey m ≠ partitionKey tpo) ?_ ?_
      · intro m hmem
        rw [ho] at hmem
        exact (List.mem_filter.mp hmem).1
      · intro m hmem e
        exact absurd e (by simpa using (List.mem_filter.mp hmem).2)
    | false =>
      refine ht'.seekInternal hd tpo ({ s with pendingOperations := ops }.seekInternal [tpo]).owed ?_ ?_
      · intro m hmem
        rw [ho] at hmem
        exact hmem
      · intro m hmem e
        rw [ho] at hmem
        refine ht.flow.back (partitionKey tpo, tpo.offset) ?_ m.offset ?_
        · show _ ∈ s.pendingOperations.filterMap Op.back
          rw [hops]
          exact List.mem_filterMap.mpr ⟨_, List.mem_cons_self, rfl⟩
        · show (partitionKey tpo, m.offset) ∈ s.owed.map Message.record
          rw [← e]
          exact List.mem_map_of_mem hmem
  | pause tps =>
    refine ht'.pauseInternal hd fun tp htp hasg => anchored_of_has ?_
    have := List.all_eq_true.mp ha tp htp
    simp only [decide_eq_true_eq] at this
    exact this hasg
  | resume _ => exact ht'
  | unassign tps =>
    refine ht'.unassign (fun w hw => by rw [hd w hw]; rfl) ?_ tps
    intro h
    have h : s.rebalancing = some .assign := h
    obtain ⟨p, hp, _⟩ := hi.prom.rebalancing (by rw [h]; simp)
    exact (hi.prom.rebalance p hp).1 hfe
  | clearCacheAndResetPositions =>
    refine ht'.clearCacheAndResetPositions hd fun k hk => ?_
    obtain ⟨tp, htp, e⟩ := List.any_eq_true.mp hk
    obtain rfl : partitionKey tp = k := by simpa using e
    have := List.all_eq_true.mp ha tp htp
    simp only [decide_eq_true_eq] at this
    exact anchored_of_has this

theorem Track.spawn (ht : Track cfg s) (hd : ∀ w ∈ s.workers, w.phase = .done) (n : Nat) :
    Track cfg { s with workers := List.replicate n ⟨none, .top⟩ } := by
  have hph : ∀ w ∈ List.replicate n (⟨none, .top⟩ : Worker), w.phase = .top := fun w hw => by
    rw [(List.mem_replicate.mp hw).2]
  refine ⟨ht.flow.setNotes (notes_idle hd) ?_, ⟨ht.keyed.queue, ?_⟩, ht.eager⟩
  · intro x hx
    obtain ⟨w, hw, rfl⟩ := List.mem_map.mp hx
    rw [hph w hw]; rfl
  · exact hands_none (s := { s with workers := List.replicate n ⟨none, .top⟩ }) fun w hw => by rw [hph w hw]; rfl

theorem Track.stepMain (ht : Track cfg s) (hi : Inv s) (ha : anchored s .main = true)
    (h : stepMain cfg s = some t) : Track cfg t := by
  have hat : ∀ {u : State} {m : Main}, Track cfg u → Track cfg { u with main := m } := fun hu =>
    ⟨hu.flow, hu.keyed, hu.eager⟩
  unfold Consumer.stepMain at h
  split at h
  · rename_i hm
    simp only at h
    split_ifs at h
    · obtain rfl := Option.some.inj h
      exact hat ht
    · obtain rfl := Option.some.inj h
      have := ht.spawn (hi.ended (by rw [hm]; simp))
        ({ s with workerTerminationScheduled := false }.workersToSpawn cfg).toNat
      exact ⟨this.flow, this.keyed, this.eager⟩
    · obtain rfl := Option.some.inj h
      exact ⟨ht.flow, ht.keyed, ht.eager⟩
  · split_ifs at h
    obtain rfl := Option.some.inj h
    exact hat ht
  · split_ifs at h
    obtain rfl := Option.some.inj h
    exact hat ht
  · rename_i hm
    split at h
    · obtain rfl := Option.some.inj h
      exact hat ht
    · rename_i op ops hops
      obtain rfl := Option.some.inj h
      have := ht.executeOp hi hm hops ha
      exact ⟨this.flow, this.keyed, this.eager⟩
  · cases h
  · cases h

theorem Track.stepTick (ht : Track cfg s) {tk : Tick} (h : stepTick s tk = some t) : Track cfg t := by
  have hat : ∀ e : Expiration, Still s { s with expiration := e } := fun _ => ⟨rfl, rfl, rfl, rfl, rfl, rfl⟩
  unfold Consumer.stepTick at h
  split_ifs at h
  · obtain rfl := Option.some.inj h
    exact (hat _).track ht
  · cases tk with
    | cacheExpired =>
      obtain rfl := Option.some.inj h
      exact ((hat .check).trans (.addPendingOperation _ rfl)).track ht
    | fetchDue =>
      obtain rfl := Option.some.inj h
      exact (Still.notifyNonEmpty s).track ht
    | early =>
      obtain rfl := Option.some.inj h
      exact ht

theorem Track.rebalanced (ht : Track cfg s) (hi : Inv s) {r : Rebalance} (hr : s.rebalancing = some r)
    {modified : Bool}
    {tpos : List TopicPartitionOffset} (ha : anchored s (.rebalanced modified tpos) = true)
    (hno : ¬ (r = .assign ∧ tpos.any (fun t => s.isAssigned (partitionKey t)) = true)) :
    Track cfg (s.rebalanced cfg r modified tpos) := by
  obtain ⟨p, hrp, _⟩ := hi.prom.rebalancing (by rw [hr]; simp)
  have hf := (hi.prom.rebalance p hrp).1
  unfold State.rebalanced
  cases r with
  | assign =>
    refine Track.endRebalance (ht.assign hi.floor hf hr ?_ ?_)
    · intro t hmem
      rw [← Bool.not_eq_true]
      exact fun h => hno ⟨rfl, List.any_eq_true.mpr ⟨t, hmem, h⟩⟩
    · intro t hmem l hl
      simp only [anchored, hr, ne_eq, not_true_eq_false, false_or, Bool.decide_eq_true] at ha
      have := List.all_eq_true.mp ha t hmem
      rw [hl] at this
      simpa using this
  | revoke =>
    refine Track.endRebalance (Track.notRebalancing ?_)
    split_ifs
    · exact ht.unassign (fun w hw => hi.floor.hand_of_fetch hf hw) (by rw [hr]; simp) _
    · exact (Still.addPendingOperation s rfl).track ht

theorem Track.step (ht : Track cfg s) (hi : Inv s) {e : Ev} (ha : anchored s e = true) (h : step cfg s e = some t) :
    Track cfg t := by
  cases e with
  | worker i =>
    obtain ⟨w, hw, h⟩ := Option.bind_eq_some_iff.mp h
    exact ht.stepWorker hi hw h
  | consumed i r =>
    simp only [Consumer.step] at h
    split at h
    · rename_i hw
      obtain ⟨position, hadv, rfl⟩ := Option.map_eq_some_iff.mp h
      exact ht.consumed hw hadv
    · cases h
  | resolveOffset i offset leaderEpoch stored =>
    simp only [Consumer.step] at h
    split at h
    · rename_i ppc b hw
      split_ifs at h
      obtain rfl := Option.some.inj h
      refine ht.resolveOffset hi.floor hw ?_
      intro last hl
      simp only [anchored, hw, hl] at ha
      simpa using ha
    · cases h
  | handled i processed stored =>
    simp only [Consumer.step] at h
    split at h
    · rename_i hw
      exact ht.stepHandled hi.floor hw rfl h
    · cases h
  | queueNonEmpty =>
    obtain rfl := Option.some.inj h
    exact (Still.queueNonEmptyCb s).track ht
  | callback j =>
    simp only [Consumer.step] at h
    split at h
    · split_ifs at h
      obtain rfl := Option.some.inj h
      exact (Still.notifyNonEmpty _).track ⟨ht.flow, ht.keyed, ht.eager⟩
    · cases h
  | seek tpo =>
    simp only [Consumer.step] at h
    split_ifs at h
    obtain rfl := Option.some.inj h
    exact (Still.seek s tpo).track ht
  | pause tps =>
    obtain rfl := Option.some.inj h
    exact (Still.pause s tps).track ht
  | resume tps =>
    obtain rfl := Option.some.inj h
    exact (Still.resume s tps).track ht
  | rebalance r =>
    simp only [Consumer.step] at h
    split_ifs at h with hc
    obtain rfl := Option.some.inj h
    exact ht.rebalance hi.floor hc.2.1 hc.2.2
  | rebalanced modified tpos =>
    obtain ⟨r, hr, h⟩ := Option.bind_eq_some_iff.mp h
    split_ifs at h with hno
    obtain rfl := Option.some.inj h
    exact ht.rebalanced hi hr ha hno
  | main => exact ht.stepMain hi ha h
  | opDone =>
    simp only [Consumer.step] at h
    split_ifs at h
    obtain rfl := Option.some.inj h
    exact ⟨ht.flow, ht.keyed, ht.eager⟩
  | tick t => exact ht.stepTick h
  | checked stale =>
    simp only [Consumer.step] at h
    split_ifs at h
    · obtain rfl := Option.some.inj h
      have := (Still.markBatchPayloadsStale s s.assignment false).track ht
      exact ⟨this.flow, this.keyed, this.eager⟩
    · obtain rfl := Option.some.inj h
      exact ⟨ht.flow, ht.keyed, ht.eager⟩
  | disconnect =>
    obtain rfl := Option.some.inj h
    exact (Still.resolveWorkerTerminationScheduled _).track ⟨ht.flow, ht.keyed, ht.eager⟩

end

theorem track_init (cfg : Config) : Track cfg (lts cfg).init := by
  have hq : ∀ k, (lts cfg).init.cache.view.queueOf k = [] := fun k =>
    Leases.queueOf_of_not_live
      (by show ∀ p ∈ (Cache.new : Cache Message).view.live, _; rw [Cache.view_new]; simp [Leases.live])
  refine ⟨⟨?_, ?_, ?_, ?_, ?_, ?_, ?_, ?_, ?_⟩, ⟨?_, ?_⟩, fun _ _ => rfl⟩
  · intro k
    simp only [State.flow, hq k]
    exact ⟨List.Pairwise.nil, fun o h => (by cases h)⟩
  · intro n h; cases h
  · intro i j n n' k os os' h; cases h
  · intro n h; cases h
  · intro k t h; cases h
  · intro r h; cases h
  · intro _; rfl
  · intro r h; cases h
  · intro n h; cases h
  · intro k m hm
    rw [hq k] at hm; cases hm
  · intro ms p h; cases h

theorem Track.run {cfg : Config} {es : List Ev} {s : State}
    (hr : (lts cfg).RunWhere (fun s e => anchored s e = true) es s) : Inv s ∧ Track cfg s :=
  Lts.RunWhere.inv (I := fun s => Inv s ∧ Track cfg s) ⟨inv_init cfg, track_init cfg⟩
    (fun _ _ _ h ha hs => ⟨h.1.step hs, h.2.step h.1 ha hs⟩) hr

/-- The messages that are in the cache or with a worker that has not called a handler with them yet. -/
def State.inside (s : State) (key : String) : List Message :=
  s.cache.cached key ++ s.workers.flatMap fun w => (w.phase.taken ++ w.phase.flight).filter fun m =>
    partitionKey m = key

/-- A message that was put in the cache and is neither delivered nor superseded is inside or will be read again. -/
def State.Safe (s : State) : Prop :=
  ∀ m ∈ s.owed, (∃ m' ∈ s.inside (partitionKey m), m'.offset = m.offset) ∨ s.position (partitionKey m) ≤ m.offset

theorem note_taken {key : Nat → String} {ph : Phase} {k : String} {os : List Int}
    (hd : (ph.note key).delivered = false)
    (h : (ph.note key).hand = some (k, os)) : ∃ p, ph.hand = some (ph.taken, p) ∧ os = ph.taken.map (·.offset) := by
  cases ph with
  | got ms p =>
    obtain ⟨_, rfl⟩ := Prod.mk.inj (Option.some.inj h)
    exact ⟨p, rfl, rfl⟩
  | deserializing ms p =>
    obtain ⟨_, rfl⟩ := Prod.mk.inj (Option.some.inj h)
    exact ⟨p, rfl, rfl⟩
  | handling b => cases hd
  | _ => cases h

theorem note_flight {key : Nat → String} (ph : Phase) : (ph.note key).flight = ph.flight.map Message.record := by
  cases ph <;> rfl

theorem Track.safe {cfg : Config} {s : State} (ht : Track cfg s) : s.Safe := by
  intro m hm
  have hin : ∀ w ∈ s.workers, ∀ m' ∈ w.phase.taken ++ w.phase.flight, partitionKey m' = partitionKey m →
      m' ∈ s.inside (partitionKey m) := by
    intro w hw m' hm' e
    refine List.mem_append_right _ (List.mem_flatMap.mpr ⟨w, hw, List.mem_filter.mpr ⟨hm', by simpa using e⟩⟩)
  rcases (ht.flow.owed _ (List.mem_map_of_mem (f := Message.record) hm)).2.2 with h | ⟨n, hn, hd, os, hh,
    ho⟩ | ⟨n, hn, h⟩ | h
  · obtain ⟨m', hm', e⟩ := List.mem_map.mp h
    refine .inl ⟨m', List.mem_append_left _ ?_, e⟩
    rw [s.cache.cached_eq]
    exact hm'
  · obtain ⟨w, hw, rfl⟩ := List.mem_map.mp hn
    obtain ⟨ms, p, hp, hk, _⟩ := note_hand hh
    obtain ⟨q, hq, rfl⟩ := note_taken hd hh
    obtain ⟨rfl, rfl⟩ := Prod.mk.inj (Option.some.inj (hp.symm.trans hq))
    obtain ⟨m', hm', e⟩ := List.mem_map.mp ho
    have hkey := ht.keyed.hand _ p (List.mem_map.mpr ⟨w, hw, hp⟩) m' hm'
    exact .inl ⟨m', hin w hw m' (List.mem_append_left _ hm') (hkey.trans hk.symm), e⟩
  · obtain ⟨w, hw, rfl⟩ := List.mem_map.mp hn
    rw [note_flight] at h
    obtain ⟨m', hm', e⟩ := List.mem_map.mp h
    obtain ⟨hk, ho⟩ := Prod.mk.inj e
    exact .inl ⟨m', hin w hw m' (List.mem_append_right _ hm') hk, ho⟩
  · exact .inr h

/-- No message is skipped in a run whose steps are all anchored. -/
theorem not_skipped {cfg : Config} {es : List Ev} {s : State}
    (hr : (lts cfg).RunWhere (fun s e => anchored s e = true) es s) : s.Safe :=
  (Track.run hr).2.safe

def oneWorker : Config := { twoPartitions with concurrency := 1, log := fun _ offset => 0 ≤ offset ∧ offset < 2 }

/-- The handler of the first of three fetched messages pauses partitions and returns; the round ends with the
pause. -/
def pausedByHandler (tps : List TopicPartition) : List Ev :=
  [.main, .worker 0, .rebalance .assign, .rebalanced false [⟨"t", 0, 0, -1⟩, ⟨"t", 1, 0, -1⟩],
    .consumed 0 (some []),
    .worker 0, .worker 0, .worker 0, .consumed 0 (some [⟨"t", 0, 0, 0⟩, ⟨"t", 0, 1, 0⟩, ⟨"t", 1, 0, 0⟩]), .worker 0,
    .worker 0, .pause tps, .handled 0 true true, .worker 0, .main, .tick .early, .main, .main]

theorem not_skipped_paused : ∃ s, (lts oneWorker).RunWhere (fun s e => anchored s e = true)
    (pausedByHandler [⟨"t", 0⟩]) s ∧
    s.owed = [⟨"t", 0, 1, 0⟩, ⟨"t", 1, 0, 0⟩] ∧ s.inside "t|0" = [] ∧ s.position "t|0" = 1 ∧ s.Safe := by
  have hs : ((lts oneWorker).exec anchored (lts oneWorker).init (pausedByHandler [⟨"t", 0⟩])).map
      (fun s => (s.owed, s.inside "t|0", s.position "t|0")) = some ([⟨"t", 0, 1, 0⟩, ⟨"t", 1, 0, 0⟩], [], 1) := by
    decide +kernel
  obtain ⟨s, hs, hx⟩ := Option.map_eq_some_iff.mp hs
  simp only [Prod.mk.injEq] at hx
  have hr := Lts.RunWhere.of_exec .nil hs
  exact ⟨s, hr, hx.1, hx.2.1, hx.2.2, not_skipped hr⟩

/-- The partition that is paused has had no message delivered, so that nothing tells where to seek back to. -/
theorem paused_skips : ∃ s, (lts oneWorker).Run (pausedByHandler [⟨"t", 1⟩]) s ∧ ¬ s.Safe := by
  have hs : ((lts oneWorker).exec (fun _ _ => true) (lts oneWorker).init (pausedByHandler [⟨"t", 1⟩])).map
      (fun s => (s.owed, s.inside "t|1", s.position "t|1")) = some ([⟨"t", 0, 1, 0⟩, ⟨"t", 1, 0, 0⟩], [], 1) := by
    decide +kernel
  obtain ⟨s, hs, hx⟩ := Option.map_eq_some_iff.mp hs
  simp only [Prod.mk.injEq] at hx
  obtain ⟨ho, hin, hp⟩ := hx
  refine ⟨s, Lts.Run.of_exec hs, fun hsafe => ?_⟩
  have hk : partitionKey (⟨"t", 1, 0, 0⟩ : Message) = "t|1" := by decide +kernel
  have := hsafe ⟨"t", 1, 0, 0⟩ (by rw [ho]; simp)
  rw [hk, hin, hp] at this
  simp at this

end Consumer

end ConfluentKafka
