import Mathlib.Data.List.Basic
import Mathlib.Data.List.Pairwise

/-!
# Readers of partitioned logs

Several readers take the records of partitioned logs, in their order, from one
queue a partition, which is filled from the position of the partition on. A
record is a key and an offset. `owed` are the records that were queued and not
yet delivered; none is lost as long as each is in a queue, in the hands of a
reader, on its way to a queue, or not before the position.

`Ok` is the invariant, with one lemma for each thing that happens.
-/

namespace ConfluentKafka

/-- What a reader has: offsets of a key, taken and perhaps delivered, and records on their way to the queues. -/
structure Note (κ : Type) where
  hand : Option (κ × List Int)
  delivered : Bool
  resolved : Option Int
  flight : List (κ × Int)

namespace Note

variable {κ : Type}

def idle : Note κ := ⟨none, false, none, []⟩

end Note

structure Flow (κ : Type) where
  queue : κ → List Int
  position : κ → Int
  last : κ → Option Int
  notes : List (Note κ)
  owed : List (κ × Int)
  back : List (κ × Int)
  assigned : κ → Prop
  fetching : Prop
  assigning : Prop

namespace Flow

variable {κ : Type} [DecidableEq κ]

def Kept (f : Flow κ) (r : κ × Int) : Prop :=
  r.2 ∈ f.queue r.1 ∨ (∃ n ∈ f.notes, n.delivered = false ∧ ∃ os, n.hand = some (r.1, os) ∧ r.2 ∈ os) ∨
    (∃ n ∈ f.notes, r ∈ n.flight) ∨ f.position r.1 ≤ r.2

def flightOf (n : Note κ) (k : κ) : List Int := (n.flight.filter fun r => r.1 = k).map Prod.snd

structure Ok (log : κ → Int → Prop) (f : Flow κ) : Prop where
  queue : ∀ k, (f.queue k).Pairwise (· < ·) ∧ ∀ o ∈ f.queue k, o < f.position k
  hand : ∀ n ∈ f.notes, ∀ k os, n.hand = some (k, os) → (os ++ f.queue k).Pairwise (· < ·) ∧ ∀ o ∈ os,
    o < f.position k
  apart : ∀ (i j : Nat) (n n' : Note κ) (k : κ) (os os' : List Int), f.notes[i]? = some n → f.notes[j]? = some n' →
    n.hand = some (k, os) → n'.hand = some (k, os') → i = j
  flight : ∀ n ∈ f.notes, (∀ k, (flightOf n k).Pairwise (· < ·)) ∧
    ∀ r ∈ n.flight, r.2 < f.position r.1 ∧ log r.1 r.2 ∧ (f.assigning → f.assigned r.1)
  last : ∀ k t, f.last k = some t → f.assigned k → t < f.position k ∧ (∀ o, (k, o) ∈ f.owed → t < o) ∧
    ∀ n ∈ f.notes, ∀ o, (k, o) ∈ n.flight → t < o
  back : ∀ r ∈ f.back, ∀ o, (r.1, o) ∈ f.owed → r.2 ≤ o
  fetch : f.fetching → f.back = []
  owed : ∀ r ∈ f.owed, f.assigned r.1 ∧ log r.1 r.2 ∧ f.Kept r
  resolved : ∀ n ∈ f.notes, ∀ k os t o, n.hand = some (k, os) → n.resolved = some t → os.getLast? = some o → t ≤ o

namespace Ok

variable {log : κ → Int → Prop} {f : Flow κ} (hf : f.Ok log)
include hf

/-- What is owed of a key comes after what a reader was delivered of it. -/
theorem owed_after {n : Note κ} (hn : n ∈ f.notes) (hd : n.delivered = true) {k : κ} {os : List Int}
    (hh : n.hand = some (k, os)) (hfl : ∀ n' ∈ f.notes, n'.flight = []) {o o' : Int} (ho : o ∈ os)
    (ho' : (k, o') ∈ f.owed) : o < o' := by
  obtain ⟨hord, hpos⟩ := hf.hand n hn k os hh
  rcases (hf.owed _ ho').2.2 with h | ⟨n', hn', hd', os', hh', _⟩ | ⟨n', hn', h⟩ | h
  · exact (List.pairwise_append.mp hord).2.2 o ho o' h
  · obtain ⟨i, hi⟩ := List.mem_iff_getElem?.mp hn
    obtain ⟨j, hj⟩ := List.mem_iff_getElem?.mp hn'
    obtain rfl := hf.apart i j n n' k os os' hi hj hh hh'
    obtain rfl := Option.some.inj (hi.symm.trans hj)
    rw [hd] at hd'; cases hd'
  · rw [hfl n' hn'] at h; cases h
  · exact Int.lt_of_lt_of_le (hpos o ho) h

/-- What is owed of a key is not before the first that a reader has taken of it. -/
theorem owed_from {n : Note κ} (hn : n ∈ f.notes) {k : κ} (o : Int) (os : List Int)
    (hh : n.hand = some (k, o :: os))
    (hfl : ∀ n' ∈ f.notes, n'.flight = []) {o' : Int} (ho' : (k, o') ∈ f.owed) : o ≤ o' := by
  obtain ⟨hord, hpos⟩ := hf.hand n hn k _ hh
  have hle : ∀ x ∈ os ++ f.queue k, o < x := (List.pairwise_cons.mp hord).1
  rcases (hf.owed _ ho').2.2 with h | ⟨n', hn', _, os', hh', hm⟩ | ⟨n', hn', h⟩ | h
  · exact Int.le_of_lt (hle o' (List.mem_append_right _ h))
  · obtain ⟨i, hi⟩ := List.mem_iff_getElem?.mp hn
    obtain ⟨j, hj⟩ := List.mem_iff_getElem?.mp hn'
    obtain rfl := hf.apart i j n n' k _ os' hi hj hh hh'
    obtain rfl := Option.some.inj (hi.symm.trans hj)
    obtain ⟨_, rfl⟩ := Prod.mk.inj (Option.some.inj (hh.symm.trans hh'))
    rcases List.mem_cons.mp hm with rfl | hm
    · exact Int.le_refl _
    · exact Int.le_of_lt (hle o' (List.mem_append_left _ hm))
  · rw [hfl n' hn'] at h; cases h
  · exact Int.le_of_lt (Int.lt_of_lt_of_le (hpos o List.mem_cons_self) h)

end Ok

theorem mem_set_iff {α : Type} {l : List α} {i : Nat} {x y z : α} (hx : l[i]? = some x) :
    z ∈ l.set i y ↔ z = y ∨ ∃ j, j ≠ i ∧ l[j]? = some z := by
  have hlt : i < l.length := (List.getElem?_eq_some_iff.mp hx).1
  rw [List.mem_iff_getElem?]
  constructor
  · rintro ⟨j, hj⟩
    rw [List.getElem?_set] at hj
    split_ifs at hj with h
    · exact .inl (Option.some.inj hj).symm
    · exact .inr ⟨j, Ne.symm h, hj⟩
  · rintro (rfl | ⟨j, hj, hz⟩)
    · exact ⟨i, by rw [List.getElem?_set_self hlt]⟩
    · exact ⟨j, by rw [List.getElem?_set_ne (Ne.symm hj)]; exact hz⟩

theorem mem_of_set {α : Type} {l : List α} {i j : Nat} {x y z : α} (hx : l[i]? = some x) (hz : l[j]? = some z)
    (hne : j ≠ i) : z ∈ l.set i y := (mem_set_iff hx).mpr (.inr ⟨j, hne, hz⟩)

omit [DecidableEq κ] in
/-- What is kept stays kept when one note changes, if what is lost with the note is in the new one or a queue. -/
theorem Kept.set {f : Flow κ} {queue : κ → List Int} {owed : List (κ × Int)} {i : Nat} {n n' : Note κ}
    (hn : f.notes[i]? = some n) {r : κ × Int} (hr : f.Kept r)
    (hq : r.2 ∈ f.queue r.1 → ({ f with queue, owed, notes := f.notes.set i n' } : Flow κ).Kept r)
    (hh : n.delivered = false → ∀ os, n.hand = some (r.1, os) → r.2 ∈ os →
      ({ f with queue, owed, notes := f.notes.set i n' } : Flow κ).Kept r)
    (hfl : r ∈ n.flight → ({ f with queue, owed, notes := f.notes.set i n' } : Flow κ).Kept r) :
    ({ f with queue, owed, notes := f.notes.set i n' } : Flow κ).Kept r := by
  rcases hr with h | ⟨x, hx, hd, os, ho, hm⟩ | ⟨x, hx, h⟩ | h
  · exact hq h
  · obtain ⟨j, hj⟩ := List.mem_iff_getElem?.mp hx
    by_cases hji : j = i
    · subst hji
      obtain rfl := Option.some.inj (hn.symm.trans hj)
      exact hh hd os ho hm
    · exact .inr (.inl ⟨x, mem_of_set hn hj hji, hd, os, ho, hm⟩)
  · obtain ⟨j, hj⟩ := List.mem_iff_getElem?.mp hx
    by_cases hji : j = i
    · subst hji
      obtain rfl := Option.some.inj (hn.symm.trans hj)
      exact hfl h
    · exact .inr (.inr (.inl ⟨x, mem_of_set hn hj hji, h⟩))
  · exact .inr (.inr (.inr h))

namespace Ok

variable {log : κ → Int → Prop} {f : Flow κ} (hf : f.Ok log)
include hf

/-- The note of a reader changes, with the queues and what is owed. -/
theorem set {queue : κ → List Int} {owed : List (κ × Int)} {i : Nat} {n n' : Note κ} (hi : f.notes[i]? = some n)
    (hq : ∀ k, (queue k).Pairwise (· < ·) ∧ ∀ o ∈ queue k, o < f.position k)
    (hsame : ∀ (j : Nat) (m : Note κ) (k : κ) (os : List Int), j ≠ i → f.notes[j]? = some m →
      m.hand = some (k, os) →
      queue k = f.queue k)
    (hhand : ∀ k os, n'.hand = some (k, os) → (os ++ queue k).Pairwise (· < ·) ∧ (∀ o ∈ os, o < f.position k) ∧
      ∀ (j : Nat) (m : Note κ) (os' : List Int), j ≠ i → f.notes[j]? = some m → m.hand ≠ some (k, os'))
    (hfl : n'.flight = [])
    (hlast : ∀ k t, f.last k = some t → f.assigned k → ∀ o, (k, o) ∈ owed → t < o)
    (hback : ∀ r ∈ f.back, ∀ o, (r.1, o) ∈ owed → r.2 ≤ o)
    (howed : ∀ r ∈ owed, f.assigned r.1 ∧ log r.1 r.2 ∧ ({ f with queue, owed, notes := f.notes.set i n' } :
      Flow κ).Kept r)
    (hres : ∀ k os t o, n'.hand = some (k, os) → n'.resolved = some t → os.getLast? = some o → t ≤ o) :
    Ok log { f with queue, owed, notes := f.notes.set i n' } := by
  refine ⟨hq, ?_, ?_, ?_, ?_, hback, hf.fetch, howed, ?_⟩
  · intro x hx k os hh
    rcases (mem_set_iff hi).mp hx with rfl | ⟨j, hji, hj⟩
    · exact ⟨(hhand k os hh).1, (hhand k os hh).2.1⟩
    · show (os ++ queue k).Pairwise _ ∧ _
      rw [hsame j x k os hji hj hh]
      exact hf.hand x (List.mem_of_getElem? hj) k os hh
  · intro a b x y k os₁ os₂ ha hb h₁ h₂
    rw [List.getElem?_set] at ha hb
    split_ifs at ha hb with h₃ h₄ h₅ h₆
    · exact h₃.symm.trans h₅
    · obtain rfl := Option.some.inj ha
      exact absurd h₂ ((hhand k os₁ h₁).2.2 b y os₂ (Ne.symm h₅) hb)
    · obtain rfl := Option.some.inj hb
      exact absurd h₁ ((hhand k os₂ h₂).2.2 a x os₁ (Ne.symm h₃) ha)
    · exact hf.apart a b x y k os₁ os₂ ha hb h₁ h₂
  · intro x hx
    rcases (mem_set_iff hi).mp hx with rfl | ⟨j, _, hj⟩
    · unfold flightOf
      rw [hfl]
      exact ⟨fun _ => List.Pairwise.nil, fun r hr => (by cases hr)⟩
    · exact hf.flight x (List.mem_of_getElem? hj)
  · intro k t ht ha
    obtain ⟨h₁, _, h₃⟩ := hf.last k t ht ha
    refine ⟨h₁, hlast k t ht ha, fun x hx o ho => ?_⟩
    rcases (mem_set_iff hi).mp hx with rfl | ⟨j, _, hj⟩
    · rw [hfl] at ho; cases ho
    · exact h₃ x (List.mem_of_getElem? hj) o ho
  · intro x hx k os t o hh ht hl
    rcases (mem_set_iff hi).mp hx with rfl | ⟨j, _, hj⟩
    · exact hres k os t o hh ht hl
    · exact hf.resolved x (List.mem_of_getElem? hj) k os t o hh ht hl

theorem apart_of {i : Nat} {n : Note κ} (hi : f.notes[i]? = some n) {k : κ} {os : List Int}
    (hh : n.hand = some (k, os))
    (j : Nat) (m : Note κ) (os' : List Int) (hji : j ≠ i) (hj : f.notes[j]? = some m) : m.hand ≠ some (k, os') :=
  fun h => hji (hf.apart j i m n k os' os hj hi h hh)

/-- A reader takes the first offsets of a queue that no other reader has offsets of. -/
theorem take (queue : κ → List Int) (k : κ) (os : List Int) {i : Nat} (hi : f.notes[i]? = some .idle)
    (hq : ∀ k', f.queue k' = (if k = k' then os else []) ++ queue k')
    (hno : ∀ n ∈ f.notes, ∀ os', n.hand ≠ some (k, os')) :
    Ok log { f with queue, notes := f.notes.set i ⟨some (k, os), false, none, []⟩ } := by
  have hk : f.queue k = os ++ queue k := by simpa using hq k
  have hother : ∀ k', k' ≠ k → queue k' = f.queue k' := fun k' h => by simpa [Ne.symm h] using (hq k').symm
  have hord := hf.queue k
  rw [hk] at hord
  refine hf.set hi ?_ ?_ ?_ rfl (fun k t ht ha => (hf.last k t ht ha).2.1) hf.back ?_
    (fun _ _ _ _ _ h => by cases h)
  · intro k'
    by_cases h : k' = k
    · subst h
      exact ⟨(List.pairwise_append.mp hord.1).2.1, fun o ho => hord.2 o (List.mem_append_right _ ho)⟩
    · rw [hother k' h]
      exact hf.queue k'
  · intro j m k' os' _ hj hh
    exact hother k' fun e => hno m (List.mem_of_getElem? hj) os' (e ▸ hh)
  · intro k' os' hh
    obtain ⟨rfl, rfl⟩ := Prod.mk.inj (Option.some.inj hh)
    exact ⟨hord.1, fun o ho => hord.2 o (List.mem_append_left _ ho), fun j m os' _ hj =>
      hno m (List.mem_of_getElem? hj) os'⟩
  · intro r hr
    obtain ⟨h₁, h₂, h₃⟩ := hf.owed r hr
    refine ⟨h₁, h₂, h₃.set hi ?_ (fun _ _ h => by cases h) (fun h => by cases h)⟩
    intro hm
    by_cases h : r.1 = k
    · rw [h, hk] at hm
      rcases List.mem_append.mp hm with hm | hm
      · exact .inr (.inl ⟨_, (mem_set_iff hi).mpr (.inl rfl), rfl, os, by rw [h], hm⟩)
      · exact .inl (by rw [h]; exact hm)
    · exact .inl (show r.2 ∈ queue r.1 by rw [hother _ h]; exact hm)

theorem putBack (queue : κ → List Int) {i : Nat} {n : Note κ} (k : κ) (os : List Int) (hi : f.notes[i]? = some n)
    (hh : n.hand = some (k, os)) (hfl : n.flight = [])
    (hq : ∀ k', queue k' = (if k = k' then os else []) ++ f.queue k') :
    Ok log { f with queue, notes := f.notes.set i .idle } := by
  have hk : queue k = os ++ f.queue k := by simpa using hq k
  have hother : ∀ k', k' ≠ k → queue k' = f.queue k' := fun k' h => by simpa [Ne.symm h] using hq k'
  obtain ⟨hord, hpos⟩ := hf.hand n (List.mem_of_getElem? hi) k os hh
  refine hf.set hi ?_ ?_ (fun _ _ h => by cases h) rfl (fun k t ht ha => (hf.last k t ht ha).2.1) hf.back ?_
    (fun _ _ _ _ h => by cases h)
  · intro k'
    by_cases h : k' = k
    · subst h
      rw [hk]
      exact ⟨hord, fun o ho => (List.mem_append.mp ho).elim (hpos o) ((hf.queue k').2 o)⟩
    · rw [hother k' h]
      exact hf.queue k'
  · intro j m k' os' hji hj hh'
    exact hother k' fun e => hf.apart_of hi hh j m os' hji hj (e ▸ hh')
  · intro r hr
    obtain ⟨h₁, h₂, h₃⟩ := hf.owed r hr
    refine ⟨h₁, h₂, h₃.set hi ?_ ?_ (fun h => by rw [hfl] at h; cases h)⟩
    · intro hm
      refine .inl ?_
      show r.2 ∈ queue r.1
      rw [hq]
      exact List.mem_append_right _ hm
    · intro _ os' hh' hm
      obtain ⟨e, rfl⟩ := Prod.mk.inj (Option.some.inj (hh.symm.trans hh'))
      refine .inl ?_
      show r.2 ∈ queue r.1
      rw [← e, hk]
      exact List.mem_append_left _ hm

theorem deliver (owed : List (κ × Int)) {i : Nat} {n : Note κ} {k : κ} {os : List Int} (hi : f.notes[i]? = some n)
    (hh : n.hand = some (k, os)) (hfl : n.flight = [])
    (howed : ∀ r ∈ owed, r ∈ f.owed ∧ ¬ (r.1 = k ∧ r.2 ∈ os)) :
    Ok log { f with owed, notes := f.notes.set i ⟨some (k, os), true, none, []⟩ } := by
  refine hf.set hi hf.queue (fun _ _ _ _ _ _ _ => rfl) ?_ rfl ?_ ?_ ?_ (fun _ _ _ _ _ h => by cases h)
  · intro k' os' hh'
    obtain ⟨rfl, rfl⟩ := Prod.mk.inj (Option.some.inj hh')
    obtain ⟨h₁, h₂⟩ := hf.hand n (List.mem_of_getElem? hi) k os hh
    exact ⟨h₁, h₂, hf.apart_of hi hh⟩
  · intro k' t ht ha o ho
    exact (hf.last k' t ht ha).2.1 o (howed _ ho).1
  · intro r hr o ho
    exact hf.back r hr o (howed _ ho).1
  · intro r hr
    obtain ⟨hr, hne⟩ := howed r hr
    obtain ⟨h₁, h₂, h₃⟩ := hf.owed r hr
    refine ⟨h₁, h₂, h₃.set hi .inl ?_ (fun h => by rw [hfl] at h; cases h)⟩
    intro _ os' hh' hm
    obtain ⟨e, rfl⟩ := Prod.mk.inj (Option.some.inj (hh.symm.trans hh'))
    exact absurd ⟨e.symm, hm⟩ hne

/-- A reader resolves an offset of those it was delivered, or is done with them. -/
theorem handle {i : Nat} {n n' : Note κ} {k : κ} {os : List Int} (hi : f.notes[i]? = some n)
    (hh : n.hand = some (k, os)) (hd : n.delivered = true) (hfl : n.flight = [])
    (hn' : n' = .idle ∨ n'.hand = n.hand ∧ n'.flight = [] ∧
      ∀ t o, n'.resolved = some t → os.getLast? = some o → t ≤ o) :
    Ok log { f with notes := f.notes.set i n' } := by
  have hkeep : ∀ r ∈ f.owed, f.assigned r.1 ∧ log r.1 r.2 ∧
    ({ f with notes := f.notes.set i n' } : Flow κ).Kept r := by
    intro r hr
    obtain ⟨h₁, h₂, h₃⟩ := hf.owed r hr
    exact ⟨h₁, h₂, h₃.set hi .inl (fun h => by rw [hd] at h; cases h) (fun h => by rw [hfl] at h; cases h)⟩
  have hlast : ∀ k t, f.last k = some t → f.assigned k → ∀ o, (k, o) ∈ f.owed → t < o := fun k t ht ha =>
    (hf.last k t ht ha).2.1
  rcases hn' with rfl | ⟨hh', hfl', hres⟩
  · exact hf.set hi hf.queue (fun _ _ _ _ _ _ _ => rfl) (fun _ _ h => by cases h) rfl hlast hf.back hkeep
      (fun _ _ _ _ h => by cases h)
  · refine hf.set hi hf.queue (fun _ _ _ _ _ _ _ => rfl) ?_ hfl' hlast hf.back hkeep ?_
    · intro k' os' e
      rw [hh'] at e
      obtain ⟨h₁, h₂⟩ := hf.hand n (List.mem_of_getElem? hi) k' os' e
      exact ⟨h₁, h₂, hf.apart_of hi e⟩
    · intro k' os' t o e ht hl
      rw [hh', hh] at e
      obtain ⟨_, rfl⟩ := Prod.mk.inj (Option.some.inj e)
      exact hres t o ht hl

theorem put (queue : κ → List Int) (owed : List (κ × Int)) {i : Nat} {n : Note κ} (hi : f.notes[i]? = some n)
    (hh : n.hand = none) (hempty : ∀ k, f.queue k = []) (hhands : ∀ m ∈ f.notes, m.hand = none) (hfe : f.fetching)
    (hq : ∀ k, queue k = flightOf n k) (howed : ∀ r ∈ owed, r ∈ f.owed ∨ r ∈ n.flight ∧ f.assigned r.1) :
    Ok log { f with queue, owed, notes := f.notes.set i .idle } := by
  obtain ⟨hord, hfl⟩ := hf.flight n (List.mem_of_getElem? hi)
  have hmem : ∀ r ∈ n.flight, r.2 ∈ queue r.1 := by
    intro r hr
    rw [hq]
    exact List.mem_map.mpr ⟨r, List.mem_filter.mpr ⟨hr, by simp⟩, rfl⟩
  refine hf.set hi ?_ ?_ (fun _ _ h => by cases h) rfl ?_ ?_ ?_ (fun _ _ _ _ h => by cases h)
  · intro k
    rw [hq]
    refine ⟨hord k, fun o ho => ?_⟩
    obtain ⟨r, hr, rfl⟩ := List.mem_map.mp ho
    obtain ⟨hm, e⟩ := List.mem_filter.mp hr
    obtain rfl : r.1 = k := by simpa using e
    exact (hfl r hm).1
  · intro j m k os _ hj hh'
    rw [hhands m (List.mem_of_getElem? hj)] at hh'; cases hh'
  · intro k t ht ha o ho
    obtain ⟨_, h₂, h₃⟩ := hf.last k t ht ha
    exact (howed _ ho).elim (h₂ o) fun h => h₃ n (List.mem_of_getElem? hi) o h.1
  · intro r hr
    rw [hf.fetch hfe] at hr; cases hr
  · intro r hr
    rcases howed r hr with hr | ⟨hr, ha⟩
    · obtain ⟨h₁, h₂, h₃⟩ := hf.owed r hr
      refine ⟨h₁, h₂, h₃.set hi (fun h => by rw [hempty] at h; cases h) (fun _ _ h => by rw [hh] at h; cases h) ?_⟩
      exact fun h => .inl (hmem r h)
    · exact ⟨ha, (hfl r hr).2.1, .inl (hmem r hr)⟩

/-- The last consumed offset of a key is recorded anew, before everything that is owed of it. -/
theorem setLast (last : κ → Option Int) (hlast : ∀ k t, last k = some t → f.assigned k → f.last k = some t ∨
    t < f.position k ∧ (∀ o, (k, o) ∈ f.owed → t < o) ∧ ∀ n ∈ f.notes, ∀ o, (k, o) ∈ n.flight → t < o) :
    Ok log { f with last } :=
  ⟨hf.queue, hf.hand, hf.apart, hf.flight, fun k t ht ha => (hlast k t ht ha).elim (fun h => hf.last k t h ha) id,
    hf.back, hf.fetch, hf.owed, hf.resolved⟩

/-- Some of the seeks back that were asked for are left, or new ones are asked for. -/
theorem setBack (back : List (κ × Int)) (fetching : Prop) (hback : ∀ r ∈ back, r ∈ f.back ∨ ∀ o,
    (r.1, o) ∈ f.owed → r.2 ≤ o)
    (hfe : fetching → back = []) : Ok log { f with back, fetching } :=
  ⟨hf.queue, hf.hand, hf.apart, hf.flight, hf.last, fun r hr o ho => (hback r hr).elim
    (fun h => hf.back r h o ho) (· o ho),
    hfe, hf.owed, hf.resolved⟩

theorem setAssigning (assigning : Prop) (ha : assigning → ∀ n ∈ f.notes, ∀ r ∈ n.flight, f.assigned r.1) :
    Ok log { f with assigning } :=
  ⟨hf.queue, hf.hand, hf.apart, fun n hn => ⟨(hf.flight n hn).1, fun r hr =>
    ⟨((hf.flight n hn).2 r hr).1, ((hf.flight n hn).2 r hr).2.1, fun h => ha h n hn r hr⟩⟩, hf.last,
      hf.back, hf.fetch,
    hf.owed, hf.resolved⟩

/-- Records are read from the positions on, and none in between is left out. -/
theorem read {position : κ → Int} {fl : List (κ × Int)} {i : Nat} (hi : f.notes[i]? = some .idle)
    (hle : ∀ k, f.position k ≤ position k)
    (hord : ∀ k, (flightOf ⟨none, false, none, fl⟩ k).Pairwise (· < ·))
    (hfl : ∀ r ∈ fl, f.position r.1 ≤ r.2 ∧ r.2 < position r.1 ∧ log r.1 r.2 ∧ f.assigned r.1)
    (hall : ∀ r : κ × Int, log r.1 r.2 → f.position r.1 ≤ r.2 → r.2 < position r.1 → r ∈ fl) :
    Ok log { f with position, notes := f.notes.set i ⟨none, false, none, fl⟩ } := by
  have hold : ∀ x ∈ f.notes.set i ⟨none, false, none, fl⟩, x = ⟨none, false, none, fl⟩ ∨ x ∈ f.notes := fun x hx =>
    ((mem_set_iff hi).mp hx).imp id fun ⟨j, _, hj⟩ => List.mem_of_getElem? hj
  refine ⟨?_, ?_, ?_, ?_, ?_, hf.back, hf.fetch, ?_, ?_⟩
  · intro k
    exact ⟨(hf.queue k).1, fun o ho => Int.lt_of_lt_of_le ((hf.queue k).2 o ho) (hle k)⟩
  · intro x hx k os hh
    rcases hold x hx with rfl | hx
    · cases hh
    · obtain ⟨h₁, h₂⟩ := hf.hand x hx k os hh
      exact ⟨h₁, fun o ho => Int.lt_of_lt_of_le (h₂ o ho) (hle k)⟩
  · intro a b x y k os₁ os₂ ha hb h₁ h₂
    rw [List.getElem?_set] at ha hb
    split_ifs at ha hb with h₃ h₄ h₅ h₆
    · exact h₃.symm.trans h₅
    · obtain rfl := Option.some.inj ha
      cases h₁
    · obtain rfl := Option.some.inj hb
      cases h₂
    · exact hf.apart a b x y k os₁ os₂ ha hb h₁ h₂
  · intro x hx
    rcases hold x hx with rfl | hx
    · exact ⟨hord, fun r hr => ⟨(hfl r hr).2.1, (hfl r hr).2.2.1, fun _ => (hfl r hr).2.2.2⟩⟩
    · obtain ⟨h₁, h₂⟩ := hf.flight x hx
      exact ⟨h₁, fun r hr => ⟨Int.lt_of_lt_of_le (h₂ r hr).1 (hle r.1), (h₂ r hr).2⟩⟩
  · intro k t ht ha
    obtain ⟨h₁, h₂, h₃⟩ := hf.last k t ht ha
    refine ⟨Int.lt_of_lt_of_le h₁ (hle k), h₂, fun x hx o ho => ?_⟩
    rcases hold x hx with rfl | hx
    · exact Int.lt_of_lt_of_le h₁ (hfl _ ho).1
    · exact h₃ x hx o ho
  · intro r hr
    obtain ⟨h₁, h₂, h₃⟩ := hf.owed r hr
    refine ⟨h₁, h₂, ?_⟩
    rcases h₃ with h | ⟨x, hx, hd, os, ho, hm⟩ | ⟨x, hx, h⟩ | h
    · exact .inl h
    · obtain ⟨j, hj⟩ := List.mem_iff_getElem?.mp hx
      have hji : j ≠ i := by
        rintro rfl
        obtain rfl := Option.some.inj (hi.symm.trans hj)
        cases ho
      exact .inr (.inl ⟨x, mem_of_set hi hj hji, hd, os, ho, hm⟩)
    · obtain ⟨j, hj⟩ := List.mem_iff_getElem?.mp hx
      have hji : j ≠ i := by
        rintro rfl
        obtain rfl := Option.some.inj (hi.symm.trans hj)
        cases h
      exact .inr (.inr (.inl ⟨x, mem_of_set hi hj hji, h⟩))
    · by_cases hp : position r.1 ≤ r.2
      · exact .inr (.inr (.inr hp))
      · exact .inr (.inr (.inl ⟨_, (mem_set_iff hi).mpr (.inl rfl), hall r h₂ h (by omega)⟩))
  · intro x hx k os t o hh ht hl
    rcases hold x hx with rfl | hx
    · cases hh
    · exact hf.resolved x hx k os t o hh ht hl

/-- While the readers are idle, queues are dropped and positions set. What is still owed must not be before a
position that is set, and a queue that is dropped alone must be empty or of a key that is not assigned. -/
theorem reset (queue : κ → List Int) (position : κ → Int) (last : κ → Option Int) (owed : List (κ × Int))
    {P : κ → Prop}
    (hidle : ∀ n ∈ f.notes, n = .idle) (hsub : ∀ r ∈ owed, r ∈ f.owed)
    (hset : ∀ k, P k → (∀ o, (k, o) ∈ owed → position k ≤ o) ∧ queue k = [] ∧ last k = none)
    (hkeep : ∀ k, ¬ P k → position k = f.position k ∧ last k = f.last k ∧
      (queue k = f.queue k ∨ queue k = [] ∧ ¬ f.assigned k)) :
    Ok log { f with queue, position, last, owed } := by
  have hnone : ∀ n ∈ f.notes, n.hand = none ∧ n.flight = [] := fun n hn => by rw [hidle n hn]; exact ⟨rfl, rfl⟩
  refine ⟨?_, ?_, hf.apart, ?_, ?_, fun r hr o ho => hf.back r hr o (hsub _ ho), hf.fetch, ?_, hf.resolved⟩
  · intro k
    show (queue k).Pairwise _ ∧ ∀ o ∈ queue k, o < position k
    by_cases hP : P k
    · rw [(hset k hP).2.1]
      exact ⟨List.Pairwise.nil, fun o ho => (by cases ho)⟩
    · obtain ⟨hp, _, hq | ⟨hq, _⟩⟩ := hkeep k hP
      · rw [hp, hq]
        exact hf.queue k
      · rw [hq]
        exact ⟨List.Pairwise.nil, fun o ho => (by cases ho)⟩
  · intro n hn k os hh
    rw [(hnone n hn).1] at hh; cases hh
  · intro n hn
    unfold flightOf
    rw [(hnone n hn).2]
    exact ⟨fun _ => List.Pairwise.nil, fun r hr => (by cases hr)⟩
  · intro k t ht ha
    by_cases hP : P k
    · exact absurd ((hset k hP).2.2.symm.trans ht) (by simp)
    · obtain ⟨hp, hl, _⟩ := hkeep k hP
      show t < position k ∧ _
      rw [hp]
      obtain ⟨h₁, h₂, h₃⟩ := hf.last k t (hl ▸ ht) ha
      exact ⟨h₁, fun o ho => h₂ o (hsub _ ho), h₃⟩
  · intro r hr
    obtain ⟨h₁, h₂, h₃⟩ := hf.owed r (hsub r hr)
    refine ⟨h₁, h₂, ?_⟩
    by_cases hP : P r.1
    · exact .inr (.inr (.inr ((hset r.1 hP).1 r.2 hr)))
    · obtain ⟨hp, _, hq | ⟨_, hna⟩⟩ := hkeep r.1 hP
      · rcases h₃ with h | h | h | h
        · exact .inl (show r.2 ∈ queue r.1 by rw [hq]; exact h)
        · exact .inr (.inl h)
        · exact .inr (.inr (.inl h))
        · exact .inr (.inr (.inr (show position r.1 ≤ r.2 by rw [hp]; exact h)))
      · exact absurd h₁ hna

/-- Partitions go, with their queues and what is owed of them. -/
theorem unassign (queue : κ → List Int) (owed : List (κ × Int)) (assigned : κ → Prop)
    (hhands : ∀ n ∈ f.notes, n.hand = none) (hno : ¬ f.assigning) (hsub : ∀ k, assigned k → f.assigned k)
    (howed : ∀ r ∈ owed, r ∈ f.owed ∧ assigned r.1)
    (hq : ∀ k, queue k = f.queue k ∨ queue k = [] ∧ ¬ assigned k) :
    Ok log { f with queue, owed, assigned } := by
  refine ⟨?_, ?_, hf.apart, ?_, ?_, fun r hr o ho => hf.back r hr o (howed _ ho).1, hf.fetch, ?_, hf.resolved⟩
  · intro k
    show (queue k).Pairwise _ ∧ ∀ o ∈ queue k, _
    rcases hq k with h | ⟨h, _⟩
    · rw [h]; exact hf.queue k
    · rw [h]; exact ⟨List.Pairwise.nil, fun o ho => (by cases ho)⟩
  · intro n hn k os hh
    rw [hhands n hn] at hh; cases hh
  · intro n hn
    obtain ⟨h₁, h₂⟩ := hf.flight n hn
    exact ⟨h₁, fun r hr => ⟨(h₂ r hr).1, (h₂ r hr).2.1, fun h => absurd h hno⟩⟩
  · intro k t ht ha
    obtain ⟨h₁, h₂, h₃⟩ := hf.last k t ht (hsub k ha)
    exact ⟨h₁, fun o ho => h₂ o (howed _ ho).1, h₃⟩
  · intro r hr
    obtain ⟨hr, ha⟩ := howed r hr
    obtain ⟨_, h₂, h₃⟩ := hf.owed r hr
    refine ⟨ha, h₂, ?_⟩
    rcases h₃ with h | h | h | h
    · rcases hq r.1 with e | ⟨_, hna⟩
      · exact .inl (show r.2 ∈ queue r.1 by rw [e]; exact h)
      · exact absurd ha hna
    · exact .inr (.inl h)
    · exact .inr (.inr (.inl h))
    · exact .inr (.inr (.inr h))

/-- Partitions come, with their positions, while nothing is queued. -/
theorem assign (position : κ → Int) (assigned : κ → Prop) (hempty : ∀ k, f.queue k = [])
    (hhands : ∀ n ∈ f.notes, n.hand = none) (hasg : f.assigning) (hsub : ∀ k, f.assigned k → assigned k)
    (hpos : ∀ k, f.assigned k → position k = f.position k)
    (hlast : ∀ k t, ¬ f.assigned k → assigned k → f.last k = some t → t < position k) :
    Ok log { f with position, assigned } := by
  have hfl : ∀ n ∈ f.notes, ∀ r ∈ n.flight, f.assigned r.1 := fun n hn r hr => ((hf.flight n hn).2 r hr).2.2 hasg
  refine ⟨?_, ?_, hf.apart, ?_, ?_, hf.back, hf.fetch, ?_, hf.resolved⟩
  · intro k
    show (f.queue k).Pairwise _ ∧ ∀ o ∈ f.queue k, _
    rw [hempty k]
    exact ⟨List.Pairwise.nil, fun o ho => (by cases ho)⟩
  · intro n hn k os hh
    rw [hhands n hn] at hh; cases hh
  · intro n hn
    obtain ⟨h₁, h₂⟩ := hf.flight n hn
    refine ⟨h₁, fun r hr => ⟨?_, (h₂ r hr).2.1, fun _ => hsub _ (hfl n hn r hr)⟩⟩
    show r.2 < position r.1
    rw [hpos _ (hfl n hn r hr)]
    exact (h₂ r hr).1
  · intro k t ht ha
    by_cases hk : f.assigned k
    · obtain ⟨h₁, h₂, h₃⟩ := hf.last k t ht hk
      refine ⟨?_, h₂, h₃⟩
      show t < position k
      rw [hpos k hk]
      exact h₁
    · refine ⟨hlast k t hk ha ht, fun o ho => absurd (hf.owed _ ho).1 hk, fun n hn o ho =>
        absurd (hfl n hn _ ho) hk⟩
  · intro r hr
    obtain ⟨h₁, h₂, h₃⟩ := hf.owed r hr
    refine ⟨hsub _ h₁, h₂, ?_⟩
    rcases h₃ with h | h | h | h
    · exact .inl h
    · exact .inr (.inl h)
    · exact .inr (.inr (.inl h))
    · exact .inr (.inr (.inr (show position r.1 ≤ r.2 by rw [hpos _ h₁]; exact h)))

theorem setNotes {notes : List (Note κ)} (hidle : ∀ n ∈ f.notes, n = .idle) (hidle' : ∀ n ∈ notes, n = .idle) :
    Ok log { f with notes } := by
  refine ⟨hf.queue, ?_, ?_, ?_, ?_, hf.back, hf.fetch, ?_, ?_⟩
  · intro n hn k os hh; rw [hidle' n hn] at hh; cases hh
  · intro i j n n' k os os' hi _ hh; rw [hidle' n (List.mem_of_getElem? hi)] at hh; cases hh
  · intro n hn
    rw [hidle' n hn]
    exact ⟨fun _ => List.Pairwise.nil, fun r hr => (by cases hr)⟩
  · intro k t ht ha
    obtain ⟨h₁, h₂, _⟩ := hf.last k t ht ha
    exact ⟨h₁, h₂, fun n hn o ho => by rw [hidle' n hn] at ho; cases ho⟩
  · intro r hr
    obtain ⟨h₁, h₂, h₃⟩ := hf.owed r hr
    refine ⟨h₁, h₂, ?_⟩
    rcases h₃ with h | ⟨n, hn, _, os, hh, _⟩ | ⟨n, hn, h⟩ | h
    · exact .inl h
    · rw [hidle n hn] at hh; cases hh
    · rw [hidle n hn] at h; cases h
    · exact .inr (.inr (.inr h))
  · intro n hn k os t o hh; rw [hidle' n hn] at hh; cases hh

end Ok

end Flow

end ConfluentKafka
