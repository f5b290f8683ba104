import ConfluentKafka.Run

/-!
# Who owns what while the workers run

The handles of the workers are apart and leased, a fetch is the only one and
finds an empty cache, and between the rounds of the workers there is none:
`InvAt`, on the leased queues of the cache and on what is kept of the workers.

A fetch finds no message in the cache and no worker with a message in its hands,
whatever the other workers do.
-/

namespace ConfluentKafka

namespace Consumer

/-- What the ownership of the PPCs depends on of a worker: the PPC it will pass, that of the messages in its hands,
whether the fetch is its own and whether it has ended. -/
structure Sketch where
  ppc : Option Nat
  hand : Option Nat
  fetching : Bool
  done : Bool
  deriving DecidableEq, Repr

def Phase.hand : Phase → Option (List Message × Nat)
  | .got ms p => some (ms, p)
  | .deserializing ms p => some (ms, p)
  | .handling b => some (b.messages, b.ppc)
  | _ => none

def Phase.fetching : Phase → Bool
  | .consuming => true
  | .consumed _ => true
  | .waitRebalance _ _ => true
  | _ => false

def Worker.sketch (w : Worker) : Sketch := ⟨w.ppc, w.phase.hand.map (·.2), w.phase.fetching, w.phase = .done⟩

def Sketch.handles (x : Sketch) : List Nat := x.ppc.toList ++ x.hand.toList

theorem Sketch.mem_handles {x : Sketch} {p : Nat} : p ∈ x.handles ↔ x.ppc = some p ∨ x.hand = some p := by
  simp [handles]

def Dead (a : Leases String Message) (p : Nat) : Prop := p < a.fresh ∧ p ∉ a.live

/-- The invariant on the leased queues `a` and the workers `ws`; `fetch` while one is in progress, `running`
while the round of the workers is. -/
structure InvAt (a : Leases String Message) (ws : List Sketch) (fetch running : Bool) : Prop where
  own : ∀ (i : Nat) (x : Sketch) (p : Nat), ws[i]? = some x → x.hand = some p → p ∈ a.assigned
  held : ∀ (i : Nat) (x : Sketch) (p : Nat), ws[i]? = some x → p ∈ x.handles → p ∈ a.assigned ∨ Dead a p
  apart : ∀ (i j : Nat) (x y : Sketch) (p : Nat), ws[i]? = some x → ws[j]? = some y → i ≠ j → p ∈ x.handles →
    p ∈ y.handles → p ∉ a.assigned
  one : ∀ (i j : Nat) (x y : Sketch), ws[i]? = some x → ws[j]? = some y → x.fetching = true →
    y.fetching = true → i = j
  fetcher : fetch = true ↔ ∃ (i : Nat) (x : Sketch), ws[i]? = some x ∧ x.fetching = true
  empty : fetch = true → a.live = []
  barrier : running = false → ∀ (i : Nat) (x : Sketch), ws[i]? = some x → x.done = true
  ended : ∀ (i : Nat) (x : Sketch), ws[i]? = some x → x.done = true → x = ⟨none, none, false, true⟩

namespace InvAt

variable {a a' : Leases String Message} {ws : List Sketch} {fetch running : Bool}

theorem hand_of_fetch (hi : InvAt a ws true running) {i : Nat} {x : Sketch} (hx : ws[i]? = some x) :
    x.hand = none := by
  cases hh : x.hand with
  | none => rfl
  | some p =>
    have := List.mem_append_right a.available (hi.own i x p hx hh)
    rw [show a.available ++ a.assigned = a.live from rfl, hi.empty rfl] at this
    cases this

theorem getElem?_set_iff {i j : Nat} {x y z : Sketch} (hx : ws[i]? = some x) :
    (ws.set i y)[j]? = some z ↔ j = i ∧ z = y ∨ j ≠ i ∧ ws[j]? = some z := by
  have hlt : i < ws.length := (List.getElem?_eq_some_iff.mp hx).1
  rw [List.getElem?_set]
  by_cases h : i = j
  · subst h; simp [hlt, eq_comm]
  · simp [h, Ne.symm h]

/-- A worker `x` becomes `y` and the queues `a` become `a'`: the leases of others go on, and what `y` holds
`x` held or was available. -/
theorem set (hi : InvAt a ws fetch true) {i : Nat} {x y : Sketch} (hx : ws[i]? = some x)
    (hkeep : ∀ p ∈ a.assigned, p ∉ x.handles → p ∈ a'.assigned) (hdead : ∀ p, Dead a p → Dead a' p)
    (hold : ∀ p ∈ y.handles, p ∈ x.handles ∨ p ∈ a.available) (hvalid : a.Valid)
    (hown : ∀ p, y.hand = some p → p ∈ a'.assigned) (hheld : ∀ p ∈ y.handles, p ∈ a'.assigned ∨ Dead a' p)
    {fetch' : Bool} (hf : fetch' = true ↔ y.fetching = true ∨ ∃ (j : Nat) (z : Sketch), j ≠ i ∧ ws[j]? = some z ∧
      z.fetching = true)
    (hone : y.fetching = true → ∀ (j : Nat) (z : Sketch), j ≠ i → ws[j]? = some z → z.fetching = false)
    (hempty : fetch' = true → a'.live = []) (hended : y.done = true → y = ⟨none, none, false, true⟩) :
    InvAt a' (ws.set i y) fetch' true := by
  -- a handle of another worker is leased to it alone, or dead
  have hother : ∀ (j : Nat) (z : Sketch) (p : Nat), j ≠ i → ws[j]? = some z → p ∈ z.handles →
    (p ∈ a.assigned ∧ p ∉ x.handles) ∨ Dead a p := by
    intro j z p hj hz hp
    rcases hi.held j z p hz hp with h | h
    · exact .inl ⟨h, fun hpx => hi.apart j i z x p hz hx hj hp hpx h⟩
    · exact .inr h
  have hnot : ∀ (j : Nat) (z : Sketch) (p : Nat), j ≠ i → ws[j]? = some z → p ∈ z.handles → p ∈ y.handles →
    p ∉ a'.assigned := by
    intro j z p hj hz hp hpy ha'
    have hnd : ∀ q, Dead a q → q ∉ a'.assigned := fun q hq h => (hdead q hq).2 (List.mem_append_right _ h)
    rcases hother j z p hj hz hp with ⟨ha, hpx⟩ | hd
    · rcases hold p hpy with h | h
      · exact hpx h
      · exact hvalid.not_available ha h
    · exact hnd p hd ha'
  refine ⟨?_, ?_, ?_, ?_, ?_, hempty, by simp, ?_⟩
  · intro j z p hz hh
    rcases (getElem?_set_iff hx).mp hz with ⟨rfl, rfl⟩ | ⟨hj, hz⟩
    · exact hown p hh
    · have hp : p ∈ z.handles := Sketch.mem_handles.mpr (.inr hh)
      have ha := hi.own j z p hz hh
      exact hkeep p ha fun hpx => hi.apart j i z x p hz hx hj hp hpx ha
  · intro j z p hz hp
    rcases (getElem?_set_iff hx).mp hz with ⟨rfl, rfl⟩ | ⟨hj, hz⟩
    · exact hheld p hp
    · exact (hother j z p hj hz hp).imp (fun h => hkeep p h.1 h.2) (hdead p)
  · intro j k z z' p hz hz' hjk hp hp'
    rcases (getElem?_set_iff hx).mp hz with ⟨rfl, rfl⟩ | ⟨hj, h₁⟩ <;>
      rcases (getElem?_set_iff hx).mp hz' with ⟨rfl, rfl⟩ | ⟨hk, h₂⟩
    · exact absurd rfl hjk
    · exact hnot k z' p hk h₂ hp' hp
    · exact hnot j z p hj h₁ hp hp'
    · have hna := hi.apart j k z z' p h₁ h₂ hjk hp hp'
      have h₁ := hother j z p hj h₁ hp
      rcases h₁ with ⟨ha, _⟩ | hd
      · exact absurd ha hna
      · exact fun h => (hdead p hd).2 (List.mem_append_right _ h)
  · intro j k z z' hz hz' hfz hfz'
    rcases (getElem?_set_iff hx).mp hz with ⟨rfl, rfl⟩ | ⟨hj, h₁⟩ <;>
      rcases (getElem?_set_iff hx).mp hz' with ⟨rfl, rfl⟩ | ⟨hk, h₂⟩
    · rfl
    · rw [hone hfz k z' hk h₂] at hfz'; cases hfz'
    · rw [hone hfz' j z hj h₁] at hfz; cases hfz
    · exact hi.one j k z z' h₁ h₂ hfz hfz'
  · rw [hf]
    constructor
    · rintro (h | ⟨j, z, hj, hz, h⟩)
      · exact ⟨i, y, (getElem?_set_iff hx).mpr (.inl ⟨rfl, rfl⟩), h⟩
      · exact ⟨j, z, (getElem?_set_iff hx).mpr (.inr ⟨hj, hz⟩), h⟩
    · rintro ⟨j, z, hz, h⟩
      rcases (getElem?_set_iff hx).mp hz with ⟨rfl, rfl⟩ | ⟨hj, hz⟩
      · exact .inl h
      · exact .inr ⟨j, z, hj, hz, h⟩
  · intro j z hz hd
    rcases (getElem?_set_iff hx).mp hz with ⟨rfl, rfl⟩ | ⟨hj, hz⟩
    · exact hended hd
    · exact hi.ended j z hz hd

theorem fetch_set (hi : InvAt a ws fetch running) {i : Nat} {x y : Sketch} (hx : ws[i]? = some x)
    (hf : y.fetching = x.fetching) :
    (fetch = true ↔ y.fetching = true ∨ ∃ (j : Nat) (z : Sketch), j ≠ i ∧ ws[j]? = some z ∧ z.fetching = true) ∧
    (y.fetching = true → ∀ (j : Nat) (z : Sketch), j ≠ i → ws[j]? = some z → z.fetching = false) := by
  constructor
  · rw [hi.fetcher, hf]
    constructor
    · rintro ⟨j, z, hz, h⟩
      by_cases hj : j = i
      · subst hj; rw [hx] at hz; obtain rfl := Option.some.inj hz; exact .inl h
      · exact .inr ⟨j, z, hj, hz, h⟩
    · rintro (h | ⟨j, z, _, hz, h⟩)
      · exact ⟨i, x, hx, h⟩
      · exact ⟨j, z, hz, h⟩
  · intro h j z hj hz
    cases hzf : z.fetching with
    | false => rfl
    | true => exact absurd (hi.one j i z x hz hx hzf (hf ▸ h)) hj

theorem move (hi : InvAt a ws fetch true) (hv : a.Valid) {i : Nat} {x y : Sketch} (hx : ws[i]? = some x)
    (hsub : ∀ p ∈ y.handles, p ∈ x.handles) (hhand : ∀ p, y.hand = some p → x.hand = some p)
    (hf : y.fetching = x.fetching) (hd : y.done = false) : InvAt a (ws.set i y) fetch true :=
  hi.set hx (fun _ h _ => h) (fun _ h => h) (fun p hp => .inl (hsub p hp)) hv
    (fun p hp => hi.own i x p hx (hhand p hp)) (fun p hp => hi.held i x p hx (hsub p hp))
    (hi.fetch_set hx hf).1 (hi.fetch_set hx hf).2 hi.empty (fun h => by rw [hd] at h; cases h)

theorem held_of_handed {h : Option Nat} {r : Option (List Message × Nat)} (hh : a.Handed a' h r)
    (hv : a.Valid) {p : Nat}
    (hp : p ∈ a.assigned ∨ Dead a p) : p ∈ a'.assigned ∨ Dead a' p := by
  by_cases ha : p ∈ a'.assigned
  · exact .inl ha
  · refine .inr ⟨?_, fun hl => ?_⟩
    · rw [hh.fresh]
      exact hp.elim (fun h => hv.lt_fresh p (List.mem_append_right _ h)) And.left
    · rcases List.mem_append.mp hl with hl | hl
      · exact hp.elim (fun h => hv.not_available h (hh.available p hl))
          fun h => h.2 (List.mem_append_left _ (hh.available p hl))
      · exact ha hl

theorem dead_of_handed {h : Option Nat} {r : Option (List Message × Nat)} (hh : a.Handed a' h r) (p : Nat)
    (hp : Dead a p) : Dead a' p := ⟨hh.fresh ▸ hp.1, fun hl => hp.2 (hh.live hl)⟩

/-- A worker asks for messages, passing its PPC or nothing. -/
theorem next (hi : InvAt a ws fetch true) (hv : a.Valid) {i : Nat} {x : Sketch} (hx : ws[i]? = some x)
    (hdx : x.done = false) {h : Option Nat} (hh : h = none ∨ h = x.ppc) {r : Option (List Message × Nat)}
    (hr : a.Handed a' h r) :
    InvAt a' (ws.set i { x with hand := r.map (·.2) }) fetch true := by
  have hy : ∀ p ∈ ({ x with hand := r.map (·.2) } : Sketch).handles, p ∈ x.handles ∨ ∃ ms, r = some (ms, p) := by
    intro p hp
    rcases Sketch.mem_handles.mp hp with h | h
    · exact .inl (Sketch.mem_handles.mpr (.inl h))
    · obtain ⟨⟨ms, q⟩, hr, rfl⟩ := Option.map_eq_some_iff.mp h
      exact .inr ⟨ms, hr⟩
  have hfetch := hi.fetch_set (y := { x with hand := r.map (·.2) }) hx rfl
  refine hi.set hx ?_ (dead_of_handed hr) ?_ hv ?_ ?_ hfetch.1 hfetch.2 ?_ (fun h => by rw [hdx] at h; cases h)
  · intro p hp hpx
    refine (hr.assigned p).mpr (.inl ⟨hp, fun e => hpx ?_⟩)
    rcases hh with hh | hh
    · rw [hh] at e; cases e
    · exact Sketch.mem_handles.mpr (.inl (hh ▸ e))
  · intro p hp
    rcases hy p hp with hpx | ⟨ms, hms⟩
    · exact .inl hpx
    · rcases List.mem_append.mp (hr.handed ms p hms).2.1 with hl | hl
      · exact .inr hl
      · have e := hr.fromAssigned ms p hms hl
        rcases hh with hh | hh
        · rw [hh] at e; cases e
        · exact .inl (Sketch.mem_handles.mpr (.inl (hh ▸ e)))
  · intro p hp
    obtain ⟨⟨ms, q⟩, hms, rfl⟩ := Option.map_eq_some_iff.mp hp
    exact (hr.assigned q).mpr (.inr ⟨ms, hms⟩)
  · intro p hp
    rcases hy p hp with hpx | ⟨ms, hms⟩
    · exact held_of_handed hr hv (hi.held i x p hx hpx)
    · exact .inl ((hr.assigned p).mpr (.inr ⟨ms, hms⟩))
  · intro hf
    exact List.eq_nil_iff_forall_not_mem.mpr fun p hp => by
      have := hr.live hp
      rw [hi.empty hf] at this
      cases this

theorem startFetch (hi : InvAt a ws false true) (hv : a.Valid) {i : Nat} {x : Sketch} (hx : ws[i]? = some x)
    (hdx : x.done = false) (hl : a.live = []) :
    InvAt a (ws.set i { x with fetching := true }) true true := by
  have hsub : ∀ p ∈ ({ x with fetching := true } : Sketch).handles, p ∈ x.handles := fun p hp => hp
  have hno : ∀ (j : Nat) (z : Sketch), ws[j]? = some z → z.fetching = false := fun j z hz => by
    cases hzf : z.fetching with
    | false => rfl
    | true => exact absurd (hi.fetcher.mpr ⟨j, z, hz, hzf⟩) (by simp)
  refine hi.set hx (fun _ h _ => h) (fun _ h => h) (fun p hp => .inl (hsub p hp)) hv
    (fun p hp => hi.own i x p hx hp) (fun p hp => hi.held i x p hx (hsub p hp)) (by simp)
    (fun _ j z _ hz => hno j z hz) (fun _ => hl) (fun h => by rw [show x.done = true from h] at hdx; cases hdx)

theorem endFetch (hi : InvAt a ws true true) (hv : a.Valid) {i : Nat} {x : Sketch} (hx : ws[i]? = some x)
    (hfx : x.fetching = true) (hdx : x.done = false) : InvAt a (ws.set i { x with fetching := false })
      false true := by
  have hsub : ∀ p ∈ ({ x with fetching := false } : Sketch).handles, p ∈ x.handles := fun p hp => hp
  have hno : ¬ ∃ (j : Nat) (z : Sketch), j ≠ i ∧ ws[j]? = some z ∧ z.fetching = true := fun ⟨j, z, hj, hz, h⟩ =>
    hj (hi.one j i z x hz hx h hfx)
  refine hi.set hx (fun _ h _ => h) (fun _ h => h) (fun p hp => .inl (hsub p hp)) hv
    (fun p hp => hi.own i x p hx hp) (fun p hp => hi.held i x p hx (hsub p hp)) (by simpa using hno)
    (fun h => by cases h) (fun h => by cases h) (fun h => by rw [show x.done = true from h] at hdx; cases hdx)

theorem grown (hi : InvAt a ws false running) (hg : a.Grown a') : InvAt a' ws false running where
  own i x p hx hp := hg.assigned ▸ hi.own i x p hx hp
  held i x p hx hp := (hi.held i x p hx hp).imp (fun h => hg.assigned ▸ h) fun h => hg.dead p h.1 h.2
  apart i j x y p hx hy hij hp hp' := hg.assigned ▸ hi.apart i j x y p hx hy hij hp hp'
  one := hi.one
  fetcher := hi.fetcher
  empty h := by cases h
  barrier := hi.barrier
  ended := hi.ended

theorem quit (hi : InvAt a ws fetch true) (hv : a.Valid) {i : Nat} {x : Sketch} (hx : ws[i]? = some x)
    (hfx : x.fetching = false) : InvAt (x.ppc.elim a a.release) (ws.set i ⟨none, none, false, true⟩)
      fetch true := by
  have hfetch := hi.fetch_set (y := ⟨none, none, false, true⟩) hx hfx.symm
  have hnone : ∀ p, p ∉ (⟨none, none, false, true⟩ : Sketch).handles := fun p hp => by simp [Sketch.handles] at hp
  cases hp : x.ppc with
  | none =>
    exact hi.set hx (fun _ h _ => h) (fun _ h => h) (fun p h => absurd h (hnone p)) hv (fun p h => by cases h)
      (fun p h => absurd h (hnone p)) hfetch.1 hfetch.2 hi.empty (fun _ => rfl)
  | some q =>
    obtain ⟨_, hlive, _⟩ := hv.release q
    refine hi.set hx ?_ ?_ (fun p h => absurd h (hnone p)) hv (fun p h => by cases h)
      (fun p h => absurd h (hnone p)) hfetch.1 hfetch.2 ?_ (fun _ => rfl)
    · intro p ha hpx
      exact (hv.mem_release q p).mpr ⟨ha, fun e => hpx (Sketch.mem_handles.mpr (.inl (e ▸ hp)))⟩
    · rintro p ⟨hf, hd⟩
      exact ⟨by rw [Option.elim_some, (a.release_key q).2]; exact hf, fun h => hd ((hlive p).mp h)⟩
    · intro hf
      exact List.eq_nil_iff_forall_not_mem.mpr fun p h => by
        have := (hlive p).mp h
        rw [hi.empty hf] at this
        cases this

/-- When all workers have ended the queues do not matter. -/
theorem idle (hi : InvAt a ws fetch running) (hall : ∀ (i : Nat) (x : Sketch), ws[i]? = some x → x.done = true)
    (a' : Leases String Message) (running' : Bool) : InvAt a' ws false running' := by
  have hx : ∀ (i : Nat) (x : Sketch), ws[i]? = some x → x = ⟨none, none, false, true⟩ := fun i x h =>
    hi.ended i x h (hall i x h)
  have hnone : ∀ (i : Nat) (x : Sketch) (p : Nat), ws[i]? = some x → p ∉ x.handles := fun i x p h hp => by
    rw [hx i x h] at hp; simp [Sketch.handles] at hp
  refine ⟨?_, ?_, ?_, ?_, ?_, (fun h => by cases h), fun _ => hall, hi.ended⟩
  · intro i x p h hp; rw [hx i x h] at hp; cases hp
  · intro i x p h hp; exact absurd hp (hnone i x p h)
  · intro i j x y p h _ _ hp; exact absurd hp (hnone i x p h)
  · intro i j x y h _ hf; rw [hx i x h] at hf; cases hf
  · simp only [Bool.false_eq_true, false_iff]
    rintro ⟨i, x, h, hf⟩
    rw [hx i x h] at hf; cases hf

/-- While a fetch is in progress there is no queue to discard. -/
theorem emptied (hi : InvAt a ws true running) (hl : a'.live = []) (hf : a'.fresh = a.fresh) :
    InvAt a' ws true running := by
  have hal : a.assigned = [] := (List.append_eq_nil_iff.mp (hi.empty rfl)).2
  have hal' : a'.assigned = [] := (List.append_eq_nil_iff.mp hl).2
  refine ⟨?_, ?_, ?_, hi.one, hi.fetcher, fun _ => hl, hi.barrier, hi.ended⟩
  · intro i x p hx hp
    have := hi.own i x p hx hp
    rw [hal] at this; cases this
  · intro i x p hx hp
    rcases hi.held i x p hx hp with h | h
    · rw [hal] at h; cases h
    · exact .inr ⟨hf ▸ h.1, by rw [hl]; simp⟩
  · intro i j x y p _ _ _ _ _ h
    rw [hal'] at h; cases h

theorem spawn (a : Leases String Message) (n : Nat) :
    InvAt a (List.replicate n ⟨none, none, false, false⟩) false true := by
  have hx : ∀ (i : Nat) (x : Sketch), (List.replicate n (⟨none, none, false, false⟩ : Sketch))[i]? = some x →
      x = ⟨none, none, false, false⟩ := fun i x h => (List.mem_replicate.mp (List.mem_of_getElem? h)).2
  have hnone : ∀ (i : Nat) (x : Sketch) (p : Nat), (List.replicate n (⟨none, none, false, false⟩ : Sketch))[i]? =
    some x →
      p ∉ x.handles := fun i x p h hp => by rw [hx i x h] at hp; simp [Sketch.handles] at hp
  refine ⟨?_, ?_, ?_, ?_, ?_, (fun h => by cases h), (fun h => by cases h), ?_⟩
  · intro i x p h hp; rw [hx i x h] at hp; cases hp
  · intro i x p h hp; exact absurd hp (hnone i x p h)
  · intro i j x y p h _ _ hp; exact absurd hp (hnone i x p h)
  · intro i j x y h _ hf; rw [hx i x h] at hf; cases hf
  · simp only [Bool.false_eq_true, false_iff]
    rintro ⟨i, x, h, hf⟩
    rw [hx i x h] at hf; cases hf
  · intro i x h hd; rw [hx i x h] at hd; cases hd

end InvAt

/-! ## The steps and the ownership -/

def State.sketches (s : State) : List Sketch := s.workers.map Worker.sketch

def Floor (s : State) : Prop := InvAt s.cache.view s.sketches s.fetchInProgress.isSome (s.main = .workers)

structure Frame (s t : State) : Prop where
  view : t.cache.view = s.cache.view
  sketches : t.sketches = s.sketches
  fetch : t.fetchInProgress = s.fetchInProgress
  main : t.main = s.main

namespace Frame

theorem refl (s : State) : Frame s s := ⟨rfl, rfl, rfl, rfl⟩

theorem trans {s t u : State} (h : Frame s t) (h' : Frame t u) : Frame s u :=
  ⟨h'.view.trans h.view, h'.sketches.trans h.sketches, h'.fetch.trans h.fetch, h'.main.trans h.main⟩

theorem floor {s t : State} (h : Frame s t) (hi : Floor s) : Floor t := by
  unfold Floor
  rw [h.view, h.sketches, h.fetch, h.main]
  exact hi

theorem notifyNonEmpty (s : State) : Frame s s.notifyNonEmpty := by
  unfold State.notifyNonEmpty
  cases s.nonEmpty <;> exact ⟨rfl, rfl, rfl, rfl⟩

theorem queueNonEmptyCb (s : State) : Frame s s.queueNonEmptyCb := by
  unfold State.queueNonEmptyCb
  simp only
  split
  · exact ⟨rfl, rfl, rfl, rfl⟩
  · obtain ⟨h₁, h₂, h₃, h₄⟩ := notifyNonEmpty { s with woken := true }
    exact ⟨h₁, h₂, h₃, h₄⟩

theorem resolveWorkerTerminationScheduled (s : State) : Frame s s.resolveWorkerTerminationScheduled := by
  obtain ⟨h₁, h₂, h₃, h₄⟩ := queueNonEmptyCb { s with workerTerminationScheduled := true }
  exact ⟨h₁, h₂, h₃, h₄⟩

theorem addPendingOperation (s : State) (op : Op) : Frame s (s.addPendingOperation op) := by
  unfold State.addPendingOperation
  simp only
  split_ifs
  · obtain ⟨h₁, h₂, h₃, h₄⟩ := resolveWorkerTerminationScheduled s
    exact ⟨h₁, h₂, h₃, h₄⟩
  · exact ⟨rfl, rfl, rfl, rfl⟩

theorem markBatchPayloadsStale {τ : Type} [Toppar τ] (s : State) (tps : List τ) (isSeek : Bool) :
    Frame s (s.markBatchPayloadsStale tps isSeek) := by
  refine ⟨rfl, ?_, rfl, rfl⟩
  simp only [State.sketches, State.markBatchPayloadsStale, List.map_map]
  refine List.map_congr_left fun w _ => ?_
  obtain ⟨ppc, phase⟩ := w
  cases phase with
  | handling b =>
    simp only [Function.comp_apply, Worker.sketch, Phase.hand, Phase.fetching, Option.map_some, reduceCtorEq]
    split_ifs <;> rfl
  | _ => rfl

theorem seek (s : State) (tpo : TopicPartitionOffset) (user : Bool) : Frame s (s.seek tpo user) :=
  (markBatchPayloadsStale s [tpo] true).trans (addPendingOperation _ _)

theorem pause (s : State) (tps : List TopicPartition) : Frame s (s.pause tps) := by
  unfold State.pause
  split_ifs
  · exact refl s
  · exact (markBatchPayloadsStale s tps false).trans (addPendingOperation _ _)

theorem resume (s : State) (tps : List TopicPartition) : Frame s (s.resume tps) := by
  unfold State.resume
  split_ifs
  · exact refl s
  · exact addPendingOperation _ _

end Frame

theorem sketches_setWorker (s : State) (i : Nat) (w : Worker) :
    (s.setWorker i w).sketches = s.sketches.set i w.sketch := List.map_set ..

theorem sketches_get {s : State} {i : Nat} {w : Worker} (hw : s.workers[i]? = some w) :
    s.sketches[i]? = some w.sketch := by
  simp [State.sketches, hw]

/-- A worker that has not ended runs while `#runInternal` waits for the workers. -/
theorem Floor.running {s : State} (hi : Floor s) {i : Nat} {w : Worker} (hw : s.workers[i]? = some w)
    (hd : w.phase ≠ .done) : s.main = .workers := by
  by_contra hm
  have := hi.barrier (by simpa using hm) i _ (sketches_get hw)
  simp [Worker.sketch, hd] at this

theorem Floor.at {s : State} (hi : Floor s) (hm : s.main = .workers) :
    InvAt s.cache.view s.sketches s.fetchInProgress.isSome true := by
  have := hi
  unfold Floor at this
  rwa [show (decide (s.main = .workers)) = true by simp [hm]] at this

theorem Floor.of_at {s : State} (hm : s.main = .workers)
    (hi : InvAt s.cache.view s.sketches s.fetchInProgress.isSome true) : Floor s := by
  unfold Floor
  rwa [show (decide (s.main = .workers)) = true by simp [hm]]

theorem takeFromCache_handed (cfg : Config) (c : Cache Message) (ppc : Option Nat) :
    c.view.Handed (takeFromCache cfg c ppc).1.view ppc (takeFromCache cfg c ppc).2 := by
  unfold takeFromCache
  split_ifs
  · exact c.next_handed ppc
  · exact c.nextN_handed ppc _ _

section
variable {cfg : Config} {s : State} {i : Nat} {w : Worker}

/-- A worker takes another phase with the same or no PPC in its hands. -/
theorem Floor.setWorker (hi : Floor s) (hw : s.workers[i]? = some w) (hd : w.phase ≠ .done) {w' : Worker}
    (hsub : ∀ p ∈ w'.sketch.handles, p ∈ w.sketch.handles)
    (hhand : ∀ p, w'.sketch.hand = some p → w.sketch.hand = some p)
    (hf : w'.phase.fetching = w.phase.fetching) (hd' : w'.phase ≠ .done) : Floor (s.setWorker i w') := by
  have hm := hi.running hw hd
  refine Floor.of_at hm ?_
  rw [sketches_setWorker]
  exact (hi.at hm).move s.cache.valid (sketches_get hw) hsub hhand hf (by simp [Worker.sketch, hd'])

theorem Floor.fetchAndResolveWith (hi : Floor s) (hw : s.workers[i]? = some w) (hp : w.phase = .top)
    (hl : s.cache.view.live = []) : Floor (s.fetchAndResolveWith i w) := by
  have hd : w.phase ≠ .done := by rw [hp]; simp
  have hmove : ∀ ph : Phase, ph.hand = none → ph.fetching = false → ph ≠ .done →
      Floor (s.setWorker i { w with phase := ph }) := by
    intro ph h₁ h₂ h₃
    refine hi.setWorker hw hd ?_ ?_ (by rw [h₂, hp]; rfl) h₃
    · intro p h
      simp only [Sketch.mem_handles, Worker.sketch, h₁, hp] at h ⊢
      exact h
    · intro p h
      simp [Worker.sketch, h₁] at h
  unfold State.fetchAndResolveWith
  cases hf : s.fetchInProgress with
  | some f => exact hmove _ rfl rfl (by simp)
  | none =>
    simp only
    cases s.nonEmpty with
    | some q => exact hmove _ rfl rfl (by simp)
    | none =>
      simp only
      split_ifs
      · exact hmove _ rfl rfl (by simp)
      · have hm := hi.running hw hd
        refine Floor.of_at hm ?_
        rw [sketches_setWorker]
        have hat := hi.at hm
        rw [hf] at hat
        have hst := hat.startFetch s.cache.valid (sketches_get hw) (by simp [Worker.sketch, hp]) hl
        have hsk : { w.sketch with fetching := true } = (Worker.mk w.ppc .consuming).sketch := by
          simp [Worker.sketch, hp, Phase.hand, Phase.fetching]
        rw [hsk] at hst
        exact hst

theorem Floor.workerTop (hi : Floor s) (hw : s.workers[i]? = some w) (hp : w.phase = .top) :
    Floor (s.workerTop cfg i w) := by
  have hm := hi.running hw (by rw [hp]; simp)
  have hat := hi.at hm
  have hsk : w.sketch = ⟨w.ppc, none, false, false⟩ := by simp [Worker.sketch, hp, Phase.hand, Phase.fetching]
  have hx := sketches_get hw
  rw [hsk] at hx
  unfold State.workerTop
  split_ifs
  · refine Floor.of_at hm ?_
    rw [sketches_setWorker]
    have hq := hat.quit s.cache.valid hx rfl
    have hview : (w.ppc.elim s.cache s.cache.giveBack).view = w.ppc.elim s.cache.view s.cache.view.release := by
      cases w.ppc with
      | none => rfl
      | some q => exact s.cache.view_giveBack q
    rw [← hview] at hq
    exact hq
  · have hh := takeFromCache_handed cfg s.cache w.ppc
    have hnext := hat.next s.cache.valid hx rfl (.inr rfl) hh
    split
    · rename_i c ms p he
      rw [he] at hnext
      refine Floor.of_at hm ?_
      rw [sketches_setWorker]
      exact hnext
    · rename_i c he
      rw [he] at hnext hh
      have hsame : s.sketches.set i ⟨w.ppc, none, false, false⟩ = s.sketches := by
        obtain ⟨hlt, he⟩ := List.getElem?_eq_some_iff.mp hx
        rw [← he, List.set_getElem_self]
      have hfl : Floor { s with cache := c } := by
        refine Floor.of_at hm ?_
        have := hnext
        simp only [Option.map_none] at this
        rwa [hsame] at this
      split_ifs with hsz
      · refine hfl.setWorker hw (by rw [hp]; simp) ?_ ?_ (by rw [hp]; rfl) (by simp)
        · intro p h; simpa [Sketch.mem_handles, Worker.sketch, hp, Phase.hand] using h
        · intro p h; simp [Worker.sketch, Phase.hand] at h
      · refine hfl.fetchAndResolveWith hw hp ?_
        have hasg : c.view.assigned.length = 0 := by
          have := c.wf.assignedSize
          have hz : c.raw.assignedSize = 0 := by simpa using hsz
          rw [hz] at this
          exact_mod_cast this.symm
        have hav := hh.nothing rfl
        show c.view.available ++ c.view.assigned = []
        rw [hav, List.eq_nil_of_length_eq_zero hasg]
        rfl

theorem endFetch_eq (s : State) (quiet : Bool) : ∃ promises nonEmpty,
    s.endFetch quiet = { s with promises, nonEmpty, fetchInProgress := none } := by
  unfold State.endFetch
  cases hf : s.fetchInProgress with
  | some f => simp only; split_ifs <;> exact ⟨_, _, rfl⟩
  | none =>
    simp only
    split_ifs
    · exact ⟨_, _, by rw [hf]⟩
    · exact ⟨_, _, by rw [← hf]⟩

theorem Floor.finishFetch (hi : Floor s) (hw : s.workers[i]? = some w) (hf : w.phase.fetching = true)
    (processedRebalance : Bool) (result : Option (List Message)) :
    Floor (s.finishFetch cfg i w processedRebalance result) := by
  have hd : w.phase ≠ .done := fun e => by rw [e] at hf; cases hf
  have hm := hi.running hw hd
  have hx := sketches_get hw
  have hsome : s.fetchInProgress.isSome = true := hi.fetcher.mpr ⟨i, _, hx, hf⟩
  have hat := hi.at hm
  rw [hsome] at hat
  have hhand := hat.hand_of_fetch hx
  have hend := hat.endFetch s.cache.valid hx hf (by simp [Worker.sketch, hd])
  have hsk : { w.sketch with fetching := false } = (⟨w.ppc, none, false, false⟩ : Sketch) := by
    have h₂ : w.sketch.done = false := by simp [Worker.sketch, hd]
    show (⟨w.ppc, w.sketch.hand, false, w.sketch.done⟩ : Sketch) = _
    rw [hhand, h₂]
  rw [hsk] at hend
  cases result with
  | none =>
    obtain ⟨promises, nonEmpty, he⟩ := endFetch_eq s false
    show Floor ((s.endFetch false).setWorker i _)
    rw [he]
    refine Floor.of_at hm ?_
    rw [sketches_setWorker]
    exact hend
  | some ms =>
    have hgrown := hend.grown (s.cache.addMessages_grown ms)
    have hi' : i < s.sketches.length := (List.getElem?_eq_some_iff.mp hx).1
    have hnext := hgrown.next (s.cache.addMessages ms).valid (x := ⟨w.ppc, none, false, false⟩)
      (by rw [List.getElem?_set_self hi']) rfl (.inl rfl) (takeFromCache_handed cfg (s.cache.addMessages ms) none)
    rw [List.set_set] at hnext
    have hsk' : ∀ r : Option (List Message × Nat), (Worker.mk w.ppc (r.elim .top fun x => .got x.1 x.2)).sketch =
        ⟨w.ppc, r.map (·.2), false, false⟩ := fun r => by cases r <;> rfl
    rw [← hsk'] at hnext
    obtain ⟨promises, nonEmpty, he⟩ := endFetch_eq (s.putFetched cfg ms) !processedRebalance
    show Floor (((s.putFetched cfg ms).endFetch _).setWorker i _)
    rw [he]
    refine Floor.of_at hm ?_
    rw [sketches_setWorker]
    exact hnext

theorem Floor.returnMessages (hi : Floor s) (hw : s.workers[i]? = some w) {ms : List Message} {p : Nat}
    (hp : w.phase = .got ms p) : Floor (s.returnMessages i ms p) := by
  have hm := hi.running hw (by rw [hp]; simp)
  have hx := sketches_get hw
  have hat := hi.at hm
  have hnone : s.fetchInProgress.isSome = false := by
    cases hf : s.fetchInProgress.isSome with
    | false => rfl
    | true =>
      rw [hf] at hat
      have := hat.hand_of_fetch hx
      simp [Worker.sketch, hp, Phase.hand] at this
  rw [hnone] at hat
  have hret := (hat.grown (s.cache.returnMessages_grown ms)).move (s.cache.returnMessages ms).valid hx
    (y := ⟨some p, none, false, false⟩) ?_ (by simp) (by simp [Worker.sketch, hp, Phase.fetching]) rfl
  · refine Floor.of_at hm ?_
    show InvAt (s.cache.returnMessages ms).view ((s.workers.set i ⟨some p, .top⟩).map Worker.sketch)
      s.fetchInProgress.isSome true
    rw [hnone, List.map_set]
    exact hret
  · intro q hq
    obtain rfl : p = q := by simpa [Sketch.mem_handles] using hq
    simp [Sketch.mem_handles, Worker.sketch, hp, Phase.hand]

theorem Floor.deliver (hi : Floor s) (hw : s.workers[i]? = some w) {ms : List Message} {p : Nat}
    (hp : w.phase.hand = some (ms, p)) (hf : w.phase.fetching = false) : Floor (s.deliver i w ms p) := by
  have hd : w.phase ≠ .done := fun e => by rw [e] at hp; cases hp
  have hfl : Floor { s with
      owed := s.owed.filter fun m => ¬ ms.any fun m' => partitionKey m' = partitionKey m ∧
        m'.offset = m.offset } := hi
  have hh : w.sketch.hand = some p := by simp only [Worker.sketch, hp, Option.map_some]
  refine hfl.setWorker hw hd ?_ (fun q hq => hh.trans hq) (by rw [hf]; rfl) (by simp)
  intro q hq
  rcases Sketch.mem_handles.mp hq with h | h
  · exact Sketch.mem_handles.mpr (.inl h)
  · exact Sketch.mem_handles.mpr (.inr (hh.trans h))

theorem Floor.process (hi : Floor s) (hw : s.workers[i]? = some w) {ms : List Message} {p : Nat}
    (hp : w.phase = .got ms p) : Floor (s.process cfg i w ms p) := by
  unfold State.process
  split_ifs
  · exact hi.returnMessages hw hp
  · refine hi.setWorker hw (by rw [hp]; simp) ?_ ?_ (by rw [hp]; rfl) (by simp)
    · intro q hq; simpa [Sketch.mem_handles, Worker.sketch, hp, Phase.hand] using hq
    · intro q hq; simpa [Worker.sketch, hp, Phase.hand] using hq
  · exact hi.deliver hw (by rw [hp]; rfl) (by rw [hp]; rfl)

theorem Floor.stepWorker (hi : Floor s) (hw : s.workers[i]? = some w) {t : State}
    (h : stepWorker cfg s i w = some t) :
    Floor t := by
  have htop : w.phase ≠ .done → w.phase.fetching = false → w.phase.hand = none →
      Floor (s.setWorker i { w with phase := .top }) := fun hd hf hh => by
    refine hi.setWorker hw hd ?_ (fun q hq => by cases hq) (by rw [hf]; rfl) (by simp)
    intro q hq
    rcases Sketch.mem_handles.mp hq with h | h
    · exact Sketch.mem_handles.mpr (.inl h)
    · cases h
  unfold Consumer.stepWorker at h
  split at h
  · rename_i hp
    obtain rfl := Option.some.inj h
    exact hi.workerTop hw hp
  · rename_i hp
    split_ifs at h
    obtain rfl := Option.some.inj h
    exact htop (by rw [hp]; simp) (by rw [hp]; rfl) (by rw [hp]; rfl)
  · rename_i hp
    split_ifs at h
    obtain rfl := Option.some.inj h
    exact htop (by rw [hp]; simp) (by rw [hp]; rfl) (by rw [hp]; rfl)
  · rename_i hp
    split_ifs at h
    obtain rfl := Option.some.inj h
    exact htop (by rw [hp]; simp) (by rw [hp]; rfl) (by rw [hp]; rfl)
  · rename_i r hp
    split at h
    · obtain rfl := Option.some.inj h
      refine hi.setWorker hw (by rw [hp]; simp) ?_ ?_ (by rw [hp]; rfl) (by simp)
      · intro q hq; simpa [Sketch.mem_handles, Worker.sketch, hp, Phase.hand] using hq
      · intro q hq; simp [Worker.sketch, Phase.hand] at hq
    · obtain rfl := Option.some.inj h
      exact hi.finishFetch hw (by rw [hp]; rfl) _ _
  · rename_i r p hp
    split_ifs at h
    obtain rfl := Option.some.inj h
    have hi' : Floor { s with rebalanceCbInProgress := none } := hi
    exact hi'.finishFetch hw (by rw [hp]; rfl) _ _
  · rename_i ms p hp
    obtain rfl := Option.some.inj h
    exact hi.process hw hp
  · rename_i ms p hp
    obtain rfl := Option.some.inj h
    exact hi.deliver hw (by rw [hp]; rfl) (by rw [hp]; rfl)
  · cases h

end

end Consumer

end ConfluentKafka
