import ConfluentKafka.CacheWf
import ConfluentKafka.Lts

/-!
# Workers sharing one cache

Any number of workers take messages of one cache, put them back and give their
PPC back, while messages are added. `handed_in_order`: what is handed out of a
partition is a prefix of what was added to it, the rest is in the cache, and a
partition is with one worker at a time.
-/

namespace ConfluentKafka

/-! ## Keys of partitions -/

theorem not_digit_not_in_repr {ch : Char} (hch : ch.isDigit = false) (n : Nat) : ch ∉ (Nat.repr n).toList := by
  intro hn
  rw [Nat.toList_repr] at hn
  rw [Nat.isDigit_of_mem_toDigits (by decide) (by decide) hn] at hch
  cases hch

theorem bar_not_in_toString (i : Int) : '|' ∉ (toString i).toList := by
  show '|' ∉ (Int.repr i).toList
  cases i with
  | ofNat n => exact not_digit_not_in_repr (by decide) n
  | negSucc n =>
    show '|' ∉ ("-" ++ Nat.repr (n + 1)).toList
    simpa using not_digit_not_in_repr (by decide) (n + 1)

theorem natRepr_inj {m n : Nat} (h : (Nat.repr m).toList = (Nat.repr n).toList) : m = n := by
  rw [Nat.toList_repr, Nat.toList_repr] at h
  rw [← Nat.ofDigitChars_ten_toDigits (n := m), h, Nat.ofDigitChars_ten_toDigits]

theorem toString_inj {i j : Int} (h : (toString i).toList = (toString j).toList) : i = j := by
  have hneg : ∀ n : Nat, '-' ∉ (Nat.repr n).toList := not_digit_not_in_repr (by decide)
  have hcons : ∀ n : Nat, (toString (Int.negSucc n)).toList = '-' :: (Nat.repr (n + 1)).toList := fun n => by
    show ("-" ++ Nat.repr (n + 1)).toList = _
    simp
  cases i with
  | ofNat m =>
    cases j with
    | ofNat n => rw [natRepr_inj h]
    | negSucc n => exact absurd (by rw [show (Nat.repr m).toList = _ from h, hcons]; simp) (hneg m)
  | negSucc m =>
    cases j with
    | ofNat n => exact absurd (by rw [show (Nat.repr n).toList = _ from h.symm, hcons]; simp) (hneg n)
    | negSucc n =>
      rw [hcons, hcons] at h
      have := natRepr_inj (List.cons.inj h).2
      rw [Nat.succ.inj this]

theorem append_bar_inj {l₁ l₂ r₁ r₂ : List Char} (h₁ : '|' ∉ r₁) (h₂ : '|' ∉ r₂)
    (h : l₁ ++ '|' :: r₁ = l₂ ++ '|' :: r₂) : l₁ = l₂ ∧ r₁ = r₂ := by
  rcases List.append_eq_append_iff.mp h with ⟨u, rfl, hu⟩ | ⟨u, rfl, hu⟩
  · cases u with
    | nil => simpa using hu
    | cons c u =>
      simp only [List.cons_append, List.cons.injEq] at hu
      exact absurd (hu.2 ▸ by simp) h₁
  · cases u with
    | nil => simpa [eq_comm] using hu
    | cons c u =>
      simp only [List.cons_append, List.cons.injEq] at hu
      exact absurd (hu.2 ▸ by simp) h₂

theorem partitionKey_inj {σ τ : Type} [Toppar σ] [Toppar τ] {a : σ} {b : τ} : partitionKey a = partitionKey b ↔
    Toppar.topic a = Toppar.topic b ∧ Toppar.partition a = Toppar.partition b := by
  constructor
  · intro h
    have hl : (Toppar.topic a).toList ++ '|' :: (toString (Toppar.partition a)).toList =
        (Toppar.topic b).toList ++ '|' :: (toString (Toppar.partition b)).toList := by
      simpa [partitionKey] using congrArg String.toList h
    obtain ⟨h₁, h₂⟩ := append_bar_inj (bar_not_in_toString _) (bar_not_in_toString _) hl
    exact ⟨String.toList_injective h₁, toString_inj h₂⟩
  · rintro ⟨h₁, h₂⟩
    rw [partitionKey, partitionKey, h₁, h₂]

/-! ## The workers -/

structure Lease (μ : Type) where
  worker : Nat
  ppc : Nat
  messages : List μ

/-- `ppc` and `ms` are what each worker was last given. `added` and `handed` (the
newest first) record the calls, `leases` what was handed out with a PPC that its
worker has not passed since; no operation reads them. -/
structure Shared (μ : Type) where
  cache : Cache μ
  ppc : Nat → Option Nat
  ms : Nat → List μ
  added : List μ
  handed : List (Nat × List μ)
  leases : List (Lease μ)

/-- A worker passes its PPC or nothing, and `return`s its PPC at most once. -/
inductive SharedEv (μ : Type) where
  | addMessages (messages : List μ)
  | next (worker : Nat) (pass : Bool)
  | nextN (worker : Nat) (pass : Bool) (n : Int) (hn : n ≠ 0)
  | giveBack (worker : Nat)
  | returnMessages (worker : Nat)

namespace Shared

variable {μ : Type}

def passed (s : Shared μ) (w : Nat) (pass : Bool) : Option Nat := if pass then s.ppc w else none

def kept (s : Shared μ) (w : Nat) (h : Option Nat) : List (Lease μ) :=
  s.leases.filter fun l => ¬ (l.worker = w ∧ h = some l.ppc)

def take (s : Shared μ) (w : Nat) (h : Option Nat) (c : Cache μ) : Option (List μ × Nat) → Shared μ
  | none =>
    { s with cache := c, ms := if h.isSome then Function.update s.ms w [] else s.ms, leases := s.kept w h }
  | some (ms, p) =>
    { s with
      cache := c
      ppc := Function.update s.ppc w (some p)
      ms := Function.update s.ms w ms
      handed := (w, ms) :: s.handed
      leases := ⟨w, p, ms⟩ :: s.kept w h }

def release (s : Shared μ) (w p : Nat) : Shared μ :=
  { s with
    cache := s.cache.giveBack p
    ppc := Function.update s.ppc w none
    ms := Function.update s.ms w []
    leases := s.kept w (some p) }

def add [Toppar μ] (s : Shared μ) (ms : List μ) : Shared μ :=
  { s with cache := s.cache.addMessages ms, added := s.added ++ ms }

def putBack [Toppar μ] (s : Shared μ) (w : Nat) : Shared μ :=
  { s with
    cache := s.cache.returnMessages (s.ms w)
    ms := Function.update s.ms w []
    handed := s.handed.eraseP fun e => e.1 = w }

def step [Toppar μ] (s : Shared μ) : SharedEv μ → Option (Shared μ)
  | .addMessages ms => some (s.add ms)
  | .next w pass =>
    let (c, r) := s.cache.next (s.passed w pass)
    some (s.take w (s.passed w pass) c (r.map fun r => ([r.1], r.2)))
  | .nextN w pass n hn =>
    let (c, r) := s.cache.nextN (s.passed w pass) n hn
    some (s.take w (s.passed w pass) c r)
  | .giveBack w => (s.ppc w).map fun p => s.release w p
  | .returnMessages w => if (s.ms w).isEmpty then none else some (s.putBack w)

def lts (μ : Type) [Toppar μ] : Lts (Shared μ) (SharedEv μ) where
  init := ⟨.new, fun _ => none, fun _ => [], [], [], []⟩
  step := step

def out (handed : List (Nat × List μ)) : List μ := (handed.reverse.map (·.2)).flatten

theorem out_cons (e : Nat × List μ) (l : List (Nat × List μ)) : out (e :: l) = out l ++ e.2 := by
  simp [out]

theorem out_append (l l' : List (Nat × List μ)) : out (l ++ l') = out l' ++ out l := by
  simp [out]

/-! ## The invariant -/

section
variable [Toppar μ]

/-- What `w` may still put back is the newest of its entries, and nothing of its partition was handed out since. -/
structure Newest (s : Shared μ) (w p : Nat) : Prop where
  lease : ∃ l ∈ s.leases, l.worker = w ∧ l.ppc = p
  keys : ∀ m ∈ s.ms w, partitionKey m = s.cache.view.key p
  split : ∃ newer older, s.handed = newer ++ (w, s.ms w) :: older ∧
    ∀ e ∈ newer, e.1 ≠ w ∧ ∀ m ∈ e.2, partitionKey m ≠ s.cache.view.key p

structure Inv (s : Shared μ) : Prop where
  order : ∀ k, s.added.filter (partitionKey · = k) = (out s.handed).filter (partitionKey · = k) ++
    s.cache.view.queueOf k
  leased : ∀ l ∈ s.leases, l.ppc ∈ s.cache.view.assigned ∧ ∀ m ∈ l.messages, partitionKey m = s.cache.view.key l.ppc
  one : ∀ l ∈ s.leases, ∀ l' ∈ s.leases, l.ppc = l'.ppc → l.worker = l'.worker
  holds : ∀ w p, s.ppc w = some p →
    (∃ l ∈ s.leases, l.worker = w ∧ l.ppc = p) ∨ p < s.cache.view.fresh ∧ p ∉ s.cache.view.live
  newest : ∀ w, s.ms w ≠ [] → ∃ p, s.ppc w = some p ∧ s.Newest w p

theorem inv_init : Inv (lts μ).init where
  order k := by simp [lts, out, Cache.view_new, Leases.queueOf, Leases.find, Leases.live]
  leased l hl := by simp [lts] at hl
  one l hl := by simp [lts] at hl
  holds w p h := by simp [lts] at h
  newest w h := by simp [lts] at h

theorem filter_of_keys {ms : List μ} {k k' : String} (h : ∀ m ∈ ms, partitionKey m = k) :
    ms.filter (partitionKey · = k') = if k = k' then ms else [] := by
  split_ifs with hk
  · exact List.filter_eq_self.mpr fun m hm => by simpa using (h m hm).trans hk
  · exact List.filter_eq_nil_iff.mpr fun m hm => by simpa [h m hm] using hk

section
variable {s : Shared μ} (hi : Inv s)
include hi

theorem Inv.queue_keys {p : Nat} (hp : p ∈ s.cache.view.live) {m : μ} (hm : m ∈ s.cache.view.queue p) :
    partitionKey m = s.cache.view.key p := by
  rw [← s.cache.valid.queueOf_key hp] at hm
  have : m ∈ s.added.filter (partitionKey · = s.cache.view.key p) := by
    rw [hi.order]; exact List.mem_append_right _ hm
  simpa using (List.mem_filter.mp this).2

theorem Inv.kept_ne {w : Nat} {h : Option Nat} (hh : h = none ∨ h = s.ppc w) {l : Lease μ} (hl : l ∈ s.kept w h) :
    l ∈ s.leases ∧ h ≠ some l.ppc := by
  obtain ⟨hm, hk⟩ := List.mem_filter.mp hl
  refine ⟨hm, fun e => ?_⟩
  have hw : l.worker ≠ w := fun hw => by simp [hw, e] at hk
  rcases hh with hh | hh
  · rw [hh] at e; cases e
  · rcases hi.holds w l.ppc (hh ▸ e) with ⟨l', hl', rfl, hp⟩ | ⟨_, hd⟩
    · exact hw (hi.one l hm l' hl' hp.symm)
    · exact hd (List.mem_append_right _ (hi.leased l hm).1)

omit [Toppar μ] hi in
theorem mem_kept_of_ne {w : Nat} {h : Option Nat} {l : Lease μ} (hl : l ∈ s.leases) (hw : l.worker ≠ w) :
    l ∈ s.kept w h := List.mem_filter.mpr ⟨hl, by simp [hw]⟩

/-- Adding messages, at either end, ends no lease. -/
theorem Inv.newest_grown (t : Shared μ) (hg : s.cache.view.Grown t.cache.view)
    (hl : t.leases = s.leases) {w p : Nat}
    (hm : t.ms w = s.ms w) (hn : s.Newest w p)
    (hs : ∃ newer older, t.handed = newer ++ (w, s.ms w) :: older ∧
      ∀ e ∈ newer, e.1 ≠ w ∧ ∀ m ∈ e.2, partitionKey m ≠ s.cache.view.key p) : t.Newest w p := by
  obtain ⟨l, hl', hw, rfl⟩ := hn.lease
  have hk := (hg.live l.ppc (List.mem_append_right _ (hi.leased l hl').1)).2
  refine ⟨⟨l, hl ▸ hl', hw, rfl⟩, ?_, ?_⟩
  · rw [hm, hk]; exact hn.keys
  · rw [hm, hk]; exact hs

theorem Inv.leased_grown {c : Cache μ} (hg : s.cache.view.Grown c.view) : ∀ l ∈ s.leases, l.ppc ∈ c.view.assigned ∧
    ∀ m ∈ l.messages, partitionKey m = c.view.key l.ppc := by
  intro l hl
  obtain ⟨ha, hm⟩ := hi.leased l hl
  rw [hg.assigned, (hg.live l.ppc (List.mem_append_right _ ha)).2]
  exact ⟨ha, hm⟩

theorem Inv.add (ms : List μ) : Inv (s.add ms) := by
  have hg := s.cache.addMessages_grown ms
  refine ⟨?_, hi.leased_grown hg, hi.one, ?_, ?_⟩
  · intro k
    simp only [Shared.add, Cache.view_addMessages, s.cache.valid.queueOf_pushAll, List.filter_append, hi.order k,
      List.append_assoc]
  · intro w p hp
    exact (hi.holds w p hp).imp_right fun h => hg.dead p h.1 h.2
  · intro w hw
    obtain ⟨p, hp, hn⟩ := hi.newest w hw
    exact ⟨p, hp, hi.newest_grown (s.add ms) hg rfl rfl hn hn.split⟩

/-! ### Handing out -/

section Take

variable {w : Nat} {h : Option Nat} {c : Cache μ}

omit [Toppar μ] hi in
theorem dead_of_handed {r : Option (List μ × Nat)} (hd : s.cache.view.Handed c.view h r) {p : Nat}
    (hp : p < s.cache.view.fresh ∧ p ∉ s.cache.view.live) : p < c.view.fresh ∧ p ∉ c.view.live :=
  ⟨hd.fresh ▸ hp.1, fun hl => hp.2 (hd.live hl)⟩

omit hi in
theorem Newest.kept {w' p : Nat} (hn : s.Newest w' p) (hw : w' ≠ w) :
    ∃ l ∈ s.kept w h, l.worker = w' ∧ l.ppc = p := by
  obtain ⟨l, hl, rfl, hp⟩ := hn.lease
  exact ⟨l, mem_kept_of_ne hl hw, rfl, hp⟩

variable (hh : h = none ∨ h = s.ppc w)
include hh

theorem Inv.leased_kept {r : Option (List μ × Nat)} (hd : s.cache.view.Handed c.view h r) :
    ∀ l ∈ s.kept w h, l.ppc ∈ c.view.assigned ∧ ∀ m ∈ l.messages, partitionKey m = c.view.key l.ppc := by
  intro l hl
  obtain ⟨hl, hne⟩ := hi.kept_ne hh hl
  rw [hd.key]
  exact ⟨(hd.assigned _).mpr (.inl ⟨(hi.leased l hl).1, hne⟩), (hi.leased l hl).2⟩

theorem Inv.one_kept : ∀ l ∈ s.kept w h, ∀ l' ∈ s.kept w h, l.ppc = l'.ppc → l.worker = l'.worker :=
  fun l hl l' hl' => hi.one l (hi.kept_ne hh hl).1 l' (hi.kept_ne hh hl').1

/-- Nothing is handed out, and the PPC that was passed is removed if it is exhausted. -/
theorem Inv.take_none (hd : s.cache.view.Handed c.view h none) : Inv (s.take w h c none) := by
  refine ⟨?_, hi.leased_kept hh hd, hi.one_kept hh, ?_, ?_⟩
  · intro k
    have := hd.queueOf s.cache.valid k
    simp only [Shared.take, hi.order k, this, Option.elim_none, List.nil_append]
  · intro w' p hp
    rcases hi.holds w' p hp with ⟨l, hl, rfl, rfl⟩ | hx
    · by_cases hp' : l.worker = w ∧ h = some l.ppc
      · have ha := (hi.leased l hl).1
        refine .inr ⟨hd.fresh ▸ s.cache.valid.lt_fresh _ (List.mem_append_right _ ha), fun hlive => ?_⟩
        rcases List.mem_append.mp hlive with hx | hx
        · exact s.cache.valid.not_available ha (hd.available _ hx)
        · rcases (hd.assigned _).mp hx with ⟨_, hne⟩ | ⟨_, hr⟩
          · exact hne hp'.2
          · cases hr
      · exact .inl ⟨l, List.mem_filter.mpr ⟨hl, by simpa [imp_iff_not_or] using hp'⟩, rfl, rfl⟩
    · exact .inr (dead_of_handed hd hx)
  · intro w' hw'
    have hms : (if h.isSome then Function.update s.ms w [] else s.ms) w' = s.ms w' ∧ (w' = w → h = none) := by
      simp only [Shared.take] at hw'
      cases h with
      | none => exact ⟨rfl, fun _ => rfl⟩
      | some q =>
        by_cases e : w' = w
        · subst e; simp at hw'
        · exact ⟨by simp [Function.update_of_ne e], fun e' => absurd e' e⟩
    obtain ⟨p, hp, hn⟩ := hi.newest w' (by simpa only [Shared.take, hms.1] using hw')
    refine ⟨p, hp, ?_, ?_, ?_⟩
    · by_cases e : w' = w
      · obtain ⟨l, hl, hx⟩ := hn.lease
        exact ⟨l, List.mem_filter.mpr ⟨hl, by simp [hms.2 e]⟩, hx⟩
      · exact hn.kept e
    · simp only [Shared.take, hms.1, hd.key]; exact hn.keys
    · simp only [Shared.take, hms.1, hd.key]; exact hn.split

variable {ms : List μ} {p : Nat} (hd : s.cache.view.Handed c.view h (some (ms, p)))
include hd

omit hh in
theorem Inv.keys_of_handed : ∀ m ∈ ms, partitionKey m = s.cache.view.key p := by
  obtain ⟨_, hpl, hq⟩ := hd.handed ms p rfl
  exact fun m hm => hi.queue_keys hpl (by rw [hq]; exact List.mem_append_left _ hm)

theorem Inv.kept_ne_handed : ∀ l ∈ s.kept w h, l.ppc ≠ p := by
  rintro l hl rfl
  obtain ⟨hl, hne⟩ := hi.kept_ne hh hl
  exact hne (hd.fromAssigned ms l.ppc rfl (hi.leased l hl).1)

/-- The newest entry of another worker is of another partition. -/
theorem Inv.newest_take {w' : Nat} (e : w' ≠ w) (hw' : s.ms w' ≠ []) :
    ∃ q, (s.take w h c (some (ms, p))).ppc w' = some q ∧ (s.take w h c (some (ms, p))).Newest w' q := by
  obtain ⟨_, hpl, _⟩ := hd.handed ms p rfl
  obtain ⟨q, hq', hn⟩ := hi.newest w' hw'
  obtain ⟨l, hl, hlw, rfl⟩ := hn.kept (h := h) e
  have hne : s.cache.view.key p ≠ s.cache.view.key l.ppc := fun ek => hi.kept_ne_handed hh hd l hl
    (s.cache.valid.key_inj p hpl _ (List.mem_append_right _ (hi.leased l (hi.kept_ne hh hl).1).1) ek).symm
  obtain ⟨newer, older, hs, hnew⟩ := hn.split
  refine ⟨l.ppc, ?_, ⟨l, List.mem_cons_of_mem _ hl, hlw, rfl⟩, ?_, ⟨(w, ms) :: newer, older, ?_, ?_⟩⟩
  · simpa only [Shared.take, Function.update_of_ne e] using hq'
  · simpa only [Shared.take, Function.update_of_ne e, hd.key] using hn.keys
  · simp only [Shared.take, Function.update_of_ne e, hs, List.cons_append]
  · intro x hx
    simp only [Shared.take, hd.key]
    rcases List.mem_cons.mp hx with rfl | hx
    · exact ⟨Ne.symm e, fun m hm => by rw [hi.keys_of_handed hd m hm]; exact hne⟩
    · exact hnew x hx

theorem Inv.take_some : Inv (s.take w h c (some (ms, p))) := by
  have hms := hi.keys_of_handed hd
  have hpk := hi.kept_ne_handed hh hd
  refine ⟨?_, ?_, ?_, ?_, ?_⟩
  · intro k
    have := hd.queueOf s.cache.valid k
    simp only [Shared.take, hi.order k, this, Option.elim_some, out_cons, List.filter_append, filter_of_keys hms,
      List.append_assoc]
  · intro l hl
    rcases List.mem_cons.mp hl with rfl | hl
    · exact ⟨(hd.assigned p).mpr (.inr ⟨ms, rfl⟩), fun m hm => (hms m hm).trans (by rw [← hd.key]; rfl)⟩
    · exact hi.leased_kept hh hd l hl
  · intro l hl l' hl' e
    rcases List.mem_cons.mp hl with rfl | hl <;> rcases List.mem_cons.mp hl' with rfl | hl'
    · rfl
    · exact absurd e.symm (hpk l' hl')
    · exact absurd e (hpk l hl)
    · exact hi.one_kept hh l hl l' hl' e
  · intro w' q hq'
    simp only [Shared.take] at hq'
    by_cases e : w' = w
    · subst e
      obtain rfl : p = q := by simpa using hq'
      exact .inl ⟨_, List.mem_cons_self .., rfl, rfl⟩
    · rw [Function.update_of_ne e] at hq'
      rcases hi.holds w' q hq' with ⟨l, hl, rfl, rfl⟩ | hx
      · exact .inl ⟨l, List.mem_cons_of_mem _ (mem_kept_of_ne hl e), rfl, rfl⟩
      · exact .inr (dead_of_handed hd hx)
  · intro w' hw'
    by_cases e : w' = w
    · subst e
      refine ⟨p, by simp [Shared.take], ⟨_, List.mem_cons_self .., rfl, rfl⟩, ?_, ⟨[], s.handed, ?_, by simp⟩⟩
      · simpa only [Shared.take, Function.update_self, hd.key] using hms
      · simp [Shared.take]
    · simp only [Shared.take, Function.update_of_ne e] at hw'
      exact hi.newest_take hh hd e hw'

end Take

theorem Inv.take {w : Nat} {h : Option Nat} (hh : h = none ∨ h = s.ppc w) {c : Cache μ} {r : Option (List μ × Nat)}
    (hd : s.cache.view.Handed c.view h r) : Inv (s.take w h c r) := by
  cases r with
  | none => exact hi.take_none hh hd
  | some x => exact hi.take_some hh hd

theorem Inv.release {w p : Nat} (hp : s.ppc w = some p) : Inv (s.release w p) := by
  have hv := s.cache.view_giveBack p
  obtain ⟨_, hlive, hqueue⟩ := s.cache.valid.release p
  obtain ⟨hkey, hfresh⟩ := s.cache.view.release_key p
  rw [← hv] at hlive hqueue hkey hfresh
  have hkept : ∀ l ∈ s.kept w (some p), l ∈ s.leases ∧ p ≠ l.ppc := fun l hl => by
    simpa using hi.kept_ne (.inr hp.symm) hl
  refine ⟨?_, ?_, ?_, ?_, ?_⟩
  · intro k
    simp only [Shared.release, hi.order k, hqueue]
  · intro l hl
    obtain ⟨hl, hne⟩ := hkept l hl
    simp only [Shared.release, hkey]
    refine ⟨?_, (hi.leased l hl).2⟩
    rw [hv, s.cache.valid.mem_release]
    exact ⟨(hi.leased l hl).1, hne.symm⟩
  · intro l hl l' hl'
    exact hi.one l (hkept l hl).1 l' (hkept l' hl').1
  · intro w' q hq
    simp only [Shared.release] at hq ⊢
    by_cases e : w' = w
    · subst e; simp at hq
    · rw [Function.update_of_ne e] at hq
      rcases hi.holds w' q hq with ⟨l, hl, rfl, rfl⟩ | ⟨hf, hd⟩
      · exact .inl ⟨l, mem_kept_of_ne hl e, rfl, rfl⟩
      · exact .inr ⟨by rw [hfresh]; exact hf, fun h => hd ((hlive q).mp h)⟩
  · intro w' hw'
    by_cases e : w' = w
    · subst e; simp [Shared.release] at hw'
    · simp only [Shared.release, Function.update_of_ne e] at hw'
      obtain ⟨q, hq, hn⟩ := hi.newest w' hw'
      obtain ⟨l, hl, rfl, rfl⟩ := hn.lease
      refine ⟨l.ppc, ?_, ⟨l, mem_kept_of_ne hl e, rfl, rfl⟩, ?_, ?_⟩
      · simpa only [Shared.release, Function.update_of_ne e] using hq
      · simpa only [Shared.release, Function.update_of_ne e, hkey] using hn.keys
      · simpa only [Shared.release, Function.update_of_ne e, hkey] using hn.split

theorem Inv.putBack {w : Nat} (hw : s.ms w ≠ []) : Inv (s.putBack w) := by
  obtain ⟨p, hp, hn⟩ := hi.newest w hw
  obtain ⟨newer, older, hs, hnew⟩ := hn.split
  have hg := s.cache.returnMessages_grown (s.ms w)
  have herase : s.handed.eraseP (fun e => e.1 = w) = newer ++ older := by
    rw [hs, List.eraseP_append_right _ fun e he => by simpa using (hnew e he).1]
    simp
  have hnil : (out newer).filter (partitionKey · = s.cache.view.key p) = [] := by
    refine List.filter_eq_nil_iff.mpr fun m hm => ?_
    obtain ⟨_, hl, hm⟩ := List.mem_flatten.mp hm
    obtain ⟨e, he, rfl⟩ := List.mem_map.mp hl
    simpa using (hnew e (List.mem_reverse.mp he)).2 m hm
  refine ⟨?_, hi.leased_grown hg, hi.one, ?_, ?_⟩
  · intro k
    have ho := hi.order k
    simp only [hs, out_append, out_cons, List.filter_append, List.append_assoc] at ho
    simp only [Shared.putBack, herase, out_append, List.filter_append, Cache.view_returnMessages,
      s.cache.valid.queueOf_putBack, ho,
      List.append_assoc, filter_of_keys hn.keys]
    split_ifs with hk
    · simp [← hk, hnil]
    · simp
  · intro w' q hq
    exact (hi.holds w' q hq).imp_right fun h => hg.dead q h.1 h.2
  · intro w' hw'
    by_cases e : w' = w
    · subst e; simp [Shared.putBack] at hw'
    · have hms : (s.putBack w).ms w' = s.ms w' := Function.update_of_ne e _ _
      obtain ⟨q, hq, hn'⟩ := hi.newest w' (by simpa only [hms] using hw')
      refine ⟨q, hq, hi.newest_grown (s.putBack w) hg rfl hms hn' ?_⟩
      obtain ⟨newer', older', hs', hnew'⟩ := hn'.split
      by_cases hx : ∃ x ∈ newer', x.1 = w
      · obtain ⟨x, hx, hxw⟩ := hx
        refine ⟨newer'.eraseP fun e => e.1 = w, older', ?_, fun y hy => hnew' y (List.mem_of_mem_eraseP hy)⟩
        simp only [Shared.putBack, hs']
        exact List.eraseP_append_left (by simpa using hxw) _ hx
      · refine ⟨newer', older'.eraseP fun e => e.1 = w, ?_, hnew'⟩
        simp only [Shared.putBack, hs']
        rw [List.eraseP_append_right _ fun y hy => by simpa using fun hyw => hx ⟨y, hy, hyw⟩,
          List.eraseP_cons_of_neg (by simpa using e)]

theorem Inv.step {e : SharedEv μ} {t : Shared μ} (h : s.step e = some t) : Inv t := by
  have hpass : ∀ w pass, s.passed w pass = none ∨ s.passed w pass = s.ppc w := fun w pass => by
    cases pass
    · exact .inl rfl
    · exact .inr rfl
  cases e with
  | addMessages ms =>
    obtain rfl := Option.some.inj h
    exact hi.add ms
  | next w pass =>
    obtain rfl := Option.some.inj h
    exact hi.take (hpass w pass) (s.cache.next_handed _)
  | nextN w pass n hn =>
    obtain rfl := Option.some.inj h
    exact hi.take (hpass w pass) (s.cache.nextN_handed _ n hn)
  | giveBack w =>
    obtain ⟨p, hp, rfl⟩ := Option.map_eq_some_iff.mp h
    exact hi.release hp
  | returnMessages w =>
    simp only [Shared.step] at h
    split_ifs at h with hm
    obtain rfl := Option.some.inj h
    exact hi.putBack (by simpa using hm)

end

def isOf (topic : String) (partition : Int) (m : μ) : Bool :=
  Toppar.topic m = topic ∧ Toppar.partition m = partition

theorem isOf_eq (topic : String) (partition : Int) :
    isOf (μ := μ) topic partition = fun m =>
      decide (partitionKey m = partitionKey (TopicPartition.mk topic partition)) := by
  funext m
  have h := partitionKey_inj (a := m) (b := TopicPartition.mk topic partition)
  exact decide_eq_decide.mpr h.symm

/-- In each partition the messages handed out, and not put back, are the first of those added, in order, and the
rest is in the cache; and while a worker has not passed the PPC it was handed messages with, nobody else has been
handed a message of their partition. -/
theorem handed_in_order {es : List (SharedEv μ)} {s : Shared μ} (hr : (lts μ).Run es s) :
    (∀ topic partition, (out s.handed).filter (isOf topic partition) <+: s.added.filter (isOf topic partition) ∧
      s.added.filter (isOf topic partition) = (out s.handed).filter (isOf topic partition) ++
        s.cache.cached (partitionKey (TopicPartition.mk topic partition))) ∧
    ∀ l ∈ s.leases, ∀ l' ∈ s.leases, ∀ m ∈ l.messages, ∀ m' ∈ l'.messages, Toppar.topic m = Toppar.topic m' →
      Toppar.partition m = Toppar.partition m' → l.worker = l'.worker := by
  have hi : Inv s := hr.inv inv_init fun _ _ _ hi _ h => hi.step h
  constructor
  · intro topic partition
    have ho := hi.order (partitionKey (TopicPartition.mk topic partition))
    rw [← Cache.cached_eq, ← isOf_eq] at ho
    exact ⟨⟨_, ho.symm⟩, ho⟩
  · intro l hl l' hl' m hm m' hm' ht hp
    obtain ⟨ha, hk⟩ := hi.leased l hl
    obtain ⟨ha', hk'⟩ := hi.leased l' hl'
    refine hi.one l hl l' hl' (s.cache.valid.key_inj _ (List.mem_append_right _ ha) _
      (List.mem_append_right _ ha') ?_)
    rw [← hk m hm, ← hk' m' hm']
    exact partitionKey_inj.mpr ⟨ht, hp⟩

end

/-- Two workers and two partitions; the first worker puts a batch back and takes it again. -/
def twoWorkers : List (SharedEv Message) :=
  [.addMessages [⟨"t", 0, 0, 0⟩, ⟨"t", 1, 0, 0⟩, ⟨"t", 0, 1, 0⟩], .nextN 0 false 5 (by decide), .next 1 false,
    .addMessages [⟨"t", 0, 2, 0⟩], .returnMessages 0, .next 1 true, .nextN 0 true 2 (by decide)]

theorem handed_in_order_twoWorkers : ∃ s, (lts Message).Run twoWorkers s ∧
    out s.handed = [⟨"t", 1, 0, 0⟩, ⟨"t", 0, 0, 0⟩, ⟨"t", 0, 1, 0⟩] ∧
    (out s.handed).filter (isOf "t" 0) <+: s.added.filter (isOf "t" 0) := by
  have hs : ((lts Message).exec (fun _ _ => true) (lts Message).init twoWorkers).map (fun s => out s.handed) =
      some [⟨"t", 1, 0, 0⟩, ⟨"t", 0, 0, 0⟩, ⟨"t", 0, 1, 0⟩] := by decide +kernel
  obtain ⟨s, hs, ho⟩ := Option.map_eq_some_iff.mp hs
  have hr := Lts.Run.of_exec hs
  exact ⟨s, hr, ho, ((handed_in_order hr).1 "t" 0).1⟩

end Shared

end ConfluentKafka
