import Mathlib.Data.List.Basic
import Mathlib.Data.List.Nodup
import Mathlib.Logic.Function.Basic
import Mathlib.Algebra.BigOperators.Group.List.Basic
import Mathlib.Algebra.GroupWithZero.Nat
import Mathlib.Algebra.Ring.Int.Defs

/-!
# Keyed queues leased to their readers

One queue a key. A queue is either available or leased under its handle; a
leased queue is only read by who passes the handle, and an exhausted one is
discarded when it is passed again. Handles are never used twice.
-/

namespace ConfluentKafka

structure Leases (κ μ : Type) where
  available : List Nat
  assigned : List Nat
  key : Nat → κ
  queue : Nat → List μ
  fresh : Nat

namespace Leases

variable {κ μ : Type}

def live (a : Leases κ μ) : List Nat := a.available ++ a.assigned

def total (a : Leases κ μ) : Nat := (a.live.map fun p => (a.queue p).length).sum

def setQueue (a : Leases κ μ) (p : Nat) (q : List μ) : Leases κ μ :=
  { a with queue := Function.update a.queue p q }

def find [DecidableEq κ] (a : Leases κ μ) (k : κ) : Option Nat := a.live.find? fun p => a.key p = k

/-- The handle of the queue of `k`, with an empty queue made available when there is none. -/
def ensure [DecidableEq κ] (a : Leases κ μ) (k : κ) : Leases κ μ × Nat :=
  match a.find k with
  | some p => (a, p)
  | none =>
    ({ a with
        available := a.available ++ [a.fresh]
        key := Function.update a.key a.fresh k
        fresh := a.fresh + 1 }, a.fresh)

def push [DecidableEq κ] (a : Leases κ μ) (k : κ) (m : μ) (front : Bool) : Leases κ μ :=
  let (a, p) := a.ensure k
  a.setQueue p (if front then m :: a.queue p else a.queue p ++ [m])

def pushAll [DecidableEq κ] (key : μ → κ) (a : Leases κ μ) (ms : List μ) : Leases κ μ :=
  ms.foldl (fun a m => a.push (key m) m false) a

def putBack [DecidableEq κ] (key : μ → κ) (a : Leases κ μ) (ms : List μ) : Leases κ μ :=
  ms.foldr (fun m a => a.push (key m) m true) a

/-- What a reader asking for at most `limit` messages is handed. -/
def taken (limit : Option Nat) (q : List μ) : List μ := limit.elim q fun n => q.take n

def rest (limit : Option Nat) (q : List μ) : List μ := limit.elim [] fun n => q.drop n

def nextNew (limit : Option Nat) (a : Leases κ μ) : List Nat → Leases κ μ × Option (List μ × Nat)
  | [] => ({ a with available := [] }, none)
  | p :: ps =>
    match taken limit (a.queue p) with
    | [] => nextNew limit a ps
    | m :: ms =>
      ({ a with available := ps, assigned := a.assigned ++ [p] }.setQueue p (rest limit (a.queue p)),
        some (m :: ms, p))

def next (limit : Option Nat) (a : Leases κ μ) (h : Option Nat) : Leases κ μ × Option (List μ × Nat) :=
  match h with
  | none => nextNew limit a a.available
  | some p =>
    if p ∈ a.assigned then
      match taken limit (a.queue p) with
      | [] => nextNew limit { a with assigned := a.assigned.erase p } a.available
      | m :: ms => (a.setQueue p (rest limit (a.queue p)), some (m :: ms, p))
    else nextNew limit a a.available

def release (a : Leases κ μ) (p : Nat) : Leases κ μ :=
  if p ∈ a.assigned then { a with available := a.available ++ [p], assigned := a.assigned.erase p } else a

def discard [DecidableEq κ] (a : Leases κ μ) (k : κ) : Leases κ μ :=
  match a.find k with
  | none => a
  | some p => { a with available := a.available.erase p, assigned := a.assigned.erase p }

def clear (a : Leases κ μ) : Leases κ μ := { a with available := [], assigned := [] }

theorem taken_append_rest (limit : Option Nat) (q : List μ) : taken limit q ++ rest limit q = q := by
  cases limit <;> simp [taken, rest]

theorem taken_eq_nil {limit : Option Nat} (hl : limit ≠ some 0) {q : List μ} : taken limit q = [] ↔ q = [] := by
  cases limit with
  | none => simp [taken]
  | some n =>
    have : n ≠ 0 := fun e => hl (by rw [e])
    simp [taken, this]

theorem setQueue_self (a : Leases κ μ) (p : Nat) : a.setQueue p (a.queue p) = a := by
  simp [setQueue]

theorem rest_of_taken_nil {limit : Option Nat} {q : List μ} (h : taken limit q = []) : rest limit q = q := by
  have := taken_append_rest limit q
  rwa [h, List.nil_append] at this

theorem nextNew_available (limit : Option Nat) (a : Leases κ μ) (xs : List Nat) :
    ∀ l, nextNew limit { a with available := xs } l = nextNew limit a l
  | [] => rfl
  | p :: l => by
    simp only [nextNew]
    cases taken limit (a.queue p) with
    | nil => exact nextNew_available limit a xs l
    | cons m ms => rfl

/-- Handles are distinct, each was made, and no two live queues share a key. -/
structure Valid (a : Leases κ μ) : Prop where
  nodup : a.live.Nodup
  lt_fresh : ∀ p ∈ a.live, p < a.fresh
  unused : ∀ p, a.fresh ≤ p → a.queue p = []
  key_inj : ∀ p ∈ a.live, ∀ q ∈ a.live, a.key p = a.key q → p = q

section
variable {a : Leases κ μ} (hv : a.Valid)
include hv

theorem Valid.find_eq_some [DecidableEq κ] {k : κ} {p : Nat} :
    a.find k = some p ↔ p ∈ a.live ∧ a.key p = k := by
  constructor
  · intro hf
    exact ⟨List.mem_of_find?_eq_some hf, by simpa using List.find?_some hf⟩
  · rintro ⟨hp, hk⟩
    cases hf : a.find k with
    | none => exact absurd hk (by simpa using List.find?_eq_none.mp hf p hp)
    | some q =>
      have hq : a.key q = k := by simpa using List.find?_some hf
      rw [hv.key_inj q (List.mem_of_find?_eq_some hf) p hp (hq.trans hk.symm)]

omit hv in
theorem total_of_mem {p : Nat} (hp : p ∈ a.live) :
    a.total = (a.queue p).length + ((a.live.erase p).map fun q => (a.queue q).length).sum := by
  unfold total
  rw [((List.perm_cons_erase hp).map _).sum_eq, List.map_cons, List.sum_cons]

theorem Valid.total_setQueue {p : Nat} (hp : p ∈ a.live) (q : List μ) :
    (a.setQueue p q).total + (a.queue p).length = a.total + q.length := by
  rw [total_of_mem (a := a.setQueue p q) hp, total_of_mem hp]
  have : ((a.setQueue p q).live.erase p).map (fun r => ((a.setQueue p q).queue r).length) =
      (a.live.erase p).map fun r => (a.queue r).length := by
    refine List.map_congr_left fun r hr => ?_
    have hrp : r ≠ p := fun e => hv.nodup.not_mem_erase (e ▸ hr)
    simp [setQueue, Function.update_of_ne hrp]
  rw [this]
  simp only [setQueue, Function.update_self]
  omega

theorem Valid.erase_available {p : Nat} (hp : p ∈ a.assigned) : a.available.erase p = a.available :=
  List.erase_of_not_mem fun h => (List.nodup_append.mp hv.nodup).2.2 p h p hp rfl

theorem Valid.erase_assigned {p : Nat} (hp : p ∈ a.available) : a.assigned.erase p = a.assigned :=
  List.erase_of_not_mem fun h => (List.nodup_append.mp hv.nodup).2.2 p hp p h rfl

/-- Taking a handle off the lists takes its queue off the total. -/
theorem Valid.total_erase {p : Nat} (hp : p ∈ a.live) :
    { a with available := a.available.erase p, assigned := a.assigned.erase p }.total + (a.queue p).length =
      a.total := by
  have hlive : { a with available := a.available.erase p, assigned := a.assigned.erase p }.live =
    a.live.erase p := by
    rcases List.mem_append.mp hp with h | h
    · simp [live, hv.erase_assigned h, List.erase_append_left _ h]
    · have : p ∉ a.available := fun h' => (List.nodup_append.mp hv.nodup).2.2 p h' p h rfl
      simp [live, List.erase_of_not_mem this, List.erase_append_right _ this]
  rw [total_of_mem hp, total, hlive]
  exact Nat.add_comm _ _

theorem Valid.ensure [DecidableEq κ] (k : κ) : (a.ensure k).1.Valid ∧ (a.ensure k).2 ∈ (a.ensure k).1.live ∧
    (a.ensure k).1.key (a.ensure k).2 = k ∧ (a.ensure k).1.total = a.total := by
  unfold Leases.ensure
  cases hf : a.find k with
  | some p =>
    obtain ⟨hp, hk⟩ := hv.find_eq_some.mp hf
    exact ⟨hv, hp, hk, rfl⟩
  | none =>
    have hlive : ∀ p, p ∈ a.live → p ≠ a.fresh := fun p hp => Nat.ne_of_lt (hv.lt_fresh p hp)
    have hperm : { a with
        available := a.available ++ [a.fresh]
        key := Function.update a.key a.fresh k
        fresh := a.fresh + 1 }.live.Perm (a.fresh :: a.live) := by
      simp only [live, List.append_assoc, List.singleton_append]
      exact List.perm_middle
    have hmem : ∀ p, p ∈ { a with
        available := a.available ++ [a.fresh]
        key := Function.update a.key a.fresh k
        fresh := a.fresh + 1 }.live ↔ p = a.fresh ∨ p ∈ a.live := fun p => by
      rw [hperm.mem_iff, List.mem_cons]
    have hno : ∀ p ∈ a.live, a.key p ≠ k := fun p hp e => by
      have := hv.find_eq_some.mpr ⟨hp, e⟩
      rw [hf] at this; cases this
    refine ⟨⟨?_, ?_, ?_, ?_⟩, by simp [live], by simp, ?_⟩
    · rw [hperm.nodup_iff]
      exact List.nodup_cons.mpr ⟨fun h => hlive _ h rfl, hv.nodup⟩
    · intro p hp
      rcases (hmem p).mp hp with rfl | h
      · exact Nat.lt_succ_self _
      · exact Nat.lt_succ_of_lt (hv.lt_fresh p h)
    · intro p hp
      exact hv.unused p (Nat.le_of_succ_le hp)
    · intro p hp q hq e
      simp only at e
      rcases (hmem p).mp hp with rfl | h <;> rcases (hmem q).mp hq with rfl | h'
      · rfl
      · rw [Function.update_self, Function.update_of_ne (hlive q h')] at e
        exact absurd e.symm (hno q h')
      · rw [Function.update_self, Function.update_of_ne (hlive p h)] at e
        exact absurd e (hno p h)
      · rw [Function.update_of_ne (hlive p h), Function.update_of_ne (hlive q h')] at e
        exact hv.key_inj p h q h' e
    · unfold total
      rw [(hperm.map _).sum_eq, List.map_cons, List.sum_cons, hv.unused a.fresh (Nat.le_refl _)]
      simp

theorem Valid.total_push [DecidableEq κ] (k : κ) (m : μ) (front : Bool) :
    (a.push k m front).total = a.total + 1 := by
  obtain ⟨hv', hm, _, ht⟩ := hv.ensure k
  have := hv'.total_setQueue hm (if front then m :: (a.ensure k).1.queue (a.ensure k).2
    else (a.ensure k).1.queue (a.ensure k).2 ++ [m])
  unfold push
  simp only
  cases front <;> simp at this ⊢ <;> omega

omit hv in
theorem total_perm {b : Leases κ μ} (hp : b.live.Perm a.live) (hq : b.queue = a.queue) : b.total = a.total := by
  unfold total
  rw [hq, (hp.map _).sum_eq]

/-- Only which handles are live matters, not on which list they are. -/
theorem Valid.perm {b : Leases κ μ} (hp : b.live.Perm a.live) (hk : b.key = a.key) (hf : b.fresh = a.fresh)
    (hq : b.queue = a.queue) : b.Valid where
  nodup := hp.nodup_iff.mpr hv.nodup
  lt_fresh p h := hf ▸ hv.lt_fresh p (hp.mem_iff.mp h)
  unused p h := hq ▸ hv.unused p (hf ▸ h)
  key_inj p h q h' e := hv.key_inj p (hp.mem_iff.mp h) q (hp.mem_iff.mp h') (by rwa [hk] at e)

end

theorem Valid.tail {a : Leases κ μ} {p : Nat} {ps : List Nat} (hv : { a with available := p :: ps }.Valid) :
    { a with available := ps }.Valid where
  nodup := (List.nodup_cons.mp hv.nodup).2
  lt_fresh q h := hv.lt_fresh q (List.mem_cons_of_mem _ h)
  unused := hv.unused
  key_inj q h r h' := hv.key_inj q (List.mem_cons_of_mem _ h) r (List.mem_cons_of_mem _ h')

theorem total_nextNew {limit : Option Nat} (hl : limit ≠ some 0) (a : Leases κ μ) : ∀ ps : List Nat,
    { a with available := ps }.Valid →
      (nextNew limit a ps).1.total + ((nextNew limit a ps).2.map fun r => r.1.length).getD 0 =
        { a with available := ps }.total
  | [], _ => rfl
  | p :: ps, hv => by
    simp only [nextNew]
    cases ht : taken limit (a.queue p) with
    | nil =>
      rw [total_nextNew hl a ps hv.tail]
      simp [total, live, (taken_eq_nil hl).mp ht]
    | cons m ms =>
      have hperm : { a with available := ps, assigned := a.assigned ++ [p] }.live.Perm
          { a with available := p :: ps }.live := by
        simp only [live, ← List.append_assoc, List.cons_append]
        exact List.perm_append_comm
      have hv' := hv.perm hperm rfl rfl rfl
      have h := hv'.total_setQueue (p := p) (by simp [live]) (rest limit (a.queue p))
      rw [total_perm hperm rfl] at h
      have hlen : (a.queue p).length = (m :: ms).length + (rest limit (a.queue p)).length := by
        rw [← ht, ← List.length_append, taken_append_rest]
      simp only [Option.map_some, Option.getD_some] at h ⊢
      omega

theorem Valid.erase {a : Leases κ μ} (hv : a.Valid) (p : Nat) :
    { a with assigned := a.assigned.erase p }.Valid := by
  have hsub : ∀ q, q ∈ { a with assigned := a.assigned.erase p }.live → q ∈ a.live := fun q hq => by
    simp only [live, List.mem_append] at hq ⊢
    exact hq.imp_right List.mem_of_mem_erase
  exact ⟨hv.nodup.sublist (List.Sublist.append_left List.erase_sublist _), fun q hq => hv.lt_fresh q (hsub q hq),
    hv.unused, fun q hq r hr => hv.key_inj q (hsub q hq) r (hsub r hr)⟩

theorem Valid.total_next {a : Leases κ μ} (hv : a.Valid) {limit : Option Nat} (hl : limit ≠ some 0)
    (h : Option Nat) :
    (a.next limit h).1.total + ((a.next limit h).2.map fun r => r.1.length).getD 0 = a.total := by
  unfold next
  cases h with
  | none => exact total_nextNew hl a a.available hv
  | some p =>
    simp only
    split_ifs with hp
    · have hpl : p ∈ a.live := List.mem_append_right _ hp
      cases ht : taken limit (a.queue p) with
      | nil =>
        have hte := hv.total_erase hpl
        rw [hv.erase_available hp, (taken_eq_nil hl).mp ht] at hte
        rw [total_nextNew hl { a with assigned := a.assigned.erase p } a.available (hv.erase p)]
        simpa using hte
      | cons m ms =>
        have hq := hv.total_setQueue hpl (rest limit (a.queue p))
        have hlen : (a.queue p).length = (m :: ms).length + (rest limit (a.queue p)).length := by
          rw [← ht, ← List.length_append, taken_append_rest]
        simp only [Option.map_some, Option.getD_some]
        omega
    · exact total_nextNew hl a a.available hv

theorem total_release (a : Leases κ μ) (p : Nat) : (a.release p).total = a.total := by
  unfold release
  split_ifs with hp
  · refine total_perm ?_ rfl
    simp only [live, List.append_assoc, List.singleton_append]
    exact (List.perm_cons_erase hp).symm.append_left a.available
  · rfl

/-! ## What one call hands out -/

/-- `r` is what a reader passing `h` is handed, `a'` the queues afterwards. -/
structure Handed (a a' : Leases κ μ) (h : Option Nat) (r : Option (List μ × Nat)) : Prop where
  key : a'.key = a.key
  fresh : a'.fresh = a.fresh
  queue : ∀ q, (∀ ms, r ≠ some (ms, q)) → a'.queue q = a.queue q
  handed : ∀ ms p, r = some (ms, p) → ms ≠ [] ∧ p ∈ a.live ∧ a.queue p = ms ++ a'.queue p
  assigned : ∀ q, q ∈ a'.assigned ↔ (q ∈ a.assigned ∧ h ≠ some q) ∨ ∃ ms, r = some (ms, q)
  available : ∀ q ∈ a'.available, q ∈ a.available
  fromAssigned : ∀ ms p, r = some (ms, p) → p ∈ a.assigned → h = some p
  fromAvailable : ∀ ms p, r = some (ms, p) → p ∉ a'.available
  dropped : ∀ q ∈ a.live, q ∉ a'.live → a.queue q = []
  nothing : r = none → a'.available = []
  valid : a'.Valid

theorem Valid.setQueue {a : Leases κ μ} (hv : a.Valid) {p : Nat} (hp : p ∈ a.live) (q : List μ) :
    (a.setQueue p q).Valid where
  nodup := hv.nodup
  lt_fresh := hv.lt_fresh
  key_inj := hv.key_inj
  unused r hr := by
    have : r ≠ p := fun e => absurd (hv.lt_fresh p hp) (Nat.not_lt.mpr (e ▸ hr))
    simp only [Leases.setQueue, Function.update_of_ne this]
    exact hv.unused r hr

theorem nextNew_handed {limit : Option Nat} (hl : limit ≠ some 0) (a : Leases κ μ) : ∀ ps : List Nat,
    { a with available := ps }.Valid →
      Handed { a with available := ps } (nextNew limit a ps).1 none (nextNew limit a ps).2
  | [], hv => by
    refine ⟨rfl, rfl, fun _ _ => rfl, ?_, ?_, ?_, ?_, ?_, fun q hq hnq => absurd hq hnq, fun _ => rfl, hv⟩ <;>
      simp [nextNew]
  | p :: ps, hv => by
    have hpn : p ∉ ps ∧ p ∉ a.assigned := by
      have h : p ∉ ps ++ a.assigned := (List.nodup_cons.mp hv.nodup).1
      simpa using h
    simp only [nextNew]
    cases ht : taken limit (a.queue p) with
    | nil =>
      have ih := nextNew_handed hl a ps hv.tail
      refine ⟨ih.key, ih.fresh, ih.queue, ?_, ih.assigned, ?_, ih.fromAssigned, ih.fromAvailable, ?_,
        ih.nothing, ih.valid⟩
      · intro ms q hr
        obtain ⟨h₁, h₂, h₃⟩ := ih.handed ms q hr
        exact ⟨h₁, List.mem_cons_of_mem _ h₂, h₃⟩
      · intro q hq; exact List.mem_cons_of_mem _ (ih.available q hq)
      · intro q hq hnq
        rcases List.mem_cons.mp hq with rfl | hq
        · exact (taken_eq_nil hl).mp ht
        · exact ih.dropped q hq hnq
    | cons m ms =>
      have hperm : { a with available := ps, assigned := a.assigned ++ [p] }.live.Perm
          { a with available := p :: ps }.live := by
        simp only [live, ← List.append_assoc, List.cons_append]
        exact List.perm_append_comm
      refine ⟨rfl, rfl, ?_, ?_, ?_, ?_, ?_, ?_, ?_, by simp, ?_⟩
      · intro q hq
        have : q ≠ p := fun e => hq (m :: ms) (by rw [e])
        simp [setQueue, Function.update_of_ne this]
      · intro ns q hr
        obtain ⟨rfl, rfl⟩ : m :: ms = ns ∧ p = q := by simpa using hr
        refine ⟨by simp, by simp [live], ?_⟩
        simp only [setQueue, Function.update_self]
        rw [← ht, taken_append_rest]
      · intro q; simp [setQueue, eq_comm]
      · intro q hq; exact List.mem_cons_of_mem _ hq
      · intro ns q hr hq
        obtain ⟨-, rfl⟩ : m :: ms = ns ∧ p = q := by simpa using hr
        exact absurd hq hpn.2
      · intro ns q hr
        obtain ⟨-, rfl⟩ : m :: ms = ns ∧ p = q := by simpa using hr
        exact hpn.1
      · intro q hq hnq
        exact absurd (hperm.mem_iff.mpr hq) hnq
      · exact (hv.perm hperm rfl rfl rfl).setQueue (by simp [live]) _

theorem Valid.assigned_nodup {a : Leases κ μ} (hv : a.Valid) : a.assigned.Nodup :=
  (List.nodup_append.mp hv.nodup).2.1

theorem Valid.not_available {a : Leases κ μ} (hv : a.Valid) {p : Nat} (hp : p ∈ a.assigned) : p ∉ a.available :=
  fun h => (List.nodup_append.mp hv.nodup).2.2 p h p hp rfl

theorem Valid.next {a : Leases κ μ} (hv : a.Valid) {limit : Option Nat} (hl : limit ≠ some 0) (h : Option Nat) :
    Handed a (a.next limit h).1 h (a.next limit h).2 := by
  have hnew := nextNew_handed hl a a.available hv
  unfold Leases.next
  cases h with
  | none => exact hnew
  | some p =>
    simp only
    split_ifs with hp
    · cases ht : taken limit (a.queue p) with
      | nil =>
        have hx := nextNew_handed hl { a with assigned := a.assigned.erase p } a.available (hv.erase p)
        have hmem : ∀ q, q ∈ a.assigned.erase p ↔ q ∈ a.assigned ∧ p ≠ q := fun q => by
          rw [hv.assigned_nodup.mem_erase_iff, and_comm, ne_comm]
        refine ⟨hx.key, hx.fresh, hx.queue, ?_, ?_, hx.available, ?_, hx.fromAvailable, ?_, hx.nothing, hx.valid⟩
        · intro ms q hr
          obtain ⟨h₁, h₂, h₃⟩ := hx.handed ms q hr
          refine ⟨h₁, ?_, h₃⟩
          simp only [live, List.mem_append] at h₂ ⊢
          exact h₂.imp_right List.mem_of_mem_erase
        · intro q
          rw [hx.assigned q]
          simp [hmem]
        · intro ms q hr hq
          by_cases hpq : p = q
          · rw [hpq]
          · have := hx.fromAssigned ms q hr ((hmem q).mpr ⟨hq, hpq⟩)
            cases this
        · intro q hq hnq
          by_cases hpq : q = p
          · rw [hpq]; exact (taken_eq_nil hl).mp ht
          · refine hx.dropped q ?_ hnq
            simp only [live, List.mem_append] at hq ⊢
            exact hq.imp_right fun h => (List.mem_erase_of_ne hpq).mpr h
      | cons m ms =>
        have hpl : p ∈ a.live := List.mem_append_right _ hp
        refine ⟨rfl, rfl, ?_, ?_, ?_, fun q hq => hq, ?_, ?_, fun q hq hnq => absurd hq hnq, by simp,
          hv.setQueue hpl _⟩
        · intro q hq
          have : q ≠ p := fun e => hq (m :: ms) (by rw [e])
          simp [Leases.setQueue, Function.update_of_ne this]
        · intro ns q hr
          obtain ⟨rfl, rfl⟩ : m :: ms = ns ∧ p = q := by simpa using hr
          refine ⟨by simp, hpl, ?_⟩
          simp only [Leases.setQueue, Function.update_self]
          rw [← ht, taken_append_rest]
        · intro q
          by_cases hpq : p = q
          · subst hpq; simp [Leases.setQueue, hp]
          · simp [Leases.setQueue, hpq]
        · intro ns q hr _
          obtain ⟨-, rfl⟩ : m :: ms = ns ∧ p = q := by simpa using hr
          rfl
        · intro ns q hr
          obtain ⟨-, rfl⟩ : m :: ms = ns ∧ p = q := by simpa using hr
          exact hv.not_available hp
    · refine ⟨hnew.key, hnew.fresh, hnew.queue, hnew.handed, ?_, hnew.available, ?_,
        hnew.fromAvailable, hnew.dropped,
        hnew.nothing, hnew.valid⟩
      · intro q
        rw [hnew.assigned q]
        by_cases hpq : p = q
        · subst hpq; simp [hp]
        · simp [hpq]
      · intro ms q hr hq
        have := hnew.fromAssigned ms q hr hq
        cases this

theorem taken_length_le (n : Nat) (q : List μ) : (taken (some n) q).length ≤ n := by
  simp only [taken, Option.elim_some]
  exact List.length_take_le n q

theorem nextNew_length (n : Nat) (a : Leases κ μ) : ∀ (ps : List Nat) (r : List μ × Nat),
    (nextNew (some n) a ps).2 = some r → r.1.length ≤ n
  | [], r, h => by cases h
  | p :: ps, r, h => by
    simp only [nextNew] at h
    cases ht : taken (some n) (a.queue p) with
    | nil => rw [ht] at h; exact nextNew_length n a ps r h
    | cons m ms =>
      rw [ht] at h
      obtain rfl : (m :: ms, p) = r := by simpa using h
      exact ht ▸ taken_length_le n (a.queue p)

theorem next_length {n : Nat} {a : Leases κ μ} {h : Option Nat} {r : List μ × Nat}
    (hr : (a.next (some n) h).2 = some r) : r.1.length ≤ n := by
  unfold next at hr
  cases h with
  | none => exact nextNew_length n a _ r hr
  | some p =>
    simp only at hr
    split_ifs at hr with hp
    · cases ht : taken (some n) (a.queue p) with
      | nil => rw [ht] at hr; exact nextNew_length n _ _ r hr
      | cons m ms =>
        rw [ht] at hr
        obtain rfl : (m :: ms, p) = r := by simpa using hr
        exact ht ▸ taken_length_le n (a.queue p)
    · exact nextNew_length n a _ r hr

/-! ## The queue of a key -/

section
variable [DecidableEq κ]

def queueOf (a : Leases κ μ) (k : κ) : List μ := ((a.find k).map a.queue).getD []

theorem Valid.queueOf_key {a : Leases κ μ} (hv : a.Valid) {p : Nat} (hp : p ∈ a.live) :
    a.queueOf (a.key p) = a.queue p := by
  simp [queueOf, hv.find_eq_some.mpr ⟨hp, rfl⟩]

theorem queueOf_of_not_live {a : Leases κ μ} {k : κ} (h : ∀ p ∈ a.live, a.key p ≠ k) : a.queueOf k = [] := by
  have : a.find k = none := List.find?_eq_none.mpr fun p hp => by simpa using h p hp
  simp [queueOf, this]

/-- A queue is found under its key, and a key without a queue has an empty one. -/
theorem Valid.queueOf_eq {a : Leases κ μ} (hv : a.Valid) {k : κ} {q : List μ}
    (hq : ∀ p ∈ a.live, a.key p = k → a.queue p = q) (hn : (∀ p ∈ a.live, a.key p ≠ k) → q = []) :
    a.queueOf k = q := by
  by_cases h : ∃ p ∈ a.live, a.key p = k
  · obtain ⟨p, hp, rfl⟩ := h
    rw [hv.queueOf_key hp, hq p hp rfl]
  · have h' : ∀ p ∈ a.live, a.key p ≠ k := fun p hp e => h ⟨p, hp, e⟩
    rw [queueOf_of_not_live h', hn h']

theorem ensure_assigned (a : Leases κ μ) (k : κ) : (a.ensure k).1.assigned = a.assigned := by
  unfold ensure
  cases a.find k <;> rfl

theorem ensure_queue (a : Leases κ μ) (k : κ) : (a.ensure k).1.queue = a.queue := by
  unfold ensure
  cases a.find k <;> rfl

theorem Valid.ensure_live {a : Leases κ μ} (hv : a.Valid) (k : κ) :
    (∀ p ∈ a.live, p ∈ (a.ensure k).1.live ∧ (a.ensure k).1.key p = a.key p) ∧
      ∀ p ∈ (a.ensure k).1.live, p ∈ a.live ∨ p = (a.ensure k).2 := by
  unfold Leases.ensure
  cases hf : a.find k with
  | some q => exact ⟨fun p hp => ⟨hp, rfl⟩, fun p hp => .inl hp⟩
  | none =>
    refine ⟨fun p hp => ⟨?_, Function.update_of_ne (Nat.ne_of_lt (hv.lt_fresh p hp)) _ _⟩, fun p hp => ?_⟩
    · simp [live] at hp ⊢; tauto
    · simp [live] at hp ⊢; tauto

theorem Valid.queueOf_ensure {a : Leases κ μ} (hv : a.Valid) (k k' : κ) :
    (a.ensure k).1.queueOf k' = a.queueOf k' := by
  obtain ⟨hv', hm, hk, _⟩ := hv.ensure k
  obtain ⟨hold, hnew⟩ := hv.ensure_live k
  refine hv'.queueOf_eq ?_ ?_
  · rintro p hp rfl
    rw [ensure_queue]
    rcases hnew p hp with h | rfl
    · rw [(hold p h).2, hv.queueOf_key h]
    · by_cases hl : (a.ensure k).2 ∈ a.live
      · rw [(hold _ hl).2, hv.queueOf_key hl]
      · have hno : ∀ q ∈ a.live, a.key q ≠ (a.ensure k).1.key (a.ensure k).2 := fun q hq e => by
          have := hv'.key_inj q (hold q hq).1 _ hm ((hold q hq).2.trans e)
          exact hl (this ▸ hq)
        rw [queueOf_of_not_live hno]
        unfold Leases.ensure at hl ⊢
        cases hf : a.find k with
        | some q => rw [hf] at hl; exact absurd (hv.find_eq_some.mp hf).1 hl
        | none => exact hv.unused _ (Nat.le_refl _)
  · intro h
    exact queueOf_of_not_live fun p hp e => h p (hold p hp).1 ((hold p hp).2.trans e)

theorem Valid.push {a : Leases κ μ} (hv : a.Valid) (k : κ) (m : μ) (front : Bool) : (a.push k m front).Valid := by
  obtain ⟨hv', hm, _, _⟩ := hv.ensure k
  exact hv'.setQueue hm _

theorem Valid.queueOf_setQueue {a : Leases κ μ} (hv : a.Valid) {p : Nat} (hp : p ∈ a.live) (q : List μ) (k : κ) :
    (a.setQueue p q).queueOf k = if k = a.key p then q else a.queueOf k := by
  refine (hv.setQueue hp q).queueOf_eq ?_ ?_
  · rintro r hr rfl
    by_cases hrp : r = p
    · subst hrp; simp [Leases.setQueue]
    · have hne : a.key r ≠ a.key p := fun e => hrp (hv.key_inj r hr p hp e)
      simp only [Leases.setQueue, Function.update_of_ne hrp, hne, if_false]
      exact (hv.queueOf_key hr).symm
  · intro h
    have hk : k ≠ a.key p := fun e => h p hp e.symm
    rw [if_neg hk]
    exact queueOf_of_not_live h

theorem Valid.queueOf_push {a : Leases κ μ} (hv : a.Valid) (k : κ) (m : μ) (front : Bool) (k' : κ) :
    (a.push k m front).queueOf k' =
      if k' = k then (if front then m :: a.queueOf k else a.queueOf k ++ [m]) else a.queueOf k' := by
  obtain ⟨hv', hm, hk, _⟩ := hv.ensure k
  have hq : (a.ensure k).1.queue (a.ensure k).2 = a.queueOf k := by
    rw [← hv'.queueOf_key hm, hk, hv.queueOf_ensure]
  unfold Leases.push
  simp only
  rw [hv'.queueOf_setQueue hm, hk, hq, hv.queueOf_ensure]

theorem Valid.queueOf_pushAll (key : μ → κ) (k : κ) (ms : List μ) : ∀ {a : Leases κ μ}, a.Valid →
    (a.pushAll key ms).queueOf k = a.queueOf k ++ ms.filter fun m => key m = k := by
  induction ms with
  | nil => intro a _; simp [Leases.pushAll]
  | cons m ms ih =>
    intro a hv
    show ((a.push (key m) m false).pushAll key ms).queueOf k = _
    rw [ih (hv.push _ m false), hv.queueOf_push]
    by_cases hk : k = key m
    · simp [hk]
    · simp [hk, Ne.symm hk]

theorem Valid.putBack {key : μ → κ} {a : Leases κ μ} (hv : a.Valid) : ∀ ms : List μ, (a.putBack key ms).Valid
  | [] => hv
  | m :: ms => (hv.putBack ms).push _ m true

theorem Valid.queueOf_putBack (key : μ → κ) (k : κ) {a : Leases κ μ} (hv : a.Valid) : ∀ ms : List μ,
    (a.putBack key ms).queueOf k = (ms.filter fun m => key m = k) ++ a.queueOf k
  | [] => by simp [Leases.putBack]
  | m :: ms => by
    show ((a.putBack key ms).push (key m) m true).queueOf k = _
    rw [(hv.putBack ms).queueOf_push]
    by_cases hk : k = key m
    · subst hk; simp [hv.queueOf_putBack]
    · simp [hk, Ne.symm hk, hv.queueOf_putBack]

structure Grown (a a' : Leases κ μ) : Prop where
  assigned : a'.assigned = a.assigned
  live : ∀ p ∈ a.live, p ∈ a'.live ∧ a'.key p = a.key p
  dead : ∀ p, p < a.fresh → p ∉ a.live → p < a'.fresh ∧ p ∉ a'.live

omit [DecidableEq κ] in
theorem Grown.trans {a b c : Leases κ μ} (h : Grown a b) (h' : Grown b c) : Grown a c where
  assigned := h'.assigned.trans h.assigned
  live p hp := ⟨(h'.live p (h.live p hp).1).1, (h'.live p (h.live p hp).1).2.trans (h.live p hp).2⟩
  dead p hp hd := h'.dead p (h.dead p hp hd).1 (h.dead p hp hd).2

omit [DecidableEq κ] in
theorem Grown.refl (a : Leases κ μ) : Grown a a := ⟨rfl, fun _ hp => ⟨hp, rfl⟩, fun _ hp hd => ⟨hp, hd⟩⟩

theorem Valid.push_grown {a : Leases κ μ} (hv : a.Valid) (k : κ) (m : μ) (front : Bool) :
    Grown a (a.push k m front) where
  assigned := a.ensure_assigned k
  live := (hv.ensure_live k).1
  dead p hp hd := by
    unfold Leases.push Leases.ensure
    cases hf : a.find k with
    | some q => exact ⟨hp, hd⟩
    | none =>
      refine ⟨Nat.lt_succ_of_lt hp, fun h => ?_⟩
      simp only [Leases.setQueue, live, List.mem_append, List.mem_singleton] at h hd
      rcases h with (h | h) | h
      · exact hd (.inl h)
      · exact Nat.ne_of_lt hp h
      · exact hd (.inr h)

theorem Valid.pushAll_grown {key : μ → κ} (ms : List μ) : ∀ {a : Leases κ μ}, a.Valid →
    Grown a (a.pushAll key ms) := by
  induction ms with
  | nil => intro a _; exact .refl a
  | cons m ms ih => intro a hv; exact (hv.push_grown _ m false).trans (ih (hv.push _ m false))

theorem Valid.putBack_grown {key : μ → κ} {a : Leases κ μ} (hv : a.Valid) : ∀ ms :
    List μ, Grown a (a.putBack key ms)
  | [] => .refl a
  | m :: ms => (hv.putBack_grown ms).trans ((hv.putBack ms).push_grown _ m true)

omit [DecidableEq κ] in
theorem release_key (a : Leases κ μ) (p : Nat) : (a.release p).key = a.key ∧ (a.release p).fresh = a.fresh := by
  unfold release
  split_ifs <;> exact ⟨rfl, rfl⟩

omit [DecidableEq κ] in
theorem Valid.mem_release {a : Leases κ μ} (hv : a.Valid) (p q : Nat) :
    q ∈ (a.release p).assigned ↔ q ∈ a.assigned ∧ q ≠ p := by
  unfold Leases.release
  split_ifs with hp
  · rw [hv.assigned_nodup.mem_erase_iff, and_comm]
  · exact ⟨fun h => ⟨h, fun e => hp (e ▸ h)⟩, And.left⟩

theorem Valid.release {a : Leases κ μ} (hv : a.Valid) (p : Nat) : (a.release p).Valid ∧
    (∀ q, q ∈ (a.release p).live ↔ q ∈ a.live) ∧ ∀ k, (a.release p).queueOf k = a.queueOf k := by
  unfold Leases.release
  split_ifs with hp
  · have hperm : { a with available := a.available ++ [p], assigned := a.assigned.erase p }.live.Perm a.live := by
      simp only [live, List.append_assoc, List.singleton_append]
      exact (List.perm_cons_erase hp).symm.append_left a.available
    have hv' := hv.perm hperm rfl rfl rfl
    refine ⟨hv', fun q => hperm.mem_iff, fun k => hv'.queueOf_eq ?_ ?_⟩
    · rintro q hq rfl; exact (hv.queueOf_key (hperm.mem_iff.mp hq)).symm
    · intro h; exact queueOf_of_not_live fun q hq => h q (hperm.mem_iff.mpr hq)
  · exact ⟨hv, fun q => Iff.rfl, fun k => rfl⟩

omit [DecidableEq κ] in
theorem Handed.live {a a' : Leases κ μ} {h : Option Nat} {r : Option (List μ × Nat)}
    (hh : Handed a a' h r) {q : Nat}
    (hq : q ∈ a'.live) : q ∈ a.live := by
  rcases List.mem_append.mp hq with hq | hq
  · exact List.mem_append_left _ (hh.available q hq)
  · rcases (hh.assigned q).mp hq with ⟨hq, _⟩ | ⟨ms, hr⟩
    · exact List.mem_append_right _ hq
    · exact (hh.handed ms q hr).2.1

/-- What is handed out comes off the front of its queue, and nothing else leaves a queue. -/
theorem Handed.queueOf {a a' : Leases κ μ} (hv : a.Valid) {h : Option Nat} {r : Option (List μ × Nat)}
    (hh : Handed a a' h r) (k : κ) :
    a.queueOf k = (r.elim [] fun x => if a.key x.2 = k then x.1 else []) ++ a'.queueOf k := by
  cases r with
  | none =>
    have hq : ∀ q, a'.queue q = a.queue q := fun q => hh.queue q (by simp)
    refine hv.queueOf_eq ?_ ?_
    · rintro p hp rfl
      by_cases hl : p ∈ a'.live
      · rw [← hh.key]
        simp [hh.valid.queueOf_key hl, hq]
      · rw [hh.dropped p hp hl, queueOf_of_not_live]
        · simp
        · intro q hq' e
          have := hv.key_inj q (hh.live hq') p hp (by rw [← e, hh.key])
          exact hl (this ▸ hq')
    · intro hno
      have := queueOf_of_not_live (a := a') (k := k) fun q hq' => by rw [hh.key]; exact hno q (hh.live hq')
      simp [this]
  | some x =>
    obtain ⟨ms, p⟩ := x
    obtain ⟨_, hpl, happ⟩ := hh.handed ms p rfl
    have hpa : p ∈ a'.live := List.mem_append_right _ ((hh.assigned p).mpr (.inr ⟨ms, rfl⟩))
    by_cases hk : a.key p = k
    · subst hk
      rw [hv.queueOf_key hpl, happ]
      conv_rhs => rw [← hh.key, hh.valid.queueOf_key hpa]
      simp
    · have hq : ∀ q, q ≠ p → a'.queue q = a.queue q := fun q hqp => hh.queue q (by simp [Ne.symm hqp])
      simp only [Option.elim_some, hk, if_false, List.nil_append]
      refine hv.queueOf_eq ?_ ?_
      · rintro q hq' rfl
        have hqp : q ≠ p := fun e => hk (by rw [e])
        by_cases hl : q ∈ a'.live
        · rw [← hh.key, hh.valid.queueOf_key hl, hq q hqp]
        · rw [hh.dropped q hq' hl, queueOf_of_not_live]
          intro r hr e
          have := hv.key_inj r (hh.live hr) q hq' (by rw [← e, hh.key])
          exact hl (this ▸ hr)
      · intro hno
        exact queueOf_of_not_live fun q hq' => by rw [hh.key]; exact hno q (hh.live hq')

/-- The queues of the keys in `P` are discarded, the others are left alone. -/
structure Discarded (a a' : Leases κ μ) (P : κ → Prop) : Prop where
  valid : a'.Valid
  live : ∀ p, p ∈ a'.live ↔ p ∈ a.live ∧ ¬ P (a.key p)
  queue : a'.queue = a.queue
  key : a'.key = a.key
  fresh : a'.fresh = a.fresh

theorem Discarded.queueOf {a a' : Leases κ μ} {P : κ → Prop} (hd : Discarded a a' P) (hv : a.Valid) (k : κ) :
    (P k → a'.queueOf k = []) ∧ (¬ P k → a'.queueOf k = a.queueOf k) := by
  constructor
  · intro hP
    refine queueOf_of_not_live fun p hp e => ((hd.live p).mp hp).2 ?_
    rw [← hd.key, e]
    exact hP
  · intro hP
    refine hd.valid.queueOf_eq ?_ ?_
    · rintro p hp rfl
      rw [hd.queue, hd.key, hv.queueOf_key ((hd.live p).mp hp).1]
    · intro hno
      refine queueOf_of_not_live fun p hp e => hno p ((hd.live p).mpr ⟨hp, ?_⟩) (by rw [hd.key, e])
      rw [e]
      exact hP

omit [DecidableEq κ] in
theorem Valid.clear {a : Leases κ μ} (hv : a.Valid) : Discarded a a.clear fun _ => True :=
  ⟨⟨List.nodup_nil, fun _ h => (by cases h), hv.unused, fun _ h => (by cases h)⟩,
    fun p => by simp [Leases.clear, Leases.live],
    rfl, rfl, rfl⟩

omit [DecidableEq κ] in
theorem Valid.discard_nothing {a : Leases κ μ} (hv : a.Valid) : Discarded a a fun _ => False :=
  ⟨hv, fun p => by simp, rfl, rfl, rfl⟩

theorem Valid.discard {a : Leases κ μ} (hv : a.Valid) (k : κ) : Discarded a (a.discard k) (· = k) := by
  unfold Leases.discard
  cases hf : a.find k with
  | none =>
    refine ⟨hv, fun p => ?_, rfl, rfl, rfl⟩
    have := List.find?_eq_none.mp hf
    constructor
    · intro hp; exact ⟨hp, by simpa using this p hp⟩
    · exact And.left
  | some p =>
    obtain ⟨hp, rfl⟩ := hv.find_eq_some.mp hf
    have hsub : List.Sublist (a.available.erase p ++ a.assigned.erase p) a.live :=
      List.erase_sublist.append List.erase_sublist
    have hav := (List.nodup_append.mp hv.nodup).1
    refine ⟨⟨hv.nodup.sublist hsub, fun q hq => hv.lt_fresh q (hsub.subset hq), hv.unused, fun q hq r hr =>
      hv.key_inj q (hsub.subset hq) r (hsub.subset hr)⟩, fun q => ?_, rfl, rfl, rfl⟩
    show q ∈ a.available.erase p ++ a.assigned.erase p ↔ _
    rw [List.mem_append, hav.mem_erase_iff, hv.assigned_nodup.mem_erase_iff]
    constructor
    · intro h
      have hq : q ∈ a.live := List.mem_append.mpr (h.imp And.right And.right)
      exact ⟨hq, fun e => (h.elim And.left And.left) (hv.key_inj q hq p hp e)⟩
    · rintro ⟨hq, hne⟩
      have hqp : q ≠ p := fun e => hne (by rw [e])
      exact (List.mem_append.mp hq).imp (fun h => ⟨hqp, h⟩) (fun h => ⟨hqp, h⟩)

theorem Valid.discardAll {τ : Type} (f : τ → κ) (ts : List τ) : ∀ {a : Leases κ μ}, a.Valid →
    Discarded a (ts.foldl (fun a t => a.discard (f t)) a) fun k => ∃ t ∈ ts, f t = k := by
  induction ts with
  | nil => intro a hv; simpa using hv.discard_nothing
  | cons t ts ih =>
    intro a hv
    have h := hv.discard (f t)
    have h' := ih h.valid
    refine ⟨h'.valid, fun p => ?_, h'.queue.trans h.queue, h'.key.trans h.key, h'.fresh.trans h.fresh⟩
    rw [List.foldl_cons, h'.live, h.live, h.key]
    constructor
    · rintro ⟨⟨hp, hne⟩, hno⟩
      refine ⟨hp, ?_⟩
      rintro ⟨u, hu, e⟩
      rcases List.mem_cons.mp hu with rfl | hu
      · exact hne e.symm
      · exact hno ⟨u, hu, e⟩
    · rintro ⟨hp, hno⟩
      exact ⟨⟨hp, fun e => hno ⟨t, List.mem_cons_self, e.symm⟩⟩, fun ⟨u, hu, e⟩ =>
        hno ⟨u, List.mem_cons_of_mem _ hu, e⟩⟩

end

end Leases

end ConfluentKafka
