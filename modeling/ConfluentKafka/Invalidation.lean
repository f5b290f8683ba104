import Mathlib.Data.Set.Insert

/-!
# Invalidation of cached answers

Answers are taken at a time and cached later; deletions hit answers. A deletion first clears what
it can of the cache and is then carried out by the source. An answer is stale for a deletion that
hits it and came after it. Where a deletion finds no answer that it hits outside of what it has
cleared, and nothing cleared is stored again meanwhile, no stale answer is ever cached.
-/

namespace ConfluentKafka

structure Invalidation (ι δ : Type) where
  answeredAt : ι → Nat
  deletedAt : δ → Nat
  hits : δ → ι → Prop

namespace Invalidation

variable {ι δ : Type}

/-- The deletions so far, what is cached, the answers not stored yet and what the deletions under
way have cleared. -/
structure View (ι δ : Type) where
  deleted : Set δ
  cached : Set ι
  unstored : Set ι
  cleared : Set ι
  clock : Nat

def Stale (V : Invalidation ι δ) (d : δ) (x : ι) : Prop := V.hits d x ∧ V.answeredAt x < V.deletedAt d

/-- What `v'` adds to `v`: nothing, but for the sets given. -/
structure Adds (v v' : View ι δ) (deleted : Set δ) (cached unstored cleared : Set ι) : Prop where
  deleted : v'.deleted ⊆ v.deleted ∪ deleted
  cached : v'.cached ⊆ v.cached ∪ cached
  unstored : v'.unstored ⊆ v.unstored ∪ unstored
  cleared : v'.cleared ⊆ v.cleared ∪ cleared
  clock : v.clock ≤ v'.clock

theorem Adds.mono {v v' : View ι δ} {deleted deleted' : Set δ}
    {cached cached' unstored unstored' cleared cleared' : Set ι}
    (h : Adds v v' deleted cached unstored cleared) (hd : deleted ⊆ deleted') (hc : cached ⊆ cached')
    (hu : unstored ⊆ unstored') (hl : cleared ⊆ cleared') : Adds v v' deleted' cached' unstored' cleared' where
  deleted := h.deleted.trans (Set.union_subset_union_right _ hd)
  cached := h.cached.trans (Set.union_subset_union_right _ hc)
  unstored := h.unstored.trans (Set.union_subset_union_right _ hu)
  cleared := h.cleared.trans (Set.union_subset_union_right _ hl)
  clock := h.clock

inductive Step (V : Invalidation ι δ) (v v' : View ι δ) : Prop where
  | skip (h : Adds v v' ∅ ∅ ∅ ∅)
  | answer (x : ι) (h : Adds v v' ∅ ∅ {x} ∅) (hx : V.answeredAt x = v.clock)
  | store (x : ι) (h : Adds v v' ∅ {x} ∅ ∅) (hx : x ∈ v.unstored) (hc : x ∉ v.cleared)
  | clear (s : Set ι) (h : Adds v v' ∅ ∅ ∅ s) (hs : ∀ x ∈ v'.cached, x ∉ s)
  | delete (d : δ) (h : Adds v v' {d} ∅ ∅ ∅) (hd : V.deletedAt d = v.clock) (hclock : v.clock < v'.clock)
      (hu : ∀ x ∈ v.unstored, ¬V.hits d x) (hc : ∀ x ∈ v.cached, V.hits d x → x ∈ v.cleared)

structure Good (V : Invalidation ι δ) (v : View ι δ) : Prop where
  past : ∀ d ∈ v.deleted, V.deletedAt d < v.clock
  cached : ∀ d ∈ v.deleted, ∀ x ∈ v.cached, ¬V.Stale d x
  unstored : ∀ d ∈ v.deleted, ∀ x ∈ v.unstored, ¬V.Stale d x
  cleared : ∀ x ∈ v.cached, x ∉ v.cleared

variable {V : Invalidation ι δ} {v v' : View ι δ}

theorem Step.good (h : Step V v v') (hg : Good V v) : Good V v' := by
  cases h with
  | skip h =>
    have hd := h.deleted
    have hc := h.cached
    have hu := h.unstored
    have hl := h.cleared
    simp only [Set.union_empty] at hd hc hu hl
    exact ⟨fun d hd' => (hg.past d (hd hd')).trans_le h.clock, fun d hd' x hx => hg.cached d (hd hd') x (hc hx),
      fun d hd' x hx => hg.unstored d (hd hd') x (hu hx), fun x hx hx' => hg.cleared x (hc hx) (hl hx')⟩
  | answer x h hx =>
    have hd := h.deleted
    have hc := h.cached
    have hl := h.cleared
    simp only [Set.union_empty] at hd hc hl
    refine ⟨fun d hd' => (hg.past d (hd hd')).trans_le h.clock, fun d hd' y hy =>
      hg.cached d (hd hd') y (hc hy), ?_,
      fun y hy hy' => hg.cleared y (hc hy) (hl hy')⟩
    intro d hd' y hy
    obtain hy | rfl := h.unstored hy
    · exact hg.unstored d (hd hd') y hy
    · -- a new answer is later than every deletion
      rintro ⟨-, hlt⟩
      have := hg.past d (hd hd')
      omega
  | store x h hx hxc =>
    have hd := h.deleted
    have hu := h.unstored
    have hl := h.cleared
    simp only [Set.union_empty] at hd hu hl
    refine ⟨fun d hd' => (hg.past d (hd hd')).trans_le h.clock, ?_, fun d hd' y hy => hg.unstored d
      (hd hd') y (hu hy),
      ?_⟩
    · intro d hd' y hy
      obtain hy | rfl := h.cached hy
      · exact hg.cached d (hd hd') y hy
      · exact hg.unstored d (hd hd') y hx
    · intro y hy hy'
      obtain hy | rfl := h.cached hy
      · exact hg.cleared y hy (hl hy')
      · exact hxc (hl hy')
  | clear s h hs =>
    have hd := h.deleted
    have hc := h.cached
    have hu := h.unstored
    simp only [Set.union_empty] at hd hc hu
    refine ⟨fun d hd' => (hg.past d (hd hd')).trans_le h.clock, fun d hd' y hy => hg.cached d (hd hd') y (hc hy),
      fun d hd' y hy => hg.unstored d (hd hd') y (hu hy), ?_⟩
    intro y hy hy'
    obtain hy' | hy' := h.cleared hy'
    · exact hg.cleared y (hc hy) hy'
    · exact hs y hy hy'
  | delete d h hd hclock hu hc =>
    have hc' := h.cached
    have hu' := h.unstored
    have hl := h.cleared
    simp only [Set.union_empty] at hc' hu' hl
    refine ⟨?_, ?_, ?_, fun y hy hy' => hg.cleared y (hc' hy) (hl hy')⟩
    · intro d' hd'
      obtain hd' | rfl := h.deleted hd'
      · exact (hg.past d' hd').trans hclock
      · omega
    · intro d' hd' y hy
      obtain hd' | rfl := h.deleted hd'
      · exact hg.cached d' hd' y (hc' hy)
      · exact fun hst => hg.cleared y (hc' hy) (hc y (hc' hy) hst.1)
    · intro d' hd' y hy
      obtain hd' | rfl := h.deleted hd'
      · exact hg.unstored d' hd' y (hu' hy)
      · exact fun hst => hu y (hu' hy) hst.1

end Invalidation

end ConfluentKafka
