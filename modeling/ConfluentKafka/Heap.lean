import Mathlib.Data.List.Perm.Basic
import Mathlib.Data.List.Nodup

/-!
# Objects that are allocated and freed

An address that has been freed is not used again, so that a second `free` of it
and every access through it fail. `Owns` says that a list of addresses holds
every live object exactly once.
-/

namespace ConfluentKafka

structure Heap (α : Type) where
  cells : List (Option α)
  deriving DecidableEq, Repr

namespace Heap

variable {α : Type}

def empty : Heap α := ⟨[]⟩

def get? (h : Heap α) (p : Nat) : Option α := (h.cells[p]?).join

def alloc (h : Heap α) (a : α) : Heap α × Nat := (⟨h.cells ++ [some a]⟩, h.cells.length)

def allocAll (h : Heap α) : List α → Heap α × List Nat
  | [] => (h, [])
  | a :: as =>
    let (h, p) := h.alloc a
    let (h, ps) := h.allocAll as
    (h, p :: ps)

def free (h : Heap α) (p : Nat) : Option (Heap α) := (h.get? p).map fun _ => ⟨h.cells.set p none⟩

def freeAll (h : Heap α) (ps : List Nat) : Option (Heap α) := ps.foldlM free h

def read (h : Heap α) (ps : List Nat) : Option (List α) := ps.mapM h.get?

theorem get?_alloc (h : Heap α) (a : α) (p : Nat) :
    (h.alloc a).1.get? p = if p = h.cells.length then some a else h.get? p := by
  unfold get? alloc
  rcases Nat.lt_trichotomy p h.cells.length with hp | rfl | hp
  · rw [List.getElem?_append_left hp, if_neg (Nat.ne_of_lt hp)]
  · simp
  · rw [List.getElem?_eq_none (by simp; omega), if_neg (Nat.ne_of_gt hp), List.getElem?_eq_none (Nat.le_of_lt hp)]

theorem get?_lt {h : Heap α} {p : Nat} {a : α} (hp : h.get? p = some a) : p < h.cells.length := by
  by_contra hn
  unfold get? at hp
  rw [List.getElem?_eq_none (Nat.le_of_not_lt hn)] at hp
  cases hp

theorem free_eq {h h' : Heap α} {p : Nat} (hf : h.free p = some h') (q : Nat) :
    h'.get? q = if q = p then none else h.get? q := by
  obtain ⟨a, ha, rfl⟩ := Option.map_eq_some_iff.mp hf
  unfold get?
  by_cases hq : q = p
  · subst hq
    rw [if_pos rfl, List.getElem?_set_self (get?_lt ha)]
    rfl
  · rw [if_neg hq, List.getElem?_set_ne (Ne.symm hq)]

/-- The addresses are those of the live objects, each once. -/
structure Owns (h : Heap α) (ps : List Nat) : Prop where
  nodup : ps.Nodup
  live : ∀ p, (h.get? p).isSome = true ↔ p ∈ ps

theorem owns_empty : (empty : Heap α).Owns [] :=
  ⟨List.nodup_nil, fun p => by simp [empty, get?]⟩

namespace Owns

variable {h h' : Heap α} {ps qs : List Nat}

theorem perm (ho : h.Owns ps) (hp : ps.Perm qs) : h.Owns qs :=
  ⟨hp.nodup_iff.mp ho.nodup, fun p => (ho.live p).trans hp.mem_iff⟩

theorem get (ho : h.Owns ps) {p : Nat} (hp : p ∈ ps) : ∃ a, h.get? p = some a :=
  Option.isSome_iff_exists.mp ((ho.live p).mpr hp)

theorem alloc (ho : h.Owns ps) (a : α) : (h.alloc a).1.Owns ((h.alloc a).2 :: ps) := by
  have hnew : h.cells.length ∉ ps := fun hm => by
    obtain ⟨b, hb⟩ := ho.get hm
    exact Nat.lt_irrefl _ (get?_lt hb)
  refine ⟨List.nodup_cons.mpr ⟨hnew, ho.nodup⟩, fun p => ?_⟩
  rw [get?_alloc, List.mem_cons]
  show _ ↔ p = h.cells.length ∨ p ∈ ps
  split_ifs with hp
  · simp [hp]
  · rw [ho.live]
    exact ⟨.inr, fun hm => hm.resolve_left hp⟩

/-- The objects that were there stay, and the new ones are at the addresses returned. -/
theorem allocAll (as : List α) : ∀ {h : Heap α} {ps : List Nat}, h.Owns ps →
    (h.allocAll as).1.Owns ((h.allocAll as).2 ++ ps) ∧ (∀ p ∈ ps, (h.allocAll as).1.get? p = h.get? p) ∧
      (h.allocAll as).1.read (h.allocAll as).2 = some as := by
  induction as with
  | nil => exact fun ho => ⟨ho, fun _ _ => rfl, rfl⟩
  | cons a as ih =>
    intro h ps ho
    obtain ⟨hown, hkept, hread⟩ := ih (ho.alloc a)
    have hp : h.cells.length ∉ ps := (List.nodup_cons.mp (ho.alloc a).nodup).1
    have hget : ((h.alloc a).1.allocAll as).1.get? h.cells.length = some a := by
      rw [hkept h.cells.length List.mem_cons_self, get?_alloc, if_pos rfl]
    refine ⟨hown.perm List.perm_middle, fun p hm => ?_, ?_⟩
    · show ((h.alloc a).1.allocAll as).1.get? p = _
      rw [hkept p (List.mem_cons_of_mem _ hm), get?_alloc, if_neg (ne_of_mem_of_not_mem hm hp)]
    · show (h.cells.length :: ((h.alloc a).1.allocAll as).2).mapM ((h.alloc a).1.allocAll as).1.get? = _
      unfold read at hread
      rw [List.mapM_cons, hget, hread]
      rfl

theorem freeAll (qs : List Nat) : ∀ {h : Heap α} {ps : List Nat}, h.Owns (qs ++ ps) →
    ∃ h', h.freeAll qs = some h' ∧ h'.Owns ps ∧ ∀ p ∈ ps, h'.get? p = h.get? p := by
  induction qs with
  | nil => exact fun {h} _ ho => ⟨h, rfl, ho, fun _ _ => rfl⟩
  | cons q qs ih =>
    intro h ps ho
    obtain ⟨a, ha⟩ := ho.get (List.mem_append_left _ List.mem_cons_self)
    obtain ⟨h₁, h₁f⟩ : ∃ h₁, h.free q = some h₁ := ⟨_, by unfold free; rw [ha]; rfl⟩
    obtain ⟨hq, hnodup⟩ := List.nodup_cons.mp ho.nodup
    have ho₁ : h₁.Owns (qs ++ ps) := by
      refine ⟨hnodup, fun p => ?_⟩
      rw [free_eq h₁f]
      split_ifs with hp
      · simpa [hp] using hq
      · rw [ho.live]
        exact ⟨fun hm => (List.mem_cons.mp hm).resolve_left hp, List.mem_cons_of_mem _⟩
    obtain ⟨h', hf, hown, hkept⟩ := ih ho₁
    refine ⟨h', ?_, hown, fun p hm => ?_⟩
    · show (q :: qs).foldlM Heap.free h = _
      rw [List.foldlM_cons, h₁f]
      exact hf
    · have hne : p ≠ q := ne_of_mem_of_not_mem (List.mem_append_right qs hm) hq
      rw [hkept p hm, free_eq h₁f, if_neg hne]

end Owns

theorem read_congr {h h' : Heap α} {ps : List Nat} (hk : ∀ p ∈ ps, h'.get? p = h.get? p) :
    h'.read ps = h.read ps := by
  unfold read
  induction ps with
  | nil => rfl
  | cons p ps ih =>
    rw [List.mapM_cons, List.mapM_cons, hk p List.mem_cons_self, ih fun q hq => hk q (List.mem_cons_of_mem _ hq)]

theorem length_read {h : Heap α} : ∀ {ps : List Nat} {as : List α}, h.read ps = some as → as.length = ps.length
  | [], as, hr => by
    obtain rfl : [] = as := Option.some.inj hr
    rfl
  | p :: ps, as, hr => by
    unfold read at hr
    rw [List.mapM_cons] at hr
    obtain ⟨a, _, hr⟩ := Option.bind_eq_some_iff.mp hr
    obtain ⟨as, has, hr⟩ := Option.bind_eq_some_iff.mp hr
    obtain rfl := Option.some.inj hr
    rw [List.length_cons, List.length_cons, length_read has]

theorem read_append {h : Heap α} {ps qs : List Nat} {as bs : List α} (hp : h.read ps = some as)
    (hq : h.read qs = some bs) :
    h.read (ps ++ qs) = some (as ++ bs) := by
  unfold read at *
  rw [List.mapM_append, hp, hq]
  rfl

end Heap

end ConfluentKafka
