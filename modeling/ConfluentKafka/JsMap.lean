import Mathlib.Data.List.Nodup
import Mathlib.Data.List.Perm.Basic

/-!
# Insertion-ordered maps

The `Map` of the language: entries in insertion order, one entry a key.
Setting a present key keeps its place, setting an absent one appends it.
-/

namespace ConfluentKafka

structure JsMap (κ α : Type) where
  entries : List (κ × α)
  nodup : (entries.map Prod.fst).Nodup

namespace JsMap

variable {κ α : Type} [DecidableEq κ]

def empty : JsMap κ α := ⟨[], List.nodup_nil⟩

def get? (m : JsMap κ α) (k : κ) : Option α := (m.entries.find? fun e => e.1 = k).map Prod.snd

def has (m : JsMap κ α) (k : κ) : Bool := (m.get? k).isSome

def values (m : JsMap κ α) : List α := m.entries.map Prod.snd

def delete (m : JsMap κ α) (k : κ) : JsMap κ α where
  entries := m.entries.filter fun e => e.1 ≠ k
  nodup := m.nodup.sublist (List.filter_sublist.map Prod.fst)

theorem get?_eq_some {m : JsMap κ α} {k : κ} {v : α} : m.get? k = some v ↔ (k, v) ∈ m.entries := by
  obtain ⟨es, hnd⟩ := m
  simp only [get?]
  induction es with
  | nil => simp
  | cons e es ih =>
    rw [List.map_cons, List.nodup_cons] at hnd
    obtain ⟨k', v'⟩ := e
    by_cases hk : k' = k
    · subst hk
      have : ∀ w, (k', w) ∉ es := fun w hw => hnd.1 (List.mem_map.mpr ⟨_, hw, rfl⟩)
      simp [this, eq_comm]
    · have : (k', v') ≠ (k, v) := fun h => hk (Prod.mk.inj h).1
      simp [hk, ih hnd.2, Ne.symm hk]

theorem get?_eq_none {m : JsMap κ α} {k : κ} : m.get? k = none ↔ ∀ v, (k, v) ∉ m.entries := by
  rw [Option.eq_none_iff_forall_ne_some]
  exact forall_congr' fun v => not_congr get?_eq_some

theorem not_mem_keys {m : JsMap κ α} {k : κ} (h : m.get? k = none) : k ∉ m.entries.map Prod.fst := by
  intro hk
  obtain ⟨⟨k', v⟩, hm, rfl⟩ := List.mem_map.mp hk
  exact get?_eq_none.mp h v hm

def set (m : JsMap κ α) (k : κ) (v : α) : JsMap κ α :=
  if h : m.get? k = none then
    ⟨m.entries ++ [(k, v)], by
      rw [List.map_append, List.nodup_append]
      refine ⟨m.nodup, by simp, fun a ha b hb => ?_⟩
      rintro rfl
      simp only [List.map_cons, List.map_nil, List.mem_singleton] at hb
      exact not_mem_keys h (hb ▸ ha)⟩
  else
    ⟨m.entries.map fun e => if e.1 = k then (k, v) else e, by
      have : (m.entries.map fun e => if e.1 = k then (k, v) else e).map Prod.fst = m.entries.map Prod.fst := by
        rw [List.map_map]
        apply List.map_congr_left
        intro e _
        by_cases he : e.1 = k <;> simp [he]
      rw [this]
      exact m.nodup⟩

@[simp] theorem get?_empty (k : κ) : (empty : JsMap κ α).get? k = none := rfl

@[simp] theorem get?_set (m : JsMap κ α) (k k' : κ) (v : α) :
    (m.set k v).get? k' = if k' = k then some v else m.get? k' := by
  have hmem : ∀ w, (k', w) ∈ (m.set k v).entries ↔ if k' = k then w = v else (k', w) ∈ m.entries := by
    intro w
    unfold set
    split
    · rename_i h
      have hno : ∀ w, (k, w) ∉ m.entries := get?_eq_none.mp h
      by_cases hk : k' = k
      · subst hk; simp [hno]
      · simp [hk]
    · rename_i h
      obtain ⟨u, hu⟩ := Option.ne_none_iff_exists'.mp h
      have hu' := get?_eq_some.mp hu
      simp only [List.mem_map, Prod.exists]
      by_cases hk : k' = k
      · subst hk
        simp only [if_true]
        constructor
        · rintro ⟨a, b, _, hab⟩
          by_cases ha : a = k'
          · simp [ha] at hab; exact hab.symm
          · simp [ha] at hab
        · rintro rfl; exact ⟨k', u, hu', by simp⟩
      · simp only [hk, if_false]
        constructor
        · rintro ⟨a, b, hm, hab⟩
          by_cases ha : a = k
          · simp [ha] at hab; exact absurd hab.1.symm hk
          · simp [ha] at hab; obtain ⟨rfl, rfl⟩ := hab; exact hm
        · intro hm; exact ⟨k', w, hm, by simp [hk]⟩
  apply Option.ext
  intro w
  rw [get?_eq_some, hmem w]
  by_cases hk : k' = k
  · simp [hk, eq_comm]
  · simp [hk, get?_eq_some]

@[simp] theorem get?_delete (m : JsMap κ α) (k k' : κ) :
    (m.delete k).get? k' = if k' = k then none else m.get? k' := by
  apply Option.ext
  intro w
  rw [get?_eq_some]
  by_cases hk : k' = k
  · simp [delete, hk]
  · simp [delete, hk, get?_eq_some]

/-- Deletes the entries that meet a condition, as a `forEach` that deletes does. -/
def deleteWhere (m : JsMap κ α) (p : κ → α → Bool) : JsMap κ α where
  entries := m.entries.filter fun e => !p e.1 e.2
  nodup := m.nodup.sublist (List.filter_sublist.map Prod.fst)

theorem get?_deleteWhere_eq_some {m : JsMap κ α} {p : κ → α → Bool} {k : κ} {v : α} :
    (m.deleteWhere p).get? k = some v ↔ m.get? k = some v ∧ p k v = false := by
  rw [get?_eq_some, get?_eq_some]
  simp [deleteWhere]

theorem mem_values {m : JsMap κ α} {v : α} : v ∈ m.values ↔ ∃ k, m.get? k = some v := by
  simp [values, get?_eq_some]

end JsMap

end ConfluentKafka
