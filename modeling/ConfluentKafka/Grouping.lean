import ConfluentKafka.JsMap
import Mathlib.Data.List.Induction

/-!
# Grouping by a key

A loop that keeps in a map, under the key of each element, what it has made of
the elements of that key so far. Its keys stand in the order in which they first
come, and what it has for a key is made of the elements of that key alone.
-/

namespace ConfluentKafka

namespace JsMap

variable {κ α β : Type} [DecidableEq κ]

theorem keys_set (m : JsMap κ α) (k : κ) (v : α) :
    (m.set k v).entries.map Prod.fst = if m.has k then m.entries.map Prod.fst else m.entries.map Prod.fst ++
    [k] := by
  unfold set has
  by_cases h : m.get? k = none
  · rw [dif_pos h, h]
    simp
  · obtain ⟨w, hw⟩ := Option.ne_none_iff_exists'.mp h
    rw [dif_neg h, hw, Option.isSome_some, if_pos rfl, List.map_map]
    refine List.map_congr_left fun e _ => ?_
    by_cases he : e.1 = k <;> simp [he]

theorem has_iff {m : JsMap κ α} {k : κ} : m.has k = true ↔ k ∈ m.entries.map Prod.fst := by
  unfold has
  rw [Option.isSome_iff_exists, List.mem_map]
  constructor
  · rintro ⟨v, hv⟩
    exact ⟨_, get?_eq_some.mp hv, rfl⟩
  · rintro ⟨⟨_, v⟩, hm, rfl⟩
    exact ⟨v, get?_eq_some.mpr hm⟩

theorem set_set (m : JsMap κ α) (k : κ) (v w : α) : (m.set k v).set k w = m.set k w := by
  obtain ⟨es, hnd⟩ := m
  have hne : ((⟨es, hnd⟩ : JsMap κ α).set k v).get? k ≠ none := by rw [get?_set, if_pos rfl]; simp
  rw [set, dif_neg hne]
  unfold set
  by_cases h : (⟨es, hnd⟩ : JsMap κ α).get? k = none
  · rw [dif_pos h, dif_pos h]
    simp only [JsMap.mk.injEq, List.map_append, List.map_cons, List.map_nil, if_true, List.append_cancel_right_eq]
    refine (List.map_congr_left fun e he => if_neg fun hk => ?_).trans (List.map_id es)
    exact not_mem_keys h (List.mem_map.mpr ⟨e, he, hk⟩)
  · rw [dif_neg h, dif_neg h]
    simp only [JsMap.mk.injEq, List.map_map]
    refine List.map_congr_left fun e _ => ?_
    by_cases hk : e.1 = k <;> simp [hk]

/-- `put` makes of what a key has so far and of the next element what it has from then on. -/
def group (key : β → κ) (put : Option α → β → α) (xs : List β) : JsMap κ α :=
  xs.foldl (fun m x => m.set (key x) (put (m.get? (key x)) x)) empty

variable {key : β → κ} {put : Option α → β → α}

theorem group_append (xs : List β) (x : β) :
    group key put (xs ++ [x]) = (group key put xs).set (key x) (put ((group key put xs).get? (key x)) x) := by
  unfold group
  rw [List.foldl_append]
  rfl

theorem get?_group (xs : List β) (k : κ) :
    (group key put xs).get? k = (xs.filter fun x => key x = k).foldl (fun a x => some (put a x)) none := by
  induction xs using List.reverseRecOn with
  | nil => rfl
  | append_singleton xs x ih =>
    rw [group_append, get?_set, List.filter_append, List.foldl_append, ← ih]
    by_cases hk : key x = k
    · subst hk
      simp
    · simp [hk, Ne.symm hk]

theorem keys_group (xs : List β) : (group key put xs).entries.map Prod.fst = (xs.map key).eraseDups := by
  induction xs using List.reverseRecOn with
  | nil => rfl
  | append_singleton xs x ih =>
    rw [group_append, keys_set, List.map_append, List.eraseDups_append, ← ih]
    have hhas : (group key put xs).has (key x) = true ↔ key x ∈ xs.map key := by
      rw [has_iff, ih, List.mem_eraseDups]
    show _ = _ ++ (List.removeAll [key x] (xs.map key)).eraseDups
    unfold List.removeAll
    by_cases hx : key x ∈ xs.map key
    · rw [if_pos (hhas.mpr hx), List.filter_cons_of_neg (by simpa using hx)]
      simp
    · rw [if_neg fun h => hx (hhas.mp h), List.filter_cons_of_pos (by simpa using hx)]
      rfl

end JsMap

/-! ## Two keys that tell the same -/

end ConfluentKafka
