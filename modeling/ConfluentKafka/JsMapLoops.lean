import ConfluentKafka.JsMap
import Mathlib.Data.List.TakeWhile

/-!
# Loops over a map

A loop over the entries of a map that removes the entry it stands at, or gives it another value, meets every
entry once. An entry that is set takes the place of the one with its key; what was before it and behind it
stays.
-/

namespace ConfluentKafka

namespace JsMap

variable {κ α : Type} [DecidableEq κ]

def before (m : JsMap κ α) (k : κ) : List (κ × α) := m.entries.takeWhile fun e => e.1 ≠ k

def behind (m : JsMap κ α) (k : κ) : List (κ × α) := (m.entries.dropWhile fun e => e.1 ≠ k).tail

/-! ## The place of a key -/

theorem ne_of_mem_before {m : JsMap κ α} {k : κ} {e : κ × α} (h : e ∈ m.before k) : e.1 ≠ k := by
  have hne := List.mem_takeWhile_imp h
  exact of_decide_eq_true hne

theorem entries_of_get? {m : JsMap κ α} {k : κ} {v : α} (h : m.get? k = some v) :
    m.entries = m.before k ++ (k, v) :: m.behind k := by
  obtain ⟨a, b, hab⟩ := List.append_of_mem (get?_eq_some.mp h)
  have hnodup := m.nodup
  rw [hab, List.map_append, List.map_cons, List.nodup_middle, List.nodup_cons, List.mem_append, not_or] at hnodup
  have ha : ∀ e ∈ a, decide (e.1 ≠ k) = true := by
    intro e he
    have hne : e.1 ≠ k := fun hk => hnodup.1.1 (List.mem_map.mpr ⟨e, he, hk⟩)
    exact decide_eq_true hne
  have hk : ¬decide (k ≠ k) = true := by simp
  rw [before, behind, hab, List.takeWhile_append_of_pos ha, List.dropWhile_append_of_pos ha,
    List.takeWhile_cons_of_neg (by exact hk), List.dropWhile_cons_of_neg (by exact hk), List.append_nil,
      List.tail_cons]

theorem entries_of_get?_none {m : JsMap κ α} {k : κ} (h : m.get? k = none) :
    m.before k = m.entries ∧ m.behind k = [] := by
  have hall : ∀ e ∈ m.entries, decide (e.1 ≠ k) = true := fun e he =>
    decide_eq_true fun hk => get?_eq_none.mp h e.2 (hk ▸ he)
  rw [before, behind, List.takeWhile_eq_self_iff.mpr hall, List.dropWhile_eq_nil_iff.mpr hall]
  exact ⟨rfl, rfl⟩

theorem entries_set (m : JsMap κ α) (k : κ) (v : α) : (m.set k v).entries = m.before k ++ (k, v) :: m.behind k := by
  rcases h : m.get? k with _ | w
  · obtain ⟨hbefore, hbehind⟩ := entries_of_get?_none h
    rw [hbefore, hbehind, set, dif_pos h]
  · have hentries := entries_of_get? h
    have hnodup := m.nodup
    rw [hentries, List.map_append, List.map_cons, List.nodup_middle, List.nodup_cons, List.mem_append,
      not_or] at hnodup
    have hother {es : List (κ × α)} (hes : k ∉ es.map Prod.fst) :
        (es.map fun e => if e.1 = k then (k, v) else e) = es := by
      refine (List.map_congr_left fun e he => if_neg ?_).trans (List.map_id es)
      rintro rfl
      exact hes (List.mem_map_of_mem he)
    have hset : (m.set k v).entries = m.entries.map fun e => if e.1 = k then (k, v) else e := by
      rw [set, dif_neg (by rw [h]; exact Option.some_ne_none w)]
    rw [hset]
    conv => lhs; rw [hentries]
    rw [List.map_append, List.map_cons, hother hnodup.1.1, hother hnodup.1.2, if_pos rfl]

theorem sublist_entries (m : JsMap κ α) (k : κ) : List.Sublist (m.before k ++ m.behind k) m.entries := by
  rcases h : m.get? k with _ | w
  · obtain ⟨hbefore, hbehind⟩ := entries_of_get?_none h
    rw [hbefore, hbehind, List.append_nil]
  · rw [entries_of_get? h]
    exact (List.sublist_cons_self _ _).append_left _

/-! ## An entry at a time -/

def retire (m : JsMap κ α) (k : κ) (v : α) (permanent : Bool) :
    JsMap κ α := if permanent then m.delete k else m.set k v

theorem get?_retire (m : JsMap κ α) (k k' : κ) (v : α) (permanent : Bool) :
    (m.retire k v permanent).get? k' = if k' = k then (if permanent then none else some v) else m.get? k' := by
  unfold retire
  cases permanent
  · exact get?_set m k k' v
  · exact get?_delete m k k'

/-- What a loop leaves of the entries: those that it picks are retired. -/
theorem get?_foldl_retire (p : κ × α → Prop) [DecidablePred p] (f : κ × α → α) (permanent : Bool)
    (es : List (κ × α)) :
    (es.map Prod.fst).Nodup → ∀ (m : JsMap κ α) (k : κ),
      (es.foldl (fun m e => if p e then m.retire e.1 (f e) permanent else m) m).get? k =
        match es.find? fun e => e.1 = k with
        | some e => if p e then (if permanent then none else some (f e)) else m.get? k
        | none => m.get? k := by
  induction es with
  | nil => exact fun _ _ _ => rfl
  | cons e es ih =>
    intro hnodup m k
    rw [List.map_cons, List.nodup_cons] at hnodup
    rw [List.foldl_cons, ih hnodup.2, List.find?_cons]
    by_cases hk : e.1 = k
    · subst hk
      have hnone : es.find? (fun e' => e'.1 = e.1) = none := by
        rw [List.find?_eq_none]
        exact fun e' he' h => hnodup.1 (of_decide_eq_true h ▸ List.mem_map_of_mem he')
      rw [hnone]
      simp only [decide_true]
      split_ifs with hp hpermanent
      · rw [get?_retire, if_pos rfl, if_pos hpermanent]
      · rw [get?_retire, if_pos rfl, if_neg hpermanent]
      · rfl
    · have hhere : (if p e then m.retire e.1 (f e) permanent else m).get? k = m.get? k := by
        split_ifs
        · rw [get?_retire, if_neg (Ne.symm hk)]
        · rfl
      simp only [decide_eq_false hk, hhere]

theorem get?_loop_retire (m : JsMap κ α) (p : κ × α → Prop) [DecidablePred p] (f : κ × α → α)
    (permanent : Bool) (k : κ) :
    (m.entries.foldl (fun m e => if p e then m.retire e.1 (f e) permanent else m) m).get? k =
      (m.get? k).bind fun v => if p (k, v) then (if permanent then none else some (f (k, v))) else some v := by
  rw [get?_foldl_retire p f permanent m.entries m.nodup]
  split
  · next e hfind =>
    have hsome : m.get? k = some e.2 := congrArg (Option.map Prod.snd) hfind
    have hkey := List.find?_some hfind
    obtain rfl : e.1 = k := of_decide_eq_true hkey
    simp only [hsome, Option.bind_some]
  · next hfind =>
    have hnone : m.get? k = none := congrArg (Option.map Prod.snd) hfind
    rw [hnone]
    rfl

theorem foldl_part {σ β γ : Type} (part : σ → γ) (put : σ → γ → σ) (hpart : ∀ s g, part (put s g) = g)
    (hput : ∀ s g g', put (put s g) g' = put s g') (hself : ∀ s, put s (part s) = s) (p : β → Prop)
    [DecidablePred p]
    (f : γ → β → γ) (es : List β) (s : σ) :
    es.foldl (fun s e => if p e then put s (f (part s) e) else s) s =
      put s (es.foldl (fun g e => if p e then f g e else g) (part s)) := by
  induction es generalizing s with
  | nil => exact (hself s).symm
  | cons e es ih =>
    rw [List.foldl_cons, List.foldl_cons, ih]
    split_ifs
    · rw [hput, hpart]
    · rfl

/-- What one round keeps, the loop keeps: when it comes to an entry, no round before has changed it. -/
theorem foldl_entries_induction {σ : Type} (view : σ → JsMap κ α) {round : σ → κ × α → σ} {P : σ → Prop}
    (hround : ∀ s k v, P s → (view s).get? k = some v →
      P (round s (k, v)) ∧ ∀ k', k' ≠ k → (view (round s (k, v))).get? k' = (view s).get? k') {s : σ} (hs : P s) :
    P ((view s).entries.foldl round s) := by
  have hloop (es : List (κ × α)) : (es.map Prod.fst).Nodup → ∀ s, P s → (∀ e ∈ es, (view s).get? e.1 = some e.2) →
      P (es.foldl round s) := by
    induction es with
    | nil => exact fun _ _ hs _ => hs
    | cons e es ih =>
      intro hnodup s hs hentries
      rw [List.map_cons, List.nodup_cons] at hnodup
      obtain ⟨hnext, hother⟩ := hround s e.1 e.2 hs (hentries e (List.mem_cons_self ..))
      refine ih hnodup.2 (round s e) hnext fun e' he' => ?_
      have hne : e'.1 ≠ e.1 := fun hk => hnodup.1 (hk ▸ List.mem_map_of_mem he')
      exact (hother e'.1 hne).trans (hentries e' (List.mem_cons_of_mem e he'))
  exact hloop (view s).entries (view s).nodup s hs fun e he => get?_eq_some.mpr he

end JsMap

end ConfluentKafka
