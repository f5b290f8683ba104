import Mathlib.Data.List.Basic

/-!
# Segments of a list

A list is made of segments that stand one after the other. Entries of one width are found by
multiplying, segments of different lengths by the sums of the lengths in front of them.
-/

namespace ConfluentKafka

variable {α β : Type}

def At (data : List α) (pos : Int) (seg : List α) : Prop := ∃ front back, data = front ++ (seg ++ back) ∧
    pos = front.length

def runningOffsets : Nat → List (List α) → List Nat
  | _, [] => []
  | offset, seg :: rest => offset :: runningOffsets (offset + seg.length) rest

section Segments

variable {data seg seg' : List α} {pos : Int}

theorem at_self (data : List α) : At data 0 data := ⟨[], [], by simp, rfl⟩

theorem At.left (h : At data pos (seg ++ seg')) : At data pos seg := by
  obtain ⟨front, back, rfl, rfl⟩ := h
  exact ⟨front, seg' ++ back, by simp, rfl⟩

theorem At.right (h : At data pos (seg ++ seg')) : At data (pos + seg.length) seg' := by
  obtain ⟨front, back, rfl, rfl⟩ := h
  exact ⟨front ++ seg, back, by simp, by simp⟩

theorem At.tail {a : α} (h : At data pos (a :: seg)) : At data (pos + 1) seg := by
  obtain ⟨front, back, rfl, rfl⟩ := h
  exact ⟨front ++ [a], back, by simp, by simp⟩

theorem At.nonneg (h : At data pos seg) : 0 ≤ pos := by
  obtain ⟨front, back, -, rfl⟩ := h
  omega

theorem At.le (h : At data pos seg) : pos + seg.length ≤ data.length := by
  obtain ⟨front, back, rfl, rfl⟩ := h
  simp only [List.length_append]
  omega

theorem At.getD {a : α} (h : At data pos (a :: seg)) (d : α) : data.getD pos.toNat d = a := by
  obtain ⟨front, back, rfl, rfl⟩ := h
  simp

theorem At.take_drop (h : At data pos seg) : (data.drop pos.toNat).take seg.length = seg := by
  obtain ⟨front, back, rfl, rfl⟩ := h
  simp

end Segments

/-! ## Entries of one width -/

theorem length_flatMap_of_width {f : β → List α} {w : Nat} (hf : ∀ x, (f x).length = w) (xs : List β) :
    (xs.flatMap f).length = w * xs.length := by
  induction xs with
  | nil => simp
  | cons x xs ih =>
    rw [List.flatMap_cons, List.length_append, hf, ih, List.length_cons, Nat.mul_add_one, Nat.add_comm]

theorem At.entry {data : List α} {pos : Int} {f : β → List α} {w : Nat} (hf : ∀ x, (f x).length = w) {xs : List β}
    (h : At data pos (xs.flatMap f)) {i : Nat} {x : β} (hx : xs[i]? = some x) :
    At data (pos + (w * i : Nat)) (f x) := by
  obtain ⟨hi, rfl⟩ := List.getElem?_eq_some_iff.mp hx
  have hsplit : xs.flatMap f = (xs.take i).flatMap f ++ (f xs[i] ++ (xs.drop (i + 1)).flatMap f) := by
    rw [← List.flatMap_cons, ← List.flatMap_append, List.getElem_cons_drop, List.take_append_drop]
  have hlen : ((xs.take i).flatMap f).length = w * i := by
    rw [length_flatMap_of_width hf, List.length_take, Nat.min_eq_left (Nat.le_of_lt hi)]
  rw [hsplit] at h
  rw [← hlen]
  exact h.right.left

/-! ## Segments of any length -/

theorem length_runningOffsets (segs : List (List α)) (offset : Nat) :
    (runningOffsets offset segs).length = segs.length := by
  induction segs generalizing offset with
  | nil => rfl
  | cons seg segs ih => rw [runningOffsets, List.length_cons, List.length_cons, ih]

theorem getElem?_runningOffsets {segs : List (List α)} {i : Nat} (hi : i < segs.length) (offset : Nat) :
    (runningOffsets offset segs)[i]? = some (offset + (segs.take i).flatten.length) := by
  induction segs generalizing offset i with
  | nil => simp at hi
  | cons seg segs ih =>
    cases i with
    | zero => simp [runningOffsets]
    | succ i =>
      rw [runningOffsets, List.getElem?_cons_succ, ih (by simpa using hi)]
      simp [Nat.add_assoc]

theorem At.segment {data : List α} {pos : Int} {segs : List (List α)} (h : At data pos segs.flatten) {i : Nat}
    {seg : List α} (hs : segs[i]? = some seg) : At data (pos + (segs.take i).flatten.length) seg := by
  obtain ⟨hi, rfl⟩ := List.getElem?_eq_some_iff.mp hs
  have hsplit : segs.flatten = (segs.take i).flatten ++ (segs[i] ++ (segs.drop (i + 1)).flatten) := by
    rw [← List.flatten_cons, ← List.flatten_append, List.getElem_cons_drop, List.take_append_drop]
  rw [hsplit] at h
  exact h.right.left

end ConfluentKafka
