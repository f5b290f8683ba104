import Mathlib.Data.List.Basic

/-!
# Search by halves

A search for the index at which a comparison is zero, in an interval that is halved at each step. It
finds an index where the signs on the way lead there, and a family of searches that each find their
own index shows that the things compared are in order.
-/

namespace ConfluentKafka

namespace Bisect

def search (c : Nat → Int) (lo hi : Nat) : Option Nat :=
  if lo < hi then
    let mid := (lo + (hi - 1)) / 2
    if c mid < 0 then search c (mid + 1) hi
    else if 0 < c mid then search c lo mid
    else some mid
  else none
termination_by hi - lo

section

variable {c : Nat → Int} {lo hi : Nat}

theorem search_of_le (h : hi ≤ lo) : search c lo hi = none := by
  rw [search, if_neg (by omega)]

theorem search_of_neg (h : lo < hi) (hc : c ((lo + (hi - 1)) / 2) < 0) :
    search c lo hi = search c ((lo + (hi - 1)) / 2 + 1) hi := by
  rw [search, if_pos h, if_pos hc]

theorem search_of_pos (h : lo < hi) (hc : 0 < c ((lo + (hi - 1)) / 2)) :
    search c lo hi = search c lo ((lo + (hi - 1)) / 2) := by
  rw [search, if_pos h, if_neg (by omega), if_pos hc]

theorem search_of_zero (h : lo < hi) (hc : c ((lo + (hi - 1)) / 2) = 0) :
    search c lo hi = some ((lo + (hi - 1)) / 2) := by
  rw [search, if_pos h, if_neg (by omega), if_neg (by omega)]

theorem search_eq_some {i : Nat} (h : search c lo hi = some i) : lo ≤ i ∧ i < hi ∧ c i = 0 := by
  induction lo, hi using search.induct c with
  | case1 lo hi hlt mid hneg ih =>
    rw [search_of_neg hlt hneg] at h
    have hrest := ih h
    omega
  | case2 lo hi hlt mid _ hpos ih =>
    rw [search_of_pos hlt hpos] at h
    have hrest := ih h
    omega
  | case3 lo hi hlt mid hneg hpos =>
    have hzero : c mid = 0 := by omega
    rw [search_of_zero hlt hzero] at h
    cases h
    exact ⟨by omega, by omega, hzero⟩
  | case4 lo hi hle =>
    rw [search_of_le (by omega)] at h
    cases h

def way (i lo hi : Nat) : List Nat :=
  if lo < hi then
    let mid := (lo + (hi - 1)) / 2
    if mid < i then mid :: way i (mid + 1) hi
    else if i < mid then mid :: way i lo mid
    else []
  else []
termination_by hi - lo

theorem mem_way {i m : Nat} (h : m ∈ way i lo hi) : lo ≤ m ∧ m < hi := by
  induction lo, hi using way.induct i with
  | case1 lo hi hlt mid hright ih =>
    rw [way, if_pos hlt, if_pos hright, List.mem_cons] at h
    rcases h with rfl | h
    · exact ⟨by omega, by omega⟩
    · have hrest := ih h
      omega
  | case2 lo hi hlt mid hright hleft ih =>
    rw [way, if_pos hlt, if_neg hright, if_pos hleft, List.mem_cons] at h
    rcases h with rfl | h
    · exact ⟨by omega, by omega⟩
    · have hrest := ih h
      omega
  | case3 lo hi hlt mid hright hleft =>
    rw [way, if_pos hlt, if_neg hright, if_neg hleft] at h
    simp at h
  | case4 lo hi hle =>
    rw [way, if_neg hle] at h
    simp at h

/-- An index is found exactly where the signs on the way to it lead there. -/
theorem search_eq_some_iff {i : Nat} (hlo : lo ≤ i) (hhi : i < hi) :
    search c lo hi = some i ↔ c i = 0 ∧ ∀ m ∈ way i lo hi, (m < i → c m < 0) ∧ (i < m → 0 < c m) := by
  induction lo, hi using way.induct i with
  | case1 lo hi hlt mid hright ih =>
    rw [way, if_pos hlt, if_pos hright, List.forall_mem_cons]
    by_cases hneg : c mid < 0
    · have hmid : (mid < i → c mid < 0) ∧ (i < mid → 0 < c mid) := ⟨fun _ => hneg, fun h => by omega⟩
      rw [search_of_neg hlt hneg, ih hright hhi]
      exact and_congr_right fun _ => (and_iff_right hmid).symm
    · refine iff_of_false (fun hfound => ?_) fun h => hneg (h.2.1.1 hright)
      by_cases hpos : 0 < c mid
      · rw [search_of_pos hlt hpos] at hfound
        have := search_eq_some hfound
        omega
      · have hzero : c mid = 0 := by omega
        rw [search_of_zero hlt hzero] at hfound
        cases hfound
        omega
  | case2 lo hi hlt mid hright hleft ih =>
    rw [way, if_pos hlt, if_neg hright, if_pos hleft, List.forall_mem_cons]
    by_cases hpos : 0 < c mid
    · have hmid : (mid < i → c mid < 0) ∧ (i < mid → 0 < c mid) := ⟨fun h => by omega, fun _ => hpos⟩
      rw [search_of_pos hlt hpos, ih hlo hleft]
      exact and_congr_right fun _ => (and_iff_right hmid).symm
    · refine iff_of_false (fun hfound => ?_) fun h => hpos (h.2.1.2 hleft)
      by_cases hneg : c mid < 0
      · rw [search_of_neg hlt hneg] at hfound
        have := search_eq_some hfound
        omega
      · have hzero : c mid = 0 := by omega
        rw [search_of_zero hlt hzero] at hfound
        cases hfound
        omega
  | case3 lo hi hlt mid hright hleft =>
    have hi : i = mid := by omega
    rw [way, if_pos hlt, if_neg hright, if_neg hleft]
    constructor
    · intro hfound
      exact ⟨(search_eq_some hfound).2.2, by simp⟩
    · intro h
      rw [hi] at h ⊢
      exact search_of_zero hlt h.1
  | case4 lo hi hle => omega

end

/-! ## Searches that find their own index -/

section

/-- A comparison of the things at two indices: `c j i` compares the one at `i` with the one at `j`. -/
structure Compares (c : Nat → Nat → Int) (n : Nat) : Prop where
  neg : ∀ i j, c i j = -c j i
  trans : ∀ i j k, c j i < 0 → c k j < 0 → c k i < 0
  ne : ∀ i j, i < n → j < n → i ≠ j → c j i ≠ 0

variable {c : Nat → Nat → Int} {n lo hi : Nat}

theorem search_left (hc : Compares c n) (hn : hi ≤ n) (hlt : lo < hi)
    (hall : ∀ j, lo ≤ j → j < hi → search (c j) lo hi = some j) {j : Nat} (hlo : lo ≤ j)
    (hmid : j < (lo + (hi - 1)) / 2) : 0 < c j ((lo + (hi - 1)) / 2) ∧ search (c j) lo
    ((lo + (hi - 1)) / 2) = some j := by
  have hne := hc.ne ((lo + (hi - 1)) / 2) j (by omega) (by omega) (by omega)
  have hfound := hall j hlo (by omega)
  have hpos : 0 < c j ((lo + (hi - 1)) / 2) := by
    by_contra hle
    rw [search_of_neg hlt (by omega)] at hfound
    have := search_eq_some hfound
    omega
  rw [search_of_pos hlt hpos] at hfound
  exact ⟨hpos, hfound⟩

theorem search_right (hc : Compares c n) (hn : hi ≤ n) (hlt : lo < hi)
    (hall : ∀ j, lo ≤ j → j < hi → search (c j) lo hi = some j) {j : Nat} (hmid : (lo + (hi - 1)) / 2 < j)
    (hhi : j < hi) : c j ((lo + (hi - 1)) / 2) < 0 ∧ search (c j) ((lo + (hi - 1)) / 2 + 1) hi = some j := by
  have hne := hc.ne ((lo + (hi - 1)) / 2) j (by omega) (by omega) (by omega)
  have hfound := hall j (by omega) hhi
  have hneg : c j ((lo + (hi - 1)) / 2) < 0 := by
    by_contra hle
    rw [search_of_pos hlt (by omega)] at hfound
    have := search_eq_some hfound
    omega
  rw [search_of_neg hlt hneg] at hfound
  exact ⟨hneg, hfound⟩

/-- Where every search finds its own index, the things compared increase. The induction is on the size of the
interval: the middle separates what is left of it from what is right of it. -/
theorem increasing_of_search (hc : Compares c n) (size : Nat) : ∀ {lo hi : Nat}, hi - lo ≤ size → hi ≤ n →
    (∀ j, lo ≤ j → j < hi → search (c j) lo hi = some j) → ∀ i j, lo ≤ i → i < j → j < hi → c j i < 0 := by
  induction size with
  | zero =>
    intro lo hi hsize _ _ i j hi' hij hj
    omega
  | succ size ih =>
    intro lo hi hsize hn hall i j hlo hij hj
    have hlt : lo < hi := by omega
    have hleft : ∀ k, lo ≤ k → k < (lo + (hi - 1)) / 2 → c ((lo + (hi - 1)) / 2) k < 0 := by
      intro k hk hkm
      have hpos := (search_left hc hn hlt hall hk hkm).1
      rw [hc.neg]
      omega
    have hright : ∀ k, (lo + (hi - 1)) / 2 < k → k < hi → c k ((lo + (hi - 1)) / 2) < 0 := fun k hk hkh =>
      (search_right hc hn hlt hall hk hkh).1
    rcases Nat.lt_trichotomy j ((lo + (hi - 1)) / 2) with hjm | hjm | hjm
    · exact ih (by omega) (by omega) (fun k hk hkm => (search_left hc hn hlt hall hk hkm).2) i j hlo hij hjm
    · rw [hjm]
      exact hleft i hlo (by omega)
    · rcases Nat.lt_trichotomy i ((lo + (hi - 1)) / 2) with him | him | him
      · exact hc.trans i _ j (hleft i hlo him) (hright j hjm hj)
      · rw [him]
        exact hright j hjm hj
      · exact ih (by omega) hn (fun k hk hkh => (search_right hc hn hlt hall hk hkh).2) i j him hij hj

end

end Bisect

end ConfluentKafka
