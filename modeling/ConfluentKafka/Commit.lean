import ConfluentKafka.Offsets

/-!
# Committing until the state allows it

`commitOffsets` of `_consumer.js` and the loop around it that a seek waits for. The loop goes on while
the last error it has seen is `ERR__STATE`, and a commit that succeeds does not clear that error.
-/

namespace ConfluentKafka

namespace Commit

def ERR_NO_ERROR : Int := 0
def ERR_UNKNOWN : Int := -1
def ERR__NO_OFFSET : Int := -168
def ERR__STATE : Int := -172

/-- How `commitCb` of the native client ends: it throws an error, perhaps without a code, or calls back. -/
inductive NativeCommit where
  | throws (code : Option Int)
  | calledBack (error : Option Int)
  deriving DecidableEq

structure Attempt where
  connected : Bool
  native : NativeCommit
  deriving DecidableEq

def commitOffsets (a : Attempt) : Except Int Unit :=
  if !a.connected then .error ERR__STATE
  else
    match a.native with
    | .throws code => if code = some ERR__NO_OFFSET then .ok () else .error (code.getD ERR_UNKNOWN)
    | .calledBack (some e) => .error e
    | .calledBack none => .ok ()

/-- The number of calls after which the loop ends; the `calls`-th attempt comes next. -/
def commitLoop (attempts : Nat → Attempt) : Nat → Nat → Int → Option Nat
  | 0, _, _ => none
  | fuel + 1, calls, err =>
    let err := match commitOffsets (attempts calls) with
      | .ok _ => err
      | .error e => e
    if err ≠ 0 ∧ err = ERR__STATE then commitLoop attempts fuel (calls + 1) err else some (calls + 1)

def commitOffsetsUntilNoStateErr (attempts : Nat → Attempt) (fuel : Nat) : Option Nat :=
  commitLoop attempts fuel 0 ERR_NO_ERROR

section

variable {attempts : Nat → Attempt}

theorem commitLoop_succ (fuel calls : Nat) (err : Int) :
    commitLoop attempts (fuel + 1) calls err = match commitOffsets (attempts calls) with
      | .ok _ => if err = ERR__STATE then commitLoop attempts fuel (calls + 1) err else some (calls + 1)
      | .error e => if e = ERR__STATE then commitLoop attempts fuel (calls + 1) e else some (calls + 1) := by
  have hstate : ∀ e : Int, (e ≠ 0 ∧ e = ERR__STATE) = (e = ERR__STATE) := by
    intro e
    refine propext ⟨And.right, fun h => ⟨?_, h⟩⟩
    rw [h]
    decide
  rw [commitLoop]
  cases commitOffsets (attempts calls) with
  | ok _ => simp only [hstate]
  | error e => simp only [hstate]

/-- The result is never below the calls made so far. -/
theorem lt_of_commitLoop_eq_some {fuel calls n : Nat} {err : Int}
    (h : commitLoop attempts fuel calls err = some n) :
    calls < n := by
  induction fuel generalizing calls err with
  | zero => cases h
  | succ fuel ih =>
    rw [commitLoop_succ] at h
    split at h
    · split at h
      · have := ih h
        omega
      · cases h
        omega
    · split at h
      · have := ih h
        omega
      · cases h
        omega

/-- While the attempts fail with `ERR__STATE`, the loop remembers that error. -/
theorem commitLoop_of_stateErr {k : Nat} (h : ∀ i < k, commitOffsets (attempts i) = .error ERR__STATE)
    (fuel : Nat) :
    commitOffsetsUntilNoStateErr attempts (k + fuel) =
      commitLoop attempts fuel k (if k = 0 then ERR_NO_ERROR else ERR__STATE) := by
  induction k generalizing fuel with
  | zero => rw [Nat.zero_add, if_pos rfl, commitOffsetsUntilNoStateErr]
  | succ k ih =>
    have hk := h k (Nat.lt_succ_self k)
    rw [Nat.add_assoc, Nat.add_comm 1 fuel, ih (fun i hi => h i (Nat.lt_succ_of_lt hi)), commitLoop_succ, hk,
      if_neg (Nat.succ_ne_zero k)]
    exact if_pos rfl

theorem commitLoop_mono {fuel n : Nat} {calls : Nat} {err : Int}
    (h : commitLoop attempts fuel calls err = some n) (extra : Nat) :
    commitLoop attempts (fuel + extra) calls err = some n := by
  induction fuel generalizing calls err with
  | zero => cases h
  | succ fuel ih =>
    rw [Nat.add_right_comm, commitLoop_succ]
    rw [commitLoop_succ] at h
    split at h
    · split at h
      · next hstate =>
        rw [if_pos hstate]
        exact ih h
      · next hstate =>
        rw [if_neg hstate]
        exact h
    · split at h
      · next hstate =>
        rw [if_pos hstate]
        exact ih h
      · next hstate =>
        rw [if_neg hstate]
        exact h

/-- After `k` attempts that fail with `ERR__STATE` and one that does not, the loop has ended exactly where
there was no such failure or the last attempt has failed too. -/
theorem commit_loop_ends_iff {k : Nat} (h : ∀ i < k, commitOffsets (attempts i) = .error ERR__STATE)
    (hk : commitOffsets (attempts k) ≠ .error ERR__STATE) :
    (∃ fuel, commitOffsetsUntilNoStateErr attempts fuel = some (k + 1)) ↔
      k = 0 ∨ commitOffsets (attempts k) ≠ .ok () := by
  have hstep := commitLoop_of_stateErr h
  cases hout : commitOffsets (attempts k) with
  | error e =>
    have he : e ≠ ERR__STATE := fun he => hk (by rw [hout, he])
    refine iff_of_true ⟨k + 1, ?_⟩ (.inr fun h => by cases h)
    rw [hstep, commitLoop_succ, hout]
    exact if_neg he
  | ok u =>
    by_cases h0 : k = 0
    · refine iff_of_true ⟨k + 1, ?_⟩ (.inl h0)
      rw [hstep, commitLoop_succ, hout, if_pos h0]
      exact if_neg (by decide)
    · refine iff_of_false ?_ (not_or.mpr ⟨h0, not_not_intro rfl⟩)
      rintro ⟨fuel, hfuel⟩
      have hmore := commitLoop_mono hfuel (k + 1)
      have hbound : fuel + (k + 1) = k + (fuel + 1) := by omega
      have hrun := hstep (fuel + 1)
      rw [commitOffsetsUntilNoStateErr, ← hbound, hmore, commitLoop_succ, hout, if_neg h0] at hrun
      have := lt_of_commitLoop_eq_some ((if_pos rfl).symm.trans hrun.symm)
      omega

end

/-- A disconnected consumer, then a commit that the broker refuses. -/
theorem commit_loop_ends_refused :
    ∃ fuel, commitOffsetsUntilNoStateErr
      (fun i => if i = 0 then ⟨false, .calledBack none⟩ else ⟨true, .calledBack (some 5)⟩) fuel = some 2 :=
  (commit_loop_ends_iff (k := 1)
    (fun i hi => by
      have h0 : i = 0 := by omega
      subst h0
      rfl)
    (by decide)).mpr (.inr (by decide))

/-- A disconnected consumer, then commits that succeed: the loop never ends. -/
theorem commit_loop_runs_on :
    ¬∃ fuel, commitOffsetsUntilNoStateErr (fun i => ⟨i ≠ 0, .calledBack none⟩) fuel = some 2 := by
  have hfirst : ∀ i < 1, commitOffsets ⟨decide (i ≠ 0), .calledBack none⟩ = .error ERR__STATE := by
    intro i hi
    have h0 : i = 0 := by omega
    subst h0
    rfl
  have hloop : ∀ fuel calls, 0 < calls →
      commitLoop (fun i => ⟨decide (i ≠ 0), .calledBack none⟩) fuel calls ERR__STATE = none := by
    intro fuel
    induction fuel with
    | zero => exact fun _ _ => rfl
    | succ fuel ih =>
      intro calls hcalls
      rw [commitLoop_succ]
      have hok : commitOffsets ⟨decide (calls ≠ 0), .calledBack none⟩ = .ok () := by
        rw [decide_eq_true (by omega : calls ≠ 0)]
        rfl
      rw [hok]
      exact (if_pos rfl).trans (ih (calls + 1) (Nat.succ_pos calls))
  rintro ⟨fuel, h⟩
  have hmore := commitLoop_mono h 1
  rw [Nat.add_comm, ← commitOffsetsUntilNoStateErr, commitLoop_of_stateErr hfirst, if_neg one_ne_zero,
    hloop fuel 1 one_pos] at hmore
  cases hmore

end Commit

end ConfluentKafka
