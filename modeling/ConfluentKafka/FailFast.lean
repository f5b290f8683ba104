import Mathlib.Data.List.Basic

/-!
# Checks that may stop at the first failure

A check goes over a number of evaluations and reports the failures among them. It takes a flag, with which
it is left as soon as there is a failure; every loop and every call has to look for one. A check agrees with
itself if it does: with the flag it makes the same evaluations, up to the first that fails.
-/

namespace FailFast

/-- The failures that are reported, and all evaluations that were made. -/
structure Report (ρ ω : Type) where
  out : List ω
  evaluated : List ρ

variable {ε ρ ω α : Type}

abbrev Check (ε ρ ω α : Type) := StateT (Report ρ ω) (Except ε) α

/-! ## Checks -/

def record (verdict : ρ → Option ω) (r : ρ) : Check ε ρ ω Unit :=
  modify fun s => ⟨s.out ++ (verdict r).toList, s.evaluated ++ [r]⟩

/-- `failFast && out.length > 0`. -/
def stop (failFast : Bool) : Check ε ρ ω Bool := do
  return failFast && decide (0 < (← get).out.length)

/-- A loop that returns from its function where it stops, which is its value. -/
def forEach (failFast : Bool) (check : α → Check ε ρ ω Unit) : List α → Check ε ρ ω Bool
  | [] => return false
  | a :: as => do
    check a
    if ← stop failFast then return true
    forEach failFast check as

def unlessLeft (left : Check ε ρ ω Bool) (rest : Check ε ρ ω Unit) : Check ε ρ ω Unit := do
  if ← left then return ()
  rest

def orStop (failFast : Bool) (check : Check ε ρ ω Unit) : Check ε ρ ω Bool := do
  check
  stop failFast

/-! ## Agreement -/

section

variable (verdict : ρ → Option ω)

def Report.add (s : Report ρ ω) (rs : List ρ) : Report ρ ω := ⟨s.out ++ rs.filterMap verdict, s.evaluated ++ rs⟩

def hasFailure (rs : List ρ) : Bool := rs.any fun r => (verdict r).isSome

def upToFailure : List ρ → List ρ
  | [] => []
  | r :: rs => if (verdict r).isSome then [r] else r :: upToFailure rs

/-- The check with the flag makes the evaluations of the one without it, up to the first failure. -/
def Agrees (full fast : Check ε ρ ω Unit) : Prop :=
  ∀ s s', full s = .ok ((), s') → ∃ rs, s' = s.add verdict rs ∧
    (s.out = [] → fast s = .ok ((), s.add verdict (upToFailure verdict rs)))

def Leaves (full fast : Check ε ρ ω Bool) : Prop :=
  ∀ s left s', full s = .ok (left, s') → left = false ∧ ∃ rs, s' = s.add verdict rs ∧
    (s.out = [] → fast s = .ok (hasFailure verdict rs, s.add verdict (upToFailure verdict rs)))

end

section

variable {verdict : ρ → Option ω}

theorem Report.add_nil (s : Report ρ ω) : s.add verdict [] = s := by
  rw [add, List.filterMap_nil, List.append_nil, List.append_nil]

theorem Report.add_add (s : Report ρ ω) (rs rs' : List ρ) : (s.add verdict rs).add verdict rs' = s.add verdict
    (rs ++ rs') := by
  rw [add, add, add, List.filterMap_append, List.append_assoc, List.append_assoc]

theorem filterMap_of_not_hasFailure {rs : List ρ} (h : hasFailure verdict rs = false) :
    rs.filterMap verdict = [] := by
  rw [List.filterMap_eq_nil_iff]
  intro r hr
  have hr' := List.any_eq_false.mp h r hr
  exact Option.not_isSome_iff_eq_none.mp hr'

theorem upToFailure_of_not_hasFailure {rs : List ρ} (h : hasFailure verdict rs = false) :
    upToFailure verdict rs = rs := by
  induction rs with
  | nil => rfl
  | cons r rs ih =>
    rw [hasFailure, List.any_cons, Bool.or_eq_false_iff] at h
    rw [upToFailure, h.1, if_neg Bool.false_ne_true, ih h.2]

theorem upToFailure_append {rs rs' : List ρ} : upToFailure verdict (rs ++ rs') =
    if hasFailure verdict rs then upToFailure verdict rs else rs ++ upToFailure verdict rs' := by
  induction rs with
  | nil => rfl
  | cons r rs ih =>
    rw [List.cons_append, upToFailure, upToFailure, hasFailure, List.any_cons, ih, hasFailure]
    cases (verdict r).isSome with
    | true => rfl
    | false =>
      rw [if_neg Bool.false_ne_true, if_neg Bool.false_ne_true, Bool.false_or]
      split_ifs <;> rfl

theorem hasFailure_append {rs rs' : List ρ} : hasFailure verdict (rs ++ rs') =
    (hasFailure verdict rs || hasFailure verdict rs') :=
  List.any_append

theorem filterMap_upToFailure (rs : List ρ) : (upToFailure verdict rs).filterMap verdict =
    (rs.filterMap verdict).take 1 := by
  induction rs with
  | nil => rfl
  | cons r rs ih =>
    rw [upToFailure]
    cases hr : verdict r with
    | some e =>
      rw [Option.isSome_some, if_pos rfl, List.filterMap_cons_some hr, List.filterMap_cons_some hr]
      rfl
    | none =>
      rw [Option.isSome_none, if_neg Bool.false_ne_true, List.filterMap_cons_none hr,
        List.filterMap_cons_none hr, ih]

theorem filterMap_upToFailure_ne_nil {rs : List ρ} (h : hasFailure verdict rs = true) :
    (upToFailure verdict rs).filterMap verdict ≠ [] := by
  intro hnil
  obtain ⟨r, hr, hfails⟩ := List.any_eq_true.mp h
  rw [filterMap_upToFailure, List.take_eq_nil_iff, List.filterMap_eq_nil_iff] at hnil
  rcases hnil with hone | hnone
  · cases hone
  · rw [hnone r hr] at hfails
    cases hfails

/-! ## Checks that agree -/

theorem bind_ok {β : Type} {check : Check ε ρ ω α} {k : α → Check ε ρ ω β} {s s' : Report ρ ω} {b : β}
    (h : (check >>= k) s = .ok (b, s')) : ∃ a s₁, check s = .ok (a, s₁) ∧ k a s₁ = .ok (b, s') := by
  cases hcheck : check s with
  | error e =>
    have herror : (check >>= k) s = .error e := by
      change (check s >>= fun r => k r.1 r.2) = _
      rw [hcheck]
      rfl
    rw [herror] at h
    cases h
  | ok r =>
    obtain ⟨a, s₁⟩ := r
    refine ⟨a, s₁, rfl, ?_⟩
    rw [← h]
    change _ = (check s >>= fun r => k r.1 r.2)
    rw [hcheck]
    rfl

theorem bind_eq {β : Type} {check : Check ε ρ ω α} {k : α → Check ε ρ ω β} {s s₁ : Report ρ ω} {a : α}
    (h : check s = .ok (a, s₁)) : (check >>= k) s = k a s₁ := by
  change (check s >>= fun r => k r.1 r.2) = _
  rw [h]
  rfl

theorem stop_eq (failFast : Bool) (s : Report ρ ω) :
    (stop failFast : Check ε ρ ω Bool) s = .ok (failFast && decide (0 < s.out.length), s) := rfl

theorem agrees_pure : Agrees verdict (pure () : Check ε ρ ω Unit) (pure ()) := by
  intro s s' h
  obtain rfl : s = s' := congrArg Prod.snd (Except.ok.inj h)
  exact ⟨[], (Report.add_nil s).symm, fun _ => by rw [upToFailure, Report.add_nil]; rfl⟩

theorem agrees_throw (e : ε) (fast : Check ε ρ ω Unit) : Agrees verdict (throw e) fast := by
  intro s s' h
  cases h

theorem agrees_record (r : ρ) : Agrees verdict (record verdict r : Check ε ρ ω Unit) (record verdict r) := by
  have hadd (s : Report ρ ω) : (record verdict r : Check ε ρ ω Unit) s = .ok ((), s.add verdict [r]) := by
    have hout : [r].filterMap verdict = (verdict r).toList := by
      cases hr : verdict r with
      | none => exact List.filterMap_cons_none hr
      | some e => exact List.filterMap_cons_some hr
    rw [Report.add, hout]
    rfl
  intro s s' h
  rw [hadd] at h
  refine ⟨[r], (congrArg Prod.snd (Except.ok.inj h)).symm, fun _ => ?_⟩
  have hone : upToFailure verdict [r] = [r] := by
    rw [upToFailure, upToFailure]
    split_ifs <;> rfl
  rw [hadd, hone]

theorem agrees_ite {c : Prop} [Decidable c] {full fast full' fast' : Check ε ρ ω Unit}
    (h : c → Agrees verdict full fast)
    (h' : ¬c → Agrees verdict full' fast') : Agrees verdict (if c then full else full')
    (if c then fast else fast') := by
  by_cases hc : c
  · rw [if_pos hc, if_pos hc]
    exact h hc
  · rw [if_neg hc, if_neg hc]
    exact h' hc

theorem leaves_orStop {full fast : Check ε ρ ω Unit} (h : Agrees verdict full fast) :
    Leaves verdict (orStop false full) (orStop true fast) := by
  intro s left s' hrun
  obtain ⟨_, s₁, hfull, hstop⟩ := bind_ok hrun
  obtain ⟨rfl, rfl⟩ := Prod.mk.inj (Except.ok.inj hstop)
  obtain ⟨rs, rfl, hfast⟩ := h s s₁ hfull
  refine ⟨Bool.false_and _, rs, rfl, fun hout => ?_⟩
  rw [orStop, bind_eq (hfast hout), stop_eq, Report.add, hout, List.nil_append, Bool.true_and]
  cases hfails : hasFailure verdict rs with
  | true => rw [decide_eq_true (List.length_pos_iff.mpr (filterMap_upToFailure_ne_nil hfails))]
  | false =>
    rw [upToFailure_of_not_hasFailure hfails, filterMap_of_not_hasFailure hfails]
    rfl

/-- What was left with a failure is not gone on with. -/
theorem leaves_bind {full fast full' fast' : Check ε ρ ω Bool} (h : Leaves verdict full fast)
    (h' : Leaves verdict full' fast') :
    Leaves verdict (do if ← full then return true else full') (do if ← fast then return true else fast') := by
  intro s left s' hrun
  obtain ⟨left₁, s₁, hfull, hrest⟩ := bind_ok hrun
  obtain ⟨rfl, rs, rfl, hfast⟩ := h s left₁ s₁ hfull
  obtain ⟨rfl, rs', rfl, hfast'⟩ := h' _ left s' hrest
  refine ⟨rfl, rs ++ rs', Report.add_add s rs rs', fun hout => ?_⟩
  rw [bind_eq (hfast hout), upToFailure_append, hasFailure_append]
  cases hfails : hasFailure verdict rs with
  | true => rfl
  | false =>
    have hout' : (s.add verdict rs).out = [] := by
      rw [Report.add, hout, List.nil_append, filterMap_of_not_hasFailure hfails]
    rw [upToFailure_of_not_hasFailure hfails]
    refine (hfast' hout').trans ?_
    rw [Report.add_add]
    rfl

theorem agrees_unlessLeft {full fast : Check ε ρ ω Bool} {full' fast' : Check ε ρ ω Unit}
    (h : Leaves verdict full fast)
    (h' : Agrees verdict full' fast') : Agrees verdict (unlessLeft full full') (unlessLeft fast fast') := by
  intro s s' hrun
  obtain ⟨left, s₁, hfull, hrest⟩ := bind_ok hrun
  obtain ⟨rfl, rs, rfl, hfast⟩ := h s left s₁ hfull
  obtain ⟨rs', rfl, hfast'⟩ := h' _ s' hrest
  refine ⟨rs ++ rs', Report.add_add s rs rs', fun hout => ?_⟩
  rw [unlessLeft, bind_eq (hfast hout), upToFailure_append]
  cases hfails : hasFailure verdict rs with
  | true => rfl
  | false =>
    have hout' : (s.add verdict rs).out = [] := by
      rw [Report.add, hout, List.nil_append, filterMap_of_not_hasFailure hfails]
    rw [upToFailure_of_not_hasFailure hfails]
    refine (hfast' hout').trans ?_
    rw [Report.add_add]
    rfl

theorem leaves_pure : Leaves verdict (pure false : Check ε ρ ω Bool) (pure false) := by
  intro s left s' h
  obtain ⟨rfl, rfl⟩ := Prod.mk.inj (Except.ok.inj h)
  exact ⟨rfl, [], (Report.add_nil s).symm, fun _ => by rw [upToFailure, Report.add_nil]; rfl⟩

theorem leaves_stop : Leaves verdict (stop false : Check ε ρ ω Bool) (stop true) := by
  intro s left s' h
  obtain ⟨rfl, rfl⟩ := Prod.mk.inj (Except.ok.inj h)
  refine ⟨Bool.false_and _, [], (Report.add_nil s).symm, fun hout => ?_⟩
  rw [stop_eq, upToFailure, Report.add_nil, hout]
  rfl

theorem agrees_unlessLeft_stop {full fast full' fast' : Check ε ρ ω Unit} (h : Agrees verdict full fast)
    (h' : Agrees verdict full' fast') :
    Agrees verdict (unlessLeft (do full; return false) (unlessLeft (stop false) full'))
      (unlessLeft (do fast; return false) (unlessLeft (stop true) fast')) := by
  have hcall (failFast : Bool) (check check' : Check ε ρ ω Unit) :
      unlessLeft (do check; return false) (unlessLeft (stop failFast) check') = unlessLeft
        (orStop failFast check) check' := by
    rw [unlessLeft, unlessLeft, unlessLeft, orStop, bind_assoc, bind_assoc]
    rfl
  rw [hcall, hcall]
  exact agrees_unlessLeft (leaves_orStop h) h'

theorem leaves_forEach {full fast : α → Check ε ρ ω Unit} {as : List α}
    (h : ∀ a ∈ as, Agrees verdict (full a) (fast a)) :
    Leaves verdict (forEach false full as) (forEach true fast as) := by
  induction as with
  | nil => exact leaves_pure
  | cons a as ih =>
    have hrest := ih fun b hb => h b (List.mem_cons_of_mem _ hb)
    have hloop (failFast : Bool) (check : α → Check ε ρ ω Unit) : forEach failFast check (a :: as) =
        (do if ← orStop failFast (check a) then return true else forEach failFast check as) := by
      rw [orStop, bind_assoc]
      rfl
    rw [hloop, hloop]
    exact leaves_bind (leaves_orStop (h a List.mem_cons_self)) hrest

/-- A whole run: its first failure, and no evaluation behind it. -/
theorem Agrees.run {full fast : Check ε ρ ω Unit} (h : Agrees verdict full fast) {report : Report ρ ω}
    (hfull : full ⟨[], []⟩ = .ok ((), report)) : ∃ report', fast ⟨[], []⟩ = .ok ((), report') ∧
      report'.out = report.out.take 1 ∧
      report'.evaluated = upToFailure verdict report.evaluated := by
  obtain ⟨rs, rfl, hfast⟩ := h _ _ hfull
  exact ⟨_, hfast rfl, filterMap_upToFailure rs, rfl⟩

end

end FailFast
