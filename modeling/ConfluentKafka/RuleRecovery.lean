import ConfluentKafka.RuleFailure
import ConfluentKafka.RuleSymmetry

/-!
# What the write rules made is taken back

An executor need not answer every message: encryption throws on what is not text or bytes. It is enough that
the read executor turns back whatever the write executor answered, as long as no failed rule is passed over: then
a write run that does not reject consists of answers only, and the read run retraces them from the last to the
first.
-/

namespace ConfluentKafka

namespace Serde

variable {μ : Type} (s : Serde μ)

/-- A failure of the rule rejects: its action is ERROR, and there is always an error to hand to it. -/
structure Strict (c : RuleContext) : Prop where
  action : s.failureAction c = "ERROR"
  answers : ∀ transform, s.getExecutor c.rule.type = some transform → ∀ m : μ,
    transform c (some m) ≠ .error .nullish ∧ (c.rule.kind = .transform → transform c (some m) ≠ .ok none)

/-- The executor answers the message, and a condition does not hold it back. -/
def PassesOn (c : RuleContext) (m : μ) : Prop :=
  ∃ transform result, s.getExecutor c.rule.type = some transform ∧ transform c (some m) = .ok result ∧
    ¬(c.rule.kind = .condition ∧ result.any s.isFalse)

/-- The rule ran without a failure and took the message to another one. -/
def Wrote (c : RuleContext) (m m' : μ) : Prop :=
  if c.rule.kind = .transform then
    ∃ transform, s.getExecutor c.rule.type = some transform ∧ transform c (some m) = .ok (some m')
  else s.PassesOn c m ∧ m' = m

def Retraceable (c : RuleContext) (m m' : μ) : Prop :=
  (s.skips c = true ∧ m' = m) ∨ (s.skips c = false ∧ s.Wrote c m m')

variable {s} {c d : RuleContext} {m m' : μ}

theorem runAction_ne_nullish (rule : Rule) (action : Option String) (msg : Option μ) (err : Thrown)
    (defaultAction : String) : s.runAction c c.ruleMode rule action msg err defaultAction ≠ .error .nullish := by
  unfold runAction
  dsimp only
  split
  · exact fun h => nomatch h
  · split
    · exact fun h => nomatch h
    · exact fun h => nomatch h

/-- A strict rule that does not reject did not fail. -/
theorem Strict.failure_none (h : s.Strict c) {after : After μ} (hr : s.runRule c (some m) = .ok after) :
    s.failure c (some m) = none := by
  rcases hf : s.failure c (some m) with _ | f
  · rfl
  · exfalso
    rcases runRule_of_failure hf h.action with ⟨_, text, herr⟩ | ⟨hno, _⟩
    · rw [herr] at hr
      cases hr
    · unfold failure at hf
      cases hx : s.getExecutor c.rule.type with
      | none =>
        simp only [hx, Option.some.injEq] at hf
        subst hf
        cases hno
      | some transform =>
        obtain ⟨hnull, hsome⟩ := h.answers transform hx m
        simp only [hx] at hf
        cases ht : transform c (some m) with
        | error error =>
          simp only [ht, Option.some.injEq] at hf
          subst hf
          have he : error = .nullish := by simpa [Failure.hasError] using hno
          exact hnull (he ▸ ht)
        | ok result =>
          simp only [ht] at hf
          split_ifs at hf with hcond hnone
          · obtain rfl := Option.some.inj hf
            cases hno
          · exact hsome hnone.1 (Option.isNone_iff_eq_none.mp hnone.2 ▸ ht)

theorem Strict.wrote (h : s.Strict c) {after : After μ} (hr : s.runRule c (some m) = .ok after) :
    ∃ m', after = .next (some m') ∧ s.Wrote c m m' := by
  have hf := h.failure_none hr
  unfold failure at hf
  cases hx : s.getExecutor c.rule.type with
  | none => simp [hx] at hf
  | some transform =>
    simp only [hx] at hf
    cases ht : transform c (some m) with
    | error error => simp [ht] at hf
    | ok result =>
      simp only [ht] at hf
      split_ifs at hf with hcond hnone
      unfold runRule at hr
      simp only [hx, ht, hcond, if_false] at hr
      have hpasses : s.PassesOn c m := ⟨transform, result, hx, ht, hcond⟩
      -- The success action rejects only with an error that the failure action gets.
      have hdone : after = .next (if c.rule.kind = .transform then result else some m) := by
        split at hr
        · exact (Except.ok.inj hr).symm
        · next error herr =>
          have hne : error ≠ .nullish := by
            rintro rfl
            exact runAction_ne_nullish _ _ _ _ _ herr
          obtain ⟨text, htext⟩ := caught_error h.action (if c.rule.kind = .transform then result else some m) hne
          rw [htext] at hr
          cases hr
      by_cases hk : c.rule.kind = .transform
      · obtain ⟨m', rfl⟩ : ∃ m', result = some m' :=
          Option.isSome_iff_exists.mp (Option.isSome_iff_ne_none.mpr fun hn => hnone ⟨hk, by simp [hn]⟩)
        rw [if_pos hk] at hdone
        exact ⟨m', hdone, by rw [Wrote, if_pos hk]; exact ⟨transform, hx, ht⟩⟩
      · rw [if_neg hk] at hdone
        exact ⟨m, hdone, by rw [Wrote, if_neg hk]; exact ⟨hpasses, rfl⟩⟩

theorem retraceable_of_run : ∀ {cs : List RuleContext} {m : μ} {out : Option μ},
    (∀ c ∈ cs, s.skips c = false → s.Strict c) → (s.runRules cs (some m)).result = .ok out →
      ∃ m', out = some m' ∧ Chain s.Retraceable cs m m'
  | [], m, out, _, hr => ⟨m, (Except.ok.inj hr).symm, .nil m⟩
  | c :: cs, m, out, hstrict, hr => by
    have hrest : ∀ d ∈ cs, s.skips d = false → s.Strict d := fun d hd => hstrict d (List.mem_cons_of_mem _ hd)
    rw [runRules] at hr
    by_cases hk : s.skips c = true
    · rw [if_pos hk] at hr
      obtain ⟨m', hout, hchain⟩ := retraceable_of_run hrest hr
      exact ⟨m', hout, .cons (.inl ⟨hk, rfl⟩) hchain⟩
    · rw [if_neg hk] at hr
      rw [Bool.not_eq_true] at hk
      cases hrun : s.runRule c (some m) with
      | error error => simp [hrun] at hr
      | ok after =>
        obtain ⟨m₁, rfl, hwrote⟩ := (hstrict c List.mem_cons_self hk).wrote hrun
        simp only [hrun] at hr
        obtain ⟨m', hout, hchain⟩ := retraceable_of_run hrest hr
        exact ⟨m', hout, .cons (.inr ⟨hk, hwrote⟩) hchain⟩

/-! ## Writing and reading -/

variable (s)

/-- What one rule has to do, in the contexts `w` and `r` it runs in when a message is written and read. -/
structure Recovers (w r : RuleContext) : Prop where
  strict : s.skips w = false → s.Strict w
  alone : w.rule.kind = .transform → w.rule.mode ≠ some .write ∧ w.rule.mode ≠ some .read
  inverts : w.rule.kind = .transform → ∀ transform, s.getExecutor w.rule.type = some transform → ∀ m m' : μ,
    transform w (some m) = .ok (some m') → transform r (some m') = .ok (some m)
  passes : w.rule.kind ≠ .transform → s.skips r = false → ∀ m : μ, (s.skips w = false → s.PassesOn w m) →
    s.PassesOn r m
  succeeds : s.skips r = false → s.Succeeds r

def RecoverableRules (call : RuleCall) : Prop :=
  ∀ target rules, call.target = some target → rulesOf (call.inMode .write) target = some rules →
    ∀ i (hi : i < rules.length),
      s.Recovers (s.context (call.inMode .write) target rules i rules[i])
        (s.context (call.inMode .read) target rules.reverse (rules.length - 1 - i) rules[i])

variable {s}

theorem PassesOn.carries (hp : s.PassesOn c m) (hk : s.skips c = false) (ht : c.rule.kind ≠ .transform)
    (hs : s.Succeeds c) : s.Carries c m m := by
  obtain ⟨transform, result, hx, hr, hc⟩ := hp
  right
  refine ⟨hk, ?_⟩
  simp [runRule, hx, hr, hc, ht, hs m]

theorem Recovers.carries {w r : RuleContext} (h : s.Recovers w r) (hrule : r.rule = w.rule)
    (henv : r.enabledEnv = w.enabledEnv) (hw : w.ruleMode = .write) (hr : r.ruleMode = .read)
    (hm : s.Retraceable w m m') : s.Carries r m' m := by
  by_cases ht : w.rule.kind = .transform
  · obtain ⟨hnw, hnr⟩ := h.alone ht
    have hmode : modeApplies w.rule.mode r.ruleMode = modeApplies w.rule.mode w.ruleMode := by
      rw [hw, hr]
      unfold modeApplies
      split <;> simp_all
    have hskips := skips_eq (s := s) hrule henv hmode
    rcases hm with ⟨hk, rfl⟩ | ⟨hk, hwrote⟩
    · exact .inl ⟨hskips.trans hk, rfl⟩
    · rw [Wrote, if_pos ht] at hwrote
      obtain ⟨transform, hx, hanswer⟩ := hwrote
      exact carries_of_transform (by rw [hrule, hx]) (h.inverts ht transform hx m m' hanswer) (hskips.trans hk)
        (by rw [hrule, ht]) (h.succeeds (hskips.trans hk))
  · have hsame : m' = m ∧ (s.skips w = false → s.PassesOn w m) := by
      rcases hm with ⟨hk, rfl⟩ | ⟨_, hwrote⟩
      · exact ⟨rfl, fun hk' => by rw [hk] at hk'; cases hk'⟩
      · rw [Wrote, if_neg ht] at hwrote
        exact ⟨hwrote.2, fun _ => hwrote.1⟩
    obtain ⟨rfl, hpasses⟩ := hsame
    by_cases hk : s.skips r = true
    · exact .inl ⟨hk, rfl⟩
    · rw [Bool.not_eq_true] at hk
      exact (h.passes ht hk m' hpasses).carries hk (by rw [hrule]; exact ht) (h.succeeds hk)

/-- Reading gives back any message that was written without a rejection. -/
theorem recover (s : Serde μ) {call : RuleCall} (h : s.RecoverableRules call) {m : μ} {out : Option μ}
    (hw : (s.executeRulesWithPhase (call.inMode .write) (some m)).result = .ok out) :
    ∃ m', out = some m' ∧ (s.executeRulesWithPhase (call.inMode .read) (some m')).result = .ok (some m) := by
  cases ht : call.target with
  | none =>
    refine ⟨m, ?_, ?_⟩
    · simpa [executeRulesWithPhase, RuleCall.inMode, ht] using hw.symm
    · simp [executeRulesWithPhase, RuleCall.inMode, ht]
  | some target =>
    have hread := rulesOf_read call target
    cases hrs : rulesOf (call.inMode .write) target with
    | none =>
      rw [hrs] at hread
      rw [execute_none (by exact ht) hrs] at hw
      exact ⟨m, (Except.ok.inj hw).symm, by rw [execute_none (by exact ht) hread]⟩
    | some rules =>
      rw [hrs] at hread
      rw [execute_some (by exact ht) hrs] at hw
      have hstrict : ∀ c ∈ s.contexts (call.inMode .write) target rules, s.skips c = false → s.Strict c := by
        intro c hc
        obtain ⟨i, hi, rfl⟩ := List.getElem_of_mem hc
        have hlt : i < rules.length := by simpa [contexts] using hi
        simpa [contexts] using (h target rules ht hrs i hlt).strict
      obtain ⟨m', rfl, hchain⟩ := retraceable_of_run hstrict hw
      have hback : List.Forall₂ (fun w r => ∀ m m', s.Retraceable w m m' → s.Carries r m' m)
          (s.contexts (call.inMode .write) target rules)
          (s.contexts (call.inMode .read) target rules.reverse).reverse := by
        rw [List.forall₂_iff_get]
        refine ⟨by simp [contexts], fun i hi hi' m m' hm => ?_⟩
        have hlt : i < rules.length := by simpa [contexts] using hi
        rw [List.get_eq_getElem, contexts_reverse s (call.inMode .read) target rules i hi' hlt]
        have hcontext : (s.contexts (call.inMode .write) target rules).get ⟨i, hi⟩ =
            s.context (call.inMode .write) target rules i rules[i] := by simp [contexts]
        rw [hcontext] at hm
        exact (h target rules ht hrs i hlt).carries rfl rfl rfl rfl hm
      have hchain' := hchain.undo hback
      rw [List.reverse_reverse] at hchain'
      exact ⟨m', rfl, by rw [execute_some (by exact ht) hread, result_of_chain hchain']⟩

end Serde

end ConfluentKafka
