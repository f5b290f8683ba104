import ConfluentKafka.Rules

/-!
# Rules that fail

What a failed rule does to the rest of its list when the failure action is ERROR. The action
reads the message of the error it is given, so it only rejects where there is one: a
transform without a result runs it with null, and the `TypeError` it throws is swallowed.
-/

namespace ConfluentKafka

inductive Failure where
  | noExecutor
  | threw (error : Thrown)
  | condition
  | noResult
deriving DecidableEq, Repr

/-- Whether the failure comes with an error that is not null or undefined. -/
def Failure.hasError : Failure → Bool
  | .noExecutor => true
  | .threw error => error ≠ .nullish
  | .condition => true
  | .noResult => false

/-- The run rejects with a `SerializationError`, and reaches no rule after the given one. -/
def RuleRun.StopsAt {μ : Type} (run : RuleRun μ) (ctx : RuleContext) : Prop :=
  (∃ text, run.result = .error (.serialization text)) ∧ ∀ x ∈ run.reached, x.1.index ≤ ctx.index

namespace Serde

variable {μ : Type} (s : Serde μ)

def failure (ctx : RuleContext) (msg : Option μ) : Option Failure :=
  match s.getExecutor ctx.rule.type with
  | none => some .noExecutor
  | some transform =>
    match transform ctx msg with
    | .error error => some (.threw error)
    | .ok result =>
      if ctx.rule.kind = .condition ∧ result.any s.isFalse then some .condition
      else if ctx.rule.kind = .transform ∧ result.isNone then some .noResult
      else none

def failureAction (ctx : RuleContext) : String :=
  (getRuleActionName ctx.rule ctx.ruleMode (s.getOnFailure ctx.rule)).getD "ERROR"

variable {s} {ctx : RuleContext} {msg : Option μ}

/-! ## One rule -/

theorem runAction_nullish (ha : s.failureAction ctx = "ERROR") (msg : Option μ) :
    s.runAction ctx ctx.ruleMode ctx.rule (s.getOnFailure ctx.rule) msg .nullish "ERROR" = .ok () := by
  unfold runAction
  unfold failureAction at ha
  rw [ha]
  simp [getRuleAction, ErrorAction]

theorem runAction_error (ha : s.failureAction ctx = "ERROR") (msg : Option μ) {error : Thrown}
    (he : error ≠ .nullish) :
    ∃ text, s.runAction ctx ctx.ruleMode ctx.rule (s.getOnFailure ctx.rule) msg error "ERROR" =
      .error (.serialization text) := by
  unfold runAction
  unfold failureAction at ha
  rw [ha]
  cases error with
  | serialization message => simp [getRuleAction, ErrorAction]
  | error message => simp [getRuleAction, ErrorAction]
  | nullish => exact absurd rfl he

theorem caught_error (ha : s.failureAction ctx = "ERROR") (msg : Option μ) {error : Thrown}
    (he : error ≠ .nullish) : ∃ text, s.caught ctx msg error = .error (.serialization text) := by
  cases error with
  | serialization message => exact ⟨message, rfl⟩
  | error message =>
    obtain ⟨text, ht⟩ := runAction_error ha msg he
    refine ⟨text, ?_⟩
    simp [caught, ht, bind, Except.bind]
  | nullish => exact absurd rfl he

theorem caught_nullish (ha : s.failureAction ctx = "ERROR") (msg : Option μ) :
    s.caught ctx msg .nullish = .ok (.next msg) := by
  simp [caught, runAction_nullish ha, bind, Except.bind, pure, Except.pure]

/-- A failure with an error rejects; one without lets the loop go on. -/
theorem runRule_of_failure {f : Failure} (hf : s.failure ctx msg = some f) (ha : s.failureAction ctx = "ERROR") :
    (f.hasError = true ∧ ∃ text, s.runRule ctx msg = .error (.serialization text)) ∨
      (f.hasError = false ∧ ∃ msg', s.runRule ctx msg = .ok (.next msg')) := by
  unfold failure at hf
  unfold runRule
  cases hx : s.getExecutor ctx.rule.type with
  | none =>
    simp only [hx, Option.some.injEq] at hf ⊢
    subst hf
    left
    have he : Thrown.error ("could not find rule executor of type " ++ ctx.rule.type) ≠ .nullish := by simp
    obtain ⟨text, ht⟩ := runAction_error ha msg he
    refine ⟨rfl, text, ?_⟩
    simp [ht, bind, Except.bind]
  | some transform =>
    simp only [hx] at hf ⊢
    cases hr : transform ctx msg with
    | error error =>
      simp only [hr, Option.some.injEq] at hf ⊢
      subst hf
      by_cases he : error = .nullish
      · subst he
        right
        exact ⟨rfl, msg, caught_nullish ha msg⟩
      · left
        refine ⟨by simp [Failure.hasError, he], ?_⟩
        exact caught_error ha msg he
    | ok result =>
      simp only [hr] at hf ⊢
      by_cases hc : ctx.rule.kind = .condition ∧ result.any s.isFalse
      · rw [if_pos hc, Option.some.injEq] at hf
        rw [if_pos hc]
        subst hf
        left
        exact ⟨rfl, caught_error ha msg (by simp)⟩
      · rw [if_neg hc] at hf ⊢
        by_cases hn : ctx.rule.kind = .transform ∧ result.isNone
        · rw [if_pos hn, Option.some.injEq] at hf
          subst hf
          right
          have hm : result = none := by simpa using hn.2
          refine ⟨rfl, none, ?_⟩
          simp [hn.1, hm, runAction_nullish ha]
        · rw [if_neg hn] at hf
          cases hf

/-! ## The loop -/

theorem mem_of_reached : ∀ {cs : List RuleContext} {msg : Option μ} {x : RuleContext × Option μ},
    x ∈ (s.runRules cs msg).reached → x.1 ∈ cs
  | [], msg, x, h => by simp [runRules] at h
  | c :: cs, msg, x, h => by
    unfold runRules at h
    by_cases hk : s.skips c
    · rw [if_pos hk] at h
      exact List.mem_cons_of_mem _ (mem_of_reached h)
    · rw [if_neg hk] at h
      cases hr : s.runRule c msg with
      | error error =>
        simp only [hr, List.mem_singleton] at h
        rw [h]
        exact List.mem_cons_self
      | ok after =>
        cases after with
        | finish msg' =>
          simp only [hr, List.mem_singleton] at h
          rw [h]
          exact List.mem_cons_self
        | next msg' =>
          simp only [hr, List.mem_cons] at h
          rcases h with rfl | h
          · exact List.mem_cons_self
          · exact List.mem_cons_of_mem _ (mem_of_reached h)

theorem result_of_reached_nil : ∀ {cs : List RuleContext} {msg : Option μ},
    (s.runRules cs msg).reached = [] → (s.runRules cs msg).result = .ok msg
  | [], msg, _ => rfl
  | c :: cs, msg, h => by
    unfold runRules at h ⊢
    by_cases hk : s.skips c
    · rw [if_pos hk] at h ⊢
      exact result_of_reached_nil h
    · rw [if_neg hk] at h
      cases hr : s.runRule c msg with
      | error error => simp [hr] at h
      | ok after => cases after <;> simp [hr] at h

/-- Where the run goes on from a reached rule: the rule's own outcome ends it, or the rest of the
rules, all of them later ones, decides it. -/
theorem reached_split : ∀ {cs : List RuleContext} {msg : Option μ} {m : Option μ},
    cs.Pairwise (fun a b => a.index < b.index) → (ctx, m) ∈ (s.runRules cs msg).reached →
    (∀ e, s.runRule ctx m = .error e → (s.runRules cs msg).result = .error e ∧
      ∀ x ∈ (s.runRules cs msg).reached, x.1.index ≤ ctx.index) ∧
    (∀ m', s.runRule ctx m = .ok (.next m') → ∃ rest, (∀ c ∈ rest, ctx.index < c.index) ∧
      (s.runRules cs msg).result = (s.runRules rest m').result ∧
      ∀ x ∈ (s.runRules rest m').reached, x ∈ (s.runRules cs msg).reached)
  | [], msg, m, _, h => by simp [runRules] at h
  | c :: cs, msg, m, hp, h => by
    obtain ⟨hc, hp'⟩ := List.pairwise_cons.mp hp
    by_cases hk : s.skips c
    · have hrun : s.runRules (c :: cs) msg = s.runRules cs msg := by rw [runRules, if_pos hk]
      rw [hrun] at h ⊢
      exact reached_split hp' h
    · have hrun := if_neg hk ▸ runRules.eq_2 s msg c cs
      cases hr : s.runRule c msg with
      | error error =>
        simp only [hr] at hrun
        rw [hrun] at h ⊢
        obtain ⟨rfl, rfl⟩ : ctx = c ∧ m = msg := by simpa using h
        refine ⟨fun e he => ?_, fun m' hm => ?_⟩
        · rw [hr] at he
          cases he
          exact ⟨rfl, by simp⟩
        · rw [hr] at hm
          cases hm
      | ok after =>
        cases after with
        | finish msg' =>
          simp only [hr] at hrun
          rw [hrun] at h ⊢
          obtain ⟨rfl, rfl⟩ : ctx = c ∧ m = msg := by simpa using h
          refine ⟨fun e he => ?_, fun m' hm => ?_⟩
          · rw [hr] at he
            cases he
          · rw [hr] at hm
            cases hm
        | next msg' =>
          simp only [hr] at hrun
          rw [hrun] at h ⊢
          rcases List.mem_cons.mp h with heq | hmem
          · obtain ⟨rfl, rfl⟩ : ctx = c ∧ m = msg := by simpa using heq
            refine ⟨fun e he => ?_, fun m' hm => ?_⟩
            · rw [hr] at he
              cases he
            · rw [hr] at hm
              cases hm
              exact ⟨cs, hc, rfl, fun x hx => List.mem_cons_of_mem _ hx⟩
          · obtain ⟨hstop, hgo⟩ := reached_split hp' hmem
            refine ⟨fun e he => ?_, fun m' hm => ?_⟩
            · obtain ⟨hres, hle⟩ := hstop e he
              refine ⟨hres, fun x hx => ?_⟩
              rcases List.mem_cons.mp hx with rfl | hx
              · exact Nat.le_of_lt (hc ctx (mem_of_reached hmem))
              · exact hle x hx
            · obtain ⟨rest, hlt, hres, hsub⟩ := hgo m' hm
              exact ⟨rest, hlt, hres, fun x hx => List.mem_cons_of_mem _ (hsub x hx)⟩

theorem contexts_increasing (s : Serde μ) (call : RuleCall) (target : SchemaInfo) (rules : List Rule) :
    (s.contexts call target rules).Pairwise fun a b => a.index < b.index := by
  rw [List.pairwise_iff_getElem]
  intro i j hi hj hij
  simpa [contexts, context] using hij

theorem stopsAt_iff {cs : List RuleContext} {m : Option μ} {f : Failure}
    (hp : cs.Pairwise fun a b => a.index < b.index) (hr : (ctx, m) ∈ (s.runRules cs msg).reached)
    (hf : s.failure ctx m = some f) (ha : s.failureAction ctx = "ERROR") :
    (s.runRules cs msg).StopsAt ctx ↔ f.hasError = true := by
  obtain ⟨hstop, hgo⟩ := reached_split hp hr
  rcases runRule_of_failure hf ha with ⟨he, text, ht⟩ | ⟨he, m', hm⟩
  · obtain ⟨hres, hle⟩ := hstop _ ht
    exact ⟨fun _ => he, fun _ => ⟨⟨text, hres⟩, hle⟩⟩
  · rw [he]
    simp only [Bool.false_eq_true, iff_false]
    rintro ⟨⟨text, hres⟩, hle⟩
    obtain ⟨rest, hlt, hrest, hsub⟩ := hgo m' hm
    have hnil : (s.runRules rest m').reached = [] := by
      apply List.eq_nil_iff_forall_not_mem.mpr
      intro x hx
      have h₁ := hle x (hsub x hx)
      have h₂ := hlt x.1 (mem_of_reached hx)
      omega
    rw [hrest, result_of_reached_nil hnil] at hres
    cases hres

/-- A rule that fails while its failure action is ERROR rejects the message and keeps later rules
from running exactly when its failure comes with an error. -/
theorem failure_rejects (s : Serde μ) (call : RuleCall) (msg : Option μ) {ctx : RuleContext} {m : Option μ}
    (hr : (ctx, m) ∈ (s.executeRulesWithPhase call msg).reached) {f : Failure}
    (hf : s.failure ctx m = some f) (ha : s.failureAction ctx = "ERROR") :
    (s.executeRulesWithPhase call msg).StopsAt ctx ↔ f.hasError = true := by
  unfold executeRulesWithPhase at hr ⊢
  cases msg with
  | none => simp at hr
  | some m₀ =>
    cases ht : call.target with
    | none => simp [ht] at hr
    | some target =>
      cases hrs : rulesOf call target with
      | none => simp [ht, hrs] at hr
      | some rules =>
        simp only [ht, hrs] at hr ⊢
        exact stopsAt_iff (s.contexts_increasing call target rules) hr hf ha

def dropping : Serde Nat where
  isKey := false
  isFalse := fun _ => false
  getExecutor := fun _ => some fun _ msg => if msg = some 0 then .error (.error "zero") else .ok none
  getAction := fun _ => none
  getOverride := fun _ => none

def dropRule : Rule := { name := "drop", kind := .transform, mode := some .write, type := "DROP" }

def dropCall : RuleCall where
  subject := "orders-value"
  topic := "orders"
  rulePhase := .domain
  ruleMode := .write
  source := none
  target := some { schema := "{}", ruleSet := some { domainRules := some [dropRule, dropRule] } }

def dropContext : RuleContext :=
  dropping.context dropCall { schema := "{}", ruleSet := some { domainRules := some [dropRule, dropRule] } }
    [dropRule, dropRule] 0 dropRule

theorem failure_rejects_thrown :
    (dropContext, some 0) ∈ (dropping.executeRulesWithPhase dropCall (some 0)).reached ∧
      (dropping.executeRulesWithPhase dropCall (some 0)).StopsAt dropContext := by
  have hr : (dropContext, some 0) ∈ (dropping.executeRulesWithPhase dropCall (some 0)).reached :=
    List.mem_cons_self
  exact ⟨hr, (failure_rejects dropping dropCall (some 0) hr (f := .threw (.error "zero")) rfl rfl).mpr rfl⟩

theorem noResult_not_rejected :
    ¬ ∀ (s : Serde Nat) (call : RuleCall) (msg : Option Nat) (ctx : RuleContext) (m : Option Nat) (f : Failure),
      (ctx, m) ∈ (s.executeRulesWithPhase call msg).reached → s.failure ctx m = some f →
        s.failureAction ctx = "ERROR" → (s.executeRulesWithPhase call msg).StopsAt ctx := by
  intro h
  have hr : (dropContext, some 1) ∈ (dropping.executeRulesWithPhase dropCall (some 1)).reached :=
    List.mem_cons_self
  obtain ⟨⟨text, ht⟩, _⟩ := h dropping dropCall (some 1) dropContext (some 1) .noResult hr rfl rfl
  have hok : (dropping.executeRulesWithPhase dropCall (some 1)).result = .ok none := rfl
  rw [hok] at ht
  cases ht

end Serde

end ConfluentKafka
