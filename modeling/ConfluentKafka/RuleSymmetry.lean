import ConfluentKafka.Chain
import ConfluentKafka.Rules

/-!
# Rules that undo each other

Executing a rule list in one direction and the reversed list in the other gives the message
back when every rule is undone by its counterpart. The order of the second list has to be
exactly the reverse of the first, and both directions have to skip the same rules.
-/

namespace ConfluentKafka

def RuleCall.inMode (call : RuleCall) (ruleMode : RuleMode) : RuleCall := { call with ruleMode := ruleMode }

namespace Serde

variable {μ : Type} (s : Serde μ)

/-- The rule is skipped, or takes the message to another one and lets the loop go on. -/
def Carries (ctx : RuleContext) (m m' : μ) : Prop :=
  (s.skips ctx = true ∧ m' = m) ∨ (s.skips ctx = false ∧ s.runRule ctx (some m) = .ok (.next (some m')))

variable {s} {cs : List RuleContext} {m m' : μ}

theorem result_of_chain (h : Chain s.Carries cs m m') : (s.runRules cs (some m)).result = .ok (some m') := by
  induction h with
  | nil => rfl
  | cons hc _ ih =>
    rw [runRules]
    rcases hc with ⟨hk, rfl⟩ | ⟨hk, hr⟩
    · rw [if_pos hk]
      exact ih
    · simp only [hk, hr]
      exact ih

theorem contexts_reverse (s : Serde μ) (call : RuleCall) (target : SchemaInfo) (rules : List Rule) (i : Nat)
    (hi : i < (s.contexts call target rules.reverse).reverse.length) (hi' : i < rules.length) :
    (s.contexts call target rules.reverse).reverse[i] =
      s.context call target rules.reverse (rules.length - 1 - i) rules[i] := by
  simp [contexts]

/-- A list of rules under one call, then the reversed list under another. -/
theorem runRules_undo {call back : RuleCall} {target target' : SchemaInfo} {rules : List Rule}
    (hu : ∀ i (hi : i < rules.length), Undoes s.Carries s.Carries (s.context call target rules i rules[i])
      (s.context back target' rules.reverse (rules.length - 1 - i) rules[i])) (m : μ) :
    ∃ m', (s.runRules (s.contexts call target rules) (some m)).result = .ok (some m') ∧
      (s.runRules (s.contexts back target' rules.reverse) (some m')).result = .ok (some m) := by
  have hf : List.Forall₂ (Undoes s.Carries s.Carries) (s.contexts call target rules)
      (s.contexts back target' rules.reverse).reverse := by
    rw [List.forall₂_iff_get]
    refine ⟨by simp [contexts], fun i hi hi' => ?_⟩
    have hlt : i < rules.length := by simpa [contexts] using hi
    rw [List.get_eq_getElem, List.get_eq_getElem, contexts_reverse s back target' rules i hi' hlt]
    simpa [contexts] using hu i hlt
  obtain ⟨m', hcs, hds⟩ := chain_undo hf m
  rw [List.reverse_reverse] at hds
  exact ⟨m', result_of_chain hcs, result_of_chain hds⟩

theorem execute_some {call : RuleCall} {target : SchemaInfo} {rules : List Rule} (ht : call.target = some target)
    (hrs : rulesOf call target = some rules) (m : μ) :
    s.executeRulesWithPhase call (some m) = s.runRules (s.contexts call target rules) (some m) := by
  simp [executeRulesWithPhase, ht, hrs]

theorem execute_none {call : RuleCall} {target : SchemaInfo} (ht : call.target = some target)
    (hrs : rulesOf call target = none) (m : μ) : s.executeRulesWithPhase call (some m) = ⟨[], .ok (some m)⟩ := by
  simp [executeRulesWithPhase, ht, hrs]

/-! ## What single rules have to do -/

variable (s)

def Succeeds (c : RuleContext) : Prop :=
  ∀ m, s.runAction c c.ruleMode c.rule (s.getOnSuccess c.rule) (some m) .nullish "NONE" = .ok ()

/-- The executor is found, does not throw and, for a condition, does not answer false. -/
def Passes (c : RuleContext) : Prop :=
  ∃ transform, s.getExecutor c.rule.type = some transform ∧
    ∀ m, ∃ result, transform c (some m) = .ok result ∧ ¬(c.rule.kind = .condition ∧ result.any s.isFalse)

/-- Run under `c` and then under `d`, the executor answers every message with a message, the second
time with the one it was given first. -/
def Inverts (c d : RuleContext) : Prop :=
  ∃ transform, s.getExecutor c.rule.type = some transform ∧
    ∀ m, ∃ m', transform c (some m) = .ok (some m') ∧ transform d (some m') = .ok (some m)

variable {s} {c d : RuleContext}

theorem Passes.carries (hp : s.Passes c) (hk : s.skips c = false) (ht : c.rule.kind ≠ .transform)
    (hs : s.Succeeds c) (m : μ) : s.Carries c m m := by
  right
  obtain ⟨transform, hx, hp⟩ := hp
  obtain ⟨result, hr, hc⟩ := hp m
  refine ⟨hk, ?_⟩
  simp [runRule, hx, hr, hc, ht, hs m]

theorem carries_of_transform {transform : RuleExecutor μ} (hx : s.getExecutor c.rule.type = some transform)
    (hr : transform c (some m) = .ok (some m')) (hk : s.skips c = false) (ht : c.rule.kind = .transform)
    (hs : s.Succeeds c) : s.Carries c m m' := by
  right
  refine ⟨hk, ?_⟩
  simp [runRule, hx, hr, ht, hs m']

theorem Inverts.undoes (hi : s.Inverts c d) (hrule : d.rule = c.rule) (ht : c.rule.kind = .transform)
    (hc : s.skips c = false) (hd : s.skips d = false) (hsc : s.Succeeds c) (hsd : s.Succeeds d) :
    Undoes s.Carries s.Carries c d := by
  obtain ⟨transform, hx, hi⟩ := hi
  intro m
  obtain ⟨m', h₁, h₂⟩ := hi m
  refine ⟨m', carries_of_transform hx h₁ hc ht hsc, ?_⟩
  exact carries_of_transform (by rw [hrule, hx]) h₂ hd (by rw [hrule, ht]) hsd

/-- A rule that is not a transform leaves the message alone, whether or not it is skipped. -/
theorem carries_self (hs : s.skips c = false → s.Succeeds c) (hp : s.skips c = false → s.Passes c)
    (ht : c.rule.kind ≠ .transform) (m : μ) : s.Carries c m m := by
  by_cases hk : s.skips c = true
  · exact .inl ⟨hk, rfl⟩
  · rw [Bool.not_eq_true] at hk
    exact (hp hk).carries hk ht (hs hk) m

/-! ## Writing and reading -/

variable (s)

/-- What a symmetric rule set asks of one rule, in the contexts `w` and `r` it runs in when the message
is written and read. -/
structure Symmetric (w r : RuleContext) : Prop where
  inverts : s.skips w = false → w.rule.kind = .transform → w.rule.mode = some .writeread → s.Inverts w r
  alone : w.rule.kind = .transform → w.rule.mode ≠ some .write ∧ w.rule.mode ≠ some .read
  passes : ∀ c ∈ [w, r], s.skips c = false → c.rule.kind ≠ .transform → s.Passes c
  succeeds : ∀ c ∈ [w, r], s.skips c = false → s.Succeeds c

def SymmetricRules (call : RuleCall) : Prop :=
  ∀ target rules, call.target = some target → rulesOf (call.inMode .write) target = some rules →
    ∀ i (hi : i < rules.length),
      s.Symmetric (s.context (call.inMode .write) target rules i rules[i])
        (s.context (call.inMode .read) target rules.reverse (rules.length - 1 - i) rules[i])

variable {s}

theorem rulesOf_read (call : RuleCall) (target : SchemaInfo) :
    rulesOf (call.inMode .read) target =
      (rulesOf (call.inMode .write) target).map List.reverse := by
  unfold rulesOf RuleCall.inMode
  cases call.rulePhase <;> rfl

/-- Both directions read the same override, environment and flag. -/
theorem skips_eq (hrule : d.rule = c.rule) (henv : d.enabledEnv = c.enabledEnv)
    (hmode : modeApplies c.rule.mode d.ruleMode = modeApplies c.rule.mode c.ruleMode) : s.skips d = s.skips c := by
  simp [skips, isDisabled, hrule, henv, hmode]

theorem Symmetric.undoes {w r : RuleContext} (h : s.Symmetric w r) (hrule : r.rule = w.rule)
    (henv : r.enabledEnv = w.enabledEnv) (hw : w.ruleMode = .write) (hr : r.ruleMode = .read) :
    Undoes s.Carries s.Carries w r := by
  by_cases ht : w.rule.kind = .transform
  · obtain ⟨hnw, hnr⟩ := h.alone ht
    have hmode : modeApplies w.rule.mode r.ruleMode = modeApplies w.rule.mode w.ruleMode := by
      rw [hw, hr]
      unfold modeApplies
      split <;> simp_all
    have hskips := skips_eq (s := s) hrule henv hmode
    by_cases hk : s.skips w = true
    · exact fun m => ⟨m, .inl ⟨hk, rfl⟩, .inl ⟨hskips.trans hk, rfl⟩⟩
    · rw [Bool.not_eq_true] at hk
      have hwr : w.rule.mode = some .writeread := by
        have hm : modeApplies w.rule.mode w.ruleMode = true := by
          unfold skips at hk
          simp_all
        rw [hw] at hm
        unfold modeApplies at hm
        split at hm <;> simp_all
      exact (h.inverts hk ht hwr).undoes hrule ht hk (hskips.trans hk) (h.succeeds w (by simp) hk)
        (h.succeeds r (by simp) (hskips.trans hk))
  · intro m
    refine ⟨m, ?_, ?_⟩
    · exact carries_self (h.succeeds w (by simp)) (fun hk => h.passes w (by simp) hk ht) ht m
    · rw [← hrule] at ht
      exact carries_self (h.succeeds r (by simp)) (fun hk => h.passes r (by simp) hk ht) ht m

/-- Reading a message back through a symmetric rule set gives the message that was written. -/
theorem read_write (s : Serde μ) (call : RuleCall) (h : s.SymmetricRules call) (msg : Option μ) :
    ∃ written, (s.executeRulesWithPhase (call.inMode .write) msg).result = .ok written ∧
      (s.executeRulesWithPhase (call.inMode .read) written).result = .ok msg := by
  cases msg with
  | none => exact ⟨none, rfl, rfl⟩
  | some m =>
    cases ht : call.target with
    | none =>
      refine ⟨some m, ?_, ?_⟩
      all_goals simp [executeRulesWithPhase, RuleCall.inMode, ht]
    | some target =>
      have hread := rulesOf_read call target
      cases hrs : rulesOf (call.inMode .write) target with
      | none =>
        rw [hrs] at hread
        refine ⟨some m, ?_, ?_⟩
        · rw [execute_none (by exact ht) hrs]
        · rw [execute_none (by exact ht) hread]
      | some rules =>
        rw [hrs] at hread
        have hu : ∀ i (hi : i < rules.length), Undoes s.Carries s.Carries
            (s.context (call.inMode .write) target rules i rules[i])
            (s.context (call.inMode .read) target rules.reverse (rules.length - 1 - i) rules[i]) := by
          intro i hi
          apply (h target rules ht hrs i hi).undoes
          all_goals rfl
        obtain ⟨m', h₁, h₂⟩ := runRules_undo hu m
        refine ⟨some m', ?_, ?_⟩
        · rw [execute_some (by exact ht) hrs, h₁]
        · rw [execute_some (by exact ht) hread, h₂]

def shifting : Serde Int where
  isKey := false
  isFalse := fun _ => false
  getExecutor := fun type => some fun ctx msg => .ok (msg.map fun m =>
    if type = "NEGATE" then -m
    else if type = "SHIFT" then (if ctx.ruleMode = .write then m + 1 else m - 1)
    else m)
  getAction := fun _ => none
  getOverride := fun _ => none

def shiftRules : List Rule :=
  [{ name := "shift", kind := .transform, mode := some .writeread, type := "SHIFT" },
    { name := "check", kind := .condition, mode := some .write, type := "CHECK" },
    { name := "negate", kind := .transform, mode := some .writeread, type := "NEGATE" }]

def shiftCall : RuleCall where
  subject := "orders-value"
  topic := "orders"
  rulePhase := .domain
  ruleMode := .write
  source := none
  target := some { schema := "{}", ruleSet := some { domainRules := some shiftRules } }

theorem read_write_shift : shifting.SymmetricRules shiftCall ∧
    ∃ written, (shifting.executeRulesWithPhase (shiftCall.inMode .write) (some 5)).result = .ok written ∧
      (shifting.executeRulesWithPhase (shiftCall.inMode .read) written).result = .ok (some 5) := by
  have hp : ∀ c, shifting.Passes c := fun c => ⟨_, rfl, fun m => ⟨_, rfl, by simp [shifting]⟩⟩
  have hs : ∀ c, c.rule.onSuccess = none → shifting.Succeeds c := by
    intro c hn m
    simp [runAction, getOnSuccess, shifting, hn, getRuleActionName, getRuleAction, NoneAction]
  have h : shifting.SymmetricRules shiftCall := by
    intro target rules ht hrs i hi
    obtain rfl := Option.some.inj ht
    obtain rfl := Option.some.inj hrs
    match i, hi with
    | 0, _ =>
      refine ⟨fun _ _ _ => ⟨_, rfl, fun m => ⟨m + 1, rfl, ?_⟩⟩, fun _ => by simp [context, shiftRules],
        fun c _ _ _ => hp c, ?_⟩
      · show Except.ok (some (m + 1 - 1)) = _
        simp
      · simpa using ⟨fun _ => hs _ rfl, fun _ => hs _ rfl⟩
    | 1, _ =>
      refine ⟨fun _ ht => absurd ht (by simp [context, shiftRules]), fun ht =>
        absurd ht (by simp [context, shiftRules]),
        fun c _ _ _ => hp c, ?_⟩
      simpa using ⟨fun _ => hs _ rfl, fun _ => hs _ rfl⟩
    | 2, _ =>
      refine ⟨fun _ _ _ => ⟨_, rfl, fun m => ⟨-m, rfl, ?_⟩⟩, fun _ => by simp [context, shiftRules],
        fun c _ _ _ => hp c, ?_⟩
      · show Except.ok (some (- -m)) = _
        simp
      · simpa using ⟨fun _ => hs _ rfl, fun _ => hs _ rfl⟩
  exact ⟨h, read_write shifting shiftCall h (some 5)⟩

end Serde

end ConfluentKafka
