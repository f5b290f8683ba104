import ConfluentKafka.RuleFailure
import Mathlib.Order.WellFounded

/-!
# Field rules and duplicate transforms

`FieldRuleExecutor.transform` of `serde.ts` leaves the message alone when another rule of the list
is the same transform. Arrays have an identity, and `===` compares it: `ids i` is the identity of the
tags array that the rule at position `i` of the executed list holds.
-/

namespace ConfluentKafka

structure TagArray where
  id : Nat
  elements : List String
deriving DecidableEq, Repr

def Rule.tagArray (rule : Rule) (id : Nat) : Option TagArray := rule.tags.map (TagArray.mk id)

def Rule.hasTags (rule : Rule) : Bool := rule.tags.any (0 < ·.length)

def areTransformsWithSameTag (rule1 : Rule) (id1 : Nat) (rule2 : Rule) (id2 : Nat) : Bool :=
  rule1.hasTags && rule1.kind = .transform && rule1.kind = rule2.kind && rule1.mode = rule2.mode &&
    rule1.type = rule2.type && rule1.tagArray id1 = rule2.tagArray id2

namespace FieldRuleExecutor

/-- The rules `transform` compares a rule with. -/
def others (ctx : RuleContext) : List Nat :=
  match ctx.ruleMode with
  | .write | .upgrade => List.range ctx.index
  | .read | .downgrade => List.range' (ctx.index + 1) (ctx.rules.length - (ctx.index + 1))
  | _ => []

def ignores (ids : Nat → Nat) (ctx : RuleContext) : Bool :=
  (others ctx).any fun i =>
    ctx.rules[i]?.any fun otherRule => areTransformsWithSameTag ctx.rule (ids ctx.index) otherRule (ids i)

/-- `fieldTransformer` walks the message with the transform that `newTransform` makes. -/
def transform {μ : Type} (ids : Nat → Nat) (fieldTransformer : RuleExecutor μ) : RuleExecutor μ :=
  fun ctx msg => if ignores ids ctx then .ok msg else fieldTransformer ctx msg

end FieldRuleExecutor

/-- The field rule executors of a registry, by the rule types they are registered for. -/
abbrev FieldExecutors (μ : Type) := String → Option (RuleExecutor μ)

def Serde.withFieldRules {μ : Type} (s : Serde μ) (ids : Nat → Nat) (fields : FieldExecutors μ) : Serde μ :=
  { s with
    getExecutor := fun type =>
      match fields type with
      | some fieldTransformer => some (FieldRuleExecutor.transform ids fieldTransformer)
      | none => s.getExecutor type }

/-! ## Which rules are executed, and which are applied -/

def RuleContext.declared (ctx : RuleContext) (i : Nat) : Nat :=
  match ctx.ruleMode with
  | .read | .downgrade => ctx.rules.length - 1 - i
  | _ => i

/-- Transforms of one kind, mode and type with the same non-empty list of tags. -/
def Duplicates (rule1 rule2 : Rule) : Prop :=
  rule1.hasTags ∧ rule1.kind = .transform ∧ rule1.kind = rule2.kind ∧ rule1.mode = rule2.mode ∧
    rule1.type = rule2.type ∧ rule1.tags = rule2.tags

instance (rule1 rule2 : Rule) : Decidable (Duplicates rule1 rule2) := by
  unfold Duplicates
  infer_instance

namespace RuleRun

variable {μ : Type} (run : RuleRun μ) (ids : Nat → Nat) (fields : FieldExecutors μ)

def executed : List RuleContext :=
  (run.reached.map Prod.fst).filter fun ctx => (fields ctx.rule.type).isSome

/-- Among the executed duplicates of a rule one is applied, the first in declaration order. -/
def OneApplied : Prop :=
  ∀ c ∈ run.executed fields, c.rule.hasTags → c.rule.kind = .transform →
    ∃ first ∈ run.executed fields, Duplicates c.rule first.rule ∧
      ∀ d ∈ run.executed fields, Duplicates c.rule d.rule →
        first.declared first.index ≤ d.declared d.index ∧
          (FieldRuleExecutor.ignores ids d = false ↔ d.index = first.index)

/-- An executed rule has an executed duplicate declared before it just when a transform of the same
mode and type declared before it holds the very array that it holds. -/
def SharesTags : Prop :=
  ∀ c ∈ run.executed fields, c.rule.hasTags → c.rule.kind = .transform →
    ((∃ d ∈ run.executed fields, Duplicates c.rule d.rule ∧ d.declared d.index < c.declared c.index) ↔
      ∃ i rule, c.rules[i]? = some rule ∧ c.declared i < c.declared c.index ∧
        areTransformsWithSameTag c.rule (ids c.index) rule (ids i))

end RuleRun

/-! ## What a run reaches -/

namespace Serde

variable {μ : Type} {s : Serde μ}

/-- Every rule a run reaches is one of the call's rules, at its own index. -/
theorem context_of_reached {c : RuleContext} {call : RuleCall} {msg : Option μ}
    (h : c ∈ (s.executeRulesWithPhase call msg).reached.map Prod.fst) :
    ∃ target rules, call.target = some target ∧ rulesOf call target = some rules ∧
      c.ruleMode = call.ruleMode ∧ c.rules = rules ∧ rules[c.index]? = some c.rule := by
  unfold executeRulesWithPhase at h
  split at h
  · simp at h
  · simp at h
  · next target ht =>
    split at h
    · simp at h
    · next rules hr =>
      obtain ⟨x, hx, rfl⟩ := List.mem_map.mp h
      obtain ⟨i, hi, he⟩ := List.mem_mapIdx.mp (mem_of_reached hx)
      rw [← he]
      exact ⟨target, rules, ht, hr, rfl, rfl, List.getElem?_eq_getElem hi⟩

end Serde

/-! ## Both directions look at the rules declared before -/

def RuleMode.isDirection (ruleMode : RuleMode) : Prop :=
  ruleMode = .write ∨ ruleMode = .upgrade ∨ ruleMode = .read ∨ ruleMode = .downgrade

namespace FieldRuleExecutor

theorem mem_others {ctx : RuleContext} (hm : ctx.ruleMode.isDirection)
    (hi : ctx.index < ctx.rules.length) (i : Nat) :
    i ∈ others ctx ↔ i < ctx.rules.length ∧ ctx.declared i < ctx.declared ctx.index := by
  unfold others RuleContext.declared
  rcases hm with hm | hm | hm | hm
  all_goals simp only [hm, List.mem_range, List.mem_range'_1]; omega

theorem ignores_iff (ids : Nat → Nat) {ctx : RuleContext} (hm : ctx.ruleMode.isDirection)
    (hi : ctx.index < ctx.rules.length) :
    ignores ids ctx = true ↔ ∃ i rule, ctx.rules[i]? = some rule ∧ ctx.declared i < ctx.declared ctx.index ∧
      areTransformsWithSameTag ctx.rule (ids ctx.index) rule (ids i) := by
  simp only [ignores, List.any_eq_true, mem_others hm hi, Option.any_eq_true]
  constructor
  · rintro ⟨i, ⟨-, hd⟩, rule, hr, ha⟩
    exact ⟨i, rule, hr, hd, ha⟩
  · intro ⟨i, rule, hr, hd, ha⟩
    obtain ⟨hl, -⟩ := List.getElem?_eq_some_iff.mp hr
    exact ⟨i, ⟨hl, hd⟩, rule, hr, ha⟩

end FieldRuleExecutor

theorem duplicates_of_same {rule1 rule2 : Rule} {id1 id2 : Nat}
    (h : areTransformsWithSameTag rule1 id1 rule2 id2 = true) : id1 = id2 ∧ Duplicates rule1 rule2 := by
  simp only [areTransformsWithSameTag, Bool.and_eq_true, decide_eq_true_eq] at h
  obtain ⟨⟨⟨⟨⟨ht, hk⟩, hk'⟩, hm⟩, hty⟩, ha⟩ := h
  obtain ⟨tags, htags⟩ : ∃ tags, rule1.tags = some tags := by
    rw [Rule.hasTags, Option.any_eq_true] at ht
    obtain ⟨tags, htags, -⟩ := ht
    exact ⟨tags, htags⟩
  rw [Rule.tagArray, htags, Option.map_some, eq_comm, Rule.tagArray, Option.map_eq_some_iff] at ha
  obtain ⟨tags', htags', ha⟩ := ha
  simp only [TagArray.mk.injEq] at ha
  exact ⟨ha.1.symm, ht, hk, hk', hm, hty, by rw [htags, htags', ha.2]⟩

theorem Duplicates.self {rule : Rule} (ht : rule.hasTags) (hk : rule.kind = .transform) : Duplicates rule rule :=
  ⟨ht, hk, rfl, rfl, rfl, rfl⟩

theorem Duplicates.trans {a b c : Rule} (h : Duplicates a b) (h' : Duplicates b c) : Duplicates a c := by
  obtain ⟨ht, hk, hk₁, hm₁, hty₁, htags₁⟩ := h
  obtain ⟨-, -, hk₂, hm₂, hty₂, htags₂⟩ := h'
  exact ⟨ht, hk, hk₁.trans hk₂, hm₁.trans hm₂, hty₁.trans hty₂, htags₁.trans htags₂⟩

theorem Duplicates.symm {a b : Rule} (h : Duplicates a b) : Duplicates b a := by
  obtain ⟨ht, hk, hk₁, hm₁, hty₁, htags₁⟩ := h
  exact ⟨by rwa [Rule.hasTags, ← htags₁], hk₁ ▸ hk, hk₁.symm, hm₁.symm, hty₁.symm, htags₁.symm⟩

/-- The context of a rule of the list `rules`, executed in the mode `ruleMode`. -/
structure RuleContext.In (c : RuleContext) (rules : List Rule) (ruleMode : RuleMode) : Prop where
  ruleMode_eq : c.ruleMode = ruleMode
  rules_eq : c.rules = rules
  rule_eq : rules[c.index]? = some c.rule

namespace RuleContext.In

variable {c d : RuleContext} {rules : List Rule} {ruleMode : RuleMode}

theorem index_lt (hc : c.In rules ruleMode) : c.index < c.rules.length := by
  obtain ⟨hl, -⟩ := List.getElem?_eq_some_iff.mp hc.rule_eq
  rwa [hc.rules_eq]

theorem declared_inj (hc : c.In rules ruleMode) (hd : d.In rules ruleMode) :
    c.declared c.index = d.declared d.index ↔ c.index = d.index := by
  have hlc := hc.index_lt
  have hld := hd.index_lt
  rw [hc.rules_eq] at hlc
  rw [hd.rules_eq] at hld
  unfold RuleContext.declared
  rw [hc.ruleMode_eq, hd.ruleMode_eq, hc.rules_eq, hd.rules_eq]
  split <;> omega

end RuleContext.In

namespace RuleRun

variable {μ : Type} {s : Serde μ} {run : RuleRun μ} {ids : Nat → Nat} {fields : FieldExecutors μ}
  {rules : List Rule}
  {ruleMode : RuleMode}

theorem sharesTags_of_oneApplied (hm : ruleMode.isDirection) (hin : ∀ c ∈ run.executed fields, c.In rules ruleMode)
    (h : run.OneApplied ids fields) : run.SharesTags ids fields := by
  intro c hc ht hk
  obtain ⟨first, hf, hdup, hall⟩ := h c hc ht hk
  have hcin := hin c hc
  have hown := hall c hc (.self ht hk)
  rw [← FieldRuleExecutor.ignores_iff ids (hcin.ruleMode_eq ▸ hm) hcin.index_lt]
  constructor
  · intro ⟨d, hd, hdd, hlt⟩
    rw [← Bool.not_eq_false, hown.2]
    intro he
    -- A duplicate declared before `c` is declared no earlier than the one that is applied.
    have hle := (hall d hd hdd).1
    rw [(hcin.declared_inj (hin first hf)).mpr he] at hlt
    omega
  · intro hi
    rw [← Bool.not_eq_false, hown.2] at hi
    have hne := mt (hcin.declared_inj (hin first hf)).mp hi
    exact ⟨first, hf, hdup, by omega⟩

theorem oneApplied_of_sharesTags (hm : ruleMode.isDirection) (hin : ∀ c ∈ run.executed fields, c.In rules ruleMode)
    (h : run.SharesTags ids fields) : run.OneApplied ids fields := by
  intro c hc ht hk
  let duplicates := {d | d ∈ run.executed fields ∧ Duplicates c.rule d.rule}
  obtain ⟨first, ⟨hf, hfd⟩, hmin⟩ := (measure fun d : RuleContext => d.declared d.index).wf.has_min duplicates
    ⟨c, hc, .self ht hk⟩
  refine ⟨first, hf, hfd, fun d hd hdd => ?_⟩
  have hle : first.declared first.index ≤ d.declared d.index := Nat.not_lt.mp (hmin d ⟨hd, hdd⟩)
  refine ⟨hle, ?_⟩
  have hdin := hin d hd
  have hnot := h d hd hdd.symm.1 hdd.symm.2.1
  rw [← FieldRuleExecutor.ignores_iff ids (hdin.ruleMode_eq ▸ hm) hdin.index_lt] at hnot
  rw [← Bool.not_eq_true, ← hnot, ← hdin.declared_inj (hin first hf)]
  constructor
  · intro hno
    by_contra hne
    exact hno ⟨first, hf, hdd.symm.trans hfd, by omega⟩
  · intro he ⟨e, hed, hdup, hlt⟩
    -- Nothing executed stands before the first duplicate.
    have hlt' : e.declared e.index < first.declared first.index := by omega
    exact hmin e ⟨hed, hdd.trans hdup⟩ hlt'

def NoDuplicates (run : RuleRun μ) (fields : FieldExecutors μ) : Prop :=
  ∀ c ∈ run.executed fields, ∀ d ∈ run.executed fields, Duplicates c.rule d.rule → c.index = d.index

/-- When every rule has an array of its own, as the rules of one JSON text have, there is nothing to share. -/
theorem sharesTags_iff_noDuplicates (hin : ∀ c ∈ run.executed fields, c.In rules ruleMode)
    (hids : Function.Injective ids) :
    run.SharesTags ids fields ↔ run.NoDuplicates fields := by
  have hnone : ∀ (c : RuleContext) i rule, c.declared i < c.declared c.index →
      ¬areTransformsWithSameTag c.rule (ids c.index) rule (ids i) = true := by
    intro c i rule hlt hs
    have he := hids (duplicates_of_same hs).1
    rw [he] at hlt
    exact absurd hlt (lt_irrefl _)
  constructor
  · intro h c hc d hd hdup
    by_contra hne
    have hne' := mt ((hin c hc).declared_inj (hin d hd)).mp hne
    rcases Nat.lt_or_gt_of_ne hne' with hlt | hlt
    · obtain ⟨i, rule, -, hi, hs⟩ := (h d hd hdup.symm.1 hdup.symm.2.1).mp ⟨c, hc, hdup.symm, hlt⟩
      exact hnone d i rule hi hs
    · obtain ⟨i, rule, -, hi, hs⟩ := (h c hc hdup.1 hdup.2.1).mp ⟨d, hd, hdup, hlt⟩
      exact hnone c i rule hi hs
  · intro h c hc ht hk
    constructor
    · intro ⟨d, hd, hdup, hlt⟩
      rw [((hin c hc).declared_inj (hin d hd)).mpr (h c hc d hd hdup)] at hlt
      exact absurd hlt (lt_irrefl _)
    · intro ⟨i, rule, _, hi, hs⟩
      exact absurd hs (hnone c i rule hi)

end RuleRun

namespace Serde

variable {μ : Type} {s : Serde μ} {fields : FieldExecutors μ}

def callRules (call : RuleCall) : List Rule := (call.target.bind (rulesOf call)).getD []

theorem in_of_executed {call : RuleCall} {msg : Option μ} {c : RuleContext}
    (hc : c ∈ (s.executeRulesWithPhase call msg).executed fields) : c.In (callRules call) call.ruleMode := by
  obtain ⟨hc, -⟩ := List.mem_filter.mp hc
  obtain ⟨target, rules, ht, hr, hmode, hrules, hrule⟩ := context_of_reached hc
  have h : callRules call = rules := by simp [callRules, ht, hr]
  rw [h]
  exact ⟨hmode, hrules, hrule⟩

/-- Among executed duplicates one is applied, the first that is declared, just when the executed
duplicates share their tags array; rules with arrays of their own must not be duplicates at all. -/
theorem oneApplied_iff (s : Serde μ) (fields : FieldExecutors μ) (ids : Nat → Nat) (call : RuleCall)
    (hm : call.ruleMode.isDirection) (msg : Option μ) :
    let run := (s.withFieldRules ids fields).executeRulesWithPhase call msg
    (run.OneApplied ids fields ↔ run.SharesTags ids fields) ∧
      (Function.Injective ids → (run.OneApplied ids fields ↔ run.NoDuplicates fields)) := by
  intro run
  have hin : ∀ c ∈ run.executed fields, c.In (callRules call) call.ruleMode := fun c hc => in_of_executed hc
  have hiff : run.OneApplied ids fields ↔ run.SharesTags ids fields :=
    ⟨RuleRun.sharesTags_of_oneApplied hm hin, RuleRun.oneApplied_of_sharesTags hm hin⟩
  refine ⟨hiff, fun hids => ?_⟩
  rw [hiff, RuleRun.sharesTags_iff_noDuplicates hin hids]

def twiceDeclared : SchemaInfo :=
  { schema := ""
    ruleSet := some { domainRules := some [
      { name := "a", kind := .transform, mode := some .write, type := "ENCRYPT", tags := some ["PII"] },
      { name := "b", kind := .transform, mode := some .write, type := "ENCRYPT", tags := some ["PII"] }] } }

def writeTwice : RuleCall :=
  { subject := "s", topic := "t", rulePhase := .domain, ruleMode := .write, source := none,
    target := some twiceDeclared }

/-- A registry with one field rule executor, which counts how often it transforms the message. -/
def counting : FieldExecutors Nat := fun type => if type = "ENCRYPT" then some fun _ msg =>
    .ok (msg.map (· + 1)) else none

def bareSerde : Serde Nat :=
  { isKey := false, isFalse := fun _ => false, getExecutor := fun _ => none, getAction := fun _ => none,
    getOverride := fun _ => none }

theorem oneApplied_iff_parsed :
    let run := (bareSerde.withFieldRules id counting).executeRulesWithPhase writeTwice (some 0)
    run.OneApplied id counting ↔ run.NoDuplicates counting :=
  (oneApplied_iff bareSerde counting id writeTwice (.inl rfl) (some 0)).2 Function.injective_id

/-- Both of the equal transforms are applied, and the message is transformed twice. -/
theorem oneApplied_fails :
    let run := (bareSerde.withFieldRules id counting).executeRulesWithPhase writeTwice (some 0)
    run.result = .ok (some 2) ∧ ¬run.OneApplied id counting := by
  intro run
  refine ⟨rfl, fun h => ?_⟩
  have hrun : run.executed counting = bareSerde.contexts writeTwice twiceDeclared (callRules writeTwice) := rfl
  unfold RuleRun.OneApplied at h
  rw [hrun] at h
  obtain ⟨first, -, -, hall⟩ := h _ List.mem_cons_self rfl rfl
  have h₀ := (hall _ List.mem_cons_self (by decide)).2.mp (by decide)
  have h₁ := (hall _ (List.mem_cons_of_mem _ List.mem_cons_self) (by decide)).2.mp (by decide)
  have hne : (0 : Nat) = 1 := h₀.trans h₁.symm
  exact absurd hne (by decide)

end Serde

end ConfluentKafka
