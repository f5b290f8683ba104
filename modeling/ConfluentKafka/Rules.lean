import ConfluentKafka.Schema

/-!
# Executing a rule list

`executeRulesWithPhase` of `serde.ts`, with `runAction` and what it looks up. Messages are
`Option μ`, `none` for null and undefined; executors and actions come from the registry and
are functions of the rule's context. A run also lists the rules it reached, with the message
each of them got.
-/

namespace ConfluentKafka

structure RuleContext where
  enabledEnv : Option String
  source : Option SchemaInfo
  target : SchemaInfo
  subject : String
  topic : String
  isKey : Bool
  ruleMode : RuleMode
  rule : Rule
  index : Nat
  rules : List Rule

/-- What a `throw` delivers, as far as the code tells it apart: a `SerializationError`, another
value with its `message`, or null or undefined. -/
inductive Thrown where
  | serialization (message : String)
  | error (message : String)
  | nullish
deriving DecidableEq, Repr

abbrev RuleExecutor (μ : Type) := RuleContext → Option μ → Except Thrown (Option μ)

/-- The error is `Thrown.nullish` where the code passes null. -/
abbrev RuleAction (μ : Type) := RuleContext → Option μ → Thrown → Except Thrown Unit

structure RuleOverride where
  onSuccess : Option String := none
  onFailure : Option String := none
  disabled : Option Bool := none

/-- A serde with its rule registry; `isFalse` is the comparison with the value `false`. -/
structure Serde (μ : Type) where
  isKey : Bool
  isFalse : μ → Bool
  getExecutor : String → Option (RuleExecutor μ)
  getAction : String → Option (RuleAction μ)
  getOverride : String → Option RuleOverride

def ErrorAction {μ : Type} : RuleAction μ := fun ctx _ err =>
  match err with
  | .nullish => .error (.error "Cannot read properties of null (reading 'message')")
  | .serialization message => .error (.serialization ("rule " ++ ctx.rule.name ++ " failed: " ++ message))
  | .error message => .error (.serialization ("rule " ++ ctx.rule.name ++ " failed: " ++ message))

def NoneAction {μ : Type} : RuleAction μ := fun _ _ _ => .ok ()

def conditionError (rule : Rule) : String :=
  let errMsg := rule.doc.getD ""
  if errMsg = "" then
    if rule.expr ≠ some "" then "Expr failed: '" ++ rule.expr.getD "undefined" ++ "'"
    else "Condition failed: '" ++ rule.name ++ "'"
  else errMsg

def getRuleActionName (rule : Rule) (ruleMode : RuleMode) (actionName : Option String) : Option String :=
  match actionName with
  | none => none
  | some name =>
    if name = "" then none
    else if (rule.mode = some .writeread ∨ rule.mode = some .updown) ∧ ',' ∈ name.toList then
      let parts := (name.toList.splitOn ',').map String.ofList
      match ruleMode with
      | .write | .upgrade => parts[0]?
      | .read | .downgrade => parts[1]?
      | _ => some name
    else some name

/-- What follows a rule that did not throw: the next rule, or the end of the loop. -/
inductive After (μ : Type) where
  | next (msg : Option μ)
  | finish (msg : Option μ)
deriving DecidableEq, Repr

structure RuleRun (μ : Type) where
  reached : List (RuleContext × Option μ)
  result : Except Thrown (Option μ)

/-- The arguments of a call that do not change while its rules run. -/
structure RuleCall where
  subject : String
  topic : String
  rulePhase : RulePhase
  ruleMode : RuleMode
  source : Option SchemaInfo
  target : Option SchemaInfo

namespace Serde

variable {μ : Type} (s : Serde μ)

def getOnSuccess (rule : Rule) : Option String :=
  ((s.getOverride rule.type).bind RuleOverride.onSuccess).or rule.onSuccess

def getOnFailure (rule : Rule) : Option String :=
  ((s.getOverride rule.type).bind RuleOverride.onFailure).or rule.onFailure

def isDisabled (ctx : RuleContext) (rule : Rule) : Bool :=
  match (s.getOverride rule.type).bind RuleOverride.disabled with
  | some disabled => disabled
  | none =>
    let enabledEnv := ctx.enabledEnv.getD "ALL"
    if enabledEnv ≠ "ALL" ∧ enabledEnv ≠ "CLIENT" then true
    else rule.disabled.getD false

def getRuleAction (actionName : String) : Option (RuleAction μ) :=
  if actionName = "ERROR" then some ErrorAction
  else if actionName = "NONE" then some NoneAction
  else s.getAction actionName

def runAction (ctx : RuleContext) (ruleMode : RuleMode) (rule : Rule) (action : Option String) (msg : Option μ)
    (err : Thrown) (defaultAction : String) : Except Thrown Unit :=
  let actionName := (getRuleActionName rule ruleMode action).getD defaultAction
  match s.getRuleAction actionName with
  | none => .error (.error ("Could not find rule action of type " ++ actionName))
  | some ruleAction =>
    match ruleAction ctx msg err with
    | .error (.serialization message) => .error (.serialization message)
    | _ => .ok ()

def modeApplies (mode : Option RuleMode) (ruleMode : RuleMode) : Bool :=
  match mode with
  | some .writeread => ruleMode = .write ∨ ruleMode = .read
  | some .updown => ruleMode = .upgrade ∨ ruleMode = .downgrade
  | mode => mode = some ruleMode

def skips (ctx : RuleContext) : Bool :=
  s.isDisabled ctx ctx.rule || !modeApplies ctx.rule.mode ctx.ruleMode

/-- The `catch` block around a rule. -/
def caught (ctx : RuleContext) (msg : Option μ) (error : Thrown) : Except Thrown (After μ) :=
  match error with
  | .serialization message => .error (.serialization message)
  | error => do
    s.runAction ctx ctx.ruleMode ctx.rule (s.getOnFailure ctx.rule) msg error "ERROR"
    return .next msg

def runRule (ctx : RuleContext) (msg : Option μ) : Except Thrown (After μ) :=
  let rule := ctx.rule
  match s.getExecutor rule.type with
  | none => do
    s.runAction ctx ctx.ruleMode rule (s.getOnFailure rule) msg
      (.error ("could not find rule executor of type " ++ rule.type)) "ERROR"
    return .finish msg
  | some transform =>
    match transform ctx msg with
    | .error error => s.caught ctx msg error
    | .ok result =>
      if rule.kind = .condition ∧ result.any s.isFalse then s.caught ctx msg (.error (conditionError rule))
      else
        let msg := if rule.kind = .transform then result else msg
        let action := if msg.isSome then s.getOnSuccess rule else s.getOnFailure rule
        match s.runAction ctx ctx.ruleMode rule action msg .nullish (if msg.isSome then "NONE" else "ERROR") with
        | .ok () => .ok (.next msg)
        | .error error => s.caught ctx msg error

def runRules : List RuleContext → Option μ → RuleRun μ
  | [], msg => ⟨[], .ok msg⟩
  | ctx :: rest, msg =>
    if s.skips ctx then runRules rest msg
    else
      match s.runRule ctx msg with
      | .error error => ⟨[(ctx, msg)], .error error⟩
      | .ok (.finish msg') => ⟨[(ctx, msg)], .ok msg'⟩
      | .ok (.next msg') =>
        let run := runRules rest msg'
        ⟨(ctx, msg) :: run.reached, run.result⟩

def enabledEnv (call : RuleCall) (target : SchemaInfo) : Option String :=
  match call.ruleMode with
  | .downgrade => (call.source.bind SchemaInfo.ruleSet).bind RuleSet.enableAt
  | _ => target.ruleSet.bind RuleSet.enableAt

def rulesOf (call : RuleCall) (target : SchemaInfo) : Option (List Rule) :=
  match call.ruleMode with
  | .upgrade => target.ruleSet.bind RuleSet.migrationRules
  | .downgrade => ((call.source.bind SchemaInfo.ruleSet).bind RuleSet.migrationRules).map List.reverse
  | ruleMode =>
    let rules := if call.rulePhase = .encoding then target.ruleSet.bind RuleSet.encodingRules
      else target.ruleSet.bind RuleSet.domainRules
    -- Read rules run in reverse order for symmetry.
    if ruleMode = .read then rules.map List.reverse else rules

def context (call : RuleCall) (target : SchemaInfo) (rules : List Rule) (index : Nat) (rule : Rule) : RuleContext :=
  { enabledEnv := enabledEnv call target, source := call.source, target := target, subject := call.subject,
    topic := call.topic, isKey := s.isKey, ruleMode := call.ruleMode, rule := rule, index := index, rules := rules }

def contexts (call : RuleCall) (target : SchemaInfo) (rules : List Rule) : List RuleContext :=
  rules.mapIdx (s.context call target rules)

def executeRulesWithPhase (call : RuleCall) (msg : Option μ) : RuleRun μ :=
  match msg, call.target with
  | none, _ => ⟨[], .ok msg⟩
  | _, none => ⟨[], .ok msg⟩
  | some _, some target =>
    match rulesOf call target with
    | none => ⟨[], .ok msg⟩
    | some rules => s.runRules (s.contexts call target rules) msg

end Serde

end ConfluentKafka
