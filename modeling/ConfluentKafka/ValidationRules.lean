import ConfluentKafka.FailFast
import ConfluentKafka.FieldWalk

/-!
# Inline validation rules

`evaluateValidationRule` of `serde.ts`, with an executor that always answers the same: what it makes of a rule
depends on the rule, on what it is told of the schema and on the value.
-/

namespace ConfluentKafka

structure ValidationRule where
  name : Option String
  doc : Option String
  expr : Option String
  sql : Option String
  deriving DecidableEq

structure ValidationRuleError where
  rule : ValidationRule
  fieldPath : String
  message : Option String
  cause : Option String
  deriving DecidableEq

/-- What the executor does: it returns a boolean, a string or something else of which only the type matters,
or it throws. -/
inductive Executed where
  | boolean (b : Bool)
  | string (s : String)
  | other (typeName : String)
  | ruleError (message : String)
  | thrown (e : WalkError)

abbrev ValidationRuleExecutor (η β : Type) := ValidationRule → η → β → Executed

structure Evaluation (η β : Type) where
  rule : ValidationRule
  schema : η
  value : β
  path : String
  failure : Option ValidationRuleError

abbrev Validation (η β α : Type) := FailFast.Check WalkError (Evaluation η β) ValidationRuleError α

section

variable {η β : Type} (executor : ValidationRuleExecutor η β)

def validationFailure (rule : ValidationRule) (path : String) : Executed → Except WalkError
    (Option ValidationRuleError)
  | .ruleError message => .ok (some ⟨rule, path, none, some message⟩)
  | .thrown e => .error e
  | .boolean b => .ok (if b = false then some ⟨rule, path, none, none⟩ else none)
  | .string s => .ok (if 0 < s.length then some ⟨rule, path, some s, none⟩ else none)
  | .other typeName => .error (.error
      ("Validation rule '" ++ rule.name.getD "unnamed" ++ "' resolved to an unexpected type: " ++ typeName))

def evaluateValidationRule (rule : ValidationRule) (schema : η) (value : β) (path : String) : Validation η β Unit :=
  match validationFailure rule path (executor rule schema value) with
  | .error e => throw e
  | .ok failure => FailFast.record Evaluation.failure ⟨rule, schema, value, path, failure⟩

variable {executor}

abbrev StopsAtFailure (full fast : Validation η β Unit) : Prop := FailFast.Agrees Evaluation.failure full fast

theorem evaluateValidationRule_agrees (rule : ValidationRule) (schema : η) (value : β) (path : String) :
    StopsAtFailure (evaluateValidationRule executor rule schema value path)
      (evaluateValidationRule executor rule schema value path) := by
  unfold evaluateValidationRule
  cases validationFailure rule path (executor rule schema value) with
  | error e => exact FailFast.agrees_throw e _
  | ok failure => exact FailFast.agrees_record _

end

end ConfluentKafka
