import ConfluentKafka.JsonTransform
import ConfluentKafka.ValidationRules

/-!
# The validation walk of JSON messages

`validateJsonMessage` of `json.ts`. The inline rules of a schema are a parameter: they depend on the node,
which the number of its constraints tells from others with the same keywords.
-/

namespace ConfluentKafka

namespace Json

open FailFast (forEach orStop unlessLeft)

section

variable (env : Setting) (getInlineValidationRules : SchemaNode → List ValidationRule)
  (executor : ValidationRuleExecutor SchemaNode JsValue) (failFast : Bool)

abbrev WalkType := Schema → String → JsValue → Validation SchemaNode JsValue Unit

def validateObject (walk : WalkType) (n : SchemaNode) (path : String) (msg : JsValue) :
    Validation SchemaNode JsValue Unit :=
  if isObject msg then
    unlessLeft (forEach failFast (fun (propName, propSchema) =>
      walk (env.graph propSchema) (path ++ "." ++ propName) ((find env msg propName).value.getD .undefined))
        (n.properties.getD []))
      (pure ())
  else pure ()

def validateItems (walk : WalkType) (items : Schema) (path : String) (elems : List JsValue) :
    Validation SchemaNode JsValue Bool :=
  forEach failFast (fun (i, v) => walk items (path ++ "[" ++ toString i ++ "]") v) (elems.mapIdx Prod.mk)

def validateAllOf (walk : WalkType) (subschemas : List Nat) (path : String) (msg : JsValue) :
    Validation SchemaNode JsValue Bool :=
  forEach failFast (fun subschema => walk (env.graph subschema) path msg) subschemas

/-- The first that accepts the message, without a look for failures in the loop. -/
def validateOneOf (walk : WalkType) (subschemas : List Nat) (path : String) (msg : JsValue) :
    Validation SchemaNode JsValue Unit :=
  match subschemas.find? fun subschema => validateSubschema env (env.graph subschema) msg with
  | none => pure ()
  | some subschema => walk (env.graph subschema) path msg

/-- The look for failures is only behind a subschema that accepts the message. -/
def validateAnyOf (walk : WalkType) (subschemas : List Nat) (path : String) (msg : JsValue) :
    Validation SchemaNode JsValue Bool :=
  forEach failFast (fun subschema => walk (env.graph subschema) path msg)
    (subschemas.filter fun subschema => validateSubschema env (env.graph subschema) msg)

def validateSubschemas (walk : WalkType) (n : SchemaNode) (path : String) (msg : JsValue) :
    Validation SchemaNode JsValue Bool :=
  if n.allOf ≠ [] then validateAllOf env failFast walk n.allOf path msg
  else if n.oneOf ≠ [] then do
    validateOneOf env walk n.oneOf path msg
    return false
  else validateAnyOf env failFast walk n.anyOf path msg

def validateSiblingItems (walk : WalkType) (n : SchemaNode) (path : String) (msg : JsValue) :
    Validation SchemaNode JsValue Unit :=
  match n.items, msg with
  | some items, .array elems => unlessLeft (validateItems failFast walk (env.graph items) path elems) (pure ())
  | _, _ => pure ()

def validateCombined (walk : WalkType) (n : SchemaNode) (path : String) (msg : JsValue) :
    Validation SchemaNode JsValue Unit :=
  unlessLeft (validateSubschemas env failFast walk n path msg)
    (unlessLeft (FailFast.stop failFast)
      (unlessLeft (orStop failFast (validateObject env failFast walk n path msg))
        (validateSiblingItems env failFast walk n path msg)))

def validatePlain (walk : WalkType) (n : SchemaNode) (path : String) (msg : JsValue) :
    Validation SchemaNode JsValue Unit :=
  match n.items, msg with
  | some items, .array elems => unlessLeft (validateItems failFast walk (env.graph items) path elems) (pure ())
  | _, _ =>
    match n.ref with
    | some r => walk (env.graph r) path msg
    | none => validateObject env failFast walk n path msg

def validateUntyped (walk : WalkType) (n : SchemaNode) (path : String) (msg : JsValue) :
    Validation SchemaNode JsValue Unit :=
  if n.allOf ≠ [] ∨ n.anyOf ≠ [] ∨ n.oneOf ≠ [] then validateCombined env failFast walk n path msg
  else validatePlain env failFast walk n path msg

def validateSchemaBody (walk : WalkType) (n : SchemaNode) (path : String) (msg : JsValue) :
    Validation SchemaNode JsValue Unit :=
  match n.type with
  | some (.inr (t :: types)) =>
    match validateSubtypes env n (t :: types) msg with
    | some t => validateUntyped env failFast walk { n with type := some (.inl t) } path msg
    | none => pure ()
  | _ => validateUntyped env failFast walk n path msg

def validate : Nat → Schema → String → JsValue → Validation SchemaNode JsValue Unit
  | 0, _, _, _ => throw .outOfFuel
  | fuel + 1, schema, path, msg =>
    match schema with
    | .bool _ => pure ()
    | .node n =>
      if isNullish msg then pure ()
      else
        unlessLeft (forEach failFast (fun rule => evaluateValidationRule executor rule n msg path)
          (getInlineValidationRules n))
          (validateSchemaBody env failFast (validate fuel) n path msg)

def validateJsonMessage (fuel : Nat) (schema : Schema) (msg : JsValue) :
    Except WalkError (FailFast.Report (Evaluation SchemaNode JsValue) ValidationRuleError) :=
  (validate env getInlineValidationRules executor failFast fuel schema "$" msg ⟨[], []⟩).map Prod.snd

end

/-! ## Both runs -/

section

variable {env : Setting} {full fast : WalkType}
  (hwalk : ∀ schema path msg, StopsAtFailure (full schema path msg) (fast schema path msg))

include hwalk

theorem validateObject_agrees (n : SchemaNode) (path : String) (msg : JsValue) :
    StopsAtFailure (validateObject env false full n path msg) (validateObject env true fast n path msg) := by
  refine FailFast.agrees_ite (fun _ => ?_) fun _ => FailFast.agrees_pure
  exact FailFast.agrees_unlessLeft (FailFast.leaves_forEach fun _ _ => hwalk _ _ _) FailFast.agrees_pure

theorem validateOneOf_agrees (subschemas : List Nat) (path : String) (msg : JsValue) :
    StopsAtFailure (validateOneOf env full subschemas path msg) (validateOneOf env fast subschemas path msg) := by
  unfold validateOneOf
  cases subschemas.find? fun subschema => validateSubschema env (env.graph subschema) msg with
  | none => exact FailFast.agrees_pure
  | some subschema => exact hwalk _ path msg

theorem validateSiblingItems_agrees (n : SchemaNode) (path : String) (msg : JsValue) :
    StopsAtFailure (validateSiblingItems env false full n path msg)
      (validateSiblingItems env true fast n path msg) := by
  unfold validateSiblingItems
  split
  · exact FailFast.agrees_unlessLeft (FailFast.leaves_forEach fun _ _ => hwalk _ _ _) FailFast.agrees_pure
  · exact FailFast.agrees_pure

theorem validateCombined_agrees (n : SchemaNode) (path : String) (msg : JsValue) :
    StopsAtFailure (validateCombined env false full n path msg) (validateCombined env true fast n path msg) := by
  have hobject : StopsAtFailure (validateObject env false full n path msg)
    (validateObject env true fast n path msg) :=
    validateObject_agrees hwalk n path msg
  have hitems : StopsAtFailure (validateSiblingItems env false full n path msg)
    (validateSiblingItems env true fast n path msg) :=
    validateSiblingItems_agrees hwalk n path msg
  have hsiblings := FailFast.agrees_unlessLeft (FailFast.leaves_orStop hobject) hitems
  unfold validateCombined validateSubschemas
  by_cases hall : n.allOf ≠ []
  · rw [if_pos hall, if_pos hall]
    exact FailFast.agrees_unlessLeft (FailFast.leaves_forEach fun _ _ => hwalk _ path msg)
      (FailFast.agrees_unlessLeft FailFast.leaves_stop hsiblings)
  · rw [if_neg hall, if_neg hall]
    by_cases hone : n.oneOf ≠ []
    · rw [if_pos hone, if_pos hone]
      exact FailFast.agrees_unlessLeft_stop (validateOneOf_agrees hwalk n.oneOf path msg) hsiblings
    · rw [if_neg hone, if_neg hone]
      exact FailFast.agrees_unlessLeft (FailFast.leaves_forEach fun _ _ => hwalk _ path msg)
        (FailFast.agrees_unlessLeft FailFast.leaves_stop hsiblings)

theorem validatePlain_agrees (n : SchemaNode) (path : String) (msg : JsValue) :
    StopsAtFailure (validatePlain env false full n path msg) (validatePlain env true fast n path msg) := by
  unfold validatePlain
  split
  · exact FailFast.agrees_unlessLeft (FailFast.leaves_forEach fun _ _ => hwalk _ _ _) FailFast.agrees_pure
  · cases n.ref with
    | some r => exact hwalk _ path _
    | none => exact validateObject_agrees hwalk n path _

theorem validateUntyped_agrees (n : SchemaNode) (path : String) (msg : JsValue) :
    StopsAtFailure (validateUntyped env false full n path msg) (validateUntyped env true fast n path msg) :=
  FailFast.agrees_ite (fun _ => validateCombined_agrees hwalk n path msg) fun _ =>
    validatePlain_agrees hwalk n path msg

theorem validateSchemaBody_agrees (n : SchemaNode) (path : String) (msg : JsValue) :
    StopsAtFailure (validateSchemaBody env false full n path msg)
      (validateSchemaBody env true fast n path msg) := by
  unfold validateSchemaBody
  split
  · rename_i t types _
    cases validateSubtypes env n (t :: types) msg with
    | none => exact FailFast.agrees_pure
    | some t => exact validateUntyped_agrees hwalk _ path msg
  · exact validateUntyped_agrees hwalk n path msg

end

theorem validate_agrees {env : Setting} {getInlineValidationRules : SchemaNode → List ValidationRule}
    {executor : ValidationRuleExecutor SchemaNode JsValue} (fuel : Nat) : ∀ (schema : Schema) (path : String)
    (msg : JsValue),
    StopsAtFailure (validate env getInlineValidationRules executor false fuel schema path msg)
      (validate env getInlineValidationRules executor true fuel schema path msg) := by
  induction fuel with
  | zero => exact fun _ _ _ => FailFast.agrees_throw _ _
  | succ fuel ih =>
    intro schema path msg
    cases schema with
    | bool b => exact FailFast.agrees_pure
    | node n =>
      refine FailFast.agrees_ite (fun _ => FailFast.agrees_pure) fun _ => ?_
      exact FailFast.agrees_unlessLeft (FailFast.leaves_forEach fun rule _ =>
        evaluateValidationRule_agrees rule n msg path)
        (validateSchemaBody_agrees ih n path msg)

end Json

end ConfluentKafka
