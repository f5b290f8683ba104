import ConfluentKafka.AvroTransform
import ConfluentKafka.ValidationRules

/-!
# The validation walk of Avro messages

`validateAvroMessage` of `avro.ts`, over the rules that were read from the schema texts.
-/

namespace ConfluentKafka

namespace Avro

open FailFast (forEach orStop unlessLeft)

structure InlineValidationRules where
  recordRules : JsMap String (List ValidationRule)
  fieldRules : JsMap String (List ValidationRule)
  schemaJson : String
  depSchemas : List String

structure ValidationHint where
  avroSchema : String
  depSchemas : List String
  fullName : Option String := none
  recordName : Option String := none

def avroHint (avroSchema : String) (depSchemas : List String) (fullName recordName : Option String) :
    ValidationHint :=
  match fullName with
  | some fullName => { avroSchema, depSchemas, fullName := some fullName }
  | none => { avroSchema, depSchemas, recordName }

def isArray : Datum → Bool
  | .array _ => true
  | _ => false

section

-- What a value that is no plain object has under a name is a parameter.
variable (env : Setting) (readOther : Datum → String → Option Datum)
  (executor : ValidationRuleExecutor ValidationHint Datum)
  (rules : InlineValidationRules) (failFast : Bool)

def readField (msg : Datum) (name : String) : Option Datum :=
  match msg with
  | .object props => readProp env props name
  | msg => readOther msg name

def present (value : Option Datum) : Option Datum := value.filter fun v => !isNull v

def childPath (path name : String) : String := if path = "" then name else path ++ "." ++ name

abbrev WalkType := AvType → String → Option Datum → Validation ValidationHint Datum Unit

def validateArray (walk : WalkType) (items : AvType) (path : String) (elems : List Datum) :
    Validation ValidationHint Datum Unit :=
  unlessLeft (forEach failFast (fun (i, v) => walk items (path ++ "[" ++ toString i ++ "]") (some v))
    (elems.mapIdx Prod.mk))
    (pure ())

def validateMap (walk : WalkType) (values : AvType) (path : String) (msg : Datum) :
    Validation ValidationHint Datum Unit :=
  unlessLeft (forEach failFast (fun (key, v) => walk values (path ++ "[\"" ++ key ++ "\"]") (some v))
    (ownEntries msg)) (pure ())

/-- The rules of a field, which are not asked about a value that is not there. -/
def validateFieldRules (fullName path : String) (value : Option Datum) : Validation ValidationHint Datum Bool :=
  match present value with
  | none => return false
  | some value => forEach failFast (fun rule =>
      evaluateValidationRule executor rule (avroHint rules.schemaJson rules.depSchemas (some fullName) none) value
        path)
      ((rules.fieldRules.get? fullName).getD [])

def validateField (walk : WalkType) (recordName path : String) (msg : Datum) (field : Field) :
    Validation ValidationHint Datum Unit :=
  unlessLeft (validateFieldRules executor rules failFast (recordName ++ "." ++ field.name)
    (childPath path field.name)
      (readField env readOther msg field.name))
    (walk field.type (childPath path field.name) (readField env readOther msg field.name))

def validateRecord (walk : WalkType) (recordName path : String) (msg : Datum) :
    Validation ValidationHint Datum Unit :=
  unlessLeft (forEach failFast (fun rule =>
      evaluateValidationRule executor rule (avroHint rules.schemaJson rules.depSchemas none
        (some recordName)) msg path)
      ((rules.recordRules.get? recordName).getD []))
    (unlessLeft (forEach failFast (validateField env readOther executor rules failFast walk recordName path msg)
      (env.fields recordName))
      (pure ()))

def validateUnion (walk : WalkType) (wrapped : Bool) (types : List AvType) (path : String) (msg : Datum) :
    Validation ValidationHint Datum Unit :=
  match resolveUnion env wrapped types msg with
  | .error e => throw e
  | .ok none => pure ()
  | .ok (some (subschema, submsg)) => walk subschema path (some submsg)

def validateType (walk : WalkType) (schema : AvType) (path : String) (msg : Datum) :
    Validation ValidationHint Datum Unit :=
  match schema with
  | .union wrapped types => validateUnion env walk wrapped types path msg
  | .array items =>
    match msg with
    | .array elems => validateArray failFast walk items path elems
    | _ => pure ()
  | .map values => if isObject msg ∧ !isArray msg then validateMap failFast walk values path msg else pure ()
  | .record name =>
    if isObject msg ∧ !isArray msg then validateRecord env readOther executor rules failFast walk name path
      msg else pure ()
  | .variant _ => pure ()
  | .leaf _ => pure ()

def validate : Nat → AvType → String → Option Datum → Validation ValidationHint Datum Unit
  | 0, _, _, _ => throw .outOfFuel
  | fuel + 1, schema, path, msg =>
    match present msg with
    | none => pure ()
    | some msg => validateType env readOther executor rules failFast (validate fuel) schema path msg

def validateAvroMessage (fuel : Nat) (schema : AvType) (msg : Datum) :
    Except WalkError (FailFast.Report (Evaluation ValidationHint Datum) ValidationRuleError) :=
  (validate env readOther executor rules failFast fuel schema "" (some msg) ⟨[], []⟩).map Prod.snd

end

/-! ## Both runs -/

section

variable {env : Setting} {readOther : Datum → String → Option Datum}
  {executor : ValidationRuleExecutor ValidationHint Datum}
  {rules : InlineValidationRules}

theorem validateFieldRules_leaves (fullName path : String) (value : Option Datum) :
    FailFast.Leaves Evaluation.failure
    (validateFieldRules executor rules false fullName path value)
    (validateFieldRules executor rules true fullName path value) := by
  unfold validateFieldRules
  cases present value with
  | none => exact FailFast.leaves_pure
  | some value => exact FailFast.leaves_forEach fun rule _ => evaluateValidationRule_agrees rule _ value path

theorem validateRecord_agrees {full fast : WalkType} (hwalk : ∀ schema path msg, StopsAtFailure
    (full schema path msg) (fast schema path msg))
    (recordName path : String) (msg : Datum) : StopsAtFailure
    (validateRecord env readOther executor rules false full recordName path msg)
      (validateRecord env readOther executor rules true fast recordName path msg) := by
  refine FailFast.agrees_unlessLeft (FailFast.leaves_forEach fun rule _ =>
    evaluateValidationRule_agrees rule _ msg path) ?_
  refine FailFast.agrees_unlessLeft (FailFast.leaves_forEach fun field _ => ?_) FailFast.agrees_pure
  exact FailFast.agrees_unlessLeft (validateFieldRules_leaves _ _ _) (hwalk _ _ _)

theorem validateUnion_agrees {full fast : WalkType} (hwalk : ∀ schema path msg, StopsAtFailure
    (full schema path msg) (fast schema path msg))
    (wrapped : Bool) (types : List AvType) (path : String) (msg : Datum) :
    StopsAtFailure (validateUnion env full wrapped types path msg)
      (validateUnion env fast wrapped types path msg) := by
  unfold validateUnion
  cases resolveUnion env wrapped types msg with
  | error e => exact FailFast.agrees_throw e _
  | ok branch =>
    cases branch with
    | none => exact FailFast.agrees_pure
    | some branch => exact hwalk branch.1 path _

theorem validateType_agrees {full fast : WalkType} (hwalk : ∀ schema path msg, StopsAtFailure (full schema path msg)
    (fast schema path msg))
    (schema : AvType) (path : String) (msg : Datum) : StopsAtFailure
    (validateType env readOther executor rules false full schema path msg)
      (validateType env readOther executor rules true fast schema path msg) := by
  cases schema with
  | union wrapped types => exact validateUnion_agrees hwalk wrapped types path msg
  | array items =>
    cases msg with
    | array elems =>
      exact FailFast.agrees_unlessLeft (FailFast.leaves_forEach fun _ _ => hwalk _ _ _) FailFast.agrees_pure
    | _ => exact FailFast.agrees_pure
  | map values =>
    refine FailFast.agrees_ite (fun _ => ?_) fun _ => FailFast.agrees_pure
    exact FailFast.agrees_unlessLeft (FailFast.leaves_forEach fun _ _ => hwalk _ _ _) FailFast.agrees_pure
  | record name =>
    exact FailFast.agrees_ite (fun _ => validateRecord_agrees hwalk name path msg) fun _ => FailFast.agrees_pure
  | variant name => exact FailFast.agrees_pure
  | leaf leaf => exact FailFast.agrees_pure

theorem validate_agrees (fuel : Nat) : ∀ (schema : AvType) (path : String) (msg : Option Datum),
    StopsAtFailure (validate env readOther executor rules false fuel schema path msg)
      (validate env readOther executor rules true fuel schema path msg) := by
  induction fuel with
  | zero => exact fun _ _ _ => FailFast.agrees_throw _ _
  | succ fuel ih =>
    intro schema path msg
    unfold validate
    cases present msg with
    | none => exact FailFast.agrees_pure
    | some msg => exact validateType_agrees ih schema path msg

end

end Avro

end ConfluentKafka
