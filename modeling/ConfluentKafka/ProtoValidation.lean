import ConfluentKafka.ProtoTransform
import ConfluentKafka.ValidationRules

/-!
# The validation walk of Protobuf messages

`validateProtobufMessage` of `protobuf.ts`. The message of the caller decides which fields there are; the
registered schema has the rules, and its reading of the same bytes has the values where there is one.
-/

namespace ConfluentKafka

namespace Proto

open FailFast (forEach unlessLeft)

inductive RuleSchema where
  | message (desc : DescMessage)
  | field (desc : DescMessage) (fd : DescField)

/-- The rules of a message and those of its fields, which are told apart by the message they are in. -/
structure RuleOptions where
  getMessageValidationRules : DescMessage → List ValidationRule
  getFieldValidationRules : DescMessage → DescField → List ValidationRule

section

variable (env : Setting) (options : RuleOptions) (executor : ValidationRuleExecutor RuleSchema Value)
  (failFast : Bool)

def isNullish : Value → Bool
  | .undefined => true
  | .null => true
  | _ => false

def readField (msg : Value) (fd : DescField) : Option Value :=
  match msg with
  | .message typeName props =>
    (ownValue props fd).or (if fd.oneof = none then env.inherits typeName fd.localName else none)
  | _ => none

def present (value : Option Value) : Option Value := value.filter fun v => !isNullish v

/-- `schemaValue !== undefined ? schemaValue : value`. -/
def ruleValue (schemaValue : Option Value) (value : Value) : Value :=
  (schemaValue.filter fun v => !isUndefined v).getD value

def listElems : Value → List Value
  | .list elems => elems
  | _ => []

/-- `Object.keys` with the values. -/
def ownEntries : Value → List (String × Value)
  | .map entries => entries
  | .list elems => elems.mapIdx fun i v => (toString i, v)
  | .message _ props => props
  | _ => []

def childPath (path name : String) : String := if path = "" then name else path ++ "." ++ name

abbrev WalkType := DescMessage → DescMessage → String → Option Value → Option Value →
    Validation RuleSchema Value Unit

/-- The parts of a field with messages: itself, the elements of a list or the values of a map. -/
def validateParts (walk : WalkType) (fd runtimeFd : DescField) (path : String) (value : Value)
    (schemaValue : Option Value) :
    Validation RuleSchema Value Unit :=
  match runtimeFd.kind, fd.kind with
  | .single (.message r), .single (.message d) => walk (env.descs d) (env.descs r) path (some value) schemaValue
  | .list (.message r), .list (.message d) =>
    unlessLeft
      (forEach failFast (fun (i, v) => walk (env.descs d) (env.descs r) (path ++ "[" ++ toString i ++ "]") (some v)
      (schemaValue.bind fun s => (listElems s)[i]?)) ((listElems value).mapIdx Prod.mk)) (pure ())
  | .map (.message r), .map (.message d) =>
    unlessLeft
      (forEach failFast (fun (key, v) => walk (env.descs d) (env.descs r) (path ++ "[\"" ++ key ++ "\"]") (some v)
      ((present schemaValue).bind fun s => (ownEntries s).lookup key)) (ownEntries value)) (pure ())
  | _, _ => pure ()

def validateValue (walk : WalkType) (descriptor : DescMessage) (fd runtimeFd : DescField) (path : String)
    (value : Value)
    (schemaValue : Option Value) : Validation RuleSchema Value Unit :=
  unlessLeft (forEach failFast (fun rule =>
      evaluateValidationRule executor rule (.field descriptor fd) (ruleValue schemaValue value) path)
      (options.getFieldValidationRules descriptor fd))
    (validateParts env failFast walk fd runtimeFd path value schemaValue)

/-- Fields that the schema does not declare, and those that are absent in the message of the caller, are skipped. -/
def validateField (walk : WalkType) (descriptor runtimeDescriptor : DescMessage) (path : String) (msg : Value)
    (schemaMsg : Option Value)
    (runtimeFd : DescField) : Validation RuleSchema Value Unit :=
  match schemaFieldFor descriptor (some runtimeDescriptor) runtimeFd with
  | none => pure ()
  | some fd =>
    match present (readField env msg runtimeFd) with
    | none => pure ()
    | some value =>
      validateValue env options executor failFast walk descriptor fd runtimeFd (childPath path fd.name) value
        ((present schemaMsg).bind fun s => readField env s fd)

def validateFields (walk : WalkType) (descriptor runtimeDescriptor : DescMessage) (path : String) (msg : Value)
    (schemaMsg : Option Value) :
    Validation RuleSchema Value Unit :=
  unlessLeft (forEach failFast (validateField env options executor failFast walk descriptor runtimeDescriptor path
    msg schemaMsg)
    runtimeDescriptor.fields) (pure ())

def validate : Nat → DescMessage → DescMessage → String → Option Value → Option Value →
    Validation RuleSchema Value Unit
  | 0, _, _, _, _, _ => throw .outOfFuel
  | fuel + 1, descriptor, runtimeDescriptor, path, msg, schemaMsg =>
    match msg with
    | some (.message typeName props) =>
      unlessLeft (forEach failFast (fun rule =>
          evaluateValidationRule executor rule (.message descriptor)
            ((present schemaMsg).getD (.message typeName props)) path)
          (options.getMessageValidationRules descriptor))
        (validateFields env options executor failFast (validate fuel) descriptor runtimeDescriptor path
          (.message typeName props) schemaMsg)
    | _ => pure ()

/-- What the message is in the terms of the registered schema: the library reads the bytes of the message by it. -/
structure SchemaView where
  needsSchemaView : DescMessage → DescMessage → Bool
  reread : DescMessage → DescMessage → Value → Except String Value

variable (view : SchemaView)

def schemaMessage (descriptor : DescMessage) (runtimeDescriptor : Option DescMessage) (msg : Value) :
    Except WalkError (Option Value) :=
  match runtimeDescriptor with
  | none => .ok none
  | some runtimeDescriptor =>
    if view.needsSchemaView descriptor runtimeDescriptor then
      match view.reread descriptor runtimeDescriptor msg with
      | .ok schemaMsg => .ok (some schemaMsg)
      | .error message => .error (.error
          ("could not read message " ++ descriptor.typeName ++ " through the registered schema: " ++ message))
    else .ok none

def validateProtobufMessage (fuel : Nat) (descriptor : DescMessage) (runtimeDescriptor : Option DescMessage)
    (msg : Value) :
    Except WalkError (FailFast.Report (Evaluation RuleSchema Value) ValidationRuleError) :=
  match present (some msg) with
  | none => .ok ⟨[], []⟩
  | some msg => do
    let schemaMsg ← schemaMessage view descriptor runtimeDescriptor msg
    (validate env options executor failFast fuel descriptor (runtimeDescriptor.getD descriptor) ""
      (some msg) schemaMsg ⟨[], []⟩).map
      Prod.snd

end

/-! ## Both runs -/

section

variable {env : Setting} {options : RuleOptions} {executor : ValidationRuleExecutor RuleSchema Value}
  {full fast : WalkType}
  (hwalk : ∀ descriptor runtimeDescriptor path msg schemaMsg,
    StopsAtFailure (full descriptor runtimeDescriptor path msg schemaMsg)
      (fast descriptor runtimeDescriptor path msg schemaMsg))

include hwalk

theorem validateParts_agrees (fd runtimeFd : DescField) (path : String) (value : Value)
    (schemaValue : Option Value) :
    StopsAtFailure (validateParts env false full fd runtimeFd path value schemaValue)
      (validateParts env true fast fd runtimeFd path value schemaValue) := by
  unfold validateParts
  split
  · exact hwalk _ _ path _ _
  · exact FailFast.agrees_unlessLeft (FailFast.leaves_forEach fun _ _ => hwalk _ _ _ _ _) FailFast.agrees_pure
  · exact FailFast.agrees_unlessLeft (FailFast.leaves_forEach fun _ _ => hwalk _ _ _ _ _) FailFast.agrees_pure
  · exact FailFast.agrees_pure

theorem validateField_agrees (descriptor runtimeDescriptor : DescMessage) (path : String) (msg : Value)
    (schemaMsg : Option Value)
    (runtimeFd : DescField) :
    StopsAtFailure (validateField env options executor false full descriptor runtimeDescriptor path msg
      schemaMsg runtimeFd)
      (validateField env options executor true fast descriptor runtimeDescriptor path msg schemaMsg runtimeFd) := by
  unfold validateField
  cases schemaFieldFor descriptor (some runtimeDescriptor) runtimeFd with
  | none => exact FailFast.agrees_pure
  | some fd =>
    cases present (readField env msg runtimeFd) with
    | none => exact FailFast.agrees_pure
    | some value =>
      exact FailFast.agrees_unlessLeft (FailFast.leaves_forEach fun rule _ =>
        evaluateValidationRule_agrees rule _ _ _)
        (validateParts_agrees hwalk fd runtimeFd _ value _)

theorem validateFields_agrees (descriptor runtimeDescriptor : DescMessage) (path : String) (msg : Value)
    (schemaMsg : Option Value) :
    StopsAtFailure (validateFields env options executor false full descriptor runtimeDescriptor path msg schemaMsg)
      (validateFields env options executor true fast descriptor runtimeDescriptor path msg schemaMsg) :=
  FailFast.agrees_unlessLeft
    (FailFast.leaves_forEach fun fd _ => validateField_agrees hwalk descriptor runtimeDescriptor path
      msg schemaMsg fd)
    FailFast.agrees_pure

end

theorem validate_agrees {env : Setting} {options : RuleOptions} {executor : ValidationRuleExecutor RuleSchema Value}
    (fuel : Nat) :
    ∀ (descriptor runtimeDescriptor : DescMessage) (path : String) (msg schemaMsg : Option Value),
      StopsAtFailure (validate env options executor false fuel descriptor runtimeDescriptor path msg schemaMsg)
        (validate env options executor true fuel descriptor runtimeDescriptor path msg schemaMsg) := by
  induction fuel with
  | zero => exact fun _ _ _ _ _ => FailFast.agrees_throw _ _
  | succ fuel ih =>
    intro descriptor runtimeDescriptor path msg schemaMsg
    unfold validate
    split
    · exact FailFast.agrees_unlessLeft (FailFast.leaves_forEach fun rule _ =>
        evaluateValidationRule_agrees rule _ _ path)
        (validateFields_agrees ih descriptor runtimeDescriptor path _ schemaMsg)
    · exact FailFast.agrees_pure

end Proto

end ConfluentKafka
