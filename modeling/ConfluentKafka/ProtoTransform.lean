import ConfluentKafka.JsValue
import ConfluentKafka.WalkRules

/-!
# The field transform of Protobuf messages

`transform` of `protobuf.ts` with the functions it calls. Descriptors refer to each other by numbers. A
message is the list of its own properties; what it inherits is a parameter.
-/

namespace ConfluentKafka

namespace Proto

/-- What `typeof` tells of a value that has no parts. -/
inductive JsType where
  | number | bigint | string | object | function
  deriving DecidableEq

def JsType.text : JsType → String
  | .number => "number"
  | .bigint => "bigint"
  | .string => "string"
  | .object => "object"
  | .function => "function"

/-- Values of fields. Those without parts are told apart by numbers; a map is a plain object. -/
inductive Value where
  | undefined
  | null
  | bool (b : Bool)
  | scalar (type : JsType) (id : Nat)
  | list (elems : List Value)
  | map (entries : List (String × Value))
  | message (typeName : String) (props : List (String × Value))
  | oneof (caseName : Option String) (value : Value)
  | reflect (message : Value)

inductive ScalarType where
  | double | float | int64 | uint64 | int32 | fixed64 | fixed32 | bool | string | bytes | uint32 | sfixed32
  | sfixed64 | sint32 | sint64
  deriving DecidableEq

/-- The kind of a field or of its elements, with the descriptor of a message. -/
inductive ElemKind where
  | scalar (type : ScalarType)
  | enum
  | message (desc : Nat)
  deriving DecidableEq

inductive FieldKind where
  | single (elem : ElemKind)
  | list (elem : ElemKind)
  | map (elem : ElemKind)
  deriving DecidableEq

def FieldKind.elem : FieldKind → ElemKind
  | .single e => e
  | .list e => e
  | .map e => e

structure DescField where
  name : String
  localName : String
  number : Nat
  kind : FieldKind
  oneof : Option String
  tags : List String
  deriving DecidableEq

structure DescMessage where
  typeName : String
  fields : List DescField
  deriving DecidableEq

def Value.isPlain : Value → Bool
  | .bool _ => true
  | .scalar _ _ => true
  | _ => false

/-- The descriptors, and what a message inherits: the default values of its prototype and the functions of all
objects. -/
structure Setting where
  descs : Nat → DescMessage
  inherits : String → String → Option Value
  plain : ∀ typeName localName value, inherits typeName localName = some value → value.isPlain = true

def isCelLeafMessage (typeName : String) : Bool :=
  typeName = "confluent.type.Decimal" ∨ typeName = "google.protobuf.Timestamp"

section Walk

variable (env : Setting)

def messageOf (fd : DescField) : Option DescMessage :=
  match fd.kind.elem with
  | .message i => some (env.descs i)
  | _ => none

def getScalarType : ScalarType → FieldType
  | .string => .STRING
  | .bytes => .BYTES
  | .int32 | .sint32 | .uint32 | .fixed32 | .sfixed32 => .INT
  | .int64 | .sint64 | .uint64 | .fixed64 | .sfixed64 => .LONG
  | .float => .FLOAT
  | .double => .DOUBLE
  | .bool => .BOOLEAN

def getElemType : ElemKind → FieldType
  | .message i =>
    if isCelLeafMessage (env.descs i).typeName then
      if (env.descs i).typeName = "confluent.type.Decimal" then .BYTES else .LONG
    else .RECORD
  | .enum => .ENUM
  | .scalar t => getScalarType t

def getType (fd : DescField) : FieldType :=
  match fd.kind with
  | .map _ => .MAP
  | .list e => getElemType env e
  | .single e => getElemType env e

def schemaFieldFor (descriptor : DescMessage) (runtimeDescriptor : Option DescMessage) (runtimeFd : DescField) :
    Option DescField :=
  match runtimeDescriptor with
  | none => some runtimeFd
  | some _ => descriptor.fields.find? fun f => f.number = runtimeFd.number

def Value.typeOf : Value → String
  | .undefined => "undefined"
  | .bool _ => "boolean"
  | .scalar t _ => t.text
  | _ => "object"

/-! ## Properties of a message -/

/-- The value of a field that a message has itself. The fields of a oneof share a property. -/
def ownValue (props : List (String × Value)) (fd : DescField) : Option Value :=
  match fd.oneof with
  | some oneof =>
    match props.lookup oneof with
    | some (.oneof (some caseName) value) => if caseName = fd.localName then some value else none
    | _ => none
  | none => props.lookup fd.localName

def isUndefined : Value → Bool
  | .undefined => true
  | _ => false

/-- What the walk reads. A field of a oneof that is not set is skipped, and so is a value that is undefined. -/
def fieldValue (typeName : String) (props : List (String × Value)) (fd : DescField) : Option Value :=
  ((ownValue props fd).or (if fd.oneof = none then env.inherits typeName fd.localName else none)).filter
    fun value => !isUndefined value

def setProp (props : List (String × Value)) (name : String) (newValue : Value) : List (String × Value) :=
  if (props.lookup name).isSome then updateProp name (fun _ => newValue) props else props ++ [(name, newValue)]

def assign (props : List (String × Value)) (fd : DescField) (newValue : Value) : List (String × Value) :=
  match fd.oneof with
  | some oneof => setProp props oneof (.oneof (some fd.localName) newValue)
  | none => setProp props fd.localName newValue

/-! ## The walk -/

variable (rule : WalkRule) (fieldTransform : FieldTransform Value)

def transformLeaf (value : Value) : Walk Empty Value := do
  let fieldCtx ← Walk.currentField
  Walk.ofExcept (Walk.applyRule rule fieldTransform fieldCtx value)

def unwrap : Value → Value
  | .reflect message => message
  | value => value

/-- The message that a rule returns for a field with a message that is a single value to rules. -/
def rebuildValueType (fd : DescField) (expected : String) (value : Value) : Except WalkError Value :=
  match value with
  | .undefined | .null => .error (.ruleError
      ("Rule '" ++ rule.name ++ "' returned null for field '" ++ fd.name ++ "', which is a " ++ expected))
  | value =>
    match unwrap value with
    | .message typeName props =>
      if typeName = expected then .ok (.message typeName props)
      else .error (.ruleError
        ("Rule '" ++ rule.name ++ "' returned " ++ typeName ++ " for field '" ++ fd.name ++
          "', which is a " ++ expected))
    | unwrapped => .error (.ruleError
        ("Rule '" ++ rule.name ++ "' returned " ++ unwrapped.typeOf ++ " for field '" ++ fd.name ++ "', which is a "
          ++ expected))

def rebuildEntry (fd : DescField) (expected : String) (entry : String × Value) :
    Except WalkError (String × Value) := do
  return (entry.1, ← rebuildValueType rule fd expected entry.2)

def rebuild (fd : DescField) (expected : String) (newValue : Value) : Except WalkError Value :=
  match fd.kind, newValue with
  | .list _, .list elems => do return .list (← elems.mapM (rebuildValueType rule fd expected))
  | .map _, .map entries => do return .map (← entries.mapM (rebuildEntry rule fd expected))
  | _, value => rebuildValueType rule fd expected value

/-- `result[key] = value` sets the prototype of the result for one key. -/
def plainObject (entries : List (String × Value)) : List (String × Value) :=
  entries.filter fun entry => entry.1 ≠ "__proto__"

def transformElem (walk : DescMessage → Option DescMessage → Value → Walk Empty Value)
    (nestedRuntime : Option DescMessage)
    (elem : ElemKind) (value : Value) : Walk Empty Value :=
  match elem with
  | .message i => walk (env.descs i) nestedRuntime value
  | _ => transformLeaf rule fieldTransform value

def transformFieldValue (walk : DescMessage → Option DescMessage → Value → Walk Empty Value)
    (fd runtimeFd : DescField)
    (value : Value) : Walk Empty Value :=
  match value with
  | .undefined => return .undefined
  | .null => return .null
  | value =>
    match fd.kind with
    | .single elem => transformElem env rule fieldTransform walk (messageOf env runtimeFd) elem value
    | .list elem =>
      match value with
      | .list elems => do
        return .list
          (← Walk.mapEach (transformElem env rule fieldTransform walk (messageOf env runtimeFd) elem) elems)
      | value => return value
    | .map (.message i) =>
      match value with
      | .map entries => do
        return .map (plainObject (← Walk.mapValues (walk (env.descs i) (messageOf env runtimeFd)) entries))
      | value => return value
    | .map _ => return value

def rebuilt (runtimeFd : DescField) (newValue : Value) : Except WalkError Value :=
  match messageOf env runtimeFd with
  | some desc =>
    if !rule.condition ∧ isCelLeafMessage desc.typeName then rebuild rule runtimeFd desc.typeName newValue
    else .ok newValue
  | none => .ok newValue

def writeBack (props : List (String × Value)) (runtimeFd : DescField) (newValue : Value) :
    Except WalkError (List (String × Value)) :=
  if rule.condition then
    match newValue with
    | .bool false => .error .ruleConditionError
    | _ => .ok props
  else .ok (assign props runtimeFd newValue)

def transformField (walk : DescMessage → Option DescMessage → Value → Walk Empty Value) (fd runtimeFd : DescField)
    (desc : DescMessage) (typeName : String) (props : List (String × Value)) : Walk Empty (List (String × Value)) :=
  Walk.inField (Walk.enterField rule (desc.typeName ++ "." ++ fd.name) fd.name (getType env runtimeFd) fd.tags) do
    match fieldValue env typeName props runtimeFd with
    | none => return props
    | some value => do
      let newValue ← transformFieldValue env rule fieldTransform walk fd runtimeFd value
      let newValue ← Walk.ofExcept (rebuilt env rule runtimeFd newValue)
      Walk.ofExcept (writeBack rule props runtimeFd newValue)

def transformFields (walk : DescMessage → Option DescMessage → Value → Walk Empty Value) (descriptor : DescMessage)
    (runtimeDescriptor : Option DescMessage) (typeName : String) :
    List DescField → List (String × Value) → Walk Empty (List (String × Value))
  | [], props => return props
  | runtimeFd :: fds, props =>
    match schemaFieldFor descriptor runtimeDescriptor runtimeFd with
    | none => transformFields walk descriptor runtimeDescriptor typeName fds props
    | some fd => do
      let props ← transformField env rule fieldTransform walk fd runtimeFd descriptor typeName props
      transformFields walk descriptor runtimeDescriptor typeName fds props

def transform : Nat → DescMessage → Option DescMessage → Value → Walk Empty Value
  | 0, _, _, _ => throw .outOfFuel
  | fuel + 1, descriptor, runtimeDescriptor, msg =>
    match msg with
    | .undefined => return .undefined
    | .null => return .null
    | .message typeName props =>
      if isCelLeafMessage typeName then transformLeaf rule fieldTransform (.message typeName props)
      else do
        let props ← transformFields env rule fieldTransform (transform fuel) descriptor runtimeDescriptor typeName
          (runtimeDescriptor.getD descriptor).fields props
        return .message typeName props
    | value => transformLeaf rule fieldTransform value

/-! ## The walk is orderly -/

open ConfluentKafka.Walk (Orderly)

variable {env rule fieldTransform} {walk : DescMessage → Option DescMessage → Value → Walk Empty Value}

theorem transformLeaf_orderly (value : Value) : Orderly (transformLeaf rule fieldTransform value) :=
  Orderly.bind Orderly.currentField fun _ => Orderly.ofExcept _

theorem transformElem_orderly (hwalk : ∀ d r v, Orderly (walk d r v)) (nestedRuntime : Option DescMessage)
    (elem : ElemKind) (value : Value) :
    Orderly (transformElem env rule fieldTransform walk nestedRuntime elem value) := by
  unfold transformElem
  split
  · exact hwalk _ _ value
  · exact transformLeaf_orderly value

theorem transformFieldValue_orderly (hwalk : ∀ d r v, Orderly (walk d r v)) (fd runtimeFd : DescField)
    (value : Value) :
    Orderly (transformFieldValue env rule fieldTransform walk fd runtimeFd value) := by
  unfold transformFieldValue
  split
  · exact Orderly.pure _
  · exact Orderly.pure _
  · split
    · exact transformElem_orderly hwalk _ _ _
    · split
      · exact Orderly.bind (Orderly.mapEach (transformElem_orderly hwalk _ _) _) fun _ => Orderly.pure _
      · exact Orderly.pure _
    · split
      · exact Orderly.bind (Orderly.mapValues (hwalk _ _) _) fun _ => Orderly.pure _
      · exact Orderly.pure _
    · exact Orderly.pure _

theorem transformField_orderly (hwalk : ∀ d r v, Orderly (walk d r v)) (fd runtimeFd : DescField)
    (desc : DescMessage)
    (typeName : String) (props : List (String × Value)) :
    Orderly (transformField env rule fieldTransform walk fd runtimeFd desc typeName props) := by
  refine Orderly.inField _ ?_
  split
  · exact Orderly.pure props
  · exact Orderly.bind (transformFieldValue_orderly hwalk fd runtimeFd _) fun _ =>
      Orderly.bind (Orderly.ofExcept _) fun _ => Orderly.ofExcept _

theorem transformFields_orderly (hwalk : ∀ d r v, Orderly (walk d r v)) (descriptor : DescMessage)
    (runtimeDescriptor : Option DescMessage) (typeName : String) (fds : List DescField)
    (props : List (String × Value)) :
    Orderly (transformFields env rule fieldTransform walk descriptor runtimeDescriptor typeName fds props) := by
  induction fds generalizing props with
  | nil => exact Orderly.pure props
  | cons runtimeFd fds ih =>
    unfold transformFields
    split
    · exact ih props
    · exact Orderly.bind (transformField_orderly hwalk _ runtimeFd descriptor typeName props) ih

theorem transform_orderly (fuel : Nat) (descriptor : DescMessage) (runtimeDescriptor : Option DescMessage)
    (msg : Value) : Orderly (transform env rule fieldTransform fuel descriptor runtimeDescriptor msg) := by
  induction fuel generalizing descriptor runtimeDescriptor msg with
  | zero => exact Orderly.throw _
  | succ fuel ih =>
    unfold transform
    split
    · exact Orderly.pure _
    · exact Orderly.pure _
    · refine Orderly.ite (fun _ => transformLeaf_orderly _) fun _ => ?_
      exact Orderly.bind (transformFields_orderly ih descriptor runtimeDescriptor _ _ _) fun _ => Orderly.pure _
    · exact transformLeaf_orderly _

end Walk

end Proto

end ConfluentKafka
