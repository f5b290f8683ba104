import ConfluentKafka.JsValue
import ConfluentKafka.WalkRules

/-!
# The field transform of Avro messages

`transform` of `avro.ts` with the functions it calls, over the types that the Avro library makes of a
schema. A record type is known by its name; the validity check of the library is a parameter. The
notes of a walk are the calls of the field transform.
-/

namespace ConfluentKafka

namespace Avro

/-- Values in the form that the library reads and writes. Those of logical types, but for variants, are told
apart by numbers. -/
inductive Datum where
  | null
  | boolean (b : Bool)
  | number (n : ℚ)
  | string (s : String)
  | bytes (bs : List UInt8)
  | logical (id : Nat)
  | variant (id : Nat)
  | array (elems : List Datum)
  | object (props : List (String × Datum))

/-- The types without parts. A logical type has the name of its underlying type in unions. -/
inductive Leaf where
  | null | boolean | int | long | float | double | bytes | string
  | enum (name : String)
  | fixed (name : String)
  | logical (branchName : String)
  deriving DecidableEq

inductive AvType where
  | leaf (leaf : Leaf)
  | variant (name : String)
  | array (items : AvType)
  | map (values : AvType)
  | union (wrapped : Bool) (types : List AvType)
  | record (name : String)

/-- A field of a record type. The library drops the tags of the schema. -/
structure Field where
  name : String
  type : AvType
  hasDefault : Bool
  tags : List String

abbrev Call := FieldContext × Datum

structure Setting where
  fields : String → List Field
  isValid : AvType → Datum → Bool
  inherits : String → Bool
  inlineTags : String → List String

def Leaf.getType : Leaf → FieldType
  | .null => .NULL
  | .boolean => .BOOLEAN
  | .int => .INT
  | .long => .LONG
  | .float => .FLOAT
  | .double => .DOUBLE
  | .bytes => .BYTES
  | .string => .STRING
  | .enum _ => .ENUM
  | .fixed _ => .FIXED
  | .logical _ => .NULL

def getType : AvType → FieldType
  | .leaf l => l.getType
  | .variant _ => .RECORD
  | .array _ => .ARRAY
  | .map _ => .MAP
  | .union _ _ => .COMBINED
  | .record _ => .RECORD

def Leaf.branchName : Leaf → String
  | .null => "null"
  | .boolean => "boolean"
  | .int => "int"
  | .long => "long"
  | .float => "float"
  | .double => "double"
  | .bytes => "bytes"
  | .string => "string"
  | .enum name => name
  | .fixed name => name
  | .logical name => name

/-- The name of a type in a wrapped union, which a union does not have. -/
def branchName : AvType → Option String
  | .leaf l => some l.branchName
  | .variant name => some name
  | .array _ => some "array"
  | .map _ => some "map"
  | .union _ _ => none
  | .record name => some name

def isNullType : AvType → Bool
  | .leaf .null => true
  | _ => false

def isNull : Datum → Bool
  | .null => true
  | _ => false

def arrayElems : Datum → List Datum
  | .array elems => elems
  | .string s => s.toList.map fun c => .string (String.singleton c)
  | .bytes bs => bs.map fun b => .number b.toNat
  | _ => []

def indexed (elems : List Datum) : List (String × Datum) := elems.mapIdx fun i v => (toString i, v)

/-- `Object.keys` with the values. -/
def ownEntries : Datum → List (String × Datum)
  | .object props => props
  | v => indexed (arrayElems v)

def isObject : Datum → Bool
  | .array _ => true
  | .object _ => true
  | .bytes _ => true
  | .logical _ => true
  | .variant _ => true
  | _ => false

section Walk

variable (env : Setting)

def resolveUnion (wrapped : Bool) (types : List AvType) (msg : Datum) :
    Except WalkError (Option (AvType × Datum)) :=
  if wrapped then
    if isNull msg then .ok ((types.find? isNullType).map fun t => (t, msg))
    else if isObject msg then
      match ownEntries msg with
      | [(name, value)] => .ok ((types.find? fun t => branchName t = some name).map fun t => (t, value))
      | _ => .error (.error "wrapped unions require a name/value pair with the name as the type name")
    else .ok none
  else .ok ((types.find? fun t => env.isValid t msg).map fun t => (t, msg))

def wrap (t : AvType) (value : Datum) : Datum := .object [((branchName t).getD "undefined", value)]

def rewrap (fullName : String) (types : List AvType) (subschema : AvType) (submsg : Datum) :
    Except WalkError Datum :=
  if isNull submsg then .ok .null
  else if env.isValid subschema submsg then .ok (wrap subschema submsg)
  else
    match types.find? fun t => env.isValid t submsg with
    | some branch => .ok (wrap branch submsg)
    | none => .error (.error ("no union branch accepts the value returned for " ++ fullName))

variable (rule : WalkRule) (fieldTransform : FieldTransform Datum)

def transformLeaf (msg : Datum) (fieldCtx : Option FieldContext) : Walk Call Datum :=
  match fieldCtx with
  | none => return msg
  | some c =>
    if Walk.applies rule c then do
      Walk.note (c, msg)
      Walk.ofExcept (fieldTransform c msg)
    else return msg

def currentName : Walk Call String := do
  return ((← Walk.currentField).map (·.fullName)).getD "undefined"

def rewrapped (wrapped : Bool) (types : List AvType) (subschema : AvType) (submsg : Datum) : Walk Call Datum := do
  let fullName ← currentName
  Walk.ofExcept (if wrapped then rewrap env fullName types subschema submsg else .ok submsg)

def transformUnion (walk : AvType → Datum → Walk Call Datum) (wrapped : Bool) (types : List AvType) (msg : Datum) :
    Walk Call Datum := do
  match ← Walk.ofExcept (resolveUnion env wrapped types msg) with
  | none => return msg
  | some (subschema, submsg) =>
    let submsg ← walk subschema submsg
    rewrapped env wrapped types subschema submsg

def transformArray (walk : Datum → Walk Call Datum) (msg : Datum) : Walk Call Datum :=
  if isNull msg then return msg
  else do
    let newArray ← Walk.mapEach walk (arrayElems msg)
    return .array newArray

/-- The new map has no prototype, so that every key is a property of its own. -/
def transformMap (walk : Datum → Walk Call Datum) (msg : Datum) : Walk Call Datum :=
  if isNull msg then return msg
  else do
    let newMap ← Walk.mapValues walk (ownEntries msg)
    return .object newMap

def setProp (props : List (String × Datum)) (name : String) (newVal : Datum) : List (String × Datum) :=
  if (props.lookup name).isSome then updateProp name (fun _ => newVal) props else props ++ [(name, newVal)]

def writeBack (props : List (String × Datum)) (name : String) (newVal : Datum) :
    Except WalkError (List (String × Datum)) :=
  if rule.condition then
    match newVal with
    | .boolean false => .error .ruleConditionError
    | _ => .ok props
  else .ok (setProp props name newVal)

/-- `record[name]`, where the functions that objects inherit are not told apart. -/
def readProp (props : List (String × Datum)) (name : String) : Option Datum :=
  match props.lookup name with
  | some v => some v
  | none => if env.inherits name then some (.logical 0) else none

def transformField (walk : AvType → Datum → Walk Call Datum) (recordName : String) (field : Field)
    (props : List (String × Datum)) (value : Datum) : Walk Call (List (String × Datum)) :=
  let fullName := recordName ++ "." ++ field.name
  Walk.inField (Walk.enterField rule fullName field.name (getType field.type) (env.inlineTags fullName)) do
    let newVal ← walk field.type value
    Walk.ofExcept (writeBack rule props field.name newVal)

def transformFields (walk : AvType → Datum → Walk Call Datum) (recordName : String) :
    List Field → List (String × Datum) → Walk Call (List (String × Datum))
  | [], props => return props
  | field :: fields, props =>
    match readProp env props field.name with
    | none => transformFields walk recordName fields props
    | some value => do
      let props ← transformField env rule walk recordName field props value
      transformFields walk recordName fields props

def transformRecord (walk : AvType → Datum → Walk Call Datum) (recordName : String) (msg : Datum) :
    Walk Call Datum :=
  match msg with
  | .object props => do
    let props ← transformFields env rule walk recordName (env.fields recordName) props
    return .object props
  | msg => if isNull msg ∨ isObject msg ∨ env.fields recordName = [] then return msg else throw .typeError

def transformType (walk : AvType → Datum → Walk Call Datum) (schema : AvType) (msg : Datum)
    (fieldCtx : Option FieldContext) : Walk Call Datum :=
  match schema with
  | .union wrapped types => transformUnion env walk wrapped types msg
  | .array items => transformArray (walk items) msg
  | .map values => transformMap (walk values) msg
  | .record name => transformRecord env rule walk name msg
  | .variant _ => return msg
  | .leaf _ => transformLeaf rule fieldTransform msg fieldCtx

def transform : Nat → AvType → Datum → Walk Call Datum
  | 0, _, _ => throw .outOfFuel
  | fuel + 1, schema, msg => do
    Walk.setType (getType schema)
    let fieldCtx ← Walk.currentField
    transformType env rule fieldTransform (transform fuel) schema msg fieldCtx

/-! ## The walk is orderly -/

open ConfluentKafka.Walk (Orderly)

variable {env rule fieldTransform} {walk : AvType → Datum → Walk Call Datum}

theorem transformLeaf_orderly (msg : Datum) (fieldCtx : Option FieldContext) :
    Orderly (transformLeaf rule fieldTransform msg fieldCtx) := by
  cases fieldCtx with
  | none => exact Orderly.pure msg
  | some c =>
    exact Orderly.ite (fun _ => Orderly.bind (Orderly.note _) fun _ => Orderly.ofExcept _) fun _ => Orderly.pure msg

theorem rewrapped_orderly (wrapped : Bool) (types : List AvType) (subschema : AvType) (submsg : Datum) :
    Orderly (rewrapped env wrapped types subschema submsg) :=
  Orderly.bind (Orderly.bind Orderly.currentField fun _ => Orderly.pure _) fun _ => Orderly.ofExcept _

theorem transformUnion_orderly (hwalk : ∀ t v, Orderly (walk t v)) (wrapped : Bool) (types : List AvType)
    (msg : Datum) :
    Orderly (transformUnion env walk wrapped types msg) := by
  refine Orderly.bind (Orderly.ofExcept _) fun resolved => ?_
  cases resolved with
  | none => exact Orderly.pure msg
  | some sub => exact Orderly.bind (hwalk sub.1 sub.2) fun _ => rewrapped_orderly wrapped types _ _

theorem transformArray_orderly {walk : Datum → Walk Call Datum} (hwalk : ∀ v, Orderly (walk v)) (msg : Datum) :
    Orderly (transformArray walk msg) :=
  Orderly.ite (fun _ => Orderly.pure msg) fun _ => Orderly.bind (Orderly.mapEach hwalk _) fun _ => Orderly.pure _

theorem transformMap_orderly {walk : Datum → Walk Call Datum} (hwalk : ∀ v, Orderly (walk v)) (msg : Datum) :
    Orderly (transformMap walk msg) :=
  Orderly.ite (fun _ => Orderly.pure msg) fun _ => Orderly.bind (Orderly.mapValues hwalk _) fun _ => Orderly.pure _

theorem transformField_orderly (hwalk : ∀ t v, Orderly (walk t v)) (recordName : String) (field : Field)
    (props : List (String × Datum)) (value : Datum) :
    Orderly (transformField env rule walk recordName field props value) :=
  Orderly.inField _ (Orderly.bind (hwalk _ _) fun _ => Orderly.ofExcept _)

theorem transformFields_orderly (hwalk : ∀ t v, Orderly (walk t v)) (recordName : String) (fields : List Field)
    (props : List (String × Datum)) : Orderly (transformFields env rule walk recordName fields props) := by
  induction fields generalizing props with
  | nil => exact Orderly.pure props
  | cons field fields ih =>
    unfold transformFields
    split
    · exact ih props
    · exact Orderly.bind (transformField_orderly hwalk recordName field props _) ih

theorem transformRecord_orderly (hwalk : ∀ t v, Orderly (walk t v)) (recordName : String) (msg : Datum) :
    Orderly (transformRecord env rule walk recordName msg) := by
  unfold transformRecord
  split
  · exact Orderly.bind (transformFields_orderly hwalk recordName _ _) fun _ => Orderly.pure _
  · exact Orderly.ite (fun _ => Orderly.pure _) fun _ => Orderly.throw _

theorem transformType_orderly (hwalk : ∀ t v, Orderly (walk t v)) (schema : AvType) (msg : Datum)
    (fieldCtx : Option FieldContext) : Orderly
    (transformType env rule fieldTransform walk schema msg fieldCtx) := by
  cases schema with
  | leaf l => exact transformLeaf_orderly msg fieldCtx
  | variant name => exact Orderly.pure msg
  | array items => exact transformArray_orderly (hwalk items) msg
  | map values => exact transformMap_orderly (hwalk values) msg
  | union wrapped types => exact transformUnion_orderly hwalk wrapped types msg
  | record name => exact transformRecord_orderly hwalk name msg

theorem transform_orderly (fuel : Nat) (schema : AvType) (msg : Datum) :
    Orderly (transform env rule fieldTransform fuel schema msg) := by
  induction fuel generalizing schema msg with
  | zero => exact Orderly.throw _
  | succ fuel ih =>
    exact Orderly.bind (Orderly.setType _) fun _ => Orderly.bind Orderly.currentField fun _ =>
      transformType_orderly ih schema msg _

end Walk

end Avro

end ConfluentKafka
