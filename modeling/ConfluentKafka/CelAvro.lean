import ConfluentKafka.AvroNames
import ConfluentKafka.CelScalars
import ConfluentKafka.JsValue

/-!
# Avro values of rules

`avroToCel` and `celToAvro` of `cel-executor.ts` with the functions that choose the branch of a union,
over schemas as they are written. The names of a schema are looked up in the index of its definitions.
-/

namespace ConfluentKafka

namespace Cel

/-- The values on both sides. A number that is no integer is told apart by a number, next to its whole part. -/
inductive Value where
  | null
  | boolean (b : Bool)
  | integer (n : Int)
  | fraction (whole : Int) (id : Nat)
  | nonFinite (id : Nat)
  | bigint (n : Int)
  | string (s : String)
  | bytes (bs : Bytes)
  | decimal (p : ProtoDecimal)
  | timestamp (ts : Timestamp)
  | variant (v : Variant)
  | variantMessage (value metadata : Bytes)
  | array (elems : List Value)
  | object (props : List (String × Value))

inductive Primitive where
  | null | boolean | int | long | float | double | bytes | string
  deriving DecidableEq

/-- Dates, times of day and local timestamps are integers on both sides. -/
inductive LogicalType where
  | decimal (scale : Option Nat)
  | timestamp (unit : TimeUnit)
  | temporal
  | other
  deriving DecidableEq

mutual

/-- A schema as it is written. A text names a primitive type or a definition. -/
inductive Node where
  | name (s : String)
  | union (branches : List Node)
  | primitive (type : Primitive) (logicalType : Option LogicalType)
  | enum (name : String) (nspace : Option String) (symbols : List String)
  | fixed (name : String) (nspace : Option String) (size : Nat) (logicalType : Option LogicalType)
  | array (items : Node)
  | map (values : Node)
  | record (name : String) (nspace : Option String) (isVariant : Bool) (fields : List Field)

inductive Field where
  | mk (name : String) (type : Node) (hasDefault : Bool)

end

namespace Field

def name : Field → String
  | mk name _ _ => name

def type : Field → Node
  | mk _ type _ => type

def hasDefault : Field → Bool
  | mk _ _ hasDefault => hasDefault

end Field

/-- The index of the definitions, and what `Number` makes of a value that is no number, without its fraction. -/
structure Setting where
  named : String → Option Node
  numberOf : Value → Option Int

/-! ## Types of nodes -/

inductive TypeName where
  | primitive (type : Primitive)
  | enum | fixed | array | map | record
  deriving DecidableEq

def TypeName.ofName : String → Option TypeName
  | "null" => some (.primitive .null)
  | "boolean" => some (.primitive .boolean)
  | "int" => some (.primitive .int)
  | "long" => some (.primitive .long)
  | "float" => some (.primitive .float)
  | "double" => some (.primitive .double)
  | "bytes" => some (.primitive .bytes)
  | "string" => some (.primitive .string)
  | "enum" => some .enum
  | "fixed" => some .fixed
  | "array" => some .array
  | "map" => some .map
  | "record" => some .record
  | _ => none

namespace Node

def typeName : Node → Option TypeName
  | name s => TypeName.ofName s
  | union _ => none
  | primitive type _ => some (.primitive type)
  | enum .. => some .enum
  | fixed .. => some .fixed
  | array _ => some .array
  | map _ => some .map
  | record .. => some .record

def logicalType : Node → Option LogicalType
  | primitive _ logicalType => logicalType
  | fixed _ _ _ logicalType => logicalType
  | _ => none

def isVariant : Node → Bool
  | record _ _ isVariant _ => isVariant
  | _ => false

def symbols : Node → List String
  | enum _ _ symbols => symbols
  | _ => []

def size : Node → Option Nat
  | fixed _ _ size _ => some size
  | _ => none

end Node

def isNullBranch : Node → Bool
  | .name "null" => true
  | .primitive .null _ => true
  | _ => false

def resolveAvroNode (named : String → Option Node) (ns : String) : Node → Node
  | .name s =>
    if ns ≠ "" ∧ '.' ∉ s.toList then (named (ns ++ "." ++ s)).getD ((named s).getD (.name s))
    else (named s).getD (.name s)
  | node => node

/-! ## Shapes of values -/

def Value.isNull : Value → Bool
  | .null => true
  | _ => false

def ownIndices (elems : List Value) : List (String × Value) := elems.mapIdx fun i v => (toString i, v)

def ownProps : Value → List (String × Value)
  | .object props => props
  | .array elems => ownIndices elems
  | .bytes bs => ownIndices (bs.map fun b => .integer b.toNat)
  | .string s => ownIndices (s.toList.map fun c => .string (String.singleton c))
  | .variant v => [("value", .bytes v.value), ("metadata", .bytes v.metadata)]
  | _ => []

def typeTag : Value → Option String
  | .object props =>
    match props.lookup "$typeName" with
    | some (.string s) => some s
    | _ => none
  | _ => none

def isCelDecimal : Value → Bool
  | .decimal _ => true
  | _ => false

def isCelTimestamp : Value → Bool
  | .timestamp _ => true
  | v => typeTag v = some "google.protobuf.Timestamp"

def newVariant (value metadata : Bytes) : Except CelError Variant :=
  match Variant.new value metadata 0 with
  | .ok v => .ok v
  | .error e => .error (.variant e)

def standaloneValueBytes (v : Variant) : Bytes := if v.pos = 0 then v.value else v.value.drop v.pos.toNat

def variantToCel (v : Variant) : Value := .variantMessage (standaloneValueBytes v) v.metadata

def variantOf (value metadata : Option Value) : Except CelError Variant :=
  match value, metadata with
  | some (.bytes value), some (.bytes metadata) => newVariant value metadata
  | _, _ => throw .typeError

def isEmptyValue : Value → Bool
  | .bytes [] => true
  | .string "" => true
  | .array [] => true
  | _ => false

def tryReader : Value → Except CelError (Option Variant)
  | .variant v => return if v.metadata = [] then none else some v
  | .variantMessage value metadata =>
    if metadata = [] then return none else some <$> newVariant value metadata
  | .object props =>
    if typeTag (.object props) = some "confluent.type.Variant" then
      match props.lookup "metadata" with
      | some metadata =>
        if isEmptyValue metadata then return none else some <$> variantOf (props.lookup "value") (some metadata)
      | none => throw .typeError
    else return none
  | _ => return none

def isVariantValue : Value → Bool
  | .variant _ => true
  | _ => false

def isCelList : Value → Bool
  | .array _ => true
  | _ => false

/-- Byte arrays have a function `entries`, so that they count as structures. -/
def isCelStruct : Value → Bool
  | .object _ => true
  | .bytes _ => true
  | .decimal _ => true
  | .timestamp _ => true
  | .variant _ => true
  | .variantMessage _ _ => true
  | _ => false

/-! ## Branches of unions -/

def isTemporalLogicalType : Option LogicalType → Bool
  | some (.timestamp _) => true
  | some .temporal => true
  | _ => false

def isDecimalLogicalType : Option LogicalType → Bool
  | some (.decimal _) => true
  | _ => false

def fitsInt (n : Int) : Bool := -2147483648 ≤ n ∧ n ≤ 2147483647

def acceptsPrimitive : Primitive → Value → Bool
  | .boolean, .boolean _ => true
  | .int, .bigint n => fitsInt n
  | .int, .integer n => fitsInt n
  | .long, .bigint _ => true
  | .long, .integer _ => true
  | .float, v | .double, v =>
    match v with
    | .bigint _ | .integer _ | .fraction _ _ | .nonFinite _ => true
    | _ => false
  | .string, .string _ => true
  | .bytes, .bytes _ => true
  | _, _ => false

def acceptsShape (node : Node) (value : Value) : Bool :=
  match node.typeName with
  | some (.primitive type) => acceptsPrimitive type value
  | some .enum =>
    match value with
    | .string s => s ∈ node.symbols
    | _ => false
  | some .fixed =>
    match value with
    | .bytes bs => node.size = some bs.length
    | _ => false
  | some .array => isCelList value
  | some .map => isCelStruct value
  | some .record => isCelStruct value
  | none => false

def avroBranchAccepts (named : String → Option Node) (ns : String) (branch : Node) (value : Value) :
    Except CelError Bool :=
  let node := resolveAvroNode named ns branch
  if value.isNull then return isNullBranch node
  else if isCelDecimal value then
    return isDecimalLogicalType node.logicalType &&
      (node.typeName = some (.primitive .bytes) || node.typeName = some .fixed)
  else if isCelTimestamp value then
    return (node.typeName = some (.primitive .long) || node.typeName = some (.primitive .int)) &&
      isTemporalLogicalType node.logicalType
  else do
    let reader ← tryReader value
    return if isVariantValue value || reader.isSome then node.isVariant else acceptsShape node value

def findBranch (accepts : Node → Except CelError Bool) : List Node → Except CelError (Option Node)
  | [] => return none
  | branch :: branches => do
    if ← accepts branch then return some branch else findBranch accepts branches

def pickAvroWriteBranch (named : String → Option Node) (ns : String) (branches : List Node) (value : Value) :
    Except CelError Node := do
  match ← findBranch (fun b => avroBranchAccepts named ns b value) branches with
  | some branch => return branch
  | none =>
    match branches.filter fun b => !isNullBranch b with
    | [branch] => return branch
    | _ => throw .noBranch

def pickAvroUnionBranch (named : String → Option Node) (ns : String) (branches : List Node) (value : Value) :
    Except CelError (Option Node) :=
  if value.isNull then return branches.find? isNullBranch
  else do
    let found ← findBranch (fun b => avroBranchAccepts named ns b value) branches
    return found.or (branches.find? fun b => !isNullBranch b)

/-! ## From Avro -/

def isIntegerType : Option TypeName → Bool
  | some (.primitive .int) => true
  | some (.primitive .long) => true
  | _ => false

def avroIntegerToCel (typeName : Option TypeName) (value : Value) : Value :=
  if isIntegerType typeName then
    match value with
    | .integer n => .bigint n
    | v => v
  else value

/-- `Math.trunc(Number(value))`, if that is finite. -/
def wholeOf (env : Setting) : Value → Option Int
  | .integer n => some n
  | .fraction whole _ => some whole
  | .nonFinite _ => none
  | .bigint n => some n
  | .boolean b => some (if b then 1 else 0)
  | v => env.numberOf v

def avroTimestampToCel (env : Setting) (value : Value) (unit : TimeUnit) : Except CelError Value :=
  match wholeOf env value with
  | some n => .timestamp <$> fromEpoch n unit
  | none => throw .rangeError

def avroScalarToCel (env : Setting) (node : Node) (value : Value) : Except CelError Value :=
  match node.logicalType with
  | some (.decimal scale) =>
    match value with
    | .bytes bs => .decimal <$> decimalFromBytesScale bs (scale.getD 0)
    | v => return v
  | some (.timestamp unit) => avroTimestampToCel env value unit
  | _ => return avroIntegerToCel node.typeName value

def avroVariantToCel : Value → Except CelError Value
  | .variant v => return variantToCel v
  | .object props =>
    if (props.lookup "metadata").isSome && (props.lookup "value").isSome then
      variantToCel <$> variantOf (props.lookup "value") (props.lookup "metadata")
    else return .object props
  | v => return v

def avroNamespace (name : String) (nspace : Option String) (ns : String) : String := Avro.namespaceOf name nspace ns

def celFields (convert : Node → Value → Except CelError Value) (props : List (String × Value)) :
    List Field → List (String × Value) → Except CelError (List (String × Value))
  | [], out => return out
  | field :: fields, out =>
    match props.lookup field.name with
    | none => celFields convert props fields out
    | some v => do
      let converted ← convert field.type v
      celFields convert props fields (updateProp field.name (fun _ => converted) out)

def convertEntry (convert : Value → Except CelError Value) (e : String × Value) :
    Except CelError (String × Value) := do
  let converted ← convert e.2
  return (e.1, converted)

def avroToCel (env : Setting) : Nat → Node → String → Value → Except CelError Value
  | 0, _, _, _ => throw .outOfFuel
  | fuel + 1, node, ns, value =>
    if value.isNull then return value
    else
      match resolveAvroNode env.named ns node with
      | .union branches => do
        match ← pickAvroUnionBranch env.named ns branches value with
        | some branch => avroToCel env fuel branch ns value
        | none => return value
      | .array items =>
        match value with
        | .array elems => .array <$> elems.mapM (avroToCel env fuel items ns)
        | v => return v
      | .map values => .object <$> (ownProps value).mapM (convertEntry (avroToCel env fuel values ns))
      | .record name nspace isVariant fields =>
        if isVariant then avroVariantToCel value
        else
          .object <$> celFields (fun type v => avroToCel env fuel type (avroNamespace name nspace ns) v)
            (ownProps value)
            fields (ownProps value)
      | node => avroScalarToCel env node value

/-! ## Back to Avro -/

/-- `Number` of a big integer. -/
def celIntegerToAvro : Value → Value
  | .bigint n => .integer n
  | v => v

def wholeProp (props : List (String × Value)) (key : String) : Except CelError Int :=
  match props.lookup key with
  | none => return 0
  | some .null => return 0
  | some (.integer n) => return n
  | some (.bigint n) => return n
  | _ => throw .typeError

def timestampOf : Value → Except CelError Timestamp
  | .timestamp ts => return ts
  | v => do
    let seconds ← wholeProp (ownProps v) "seconds"
    let nanos ← wholeProp (ownProps v) "nanos"
    return ⟨seconds, nanos⟩

def celScalarToAvro (node : Node) (value : Value) : Except CelError Value :=
  match node.logicalType with
  | some (.decimal scale) =>
    match value with
    | .decimal p => .bytes <$> decimalToAvroBytes p (scale.getD 0)
    | v => return v
  | some (.timestamp unit) =>
    if isCelTimestamp value then do
      let ts ← timestampOf value
      .integer <$> timestampToEpoch ts unit
    else return value
  | _ =>
    match node with
    | .name _ => return celIntegerToAvro value
    | node => return if isIntegerType node.typeName then celIntegerToAvro value else value

def celVariantToAvro (value : Value) : Except CelError Value := do
  let reader ← tryReader value
  return (reader.map Value.variant).getD value

def celElements : Value → Option (List Value)
  | .array elems => some elems
  | _ => none

def celEntries (value : Value) : Option (List (String × Value)) :=
  if isCelStruct value || isCelList value then some (ownProps value) else none

def avroFields (convert : Node → Value → Except CelError Value) (entries : List (String × Value)) :
    List Field → Except CelError (List (String × Value))
  | [] => return []
  | field :: fields =>
    match entries.lookup field.name with
    | none => avroFields convert entries fields
    | some v => do
      let converted ← convert field.type v
      let out ← avroFields convert entries fields
      return (field.name, converted) :: out

def celToAvro (env : Setting) : Nat → Node → String → Value → Except CelError Value
  | 0, _, _, _ => throw .outOfFuel
  | fuel + 1, node, ns, value =>
    if value.isNull then return value
    else
      match resolveAvroNode env.named ns node with
      | .union branches => do
        let branch ← pickAvroWriteBranch env.named ns branches value
        celToAvro env fuel branch ns value
      | .array items =>
        match celElements value with
        | some elems => .array <$> elems.mapM (celToAvro env fuel items ns)
        | none => return value
      | .map values =>
        match celEntries value with
        | some entries => .object <$> entries.mapM (convertEntry (celToAvro env fuel values ns))
        | none => return value
      | .record name nspace isVariant fields =>
        if isVariant then celVariantToAvro value
        else
          match celEntries value with
          | some entries =>
            .object <$> avroFields (fun type v => celToAvro env fuel type (avroNamespace name nspace ns) v)
              entries fields
          | none => return value
      | node => celScalarToAvro node value

end Cel

end ConfluentKafka
