import ConfluentKafka.CelAvro

/-!
# Avro data and what they stand for

`Denotes` says that a value is a datum of a schema in the form of the Avro library, and which logical
value it encodes, with the branch of every union. `Disturbed` tells where a datum meets a place at which
the conversions for rules do not keep it.
-/

namespace ConfluentKafka

namespace Cel

inductive Logical where
  | plain (v : Value)
  | int (n : Int)
  | decimal (unscaled : Int)
  | variant (value metadata : Bytes)
  | array (elems : List Logical)
  | map (entries : List (String × Logical))
  | record (fields : List (String × Option Logical))
  | union (index : Nat) (value : Logical)

/-- The types that the library knows by their full names, and which unions it wraps. -/
structure Library where
  types : String → Option Node
  wraps : List Node → Bool

/-! ## Data -/

def Value.isNumber : Value → Bool
  | .integer _ => true
  | .fraction _ _ => true
  | .nonFinite _ => true
  | _ => false

/-- Integers of the library are those that numbers of the language hold exactly. -/
inductive DenotesPrimitive : Primitive → Option LogicalType → Value → Logical → Prop where
  | null {l : Option LogicalType} : DenotesPrimitive .null l .null (.plain .null)
  | boolean {l : Option LogicalType} {b : Bool} : DenotesPrimitive .boolean l (.boolean b) (.plain (.boolean b))
  | int {l : Option LogicalType} {n : Int} (h : fitsInt n = true) : DenotesPrimitive .int l (.integer n) (.int n)
  | long {l : Option LogicalType} {n : Int} (h : -MAX_SAFE_INTEGER ≤ n ∧ n ≤ MAX_SAFE_INTEGER) :
      DenotesPrimitive .long l (.integer n) (.int n)
  | float {l : Option LogicalType} {v : Value} (h : v.isNumber = true) : DenotesPrimitive .float l v (.plain v)
  | double {l : Option LogicalType} {v : Value} (h : v.isNumber = true) : DenotesPrimitive .double l v (.plain v)
  | bytes {l : Option LogicalType} {bs : Bytes} (h : isDecimalLogicalType l = false) :
      DenotesPrimitive .bytes l (.bytes bs) (.plain (.bytes bs))
  | decimal {scale : Option Nat} {bs : Bytes} :
      DenotesPrimitive .bytes (some (.decimal scale)) (.bytes bs) (.decimal (bytesToBigIntSigned bs))
  | string {l : Option LogicalType} {s : String} : DenotesPrimitive .string l (.string s) (.plain (.string s))

inductive Bucket where
  | null | boolean | number | buffer | string | array | object
  deriving DecidableEq

def TypeName.bucket : TypeName → Bucket
  | .primitive .null => .null
  | .primitive .boolean => .boolean
  | .primitive .int => .number
  | .primitive .long => .number
  | .primitive .float => .number
  | .primitive .double => .number
  | .primitive .bytes => .buffer
  | .primitive .string => .string
  | .enum => .string
  | .fixed => .buffer
  | .array => .array
  | .map => .object
  | .record => .object

def Value.bucket : Value → Option Bucket
  | .null => some .null
  | .boolean _ => some .boolean
  | .integer _ => some .number
  | .fraction _ _ => some .number
  | .nonFinite _ => some .number
  | .string _ => some .string
  | .bytes _ => some .buffer
  | .array _ => some .array
  | .object _ => some .object
  | .variant _ => some .object
  | _ => none

def isRawVariant (props : List (String × Value)) : Bool :=
  match props.lookup "metadata", props.lookup "value" with
  | some (.bytes _), some (.bytes _) => true
  | _, _ => false

/-- The branches of an unwrapped union that the library considers for a value. Those of variants are asked,
the others go by the kind of the value. -/
def takes (node : Node) (v : Value) : Bool :=
  if node.isVariant then
    match v with
    | .variant _ => true
    | .object props => isRawVariant props
    | _ => false
  else node.typeName.map TypeName.bucket = v.bucket && v.bucket.isSome

def branchName (ns : String) : Node → Option String
  | .name s => some s
  | .union _ => none
  | .primitive .null _ => some "null"
  | .primitive .boolean _ => some "boolean"
  | .primitive .int _ => some "int"
  | .primitive .long _ => some "long"
  | .primitive .float _ => some "float"
  | .primitive .double _ => some "double"
  | .primitive .bytes _ => some "bytes"
  | .primitive .string _ => some "string"
  | .enum name nspace _ => some (Avro.fullname name nspace ns)
  | .fixed name nspace _ _ => some (Avro.fullname name nspace ns)
  | .array _ => some "array"
  | .map _ => some "map"
  | .record name nspace _ _ => some (Avro.fullname name nspace ns)

section

variable (lib : Library)

def resolved (ns : String) (branch : Node) : Node := resolveAvroNode lib.types ns branch

mutual

inductive Denotes : String → Node → Value → Logical → Prop where
  | named {ns s : String} {node : Node} {v : Value} {l : Logical} (hs : lib.types (Avro.qualify ns s) = some node)
      (h : Denotes ns node v l) : Denotes ns (.name s) v l
  | primitiveName {ns s : String} {type : Primitive} {v : Value} {l : Logical}
      (hs : TypeName.ofName s = some (.primitive type)) (h : DenotesPrimitive type none v l) :
        Denotes ns (.name s) v l
  | primitive {ns : String} {type : Primitive} {t : Option LogicalType} {v : Value} {l : Logical}
      (h : DenotesPrimitive type t v l) : Denotes ns (.primitive type t) v l
  | enum {ns name s : String} {nspace : Option String} {symbols : List String} (h : s ∈ symbols) :
      Denotes ns (.enum name nspace symbols) (.string s) (.plain (.string s))
  | fixed {ns name : String} {nspace : Option String} {size : Nat} {t : Option LogicalType} {bs : Bytes}
      (ht : isDecimalLogicalType t = false) (hsize : bs.length = size) :
      Denotes ns (.fixed name nspace size t) (.bytes bs) (.plain (.bytes bs))
  | fixedDecimal {ns name : String} {nspace : Option String} {size : Nat} {scale : Option Nat} {bs : Bytes}
      (hsize : bs.length = size) : Denotes ns (.fixed name nspace size (some (.decimal scale))) (.bytes bs)
        (.decimal (bytesToBigIntSigned bs))
  | array {ns : String} {items : Node} {elems : List Value} {ls : List Logical}
      (h : DenotesElems ns items elems ls) : Denotes ns (.array items) (.array elems) (.array ls)
  | map {ns : String} {values : Node} {props : List (String × Value)} {ls : List (String × Logical)}
      (h : DenotesEntries ns values props ls) : Denotes ns (.map values) (.object props) (.map ls)
  | record {ns name : String} {nspace : Option String} {fields : List Field} {props : List (String × Value)}
      {ls : List (String × Option Logical)} (hnodup : (fields.map Field.name).Nodup)
      (h : DenotesFields (Avro.namespaceOf name nspace ns) fields props ls) :
      Denotes ns (.record name nspace false fields) (.object props) (.record ls)
  | variant {ns name : String} {nspace : Option String} {fields : List Field} {v u : Variant}
      (hv : Variant.new v.value v.metadata v.pos = .ok u) :
      Denotes ns (.record name nspace true fields) (.variant v) (.variant (standaloneValueBytes v) v.metadata)
  | unwrapped {ns : String} {branches : List Node} {i : Nat} {branch : Node} {v : Value} {l : Logical}
      (hwraps : lib.wraps branches = false) (hi : branches[i]? = some branch)
      (htakes : takes (resolved lib ns branch) v = true)
      (hone : ∀ j b, branches[j]? = some b → takes (resolved lib ns b) v = true → j = i)
      (h : Denotes ns branch v l) :
      Denotes ns (.union branches) v (.union i l)
  | wrappedNull {ns : String} {branches : List Node} {i : Nat} {branch : Node} (hwraps : lib.wraps branches = true)
      (hi : branches[i]? = some branch) (hnull : isNullBranch (resolved lib ns branch) = true) :
      Denotes ns (.union branches) .null (.union i (.plain .null))
  | wrapped {ns name : String} {branches : List Node} {i : Nat} {branch : Node} {v : Value} {l : Logical}
      (hwraps : lib.wraps branches = true) (hi : branches[i]? = some branch)
      (hname : branchName ns (resolved lib ns branch) = some name) (hnull : v.isNull = false)
      (h : Denotes ns branch v l) :
      Denotes ns (.union branches) (.object [(name, v)]) (.union i l)

inductive DenotesElems : String → Node → List Value → List Logical → Prop where
  | nil {ns : String} {items : Node} : DenotesElems ns items [] []
  | cons {ns : String} {items : Node} {v : Value} {vs : List Value} {l : Logical} {ls : List Logical}
      (h : Denotes ns items v l) (hs : DenotesElems ns items vs ls) : DenotesElems ns items (v :: vs) (l :: ls)

inductive DenotesEntries : String → Node → List (String × Value) → List (String × Logical) → Prop where
  | nil {ns : String} {values : Node} : DenotesEntries ns values [] []
  | cons {ns key : String} {values : Node} {v : Value} {es : List (String × Value)} {l : Logical}
      {ls : List (String × Logical)} (h : Denotes ns values v l) (hs : DenotesEntries ns values es ls) :
      DenotesEntries ns values ((key, v) :: es) ((key, l) :: ls)

inductive DenotesFields : String → List Field → List (String × Value) → List (String × Option Logical) → Prop where
  | nil {ns : String} {props : List (String × Value)} : DenotesFields ns [] props []
  | absent {ns : String} {field : Field} {fields : List Field} {props : List (String × Value)}
      {ls : List (String × Option Logical)} (hnone : props.lookup field.name = none)
      (hdefault : field.hasDefault = true)
      (hs : DenotesFields ns fields props ls) : DenotesFields ns (field :: fields) props ((field.name, none) :: ls)
  | present {ns : String} {field : Field} {fields : List Field} {props : List (String × Value)}
    {v : Value} {l : Logical}
      {ls : List (String × Option Logical)} (hlook : props.lookup field.name = some v)
      (h : Denotes ns field.type v l)
      (hs : DenotesFields ns fields props ls) : DenotesFields ns (field :: fields) props
      ((field.name, some l) :: ls)

end

/-! ## Where data are disturbed -/

def isStructNode (node : Node) : Bool := node.typeName = some .map || node.typeName = some .record

/-- A map or a record of a union stands before the branch of a value that passes for a structure. -/
def shielded (ns : String) (branches : List Node) (i : Nat) (v : Value) : Bool :=
  isCelStruct v && (branches.take i).any fun b => isStructNode (resolved lib ns b)

def isTagged (v : Value) : Bool :=
  typeTag v = some "google.protobuf.Timestamp" || typeTag v = some "confluent.type.Variant"

/-- What the first map or record before the branch of a value makes of it. -/
def misreads (node : Node) (v : Value) : Bool :=
  match v with
  | .object props => node.isVariant && (props.lookup "metadata").isSome && (props.lookup "value").isSome
  | _ => !node.isVariant

def isTimestampLogicalType : Option LogicalType → Bool
  | some (.timestamp _) => true
  | _ => false

/-- A wrapped value is left alone if its wrapper passes for a variant, or if the only branch is one that it
does not fit. -/
def spared (ns : String) (branches : List Node) : Bool :=
  match branches.find? fun b => isStructNode (resolved lib ns b) with
  | some b => (resolved lib ns b).isVariant
  | none =>
    match branches.filter fun b => !isNullBranch b with
    | [b] => (resolved lib ns b).typeName.isSome && !isTimestampLogicalType (resolved lib ns b).logicalType
    | _ => false

inductive Disturbed : String → Node → Value → Prop where
  | named {ns s : String} {node : Node} {v : Value} (hs : lib.types (Avro.qualify ns s) = some node)
      (h : Disturbed ns node v) : Disturbed ns (.name s) v
  | wide {ns : String} {node : Node} {scale : Option Nat} {bs : Bytes}
    (ht : node.logicalType = some (.decimal scale))
      (h : ¬Narrow bs (scale.getD 0)) : Disturbed ns node (.bytes bs)
  | fixedSize {ns name : String} {nspace : Option String} {size : Nat} {scale : Option Nat} {bs : Bytes}
      (h : (bigIntToTwosComplementBytes (bytesToBigIntSigned bs)).length ≠ size) :
      Disturbed ns (.fixed name nspace size (some (.decimal scale))) (.bytes bs)
  | timestampRange {ns : String} {node : Node} {unit : TimeUnit} {n : Int}
    (ht : node.logicalType = some (.timestamp unit))
      (h : ¬InRange unit n) : Disturbed ns node (.integer n)
  | timestampType {ns : String} {node : Node} {unit : TimeUnit} {v : Value}
    (ht : node.logicalType = some (.timestamp unit))
      (htype : isIntegerType node.typeName = false) (hnull : v.isNull = false) : Disturbed ns node v
  | elem {ns : String} {items : Node} {elems : List Value} {v : Value} (hv : v ∈ elems) (h : Disturbed ns items v) :
      Disturbed ns (.array items) (.array elems)
  | entry {ns : String} {values : Node} {props : List (String × Value)} {e : String × Value} (he : e ∈ props)
      (h : Disturbed ns values e.2) : Disturbed ns (.map values) (.object props)
  | field {ns name : String} {nspace : Option String} {fields : List Field} {field : Field}
    {props : List (String × Value)}
      {v : Value} (hfield : field ∈ fields) (hlook : props.lookup field.name = some v)
      (h : Disturbed (Avro.namespaceOf name nspace ns) field.type v) :
      Disturbed ns (.record name nspace false fields) (.object props)
  | branch {ns : String} {branches : List Node} {i : Nat} {b : Node} {v : Value}
    (hwraps : lib.wraps branches = false)
      (hi : branches[i]? = some b) (htakes : takes (resolved lib ns b) v = true)
      (hshield : shielded lib ns branches i v = false) (h : Disturbed ns b v) : Disturbed ns (.union branches) v
  | behind {ns : String} {branches : List Node} {i : Nat} {b first : Node} {v : Value}
    (hwraps : lib.wraps branches = false)
      (hi : branches[i]? = some b) (htakes : takes (resolved lib ns b) v = true)
      (hshield : shielded lib ns branches i v = true)
      (hfirst : (branches.take i).find? (fun b => isStructNode (resolved lib ns b)) = some first)
      (h : misreads (resolved lib ns first) v = true) : Disturbed ns (.union branches) v
  | tagged {ns : String} {branches : List Node} {v : Value} (h : isTagged v = true) : Disturbed ns
    (.union branches) v
  | wrapped {ns : String} {branches : List Node} {v : Value} (hwraps : lib.wraps branches = true)
    (hnull : v.isNull = false)
      (h : spared lib ns branches = false) : Disturbed ns (.union branches) v

end

end Cel

end ConfluentKafka
