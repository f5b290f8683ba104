import ConfluentKafka.Binary64
import ConfluentKafka.FailingFold
import ConfluentKafka.ProtoTransform
import ConfluentKafka.Utf16
import Mathlib.Logic.Function.Basic

/-!
# Messages from the results of rules

`convertProtobufResult` of `protobuf-result-writer.ts`, which builds a message from the map that a rule
returned. What reflection does with one field of a message is a parameter, and so are the texts of numbers and
of objects.
-/

namespace ConfluentKafka

namespace ProtobufResult

open FailingFold

open Proto (ScalarType)

/-! ## Values and descriptors -/

/-- A result of an expression, or a part of one. A message is `reflect` where it is wrapped. The entries of a
map are in the order in which they are read, whatever object holds them, and `-0` is not one of the doubles.
-/
inductive Value (μ : Type) where
  | null
  | undefined
  | boolean (b : Bool)
  | number (x : Double)
  | negativeZero
  | bigint (n : Int)
  | uint (value : Int)
  | string (s : String)
  | bytes (bs : List UInt8)
  | type (name : String)
  | message (m : μ)
  | reflect (m : μ)
  | list (items : List (Value μ))
  | map (entries : List (Value μ × Value μ))

structure DescEnumValue where
  name : String
  number : Int

structure DescEnum where
  typeName : String
  values : List DescEnumValue

/-- `scalar`, `enum` or `message` of a field, which describe its elements where it is repeated or a map. -/
inductive ElemKind (ι : Type) where
  | scalar (type : ScalarType)
  | enum (desc : DescEnum)
  | message (desc : ι)

inductive FieldKind (ι : Type) where
  | single (elem : ElemKind ι)
  | list (elem : ElemKind ι)
  | map (key : ScalarType) (elem : ElemKind ι)

/-- A field is in a oneof if that has a name; one that is made for an `optional` field has none. -/
structure DescField (ι : Type) where
  name : String
  jsonName : String
  number : Nat
  kind : FieldKind ι
  oneof : Option String
  longAsString : Bool

structure DescMessage (ι : Type) where
  fields : List (DescField ι)
  names : (fields.map DescField.name).Nodup

section

variable {ι μ : Type}

/-- Two fields that are stored in different places: no oneof holds both. -/
def DescField.Apart (f g : DescField ι) : Prop := f.number ≠ g.number ∧ ∀ o, f.oneof = some o → g.oneof ≠ some o

theorem DescField.Apart.symm {f g : DescField ι} (h : f.Apart g) : g.Apart f :=
  ⟨h.1.symm, fun o hg hf => h.2 o hf hg⟩

def Value.isNull : Value μ → Bool
  | .null => true
  | .undefined => true
  | _ => false

end

/-- Reflection on messages. `checkField`, `checkItem` and `checkEntry` give what is stored for a field, or the
error with which the value is refused. -/
structure Reflection (ι μ σ : Type) where
  slots : Slots μ (DescField ι) σ DescField.Apart
  reflect : ι → μ
  clear : μ → DescField ι → μ
  checkField : DescField ι → Value μ → Except String σ
  checkItem : DescField ι → Value μ → σ → Except String σ
  checkEntry : DescField ι → Value μ → Value μ → σ → Except String σ
  typeName : μ → String
  /-- `String(value)` for numbers and objects. -/
  text : Value μ → String

section

variable {ι μ σ : Type} (R : Reflection ι μ σ)

def Reflection.set (out : μ) (field : DescField ι) (value : Value μ) : Except String μ :=
  R.slots.modify field (fun _ => R.checkField field value) out

def Reflection.add (out : μ) (field : DescField ι) (item : Value μ) : Except String μ :=
  R.slots.modify field (R.checkItem field item) out

def Reflection.setAt (out : μ) (field : DescField ι) (key value : Value μ) : Except String μ :=
  R.slots.modify field (R.checkEntry field key value) out

def stringOf : Value μ → String
  | .null => "null"
  | .undefined => "undefined"
  | .boolean b => toString b
  | .bigint n => toString n
  | .string s => s
  | value => R.text value

def asEntries : Value μ → Option (List (Value μ × Value μ))
  | .map entries => some entries
  | _ => none

def findField (desc : DescMessage ι) (name : String) : Option (DescField ι) :=
  (desc.fields.find? fun f => f.name = name) <|> desc.fields.find? fun f => f.jsonName = name

def describe : Value μ → String
  | .null => "null"
  | .undefined => "null"
  | .list _ => "a list"
  | .map _ => "a map"
  | .bytes _ => "bytes"
  | .reflect m => R.typeName m
  | .boolean _ => "boolean"
  | .number _ => "number"
  | .negativeZero => "number"
  | .bigint _ => "bigint"
  | .string _ => "string"
  | .uint _ => "object"
  | .type _ => "object"
  | .message _ => "object"

def requireList (field : DescField ι) : Value μ → Except String (List (Value μ))
  | .list items => .ok items
  | value => .error s!"cannot write {describe R value} to repeated field {field.name}"

def requireEntries (field : DescField ι) (value : Value μ) : Except String (List (Value μ × Value μ)) :=
  match asEntries value with
  | none => .error s!"cannot write {describe R value} to map field {field.name}"
  | some entries => .ok entries

def unwrap : Value μ → Value μ
  | .uint value => .bigint value
  | value => value

/-! ## Narrowing -/

def toNumber : Value μ → Value μ
  | .bigint n => .number (toDouble n)
  | value => value

def narrowEnum (desc : DescEnum) (value : Value μ) : Except String (Value μ) :=
  match value with
  | .string name =>
    match desc.values.find? fun v => v.name = name with
    | none => .error s!"invalid enum value {name} for enum type {desc.typeName}"
    | some found => .ok (.number (.finite found.number))
  | value =>
    match toNumber value with
    | .number x =>
      match x.integer? with
      | some k =>
        if k < -2 ^ 31 ∨ 2 ^ 31 - 1 < k then
          .error s!"value {R.text (.number x)} is out of range for enum type {desc.typeName}"
        else .ok (.number x)
      | none => .ok (.number x)
    | num => .ok num

/-- `BigInt(value)` for numbers. -/
def toBigInt : Value μ → Except String (Value μ)
  | .number x =>
    match x.integer? with
    | some k => .ok (.bigint k)
    | none =>
      .error s!"The number {R.text (.number x)} cannot be converted to a BigInt because it is not an integer"
  | .negativeZero => .ok (.bigint 0)
  | value => .ok value

def narrowScalar (scalar : Option ScalarType) (field : DescField ι) (value : Value μ) : Except String (Value μ) :=
  match scalar with
  | none => .ok value
  | some .double | some .float | some .int32 | some .fixed32 | some .uint32 | some .sfixed32 | some .sint32 =>
    .ok (toNumber value)
  | some .int64 | some .uint64 | some .fixed64 | some .sfixed64 | some .sint64 =>
    if field.longAsString then .ok (.string (stringOf R value)) else toBigInt R value
  | some .bool | some .string | some .bytes => .ok value

def narrowElement (field : DescField ι) (elem : ElemKind ι) (value : Value μ) : Except String (Value μ) :=
  match elem with
  | .enum desc => narrowEnum R desc value
  | .scalar type => narrowScalar R (some type) field value
  | .message _ => narrowScalar R none field value

def narrow (field : DescField ι) (value : Value μ) : Except String (Value μ) :=
  match field.kind with
  | .single (.message _) | .list _ | .map _ _ => .ok value
  | .single elem => narrowElement R field elem value

/-! ## Writing -/

structure Filling (μ : Type) where
  setBy : Nat → Option String
  oneofBy : String → Option String
  out : μ

def sort (a b : String) : String × String :=
  if Utf16.ofChars b.toList < Utf16.ofChars a.toList then (b, a) else (a, b)

def claimField (field : DescField ι) (name : String) (s : Filling μ) : Filling μ :=
  { s with setBy := Function.update s.setBy field.number (some name) }

def claimOneof (field : DescField ι) (s : Filling μ) : Except String (Filling μ) :=
  match field.oneof with
  | none => .ok s
  | some oneof =>
    match (s.oneofBy oneof).filter fun sibling => sibling ≠ field.name with
    | some sibling =>
      let (a, b) := sort sibling field.name
      .error s!"result sets more than one member of oneof {oneof}: {a} and {b}"
    | none => .ok { s with oneofBy := Function.update s.oneofBy oneof (some field.name) }

variable (descs : ι → DescMessage ι)

theorem sizeOf_asEntries {value : Value μ} {entries : List (Value μ × Value μ)}
    (h : asEntries value = some entries) :
    sizeOf entries < sizeOf value := by
  unfold asEntries at h
  split at h
  · cases h
    simp only [Value.map.sizeOf_spec]
    omega
  · cases h

theorem sizeOf_requireList {field : DescField ι} {value : Value μ} {items : List (Value μ)}
    (h : requireList R field value = .ok items) : sizeOf items < sizeOf value := by
  unfold requireList at h
  split at h
  · cases h
    simp only [Value.list.sizeOf_spec]
    omega
  · cases h

theorem asEntries_of_requireEntries {field : DescField ι} {value : Value μ} {entries : List (Value μ × Value μ)}
    (h : requireEntries R field value = .ok entries) : asEntries value = some entries := by
  unfold requireEntries at h
  split at h
  · cases h
  · rename_i h'
    cases h
    exact h'

mutual

def asMessageValue (d : ι) (value : Value μ) : Except String (Value μ) :=
  match _h : asEntries value with
  | none => .ok value
  | some entries => (fill d (R.reflect d) entries).map .reflect
termination_by (sizeOf value, 0)
decreasing_by exact .left _ _ (sizeOf_asEntries _h)

def fill (d : ι) (out : μ) (entries : List (Value μ × Value μ)) : Except String μ :=
  (fillFrom d ⟨fun _ => none, fun _ => none, out⟩ entries).map Filling.out
termination_by (sizeOf entries, 1)
decreasing_by exact .right _ (by decide)

def fillFrom (d : ι) (s : Filling μ) (entries : List (Value μ × Value μ)) : Except String (Filling μ) :=
  match entries with
  | [] => .ok s
  | (key, value) :: entries => do fillFrom d (← fillEntry d s key value) entries
termination_by (sizeOf entries, 0)
decreasing_by
  all_goals
    refine .left _ _ ?_
    simp only [List.cons.sizeOf_spec, Prod.mk.sizeOf_spec]
    omega

def fillEntry (d : ι) (s : Filling μ) (key value : Value μ) : Except String (Filling μ) :=
  match findField (descs d) (stringOf R key) with
  | none => .ok s
  | some field =>
    match s.setBy field.number with
    | some alreadySet =>
      let (a, b) := sort alreadySet (stringOf R key)
      .error s!"result names field {field.name} twice, as {a} and {b}"
    | none =>
      if value.isNull then .ok { s with out := R.clear s.out field }
      else do
        let s ← claimOneof field (claimField field (stringOf R key) s)
        let out ← setField s.out field value
        .ok { s with out }
termination_by (sizeOf value, 2)
decreasing_by exact .right _ (by decide)

def setField (out : μ) (field : DescField ι) (value : Value μ) : Except String μ :=
  match field.kind with
  | .list elem =>
    match _h : requireList R field value with
    | .error e => .error e
    | .ok items => addItems out field elem items
  | .map mapKey elem =>
    match _h : requireEntries R field value with
    | .error e => .error e
    | .ok entries => setEntries out field mapKey elem entries
  | .single (.message d) => do R.set out field (← asMessageValue d value)
  | .single _ => do R.set out field (← narrow R field (unwrap value))
termination_by (sizeOf value, 1)
decreasing_by
  · exact .left _ _ (sizeOf_requireList R _h)
  · exact .left _ _ (sizeOf_asEntries (asEntries_of_requireEntries R _h))
  · exact .right _ (by decide)

def addItems (out : μ) (field : DescField ι) (elem : ElemKind ι) (items : List (Value μ)) : Except String μ :=
  match items with
  | [] => .ok out
  | item :: items => do addItems (← addItem out field elem item) field elem items
termination_by (sizeOf items, 0)
decreasing_by
  all_goals
    refine .left _ _ ?_
    simp only [List.cons.sizeOf_spec]
    omega

def addItem (out : μ) (field : DescField ι) (elem : ElemKind ι) (item : Value μ) : Except String μ :=
  if item.isNull then .error s!"cannot write null to repeated field {field.name}"
  else do R.add out field (← elementValue field elem item)
termination_by (sizeOf item, 2)
decreasing_by exact .right _ (by decide)

def setEntries (out : μ) (field : DescField ι) (mapKey : ScalarType) (elem : ElemKind ι)
    (entries : List (Value μ × Value μ)) :
    Except String μ :=
  match entries with
  | [] => .ok out
  | (key, value) :: entries => do setEntries (← setEntry out field mapKey elem key value) field mapKey elem entries
termination_by (sizeOf entries, 0)
decreasing_by
  all_goals
    refine .left _ _ ?_
    simp only [List.cons.sizeOf_spec, Prod.mk.sizeOf_spec]
    omega

def setEntry (out : μ) (field : DescField ι) (mapKey : ScalarType) (elem : ElemKind ι) (key value : Value μ) :
    Except String μ :=
  if value.isNull then .error s!"cannot write a null value to map field {field.name}"
  else do
    let key ← narrowScalar R (some mapKey) field (unwrap key)
    R.setAt out field key (← elementValue field elem value)
termination_by (sizeOf value, 2)
decreasing_by exact .right _ (by decide)

def elementValue (field : DescField ι) (elem : ElemKind ι) (value : Value μ) : Except String (Value μ) :=
  match elem with
  | .message d => asMessageValue d value
  | elem => narrowElement R field elem (unwrap value)
termination_by (sizeOf value, 1)
decreasing_by exact .right _ (by decide)

end

def convertProtobufResult (result : Value μ) (d : ι) : Except String (Value μ) :=
  match result with
  | .reflect m => .ok (.message m)
  | result =>
    match asEntries result with
    | none => .ok result
    | some entries => (fill R descs d (R.reflect d) entries).map .message

end

end ProtobufResult

end ConfluentKafka
