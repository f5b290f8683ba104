import ConfluentKafka.Utf16
import ConfluentKafka.VariantRoundTrip
import ConfluentKafka.VariantSize

/-!
# The builder and the strings of the language

The dictionary of a builder is a map by strings of the language, in which surrogates may stand
alone, and the encoder of texts makes replacement characters of those: two keys can have one text.
`JsBuilder` is the builder with such a dictionary; all that does not look at the dictionary is that of
`VariantBuilder`. A value that is a string is given as the text it is taken for.
-/

namespace ConfluentKafka

open VariantFormat

structure JsBuilder where
  base : VariantBuilder
  dictionary : JsMap JsString Nat

inductive JsCall where
  | append (x : Scalar)
  | startObject
  | appendKey (key : JsString)
  | endObject
  | startArray
  | endArray

namespace JsBuilder

def new (sizeLimit maxArguments : Nat) : JsBuilder := ⟨VariantBuilder.new sizeLimit maxArguments, JsMap.empty⟩

def lift (f : VariantBuilder → Except VariantFault VariantBuilder) (b : JsBuilder) :
    Except VariantFault JsBuilder :=
  (f b.base).map fun base => { b with base }

def addKey (b : JsBuilder) (key : JsString) : Nat × JsBuilder :=
  match b.dictionary.get? key with
  | some existing => (existing, b)
  | none =>
    let id := b.base.dictionaryKeys.length
    (id, { base := { b.base with dictionaryKeys := b.base.dictionaryKeys ++ [Utf8.encode (Utf16.scalars key)] }
           dictionary := b.dictionary.set key id })

def appendKey (b : JsBuilder) (key : JsString) : Except VariantFault JsBuilder :=
  match b.base.stack with
  | .object _ _ (some _) :: _ => .error (.variantError "appendKey called twice without an intervening value")
  | .object start fields none :: rest =>
    let (id, b) := b.addKey key
    .ok { b with base := { b.base with stack := .object start fields (some (Utf16.scalars key, id)) :: rest } }
  | _ => .error (.variantError "appendKey called outside of an object")

def call (b : JsBuilder) : JsCall → Except VariantFault JsBuilder
  | .append x => b.lift fun base => base.appendScalar x
  | .startObject => b.lift VariantBuilder.startObject
  | .appendKey key => b.appendKey key
  | .endObject => b.lift VariantBuilder.endObject
  | .startArray => b.lift VariantBuilder.startArray
  | .endArray => b.lift VariantBuilder.endArray

def run (b : JsBuilder) : List JsCall → Except VariantFault JsBuilder
  | [] => .ok b
  | c :: cs => do (← b.call c).run cs

def build (b : JsBuilder) : Except VariantFault Variant := b.base.build

end JsBuilder

/-! ## Trees -/

def Primitive.scalar : Primitive → Scalar
  | .null => .null
  | .boolean x => .boolean x
  | .byte value => .fixedInt INT1 value 1
  | .short value => .fixedInt INT2 value 2
  | .int value => .fixedInt INT4 value 4
  | .long value => .fixedInt INT8 value 8
  | .float bits => .float bits
  | .double bits => .double bits
  | .decimal unscaled scale => .decimal unscaled scale
  | .date daysSinceEpoch => .fixedInt DATE daysSinceEpoch 4
  | .time microsSinceMidnight => .fixedInt TIME microsSinceMidnight 8
  | .timestampTz micros => .fixedInt TIMESTAMP micros 8
  | .timestampNtz micros => .fixedInt TIMESTAMP_NTZ micros 8
  | .timestampNanosTz nanos => .fixedInt TIMESTAMP_NANOS nanos 8
  | .timestampNanosNtz nanos => .fixedInt TIMESTAMP_NANOS_NTZ nanos 8
  | .uuid bytes => .uuid bytes
  | .binary data => .binary data
  | .string s => .string s

theorem VariantBuilder.appendScalar_scalar (b : VariantBuilder) (p : Primitive) :
    b.appendScalar p.scalar = b.append p := by
  cases p <;> rfl

inductive JsTree where
  | primitive (p : Primitive)
  | array (elements : List JsTree)
  | object (fields : List (JsString × JsTree))

mutual

def JsTree.calls : JsTree → List JsCall
  | .primitive p => [.append p.scalar]
  | .array elements => .startArray :: (jsElementCalls elements ++ [.endArray])
  | .object fields => .startObject :: (jsFieldCalls fields ++ [.endObject])

def jsElementCalls : List JsTree → List JsCall
  | [] => []
  | t :: ts => t.calls ++ jsElementCalls ts

def jsFieldCalls : List (JsString × JsTree) → List JsCall
  | [] => []
  | (key, t) :: fs => .appendKey key :: (t.calls ++ jsFieldCalls fs)

end

mutual

def JsTree.hasStrings : JsTree → Bool
  | .primitive p => p.hasStrings
  | .array elements => jsElementsHaveStrings elements
  | .object fields => jsFieldsHaveStrings fields

def jsElementsHaveStrings : List JsTree → Bool
  | [] => true
  | t :: ts => t.hasStrings && jsElementsHaveStrings ts

def jsFieldsHaveStrings : List (JsString × JsTree) → Bool
  | [] => true
  | (key, t) :: fs => IsString (Utf16.scalars key) && (t.hasStrings && jsFieldsHaveStrings fs)

end

theorem jsElementsHaveStrings_iff (ts : List JsTree) :
    jsElementsHaveStrings ts = true ↔ ∀ t ∈ ts, t.hasStrings = true := by
  induction ts with
  | nil => simp [jsElementsHaveStrings]
  | cons t ts ih => rw [jsElementsHaveStrings, Bool.and_eq_true, ih, List.forall_mem_cons]

theorem jsFieldsHaveStrings_iff (fs : List (JsString × JsTree)) :
    jsFieldsHaveStrings fs = true ↔ ∀ f ∈ fs, IsString (Utf16.scalars f.1) ∧ f.2.hasStrings = true := by
  induction fs with
  | nil => simp [jsFieldsHaveStrings]
  | cons f fs ih =>
    rw [jsFieldsHaveStrings, Bool.and_eq_true, Bool.and_eq_true, ih, List.forall_mem_cons,
      decide_eq_true_eq, and_assoc]

/-- No longer strings than those of the engine can be given to a call. -/
def JsTree.build (t : JsTree) (sizeLimit maxArguments : Nat) : Except VariantFault Variant := do
  if !t.hasStrings then throw .stringLength
  else
    let b ← (JsBuilder.new sizeLimit maxArguments).run t.calls
    b.build

/-! ## The encoding -/

def jsFieldEntries (ids : JsString → Nat) : Nat → List (JsString × Bytes) → List FieldEntry
  | _, [] => []
  | offset, (key, bs) :: rest =>
    ⟨Utf16.scalars key, ids key, offset⟩ :: jsFieldEntries ids (offset + bs.length) rest

def jsFieldData (fields : List (JsString × Bytes)) : Bytes := (fields.map Prod.snd).flatten

def jsObjectBytes (ids : JsString → Nat) (fields : List (JsString × Bytes)) : Bytes :=
  VariantBuilder.objectHeader ((jsFieldEntries ids 0 fields).insertionSort entryLe) (jsFieldData fields).length ++
    jsFieldData fields

mutual

def JsTree.encode (ids : JsString → Nat) : JsTree → Bytes
  | .primitive p => p.encode
  | .array elements => arrayBytes (jsEncodeElements ids elements)
  | .object fields => jsObjectBytes ids (jsEncodeFields ids fields)

def jsEncodeElements (ids : JsString → Nat) : List JsTree → List Bytes
  | [] => []
  | t :: ts => t.encode ids :: jsEncodeElements ids ts

def jsEncodeFields (ids : JsString → Nat) : List (JsString × JsTree) → List (JsString × Bytes)
  | [] => []
  | (key, t) :: fs => (key, t.encode ids) :: jsEncodeFields ids fs

end

end ConfluentKafka
