import ConfluentKafka.VariantBuilder
import ConfluentKafka.VariantJson

/-!
# Value trees

What a Variant holds, apart from its bytes: a tree of primitives, arrays and objects. `calls` are
the calls of the builder in the order of the tree, `read` is the tree that the accessors give.
-/

namespace ConfluentKafka

inductive Primitive where
  | null
  | boolean (x : Bool)
  | byte (value : Int)
  | short (value : Int)
  | int (value : Int)
  | long (value : Int)
  | float (bits : BitVec 32)
  | double (bits : BitVec 64)
  | decimal (unscaled : Int) (scale : Nat)
  | date (daysSinceEpoch : Int)
  | time (microsSinceMidnight : Int)
  | timestampTz (micros : Int)
  | timestampNtz (micros : Int)
  | timestampNanosTz (nanos : Int)
  | timestampNanosNtz (nanos : Int)
  | uuid (bytes : Bytes)
  | binary (data : Bytes)
  | string (s : List Char)
  deriving DecidableEq

inductive VariantTree where
  | primitive (p : Primitive)
  | array (elements : List VariantTree)
  | object (fields : List (List Char × VariantTree))

/-! ## Building -/

inductive BuilderCall where
  | append (p : Primitive)
  | startObject
  | appendKey (key : List Char)
  | endObject
  | startArray
  | endArray

namespace VariantBuilder

def append (b : VariantBuilder) : Primitive → Except VariantFault VariantBuilder
  | .null => b.appendNull
  | .boolean x => b.appendBoolean x
  | .byte value => b.appendByte value
  | .short value => b.appendShort value
  | .int value => b.appendInt value
  | .long value => b.appendLong value
  | .float bits => b.appendFloat bits
  | .double bits => b.appendDouble bits
  | .decimal unscaled scale => b.appendDecimal unscaled scale
  | .date daysSinceEpoch => b.appendDate daysSinceEpoch
  | .time microsSinceMidnight => b.appendTime microsSinceMidnight
  | .timestampTz micros => b.appendTimestampTz micros
  | .timestampNtz micros => b.appendTimestampNtz micros
  | .timestampNanosTz nanos => b.appendTimestampNanosTz nanos
  | .timestampNanosNtz nanos => b.appendTimestampNanosNtz nanos
  | .uuid bytes => b.appendUuid bytes
  | .binary data => b.appendBinary data
  | .string s => b.appendString s

def call (b : VariantBuilder) : BuilderCall → Except VariantFault VariantBuilder
  | .append p => b.append p
  | .startObject => b.startObject
  | .appendKey key => b.appendKey key
  | .endObject => b.endObject
  | .startArray => b.startArray
  | .endArray => b.endArray

def run (b : VariantBuilder) : List BuilderCall → Except VariantFault VariantBuilder
  | [] => .ok b
  | c :: cs => do (← b.call c).run cs

end VariantBuilder

mutual

def VariantTree.calls : VariantTree → List BuilderCall
  | .primitive p => [.append p]
  | .array elements => .startArray :: (elementCalls elements ++ [.endArray])
  | .object fields => .startObject :: (fieldCalls fields ++ [.endObject])

def elementCalls : List VariantTree → List BuilderCall
  | [] => []
  | t :: ts => t.calls ++ elementCalls ts

def fieldCalls : List (List Char × VariantTree) → List BuilderCall
  | [] => []
  | (key, t) :: fs => .appendKey key :: (t.calls ++ fieldCalls fs)

end

def VariantTree.build (t : VariantTree) (sizeLimit maxArguments : Nat) : Except VariantFault Variant := do
  let b ← (VariantBuilder.new sizeLimit maxArguments).run t.calls
  b.build

/-! ## Reading -/

def hexPair (a b : Char) : UInt8 :=
  let digit (c : Char) : Nat := if c.toNat < 58 then c.toNat - 48 else c.toNat - 87
  UInt8.ofNat (digit a * 16 + digit b)

def hexPairs : List Char → Bytes
  | a :: b :: rest => hexPair a b :: hexPairs rest
  | _ => []

def uuidBytes (text : List Char) : Bytes := hexPairs (text.filter fun c => c ≠ '-')

namespace Variant

def readPrimitive (v : Variant) : VariantType → Except VariantFault Primitive
  | .NULL => return .null
  | .BOOLEAN => return .boolean (← v.getBoolean)
  | .BYTE => return .byte (← v.getByte)
  | .SHORT => return .short (← v.getShort)
  | .INT => return .int (← v.getInt)
  | .LONG => return .long (← v.getLong)
  | .STRING => return .string (← v.getString)
  | .FLOAT => return .float (← v.getFloat)
  | .DOUBLE => return .double (← v.getDouble)
  | .DECIMAL4 | .DECIMAL8 | .DECIMAL16 => do
    let (unscaled, scale) ← v.getDecimalParts
    return .decimal unscaled scale
  | .DATE => return .date (← v.getLong)
  | .TIMESTAMP_TZ => return .timestampTz (← v.getLong)
  | .TIMESTAMP_NTZ => return .timestampNtz (← v.getLong)
  | .TIMESTAMP_NANOS_TZ => return .timestampNanosTz (← v.getLong)
  | .TIMESTAMP_NANOS_NTZ => return .timestampNanosNtz (← v.getLong)
  | .TIME => return .time (← v.getLong)
  | .BINARY => return .binary (← v.getBinary)
  | .UUID => return .uuid (uuidBytes (← v.getUuid))
  | .OBJECT | .ARRAY => throw (.variantError "not a primitive")

/-- The tree, with the fields of an object and the elements of an array by their index. -/
def readTree : Nat → Variant → Option (Except VariantFault VariantTree)
  | 0, _ => none
  | fuel + 1, v =>
    match v.getType with
    | .error e => some (.error e)
    | .ok .OBJECT =>
      match v.numObjectFields with
      | .error e => some (.error e)
      | .ok n =>
        (parts (fun i =>
          match v.getFieldAtIndex i with
          | .error e => some (.error e)
          | .ok (key, child) => (readTree fuel child).map fun r => r.map fun t => (key, t)) 0 n).map
          fun r => r.map .object
    | .ok .ARRAY =>
      match v.numArrayElements with
      | .error e => some (.error e)
      | .ok n =>
        (parts (fun i =>
          match v.getElementAtIndex i with
          | .error e => some (.error e)
          | .ok none => some (.error .outside)
          | .ok (some child) => readTree fuel child) 0 n).map fun r => r.map .array
    | .ok t => some ((v.readPrimitive t).map .primitive)

/-- Reading gives this tree, however much deeper the recursion may go. -/
def Reads (v : Variant) (t : VariantTree) : Prop := ∃ n, ∀ fuel, n ≤ fuel → readTree fuel v = some (.ok t)

end Variant

/-! ## What comes back -/

def fieldLe (f g : List Char × VariantTree) : Prop := keyLe (Utf8.encode f.1) (Utf8.encode g.1)

instance : DecidableRel fieldLe := fun f g => inferInstanceAs
    (Decidable (keyLe (Utf8.encode f.1) (Utf8.encode g.1)))

mutual

def VariantTree.sorted : VariantTree → VariantTree
  | .primitive p => .primitive p
  | .array elements => .array (sortedElements elements)
  | .object fields => .object ((sortedFields fields).insertionSort fieldLe)

def sortedElements : List VariantTree → List VariantTree
  | [] => []
  | t :: ts => t.sorted :: sortedElements ts

def sortedFields : List (List Char × VariantTree) → List (List Char × VariantTree)
  | [] => []
  | (key, t) :: fs => (key, t.sorted) :: sortedFields fs

end

def BOM : Char := Char.ofNat 0xFEFF

def StartsWithBom (s : List Char) : Prop := s.head? = some BOM

instance (s : List Char) : Decidable (StartsWithBom s) := inferInstanceAs (Decidable (_ = _))

/-- Integers fit their width, decimals have at most 38 digits and a scale of at most 38, and a UUID
has 16 bytes. -/
def Primitive.WellFormed : Primitive → Prop
  | .byte value => FitsBytes 1 value
  | .short value => FitsBytes 2 value
  | .int value => FitsBytes 4 value
  | .long value => FitsBytes 8 value
  | .date value => FitsBytes 4 value
  | .time value => FitsBytes 8 value
  | .timestampTz value => FitsBytes 8 value
  | .timestampNtz value => FitsBytes 8 value
  | .timestampNanosTz value => FitsBytes 8 value
  | .timestampNanosNtz value => FitsBytes 8 value
  | .decimal unscaled scale => (decimalDigits unscaled).length ≤ 38 ∧ scale ≤ 38
  | .uuid bytes => bytes.length = 16
  | _ => True

def Primitive.hasStrings : Primitive → Bool
  | .string s => IsString s
  | _ => true

mutual

/-- The texts and the keys are no longer than the strings of the engine. -/
def VariantTree.hasStrings : VariantTree → Bool
  | .primitive p => p.hasStrings
  | .array elements => elementsHaveStrings elements
  | .object fields => fieldsHaveStrings fields

def elementsHaveStrings : List VariantTree → Bool
  | [] => true
  | t :: ts => t.hasStrings && elementsHaveStrings ts

def fieldsHaveStrings : List (List Char × VariantTree) → Bool
  | [] => true
  | (key, t) :: fs => IsString key && (t.hasStrings && fieldsHaveStrings fs)

end

theorem elementsHaveStrings_iff (ts : List VariantTree) :
    elementsHaveStrings ts = true ↔ ∀ t ∈ ts, t.hasStrings = true := by
  induction ts with
  | nil => simp [elementsHaveStrings]
  | cons t ts ih => rw [elementsHaveStrings, Bool.and_eq_true, ih, List.forall_mem_cons]

theorem fieldsHaveStrings_iff (fs : List (List Char × VariantTree)) :
    fieldsHaveStrings fs = true ↔ ∀ f ∈ fs, IsString f.1 ∧ f.2.hasStrings = true := by
  induction fs with
  | nil => simp [fieldsHaveStrings]
  | cons f fs ih =>
    rw [fieldsHaveStrings, Bool.and_eq_true, Bool.and_eq_true, ih, List.forall_mem_cons,
      decide_eq_true_eq, and_assoc]

def Primitive.NoBom : Primitive → Prop
  | .string s => ¬StartsWithBom s
  | _ => True

mutual

/-- The tree can be built: its primitives are well-formed, and no object has a key twice. -/
def VariantTree.WellFormed : VariantTree → Prop
  | .primitive p => p.WellFormed
  | .array elements => elementsWellFormed elements
  | .object fields => (fields.map Prod.fst).Nodup ∧ fieldsWellFormed fields

def elementsWellFormed : List VariantTree → Prop
  | [] => True
  | t :: ts => t.WellFormed ∧ elementsWellFormed ts

def fieldsWellFormed : List (List Char × VariantTree) → Prop
  | [] => True
  | (_, t) :: fs => t.WellFormed ∧ fieldsWellFormed fs

end

mutual

def VariantTree.NoBom : VariantTree → Prop
  | .primitive p => p.NoBom
  | .array elements => elementsNoBom elements
  | .object fields => fieldsNoBom fields

def elementsNoBom : List VariantTree → Prop
  | [] => True
  | t :: ts => t.NoBom ∧ elementsNoBom ts

def fieldsNoBom : List (List Char × VariantTree) → Prop
  | [] => True
  | (key, t) :: fs => ¬StartsWithBom key ∧ t.NoBom ∧ fieldsNoBom fs

end

end ConfluentKafka
