import ConfluentKafka.Lts
import ConfluentKafka.VariantTexts

/-!
# Calls that throw

A caller may catch what a call throws and go on with the builder as it is then. The slot of a value
is taken before the value is checked and written, and a container is closed before there is room for
its header, so such a call can leave a trace. Where no call does, what is built is the tree of the
calls that succeeded.
-/

namespace ConfluentKafka

open VariantFormat VariantBuilder

/-! ## Calls -/

/-- The argument of a function that appends a value; an `invalid` one makes it throw before it writes. -/
inductive Argument where
  | null
  | boolean (b : Bool)
  | byte (value : Int)
  | short (value : Int)
  | int (value : Int)
  | long (value : Int)
  | float (bits : BitVec 32)
  | double (bits : BitVec 64)
  | decimal (unscaled scale : Int)
  | date (daysSinceEpoch : Int)
  | time (microsSinceMidnight : Int)
  | timestampTz (micros : Int)
  | timestampNtz (micros : Int)
  | timestampNanosTz (nanos : Int)
  | timestampNanosNtz (nanos : Int)
  | uuid (uuid16 : Bytes)
  | binary (data : Bytes)
  | string (s : JsString)
  | invalid (message : String)

def Argument.scalar : Argument → Scalar
  | .null => .null
  | .boolean b => .boolean b
  | .byte value => .fixedInt INT1 value 1
  | .short value => .fixedInt INT2 value 2
  | .int value => .fixedInt INT4 value 4
  | .long value => .fixedInt INT8 value 8
  | .float bits => .float bits
  | .double bits => .double bits
  | .decimal unscaled scale => .decimal unscaled scale
  | .date daysSinceEpoch => .fixedInt DATE daysSinceEpoch 4
  | .time microsSinceMidnight => .fixedInt TIME microsSinceMidnight 8
  | .timestampTz micros => .fixedInt TIMESTAMP micros 8
  | .timestampNtz micros => .fixedInt TIMESTAMP_NTZ micros 8
  | .timestampNanosTz nanos => .fixedInt TIMESTAMP_NANOS nanos 8
  | .timestampNanosNtz nanos => .fixedInt TIMESTAMP_NANOS_NTZ nanos 8
  | .uuid uuid16 => .uuid uuid16
  | .binary data => .binary data
  | .string s => .string (Utf16.scalars s)
  | .invalid message => .invalid message

inductive StreamCall where
  | append (x : Argument)
  | startObject
  | appendKey (key : JsString)
  | endObject
  | startArray
  | endArray

def StreamCall.js : StreamCall → JsCall
  | .append x => .append x.scalar
  | .startObject => .startObject
  | .appendKey key => .appendKey key
  | .endObject => .endObject
  | .startArray => .startArray
  | .endArray => .endArray

namespace JsBuilder

def onBase (m : EStateM VariantFault VariantBuilder Unit) : EStateM VariantFault JsBuilder Unit := fun b =>
  match m b.base with
  | .ok _ base => .ok () { b with base }
  | .error e base => .error e { b with base }

def unchanged (f : JsBuilder → Except VariantFault JsBuilder) : EStateM VariantFault JsBuilder Unit := fun b =>
  match f b with
  | .ok b' => .ok () b'
  | .error e => .error e b

/-- A call of the caller; `left` is what the array of the value holds if it is full. -/
def perform (left : Bytes) : StreamCall → EStateM VariantFault JsBuilder Unit
  | .append x => onBase (Stateful.append left x.scalar)
  | .startObject => onBase (Stateful.write left VariantBuilder.startObject)
  | .appendKey key => unchanged fun b => b.appendKey key
  | .endObject => onBase (Stateful.endObject left)
  | .startArray => onBase (Stateful.write left VariantBuilder.startArray)
  | .endArray => onBase (Stateful.endArray left)

end JsBuilder

structure Session where
  builder : JsBuilder
  succeeded : List StreamCall

def Session.next (s : Session) (c : StreamCall) (left : Bytes) : Session :=
  match s.builder.perform left c with
  | .ok _ b => ⟨b, s.succeeded ++ [c]⟩
  | .error _ b => { s with builder := b }

def catching (sizeLimit maxArguments : Nat) : Lts Session (StreamCall × Bytes) where
  init := ⟨JsBuilder.new sizeLimit maxArguments, []⟩
  step s c := some (s.next c.1 c.2)

/-! ## Calls that leave no trace -/

/-- The value that the argument stands for, if it stands for one that can be read back. -/
def Argument.primitive? : Argument → Option Primitive
  | .null => some .null
  | .boolean b => some (.boolean b)
  | .byte value => some (.byte value)
  | .short value => some (.short value)
  | .int value => some (.int value)
  | .long value => some (.long value)
  | .float bits => some (.float bits)
  | .double bits => some (.double bits)
  | .decimal unscaled scale => if 0 ≤ scale then some (.decimal unscaled scale.toNat) else none
  | .date daysSinceEpoch => some (.date daysSinceEpoch)
  | .time microsSinceMidnight => some (.time microsSinceMidnight)
  | .timestampTz micros => some (.timestampTz micros)
  | .timestampNtz micros => some (.timestampNtz micros)
  | .timestampNanosTz nanos => some (.timestampNanosTz nanos)
  | .timestampNanosNtz nanos => some (.timestampNanosNtz nanos)
  | .uuid uuid16 => some (.uuid uuid16)
  | .binary data => some (.binary data)
  | .string s => if Utf16.WellFormed s then some (.string (Utf16.scalars s)) else none
  | .invalid _ => none

instance (p : Primitive) : Decidable p.WellFormed :=
  match p with
  | .byte value => inferInstanceAs (Decidable (FitsBytes 1 value))
  | .short value => inferInstanceAs (Decidable (FitsBytes 2 value))
  | .int value => inferInstanceAs (Decidable (FitsBytes 4 value))
  | .long value => inferInstanceAs (Decidable (FitsBytes 8 value))
  | .date value => inferInstanceAs (Decidable (FitsBytes 4 value))
  | .time value => inferInstanceAs (Decidable (FitsBytes 8 value))
  | .timestampTz value => inferInstanceAs (Decidable (FitsBytes 8 value))
  | .timestampNtz value => inferInstanceAs (Decidable (FitsBytes 8 value))
  | .timestampNanosTz value => inferInstanceAs (Decidable (FitsBytes 8 value))
  | .timestampNanosNtz value => inferInstanceAs (Decidable (FitsBytes 8 value))
  | .decimal unscaled scale => inferInstanceAs (Decidable ((decimalDigits unscaled).length ≤ 38 ∧ scale ≤ 38))
  | .uuid bytes => inferInstanceAs (Decidable (bytes.length = 16))
  | .null | .boolean _ | .float _ | .double _ | .binary _ | .string _ => inferInstanceAs (Decidable True)

instance (p : Primitive) : Decidable p.NoBom :=
  match p with
  | .string s => inferInstanceAs (Decidable (¬StartsWithBom s))
  | .byte _ | .short _ | .int _ | .long _ | .date _ | .time _ | .timestampTz _ | .timestampNtz
    _ | .timestampNanosTz _
  | .timestampNanosNtz _ | .decimal _ _ | .uuid _ | .null | .boolean _ | .float _ | .double _ | .binary _ =>
    inferInstanceAs (Decidable True)

def Primitive.reserved : Primitive → Nat
  | .decimal _ _ => 2 + 16
  | p => p.encode.length

/-- There is room for this many bytes more under the limit, and for so many in the array. -/
def VariantBuilder.room (b : VariantBuilder) (reserved written : Nat) : Bool :=
  b.value.length + reserved ≤ b.sizeLimit ∧ b.value.length + written ≤ MAX_ARRAY_LENGTH

def VariantBuilder.takesHeader (b : VariantBuilder) (header : Bytes) : Bool :=
  b.room header.length header.length ∧ 2 + header.length ≤ b.maxArguments

/-- Where there is a slot for the value, the value passes its checks, has room and can be read back. -/
def Argument.safe (x : Argument) (b : VariantBuilder) : Bool :=
  match b.beforeAppend with
  | .error _ => true
  | .ok _ =>
    match x.primitive? with
    | some p => p.WellFormed ∧ (p.NoBom ∧ p.hasStrings = true) ∧ b.room p.reserved p.encode.length = true
    | none => false

/-- The call throws before it changes anything, or it has what it needs. -/
def StreamCall.safe (b : VariantBuilder) : StreamCall → Bool
  | .append x => x.safe b
  | .startObject => true
  | .appendKey key =>
    match b.stack with
    | .object _ fields none :: _ =>
      Utf16.WellFormed key ∧ (¬StartsWithBom (Utf16.scalars key) ∧ IsString (Utf16.scalars key)) ∧
        Utf16.scalars key ∉ fields.map FieldEntry.key
    | _ => true
  | .endObject =>
    match b.stack with
    | .object start fields none :: _ =>
      b.takesHeader (objectHeader fields (b.value.length - start))
    | _ => true
  | .startArray => true
  | .endArray =>
    match b.stack with
    | .array start offsets :: _ =>
      b.takesHeader (arrayHeader offsets (b.value.length - start))
    | _ => true

/-! ## Steps -/

theorem onBase_eq_ok_iff {m : EStateM VariantFault VariantBuilder Unit}
    {f : VariantBuilder → Except VariantFault VariantBuilder}
    {b : JsBuilder} (h : ∀ base, m b.base = .ok () base ↔ f b.base = .ok base) (b' : JsBuilder) :
    JsBuilder.onBase m b = .ok () b' ↔ b.lift f = .ok b' := by
  unfold JsBuilder.onBase JsBuilder.lift
  cases hf : f b.base with
  | ok base =>
    rw [(h base).mpr hf]
    constructor
    · intro heq
      cases heq
      rfl
    · intro heq
      cases heq
      rfl
  | error e =>
    cases hm : m b.base with
    | ok u base =>
      have := hf.symm.trans ((h base).mp hm)
      cases this
    | error e' base => exact iff_of_false (fun heq => by cases heq) fun heq => by cases heq

theorem unchanged_eq_ok_iff (f : JsBuilder → Except VariantFault JsBuilder) (b b' : JsBuilder) :
    JsBuilder.unchanged f b = .ok () b' ↔ f b = .ok b' := by
  unfold JsBuilder.unchanged
  cases f b with
  | ok b₁ =>
    constructor
    · intro heq
      cases heq
      rfl
    · intro heq
      cases heq
      rfl
  | error e => exact iff_of_false (fun heq => by cases heq) fun heq => by cases heq

/-- A call that succeeds is the call of the builder that is forgotten on a fault. -/
theorem perform_eq_ok_iff (left : Bytes) (c : StreamCall) (b b' : JsBuilder) :
    JsBuilder.perform left c b = .ok () b' ↔ b.call c.js = .ok b' := by
  cases c with
  | append x =>
    exact onBase_eq_ok_iff (f := fun base => base.appendScalar x.scalar)
      (fun base => append_eq_ok_iff left x.scalar b.base base) b'
  | startObject =>
    exact onBase_eq_ok_iff (fun base => write_eq_ok_iff left VariantBuilder.startObject b.base base) b'
  | appendKey key => exact unchanged_eq_ok_iff (fun b => b.appendKey key) b b'
  | endObject =>
    exact onBase_eq_ok_iff (f := VariantBuilder.endObject) (fun base => endObject_eq_ok_iff left b.base base) b'
  | startArray => exact onBase_eq_ok_iff (fun base => write_eq_ok_iff left VariantBuilder.startArray b.base base) b'
  | endArray =>
    exact onBase_eq_ok_iff (f := VariantBuilder.endArray) (fun base => endArray_eq_ok_iff left b.base base) b'

/-! ## Room -/

section Room

variable {b : VariantBuilder}

theorem room_iff {reserved written : Nat} : b.room reserved written = true ↔
    b.value.length + reserved ≤ b.sizeLimit ∧ b.value.length + written ≤ MAX_ARRAY_LENGTH := by
  rw [VariantBuilder.room, decide_eq_true_eq]

theorem write_of_room {n : Nat} {bs : Bytes} (h : b.room n bs.length = true) :
    ∃ b', (do b.checkCapacity n; b.push bs) = .ok b' := by
  rw [room_iff] at h
  rw [checkCapacity, if_neg (by omega)]
  refine ⟨{ b with value := b.value ++ bs }, ?_⟩
  show b.push bs = _
  rw [push, if_neg (by omega)]

theorem splice_of_takesHeader (start : Nat) {header : Bytes} (h : b.takesHeader header = true) :
    ∃ b', b.splice start header = .ok b' := by
  rw [VariantBuilder.takesHeader, decide_eq_true_eq, room_iff] at h
  rw [splice, checkCapacity, if_neg (by omega)]
  refine ⟨{ b with value := b.value.take start ++ (header ++ b.value.drop start) }, ?_⟩
  show (if b.maxArguments < 2 + header.length then _ else if MAX_ARRAY_LENGTH < b.value.length +
    header.length then _
    else _) = _
  rw [if_neg (by omega), if_neg (by omega)]
  rfl

theorem writeFixedInt_of_room {typeCode width : Nat} {value : Int} (hv : FitsBytes width value)
    (h : b.room (primitiveHeader typeCode :: signedLE value width).length
      (primitiveHeader typeCode :: signedLE value width).length = true) :
    ∃ b', b.writeFixedInt typeCode value width = .ok b' := by
  rw [writeFixedInt, if_neg (not_not_intro hv)]
  have hlen : (primitiveHeader typeCode :: signedLE value width).length = 1 + width := by
    rw [List.length_cons, length_signedLE, Nat.add_comm]
  refine write_of_room ?_
  rw [← hlen]
  exact h

/-- A value that passes its checks is written where there is room. -/
theorem writeScalar_of_room {p : Primitive} (hp : p.WellFormed) (h : b.room p.reserved p.encode.length = true) :
    ∃ b', b.writeScalar p.scalar = .ok b' := by
  cases p with
  | null => exact write_of_room h
  | boolean x => exact write_of_room h
  | byte value => exact writeFixedInt_of_room hp h
  | short value => exact writeFixedInt_of_room hp h
  | int value => exact writeFixedInt_of_room hp h
  | long value => exact writeFixedInt_of_room hp h
  | float bits => exact write_of_room h
  | double bits => exact write_of_room h
  | decimal unscaled scale =>
    obtain ⟨code, width, hcode⟩ := decimalCode_eq_ok hp.2 hp.1
    show ∃ b', b.writeDecimalUnscaled unscaled scale = .ok b'
    simp only [Primitive.reserved, Primitive.encode, hcode] at h
    rw [writeDecimalUnscaled, if_neg (by omega)]
    simp only [hcode]
    exact write_of_room h
  | date value => exact writeFixedInt_of_room hp h
  | time value => exact writeFixedInt_of_room hp h
  | timestampTz value => exact writeFixedInt_of_room hp h
  | timestampNtz value => exact writeFixedInt_of_room hp h
  | timestampNanosTz value => exact writeFixedInt_of_room hp h
  | timestampNanosNtz value => exact writeFixedInt_of_room hp h
  | uuid bytes =>
    have hlen : bytes.length = 16 := hp
    show ∃ b', b.writeScalar (.uuid bytes) = .ok b'
    rw [writeScalar, if_neg (not_not_intro hlen)]
    refine write_of_room ?_
    have hsize : (primitiveHeader UUID :: bytes).length = 1 + 16 := by rw [List.length_cons, hlen]
    rw [← hsize]
    exact h
  | binary data =>
    refine write_of_room ?_
    have hsize : (primitiveHeader BINARY :: (uintLE data.length U32_SIZE ++ data)).length = 1 + U32_SIZE +
      data.length := by
      rw [List.length_cons, List.length_append, length_uintLE]
      omega
    rw [← hsize]
    exact h
  | string s =>
    show ∃ b', b.writeString s = .ok b'
    simp only [Primitive.reserved, Primitive.encode] at h
    rw [writeString]
    split at h
    · next hlong =>
      rw [if_pos hlong]
      refine write_of_room ?_
      have hsize : (primitiveHeader LONG_STR :: (uintLE (Utf8.encode s).length U32_SIZE ++ Utf8.encode s)).length =
          1 + U32_SIZE + (Utf8.encode s).length := by
        rw [List.length_cons, List.length_append, length_uintLE]
        omega
      rw [← hsize]
      exact h
    · next hshort =>
      rw [if_neg hshort]
      refine write_of_room ?_
      have hsize : (UInt8.ofNat ((Utf8.encode s).length * 4 + SHORT_STR) :: Utf8.encode s).length =
          1 + (Utf8.encode s).length := by
        rw [List.length_cons]
        omega
      rw [← hsize]
      exact h

end Room

/-! ## What a call that throws leaves -/

def Primitive.argument : Primitive → Argument
  | .null => .null
  | .boolean x => .boolean x
  | .byte value => .byte value
  | .short value => .short value
  | .int value => .int value
  | .long value => .long value
  | .float bits => .float bits
  | .double bits => .double bits
  | .decimal unscaled scale => .decimal unscaled scale
  | .date daysSinceEpoch => .date daysSinceEpoch
  | .time microsSinceMidnight => .time microsSinceMidnight
  | .timestampTz micros => .timestampTz micros
  | .timestampNtz micros => .timestampNtz micros
  | .timestampNanosTz nanos => .timestampNanosTz nanos
  | .timestampNanosNtz nanos => .timestampNanosNtz nanos
  | .uuid bytes => .uuid bytes
  | .binary data => .binary data
  | .string s => .string (Utf16.ofChars s)

theorem scalar_argument (p : Primitive) : p.argument.scalar = p.scalar := by
  cases p with
  | string s => rw [Primitive.argument, Argument.scalar, Primitive.scalar, Utf16.scalars_ofChars]
  | _ => rfl

theorem eq_argument {x : Argument} {p : Primitive} (h : x.primitive? = some p) : x = p.argument := by
  cases x with
  | decimal unscaled scale =>
    rw [Argument.primitive?] at h
    split at h
    · next hscale =>
      cases h
      rw [Primitive.argument, Int.toNat_of_nonneg hscale]
    · cases h
  | string s =>
    rw [Argument.primitive?] at h
    split at h
    · next hwf =>
      cases h
      rw [Primitive.argument, hwf]
    · cases h
  | invalid message => cases h
  | _ =>
    cases h
    rfl

theorem beforeAppend_error {b : VariantBuilder} {e : VariantFault} (h : b.beforeAppend = .error e) :
    e ≠ .arrayLength := by
  unfold beforeAppend at h
  split at h
  · split at h
    · cases h
      exact fun heq => by cases heq
    · cases h
  · cases h
    exact fun heq => by cases heq
  · cases h
  · cases h

theorem write_of_error {left : Bytes} {f : VariantBuilder → Except VariantFault VariantBuilder} {b : VariantBuilder}
    {e : VariantFault} (h : f b = .error e) (he : e ≠ .arrayLength) : Stateful.write left f b = .error e b := by
  unfold Stateful.write
  rw [h]
  cases e with
  | arrayLength => exact absurd rfl he
  | _ => rfl

def Untouched (m : EStateM VariantFault VariantBuilder Unit) (b : VariantBuilder) : Prop :=
  (∃ b', m b = .ok () b') ∨ ∃ e, m b = .error e b

theorem untouched_append {left : Bytes} {x : Argument} {b : VariantBuilder} (h : x.safe b = true) :
    Untouched (Stateful.append left x.scalar) b := by
  unfold Argument.safe at h
  cases hb : b.beforeAppend with
  | error e =>
    exact .inr ⟨e, bind_of_error (write_of_error hb (beforeAppend_error hb))⟩
  | ok b₁ =>
    rw [hb] at h
    dsimp only at h
    cases hp : x.primitive? with
    | none =>
      rw [hp] at h
      cases h
    | some p =>
      rw [hp] at h
      simp only [decide_eq_true_eq] at h
      obtain ⟨hwf, -, hroom⟩ := h
      have hroom₁ : b₁.room p.reserved p.encode.length = true := by
        rw [beforeAppend_eq_ok hb]
        exact hroom
      obtain ⟨b', hb'⟩ := writeScalar_of_room hwf hroom₁
      rw [← scalar_argument, ← eq_argument hp] at hb'
      refine .inl ⟨b', (append_eq_ok_iff left _ b b').mpr ?_⟩
      have heq : b.appendScalar x.scalar = b.beforeAppend >>= fun b₁ => b₁.writeScalar x.scalar := by
        cases x.scalar with
        | _ => rfl
      rw [heq, hb]
      exact hb'

theorem untouched_write {left : Bytes} {f : VariantBuilder → Except VariantFault VariantBuilder}
    {b : VariantBuilder}
    (h : ∀ e, f b = .error e → e ≠ .arrayLength) : Untouched (Stateful.write left f) b := by
  cases hf : f b with
  | ok b' => exact .inl ⟨b', (write_eq_ok_iff left f b b').mpr hf⟩
  | error e => exact .inr ⟨e, write_of_error hf (h e hf)⟩

theorem length_objectHeader_perm {fields sorted : List FieldEntry} (h : fields.Perm sorted) (dataSize : Nat) :
    (objectHeader sorted dataSize).length = (objectHeader fields dataSize).length := by
  have hmax : sorted.foldl (fun m f => max m f.id) 0 = fields.foldl (fun m f => max m f.id) 0 := by
    have : RightCommutative fun (m : Nat) (f : FieldEntry) => max m f.id := ⟨fun m f g => by omega⟩
    exact (h.foldl_eq 0).symm
  simp only [objectHeader, hmax, List.length_cons, List.length_append, h.length_eq,
    length_flatMap_of_width (fun f : FieldEntry => length_uintLE f.id _),
    length_flatMap_of_width (fun f : FieldEntry => length_uintLE f.offset _), length_uintLE]

theorem untouched_endObject {left : Bytes} {b : VariantBuilder} (h : StreamCall.safe b .endObject = true) :
    Untouched (Stateful.endObject left) b := by
  rw [StreamCall.safe] at h
  unfold Untouched Stateful.endObject
  rw [get_bind]
  cases hs : b.stack with
  | nil => exact .inr ⟨_, rfl⟩
  | cons ctx rest =>
    cases ctx with
    | array start offsets => exact .inr ⟨_, rfl⟩
    | object start fields pendingKey =>
      cases pendingKey with
      | some key => exact .inr ⟨_, rfl⟩
      | none =>
        rw [hs] at h
        dsimp only at h
        rw [VariantBuilder.takesHeader, ← length_objectHeader_perm (List.perm_insertionSort
          (fun f g => keyLe (b.dictionaryKeys.getD f.id []) (b.dictionaryKeys.getD g.id [])) fields).symm] at h
        obtain ⟨b', hb'⟩ := splice_of_takesHeader (b := { b with stack := rest }) start h
        exact .inl ⟨b', (write_eq_ok_iff left (fun b => b.finishWritingObject start fields)
          { b with stack := rest } b').mpr hb'⟩

theorem untouched_endArray {left : Bytes} {b : VariantBuilder} (h : StreamCall.safe b .endArray = true) :
    Untouched (Stateful.endArray left) b := by
  rw [StreamCall.safe] at h
  unfold Untouched Stateful.endArray
  rw [get_bind]
  cases hs : b.stack with
  | nil => exact .inr ⟨_, rfl⟩
  | cons ctx rest =>
    cases ctx with
    | object start fields pendingKey => exact .inr ⟨_, rfl⟩
    | array start offsets =>
      rw [hs] at h
      obtain ⟨b', hb'⟩ := splice_of_takesHeader (b := { b with stack := rest }) start h
      exact .inl ⟨b', (write_eq_ok_iff left (fun b => b.finishWritingArray start offsets)
        { b with stack := rest } b').mpr hb'⟩

theorem onBase_error_of_untouched {m : EStateM VariantFault VariantBuilder Unit} {b b' : JsBuilder}
    {e : VariantFault}
    (hm : Untouched m b.base) (h : JsBuilder.onBase m b = .error e b') : b' = b := by
  unfold JsBuilder.onBase at h
  rcases hm with ⟨base, hok⟩ | ⟨e', herror⟩
  · rw [hok] at h
    cases h
  · rw [herror] at h
    cases h
    rfl

theorem perform_error_of_safe {left : Bytes} {c : StreamCall} {b b' : JsBuilder} {e : VariantFault}
    (hsafe : c.safe b.base = true) (h : JsBuilder.perform left c b = .error e b') : b' = b := by
  have hstart : ∀ f : VariantBuilder → VariantBuilder, ∀ e,
    (b.base.beforeAppend >>= fun b₁ => pure (f b₁)) = .error e →
      e ≠ .arrayLength := by
    intro f e he
    cases hb : b.base.beforeAppend with
    | ok b₁ =>
      rw [hb] at he
      cases he
    | error e' =>
      rw [hb] at he
      cases he
      exact beforeAppend_error hb
  cases c with
  | append x => exact onBase_error_of_untouched (untouched_append hsafe) h
  | startObject => exact onBase_error_of_untouched (untouched_write (hstart _)) h
  | appendKey key =>
    rw [JsBuilder.perform, JsBuilder.unchanged] at h
    split at h
    · cases h
    · cases h
      rfl
  | endObject => exact onBase_error_of_untouched (untouched_endObject hsafe) h
  | startArray => exact onBase_error_of_untouched (untouched_write (hstart _)) h
  | endArray => exact onBase_error_of_untouched (untouched_endArray hsafe) h

/-! ## Trees of calls -/

mutual

def VariantTree.streamCalls : VariantTree → List StreamCall
  | .primitive p => [.append p.argument]
  | .array elements => .startArray :: (streamElementCalls elements ++ [.endArray])
  | .object fields => .startObject :: (streamFieldCalls fields ++ [.endObject])

def streamElementCalls : List VariantTree → List StreamCall
  | [] => []
  | t :: ts => t.streamCalls ++ streamElementCalls ts

def streamFieldCalls : List (List Char × VariantTree) → List StreamCall
  | [] => []
  | (key, t) :: fs => .appendKey (Utf16.ofChars key) :: (t.streamCalls ++ streamFieldCalls fs)

end

mutual

theorem VariantTree.map_js_streamCalls : ∀ t : VariantTree, t.streamCalls.map StreamCall.js = t.js.calls
  | .primitive p => by
    rw [VariantTree.streamCalls, VariantTree.js, JsTree.calls, List.map_singleton, StreamCall.js, scalar_argument]
  | .array elements => by
    rw [VariantTree.streamCalls, VariantTree.js, JsTree.calls, List.map_cons, List.map_append,
      map_js_streamElementCalls elements]
    rfl
  | .object fields => by
    rw [VariantTree.streamCalls, VariantTree.js, JsTree.calls, List.map_cons, List.map_append,
      map_js_streamFieldCalls fields]
    rfl

theorem map_js_streamElementCalls : ∀ ts : List VariantTree,
    (streamElementCalls ts).map StreamCall.js = jsElementCalls (jsElements ts)
  | [] => by
    rw [streamElementCalls, jsElements, jsElementCalls, List.map_nil]
  | t :: ts => by
    rw [streamElementCalls, jsElements, jsElementCalls, List.map_append, t.map_js_streamCalls,
      map_js_streamElementCalls ts]

theorem map_js_streamFieldCalls : ∀ fs : List (List Char × VariantTree),
    (streamFieldCalls fs).map StreamCall.js = jsFieldCalls (jsFields fs)
  | [] => by
    rw [streamFieldCalls, jsFields, jsFieldCalls, List.map_nil]
  | (key, t) :: fs => by
    rw [streamFieldCalls, jsFields, jsFieldCalls, List.map_cons, List.map_append, t.map_js_streamCalls,
      map_js_streamFieldCalls fs, StreamCall.js]

end

theorem streamElementCalls_concat (ts : List VariantTree) (t : VariantTree) :
    streamElementCalls (ts ++ [t]) = streamElementCalls ts ++ t.streamCalls := by
  induction ts with
  | nil => simp [streamElementCalls]
  | cons u ts ih => rw [List.cons_append, streamElementCalls, streamElementCalls, ih, List.append_assoc]

theorem streamFieldCalls_concat (fs : List (List Char × VariantTree)) (key : List Char) (t : VariantTree) :
    streamFieldCalls (fs ++ [(key, t)]) = streamFieldCalls fs ++ .appendKey (Utf16.ofChars key) ::
      t.streamCalls := by
  induction fs with
  | nil => simp [streamFieldCalls]
  | cons f fs ih =>
    rw [List.cons_append, streamFieldCalls, streamFieldCalls, ih, List.cons_append, List.append_assoc]

/-! ## Trees in the making -/

def VariantTree.Good (t : VariantTree) : Prop := t.WellFormed ∧ t.NoBom ∧ t.hasStrings = true

/-- A container that is open, with the values and the key that it has so far. -/
inductive Frame where
  | array (elements : List VariantTree)
  | object (fields : List (List Char × VariantTree)) (pending : Option (List Char))

def Frame.calls : Frame → List StreamCall
  | .array elements => .startArray :: streamElementCalls elements
  | .object fields none => .startObject :: streamFieldCalls fields
  | .object fields (some key) => .startObject :: (streamFieldCalls fields ++ [.appendKey (Utf16.ofChars key)])

def framesCalls : List Frame → List StreamCall
  | [] => []
  | f :: frames => framesCalls frames ++ f.calls

def Frame.Good : Frame → Prop
  | .array elements => ∀ t ∈ elements, t.Good
  | .object fields pending => (fields.map Prod.fst ++ pending.toList).Nodup ∧
    (∀ key ∈ fields.map Prod.fst ++ pending.toList, ¬StartsWithBom key ∧ IsString key) ∧ ∀ f ∈ fields, f.2.Good

def Stands : Context → Frame → Prop
  | .array _ _, .array _ => True
  | .object _ entries pendingKey, .object fields pending =>
    entries.map FieldEntry.key = fields.map Prod.fst ∧ pendingKey.map Prod.fst = pending
  | _, _ => False

def Awaits : Context → Frame → Prop
  | .array _ _, .array _ => True
  | .object _ entries none, .object fields (some key) => entries.map FieldEntry.key = fields.map Prod.fst ++ [key]
  | _, _ => False

/-- All containers that are open wait for a value, of which the calls come next. -/
structure Awaiting (b : VariantBuilder) (cs : List StreamCall) (frames : List Frame) : Prop where
  stack : List.Forall₂ Awaits b.stack frames
  rootWritten : b.rootWritten = true
  good : ∀ f ∈ frames, f.Good
  calls : cs = framesCalls frames

inductive Shape (b : VariantBuilder) (cs : List StreamCall) : Prop where
  | empty (hs : b.stack = []) (hr : b.rootWritten = false) (hc : cs = [])
  | whole (t : VariantTree) (hs : b.stack = []) (hr : b.rootWritten = true) (ht : t.Good) (hc : cs = t.streamCalls)
  | inside {ctx : Context} {rest : List Context} {f : Frame} {frames : List Frame} (hs : b.stack = ctx :: rest)
      (hf : Stands ctx f) (hrest : List.Forall₂ Awaits rest frames) (hr : b.rootWritten = true)
      (hgood : f.Good) (hframes : ∀ g ∈ frames, g.Good) (hc : cs = framesCalls frames ++ f.calls)

theorem Shape.awaiting {b b₁ : VariantBuilder} {cs : List StreamCall} (h : Shape b cs)
    (hb : b.beforeAppend = .ok b₁) :
    ∃ frames, Awaiting b₁ cs frames := by
  unfold beforeAppend at hb
  cases h with
  | empty hs hr hc =>
    rw [hs] at hb
    simp only [hr, Bool.false_eq_true, if_false] at hb
    cases hb
    exact ⟨[], .nil, rfl, by simp, hc⟩
  | whole t hs hr ht hc =>
    rw [hs] at hb
    simp only [hr, if_true] at hb
    cases hb
  | @inside ctx rest f frames hs hf hrest hr hgood hframes hc =>
    rw [hs] at hb
    have hall : ∀ g ∈ f :: frames, g.Good := by
      rw [List.forall_mem_cons]
      exact ⟨hgood, hframes⟩
    cases ctx with
    | array start offsets =>
      cases f with
      | object fields pending => exact absurd hf id
      | array elements =>
        cases hb
        refine ⟨.array elements :: frames, .cons ?_ hrest, hr, hall, hc⟩
        trivial
    | object start entries pendingKey =>
      cases f with
      | array elements => exact absurd hf id
      | object fields pending =>
        cases pendingKey with
        | none => cases hb
        | some pair =>
          obtain ⟨key, id⟩ := pair
          cases hb
          obtain ⟨hkeys, rfl⟩ := hf
          refine ⟨.object fields (some key) :: frames, .cons ?_ hrest, hr, hall, hc⟩
          show (entries ++ [_]).map FieldEntry.key = fields.map Prod.fst ++ [key]
          rw [List.map_append, hkeys]
          rfl

theorem Awaiting.fill {b b' : VariantBuilder} {cs : List StreamCall} {frames : List Frame}
    (h : Awaiting b cs frames)
    {t : VariantTree} (ht : t.Good) (hstack : b'.stack = b.stack) (hroot : b'.rootWritten = b.rootWritten) :
    Shape b' (cs ++ t.streamCalls) := by
  have hs := h.stack
  have hr := hroot.trans h.rootWritten
  rw [← hstack] at hs
  cases frames with
  | nil =>
    rw [List.forall₂_nil_right_iff] at hs
    refine .whole t hs hr ht ?_
    rw [h.calls]
    rfl
  | cons f frames =>
    obtain ⟨hgood, hframes⟩ := List.forall_mem_cons.mp h.good
    obtain ⟨ctx, rest, hctx, hrest, hcons⟩ := List.forall₂_cons_right_iff.mp hs
    cases ctx with
    | array start offsets =>
      cases f with
      | object fields pending => exact absurd hctx id
      | array elements =>
        refine .inside hcons (f := .array (elements ++ [t])) trivial hrest hr ?_ hframes ?_
        · intro u hu
          rcases List.mem_append.mp hu with hu | hu
          · exact hgood u hu
          · rw [List.mem_singleton.mp hu]
            exact ht
        · rw [h.calls, framesCalls, Frame.calls, Frame.calls, streamElementCalls_concat]
          simp
    | object start entries pendingKey =>
      cases f with
      | array elements =>
        cases pendingKey with
        | none => exact absurd hctx id
        | some pair => exact absurd hctx id
      | object fields pending =>
        cases pendingKey with
        | some pair => exact absurd hctx id
        | none =>
          cases pending with
          | none => exact absurd hctx id
          | some key =>
            obtain ⟨hnodup, hbom, hfields⟩ := hgood
            have hkeys : (fields ++ [(key, t)]).map Prod.fst = fields.map Prod.fst ++ [key] := by
              rw [List.map_append]
              rfl
            refine .inside hcons (f := .object (fields ++ [(key, t)]) none) ⟨hctx.trans hkeys.symm, rfl⟩ hrest hr
              ⟨?_, ?_, ?_⟩ hframes ?_
            · simpa [hkeys] using hnodup
            · simpa [hkeys] using hbom
            · intro g hg
              rcases List.mem_append.mp hg with hg | hg
              · exact hfields g hg
              · rw [List.mem_singleton.mp hg]
                exact ht
            · rw [h.calls, framesCalls, Frame.calls, Frame.calls, streamFieldCalls_concat]
              simp

theorem Awaiting.container {b b' : VariantBuilder} {cs : List StreamCall} {frames : List Frame}
    (h : Awaiting b cs frames)
    (ctx : Context) (f : Frame) (hf : Stands ctx f) (hgood : f.Good) (hstack : b'.stack = ctx :: b.stack)
    (hroot : b'.rootWritten = b.rootWritten) : Shape b' (cs ++ f.calls) :=
  .inside hstack hf h.stack (hroot.trans h.rootWritten) hgood h.good (by rw [h.calls])

/-! ## What a call that succeeds does -/

theorem splice_eq_ok {b b' : VariantBuilder} {start : Nat} {header : Bytes} (h : b.splice start header = .ok b') :
    b'.stack = b.stack ∧ b'.rootWritten = b.rootWritten := by
  rw [splice] at h
  obtain ⟨_, -, h⟩ := bind_eq_ok h
  split at h
  · cases h
  split at h
  · cases h
  · cases h
    exact ⟨rfl, rfl⟩

theorem Shape.append {b b' : VariantBuilder} {cs : List StreamCall} (h : Shape b cs) {x : Argument}
    (hsafe : x.safe b = true)
    (hb : b.appendScalar x.scalar = .ok b') : Shape b' (cs ++ [.append x]) := by
  unfold Argument.safe at hsafe
  cases hslot : b.beforeAppend with
  | error e =>
    have heq : b.appendScalar x.scalar = b.beforeAppend >>= fun b₁ => b₁.writeScalar x.scalar := by
      cases x.scalar with
      | _ => rfl
    rw [heq, hslot] at hb
    cases hb
  | ok b₁ =>
    rw [hslot] at hsafe
    cases hp : x.primitive? with
    | none =>
      rw [hp] at hsafe
      cases hsafe
    | some p =>
      rw [hp] at hsafe
      simp only [decide_eq_true_eq] at hsafe
      obtain ⟨hwf, hbom, -⟩ := hsafe
      rw [eq_argument hp, scalar_argument, appendScalar_scalar] at hb
      have hwrote := limited_append (F := False) hslot hwf
      rw [hb] at hwrote
      have heq := hwrote.eq
      obtain ⟨frames, hawaiting⟩ := h.awaiting hslot
      have hgood : (VariantTree.primitive p).Good := by
        rw [VariantTree.Good, VariantTree.WellFormed, VariantTree.NoBom, VariantTree.hasStrings]
        exact ⟨hwf, hbom⟩
      have hshape : Shape b' (cs ++ VariantTree.streamCalls (.primitive p)) := hawaiting.fill hgood
        (by rw [heq]) (by rw [heq])
      rwa [VariantTree.streamCalls, ← eq_argument hp] at hshape

theorem Shape.appendKey {b b' : JsBuilder} {cs : List StreamCall} (h : Shape b.base cs) {key : JsString}
    (hsafe : StreamCall.safe b.base (.appendKey key) = true) (hb : b.appendKey key = .ok b') :
    Shape b'.base (cs ++ [.appendKey key]) := by
  rw [StreamCall.safe] at hsafe
  cases h with
  | empty hs hr hc =>
    rw [JsBuilder.appendKey, hs] at hb
    cases hb
  | whole t hs hr ht hc =>
    rw [JsBuilder.appendKey, hs] at hb
    cases hb
  | @inside ctx rest f frames hs hf hrest hr hgood hframes hc =>
    cases ctx with
    | array start offsets =>
      rw [JsBuilder.appendKey, hs] at hb
      cases hb
    | object start entries pendingKey =>
      cases f with
      | array elements => exact absurd hf id
      | object fields pending =>
        cases pendingKey with
        | some pair =>
          rw [JsBuilder.appendKey, hs] at hb
          cases hb
        | none =>
          obtain ⟨b₁, hb₁, -, hs₁, hr₁, -, -⟩ := JsBuilder.appendKey_of_object hs key
          have heq := hb.symm.trans hb₁
          cases heq
          rw [hs] at hsafe
          simp only [decide_eq_true_eq] at hsafe
          obtain ⟨hwf, hbom, hnew⟩ := hsafe
          have hkeys := hf.1
          obtain rfl : pending = none := hf.2.symm
          obtain ⟨hnodup, hboms, hfields⟩ := hgood
          rw [hkeys] at hnew
          have hcalls : framesCalls frames ++ (Frame.object fields (some (Utf16.scalars key))).calls =
              cs ++ [.appendKey key] := by
            rw [hc, Frame.calls, Frame.calls, hwf]
            simp
          refine .inside hs₁ (f := .object fields (some (Utf16.scalars key))) ⟨hkeys, rfl⟩ hrest (hr₁.trans hr)
            ⟨?_, ?_, hfields⟩
            hframes hcalls.symm
          · simp only [Option.toList_none, List.append_nil] at hnodup
            rw [Option.toList_some, List.nodup_append]
            refine ⟨hnodup, List.nodup_singleton _, ?_⟩
            intro k hk k' hk' heq
            rw [List.mem_singleton.mp hk'] at heq
            exact hnew (heq ▸ hk)
          · intro k hk
            rcases List.mem_append.mp hk with hk | hk
            · exact hboms k (List.mem_append_left _ hk)
            · rw [List.mem_singleton.mp hk]
              exact hbom

theorem Shape.endObject {b b' : VariantBuilder} {cs : List StreamCall} (h : Shape b cs)
    (hb : b.endObject = .ok b') :
    Shape b' (cs ++ [.endObject]) := by
  unfold VariantBuilder.endObject at hb
  cases h with
  | empty hs hr hc =>
    rw [hs] at hb
    cases hb
  | whole t hs hr ht hc =>
    rw [hs] at hb
    cases hb
  | @inside ctx rest f frames hs hf hrest hr hgood hframes hc =>
    rw [hs] at hb
    cases ctx with
    | array start offsets => cases hb
    | object start entries pendingKey =>
      cases f with
      | array elements => exact absurd hf id
      | object fields pending =>
        cases pendingKey with
        | some pair => cases hb
        | none =>
          obtain rfl : pending = none := hf.2.symm
          obtain ⟨hnodup, hbom, hfields⟩ := hgood
          simp only [Option.toList_none, List.append_nil] at hnodup hbom
          have hawaiting : Awaiting { b with stack := rest } (framesCalls frames) frames :=
            ⟨hrest, hr, hframes, rfl⟩
          obtain ⟨hstack, hroot⟩ := splice_eq_ok hb
          have ht : (VariantTree.object fields).Good := by
            rw [VariantTree.Good, VariantTree.WellFormed, VariantTree.NoBom, VariantTree.hasStrings,
              fieldsWellFormed_iff,
              fieldsNoBom_iff, fieldsHaveStrings_iff]
            exact ⟨⟨hnodup, fun g hg => (hfields g hg).1⟩,
              fun g hg => ⟨(hbom _ (List.mem_map_of_mem hg)).1, (hfields g hg).2.1⟩,
              fun g hg => ⟨(hbom _ (List.mem_map_of_mem hg)).2, (hfields g hg).2.2⟩⟩
          have hshape := hawaiting.fill ht hstack hroot
          have hcalls : cs ++ [.endObject] = framesCalls frames ++ (VariantTree.object fields).streamCalls := by
            rw [hc, Frame.calls, VariantTree.streamCalls]
            simp
          rwa [hcalls]

theorem Shape.endArray {b b' : VariantBuilder} {cs : List StreamCall} (h : Shape b cs) (hb : b.endArray = .ok b') :
    Shape b' (cs ++ [.endArray]) := by
  unfold VariantBuilder.endArray at hb
  cases h with
  | empty hs hr hc =>
    rw [hs] at hb
    cases hb
  | whole t hs hr ht hc =>
    rw [hs] at hb
    cases hb
  | @inside ctx rest f frames hs hf hrest hr hgood hframes hc =>
    rw [hs] at hb
    cases ctx with
    | object start entries pendingKey => cases hb
    | array start offsets =>
      cases f with
      | object fields pending => exact absurd hf id
      | array elements =>
        have hawaiting : Awaiting { b with stack := rest } (framesCalls frames) frames := ⟨hrest, hr, hframes, rfl⟩
        obtain ⟨hstack, hroot⟩ := splice_eq_ok hb
        have ht : (VariantTree.array elements).Good := by
          rw [VariantTree.Good, VariantTree.WellFormed, VariantTree.NoBom, VariantTree.hasStrings,
            elementsWellFormed_iff,
            elementsNoBom_iff, elementsHaveStrings_iff]
          exact ⟨fun t ht => (hgood t ht).1, fun t ht => (hgood t ht).2.1, fun t ht => (hgood t ht).2.2⟩
        have hshape := hawaiting.fill ht hstack hroot
        have hcalls : cs ++ [.endArray] = framesCalls frames ++ (VariantTree.array elements).streamCalls := by
          rw [hc, Frame.calls, VariantTree.streamCalls]
          simp
        rwa [hcalls]

theorem Shape.step {b b' : JsBuilder} {cs : List StreamCall} (h : Shape b.base cs) {c : StreamCall}
    (hsafe : c.safe b.base = true) (hb : b.call c.js = .ok b') : Shape b'.base (cs ++ [c]) := by
  have hlift : ∀ {f : VariantBuilder → Except VariantFault VariantBuilder}, b.lift f = .ok b' →
    f b.base = .ok b'.base := by
    intro f hf
    unfold JsBuilder.lift at hf
    cases hbase : f b.base with
    | ok base =>
      rw [hbase] at hf
      cases hf
      rfl
    | error e =>
      rw [hbase] at hf
      cases hf
  cases c with
  | append x => exact h.append hsafe (hlift (f := fun base => base.appendScalar x.scalar) hb)
  | startObject =>
    obtain ⟨b₁, hslot, hb₁⟩ := bind_eq_ok (hlift hb)
    obtain ⟨frames, hawaiting⟩ := h.awaiting hslot
    have hbase := (Except.ok.inj hb₁).symm
    exact hawaiting.container (.object b₁.value.length [] none) (.object [] none) ⟨rfl, rfl⟩
      ⟨List.nodup_nil, by simp, by simp⟩
      (by rw [hbase]) (by rw [hbase])
  | appendKey key => exact h.appendKey hsafe hb
  | endObject => exact h.endObject (hlift hb)
  | startArray =>
    obtain ⟨b₁, hslot, hb₁⟩ := bind_eq_ok (hlift hb)
    obtain ⟨frames, hawaiting⟩ := h.awaiting hslot
    have hbase := (Except.ok.inj hb₁).symm
    exact hawaiting.container (.array b₁.value.length []) (.array []) trivial (by simp [Frame.Good]) (by rw [hbase])
      (by rw [hbase])
  | endArray => exact h.endArray (hlift hb)

/-! ## Whole runs -/

/-- The builder is what the calls that succeeded make, and they are those of a tree in the making. -/
structure Faithful (sizeLimit maxArguments : Nat) (s : Session) : Prop where
  run : (JsBuilder.new sizeLimit maxArguments).run (s.succeeded.map StreamCall.js) = .ok s.builder
  shape : Shape s.builder.base s.succeeded

theorem Faithful.next {sizeLimit maxArguments : Nat} {s : Session} (h : Faithful sizeLimit maxArguments s)
    {c : StreamCall} (left : Bytes)
    (hsafe : c.safe s.builder.base = true) : Faithful sizeLimit maxArguments (s.next c left) := by
  unfold Session.next
  cases hp : s.builder.perform left c with
  | ok u b =>
    have hcall := (perform_eq_ok_iff left c s.builder b).mp hp
    refine ⟨?_, h.shape.step hsafe hcall⟩
    rw [List.map_append, JsBuilder.run_append, h.run]
    show s.builder.run [c.js] = _
    rw [JsBuilder.run_singleton, hcall]
  | error e b =>
    rw [perform_error_of_safe hsafe hp]
    exact h

/-- What is built is well formed and is read as the tree of the calls that succeeded. -/
def Session.BuildsSucceeded (s : Session) : Prop :=
  ∀ v, s.builder.build = .ok v → ∃ t : VariantTree, t.streamCalls = s.succeeded ∧ t.WellFormed ∧ v.Reads t.sorted

theorem Faithful.buildsSucceeded {sizeLimit maxArguments : Nat} {s : Session}
    (h : Faithful sizeLimit maxArguments s) : s.BuildsSucceeded := by
  intro v hv
  have hv' := hv
  unfold JsBuilder.build VariantBuilder.build at hv
  by_cases hstack : s.builder.base.stack ≠ []
  · rw [if_pos hstack] at hv
    cases hv
  rw [if_neg hstack] at hv
  by_cases hroot : ¬s.builder.base.rootWritten = true
  · rw [if_pos hroot] at hv
    cases hv
  cases h.shape with
  | empty hs hr hc => exact absurd hr (by simpa using hroot)
  | inside hs hf hrest hr hgood hframes hc => exact absurd (by rw [hs]; exact List.cons_ne_nil _ _) hstack
  | whole t hs hr ht hc =>
    have hrun := h.run
    rw [hc, t.map_js_streamCalls] at hrun
    have hbuild : t.js.build sizeLimit maxArguments = .ok v := by
      rw [JsTree.build, t.hasStrings_js ht.2.2, hrun]
      exact hv'
    exact ⟨t, hc.symm, ht.1, VariantTree.reads_of_build_js hbuild ht.1 ht.2.2 ht.2.1⟩

def Session.LeavesNoTrace (s : Session) (c : StreamCall) (left : Bytes) : Prop :=
  ∀ e b, s.builder.perform left c = .error e b → b = s.builder

/-- In every run of calls that each throw before they change anything or have what they need, a call that
throws leaves no trace, and what is built is the tree of the calls that succeeded. -/
theorem catching_builds_succeeded {sizeLimit maxArguments : Nat} {cs : List (StreamCall × Bytes)} {s : Session}
    (hr : (catching sizeLimit maxArguments).RunWhere (fun s c => c.1.safe s.builder.base = true) cs s) :
    s.BuildsSucceeded ∧ ∀ c left, c.safe s.builder.base = true → s.LeavesNoTrace c left := by
  have hfaithful : Faithful sizeLimit maxArguments s := by
    refine hr.inv ⟨rfl, .empty rfl rfl rfl⟩ fun s c s' h hsafe hstep => ?_
    obtain rfl : s.next c.1 c.2 = s' := Option.some.inj hstep
    exact h.next c.2 hsafe
  exact ⟨hfaithful.buildsSucceeded, fun c left hsafe e b hb => perform_error_of_safe hsafe hb⟩

/-- A key where there is no object is refused, and the array is built with its one element. -/
def refusedKey : List (StreamCall × Bytes) :=
  [(.startArray, []), (.appendKey (Utf16.ofChars ['a']), []), (.append (.byte 5), []), (.endArray, [])]

theorem catching_refusedKey : ∃ s v, (catching 100 100000).RunWhere (fun s c => c.1.safe s.builder.base = true)
    refusedKey s ∧
    s.succeeded.length = 3 ∧ s.builder.build = .ok v ∧ s.BuildsSucceeded := by
  obtain ⟨s, hs⟩ : ∃ s, (catching 100 100000).exec (fun s c => c.1.safe s.builder.base)
    (catching 100 100000).init refusedKey = some s := ⟨_, rfl⟩
  have hr := Lts.RunWhere.of_exec .nil hs
  have hv : s.builder.build = .ok ⟨[3, 1, 0, 2, 12, 5], [1, 0, 0], 0⟩ := by
    cases hs
    rfl
  refine ⟨s, _, hr, ?_, hv, (catching_builds_succeeded hr).1⟩
  cases hs
  rfl

/-- A byte out of range is refused, but its slot in the array is taken. -/
def refusedByte : List (StreamCall × Bytes) := [(.startArray, []), (.append (.byte 300), []), (.endArray, [])]

theorem catching_refusedByte_fails : ∃ s v, (catching 100 100000).Run refusedByte s ∧ s.succeeded =
    [.startArray, .endArray] ∧
    s.builder.build = .ok v ∧ v.numArrayElements = .ok 1 ∧ ¬s.BuildsSucceeded := by
  obtain ⟨s, hs⟩ : ∃ s, (catching 100 100000).exec (fun _ _ => true) (catching 100 100000).init refusedByte =
    some s := ⟨_, rfl⟩
  have hv : s.builder.build = .ok ⟨[3, 1, 0, 0], [1, 0, 0], 0⟩ := by
    cases hs
    rfl
  have hsucceeded : s.succeeded = [.startArray, .endArray] := by
    cases hs
    rfl
  refine ⟨s, _, Lts.Run.of_exec hs, hsucceeded, hv, rfl, fun hbuilds => ?_⟩
  obtain ⟨t, -, -, n, hn⟩ := hbuilds _ hv
  have hread := hn (n + 2) (by omega)
  cases hread

end ConfluentKafka
