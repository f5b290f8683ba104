import ConfluentKafka.EState
import ConfluentKafka.VariantDecode

/-!
# The size limit of the Variant builder

A call that throws leaves the builder as it is then: a slot may be taken and a container closed
without a header. The calls are therefore modelled once more, with the state kept on a fault, and no
sequence of them, whichever of them throw, brings the bytes over the limit.
-/

namespace ConfluentKafka

open VariantFormat

/-! ## Parsed texts -/

/-- What `JSON.parse` returns. A number is an integer or the bits of a double that is none. -/
inductive ParsedJson where
  | null
  | boolean (b : Bool)
  | integer (i : Int)
  | double (bits : BitVec 64)
  | string (s : List Char)
  | array (elems : List ParsedJson)
  | object (entries : List (List Char × ParsedJson))

/-- The argument of a function that appends a value; an `invalid` one makes it throw before it writes. -/
inductive Scalar where
  | null
  | boolean (b : Bool)
  | fixedInt (typeCode : Nat) (value : Int) (width : Nat)
  | float (bits : BitVec 32)
  | double (bits : BitVec 64)
  | decimal (unscaled scale : Int)
  | string (s : List Char)
  | binary (data : Bytes)
  | uuid (uuid16 : Bytes)
  | invalid (message : String)

namespace VariantBuilder

def writeScalar (b : VariantBuilder) : Scalar → Except VariantFault VariantBuilder
  | .null => b.writeNull
  | .boolean x => b.writeBoolean x
  | .fixedInt typeCode value width => b.writeFixedInt typeCode value width
  | .float bits => do
    b.checkCapacity (1 + 4)
    b.push (primitiveHeader FLOAT :: bytesLE 4 bits.toNat)
  | .double bits => b.writeDouble bits
  | .decimal unscaled scale => b.writeDecimalUnscaled unscaled scale
  | .string s => b.writeString s
  | .binary data => do
    b.checkCapacity (1 + U32_SIZE + data.length)
    b.push (primitiveHeader BINARY :: (uintLE data.length U32_SIZE ++ data))
  | .uuid uuid16 => do
    if uuid16.length ≠ 16 then throw (.variantError "uuid must be 16 bytes")
    b.checkCapacity (1 + 16)
    b.push (primitiveHeader UUID :: uuid16)
  | .invalid message => .error (.variantError message)

/-- `none` for an integer of more than 64 bits, of which nothing is written. -/
def writeSmallestInt (b : VariantBuilder) (i : Int) : Except VariantFault (Option VariantBuilder) := do
  b.checkCapacity (1 + 8)
  if FitsBytes 1 i then return some (← b.push (primitiveHeader INT1 :: signedLE i 1))
  else if FitsBytes 2 i then return some (← b.push (primitiveHeader INT2 :: signedLE i 2))
  else if FitsBytes 4 i then return some (← b.push (primitiveHeader INT4 :: signedLE i 4))
  else if FitsBytes 8 i then return some (← b.push (primitiveHeader INT8 :: signedLE i 8))
  else return none

def writeInteger (b : VariantBuilder) (i : Int) : Except VariantFault VariantBuilder := do
  match ← b.writeSmallestInt i with
  | some b' => return b'
  | none => b.writeDecimalUnscaled i 0

/-! ## Calls that keep the state on a fault -/

namespace Stateful

variable (left : Bytes)

/-- A write throws before it changes anything, unless the array is full: `left` is what the array holds then. -/
def write (f : VariantBuilder → Except VariantFault VariantBuilder) : EStateM VariantFault VariantBuilder Unit :=
  fun b =>
  match f b with
  | .ok b' => .ok () b'
  | .error .arrayLength => .error .arrayLength { b with value := left.take MAX_ARRAY_LENGTH }
  | .error e => .error e b

def read {α : Type} (f : VariantBuilder → Except VariantFault α) : EStateM VariantFault VariantBuilder α := fun b =>
  match f b with
  | .ok a => .ok a b
  | .error e => .error e b

def append (x : Scalar) : EStateM VariantFault VariantBuilder Unit := do
  write left beforeAppend
  write left fun b => b.writeScalar x

def endObject : EStateM VariantFault VariantBuilder Unit := do
  let b ← get
  match b.stack with
  | .object _ _ (some _) :: _ => throw (.variantError "endObject with a dangling appendKey (no value)")
  | .object start fields none :: rest =>
    modify fun b => { b with stack := rest }
    write left fun b => b.finishWritingObject start fields
  | _ => throw (.variantError "endObject without a matching startObject")

def endArray : EStateM VariantFault VariantBuilder Unit := do
  let b ← get
  match b.stack with
  | .array start offsets :: rest =>
    modify fun b => { b with stack := rest }
    write left fun b => b.finishWritingArray start offsets
  | _ => throw (.variantError "endArray without a matching startArray")

mutual

def processParsedJson : ParsedJson → EStateM VariantFault VariantBuilder Unit
  | .null => write left writeNull
  | .array elems => do
    let b ← get
    let offsets ← processElems b.value.length elems
    write left fun b' => b'.finishWritingArray b.value.length offsets
  | .object entries => do
    let b ← get
    let fields ← processEntries b.value.length entries
    write left fun b' => b'.finishWritingObject b.value.length fields
  | .string s => write left fun b => b.writeString s
  | .boolean x => write left fun b => b.writeBoolean x
  | .integer i => write left fun b => b.writeInteger i
  | .double bits => write left fun b => b.writeDouble bits

def processElems (start : Nat) : List ParsedJson → EStateM VariantFault VariantBuilder (List Nat)
  | [] => pure []
  | elem :: elems => do
    let b ← get
    processParsedJson elem
    let offsets ← processElems start elems
    return (b.value.length - start) :: offsets

def processEntries (start : Nat) : List (List Char × ParsedJson) → EStateM VariantFault VariantBuilder
    (List FieldEntry)
  | [] => pure []
  | (key, val) :: entries => do
    let id ← modifyGet fun b => b.addKey key
    let b ← get
    processParsedJson val
    let fields ← processEntries start entries
    return ⟨key, id, b.value.length - start⟩ :: fields

end

/-- `parseJsonAllowingNonFinite` is a parameter. -/
def buildFromJson (parse : List Char → Except VariantFault ParsedJson) (jsonStr : List Char) :
    EStateM VariantFault VariantBuilder Variant := do
  let parsed ← read fun _ => parse jsonStr
  processParsedJson left parsed
  read fun b => do
    let (value, metadata) ← b.finalize
    Variant.new value metadata 0

end Stateful

inductive Call where
  | append (x : Scalar)
  | startObject
  | appendKey (key : List Char)
  | endObject
  | startArray
  | endArray
  | buildFromJson (jsonStr : List Char)

def perform (parse : List Char → Except VariantFault ParsedJson) (left : Bytes) :
    Call → EStateM VariantFault VariantBuilder Unit
  | .append x => Stateful.append left x
  | .startObject => Stateful.write left startObject
  | .appendKey key => Stateful.write left fun b => b.appendKey key
  | .endObject => Stateful.endObject left
  | .startArray => Stateful.write left startArray
  | .endArray => Stateful.endArray left
  | .buildFromJson jsonStr => do
    let _ ← Stateful.buildFromJson left parse jsonStr

def after (parse : List Char → Except VariantFault ParsedJson) (b : VariantBuilder) (c : Call × Bytes) :
    VariantBuilder :=
  match perform parse c.2 c.1 b with
  | .ok _ b' => b'
  | .error _ b' => b'

/-! ## Calls that succeed

They are the calls of the model that forgets the builder on a fault.
-/

def appendScalar (b : VariantBuilder) : Scalar → Except VariantFault VariantBuilder
  | .null => b.appendNull
  | .boolean x => b.appendBoolean x
  | .fixedInt typeCode value width => b.appendFixedInt typeCode value width
  | .float bits => b.appendFloat bits
  | .double bits => b.appendDouble bits
  | .decimal unscaled scale => b.appendDecimal unscaled scale
  | .string s => b.appendString s
  | .binary data => b.appendBinary data
  | .uuid uuid16 => b.appendUuid uuid16
  | .invalid message => do
    let _ ← b.beforeAppend
    throw (.variantError message)

theorem write_eq_ok_iff (left : Bytes) (f : VariantBuilder → Except VariantFault VariantBuilder)
    (b b' : VariantBuilder) :
    Stateful.write left f b = .ok () b' ↔ f b = .ok b' := by
  unfold Stateful.write
  cases f b with
  | ok b'' =>
    constructor
    · intro h
      cases h
      rfl
    · intro h
      cases h
      rfl
  | error e =>
    constructor
    · intro h
      split at h
      · next heq => cases heq
      · cases h
      · cases h
    · intro h
      cases h

theorem append_eq_ok_iff (left : Bytes) (x : Scalar) (b b' : VariantBuilder) :
    Stateful.append left x b = .ok () b' ↔ b.appendScalar x = .ok b' := by
  have heq : b.appendScalar x = b.beforeAppend >>= fun b₁ => b₁.writeScalar x := by
    cases x with
    | _ => rfl
  unfold Stateful.append
  rw [bind_eq_ok_iff, heq]
  cases h : b.beforeAppend with
  | ok b₁ =>
    constructor
    · rintro ⟨_, b₂, hb₂, hw⟩
      obtain rfl := Except.ok.inj (h.symm.trans ((write_eq_ok_iff left _ b b₂).mp hb₂))
      exact (write_eq_ok_iff left _ b₁ b').mp hw
    · exact fun hw => ⟨(), b₁, (write_eq_ok_iff left _ b b₁).mpr h, (write_eq_ok_iff left _ b₁ b').mpr hw⟩
  | error e =>
    constructor
    · rintro ⟨_, b₂, hb₂, _⟩
      have := h.symm.trans ((write_eq_ok_iff left _ b b₂).mp hb₂)
      cases this
    · intro hw
      cases hw

theorem endObject_eq_ok_iff (left : Bytes) (b b' : VariantBuilder) :
    Stateful.endObject left b = .ok () b' ↔ b.endObject = .ok b' := by
  unfold Stateful.endObject endObject
  rw [get_bind]
  cases b.stack with
  | nil => exact iff_of_false nofun nofun
  | cons ctx rest =>
    cases ctx with
    | array start offsets => exact iff_of_false nofun nofun
    | object start fields pendingKey =>
      cases pendingKey with
      | some key => exact iff_of_false nofun nofun
      | none => exact write_eq_ok_iff left (fun b => b.finishWritingObject start fields) { b with stack := rest } b'

theorem endArray_eq_ok_iff (left : Bytes) (b b' : VariantBuilder) :
    Stateful.endArray left b = .ok () b' ↔ b.endArray = .ok b' := by
  unfold Stateful.endArray endArray
  rw [get_bind]
  cases b.stack with
  | nil => exact iff_of_false nofun nofun
  | cons ctx rest =>
    cases ctx with
    | array start offsets =>
      exact write_eq_ok_iff left (fun b => b.finishWritingArray start offsets) { b with stack := rest } b'
    | object start fields pendingKey => exact iff_of_false nofun nofun

/-! ## The limit -/

/-- A write within the limit of the builder: it keeps the limit, and the array is full only below it. -/
def Within (b : VariantBuilder) : Except VariantFault VariantBuilder → Prop
  | .ok b' => b'.sizeLimit = b.sizeLimit ∧ (b.value.length ≤ b.sizeLimit → b'.value.length ≤ b.sizeLimit)
  | .error .arrayLength => MAX_ARRAY_LENGTH < b.sizeLimit
  | .error _ => True

section

variable (b : VariantBuilder)

theorem checkCapacity_eq_error {b : VariantBuilder} {n : Nat} {e : VariantFault}
    (h : b.checkCapacity n = .error e) :
    e = sizeLimitExceeded := by
  unfold checkCapacity at h
  split_ifs at h
  exact (Except.error.inj h).symm

theorem within_write {n : Nat} {bs : Bytes} (hn : bs.length ≤ n) : Within b (do b.checkCapacity n; b.push bs) := by
  unfold checkCapacity push
  by_cases hc : b.sizeLimit < b.value.length + n
  · rw [if_pos hc]
    trivial
  · rw [if_neg hc]
    show Within b (if MAX_ARRAY_LENGTH < b.value.length + bs.length then _ else _)
    split
    · next hfull =>
      show MAX_ARRAY_LENGTH < b.sizeLimit
      omega
    · refine ⟨rfl, fun _ => ?_⟩
      show (b.value ++ bs).length ≤ b.sizeLimit
      rw [List.length_append]
      omega

theorem within_splice (start : Nat) (header : Bytes) : Within b (b.splice start header) := by
  unfold splice checkCapacity
  by_cases hc : b.sizeLimit < b.value.length + header.length
  · rw [if_pos hc]
    trivial
  rw [if_neg hc]
  show Within b (if b.maxArguments < 2 + header.length then _ else _)
  split
  · trivial
  split
  · next hfull =>
    show MAX_ARRAY_LENGTH < b.sizeLimit
    omega
  · refine ⟨rfl, fun _ => ?_⟩
    show (b.value.take start ++ (header ++ b.value.drop start)).length ≤ b.sizeLimit
    rw [List.length_append, List.length_append, List.length_take, List.length_drop]
    omega

theorem within_beforeAppend : Within b b.beforeAppend := by
  unfold beforeAppend
  split
  · split
    · trivial
    · exact ⟨rfl, id⟩
  · trivial
  · exact ⟨rfl, id⟩
  · exact ⟨rfl, id⟩

theorem within_writeFixedInt (typeCode : Nat) (value : Int) (width : Nat) :
    Within b (b.writeFixedInt typeCode value width) := by
  unfold writeFixedInt
  split
  · trivial
  · refine within_write b ?_
    rw [List.length_cons, signedLE, length_bytesLE]
    omega

theorem within_writeString (s : List Char) : Within b (b.writeString s) := by
  simp only [writeString]
  split
  · refine within_write b ?_
    rw [List.length_cons, List.length_append, length_uintLE]
    omega
  · refine within_write b ?_
    rw [List.length_cons]
    omega

theorem width_le_of_decimalCode {scale : Int} {digits code width : Nat}
    (h : decimalCode scale digits = .ok (code, width)) :
    width ≤ 16 := by
  unfold decimalCode at h
  split_ifs at h
  · cases h
    decide
  · cases h
    decide
  · cases h
    decide

theorem decimalCode_eq_error {scale : Int} {digits : Nat} {e : VariantFault}
    (h : decimalCode scale digits = .error e) :
    e = .variantError "decimal exceeds maximum precision (38)" := by
  unfold decimalCode at h
  split_ifs at h
  exact (Except.error.inj h).symm

theorem within_writeDecimalUnscaled (unscaled scale : Int) : Within b (b.writeDecimalUnscaled unscaled scale) := by
  unfold writeDecimalUnscaled
  split
  · trivial
  · cases hcode : decimalCode scale (decimalDigits unscaled).length with
    | error e =>
      obtain rfl := decimalCode_eq_error hcode
      unfold checkCapacity
      split
      · trivial
      · trivial
    | ok p =>
      refine within_write b ?_
      rw [List.length_cons, List.length_cons, signedLE, length_bytesLE]
      have := width_le_of_decimalCode hcode
      omega

theorem within_writeScalar (x : Scalar) : Within b (b.writeScalar x) := by
  cases x with
  | null => exact within_write b (Nat.le_refl 1)
  | boolean x => exact within_write b (Nat.le_refl 1)
  | fixedInt typeCode value width => exact b.within_writeFixedInt typeCode value width
  | float bits => exact within_write b (by rw [List.length_cons, length_bytesLE])
  | double bits => exact within_write b (by rw [List.length_cons, length_bytesLE])
  | decimal unscaled scale => exact b.within_writeDecimalUnscaled unscaled scale
  | string s => exact b.within_writeString s
  | binary data =>
    refine within_write b ?_
    rw [List.length_cons, List.length_append, length_uintLE]
    omega
  | uuid uuid16 =>
    by_cases hlen : uuid16.length ≠ 16
    · simp only [writeScalar, if_pos hlen]
      trivial
    · simp only [writeScalar, if_neg hlen]
      refine within_write b ?_
      rw [List.length_cons]
      omega
  | invalid message => trivial

theorem within_writeInteger (i : Int) : Within b (b.writeInteger i) := by
  have hsmall : ∀ typeCode width, width ≤ 8 →
      Within b (do b.checkCapacity (1 + 8); b.push (primitiveHeader typeCode :: signedLE i width)) := by
    intro typeCode width hw
    refine within_write b ?_
    rw [List.length_cons, signedLE, length_bytesLE]
    omega
  have hpush : ∀ (x : Except VariantFault VariantBuilder) (y : Except VariantFault VariantBuilder), Within b x →
      Within b (do
        match ← (do return some (← x)) with
        | some b' => return b'
        | none => y) := by
    intro x y hx
    cases x with
    | error e => exact hx
    | ok b' => exact hx
  unfold writeInteger writeSmallestInt
  cases hc : b.checkCapacity (1 + 8) with
  | error e =>
    obtain rfl := checkCapacity_eq_error hc
    trivial
  | ok _ =>
    simp only [hc] at hsmall
    split_ifs
    · exact hpush _ _ (hsmall _ _ (by decide))
    · exact hpush _ _ (hsmall _ _ (by decide))
    · exact hpush _ _ (hsmall _ _ (by decide))
    · exact hpush _ _ (hsmall _ _ (by decide))
    · exact b.within_writeDecimalUnscaled i 0

theorem within_opened (ctx : VariantBuilder → Context) :
    Within b (do let b ← b.beforeAppend; return { b with stack := ctx b :: b.stack }) := by
  have hslot := b.within_beforeAppend
  cases h : b.beforeAppend with
  | error e =>
    rw [h] at hslot
    exact hslot
  | ok b' =>
    rw [h] at hslot
    exact hslot

theorem within_startObject : Within b b.startObject := b.within_opened fun b => .object b.value.length [] none

theorem within_startArray : Within b b.startArray := b.within_opened fun b => .array b.value.length []

theorem addKey_eq (key : List Char) : ∃ id dictionary dictionaryKeys,
    b.addKey key = (id, { b with dictionary, dictionaryKeys }) := by
  unfold addKey
  split
  · exact ⟨_, _, _, rfl⟩
  · exact ⟨_, _, _, rfl⟩

theorem within_appendKey (key : List Char) : Within b (b.appendKey key) := by
  unfold appendKey
  split
  · trivial
  · obtain ⟨id, dictionary, dictionaryKeys, he⟩ := b.addKey_eq key
    rw [he]
    exact ⟨rfl, fun hle => hle⟩
  · trivial

end

/-! ## Every call keeps to the limit -/

def Fits (L : Nat) (b : VariantBuilder) : Prop := b.sizeLimit = L ∧ b.value.length ≤ L

section

variable {L : Nat} (left : Bytes)

theorem keeps_write {f : VariantBuilder → Except VariantFault VariantBuilder} (hf : ∀ b, Within b (f b)) :
    Keeps (Fits L) (Stateful.write left f) := by
  intro b hb
  obtain ⟨rfl, hb⟩ := hb
  have hfb := hf b
  unfold Stateful.write
  cases h : f b with
  | ok b' =>
    rw [h] at hfb
    exact ⟨hfb.1, hfb.2 hb⟩
  | error e =>
    rw [h] at hfb
    cases e with
    | arrayLength =>
      refine ⟨rfl, ?_⟩
      show (left.take MAX_ARRAY_LENGTH).length ≤ b.sizeLimit
      have hfull : MAX_ARRAY_LENGTH < b.sizeLimit := hfb
      rw [List.length_take]
      omega
    | variantError message => exact ⟨rfl, hb⟩
    | stringLength => exact ⟨rfl, hb⟩
    | outside => exact ⟨rfl, hb⟩
    | arguments => exact ⟨rfl, hb⟩

theorem keeps_read {α : Type} (f : VariantBuilder → Except VariantFault α) : Keeps (Fits L) (Stateful.read f) := by
  intro b hb
  unfold Stateful.read
  cases f b with
  | ok a => exact hb
  | error e => exact hb

theorem keeps_append (x : Scalar) : Keeps (Fits L) (Stateful.append left x) :=
  (keeps_write left within_beforeAppend).bind fun _ => keeps_write left fun b => b.within_writeScalar x

theorem keeps_finishWritingObject (start : Nat) (fields : List FieldEntry) :
    Keeps (Fits L) (Stateful.write left fun b => b.finishWritingObject start fields) :=
  keeps_write left fun b => b.within_splice start _

theorem keeps_finishWritingArray (start : Nat) (offsets : List Nat) :
    Keeps (Fits L) (Stateful.write left fun b => b.finishWritingArray start offsets) :=
  keeps_write left fun b => b.within_splice start _

theorem keeps_pop (rest : List Context) :
    Keeps (Fits L) (modify fun b => { b with stack := rest } : EStateM VariantFault VariantBuilder Unit) :=
  fun _ hb => hb

theorem keeps_endObject : Keeps (Fits L) (Stateful.endObject left) := by
  refine Keeps.get.bind fun b => ?_
  split
  · exact .throw _
  · exact (keeps_pop _).bind fun _ => keeps_finishWritingObject left _ _
  · exact .throw _

theorem keeps_endArray : Keeps (Fits L) (Stateful.endArray left) := by
  refine Keeps.get.bind fun b => ?_
  split
  · exact (keeps_pop _).bind fun _ => keeps_finishWritingArray left _ _
  · exact .throw _

mutual

theorem keeps_processParsedJson : ∀ parsed : ParsedJson, Keeps (Fits L) (Stateful.processParsedJson left parsed)
  | .null => keeps_write left fun b => within_write b (Nat.le_refl 1)
  | .array elems => Keeps.get.bind fun _ => (keeps_processElems _ elems).bind fun _ =>
    keeps_finishWritingArray left _ _
  | .object entries => Keeps.get.bind fun _ => (keeps_processEntries _ entries).bind fun _ =>
    keeps_finishWritingObject left _ _
  | .string s => keeps_write left fun b => b.within_writeString s
  | .boolean _ => keeps_write left fun b => within_write b (Nat.le_refl 1)
  | .integer i => keeps_write left fun b => b.within_writeInteger i
  | .double bits => keeps_write left fun b => within_write b (by rw [List.length_cons, length_bytesLE])

theorem keeps_processElems (start : Nat) : ∀ elems : List ParsedJson,
    Keeps (Fits L) (Stateful.processElems left start elems)
  | [] => Keeps.pure []
  | elem :: elems => Keeps.get.bind fun _ => (keeps_processParsedJson elem).bind fun _ =>
    (keeps_processElems start elems).bind fun _ => Keeps.pure _

theorem keeps_processEntries (start : Nat) : ∀ entries : List (List Char × ParsedJson),
    Keeps (Fits L) (Stateful.processEntries left start entries)
  | [] => Keeps.pure []
  | (key, val) :: entries => by
    have hkey : Keeps (Fits L) (modifyGet fun b => b.addKey key : EStateM VariantFault VariantBuilder Nat) := by
      intro b hb
      obtain ⟨id, dictionary, dictionaryKeys, he⟩ := b.addKey_eq key
      show Fits L (b.addKey key).2
      rw [he]
      exact hb
    exact hkey.bind fun _ => Keeps.get.bind fun _ => (keeps_processParsedJson val).bind fun _ =>
      (keeps_processEntries start entries).bind fun _ => Keeps.pure _

end

variable (parse : List Char → Except VariantFault ParsedJson)

theorem keeps_buildFromJson (jsonStr : List Char) : Keeps (Fits L) (Stateful.buildFromJson left parse jsonStr) :=
  (keeps_read _).bind fun parsed => (keeps_processParsedJson left parsed).bind fun _ => keeps_read _

theorem keeps_perform (c : Call) : Keeps (Fits L) (perform parse left c) := by
  cases c with
  | append x => exact keeps_append left x
  | startObject => exact keeps_write left within_startObject
  | appendKey key => exact keeps_write left fun b => b.within_appendKey key
  | endObject => exact keeps_endObject left
  | startArray => exact keeps_write left within_startArray
  | endArray => exact keeps_endArray left
  | buildFromJson jsonStr => exact (keeps_buildFromJson left parse jsonStr).bind fun _ => .pure _

end

section

variable (parse : List Char → Except VariantFault ParsedJson) {L : Nat}

theorem Fits.after {b : VariantBuilder} (hb : Fits L b) (c : Call × Bytes) : Fits L (b.after parse c) := by
  have hkeeps := keeps_perform c.2 parse c.1 b hb
  unfold VariantBuilder.after
  cases h : perform parse c.2 c.1 b with
  | ok _ b' =>
    rw [h] at hkeeps
    exact hkeeps
  | error _ b' =>
    rw [h] at hkeeps
    exact hkeeps

theorem Fits.foldl {b : VariantBuilder} (hb : Fits L b) (cs : List (Call × Bytes)) :
    Fits L (cs.foldl (VariantBuilder.after parse) b) := by
  induction cs generalizing b with
  | nil => exact hb
  | cons c cs ih => exact ih (hb.after parse c)

/-- The metadata is sized before it is written. -/
theorem finalize_eq_ok {b : VariantBuilder} {p : Bytes × Bytes} (h : b.finalize = .ok p) :
    p.1 = b.value ∧ p.2.length ≤ b.sizeLimit := by
  unfold VariantBuilder.finalize at h
  dsimp only at h
  split at h
  · cases h
  · split at h
    · cases h
    · next hsize =>
      split at h
      · cases h
      · cases h
        refine ⟨rfl, ?_⟩
        have hflat : b.dictionaryKeys.flatten.length = totalLength b.dictionaryKeys := List.length_flatten
        show (metadataBytes b.dictionaryKeys).length ≤ b.sizeLimit
        rw [length_metadataBytes, hflat, Nat.succ_mul]
        omega

theorem Fits.finalize {b : VariantBuilder} (hb : Fits L b) {v : Variant}
    (h : (do let (value, metadata) ← b.finalize; Variant.new value metadata 0) = .ok v) :
    v.value.length ≤ L ∧ v.metadata.length ≤ L := by
  obtain ⟨rfl, hb⟩ := hb
  cases hf : b.finalize with
  | error e =>
    rw [hf] at h
    cases h
  | ok p =>
    rw [hf] at h
    obtain rfl := Variant.new_eq_ok h
    obtain ⟨hvalue, hmetadata⟩ := finalize_eq_ok hf
    refine ⟨?_, hmetadata⟩
    rw [hvalue]
    exact hb

theorem read_eq_ok {α : Type} {f : VariantBuilder → Except VariantFault α} {b b' : VariantBuilder} {a : α}
    (h : Stateful.read f b = .ok a b') : f b = .ok a ∧ b = b' := by
  unfold Stateful.read at h
  split at h
  · next heq =>
    cases h
    exact ⟨heq, rfl⟩
  · cases h

/-- Whatever is called, and whichever calls throw, the bytes stay within the limit, and so does what is built. -/
theorem size_limit (L maxArguments : Nat) (cs : List (Call × Bytes)) :
    let b := cs.foldl (VariantBuilder.after parse) (new L maxArguments)
    b.value.length ≤ L ∧ (∀ v, b.build = .ok v → v.value.length ≤ L ∧ v.metadata.length ≤ L) ∧
      ∀ left jsonStr v b', Stateful.buildFromJson left parse jsonStr b = .ok v b' →
        v.value.length ≤ L ∧ v.metadata.length ≤ L ∧ b'.value.length ≤ L := by
  intro b
  have hnew : Fits L (new L maxArguments) := ⟨rfl, Nat.zero_le L⟩
  have hb : Fits L b := hnew.foldl parse cs
  refine ⟨hb.2, ?_, ?_⟩
  · intro v hv
    unfold build at hv
    by_cases hstack : b.stack ≠ []
    · rw [if_pos hstack] at hv
      cases hv
    · rw [if_neg hstack] at hv
      by_cases hroot : ¬b.rootWritten
      · rw [if_pos hroot] at hv
        cases hv
      · rw [if_neg hroot] at hv
        exact hb.finalize hv
  · intro left jsonStr v b' hv
    have hkeeps := keeps_buildFromJson left parse jsonStr b hb
    rw [hv] at hkeeps
    obtain ⟨_, b₁, _, h₁⟩ := (bind_eq_ok_iff _ _ _ _ _).mp hv
    obtain ⟨_, b₂, _, h₂⟩ := (bind_eq_ok_iff _ _ _ _ _).mp h₁
    obtain ⟨hbuilt, rfl⟩ := read_eq_ok h₂
    obtain ⟨hvalue, hmetadata⟩ := Fits.finalize hkeeps hbuilt
    exact ⟨hvalue, hmetadata, hkeeps.2⟩

end

end VariantBuilder

end ConfluentKafka
