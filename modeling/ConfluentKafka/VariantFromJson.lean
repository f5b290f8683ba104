import ConfluentKafka.JsEncode
import ConfluentKafka.NonFiniteLoop
import ConfluentKafka.VariantPlaces

/-!
# Variants from JSON texts

`buildFromJson`, and the calls that append a tree of JSON one value after the other. Both write the
encoding of the tree whose objects have their fields in the order in which they are visited, and the
driver of the texts visits them in the order of `Object.entries`.
-/

namespace ConfluentKafka

open Json JsonTree VariantFormat VariantBuilder

/-! ## The driver -/

inductive BuildFault where
  | syntaxError
  | variant (e : VariantFault)
  deriving DecidableEq

namespace JsBuilder

def writeNumber (x : Double) (b : VariantBuilder) : Except VariantFault VariantBuilder :=
  match x.integer? with
  | some i => b.writeInteger i
  | none => b.writeDouble x.bits

mutual

/-- The fields of an object are in the order of `Object.entries`. -/
def processParsedJson : JsonValue → JsBuilder → Except VariantFault JsBuilder
  | .null, b => b.lift writeNull
  | .boolean x, b => b.lift fun base => base.writeBoolean x
  | .number x, b => b.lift (writeNumber x)
  | .string s, b => b.lift fun base => base.writeString (Utf16.scalars s)
  | .array elements, b => do
    let r ← processElements b.base.value.length elements b
    r.1.lift fun base => base.finishWritingArray b.base.value.length r.2
  | .object fields, b => do
    let r ← processFields b.base.value.length fields b
    r.1.lift fun base => base.finishWritingObject b.base.value.length r.2

def processElements (start : Nat) : List JsonValue → JsBuilder → Except VariantFault (JsBuilder × List Nat)
  | [], b => .ok (b, [])
  | t :: ts, b => do
    let b₁ ← processParsedJson t b
    let r ← processElements start ts b₁
    return (r.1, (b.base.value.length - start) :: r.2)

def processFields (start : Nat) : List (JsString × JsonValue) → JsBuilder → Except VariantFault
    (JsBuilder × List FieldEntry)
  | [], b => .ok (b, [])
  | (key, t) :: fs, b => do
    let r₁ := b.addKey key
    let b₂ ← processParsedJson t r₁.2
    let r ← processFields start fs b₂
    return (r.1, ⟨Utf16.scalars key, r₁.1, b.base.value.length - start⟩ :: r.2)

end

/-- `none` where the fuel does not suffice. -/
def buildFromJson (b : JsBuilder) (jsonStr : JsString) (fuel : Nat) : Option (Except BuildFault Variant) :=
  (parseJsonAllowingNonFinite jsonStr fuel).map fun parsed =>
    match parsed with
    | none => .error .syntaxError
    | some value =>
      Except.mapError .variant do
        let b' ← processParsedJson value b
        let r ← b'.base.finalize
        Variant.new r.1 r.2 0

end JsBuilder

/-! ## The tree that is appended -/

def integerPrimitive (i : Int) : Primitive :=
  if FitsBytes 1 i then .byte i
  else if FitsBytes 2 i then .short i
  else if FitsBytes 4 i then .int i
  else if FitsBytes 8 i then .long i
  else .decimal i 0

def numberPrimitive (x : Double) : Primitive :=
  match x.integer? with
  | some i => integerPrimitive i
  | none => .double x.bits

mutual

def JsonTree.appended : JsonValue → JsTree
  | .null => .primitive .null
  | .boolean x => .primitive (.boolean x)
  | .number x => .primitive (numberPrimitive x)
  | .string s => .primitive (.string (Utf16.scalars s))
  | .array elements => .array (appendedElements elements)
  | .object fields => .object (appendedFields fields)

def JsonTree.appendedElements : List JsonValue → List JsTree
  | [] => []
  | t :: ts => t.appended :: appendedElements ts

def JsonTree.appendedFields : List (JsString × JsonValue) → List (JsString × JsTree)
  | [] => []
  | (key, t) :: fs => (key, t.appended) :: appendedFields fs

end

theorem appendedElements_eq (ts : List JsonValue) : appendedElements ts = ts.map appended := by
  induction ts with
  | nil => rfl
  | cons t ts ih => rw [appendedElements, ih, List.map_cons]

theorem appendedFields_eq (fs : List (JsString × JsonValue)) : appendedFields fs = fs.map (onValue appended) := by
  induction fs with
  | nil => rfl
  | cons p fs ih =>
    rw [appendedFields, ih, List.map_cons]
    rfl

/-! ## What the driver writes -/

namespace JsBuilder

theorem limited_writeInteger (b : VariantBuilder) {i : Int} (h : (integerPrimitive i).WellFormed) :
    Limited False (b.Wrote (integerPrimitive i).encode) (b.writeInteger i) := by
  have hsome : ∀ (bs : Bytes) (k : Option VariantBuilder → Except VariantFault VariantBuilder),
    (∀ b', k (some b') = .ok b') →
      Limited False (b.Wrote bs) ((b.push bs >>= fun b' => pure (some b')) >>= k) := by
    intro bs k hk
    rw [bind_assoc]
    refine (b.limited_push bs).bind fun b' hb' => ?_
    rw [pure_bind, hk]
    exact hb'
  rw [VariantBuilder.writeInteger, VariantBuilder.writeSmallestInt, bind_assoc]
  refine (b.limited_checkCapacity _).bind fun _ _ => ?_
  unfold integerPrimitive at h ⊢
  by_cases h₁ : FitsBytes 1 i
  · rw [if_pos h₁, if_pos h₁]
    exact hsome _ _ fun _ => rfl
  rw [if_neg h₁] at h ⊢
  rw [if_neg h₁]
  by_cases h₂ : FitsBytes 2 i
  · rw [if_pos h₂, if_pos h₂]
    exact hsome _ _ fun _ => rfl
  rw [if_neg h₂] at h ⊢
  rw [if_neg h₂]
  by_cases h₄ : FitsBytes 4 i
  · rw [if_pos h₄, if_pos h₄]
    exact hsome _ _ fun _ => rfl
  rw [if_neg h₄] at h ⊢
  rw [if_neg h₄]
  by_cases h₈ : FitsBytes 8 i
  · rw [if_pos h₈, if_pos h₈]
    exact hsome _ _ fun _ => rfl
  rw [if_neg h₈] at h ⊢
  rw [if_neg h₈]
  exact b.limited_writeDecimalUnscaled h.1 h.2

theorem limited_writeNumber (b : VariantBuilder) {x : Double} (h : (numberPrimitive x).WellFormed) :
    Limited False (b.Wrote (numberPrimitive x).encode) (writeNumber x b) := by
  unfold numberPrimitive at h ⊢
  unfold writeNumber
  cases hx : x.integer? with
  | some i =>
    rw [hx] at h
    exact limited_writeInteger b h
  | none => exact b.limited_write _ _

theorem appended_of_lift {b : JsBuilder} {keys : List JsString} (hk : b.HasKeys keys) {bs : Bytes}
    {f : VariantBuilder → Except VariantFault VariantBuilder} (hf : Limited False (b.base.Wrote bs) (f b.base)) :
    Limited False (Appended b.base bs keys) (b.lift f) := by
  refine limited_lift hf fun base h => ?_
  have heq := h.eq
  exact ⟨by rw [heq], by rw [heq], by rw [heq], hk.withBase (by rw [heq]), h.length_le⟩

theorem addKey_frame (b : JsBuilder) (key : JsString) : (b.addKey key).2.base.value = b.base.value ∧
    (b.addKey key).2.base.stack = b.base.stack ∧ (b.addKey key).2.base.rootWritten = b.base.rootWritten := by
  unfold addKey
  split <;> exact ⟨rfl, rfl, rfl⟩

theorem limited_finishWritingArray {b : VariantBuilder} {front : Bytes} {parts : List Bytes}
    (hv : b.value = front ++ parts.flatten) :
    Limited False (fun b' => b' = { b with value := front ++ arrayBytes parts } ∧
      b'.value.length ≤ MAX_ARRAY_LENGTH)
      (b.finishWritingArray front.length (runningOffsets 0 parts)) :=
  ((limited_endArray (b := { b with stack := .array front.length (runningOffsets 0 parts) :: b.stack }) hv
    rfl).among
    False.elim).mono fun _ h => ⟨h.1, h.2.1⟩

theorem limited_finishWritingObject {b : VariantBuilder} {front : Bytes} {parts : List (JsString × Bytes)}
    {keys : List JsString} {ids : JsString → Nat} (hk : b.dictionaryKeys = jsKeyBytes keys)
    (hids : ∀ p ∈ parts, p.1 ∈ keys ∧ ids p.1 = keys.idxOf p.1) (hv : b.value = front ++ jsFieldData parts) :
    Limited False (fun b' => b' = { b with value := front ++ jsObjectBytes ids parts } ∧
      b'.value.length ≤ MAX_ARRAY_LENGTH)
      (b.finishWritingObject front.length (jsFieldEntries ids 0 parts)) :=
  limited_endObject (b := { b with stack := .object front.length (jsFieldEntries ids 0 parts) none :: b.stack })
    hk hids hv rfl

structure Driven {α : Type} (b : JsBuilder) (data : Bytes) (keys : List JsString) (entries : List α)
    (r : JsBuilder × List α) :
    Prop where
  value : r.1.base.value = b.base.value ++ data
  stack : r.1.base.stack = b.base.stack
  rootWritten : r.1.base.rootWritten = b.base.rootWritten
  keys : r.1.HasKeys keys
  entries : r.2 = entries

mutual

theorem limited_processParsedJson (keys' : List JsString) :
    ∀ (t : JsonValue) {b : JsBuilder} {keys : List JsString}, t.appended.WellFormed → b.HasKeys keys →
      t.appended.keys keys <+: keys' →
      Limited False (Appended b.base (t.appended.encode fun key => keys'.idxOf key) (t.appended.keys keys))
        (processParsedJson t b)
  | .null, b, keys, _, hk, _ => by
    rw [appended, JsTree.encode, JsTree.keys, processParsedJson]
    exact appended_of_lift hk (b.base.limited_write _ _)
  | .boolean x, b, keys, _, hk, _ => by
    rw [appended, JsTree.encode, JsTree.keys, processParsedJson]
    exact appended_of_lift hk (b.base.limited_write _ _)
  | .number x, b, keys, hwf, hk, _ => by
    rw [appended, JsTree.WellFormed] at hwf
    rw [appended, JsTree.encode, JsTree.keys, processParsedJson]
    exact appended_of_lift hk (limited_writeNumber b.base hwf)
  | .string s, b, keys, _, hk, _ => by
    rw [appended, JsTree.encode, JsTree.keys, processParsedJson]
    exact appended_of_lift hk (b.base.limited_writeString _)
  | .array ts, b, keys, hwf, hk, hpre => by
    rw [appended, JsTree.WellFormed] at hwf
    rw [appended, JsTree.keys] at hpre
    rw [appended, JsTree.encode, JsTree.keys, processParsedJson]
    have hdriven := limited_processElements keys' ts _ hwf hk (Nat.le_refl b.base.value.length) hpre
    refine hdriven.bind fun r hr => ?_
    rw [hr.entries, Nat.sub_self]
    refine limited_lift (limited_finishWritingArray hr.value) ?_
    rintro base ⟨rfl, hlen⟩
    exact ⟨rfl, hr.stack, hr.rootWritten, hr.keys.withBase rfl, hlen⟩
  | .object fs, b, keys, hwf, hk, hpre => by
    rw [appended, JsTree.WellFormed] at hwf
    rw [appended, JsTree.keys] at hpre
    rw [appended, JsTree.encode, JsTree.keys, processParsedJson]
    have hdriven := limited_processFields keys' fs _ hwf hk (Nat.le_refl b.base.value.length) hpre
    refine hdriven.bind fun r hr => ?_
    rw [hr.entries, Nat.sub_self]
    have hids : ∀ p ∈ jsEncodeFields (fun key => keys'.idxOf key) (appendedFields fs),
        p.1 ∈ jsFieldKeys (appendedFields fs) keys ∧ keys'.idxOf p.1 =
          (jsFieldKeys (appendedFields fs) keys).idxOf p.1 := by
      intro p hp
      have hmem : p.1 ∈ (appendedFields fs).map Prod.fst := by
        rw [← map_fst_jsEncodeFields fun key => keys'.idxOf key]
        exact List.mem_map_of_mem hp
      have hkey := mem_jsFieldKeys (appendedFields fs) keys p.1 hmem
      exact ⟨hkey, js_idxOf_of_prefix hpre hkey⟩
    refine limited_lift (limited_finishWritingObject hr.keys.dictionaryKeys hids hr.value) ?_
    rintro base ⟨rfl, hlen⟩
    exact ⟨rfl, hr.stack, hr.rootWritten, hr.keys.withBase rfl, hlen⟩

theorem limited_processElements (keys' : List JsString) :
    ∀ (ts : List JsonValue) {b : JsBuilder} (start : Nat) {keys : List JsString}, jsElementsWellFormed
      (appendedElements ts) →
      b.HasKeys keys → start ≤ b.base.value.length → jsElementKeys (appendedElements ts) keys <+: keys' →
      Limited False (b.Driven (jsEncodeElements (fun key => keys'.idxOf key) (appendedElements ts)).flatten
        (jsElementKeys (appendedElements ts) keys)
        (runningOffsets (b.base.value.length - start) (jsEncodeElements (fun key => keys'.idxOf key)
          (appendedElements ts))))
        (processElements start ts b)
  | [], b, start, keys, _, hk, _, _ => by
    rw [appendedElements, jsEncodeElements, jsElementKeys, runningOffsets, processElements]
    exact ⟨by simp, rfl, rfl, hk, rfl⟩
  | t :: ts, b, start, keys, hwf, hk, hle, hpre => by
    rw [appendedElements, jsElementsWellFormed] at hwf
    rw [appendedElements, jsElementKeys] at hpre
    rw [appendedElements, jsEncodeElements, jsElementKeys, runningOffsets, processElements]
    have hpre' := (prefix_jsElementKeys (appendedElements ts) (t.appended.keys keys)).trans hpre
    refine (limited_processParsedJson keys' t hwf.1 hk hpre').bind fun b₁ h₁ => ?_
    have hlen : b₁.base.value.length = b.base.value.length + (t.appended.encode fun key =>
      keys'.idxOf key).length := by
      rw [h₁.value, List.length_append]
    refine (limited_processElements keys' ts start hwf.2 h₁.keys (by omega) hpre).bind fun r hr => ?_
    have hoff : b₁.base.value.length - start =
        b.base.value.length - start + (t.appended.encode fun key => keys'.idxOf key).length := by omega
    refine ⟨?_, hr.stack.trans h₁.stack, hr.rootWritten.trans h₁.rootWritten, hr.keys, ?_⟩
    · rw [hr.value, h₁.value, List.flatten_cons, List.append_assoc]
    · rw [hr.entries, hoff]

theorem limited_processFields (keys' : List JsString) :
    ∀ (fs : List (JsString × JsonValue)) {b : JsBuilder} (start : Nat) {keys : List JsString},
      jsFieldsWellFormed (appendedFields fs) → b.HasKeys keys → start ≤ b.base.value.length →
      jsFieldKeys (appendedFields fs) keys <+: keys' →
      Limited False (b.Driven (jsFieldData (jsEncodeFields (fun key => keys'.idxOf key) (appendedFields fs)))
        (jsFieldKeys (appendedFields fs) keys)
        (jsFieldEntries (fun key => keys'.idxOf key) (b.base.value.length - start)
          (jsEncodeFields (fun key => keys'.idxOf key) (appendedFields fs))))
        (processFields start fs b)
  | [], b, start, keys, _, hk, _, _ => by
    rw [appendedFields, jsEncodeFields, jsFieldKeys, jsFieldEntries, processFields]
    exact ⟨by simp [jsFieldData], rfl, rfl, hk, rfl⟩
  | (key, t) :: fs, b, start, keys, hwf, hk, hle, hpre => by
    rw [appendedFields, jsFieldsWellFormed] at hwf
    rw [appendedFields, jsFieldKeys] at hpre
    rw [appendedFields, jsEncodeFields, jsFieldKeys, jsFieldEntries, processFields]
    have hpre₂ := (prefix_jsFieldKeys (appendedFields fs) _).trans hpre
    have hpre₁ := (t.appended.prefix_keys _).trans hpre₂
    obtain ⟨hid, hkeys⟩ := hk.addKey key
    rw [← js_idxOf_of_prefix hpre₁ (mem_jsAddKey keys key)] at hid
    obtain ⟨hv, hs, hr⟩ := b.addKey_frame key
    refine (limited_processParsedJson keys' t hwf.1 hkeys hpre₂).bind fun b₁ h₁ => ?_
    have hv₁ : b₁.base.value = b.base.value ++ t.appended.encode fun key => keys'.idxOf key := by rw [h₁.value, hv]
    have hlen : b₁.base.value.length = b.base.value.length + (t.appended.encode fun key =>
      keys'.idxOf key).length := by
      rw [hv₁, List.length_append]
    refine (limited_processFields keys' fs start hwf.2 h₁.keys (by omega) hpre).bind fun r h => ?_
    have hoff : b₁.base.value.length - start =
        b.base.value.length - start + (t.appended.encode fun key => keys'.idxOf key).length := by omega
    refine ⟨?_, h.stack.trans (h₁.stack.trans hs), h.rootWritten.trans (h₁.rootWritten.trans hr), h.keys, ?_⟩
    · rw [h.value, hv₁, jsFieldData, jsFieldData, List.map_cons, List.flatten_cons, List.append_assoc]
    · rw [h.entries, hoff, hid]

end

end JsBuilder

end ConfluentKafka
