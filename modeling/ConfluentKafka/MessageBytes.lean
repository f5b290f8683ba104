import ConfluentKafka.NodeProduce
import Mathlib.Data.List.TakeWhile

/-!
# A message from `produce` to `consume`

What `ToV8Object` makes of the record that `produce` gave to librdkafka, when
librdkafka and the broker deliver it as it is. A text crosses the boundary as
a C string, so it is cut at its first zero character, and a header object
gets its key by assignment, which makes no property of `__proto__`.
-/

namespace ConfluentKafka
namespace NodeProduce

/-! ## The consumed message -/

structure Consumed where
  value : Option Bytes
  key : Option Bytes
  headers : Option (List (JsObject Bytes))
  size : Nat

/-- `Nan::Encode` of a null pointer and no bytes is an empty buffer. -/
def headerObject (h : Bytes × Option Bytes) : JsObject Bytes :=
  header (String.ofList (Utf8.decode h.1)) (h.2.getD [])

/-- `Conversion::Message::ToV8Object`; a message without headers has no list of them. -/
def toV8Object (record : Record) : Consumed where
  value := record.value
  key := record.key
  headers := if record.headers = [] then none else some (record.headers.map headerObject)
  size := (record.value.getD []).length

def consumed (env : Env) (args : Args) : Option Consumed :=
  (produce env args).enqueued.map toV8Object

/-! ## What is sent -/

inductive Text where
  | string (s : String)
  | buffer (data : Bytes)

namespace Text

def bytes : Text → Bytes
  | .string s => utf8 s
  | .buffer data => data

def value : Text → Value
  | .string s => .string s
  | .buffer data => .buffer data

end Text

structure Message where
  value : Option Bytes
  key : Option Text
  headers : List (String × Text)

structure Sends (args : Args) (m : Message) : Prop where
  message : args.message = (m.value.map .buffer).getD .null
  key : args.key = (m.key.map Text.value).getD .null
  headers : args.headers.getD [] = m.headers.map fun h => .object [(h.1, h.2.value)]

/-- The consumed message has the bytes of what was sent, and its headers in order, each an object with one key. -/
structure Same (m : Message) (c : Consumed) : Prop where
  value : c.value = m.value
  key : c.key = m.key.map Text.bytes
  headers : (c.headers.getD []).map JsObject.entries = m.headers.map fun h => [(h.1, h.2.bytes)]

def nul : Char := Char.ofNat 0

def Text.Clean : Text → Prop
  | .string s => nul ∉ s.toList
  | .buffer _ => True

/-- No text of the message has a zero character, and no header is called `__proto__`. -/
structure Clean (m : Message) : Prop where
  key : ∀ t, m.key = some t → t.Clean
  headers : ∀ h ∈ m.headers, nul ∉ h.1.toList ∧ h.1 ≠ "__proto__" ∧ h.2.Clean

/-! ## C strings -/

theorem zero_mem_encodeChar (c : Char) : (0 : UInt8) ∈ String.utf8EncodeChar c ↔ c = nul := by
  constructor
  · intro h
    have hc : Char.ofNat c.toNat = c := Char.ofNat_toNat c
    obtain ⟨v, hvc⟩ : ∃ v, c.val.toNat = v := ⟨_, rfl⟩
    have hb : ∀ n, 0 < n → n < 256 → (0 : UInt8) ≠ UInt8.ofNat n := by
      intro n h0 hn h'
      have := congrArg UInt8.toNat h'
      rw [UInt8.toNat_ofNat', Nat.mod_eq_of_lt hn] at this
      exact absurd this.symm (Nat.ne_of_gt h0)
    unfold String.utf8EncodeChar at h
    rw [hvc] at h
    by_cases h1 : v ≤ 0x7f
    · rw [if_pos h1] at h
      have hv : v = 0 := by
        by_contra hne
        exact hb v (Nat.pos_of_ne_zero hne) (by omega) (List.mem_singleton.mp h)
      rw [← hc, nul]
      congr 1
      exact hvc.trans hv
    · exfalso
      by_cases h2 : v ≤ 0x7ff
      · simp only [h1, h2, if_true, if_false, List.mem_cons, List.not_mem_nil, or_false] at h
        rcases h with h | h <;> exact hb _ (by omega) (by omega) h
      by_cases h3 : v ≤ 0xffff
      · simp only [h1, h2, h3, if_true, if_false, List.mem_cons, List.not_mem_nil, or_false] at h
        rcases h with h | h | h <;> exact hb _ (by omega) (by omega) h
      · simp only [h1, h2, h3, if_false, List.mem_cons, List.not_mem_nil, or_false] at h
        rcases h with h | h | h | h <;> exact hb _ (by omega) (by omega) h
  · rintro rfl
    decide

theorem cString_encode (cs : List Char) :
    cString (Utf8.encode cs) = Utf8.encode (cs.takeWhile (· ≠ nul)) := by
  induction cs with
  | nil => rfl
  | cons c cs ih =>
    by_cases hc : c = nul
    · subst hc
      rfl
    · have hz : ∀ b ∈ String.utf8EncodeChar c, (decide (b ≠ 0)) = true := by
        intro b hb
        refine decide_eq_true fun h0 => hc ((zero_mem_encodeChar c).mp (h0 ▸ hb))
      have : Utf8.encode (c :: cs) = String.utf8EncodeChar c ++ Utf8.encode cs := by simp [Utf8.encode]
      rw [this, cString, List.takeWhile_append_of_pos hz, List.takeWhile_cons_of_pos (by simpa using hc)]
      simpa [Utf8.encode, cString] using ih

theorem encode_injective {cs cs' : List Char} (h : Utf8.encode cs = Utf8.encode cs') : cs = cs' := by
  rw [← Utf8.decode_encode cs, h, Utf8.decode_encode]

theorem takeWhile_nul_iff (cs : List Char) : cs.takeWhile (· ≠ nul) = cs ↔ nul ∉ cs := by
  rw [List.takeWhile_eq_self_iff]
  constructor
  · intro h hm
    simpa using h nul hm
  · intro h c hc
    exact decide_eq_true fun h0 => h (h0 ▸ hc)

theorem cString_utf8_iff (s : String) : cString (utf8 s) = utf8 s ↔ nul ∉ s.toList := by
  rw [utf8, cString_encode, ← takeWhile_nul_iff]
  exact ⟨encode_injective, fun h => by rw [h]⟩

theorem decode_cString_iff (s : String) : String.ofList (Utf8.decode (cString (utf8 s))) = s ↔ nul ∉ s.toList := by
  rw [utf8, cString_encode, Utf8.decode_encode, ← takeWhile_nul_iff]
  constructor
  · intro h
    have := congrArg String.toList h
    rwa [String.toList_ofList] at this
  · intro h
    rw [h, String.ofList_toList]

/-! ## The round trip -/

theorem entries_header (key : String) (data : Bytes) :
    (header key data).entries = if key = "__proto__" then [] else [(key, data)] := by
  unfold header JsObject.assign
  split
  · rfl
  · exact List.perm_singleton.mp (JsObject.entries_perm _)

def Text.native : Text → Bytes
  | .string s => cString (utf8 s)
  | .buffer data => data

theorem native_eq_iff (t : Text) : t.native = t.bytes ↔ t.Clean := by
  cases t with
  | string s => exact cString_utf8_iff s
  | buffer data => exact ⟨fun _ => trivial, fun _ => rfl⟩

/-- The header object has the key and the bytes that were sent just when neither was cut and the key made a
property. -/
theorem entries_headerObject_iff (h : String × Text) {data : Option Bytes} (hd : data.getD [] = h.2.native) :
    (headerObject (cString (utf8 h.1), data)).entries = [(h.1, h.2.bytes)] ↔
      nul ∉ h.1.toList ∧ h.1 ≠ "__proto__" ∧ h.2.Clean := by
  rw [headerObject, entries_header, hd]
  by_cases hn : nul ∉ h.1.toList
  · rw [(decode_cString_iff h.1).mpr hn]
    by_cases hp : h.1 = "__proto__"
    · simp [hp]
    · simp [hp, hn, native_eq_iff]
  · refine iff_of_false ?_ fun h' => hn h'.1
    split
    · simp
    · intro h'
      have := (Prod.mk.inj (List.cons.inj h').1).1
      exact hn ((decode_cString_iff h.1).mp this)

def nativeHeader (env : Env) (h : String × Text) : Bytes × Option Bytes :=
  (cString (utf8 h.1), match h.2 with
    | .string s => some (cString (utf8 s))
    | .buffer data => headerData env data)

theorem getD_nativeHeader (env : Env) (h : String × Text) : (nativeHeader env h).2.getD [] = h.2.native := by
  unfold nativeHeader Text.native
  cases h.2 with
  | string s => rfl
  | buffer data =>
    simp only [headerData]
    split
    · rename_i he
      exact he.1.symm
    · rfl

theorem headersOf_map (env : Env) (hs : List (String × Text)) :
    headersOf env none (hs.map fun h => .object [(h.1, h.2.value)]) = .ok (hs.map (nativeHeader env), none) := by
  induction hs with
  | nil => rfl
  | cons h hs ih =>
    obtain ⟨key, t⟩ := h
    cases t with
    | string s =>
      have hv : headerProperty (.object [(key, (Text.string s).value)]) = some (key, .string s) := rfl
      rw [List.map_cons, headersOf]
      simp only [hv, ih]
      rfl
    | buffer data =>
      have hv : headerProperty (.object [(key, (Text.buffer data).value)]) = some (key, .buffer data) := rfl
      rw [List.map_cons, headersOf]
      simp only [hv, ih]
      rfl

theorem consumed_of_sends {env : Env} {args : Args} {m : Message} (hp : Passes env args)
    (hn : env.nativeConnected = true) (ha : env.answer = 0) (hs : Sends args m) :
    ∃ c, consumed env args = some c ∧ c.value = m.value ∧ c.key = m.key.map Text.native ∧
      c.headers.getD [] = m.headers.map fun h => headerObject (nativeHeader env h) := by
  obtain ⟨record, pending, he, -, hm, hk, hh⟩ := produce_of_passes hp
  have h0 : nativeProduce env = 0 := nativeProduce_eq_zero.mpr ⟨hn, ha⟩
  refine ⟨toV8Object record, by simp [consumed, he, finish, h0], ?_, ?_, ?_⟩
  · rw [hs.message] at hm
    cases hv : m.value with
    | none => simpa [hv, messageBuffer, toV8Object] using hm.symm
    | some data => simpa [hv, messageBuffer, toV8Object] using hm.symm
  · rw [hs.key] at hk
    cases hv : m.key with
    | none => simpa [hv, keyBuffer, toV8Object] using hk.symm
    | some t => cases t <;> simpa [hv, keyBuffer, toV8Object, Text.value, Text.native] using hk.symm
  · rw [hs.headers, headersOf_map] at hh
    have hr := (Prod.mk.inj (Except.ok.inj hh)).1
    simp only [toV8Object, ← hr]
    cases m.headers with
    | nil => rfl
    | cons h hs => simp

/-- A message that is sent comes back with the bytes of its value, its key and its headers just when none of
its texts has a zero character and none of its headers is called `__proto__`. -/
theorem consumed_same_iff {env : Env} {args : Args} {m : Message} (hp : Passes env args)
    (hn : env.nativeConnected = true) (ha : env.answer = 0) (hs : Sends args m) :
    (∃ c, consumed env args = some c ∧ Same m c) ↔ Clean m := by
  obtain ⟨c, hc, hv, hk, hh⟩ := consumed_of_sends hp hn ha hs
  have hkey : m.key.map Text.native = m.key.map Text.bytes ↔ ∀ t, m.key = some t → t.Clean := by
    cases m.key with
    | none => simp
    | some t => simp [native_eq_iff]
  have hheaders : (c.headers.getD []).map JsObject.entries = (m.headers.map fun h => [(h.1, h.2.bytes)]) ↔
      ∀ h ∈ m.headers, nul ∉ h.1.toList ∧ h.1 ≠ "__proto__" ∧ h.2.Clean := by
    rw [hh, List.map_map, List.map_inj_left]
    refine forall₂_congr fun h _ => ?_
    exact entries_headerObject_iff h (getD_nativeHeader env h)
  constructor
  · rintro ⟨c', hc', hsame⟩
    obtain rfl : c = c' := Option.some.inj (hc.symm.trans hc')
    exact ⟨hkey.mp (hk.symm.trans hsame.key), hheaders.mp hsame.headers⟩
  · intro hclean
    exact ⟨c, hc, hv, hk.trans (hkey.mpr hclean.key), hheaders.mpr hclean.headers⟩

def order : Message :=
  ⟨some [], some (.string "k1"), [("trace", .string "a7"), ("raw", .buffer [0, 255])]⟩

def orderArgs : Args where
  topic := .string "orders"
  partition := .null
  message := .buffer []
  key := .string "k1"
  timestamp := .undefined
  msgOpaque := .undefined
  headers := some [.object [("trace", .string "a7")], .object [("raw", .buffer [0, 255])]]

theorem consumed_same_order : ∃ c, consumed accepting orderArgs = some c ∧ Same order c := by
  have hp : Passes accepting orderArgs := by
    refine ⟨rfl, by decide, rfl, rfl, rfl, rfl, ?_⟩
    intro v hv
    simp only [orderArgs, Option.getD_some, List.mem_cons, List.not_mem_nil, or_false] at hv
    rcases hv with rfl | rfl <;> rfl
  have hclean : Clean order := by
    refine ⟨?_, ?_⟩
    · intro t ht
      cases ht
      show nul ∉ "k1".toList
      decide
    · intro h hh
      simp only [order, List.mem_cons, List.not_mem_nil, or_false] at hh
      rcases hh with rfl | rfl
      · exact ⟨by decide, by decide, show nul ∉ "a7".toList by decide⟩
      · exact ⟨by decide, by decide, trivial⟩
  exact (consumed_same_iff hp rfl rfl ⟨rfl, rfl, rfl⟩).mpr hclean

def zeroKey : String := String.ofList ['a', nul, 'b']

/-- Only the first letter of such a key arrives. -/
theorem consumed_zero_key :
    ¬ ∀ (env : Env) (args : Args) (m : Message), Passes env args → env.nativeConnected = true → env.answer = 0 →
      Sends args m → ∃ c, consumed env args = some c ∧ Same m c := by
  intro h
  have hp : Passes accepting { orderArgs with key := .string zeroKey, headers := none } := by
    refine ⟨rfl, by decide, rfl, rfl, rfl, rfl, ?_⟩
    intro v hv
    cases hv
  obtain ⟨c, hc, hsame⟩ := h accepting _ ⟨some [], some (.string zeroKey), []⟩ hp rfl rfl ⟨rfl, rfl, rfl⟩
  have hkey : (consumed accepting { orderArgs with key := .string zeroKey, headers := none }).map Consumed.key =
      some (some [97]) := by decide
  rw [hc, Option.map_some, Option.some.injEq, hsame.key] at hkey
  exact absurd hkey (by decide)

end NodeProduce
end ConfluentKafka
