import ConfluentKafka.JsBuilder

/-!
# What the builder writes for strings of the language

The calls of a tree append its encoding, with the ids that the dictionary gives the keys, unless a
limit on the size stops them.
-/

namespace ConfluentKafka

open VariantFormat VariantBuilder

/-! ## The dictionary -/

def jsAddKey (keys : List JsString) (key : JsString) : List JsString := if key ∈ keys then keys else keys ++ [key]

mutual

def JsTree.keys : JsTree → List JsString → List JsString
  | .primitive _, keys => keys
  | .array elements, keys => jsElementKeys elements keys
  | .object fields, keys => jsFieldKeys fields keys

def jsElementKeys : List JsTree → List JsString → List JsString
  | [], keys => keys
  | t :: ts, keys => jsElementKeys ts (t.keys keys)

def jsFieldKeys : List (JsString × JsTree) → List JsString → List JsString
  | [], keys => keys
  | (key, t) :: fs, keys => jsFieldKeys fs (t.keys (jsAddKey keys key))

end

theorem prefix_jsAddKey (keys : List JsString) (key : JsString) : keys <+: jsAddKey keys key := by
  unfold jsAddKey
  split
  · exact List.prefix_refl _
  · exact List.prefix_append _ _

theorem mem_jsAddKey (keys : List JsString) (key : JsString) : key ∈ jsAddKey keys key := by
  unfold jsAddKey
  split
  · assumption
  · simp

mutual

theorem JsTree.prefix_keys : ∀ (t : JsTree) (keys : List JsString), keys <+: t.keys keys
  | .primitive p, keys => by
    rw [JsTree.keys]
  | .array elements, keys => by
    rw [JsTree.keys]
    exact prefix_jsElementKeys elements keys
  | .object fields, keys => by
    rw [JsTree.keys]
    exact prefix_jsFieldKeys fields keys

theorem prefix_jsElementKeys : ∀ (ts : List JsTree) (keys : List JsString), keys <+: jsElementKeys ts keys
  | [], keys => by
    rw [jsElementKeys]
  | t :: ts, keys => by
    rw [jsElementKeys]
    exact (t.prefix_keys keys).trans (prefix_jsElementKeys ts _)

theorem prefix_jsFieldKeys : ∀ (fs : List (JsString × JsTree)) (keys : List JsString), keys <+: jsFieldKeys fs keys
  | [], keys => by
    rw [jsFieldKeys]
  | (key, t) :: fs, keys => by
    rw [jsFieldKeys]
    exact (prefix_jsAddKey keys key).trans ((t.prefix_keys _).trans (prefix_jsFieldKeys fs _))

end

theorem js_idxOf_of_prefix {keys keys' : List JsString} (h : keys <+: keys') {key : JsString} (hk : key ∈ keys) :
    keys'.idxOf key = keys.idxOf key := by
  obtain ⟨rest, rfl⟩ := h
  exact List.idxOf_append_of_mem hk

def jsKeyBytes (keys : List JsString) : List Bytes := keys.map fun key => Utf8.encode (Utf16.scalars key)

namespace JsBuilder

/-- The builder's dictionary holds these keys, each with its place as id. -/
structure HasKeys (b : JsBuilder) (keys : List JsString) : Prop where
  dictionary : ∀ key, b.dictionary.get? key = if key ∈ keys then some (keys.idxOf key) else none
  dictionaryKeys : b.base.dictionaryKeys = jsKeyBytes keys

theorem hasKeys_new (sizeLimit maxArguments : Nat) : (new sizeLimit maxArguments).HasKeys [] where
  dictionary key := by simp [new]
  dictionaryKeys := rfl

theorem HasKeys.addKey {b : JsBuilder} {keys : List JsString} (h : b.HasKeys keys) (key : JsString) :
    (b.addKey key).1 = (jsAddKey keys key).idxOf key ∧ (b.addKey key).2.HasKeys (jsAddKey keys key) := by
  by_cases hk : key ∈ keys
  · have hd : b.dictionary.get? key = some (keys.idxOf key) := by rw [h.dictionary, if_pos hk]
    have hkeys : jsAddKey keys key = keys := if_pos hk
    rw [JsBuilder.addKey, hd, hkeys]
    exact ⟨rfl, h⟩
  · have hd : b.dictionary.get? key = none := by rw [h.dictionary, if_neg hk]
    have hkeys : jsAddKey keys key = keys ++ [key] := if_neg hk
    have hlen : b.base.dictionaryKeys.length = keys.length := by rw [h.dictionaryKeys, jsKeyBytes, List.length_map]
    have hidx : (keys ++ [key]).idxOf key = keys.length := by simp [List.idxOf_append, hk]
    rw [JsBuilder.addKey, hd, hkeys]
    refine ⟨hlen.trans hidx.symm, ?_, ?_⟩
    · intro k
      rw [JsMap.get?_set, h.dictionary, hlen]
      by_cases hkk : k = key
      · subst hkk
        simp [hidx]
      · by_cases hmem : k ∈ keys
        · simp [hkk, hmem, List.idxOf_append_of_mem]
        · simp [hkk, hmem]
    · simp [h.dictionaryKeys, jsKeyBytes]

/-- A change of the base that leaves the texts of the keys as they are. -/
theorem HasKeys.withBase {b : JsBuilder} {keys : List JsString} (h : b.HasKeys keys) {base : VariantBuilder}
    (hbase : base.dictionaryKeys = b.base.dictionaryKeys) : ({ b with base } : JsBuilder).HasKeys keys where
  dictionary := h.dictionary
  dictionaryKeys := hbase.trans h.dictionaryKeys

/-! ## Steps -/

theorem limited_lift {P : VariantBuilder → Prop} {Q : JsBuilder → Prop}
    {f : VariantBuilder → Except VariantFault VariantBuilder}
    {b : JsBuilder} (hf : Limited False P (f b.base)) (h : ∀ base, P base → Q { b with base }) : Limited False Q
    (b.lift f) := by
  unfold lift
  cases hfb : f b.base with
  | ok base =>
    rw [hfb] at hf
    exact h base hf
  | error e =>
    rw [hfb] at hf
    exact hf

theorem run_append (cs cs' : List JsCall) (b : JsBuilder) : b.run (cs ++ cs') = b.run cs >>= fun b' =>
    b'.run cs' := by
  induction cs generalizing b with
  | nil => rfl
  | cons c cs ih =>
    rw [List.cons_append, run, run]
    cases b.call c with
    | ok b₁ => exact ih b₁
    | error e => rfl

theorem run_cons_of_ok {b b₁ : JsBuilder} {c : JsCall} (h : b.call c = .ok b₁) (cs : List JsCall) :
    b.run (c :: cs) = b₁.run cs := by
  rw [run, h]
  rfl

theorem run_singleton (b : JsBuilder) (c : JsCall) : b.run [c] = b.call c := by
  rw [run]
  cases b.call c with
  | ok b₁ => rfl
  | error e => rfl

theorem appendKey_of_object {b : JsBuilder} {start : Nat} {entries : List FieldEntry} {rest : List Context}
    (h : b.base.stack = .object start entries none :: rest) (key : JsString) :
    ∃ b₁, b.call (.appendKey key) = .ok b₁ ∧ b₁.base.value = b.base.value ∧
      b₁.base.stack = .object start entries (some (Utf16.scalars key, (b.addKey key).1)) :: rest ∧
      b₁.base.rootWritten = b.base.rootWritten ∧ b₁.dictionary = (b.addKey key).2.dictionary ∧
      b₁.base.dictionaryKeys = (b.addKey key).2.base.dictionaryKeys := by
  refine ⟨{ (b.addKey key).2 with base := { (b.addKey key).2.base with
    stack := .object start entries (some (Utf16.scalars key, (b.addKey key).1)) :: rest } }, ?_, ?_,
      rfl, ?_, rfl, rfl⟩
  · rw [call, appendKey, h]
  · show (b.addKey key).2.base.value = _
    unfold addKey
    split <;> rfl
  · show (b.addKey key).2.base.rootWritten = _
    unfold addKey
    split <;> rfl

structure Appended (b : VariantBuilder) (bs : Bytes) (keys : List JsString) (b' : JsBuilder) : Prop where
  value : b'.base.value = b.value ++ bs
  stack : b'.base.stack = b.stack
  rootWritten : b'.base.rootWritten = b.rootWritten
  keys : b'.HasKeys keys
  length_le : b'.base.value.length ≤ MAX_ARRAY_LENGTH

structure Filled (b : JsBuilder) (stack : List Context) (data : Bytes) (keys : List JsString) (b' : JsBuilder) :
    Prop where
  value : b'.base.value = b.base.value ++ data
  stack : b'.base.stack = stack
  rootWritten : b'.base.rootWritten = b.base.rootWritten
  keys : b'.HasKeys keys

theorem mem_jsFieldEntries {ids : JsString → Nat} {parts : List (JsString × Bytes)} {offset : Nat} {e : FieldEntry}
    (h : e ∈ jsFieldEntries ids offset parts) : ∃ p ∈ parts, e.key = Utf16.scalars p.1 ∧ e.id = ids p.1 := by
  induction parts generalizing offset with
  | nil => simp [jsFieldEntries] at h
  | cons p parts ih =>
    rw [jsFieldEntries, List.mem_cons] at h
    rcases h with rfl | h
    · exact ⟨p, List.mem_cons_self, rfl, rfl⟩
    · obtain ⟨q, hq, he⟩ := ih h
      exact ⟨q, List.mem_cons_of_mem _ hq, he⟩

theorem getD_jsKeyBytes {keys : List JsString} {key : JsString} (hk : key ∈ keys) :
    (jsKeyBytes keys).getD (keys.idxOf key) [] = Utf8.encode (Utf16.scalars key) := by
  have hlt : keys.idxOf key < keys.length := List.idxOf_lt_length_of_mem hk
  rw [jsKeyBytes, List.getD_eq_getElem?_getD, List.getElem?_map, List.getElem?_eq_getElem hlt]
  simp

theorem limited_endObject {b : VariantBuilder} {front : Bytes} {parts : List (JsString × Bytes)}
    {rest : List Context}
    {keys : List JsString} {ids : JsString → Nat} (hk : b.dictionaryKeys = jsKeyBytes keys)
    (hids : ∀ p ∈ parts, p.1 ∈ keys ∧ ids p.1 = keys.idxOf p.1) (hv : b.value = front ++ jsFieldData parts)
    (hs : b.stack = .object front.length (jsFieldEntries ids 0 parts) none :: rest) :
    Limited False (fun b' => b' = { b with value := front ++ jsObjectBytes ids parts, stack := rest } ∧
      b'.value.length ≤ MAX_ARRAY_LENGTH) b.endObject := by
  have hlen : b.value.length - front.length = (jsFieldData parts).length := by
    rw [hv, List.length_append, Nat.add_sub_cancel_left]
  have hkey : ∀ e ∈ jsFieldEntries ids 0 parts, b.dictionaryKeys.getD e.id [] = Utf8.encode e.key := by
    intro e he
    obtain ⟨p, hp, hkey, hid⟩ := mem_jsFieldEntries he
    rw [hkey, hid, (hids p hp).2, hk]
    exact getD_jsKeyBytes (hids p hp).1
  have hsort : (jsFieldEntries ids 0 parts).insertionSort
      (fun f g => keyLe (b.dictionaryKeys.getD f.id []) (b.dictionaryKeys.getD g.id [])) =
      (jsFieldEntries ids 0 parts).insertionSort entryLe := by
    have h := List.map_insertionSort (r := fun f g : FieldEntry =>
      keyLe (b.dictionaryKeys.getD f.id []) (b.dictionaryKeys.getD g.id [])) (s := entryLe) id
      (jsFieldEntries ids 0 parts) (fun f hf g hg => by rw [hkey f hf, hkey g hg]; rfl)
    simpa using h
  rw [VariantBuilder.endObject, hs]
  dsimp only
  rw [finishWritingObject]
  dsimp only
  rw [hlen, hsort]
  exact ((limited_splice (b := { b with stack := rest }) hv _).among False.elim).mono fun _ h => ⟨h.1, h.2.1⟩

theorem mem_jsFieldKeys : ∀ (fs : List (JsString × JsTree)) (keys : List JsString),
    ∀ key ∈ fs.map Prod.fst, key ∈ jsFieldKeys fs keys
  | [], _, key, h => by simp at h
  | (key', t) :: fs, keys, key, h => by
    rw [jsFieldKeys]
    rw [List.map_cons, List.mem_cons] at h
    rcases h with rfl | h
    · exact ((t.prefix_keys _).trans (prefix_jsFieldKeys fs _)).subset (mem_jsAddKey keys _)
    · exact mem_jsFieldKeys fs _ key h

theorem map_fst_jsEncodeFields (ids : JsString → Nat) :
    ∀ fs : List (JsString × JsTree), (jsEncodeFields ids fs).map Prod.fst = fs.map Prod.fst
  | [] => by rw [jsEncodeFields]; rfl
  | (key, t) :: fs => by
    rw [jsEncodeFields, List.map_cons, List.map_cons, map_fst_jsEncodeFields ids fs]

end JsBuilder

mutual

def JsTree.WellFormed : JsTree → Prop
  | .primitive p => p.WellFormed
  | .array elements => jsElementsWellFormed elements
  | .object fields => jsFieldsWellFormed fields

def jsElementsWellFormed : List JsTree → Prop
  | [] => True
  | t :: ts => t.WellFormed ∧ jsElementsWellFormed ts

def jsFieldsWellFormed : List (JsString × JsTree) → Prop
  | [] => True
  | (_, t) :: fs => t.WellFormed ∧ jsFieldsWellFormed fs

end

namespace JsBuilder

mutual

theorem limited_run_calls {keys' : List JsString} :
    ∀ (t : JsTree) {b : JsBuilder} {b₁ : VariantBuilder} {keys : List JsString}, t.WellFormed →
      b.base.beforeAppend = .ok b₁ → b.HasKeys keys → t.keys keys <+: keys' →
      Limited False (Appended b₁ (t.encode fun key => keys'.idxOf key) (t.keys keys)) (b.run t.calls)
  | .primitive p, b, b₁, keys, hwf, hb, hk, hpre => by
    rw [JsTree.calls, JsTree.encode, JsTree.keys, run_singleton, call]
    rw [JsTree.WellFormed] at hwf
    have hkeys₁ := (congrArg VariantBuilder.dictionaryKeys (beforeAppend_eq_ok hb)).trans rfl
    refine limited_lift (P := b₁.Wrote p.encode) ?_ fun base h => ?_
    · rw [appendScalar_scalar]
      exact limited_append hb hwf
    · have heq := h.eq
      refine ⟨by rw [heq], by rw [heq], by rw [heq], hk.withBase ?_, h.length_le⟩
      rw [heq, ← hkeys₁]
  | .array elements, b, b₁, keys, hwf, hb, hk, hpre => by
    rw [JsTree.calls, JsTree.encode, JsTree.keys]
    rw [JsTree.WellFormed] at hwf
    rw [JsTree.keys] at hpre
    have hstart : b.call .startArray =
        .ok { b with base := { b₁ with stack := .array b₁.value.length [] :: b₁.stack } } := by
      rw [call, lift, startArray, hb]
      rfl
    have hkeys₁ := (congrArg VariantBuilder.dictionaryKeys (beforeAppend_eq_ok hb)).trans rfl
    rw [run_cons_of_ok hstart, run_append]
    refine (limited_run_elementCalls
      (b := { b with base := { b₁ with stack := .array b₁.value.length [] :: b₁.stack } })
      elements hwf rfl (Nat.le_refl _) (hk.withBase hkeys₁) hpre).bind fun b₂ h₂ => ?_
    rw [run_singleton]
    refine limited_lift ((limited_endArray h₂.value (by simpa using h₂.stack)).among False.elim) ?_
    rintro base ⟨rfl, hlen, -⟩
    exact ⟨rfl, rfl, h₂.rootWritten, h₂.keys.withBase rfl, hlen⟩
  | .object fields, b, b₁, keys, hwf, hb, hk, hpre => by
    rw [JsTree.calls, JsTree.encode, JsTree.keys]
    rw [JsTree.WellFormed] at hwf
    rw [JsTree.keys] at hpre
    have hstart : b.call .startObject =
        .ok { b with base := { b₁ with stack := .object b₁.value.length [] none :: b₁.stack } } := by
      rw [call, lift, startObject, hb]
      rfl
    have hkeys₁ := (congrArg VariantBuilder.dictionaryKeys (beforeAppend_eq_ok hb)).trans rfl
    rw [run_cons_of_ok hstart, run_append]
    refine (limited_run_fieldCalls
      (b := { b with base := { b₁ with stack := .object b₁.value.length [] none :: b₁.stack } })
      fields hwf rfl (Nat.le_refl _) (hk.withBase hkeys₁) hpre).bind fun b₂ h₂ => ?_
    rw [run_singleton]
    have hids : ∀ p ∈ jsEncodeFields (fun key => keys'.idxOf key) fields,
        p.1 ∈ jsFieldKeys fields keys ∧ keys'.idxOf p.1 = (jsFieldKeys fields keys).idxOf p.1 := by
      intro p hp
      have hmem : p.1 ∈ fields.map Prod.fst := by
        rw [← map_fst_jsEncodeFields fun key => keys'.idxOf key]
        exact List.mem_map_of_mem hp
      have hkey := mem_jsFieldKeys fields keys p.1 hmem
      exact ⟨hkey, js_idxOf_of_prefix hpre hkey⟩
    refine limited_lift (limited_endObject h₂.keys.dictionaryKeys hids h₂.value (by simpa using h₂.stack)) ?_
    rintro base ⟨rfl, hlen⟩
    exact ⟨rfl, rfl, h₂.rootWritten, h₂.keys.withBase rfl, hlen⟩

theorem limited_run_elementCalls {keys' : List JsString} :
    ∀ (ts : List JsTree) {b : JsBuilder} {start : Nat} {offsets : List Nat} {rest : List Context}
      {keys : List JsString},
      jsElementsWellFormed ts → b.base.stack = .array start offsets :: rest → start ≤ b.base.value.length →
      b.HasKeys keys → jsElementKeys ts keys <+: keys' →
      Limited False (b.Filled (.array start (offsets ++ runningOffsets (b.base.value.length - start)
        (jsEncodeElements (fun key => keys'.idxOf key) ts)) :: rest)
        (jsEncodeElements (fun key => keys'.idxOf key) ts).flatten (jsElementKeys ts keys))
          (b.run (jsElementCalls ts))
  | [], b, start, offsets, rest, keys, _, hs, _, hk, _ => by
    rw [jsElementCalls, jsEncodeElements, jsElementKeys, runningOffsets]
    exact ⟨by simp, by simpa using hs, rfl, hk⟩
  | t :: ts, b, start, offsets, rest, keys, hwf, hs, hle, hk, hpre => by
    rw [jsElementCalls, jsEncodeElements, jsElementKeys, runningOffsets, run_append]
    rw [jsElementsWellFormed] at hwf
    rw [jsElementKeys] at hpre
    have hb : b.base.beforeAppend =
        .ok { b.base with stack := .array start (offsets ++ [b.base.value.length - start]) :: rest } := by
      rw [beforeAppend, hs]
    have hpre' := (prefix_jsElementKeys ts (t.keys keys)).trans hpre
    refine (limited_run_calls t hwf.1 hb hk hpre').bind fun b₂ h₂ => ?_
    have hv : b₂.base.value.length = b.base.value.length + (t.encode fun key => keys'.idxOf key).length := by
      rw [h₂.value, List.length_append]
    refine (limited_run_elementCalls ts hwf.2 h₂.stack (by omega) h₂.keys hpre).mono fun b₃ h₃ => ?_
    have hoff : b₂.base.value.length - start =
        b.base.value.length - start + (t.encode fun key => keys'.idxOf key).length := by omega
    refine ⟨?_, ?_, h₃.rootWritten.trans h₂.rootWritten, h₃.keys⟩
    · rw [h₃.value, h₂.value, List.flatten_cons, List.append_assoc]
    · rw [h₃.stack, hoff, List.append_assoc, List.singleton_append]

theorem limited_run_fieldCalls {keys' : List JsString} :
    ∀ (fs : List (JsString × JsTree)) {b : JsBuilder} {start : Nat} {entries : List FieldEntry}
      {rest : List Context}
      {keys : List JsString}, jsFieldsWellFormed fs → b.base.stack = .object start entries none :: rest →
      start ≤ b.base.value.length → b.HasKeys keys → jsFieldKeys fs keys <+: keys' →
      Limited False (b.Filled (.object start (entries ++ jsFieldEntries (fun key => keys'.idxOf key)
        (b.base.value.length - start) (jsEncodeFields (fun key => keys'.idxOf key) fs)) none :: rest)
        (jsFieldData (jsEncodeFields (fun key => keys'.idxOf key) fs)) (jsFieldKeys fs keys))
          (b.run (jsFieldCalls fs))
  | [], b, start, entries, rest, keys, _, hs, _, hk, _ => by
    rw [jsFieldCalls, jsEncodeFields, jsFieldKeys, jsFieldEntries]
    exact ⟨by simp [jsFieldData], by simpa using hs, rfl, hk⟩
  | (key, t) :: fs, b, start, entries, rest, keys, hwf, hs, hle, hk, hpre => by
    rw [jsFieldCalls, jsEncodeFields, jsFieldKeys, jsFieldEntries]
    rw [jsFieldsWellFormed] at hwf
    rw [jsFieldKeys] at hpre
    have hpre₂ := (prefix_jsFieldKeys fs _).trans hpre
    have hpre₁ := (t.prefix_keys _).trans hpre₂
    obtain ⟨hid, hkeys⟩ := hk.addKey key
    rw [← js_idxOf_of_prefix hpre₁ (mem_jsAddKey keys key)] at hid
    obtain ⟨b₁, hb₁, hv₁, hs₁, hr₁, hd₁, hk₁⟩ := appendKey_of_object hs key
    rw [hid] at hs₁
    have hkeys₁ : b₁.HasKeys (jsAddKey keys key) := ⟨hd₁ ▸ hkeys.dictionary, hk₁.trans hkeys.dictionaryKeys⟩
    have hb₂ : b₁.base.beforeAppend = .ok { b₁.base with
        stack := .object start (entries ++ [⟨Utf16.scalars key, keys'.idxOf key, b.base.value.length - start⟩])
          none :: rest } := by
      rw [beforeAppend, hs₁]
      dsimp only
      rw [hv₁]
    rw [run_cons_of_ok hb₁, run_append]
    refine (limited_run_calls t hwf.1 hb₂ hkeys₁ hpre₂).bind fun b₃ h₃ => ?_
    have hv₃ : b₃.base.value = b.base.value ++ t.encode fun key => keys'.idxOf key := by rw [h₃.value, hv₁]
    have hlen : b₃.base.value.length = b.base.value.length + (t.encode fun key => keys'.idxOf key).length := by
      rw [hv₃, List.length_append]
    refine (limited_run_fieldCalls fs hwf.2 h₃.stack (by omega) h₃.keys hpre).mono fun b₄ h₄ => ?_
    have hoff : b₃.base.value.length - start =
        b.base.value.length - start + (t.encode fun key => keys'.idxOf key).length := by omega
    refine ⟨?_, ?_, h₄.rootWritten.trans (h₃.rootWritten.trans hr₁), h₄.keys⟩
    · rw [h₄.value, hv₃, jsFieldData, jsFieldData, List.map_cons, List.flatten_cons, List.append_assoc]
    · rw [h₄.stack, hoff, List.append_assoc, List.singleton_append]

end

end JsBuilder

/-! ## The end -/

def JsTree.encoded (t : JsTree) : Variant :=
  ⟨t.encode fun key => (t.keys []).idxOf key, metadataBytes (jsKeyBytes (t.keys [])), 0⟩

structure JsTree.Sized (t : JsTree) : Prop where
  value : t.encoded.value.length ≤ MAX_ARRAY_LENGTH
  metadata : t.encoded.metadata.length ≤ MAX_ARRAY_LENGTH

theorem JsTree.limited_build {t : JsTree} (h : t.WellFormed) (hstrings : t.hasStrings = true)
    (sizeLimit maxArguments : Nat) :
    Limited False (fun v => v = t.encoded ∧ t.Sized) (t.build sizeLimit maxArguments) := by
  rw [JsTree.build, hstrings]
  refine (JsBuilder.limited_run_calls t h rfl (JsBuilder.hasKeys_new sizeLimit maxArguments)
    (List.prefix_refl _)).bind fun b hb => ?_
  have hvalue : b.base.value = t.encoded.value := hb.value
  have hkeys : b.base.dictionaryKeys = jsKeyBytes (t.keys []) := hb.keys.dictionaryKeys
  have hstack : ¬b.base.stack ≠ [] := not_not_intro hb.stack
  have hroot : ¬¬b.base.rootWritten = true := not_not_intro hb.rootWritten
  have hlen := hb.length_le
  rw [JsBuilder.build, VariantBuilder.build, if_neg hstack, if_neg hroot]
  refine b.base.limited_finalize.bind ?_
  rintro _ ⟨rfl, hmeta⟩
  dsimp only
  rw [hkeys, hvalue, Variant.new_metadataBytes]
  rw [hkeys] at hmeta
  rw [hvalue] at hlen
  exact ⟨rfl, hlen, hmeta⟩

end ConfluentKafka
