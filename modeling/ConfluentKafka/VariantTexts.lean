import ConfluentKafka.VariantPlaces

/-!
# Texts as keys

A tree whose keys are texts is a tree whose keys are strings, and both are encoded as the same
bytes: what is known of reading the first is known of what the builder makes of the second.
-/

namespace ConfluentKafka

open VariantFormat

mutual

def VariantTree.js : VariantTree → JsTree
  | .primitive p => .primitive p
  | .array elements => .array (jsElements elements)
  | .object fields => .object (jsFields fields)

def jsElements : List VariantTree → List JsTree
  | [] => []
  | t :: ts => t.js :: jsElements ts

def jsFields : List (List Char × VariantTree) → List (JsString × JsTree)
  | [] => []
  | (key, t) :: fs => (Utf16.ofChars key, t.js) :: jsFields fs

end

/-! ## The dictionary -/

theorem mem_map_ofChars {keys : List (List Char)} {key : List Char} :
    Utf16.ofChars key ∈ keys.map Utf16.ofChars ↔ key ∈ keys := by
  constructor
  · intro h
    obtain ⟨other, hmem, heq⟩ := List.mem_map.mp h
    exact Utf16.ofChars_injective heq ▸ hmem
  · exact List.mem_map_of_mem

theorem jsAddKey_map (keys : List (List Char)) (key : List Char) :
    jsAddKey (keys.map Utf16.ofChars) (Utf16.ofChars key) = (addKey keys key).map Utf16.ofChars := by
  unfold jsAddKey addKey
  by_cases hk : key ∈ keys
  · rw [if_pos hk, if_pos (mem_map_ofChars.mpr hk)]
  · rw [if_neg hk, if_neg (mt mem_map_ofChars.mp hk), List.map_append, List.map_singleton]

theorem idxOf_map_ofChars (keys : List (List Char)) (key : List Char) :
    (keys.map Utf16.ofChars).idxOf (Utf16.ofChars key) = keys.idxOf key := by
  induction keys with
  | nil => rfl
  | cons other keys ih =>
    rw [List.map_cons, List.idxOf_cons, List.idxOf_cons, ih]
    by_cases heq : other = key
    · simp [heq]
    · have hne : Utf16.ofChars other ≠ Utf16.ofChars key := mt Utf16.ofChars_injective heq
      rw [beq_false_of_ne heq, beq_false_of_ne hne]

mutual

theorem VariantTree.keys_js : ∀ (t : VariantTree) (known : List (List Char)),
    t.js.keys (known.map Utf16.ofChars) = (t.keys known).map Utf16.ofChars
  | .primitive p, known => by
    rw [VariantTree.js, JsTree.keys, VariantTree.keys]
  | .array elements, known => by
    rw [VariantTree.js, JsTree.keys, VariantTree.keys]
    exact jsElementKeys_map elements known
  | .object fields, known => by
    rw [VariantTree.js, JsTree.keys, VariantTree.keys]
    exact jsFieldKeys_map fields known

theorem jsElementKeys_map : ∀ (ts : List VariantTree) (known : List (List Char)),
    jsElementKeys (jsElements ts) (known.map Utf16.ofChars) = (elementKeys ts known).map Utf16.ofChars
  | [], known => by
    rw [jsElements, jsElementKeys, elementKeys]
  | t :: ts, known => by
    rw [jsElements, jsElementKeys, elementKeys, t.keys_js, jsElementKeys_map ts]

theorem jsFieldKeys_map : ∀ (fs : List (List Char × VariantTree)) (known : List (List Char)),
    jsFieldKeys (jsFields fs) (known.map Utf16.ofChars) = (fieldKeys fs known).map Utf16.ofChars
  | [], known => by
    rw [jsFields, jsFieldKeys, fieldKeys]
  | (key, t) :: fs, known => by
    rw [jsFields, jsFieldKeys, fieldKeys, jsAddKey_map, t.keys_js, jsFieldKeys_map fs]

end

mutual

theorem VariantTree.hasStrings_js : ∀ t : VariantTree, t.hasStrings = true → t.js.hasStrings = true
  | .primitive p, h => by
    rw [VariantTree.hasStrings] at h
    rwa [VariantTree.js, JsTree.hasStrings]
  | .array elements, h => by
    rw [VariantTree.hasStrings] at h
    rw [VariantTree.js, JsTree.hasStrings]
    exact jsElementsHaveStrings_js elements h
  | .object fields, h => by
    rw [VariantTree.hasStrings] at h
    rw [VariantTree.js, JsTree.hasStrings]
    exact jsFieldsHaveStrings_js fields h

theorem jsElementsHaveStrings_js : ∀ ts : List VariantTree,
    elementsHaveStrings ts = true → jsElementsHaveStrings (jsElements ts) = true
  | [], _ => by
    rw [jsElements, jsElementsHaveStrings]
  | t :: ts, h => by
    rw [elementsHaveStrings, Bool.and_eq_true] at h
    rw [jsElements, jsElementsHaveStrings, t.hasStrings_js h.1, jsElementsHaveStrings_js ts h.2]
    rfl

theorem jsFieldsHaveStrings_js : ∀ fs : List (List Char × VariantTree),
    fieldsHaveStrings fs = true → jsFieldsHaveStrings (jsFields fs) = true
  | [], _ => by
    rw [jsFields, jsFieldsHaveStrings]
  | (key, t) :: fs, h => by
    rw [fieldsHaveStrings, Bool.and_eq_true, Bool.and_eq_true] at h
    rw [jsFields, jsFieldsHaveStrings, Utf16.scalars_ofChars, t.hasStrings_js h.2.1,
      jsFieldsHaveStrings_js fs h.2.2]
    simpa using h.1

end

/-! ## The encoding -/

def jsPart (part : List Char × Bytes) : JsString × Bytes := (Utf16.ofChars part.1, part.2)

section

variable (ids : JsString → Nat)

theorem jsFieldEntries_map (parts : List (List Char × Bytes)) (offset : Nat) :
    jsFieldEntries ids offset (parts.map jsPart) = fieldEntries (fun key => ids (Utf16.ofChars key))
      offset parts := by
  induction parts generalizing offset with
  | nil => rfl
  | cons part parts ih => rw [List.map_cons, jsPart, jsFieldEntries, fieldEntries, ih, Utf16.scalars_ofChars]

theorem jsObjectBytes_map (parts : List (List Char × Bytes)) :
    jsObjectBytes ids (parts.map jsPart) = objectBytes (fun key => ids (Utf16.ofChars key)) parts := by
  have hdata : jsFieldData (parts.map jsPart) = fieldData parts := by
    rw [jsFieldData, fieldData, List.map_map]
    rfl
  rw [jsObjectBytes, objectBytes, jsFieldEntries_map, hdata]

mutual

theorem VariantTree.encode_js : ∀ t : VariantTree, t.js.encode ids = t.encode fun key => ids (Utf16.ofChars key)
  | .primitive p => by
    rw [VariantTree.js, JsTree.encode, VariantTree.encode]
  | .array elements => by
    rw [VariantTree.js, JsTree.encode, VariantTree.encode, jsEncodeElements_js elements]
  | .object fields => by
    rw [VariantTree.js, JsTree.encode, VariantTree.encode, jsEncodeFields_js fields, jsObjectBytes_map]

theorem jsEncodeElements_js : ∀ ts : List VariantTree,
    jsEncodeElements ids (jsElements ts) = encodeElements (fun key => ids (Utf16.ofChars key)) ts
  | [] => by
    rw [jsElements, jsEncodeElements, encodeElements]
  | t :: ts => by
    rw [jsElements, jsEncodeElements, encodeElements, t.encode_js, jsEncodeElements_js ts]

theorem jsEncodeFields_js : ∀ fs : List (List Char × VariantTree),
    jsEncodeFields ids (jsFields fs) = (encodeFields (fun key => ids (Utf16.ofChars key)) fs).map jsPart
  | [] => by
    rw [jsFields, jsEncodeFields, encodeFields, List.map_nil]
  | (key, t) :: fs => by
    rw [jsFields, jsEncodeFields, encodeFields, List.map_cons, t.encode_js, jsEncodeFields_js fs, jsPart]

end

end

theorem VariantTree.encoded_js (t : VariantTree) : t.js.encoded = t.encoded := by
  have hkeys : t.js.keys [] = (t.keys []).map Utf16.ofChars := t.keys_js []
  have hids : (fun key => ((t.keys []).map Utf16.ofChars).idxOf (Utf16.ofChars key)) = t.ids :=
    funext fun key => idxOf_map_ofChars (t.keys []) key
  have hbytes : jsKeyBytes ((t.keys []).map Utf16.ofChars) = t.dictionaryKeys := by
    rw [jsKeyBytes, VariantTree.dictionaryKeys, List.map_map]
    refine List.map_congr_left fun key _ => ?_
    show Utf8.encode (Utf16.scalars (Utf16.ofChars key)) = _
    rw [Utf16.scalars_ofChars]
  rw [JsTree.encoded, VariantTree.encoded, hkeys, t.encode_js, hids, hbytes]

/-- A tree of texts that is built from its strings is read back, where there is no mark to be dropped. -/
theorem VariantTree.reads_of_build_js {t : VariantTree} {sizeLimit maxArguments : Nat} {v : Variant}
    (h : t.js.build sizeLimit maxArguments = .ok v)
    (hwf : t.WellFormed) (hstrings : t.hasStrings = true) (hbom : t.NoBom) : v.Reads t.sorted := by
  obtain ⟨-, -, rfl, hsized⟩ := JsTree.build_eq_ok h
  have hvalue := hsized.value
  have hmeta := hsized.metadata
  rw [t.encoded_js] at hvalue hmeta ⊢
  have hreads := Variant.reads_encoded hwf hstrings ⟨hvalue, hmeta⟩
  rwa [(VariantTree.strip_eq_self_iff _).mpr ((t.noBom_sorted_iff).mpr hbom)] at hreads

end ConfluentKafka
