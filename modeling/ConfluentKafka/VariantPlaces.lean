import ConfluentKafka.JsEncode
import ConfluentKafka.VariantSearch

/-!
# Where values stand

The values of a tree that was built are found by navigation: an element by its index, a field by its
index among the fields in the order of the bytes of their keys. The tables of an object give the keys
as texts, and what the decoder of texts makes of them.
-/

namespace ConfluentKafka

open VariantFormat VariantBuilder

def jsFieldLe (f g : JsString × JsTree) : Prop :=
  keyLe (Utf8.encode (Utf16.scalars f.1)) (Utf8.encode (Utf16.scalars g.1))

instance : DecidableRel jsFieldLe := fun f g =>
  inferInstanceAs (Decidable (keyLe (Utf8.encode (Utf16.scalars f.1)) (Utf8.encode (Utf16.scalars g.1))))

instance : Std.Total jsFieldLe := ⟨fun _ _ => keyLe_total _ _⟩

instance : IsTrans (JsString × JsTree) jsFieldLe := ⟨fun _ _ _ => keyLe_trans⟩

/-! ## The fields with their offsets -/

def jsLayout (ids : JsString → Nat) : Nat → List (JsString × JsTree) → List (FieldEntry × (JsString × JsTree))
  | _, [] => []
  | offset, (key, t) :: fs =>
    (⟨Utf16.scalars key, ids key, offset⟩, (key, t)) :: jsLayout ids (offset + (t.encode ids).length) fs

def jsLayoutLe (l m : FieldEntry × (JsString × JsTree)) : Prop := entryLe l.1 m.1

instance : DecidableRel jsLayoutLe := fun l m => inferInstanceAs (Decidable (entryLe l.1 m.1))

section Layout

variable (ids : JsString → Nat)

theorem map_fst_jsLayout (offset : Nat) (fs : List (JsString × JsTree)) :
    (jsLayout ids offset fs).map Prod.fst = jsFieldEntries ids offset (jsEncodeFields ids fs) := by
  induction fs generalizing offset with
  | nil => rfl
  | cons f fs ih => rw [jsLayout, jsEncodeFields, jsFieldEntries, List.map_cons, ih]

theorem map_snd_jsLayout (offset : Nat) (fs : List (JsString × JsTree)) :
    (jsLayout ids offset fs).map Prod.snd = fs := by
  induction fs generalizing offset with
  | nil => rfl
  | cons f fs ih => rw [jsLayout, List.map_cons, ih]

theorem jsLayout_of_mem {offset : Nat} {fs : List (JsString × JsTree)} {l : FieldEntry × (JsString × JsTree)}
    (h : l ∈ jsLayout ids offset fs) : l.1.key = Utf16.scalars l.2.1 ∧ l.1.id = ids l.2.1 ∧ ∃ front back,
      jsFieldData (jsEncodeFields ids fs) = front ++ (l.2.2.encode ids ++ back) ∧ l.1.offset = offset +
        front.length := by
  induction fs generalizing offset with
  | nil => simp [jsLayout] at h
  | cons f fs ih =>
    rw [jsLayout, List.mem_cons] at h
    rw [jsEncodeFields, jsFieldData, List.map_cons, List.flatten_cons]
    rcases h with rfl | h
    · exact ⟨rfl, rfl, [], _, rfl, rfl⟩
    · obtain ⟨hkey, hid, front, back, hdata, hoffset⟩ := ih h
      refine ⟨hkey, hid, f.2.encode ids ++ front, back, ?_, ?_⟩
      · rw [jsFieldData] at hdata
        rw [hdata, List.append_assoc]
      · rw [hoffset, List.length_append, Nat.add_assoc]

theorem sort_fst_jsLayout (fs : List (JsString × JsTree)) :
    ((jsLayout ids 0 fs).insertionSort jsLayoutLe).map Prod.fst =
      (jsFieldEntries ids 0 (jsEncodeFields ids fs)).insertionSort entryLe := by
  rw [← map_fst_jsLayout]
  exact List.map_insertionSort jsLayoutLe entryLe Prod.fst _ fun _ _ _ _ => Iff.rfl

theorem sort_snd_jsLayout (fs : List (JsString × JsTree)) :
    ((jsLayout ids 0 fs).insertionSort jsLayoutLe).map Prod.snd = fs.insertionSort jsFieldLe := by
  conv_rhs => rw [← map_snd_jsLayout ids 0 fs]
  refine List.map_insertionSort jsLayoutLe jsFieldLe Prod.snd _ fun l hl m hm => ?_
  rw [jsLayoutLe, jsFieldLe, entryLe, (jsLayout_of_mem ids hl).1, (jsLayout_of_mem ids hm).1]

end Layout

/-! ## Lists of values -/

theorem jsEncodeElements_eq (ids : JsString → Nat) (ts : List JsTree) :
    jsEncodeElements ids ts = ts.map fun t => t.encode ids := by
  induction ts with
  | nil => rfl
  | cons t ts ih => rw [jsEncodeElements, ih, List.map_cons]

theorem jsElementsWellFormed_iff (ts : List JsTree) : jsElementsWellFormed ts ↔ ∀ t ∈ ts, t.WellFormed := by
  induction ts with
  | nil => simp [jsElementsWellFormed]
  | cons t ts ih => rw [jsElementsWellFormed, ih, List.forall_mem_cons]

theorem jsFieldsWellFormed_iff (fs : List (JsString × JsTree)) : jsFieldsWellFormed fs ↔ ∀ f ∈ fs,
    f.2.WellFormed := by
  induction fs with
  | nil => simp [jsFieldsWellFormed]
  | cons f fs ih => rw [jsFieldsWellFormed, ih, List.forall_mem_cons]

theorem jsElementKeys_of_mem {ts : List JsTree} {t : JsTree} (h : t ∈ ts) (keys : List JsString) :
    ∃ keys', t.keys keys' <+: jsElementKeys ts keys := by
  induction ts generalizing keys with
  | nil => simp at h
  | cons u ts ih =>
    rw [jsElementKeys]
    rcases List.mem_cons.mp h with rfl | h
    · exact ⟨keys, prefix_jsElementKeys ts _⟩
    · exact ih h _

theorem jsFieldKeys_of_mem {fs : List (JsString × JsTree)} {f : JsString × JsTree} (h : f ∈ fs)
    (keys : List JsString) :
    ∃ keys', f.2.keys keys' <+: jsFieldKeys fs keys := by
  induction fs generalizing keys with
  | nil => simp at h
  | cons g fs ih =>
    rw [jsFieldKeys]
    rcases List.mem_cons.mp h with rfl | h
    · exact ⟨_, prefix_jsFieldKeys fs _⟩
    · exact ih h _

theorem JsTree.encode_ne_nil {t : JsTree} (h : t.WellFormed) (ids : JsString → Nat) :
    0 < (t.encode ids).length := by
  cases t with
  | primitive p =>
    rw [JsTree.WellFormed] at h
    rw [JsTree.encode]
    cases p with
    | decimal unscaled scale =>
      obtain ⟨code, width, hcode⟩ := decimalCode_eq_ok h.2 h.1
      simp [Primitive.encode, hcode]
    | string s =>
      simp only [Primitive.encode]
      split <;> simp
    | _ => simp [Primitive.encode]
  | array ts => simp [JsTree.encode, arrayBytes, arrayHeader]
  | object fs => simp [JsTree.encode, jsObjectBytes, objectHeader]

theorem length_le_jsFieldData {fs : List (JsString × JsTree)} (h : ∀ f ∈ fs, f.2.WellFormed)
    (ids : JsString → Nat) :
    fs.length ≤ (jsFieldData (jsEncodeFields ids fs)).length := by
  induction fs with
  | nil => exact Nat.zero_le _
  | cons f fs ih =>
    have hfirst := JsTree.encode_ne_nil (h f List.mem_cons_self) ids
    have hrest := ih fun g hg => h g (List.mem_cons_of_mem _ hg)
    rw [jsFieldData] at hrest
    rw [jsEncodeFields, jsFieldData, List.map_cons, List.flatten_cons, List.length_append, List.length_cons]
    dsimp only
    omega

/-- The tables and the values of more than 2^30 fields are longer than an array can be. -/
theorem numFields_le {entries : List FieldEntry} {data : Bytes} (hdata : entries.length ≤ data.length)
    (hlen : (objectHeader entries data.length ++ data).length ≤ MAX_ARRAY_LENGTH) : entries.length ≤ 2 ^ 30 := by
  by_contra hmany
  have hwidth : integerSize data.length = 4 := by
    unfold integerSize
    rw [if_neg (by simp only [U8_MAX]; omega), if_neg (by simp only [U16_MAX]; omega),
      if_neg (by simp only [U24_MAX]; omega)]
    rfl
  have hids := Nat.le_mul_of_pos_left entries.length (integerSize_pos (entries.foldl (fun m f => max m f.id) 0))
  rw [objectHeader, List.length_append, List.length_cons, List.length_append, List.length_append,
    List.length_append,
    length_flatMap_of_width (fun f : FieldEntry => length_uintLE f.offset _),
    length_flatMap_of_width (fun f : FieldEntry => length_uintLE f.id _), hwidth] at hlen
  simp only [MAX_ARRAY_LENGTH] at hlen
  omega

/-! ## Arguments -/

theorem VariantBuilder.wellFormed_of_append {b b' : VariantBuilder} {p : Primitive} (h : b.append p = .ok b') :
    p.WellFormed := by
  have hfixed : ∀ {typeCode width : Nat} {value : Int}, b.appendFixedInt typeCode value width = .ok b' →
    FitsBytes width value := by
    intro typeCode width value h
    obtain ⟨b₁, -, h⟩ := bind_eq_ok h
    rw [writeFixedInt] at h
    by_contra hfits
    rw [if_pos hfits] at h
    cases h
  cases p with
  | byte value => exact hfixed h
  | short value => exact hfixed h
  | int value => exact hfixed h
  | long value => exact hfixed h
  | date value => exact hfixed h
  | time value => exact hfixed h
  | timestampTz value => exact hfixed h
  | timestampNtz value => exact hfixed h
  | timestampNanosTz value => exact hfixed h
  | timestampNanosNtz value => exact hfixed h
  | decimal unscaled scale =>
    obtain ⟨b₁, -, h⟩ := bind_eq_ok h
    rw [writeDecimalUnscaled, if_neg (by omega)] at h
    obtain ⟨_, -, h⟩ := bind_eq_ok h
    obtain ⟨code, hcode, -⟩ := bind_eq_ok h
    simp only [Primitive.WellFormed]
    unfold decimalCode at hcode
    by_contra hout
    rw [if_neg (by simp only [MAX_DECIMAL4_PRECISION]; omega),
      if_neg (by simp only [MAX_DECIMAL8_PRECISION]; omega),
      if_neg (by simp only [MAX_DECIMAL16_PRECISION]; omega)] at hcode
    cases hcode
  | uuid bytes =>
    obtain ⟨b₁, -, h⟩ := bind_eq_ok h
    rw [Primitive.WellFormed]
    by_contra hlen
    rw [if_pos hlen] at h
    cases h
  | _ => trivial

mutual

theorem JsBuilder.wellFormed_of_run : ∀ (t : JsTree) {b b' : JsBuilder}, b.run t.calls = .ok b' → t.WellFormed
  | .primitive p, b, b', h => by
    rw [JsTree.calls, JsBuilder.run_singleton, JsBuilder.call, JsBuilder.lift] at h
    rw [JsTree.WellFormed]
    cases happend : b.base.appendScalar p.scalar with
    | ok base =>
      rw [VariantBuilder.appendScalar_scalar] at happend
      exact VariantBuilder.wellFormed_of_append happend
    | error e =>
      rw [happend] at h
      cases h
  | .array elements, b, b', h => by
    rw [JsTree.calls, JsBuilder.run] at h
    rw [JsTree.WellFormed]
    obtain ⟨b₁, -, h⟩ := bind_eq_ok h
    rw [JsBuilder.run_append] at h
    obtain ⟨b₂, h, -⟩ := bind_eq_ok h
    exact JsBuilder.elementsWellFormed_of_run elements h
  | .object fields, b, b', h => by
    rw [JsTree.calls, JsBuilder.run] at h
    rw [JsTree.WellFormed]
    obtain ⟨b₁, -, h⟩ := bind_eq_ok h
    rw [JsBuilder.run_append] at h
    obtain ⟨b₂, h, -⟩ := bind_eq_ok h
    exact JsBuilder.fieldsWellFormed_of_run fields h

theorem JsBuilder.elementsWellFormed_of_run :
    ∀ (ts : List JsTree) {b b' : JsBuilder}, b.run (jsElementCalls ts) = .ok b' → jsElementsWellFormed ts
  | [], b, b', _ => by
    rw [jsElementsWellFormed]
    trivial
  | t :: ts, b, b', h => by
    rw [jsElementCalls, JsBuilder.run_append] at h
    rw [jsElementsWellFormed]
    obtain ⟨b₁, hfirst, hrest⟩ := bind_eq_ok h
    exact ⟨JsBuilder.wellFormed_of_run t hfirst, JsBuilder.elementsWellFormed_of_run ts hrest⟩

theorem JsBuilder.fieldsWellFormed_of_run :
    ∀ (fs : List (JsString × JsTree)) {b b' : JsBuilder}, b.run (jsFieldCalls fs) = .ok b' → jsFieldsWellFormed fs
  | [], b, b', _ => by
    rw [jsFieldsWellFormed]
    trivial
  | (key, t) :: fs, b, b', h => by
    rw [jsFieldCalls, JsBuilder.run] at h
    rw [jsFieldsWellFormed]
    obtain ⟨b₁, -, h⟩ := bind_eq_ok h
    rw [JsBuilder.run_append] at h
    obtain ⟨b₂, hfirst, hrest⟩ := bind_eq_ok h
    exact ⟨JsBuilder.wellFormed_of_run t hfirst, JsBuilder.fieldsWellFormed_of_run fs hrest⟩

end

theorem JsTree.build_eq_ok {t : JsTree} {sizeLimit maxArguments : Nat} {v : Variant}
    (h : t.build sizeLimit maxArguments = .ok v) :
    t.WellFormed ∧ t.hasStrings = true ∧ v = t.encoded ∧ t.Sized := by
  cases hstrings : t.hasStrings with
  | false =>
    rw [JsTree.build, hstrings] at h
    cases h
  | true =>
    have hrun := h
    rw [JsTree.build, hstrings] at hrun
    obtain ⟨b, hb, -⟩ := bind_eq_ok hrun
    have hwf := JsBuilder.wellFormed_of_run t hb
    have hbuild := JsTree.limited_build hwf hstrings sizeLimit maxArguments
    rw [h] at hbuild
    exact ⟨hwf, rfl, hbuild⟩

/-! ## Places -/

def decodedKeys (fs : List (JsString × JsTree)) : List (List Char) :=
  (fs.insertionSort jsFieldLe).map fun f => stripBom (Utf16.scalars f.1)

namespace Variant

/-- The encoding of a value of a tree stands here, with the keys of the whole tree. -/
structure HoldsJs (v : Variant) (keys : List JsString) (t : JsTree) : Prop where
  metadata : v.metadata = metadataBytes (jsKeyBytes keys)
  bytes : At v.value v.pos (t.encode fun key => keys.idxOf key)
  length_le : (t.encode fun key => keys.idxOf key).length ≤ MAX_ARRAY_LENGTH
  known : ∃ known, t.keys known <+: keys
  wellFormed : t.WellFormed
  strings : t.hasStrings = true

theorem HoldsJs.element {v : Variant} {keys : List JsString} {ts : List JsTree}
    (h : v.HoldsJs keys (.array ts)) {i : Nat}
    {t : JsTree} (ht : ts[i]? = some t) : ∃ c, v.getElementAtIndex i = .ok (some c) ∧ c.HoldsJs keys t := by
  have hbytes := h.bytes
  have hlen := h.length_le
  rw [JsTree.encode, jsEncodeElements_eq, arrayBytes] at hbytes hlen
  obtain ⟨segs, hsegs⟩ : ∃ segs, segs = ts.map fun t => t.encode fun key => keys.idxOf key := ⟨_, rfl⟩
  rw [← hsegs] at hbytes hlen
  have hcount := length_le_arrayHeader (runningOffsets 0 segs) segs.flatten.length
  rw [List.length_append] at hlen
  simp only [MAX_ARRAY_LENGTH] at hlen
  obtain ⟨info, hinfo⟩ := arrayAt_of_at hbytes (by omega)
  have hseg : segs[i]? = some (t.encode fun key => keys.idxOf key) := by rw [hsegs, List.getElem?_map, ht]; rfl
  have hi : i < segs.length := (List.getElem?_eq_some_iff.mp hseg).choose
  have hin := ((at_self segs.flatten).segment hseg).le
  have hget := getElementAtIndex_of_at h.metadata hinfo (by omega) (getElem?_runningOffsets hi 0) (by omega)
  rw [Nat.zero_add] at hget
  have hmem := List.mem_of_getElem? ht
  have hwf := h.wellFormed
  rw [JsTree.WellFormed, jsElementsWellFormed_iff] at hwf
  obtain ⟨known, hknown⟩ := h.known
  rw [JsTree.keys] at hknown
  obtain ⟨known', hknown'⟩ := jsElementKeys_of_mem hmem known
  have hstrings := h.strings
  rw [JsTree.hasStrings, jsElementsHaveStrings_iff] at hstrings
  refine ⟨_, hget, h.metadata, hinfo.data.segment hseg, ?_, ⟨known', hknown'.trans hknown⟩, hwf t hmem,
    hstrings t hmem⟩
  simp only [MAX_ARRAY_LENGTH]
  omega

/-- What the tables of an object say: the decoded keys, and where each value stands. -/
structure FieldsJs (v : Variant) (keys : List JsString) (fs : List (JsString × JsTree)) (info : ObjectInfo)
    (view : List (List Char × Variant)) : Prop where
  tables : v.ObjectView info view
  decoded : view.map Prod.fst = decodedKeys fs
  children : (view.map Prod.snd).Nodup
  length_le : view.length ≤ 2 ^ 30
  field : ∀ (i : Nat) (f : JsString × JsTree), (fs.insertionSort jsFieldLe)[i]? = some f →
    ∃ c, view[i]? = some (stripBom (Utf16.scalars f.1), c) ∧ c.HoldsJs keys f.2

theorem nodup_offsets {ids : JsString → Nat} {fs : List (JsString × JsTree)} (h : ∀ f ∈ fs, f.2.WellFormed)
    (offset : Nat) :
    ((jsLayout ids offset fs).map fun l => l.1.offset).Nodup ∧ ∀ l ∈ jsLayout ids offset fs,
      offset ≤ l.1.offset := by
  induction fs generalizing offset with
  | nil => simp [jsLayout]
  | cons f fs ih =>
    have hpos := JsTree.encode_ne_nil (h f List.mem_cons_self) ids
    obtain ⟨hnodup, hle⟩ := ih (fun g hg => h g (List.mem_cons_of_mem _ hg)) (offset + (f.2.encode ids).length)
    rw [jsLayout, List.map_cons, List.nodup_cons]
    refine ⟨⟨fun hmem => ?_, hnodup⟩, fun l hl => ?_⟩
    · obtain ⟨l, hl, heq⟩ := List.mem_map.mp hmem
      have := hle l hl
      dsimp only at heq
      omega
    · rcases List.mem_cons.mp hl with rfl | hl
      · exact Nat.le_refl _
      · have := hle l hl
        omega

theorem HoldsJs.fields {v : Variant} {keys : List JsString} (hkeys : (metadataBytes (jsKeyBytes keys)).length ≤
    MAX_ARRAY_LENGTH)
    {fs : List (JsString × JsTree)} (h : v.HoldsJs keys (.object fs)) : ∃ info view,
      v.FieldsJs keys fs info view := by
  have hbytes := h.bytes
  have hlen := h.length_le
  have hwf := h.wellFormed
  obtain ⟨known, hknown⟩ := h.known
  rw [JsTree.WellFormed, jsFieldsWellFormed_iff] at hwf
  rw [JsTree.keys] at hknown
  rw [JsTree.encode, jsObjectBytes, ← sort_fst_jsLayout] at hbytes hlen
  obtain ⟨l, hl⟩ : ∃ l, l = (jsLayout (fun key => keys.idxOf key) 0 fs).insertionSort jsLayoutLe := ⟨_, rfl⟩
  rw [← hl] at hbytes hlen
  obtain ⟨data, hdata⟩ : ∃ data, data = jsFieldData (jsEncodeFields (fun key => keys.idxOf key) fs) := ⟨_, rfl⟩
  rw [← hdata] at hbytes hlen
  have hsnd : l.map Prod.snd = fs.insertionSort jsFieldLe := by rw [hl, sort_snd_jsLayout]
  have hlength : l.length = fs.length := by rw [← List.length_map Prod.snd, hsnd, List.length_insertionSort]
  have hnum := numFields_le (by rw [List.length_map, hlength, hdata]; exact length_le_jsFieldData hwf _) hlen
  rw [List.length_map] at hnum
  rw [List.length_append] at hlen
  simp only [MAX_ARRAY_LENGTH] at hlen
  obtain ⟨info, hinfo⟩ := objectAt_of_at hbytes (by rw [List.length_map]; omega)
  -- what the list of the fields with their offsets says of each of them
  have hfield : ∀ e ∈ l, e.2 ∈ fs ∧ e.1.key = Utf16.scalars e.2.1 ∧ e.1.id = keys.idxOf e.2.1 ∧ ∃ front back,
      data = front ++ (e.2.2.encode (fun key => keys.idxOf key) ++ back) ∧ e.1.offset = front.length := by
    intro e he
    rw [hl, List.mem_insertionSort] at he
    obtain ⟨hkey, hid, front, back, hfront, hoffset⟩ := jsLayout_of_mem _ he
    rw [Nat.zero_add] at hoffset
    refine ⟨?_, hkey, hid, front, back, by rw [hdata, hfront], hoffset⟩
    have := List.mem_map_of_mem (f := Prod.snd) he
    rwa [map_snd_jsLayout] at this
  have hmem : ∀ f ∈ fs, f.1 ∈ keys := fun f hf =>
    hknown.subset (JsBuilder.mem_jsFieldKeys fs known f.1 (List.mem_map_of_mem hf))
  have hsmall : keys.length < 2 ^ 32 := by
    have hpos := Nat.le_mul_of_pos_right ((jsKeyBytes keys).length + 2)
      (integerSize_pos (max (totalLength (jsKeyBytes keys)) (jsKeyBytes keys).length))
    rw [length_metadataBytes] at hkeys
    have hmap : (jsKeyBytes keys).length = keys.length := List.length_map _
    rw [hmap] at hpos hkeys
    simp only [MAX_ARRAY_LENGTH] at hkeys
    omega
  have hstrings := h.strings
  rw [JsTree.hasStrings, jsFieldsHaveStrings_iff] at hstrings
  have hids : ∀ f ∈ l.map Prod.fst,
      f.id < 2 ^ 32 ∧ (jsKeyBytes keys)[f.id]? = some (Utf8.encode f.key) ∧ IsString f.key := by
    intro f hf
    obtain ⟨e, he, rfl⟩ := List.mem_map.mp hf
    obtain ⟨hin, hkey, hid, -⟩ := hfield e he
    have hlt := List.idxOf_lt_length_of_mem (hmem _ hin)
    refine ⟨by rw [hid]; exact hlt.trans hsmall, ?_, by rw [hkey]; exact (hstrings _ hin).1⟩
    rw [hid, hkey, jsKeyBytes, List.getElem?_map, List.getElem?_eq_getElem hlt]
    simp
  have hle : ∀ f ∈ l.map Prod.fst, f.offset ≤ data.length := by
    intro f hf
    obtain ⟨e, he, rfl⟩ := List.mem_map.mp hf
    obtain ⟨-, -, -, front, back, hfront, hoffset⟩ := hfield e he
    rw [hfront, List.length_append, hoffset]
    omega
  refine ⟨info, _, objectView_of_at h.metadata hkeys hinfo hids (by omega) hle, ?_, ?_, ?_, ?_⟩
  · rw [decodedKeys, ← hsnd, List.map_map, List.map_map, List.map_map]
    refine List.map_congr_left fun e he => ?_
    show stripBom e.1.key = _
    rw [(hfield e he).2.1]
    rfl
  · have hoffsets : (l.map fun e => e.1.offset).Nodup := by
      rw [hl, ((List.perm_insertionSort jsLayoutLe _).map _).nodup_iff]
      exact (nodup_offsets hwf 0).1
    rw [List.map_map, List.map_map]
    refine List.Nodup.of_map (fun c : Variant => (c.pos - info.dataStart).toNat) ?_
    rw [List.map_map]
    have hpos : (l.map ((fun c : Variant => (c.pos - info.dataStart).toNat) ∘ (Prod.snd ∘ fun f : FieldEntry =>
        (stripBom f.key, (⟨v.value, v.metadata, info.dataStart + f.offset⟩ : Variant))) ∘ Prod.fst)) =
        l.map fun e => e.1.offset := by
      refine List.map_congr_left fun e _ => ?_
      show (info.dataStart + e.1.offset - info.dataStart).toNat = e.1.offset
      omega
    rw [hpos]
    exact hoffsets
  · rw [List.length_map, List.length_map]
    exact hnum
  · intro i f hf
    rw [← hsnd, List.getElem?_map, Option.map_eq_some_iff] at hf
    obtain ⟨e, he, rfl⟩ := hf
    obtain ⟨hin, hkey, hid, front, back, hfront, hoffset⟩ := hfield e (List.mem_of_getElem? he)
    refine ⟨⟨v.value, v.metadata, info.dataStart + e.1.offset⟩, ?_, h.metadata, ?_, ?_, ?_, hwf _ hin,
      (hstrings _ hin).2⟩
    · rw [List.getElem?_map, List.getElem?_map, he, ← hkey]
      rfl
    · have := hinfo.data
      rw [hfront] at this
      rw [hoffset]
      exact this.right.left
    · have hdataLength : data.length = front.length + ((e.2.2.encode fun key => keys.idxOf key).length +
        back.length) := by
        rw [hfront, List.length_append, List.length_append]
      simp only [MAX_ARRAY_LENGTH]
      omega
    · obtain ⟨known', hknown'⟩ := jsFieldKeys_of_mem hin known
      exact ⟨known', hknown'.trans hknown⟩

end Variant

end ConfluentKafka
