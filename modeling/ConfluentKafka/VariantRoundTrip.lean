import ConfluentKafka.VariantDecode

/-!
# Building and reading

A tree that was built is read back with the fields of its objects in order, but for the byte
order mark at the front of a string or of a key, which the decoder of texts drops. Each value is
found where the offsets of its container say, so the reading follows the tree; for an object this
goes by the list of its fields with their offsets, which is sorted as the builder sorts it.
-/

namespace ConfluentKafka

open VariantFormat

/-! ## Trees -/

theorem sizeOf_lt_of_mem_fields {fs : List (List Char × VariantTree)} {f : List Char × VariantTree} (h : f ∈ fs) :
    sizeOf f.2 < sizeOf fs := by
  have hlt := List.sizeOf_lt_of_mem h
  obtain ⟨key, t⟩ := f
  rw [Prod.mk.sizeOf_spec] at hlt
  dsimp only
  omega

@[elab_as_elim]
theorem VariantTree.induct_mem {P : VariantTree → Prop} (primitive : ∀ p, P (.primitive p))
    (array : ∀ ts : List VariantTree, (∀ t ∈ ts, P t) → P (.array ts))
    (object : ∀ fs : List (List Char × VariantTree), (∀ f ∈ fs, P f.2) → P (.object fs)) : ∀ t, P t
  | .primitive p => primitive p
  | .array ts => array ts fun t _ => VariantTree.induct_mem primitive array object t
  | .object fs => object fs fun f _ => VariantTree.induct_mem primitive array object f.2
termination_by t => sizeOf t
decreasing_by
  · next ht =>
    have := List.sizeOf_lt_of_mem ht
    rw [VariantTree.array.sizeOf_spec]
    omega
  · next hf =>
    have := sizeOf_lt_of_mem_fields hf
    rw [VariantTree.object.sizeOf_spec]
    omega

mutual

def VariantTree.strip : VariantTree → VariantTree
  | .primitive p => .primitive p.strip
  | .array elements => .array (stripElements elements)
  | .object fields => .object (stripFields fields)

def stripElements : List VariantTree → List VariantTree
  | [] => []
  | t :: ts => t.strip :: stripElements ts

def stripFields : List (List Char × VariantTree) → List (List Char × VariantTree)
  | [] => []
  | (key, t) :: fs => (stripBom key, t.strip) :: stripFields fs

end

section Lists

theorem encodeElements_eq (ids : List Char → Nat) (ts : List VariantTree) :
    encodeElements ids ts = ts.map fun t => t.encode ids := by
  induction ts with
  | nil => rfl
  | cons t ts ih => rw [encodeElements, ih, List.map_cons]

theorem sortedElements_eq (ts : List VariantTree) : sortedElements ts = ts.map VariantTree.sorted := by
  induction ts with
  | nil => rfl
  | cons t ts ih => rw [sortedElements, ih, List.map_cons]

theorem sortedFields_eq (fs : List (List Char × VariantTree)) : sortedFields fs = fs.map fun f =>
    (f.1, f.2.sorted) := by
  induction fs with
  | nil => rfl
  | cons f fs ih => rw [sortedFields, ih, List.map_cons]

theorem stripElements_eq (ts : List VariantTree) : stripElements ts = ts.map VariantTree.strip := by
  induction ts with
  | nil => rfl
  | cons t ts ih => rw [stripElements, ih, List.map_cons]

theorem stripFields_eq (fs : List (List Char × VariantTree)) : stripFields fs = fs.map fun f =>
    (stripBom f.1, f.2.strip) := by
  induction fs with
  | nil => rfl
  | cons f fs ih => rw [stripFields, ih, List.map_cons]

theorem elementsWellFormed_iff (ts : List VariantTree) : elementsWellFormed ts ↔ ∀ t ∈ ts, t.WellFormed := by
  induction ts with
  | nil => simp [elementsWellFormed]
  | cons t ts ih => rw [elementsWellFormed, ih, List.forall_mem_cons]

theorem fieldsWellFormed_iff (fs : List (List Char × VariantTree)) : fieldsWellFormed fs ↔ ∀ f ∈ fs,
    f.2.WellFormed := by
  induction fs with
  | nil => simp [fieldsWellFormed]
  | cons f fs ih => rw [fieldsWellFormed, ih, List.forall_mem_cons]

theorem elementsNoBom_iff (ts : List VariantTree) : elementsNoBom ts ↔ ∀ t ∈ ts, t.NoBom := by
  induction ts with
  | nil => simp [elementsNoBom]
  | cons t ts ih => rw [elementsNoBom, ih, List.forall_mem_cons]

theorem fieldsNoBom_iff (fs : List (List Char × VariantTree)) :
    fieldsNoBom fs ↔ ∀ f ∈ fs, ¬StartsWithBom f.1 ∧ f.2.NoBom := by
  induction fs with
  | nil => simp [fieldsNoBom]
  | cons f fs ih => rw [fieldsNoBom, ih, List.forall_mem_cons, and_assoc]

theorem elementKeys_of_mem {ts : List VariantTree} {t : VariantTree} (h : t ∈ ts) (keys : List (List Char)) :
    ∃ keys', t.keys keys' <+: elementKeys ts keys := by
  induction ts generalizing keys with
  | nil => simp at h
  | cons u ts ih =>
    rw [elementKeys]
    rcases List.mem_cons.mp h with rfl | h
    · exact ⟨keys, prefix_elementKeys ts _⟩
    · exact ih h _

theorem fieldKeys_of_mem {fs : List (List Char × VariantTree)} {f : List Char × VariantTree} (h : f ∈ fs)
    (keys : List (List Char)) : ∃ keys', f.2.keys keys' <+: fieldKeys fs keys := by
  induction fs generalizing keys with
  | nil => simp at h
  | cons g fs ih =>
    rw [fieldKeys]
    rcases List.mem_cons.mp h with rfl | h
    · exact ⟨_, prefix_fieldKeys fs _⟩
    · exact ih h _

end Lists

/-! ## The fields with their offsets -/

def layout (ids : List Char → Nat) : Nat → List (List Char × VariantTree) → List (FieldEntry × VariantTree)
  | _, [] => []
  | offset, (key, t) :: fs => (⟨key, ids key, offset⟩, t) :: layout ids (offset + (t.encode ids).length) fs

def layoutLe (l m : FieldEntry × VariantTree) : Prop := entryLe l.1 m.1

instance : DecidableRel layoutLe := fun l m => inferInstanceAs (Decidable (entryLe l.1 m.1))

section LayoutList

variable (ids : List Char → Nat)

theorem map_fst_layout (offset : Nat) (fs : List (List Char × VariantTree)) :
    (layout ids offset fs).map Prod.fst = fieldEntries ids offset (encodeFields ids fs) := by
  induction fs generalizing offset with
  | nil => rfl
  | cons f fs ih => rw [layout, encodeFields, fieldEntries, List.map_cons, ih]

theorem map_field_layout (offset : Nat) (fs : List (List Char × VariantTree)) :
    (layout ids offset fs).map (fun l => (l.1.key, l.2)) = fs := by
  induction fs generalizing offset with
  | nil => rfl
  | cons f fs ih => rw [layout, List.map_cons, ih]

theorem layout_of_mem {offset : Nat} {fs : List (List Char × VariantTree)} {l : FieldEntry × VariantTree}
    (h : l ∈ layout ids offset fs) : l.1.id = ids l.1.key ∧ ∃ front back,
      fieldData (encodeFields ids fs) = front ++ (l.2.encode ids ++ back) ∧ l.1.offset = offset + front.length := by
  induction fs generalizing offset with
  | nil => simp [layout] at h
  | cons f fs ih =>
    rw [layout, List.mem_cons] at h
    rw [encodeFields, fieldData, List.map_cons, List.flatten_cons]
    rcases h with rfl | h
    · exact ⟨rfl, [], _, rfl, rfl⟩
    · obtain ⟨hid, front, back, hdata, hoffset⟩ := ih h
      refine ⟨hid, f.2.encode ids ++ front, back, ?_, ?_⟩
      · rw [fieldData] at hdata
        rw [hdata, List.append_assoc]
      · rw [hoffset, List.length_append, Nat.add_assoc]

theorem sort_map_fst_layout (fs : List (List Char × VariantTree)) :
    ((layout ids 0 fs).insertionSort layoutLe).map Prod.fst =
      (fieldEntries ids 0 (encodeFields ids fs)).insertionSort entryLe := by
  rw [← map_fst_layout]
  exact List.map_insertionSort layoutLe entryLe Prod.fst _ fun _ _ _ _ => Iff.rfl

theorem sort_map_layout (fs : List (List Char × VariantTree)) :
    stripFields ((sortedFields fs).insertionSort fieldLe) =
      ((layout ids 0 fs).insertionSort layoutLe).map fun l => (stripBom l.1.key, l.2.sorted.strip) := by
  have hsort : (sortedFields fs).insertionSort fieldLe =
      ((layout ids 0 fs).insertionSort layoutLe).map fun l => (l.1.key, l.2.sorted) := by
    rw [List.map_insertionSort layoutLe fieldLe (fun l : FieldEntry × VariantTree => (l.1.key, l.2.sorted)) _
      fun _ _ _ _ => Iff.rfl]
    have hfields := map_field_layout ids 0 fs
    have hmap : (layout ids 0 fs).map (fun l => (l.1.key, l.2.sorted)) =
        ((layout ids 0 fs).map fun l => (l.1.key, l.2)).map fun f => (f.1, f.2.sorted) := by
      rw [List.map_map]
      rfl
    rw [hmap, hfields, sortedFields_eq]
  rw [hsort, stripFields_eq, List.map_map]
  rfl

end LayoutList

/-! ## Reading back -/

theorem length_le_arrayHeader (offsets : List Nat) (dataSize : Nat) :
    offsets.length ≤ (VariantBuilder.arrayHeader offsets dataSize).length := by
  have hpos := Nat.le_mul_of_pos_left offsets.length (integerSize_pos dataSize)
  rw [VariantBuilder.arrayHeader, List.length_cons, List.length_append, List.length_append,
    length_flatMap_of_width (fun o => length_uintLE o _)]
  omega

theorem length_le_objectHeader (fields : List FieldEntry) (dataSize : Nat) :
    fields.length ≤ (VariantBuilder.objectHeader fields dataSize).length := by
  have hpos := Nat.le_mul_of_pos_left fields.length (integerSize_pos dataSize)
  rw [VariantBuilder.objectHeader, List.length_cons, List.length_append, List.length_append, List.length_append,
    length_flatMap_of_width (fun f : FieldEntry => length_uintLE f.offset _)]
  omega

namespace Variant

theorem parts_eq_ok {α : Type} {part : Nat → Option (Except VariantFault α)} (l : List α) (i : Nat)
    (h : ∀ j a, l[j]? = some a → part (i + j) = some (.ok a)) : parts part i l.length = some (.ok l) := by
  induction l generalizing i with
  | nil => rfl
  | cons a l ih =>
    have hrest : ∀ j b, l[j]? = some b → part (i + 1 + j) = some (.ok b) := by
      intro j b hj
      rw [Nat.add_assoc, Nat.add_comm 1 j]
      exact h (j + 1) b (by simpa using hj)
    have hfirst : part i = some (.ok a) := h 0 a rfl
    rw [List.length_cons, parts, hfirst, ih _ hrest]

/-- Where the encoding of a tree stands, with the keys it was encoded with. -/
structure Holds (v : Variant) (keys : List (List Char)) (t : VariantTree) : Prop where
  metadata : v.metadata = VariantBuilder.metadataBytes (keys.map Utf8.encode)
  bytes : At v.value v.pos (t.encode fun key => keys.idxOf key)
  length_le : (t.encode fun key => keys.idxOf key).length ≤ MAX_ARRAY_LENGTH
  strings : t.hasStrings = true

section Read

variable {keys : List (List Char)} (hkeys : (VariantBuilder.metadataBytes (keys.map Utf8.encode)).length ≤
  MAX_ARRAY_LENGTH)

theorem readTree_primitive {v : Variant} {p : Primitive} (h : v.Holds keys (.primitive p)) (hp : p.WellFormed)
    (fuel : Nat) :
    readTree (fuel + 1) v = some (.ok (.primitive p.strip)) := by
  have hbytes := h.bytes
  have hlen := h.length_le
  rw [VariantTree.encode] at hbytes hlen
  have hstrings := h.strings
  rw [VariantTree.hasStrings] at hstrings
  obtain ⟨t, ht⟩ := readsPrimitive hbytes hp (Nat.lt_of_le_of_lt hlen (by decide)) hstrings
  rw [readTree, ht.type]
  have hread : some ((v.readPrimitive t).map VariantTree.primitive) = some (.ok (.primitive p.strip)) := by
    rw [ht.read]
    rfl
  split
  · next heq => cases heq
  · next heq =>
    cases heq
    exact absurd rfl ht.not_object
  · next heq =>
    cases heq
    exact absurd rfl ht.not_array
  · next heq =>
    cases heq
    exact hread

theorem readTree_array {v : Variant} {ts : List VariantTree} (h : v.Holds keys (.array ts)) {fuel : Nat}
    (ih : ∀ t ∈ ts, ∀ u : Variant, u.Holds keys t → readTree fuel u = some (.ok t.sorted.strip)) :
    readTree (fuel + 1) v = some (.ok (VariantTree.array ts).sorted.strip) := by
  have hbytes := h.bytes
  have hlen := h.length_le
  rw [VariantTree.encode, encodeElements_eq, arrayBytes] at hbytes hlen
  obtain ⟨segs, hsegs⟩ : ∃ segs, segs = ts.map fun t => t.encode fun key => keys.idxOf key := ⟨_, rfl⟩
  rw [← hsegs] at hbytes hlen
  have hcount := length_le_arrayHeader (runningOffsets 0 segs) segs.flatten.length
  rw [List.length_append] at hlen
  simp only [MAX_ARRAY_LENGTH] at hlen
  obtain ⟨info, hinfo⟩ := arrayAt_of_at hbytes (by omega)
  have hnum : v.numArrayElements = .ok (ts.map fun t => t.sorted.strip).length := by
    rw [numArrayElements, hinfo.eq]
    refine congrArg Except.ok ?_
    rw [hinfo.numFields, length_runningOffsets, hsegs, List.length_map, List.length_map]
  rw [readTree, hinfo.type]
  dsimp only
  rw [hnum]
  dsimp only
  rw [parts_eq_ok (ts.map fun t => t.sorted.strip)]
  · rw [VariantTree.sorted, VariantTree.strip, sortedElements_eq, stripElements_eq, List.map_map]
    rfl
  · intro i u hi
    rw [List.getElem?_map, Option.map_eq_some_iff] at hi
    obtain ⟨t, ht, rfl⟩ := hi
    have hseg : segs[i]? = some (t.encode fun key => keys.idxOf key) := by rw [hsegs, List.getElem?_map, ht]; rfl
    have hi' : i < segs.length := (List.getElem?_eq_some_iff.mp hseg).choose
    have hin := ((at_self segs.flatten).segment hseg).le
    have hget := getElementAtIndex_of_at h.metadata hinfo (by omega) (getElem?_runningOffsets hi' 0) (by omega)
    rw [Nat.zero_add] at hget ⊢
    rw [hget]
    have hstrings := h.strings
    rw [VariantTree.hasStrings, elementsHaveStrings_iff] at hstrings
    have hmem := List.mem_of_getElem? ht
    refine ih t hmem _ ⟨h.metadata, hinfo.data.segment hseg, ?_, hstrings t hmem⟩
    simp only [MAX_ARRAY_LENGTH]
    omega

include hkeys in
theorem readTree_object {v : Variant} {fs : List (List Char × VariantTree)} (h : v.Holds keys (.object fs))
    (hmem : ∀ f ∈ fs, f.1 ∈ keys) {fuel : Nat}
    (ih : ∀ f ∈ fs, ∀ u : Variant, u.Holds keys f.2 → readTree fuel u = some (.ok f.2.sorted.strip)) :
    readTree (fuel + 1) v = some (.ok (VariantTree.object fs).sorted.strip) := by
  have hbytes := h.bytes
  have hlen := h.length_le
  rw [VariantTree.encode, objectBytes, ← sort_map_fst_layout] at hbytes hlen
  obtain ⟨l, hl⟩ : ∃ l, l = (layout (fun key => keys.idxOf key) 0 fs).insertionSort layoutLe := ⟨_, rfl⟩
  rw [← hl] at hbytes hlen
  obtain ⟨data, hdata⟩ : ∃ data, data = fieldData (encodeFields (fun key => keys.idxOf key) fs) := ⟨_, rfl⟩
  rw [← hdata] at hbytes hlen
  have hcount := length_le_objectHeader (l.map Prod.fst) data.length
  rw [List.length_append] at hlen
  simp only [MAX_ARRAY_LENGTH] at hlen
  obtain ⟨info, hinfo⟩ := objectAt_of_at hbytes (by omega)
  -- what the list of the fields with their offsets says of each of them
  have hfield : ∀ e ∈ l, (e.1.key, e.2) ∈ fs ∧ e.1.id = keys.idxOf e.1.key ∧ ∃ front back,
      data = front ++ (e.2.encode (fun key => keys.idxOf key) ++ back) ∧ e.1.offset = front.length := by
    intro e he
    rw [hl, List.mem_insertionSort] at he
    obtain ⟨hid, front, back, hfront, hoffset⟩ := layout_of_mem _ he
    rw [Nat.zero_add] at hoffset
    refine ⟨?_, hid, front, back, by rw [hdata, hfront], hoffset⟩
    have := List.mem_map_of_mem (f := fun l : FieldEntry × VariantTree => (l.1.key, l.2)) he
    rwa [map_field_layout] at this
  have hsmall : keys.length < 2 ^ 32 := by
    have hpos := Nat.le_mul_of_pos_right ((keys.map Utf8.encode).length + 2)
      (integerSize_pos (max (VariantBuilder.totalLength (keys.map Utf8.encode)) (keys.map Utf8.encode).length))
    rw [VariantBuilder.length_metadataBytes] at hkeys
    rw [List.length_map] at hpos hkeys
    simp only [MAX_ARRAY_LENGTH] at hkeys
    omega
  have hids : ∀ f ∈ l.map Prod.fst, f.id < 2 ^ 32 := by
    intro f hf
    obtain ⟨e, he, rfl⟩ := List.mem_map.mp hf
    obtain ⟨hin, hid, -⟩ := hfield e he
    rw [hid]
    exact (List.idxOf_lt_length_of_mem (hmem _ hin)).trans hsmall
  have hstrings := h.strings
  rw [VariantTree.hasStrings, fieldsHaveStrings_iff] at hstrings
  have hnum : v.numObjectFields = .ok (l.map fun e => (stripBom e.1.key, e.2.sorted.strip)).length := by
    rw [numObjectFields, hinfo.eq]
    refine congrArg Except.ok ?_
    rw [hinfo.numFields, List.length_map, List.length_map]
  rw [readTree, hinfo.type]
  dsimp only
  rw [hnum]
  dsimp only
  rw [parts_eq_ok (l.map fun e => (stripBom e.1.key, e.2.sorted.strip))]
  · rw [VariantTree.sorted, VariantTree.strip, sort_map_layout fun key => keys.idxOf key, ← hl]
    rfl
  · intro i u hi
    rw [List.getElem?_map, Option.map_eq_some_iff] at hi
    obtain ⟨e, he, rfl⟩ := hi
    obtain ⟨hin, hid, front, back, hfront, hoffset⟩ := hfield e (List.mem_of_getElem? he)
    have hlook : (keys.map Utf8.encode)[e.1.id]? = some (Utf8.encode e.1.key) := by
      have hlt := List.idxOf_lt_length_of_mem (hmem _ hin)
      rw [hid, List.getElem?_map, List.getElem?_eq_getElem hlt]
      simp
    have hentry : (l.map Prod.fst)[i]? = some e.1 := by rw [List.getElem?_map, he]; rfl
    have hle : data.length = front.length + ((e.2.encode fun key => keys.idxOf key).length + back.length) := by
      rw [hfront, List.length_append, List.length_append]
    have hget := getFieldAtIndex_of_at h.metadata hkeys hinfo hids (by omega) hentry (by omega) hlook
      (hstrings _ hin).1
    have hchild : At v.value (info.dataStart + e.1.offset) (e.2.encode fun key => keys.idxOf key) := by
      have := hinfo.data
      rw [hfront] at this
      rw [hoffset]
      exact this.right.left
    have hu : Holds ⟨v.value, v.metadata, info.dataStart + e.1.offset⟩ keys e.2 := by
      refine ⟨h.metadata, hchild, ?_, (hstrings _ hin).2⟩
      simp only [MAX_ARRAY_LENGTH]
      omega
    rw [Nat.zero_add, hget]
    dsimp only
    rw [ih _ hin _ hu]
    rfl

include hkeys in
theorem readTree_of_holds (t : VariantTree) : ∀ {v : Variant} {known : List (List Char)} {fuel : Nat},
    t.WellFormed →
    t.keys known <+: keys → v.Holds keys t → sizeOf t < fuel → readTree fuel v = some (.ok t.sorted.strip) := by
  induction t using VariantTree.induct_mem with
  | primitive p =>
    intro v known fuel hwf _ h hfuel
    cases fuel with
    | zero => omega
    | succ fuel =>
      rw [VariantTree.WellFormed] at hwf
      exact readTree_primitive h hwf fuel
  | array ts ih =>
    intro v known fuel hwf hknown h hfuel
    rw [VariantTree.WellFormed, elementsWellFormed_iff] at hwf
    rw [VariantTree.keys] at hknown
    rw [VariantTree.array.sizeOf_spec] at hfuel
    cases fuel with
    | zero => omega
    | succ fuel =>
      refine readTree_array h fun t ht u hu => ?_
      obtain ⟨known', hknown'⟩ := elementKeys_of_mem ht known
      have hlt := List.sizeOf_lt_of_mem ht
      exact ih t ht (hwf t ht) (hknown'.trans hknown) hu (by omega)
  | object fs ih =>
    intro v known fuel hwf hknown h hfuel
    rw [VariantTree.WellFormed, fieldsWellFormed_iff] at hwf
    rw [VariantTree.keys] at hknown
    rw [VariantTree.object.sizeOf_spec] at hfuel
    cases fuel with
    | zero => omega
    | succ fuel =>
      have hmem : ∀ f ∈ fs, f.1 ∈ keys := fun f hf =>
        hknown.subset (VariantBuilder.mem_fieldKeys fs known f.1 (List.mem_map_of_mem hf))
      refine readTree_object hkeys h hmem fun f hf u hu => ?_
      obtain ⟨known', hknown'⟩ := fieldKeys_of_mem hf known
      have hlt := sizeOf_lt_of_mem_fields hf
      exact ih f hf (hwf.2 f hf) (hknown'.trans hknown) hu (by omega)

end Read

theorem reads_encoded {t : VariantTree} (hwf : t.WellFormed) (hstrings : t.hasStrings = true) (h : t.Sized) :
    t.encoded.Reads t.sorted.strip := by
  refine ⟨sizeOf t + 1, fun fuel hfuel => ?_⟩
  exact readTree_of_holds h.metadata t hwf (List.prefix_refl _) ⟨rfl, at_self _, h.value, hstrings⟩ (by omega)

theorem Reads.unique {v : Variant} {t t' : VariantTree} (h : v.Reads t) (h' : v.Reads t') : t = t' := by
  obtain ⟨n, hn⟩ := h
  obtain ⟨n', hn'⟩ := h'
  have he := (hn (max n n') (Nat.le_max_left _ _)).symm.trans (hn' (max n n') (Nat.le_max_right _ _))
  simpa using he

end Variant

/-! ## Marks -/

theorem stripBom_eq_self_iff (s : List Char) : stripBom s = s ↔ ¬StartsWithBom s := by
  cases s with
  | nil => simp [stripBom, StartsWithBom]
  | cons c cs =>
    by_cases hc : c = BOM
    · have hne : cs ≠ BOM :: cs := fun h => by simpa using congrArg List.length h
      simp [stripBom, StartsWithBom, hc, hne]
    · simp [stripBom, StartsWithBom, hc]

theorem Primitive.strip_eq_self_iff (p : Primitive) : p.strip = p ↔ p.NoBom := by
  cases p with
  | string s =>
    rw [Primitive.strip, Primitive.NoBom, Primitive.string.injEq]
    exact stripBom_eq_self_iff s
  | _ => exact iff_of_true rfl trivial

theorem map_eq_self_iff {α : Type} (f : α → α) (l : List α) : l.map f = l ↔ ∀ a ∈ l, f a = a := by
  induction l with
  | nil => simp
  | cons a l ih => rw [List.map_cons, List.cons.injEq, ih, List.forall_mem_cons]

theorem VariantTree.strip_eq_self_iff (t : VariantTree) : t.strip = t ↔ t.NoBom := by
  induction t using VariantTree.induct_mem with
  | primitive p =>
    rw [VariantTree.strip, VariantTree.NoBom, VariantTree.primitive.injEq, Primitive.strip_eq_self_iff]
  | array ts ih =>
    rw [VariantTree.strip, VariantTree.NoBom, VariantTree.array.injEq, stripElements_eq, map_eq_self_iff,
      elementsNoBom_iff]
    exact forall₂_congr ih
  | object fs ih =>
    rw [VariantTree.strip, VariantTree.NoBom, VariantTree.object.injEq, stripFields_eq, map_eq_self_iff,
      fieldsNoBom_iff]
    refine forall₂_congr fun f hf => ?_
    rw [← ih f hf, ← stripBom_eq_self_iff]
    exact Prod.mk.injEq ..  ▸ Iff.rfl

theorem VariantTree.noBom_sorted_iff (t : VariantTree) : t.sorted.NoBom ↔ t.NoBom := by
  induction t using VariantTree.induct_mem with
  | primitive p => rw [VariantTree.sorted]
  | array ts ih =>
    rw [VariantTree.sorted, VariantTree.NoBom, VariantTree.NoBom, sortedElements_eq, elementsNoBom_iff,
      elementsNoBom_iff,
      List.forall_mem_map]
    exact forall₂_congr ih
  | object fs ih =>
    rw [VariantTree.sorted, VariantTree.NoBom, VariantTree.NoBom, sortedFields_eq, fieldsNoBom_iff, fieldsNoBom_iff]
    simp only [List.mem_insertionSort, List.forall_mem_map]
    exact forall₂_congr fun f hf => and_congr_right fun _ => ih f hf

/-! ## Order -/

theorem compareKeysBytes_neg_iff (a b : Bytes) : compareKeysBytes a b < 0 ↔ a < b := by
  induction a generalizing b with
  | nil =>
    cases b with
    | nil => simp [compareKeysBytes]
    | cons y b =>
      simp [compareKeysBytes]
      omega
  | cons x a ih =>
    cases b with
    | nil =>
      simp [compareKeysBytes]
      omega
    | cons y b =>
      rw [compareKeysBytes, List.cons_lt_cons_iff, ← ih]
      by_cases hxy : x = y
      · subst hxy
        simp
      · have hlt : (x.toNat : Int) - y.toNat < 0 ↔ x < y := by rw [UInt8.lt_iff_toNat_lt]; omega
        simp [hxy, hlt]

theorem compareKeysBytes_eq_zero_iff (a b : Bytes) : compareKeysBytes a b = 0 ↔ a = b := by
  induction a generalizing b with
  | nil =>
    cases b with
    | nil => simp [compareKeysBytes]
    | cons y b =>
      simp [compareKeysBytes]
      omega
  | cons x a ih =>
    cases b with
    | nil =>
      simp [compareKeysBytes]
      omega
    | cons y b =>
      rw [compareKeysBytes, List.cons.injEq, ← ih]
      by_cases hxy : x = y
      · simp [hxy]
      · have hne : (x.toNat : Int) - y.toNat ≠ 0 := by
          intro h
          exact hxy (UInt8.toNat_inj.mp (by omega))
        simp [hxy, hne]

theorem keyLe_iff (a b : Bytes) : keyLe a b ↔ a < b ∨ a = b := by
  rw [keyLe, ← compareKeysBytes_neg_iff, ← compareKeysBytes_eq_zero_iff]
  omega

theorem compareKeysBytes_swap (a b : Bytes) : compareKeysBytes b a = -compareKeysBytes a b := by
  induction a generalizing b with
  | nil => cases b <;> simp [compareKeysBytes]
  | cons x a ih =>
    cases b with
    | nil => simp [compareKeysBytes]
    | cons y b =>
      by_cases hxy : x = y
      · simp [compareKeysBytes, hxy, ih]
      · simp [compareKeysBytes, hxy, Ne.symm hxy]

theorem keyLe_total (a b : Bytes) : keyLe a b ∨ keyLe b a := by
  unfold keyLe
  rw [compareKeysBytes_swap a b]
  omega

theorem keyLe_trans {a b c : Bytes} (hab : keyLe a b) (hbc : keyLe b c) : keyLe a c := by
  rw [keyLe_iff] at *
  rcases hab with hab | rfl
  · rcases hbc with hbc | rfl
    · have : Trans (fun x y : UInt8 => x < y) (fun x y => x < y) (fun x y => x < y) := ⟨UInt8.lt_trans⟩
      exact .inl (List.lt_trans hab hbc)
    · exact .inl hab
  · exact hbc

instance : Std.Total fieldLe := ⟨fun _ _ => keyLe_total _ _⟩

instance : IsTrans (List Char × VariantTree) fieldLe := ⟨fun _ _ _ => keyLe_trans⟩

theorem Utf8.encode_injective {s s' : List Char} (h : Utf8.encode s = Utf8.encode s') : s = s' := by
  rw [← Utf8.decode_encode s, h, Utf8.decode_encode]

mutual

def VariantTree.Increasing : VariantTree → Prop
  | .primitive _ => True
  | .array elements => elementsIncreasing elements
  | .object fields => fields.Pairwise (fun f g => Utf8.encode f.1 < Utf8.encode g.1) ∧ fieldsIncreasing fields

def elementsIncreasing : List VariantTree → Prop
  | [] => True
  | t :: ts => t.Increasing ∧ elementsIncreasing ts

def fieldsIncreasing : List (List Char × VariantTree) → Prop
  | [] => True
  | (_, t) :: fs => t.Increasing ∧ fieldsIncreasing fs

end

theorem elementsIncreasing_iff (ts : List VariantTree) : elementsIncreasing ts ↔ ∀ t ∈ ts, t.Increasing := by
  induction ts with
  | nil => simp [elementsIncreasing]
  | cons t ts ih => rw [elementsIncreasing, ih, List.forall_mem_cons]

theorem fieldsIncreasing_iff (fs : List (List Char × VariantTree)) : fieldsIncreasing fs ↔ ∀ f ∈ fs,
    f.2.Increasing := by
  induction fs with
  | nil => simp [fieldsIncreasing]
  | cons f fs ih => rw [fieldsIncreasing, ih, List.forall_mem_cons]

theorem pairwise_sort_fields {fs : List (List Char × VariantTree)} (h : (fs.map Prod.fst).Nodup) :
    ((sortedFields fs).insertionSort fieldLe).Pairwise fun f g => Utf8.encode f.1 < Utf8.encode g.1 := by
  have hnodup : (((sortedFields fs).insertionSort fieldLe).map Prod.fst).Nodup := by
    have hfst : (sortedFields fs).map Prod.fst = fs.map Prod.fst := by
      rw [sortedFields_eq, List.map_map]
      rfl
    rw [((List.perm_insertionSort fieldLe (sortedFields fs)).map Prod.fst).nodup_iff, hfst]
    exact h
  have hle := List.pairwise_insertionSort fieldLe (sortedFields fs)
  have hne : ((sortedFields fs).insertionSort fieldLe).Pairwise fun f g => f.1 ≠ g.1 := List.pairwise_map.mp hnodup
  refine (hle.and hne).imp fun {f g} hfg => ?_
  rcases (keyLe_iff _ _).mp hfg.1 with hlt | heq
  · exact hlt
  · exact absurd (Utf8.encode_injective heq) hfg.2

theorem VariantTree.increasing_sorted (t : VariantTree) : t.WellFormed → t.sorted.Increasing := by
  induction t using VariantTree.induct_mem with
  | primitive p =>
    intro _
    rw [VariantTree.sorted, VariantTree.Increasing]
    trivial
  | array ts ih =>
    intro h
    rw [VariantTree.WellFormed, elementsWellFormed_iff] at h
    rw [VariantTree.sorted, VariantTree.Increasing, sortedElements_eq, elementsIncreasing_iff, List.forall_mem_map]
    exact fun t ht => ih t ht (h t ht)
  | object fs ih =>
    intro h
    rw [VariantTree.WellFormed, fieldsWellFormed_iff] at h
    rw [VariantTree.sorted, VariantTree.Increasing, fieldsIncreasing_iff]
    refine ⟨pairwise_sort_fields h.1, fun f hf => ?_⟩
    rw [List.mem_insertionSort, sortedFields_eq] at hf
    obtain ⟨g, hg, rfl⟩ := List.mem_map.mp hf
    exact ih g hg (h.2 g hg)

/-! ## The round trip -/

/-- A tree that fits the limit and the arrays is built, and what the accessors give is the tree with the fields of
each object in increasing order, exactly where no string and no key of it starts with a byte order mark and the
engine takes each container's header as arguments of a call. -/
theorem variant_round_trip_iff {t : VariantTree} (hwf : t.WellFormed) (hstrings : t.hasStrings = true)
    {sizeLimit maxArguments : Nat}
    (hsize : t.build sizeLimit maxArguments ≠ .error VariantBuilder.sizeLimitExceeded)
    (hlength : t.build sizeLimit maxArguments ≠ .error .arrayLength) :
    t.sorted.Increasing ∧ ((∃ v, t.build sizeLimit maxArguments = .ok v ∧ v.Reads t.sorted) ↔
      t.NoBom ∧ t.HeadersFit maxArguments) := by
  refine ⟨t.increasing_sorted hwf, ?_⟩
  have hbuild := t.limited_build hwf sizeLimit maxArguments
  cases hb : t.build sizeLimit maxArguments with
  | error e =>
    rw [hb] at hbuild hsize hlength
    rcases hbuild with rfl | rfl | ⟨rfl, hfit⟩
    · exact absurd rfl hsize
    · exact absurd rfl hlength
    · refine iff_of_false ?_ fun h => hfit h.2
      rintro ⟨v, hv, -⟩
      cases hv
  | ok v =>
    rw [hb] at hbuild
    obtain ⟨rfl, hsized, hfit⟩ := hbuild
    have hreads := Variant.reads_encoded hwf hstrings hsized
    rw [← t.noBom_sorted_iff, ← VariantTree.strip_eq_self_iff]
    constructor
    · rintro ⟨v, hv, hread⟩
      cases hv
      exact ⟨hreads.unique hread, hfit⟩
    · rintro ⟨h, -⟩
      rw [h] at hreads
      exact ⟨_, rfl, hreads⟩

def sampleTree : VariantTree :=
  .object [(['b'], .array [.primitive (.decimal (-12345) 2), .primitive (.boolean true)]),
    (['a'], .primitive (.string ['x']))]

theorem sampleTree_round_trip : sampleTree.WellFormed ∧ sampleTree.hasStrings = true ∧ sampleTree.NoBom ∧
    sampleTree.HeadersFit 100000 ∧
    ∃ v, sampleTree.build 100 100000 = .ok v ∧ v.Reads (.object [(['a'], .primitive (.string ['x'])),
      (['b'], .array [.primitive (.decimal (-12345) 2), .primitive (.boolean true)])]) := by
  have hwf : sampleTree.WellFormed := by
    simp only [sampleTree, VariantTree.WellFormed, fieldsWellFormed, elementsWellFormed, Primitive.WellFormed]
    decide
  have hbom : sampleTree.NoBom := by
    simp only [sampleTree, VariantTree.NoBom, fieldsNoBom, elementsNoBom, Primitive.NoBom]
    decide
  have hfit : sampleTree.HeadersFit 100000 := by
    unfold VariantTree.HeadersFit
    decide +kernel
  have hbuild : sampleTree.build 100 100000 = .ok sampleTree.encoded := rfl
  have hsize : sampleTree.build 100 100000 ≠ .error VariantBuilder.sizeLimitExceeded := by
    rw [hbuild]
    exact fun h => by cases h
  have hlength : sampleTree.build 100 100000 ≠ .error .arrayLength := by
    rw [hbuild]
    exact fun h => by cases h
  exact ⟨hwf, rfl, hbom, hfit, ((variant_round_trip_iff hwf rfl hsize hlength).2).mpr ⟨hbom, hfit⟩⟩

/-- A string that starts with the mark is built and read back without it. -/
theorem variant_round_trip_fails :
    (VariantTree.primitive (.string [BOM, 'x'])).WellFormed ∧
      (VariantTree.primitive (.string [BOM, 'x'])).hasStrings = true ∧
      (VariantTree.primitive (.string [BOM, 'x'])).build 1000 100000 = .ok
        ⟨[17, 239, 187, 191, 120], [1, 0, 0], 0⟩ ∧
      (Variant.mk [17, 239, 187, 191, 120] [1, 0, 0] 0).Reads (.primitive (.string ['x'])) ∧
      ¬∃ v, (VariantTree.primitive (.string [BOM, 'x'])).build 1000 100000 = .ok v ∧
        v.Reads (VariantTree.primitive (.string [BOM, 'x'])).sorted := by
  have hbuild : (VariantTree.primitive (.string [BOM, 'x'])).build 1000 100000 =
      .ok ⟨[17, 239, 187, 191, 120], [1, 0, 0], 0⟩ := rfl
  have hread : (Variant.mk [17, 239, 187, 191, 120] [1, 0, 0] 0).Reads (.primitive (.string ['x'])) := by
    refine ⟨1, fun fuel hfuel => ?_⟩
    cases fuel with
    | zero => omega
    | succ fuel => rfl
  refine ⟨trivial, rfl, hbuild, hread, ?_⟩
  rintro ⟨v, hv, hreads⟩
  rw [hbuild] at hv
  cases hv
  have heq := hread.unique hreads
  rw [VariantTree.sorted] at heq
  simp at heq

end ConfluentKafka
