import ConfluentKafka.VariantFromJson

/-!
# The order of keys

Two encodings of a tree, one with its objects in another order of fields, are the same bytes only where
the order is the same: the header of an object tells where each field stands, and with it the order in
which the fields were written.
-/

namespace ConfluentKafka

open Json JsonTree VariantFormat VariantBuilder

/-! ## Tables -/

namespace Variant

variable {v : Variant}

theorem ArrayAt.offset_eq {offsets offsets' : List Nat} {n n' : Nat} {data data' : Bytes} {info info' : ArrayInfo}
    (h : v.ArrayAt offsets n data info) (h' : v.ArrayAt offsets' n' data' info') (hn : n < 2 ^ 32)
    (hn' : n' < 2 ^ 32)
    {i o o' : Nat} (hi : offsets[i]? = some o) (hi' : offsets'[i]? = some o') (ho : o ≤ n)
    (ho' : o' ≤ n') : o = o' := by
  have hread := readUnsignedLE_entry (f := fun o => o) h.offsets hi ho hn
  have hread' := readUnsignedLE_entry (f := fun o => o) h'.offsets hi' ho' hn'
  obtain rfl := Except.ok.inj (h.eq.symm.trans h'.eq)
  rw [← h.offsetSize] at hread
  rw [← h'.offsetSize, hread] at hread'
  exact Except.ok.inj hread'

theorem ObjectAt.offset_eq {fields fields' : List FieldEntry} {m m' n n' : Nat} {data data' : Bytes}
    {info info' : ObjectInfo}
    (h : v.ObjectAt fields m n data info) (h' : v.ObjectAt fields' m' n' data' info') (hn : n < 2 ^ 32)
    (hn' : n' < 2 ^ 32)
    {i : Nat} {f f' : FieldEntry} (hi : fields[i]? = some f) (hi' : fields'[i]? = some f') (hf : f.offset ≤ n)
    (hf' : f'.offset ≤ n') : f.offset = f'.offset := by
  have hread := readUnsignedLE_entry (f := fun f : FieldEntry => f.offset) h.offsets hi hf hn
  have hread' := readUnsignedLE_entry (f := fun f : FieldEntry => f.offset) h'.offsets hi' hf' hn'
  obtain rfl := Except.ok.inj (h.eq.symm.trans h'.eq)
  rw [← h.offsetSize] at hread
  rw [← h'.offsetSize, hread] at hread'
  exact Except.ok.inj hread'

end Variant

/-! ## Fields by their texts and places -/

def placeOf (l : FieldEntry × (JsString × JsTree)) : List Char × Nat := (l.1.key, l.1.offset)

theorem texts_placeOf (ids : JsString → Nat) (fs : List (JsString × JsTree)) :
    ((jsLayout ids 0 fs).map placeOf).map Prod.fst = (fs.map Prod.fst).map Utf16.scalars := by
  rw [List.map_map, List.map_map]
  conv_rhs => rw [← map_snd_jsLayout ids 0 fs, List.map_map]
  exact List.map_congr_left fun l hl => (jsLayout_of_mem ids hl).1

theorem pairwise_jsLayout {ids : JsString → Nat} {fs : List (JsString × JsTree)} (h : ∀ f ∈ fs, f.2.WellFormed)
    (offset : Nat) :
    (jsLayout ids offset fs).Pairwise fun l m => l.1.offset < m.1.offset := by
  induction fs generalizing offset with
  | nil => exact .nil
  | cons f fs ih =>
    have hpos := JsTree.encode_ne_nil (h f List.mem_cons_self) ids
    have hrest : ∀ g ∈ fs, g.2.WellFormed := fun g hg => h g (List.mem_cons_of_mem _ hg)
    rw [jsLayout, List.pairwise_cons]
    refine ⟨fun m hm => ?_, ih hrest _⟩
    have := (Variant.nodup_offsets hrest (offset + (f.2.encode ids).length)).2 m hm
    dsimp only
    omega

theorem map_key_jsLayout (ids : JsString → Nat) (fs : List (JsString × JsTree)) :
    ((jsLayout ids 0 fs).insertionSort jsLayoutLe).map (fun l => l.1.key) =
      (fs.insertionSort jsFieldLe).map fun f => Utf16.scalars f.1 := by
  rw [← sort_snd_jsLayout ids, List.map_map]
  refine List.map_congr_left fun l hl => ?_
  rw [List.mem_insertionSort] at hl
  exact (jsLayout_of_mem ids hl).1

/-- The texts in the order of the header are those of the keys, in whichever order they were written. -/
theorem texts_sorted {fs fs' : List (JsString × JsTree)} (hperm : (fs.map Prod.fst).Perm (fs'.map Prod.fst)) :
    (fs.insertionSort jsFieldLe).map (fun f => Utf16.scalars f.1) =
      (fs'.insertionSort jsFieldLe).map fun f => Utf16.scalars f.1 := by
  have hsorted : ∀ gs : List (JsString × JsTree), ((gs.insertionSort jsFieldLe).map fun f =>
    Utf16.scalars f.1).Pairwise
      fun a b => keyLe (Utf8.encode a) (Utf8.encode b) := by
    intro gs
    rw [List.pairwise_map]
    exact List.pairwise_insertionSort jsFieldLe gs
  have htexts : ∀ gs : List (JsString × JsTree), ((gs.insertionSort jsFieldLe).map fun f => Utf16.scalars f.1).Perm
      ((gs.map Prod.fst).map Utf16.scalars) := by
    intro gs
    rw [List.map_map]
    exact (List.perm_insertionSort jsFieldLe gs).map _
  refine List.Perm.eq_of_pairwise ?_ (hsorted fs) (hsorted fs')
    ((htexts fs).trans ((hperm.map Utf16.scalars).trans (htexts fs').symm))
  intro a b _ _ hab hba
  rcases (keyLe_iff _ _).mp hab with hlt | heq
  · rcases (keyLe_iff _ _).mp hba with hgt | heq
    · exact absurd hlt (List.lt_asymm hgt)
    · exact (Utf8.encode_injective heq).symm
  · exact Utf8.encode_injective heq

/-- The order of the fields is told by the table of their offsets. -/
theorem places_eq {ids ids' : JsString → Nat} {fs fs' : List (JsString × JsTree)} (hwf : ∀ f ∈ fs, f.2.WellFormed)
    (hwf' : ∀ f ∈ fs', f.2.WellFormed) (hperm : (fs.map Prod.fst).Perm (fs'.map Prod.fst))
    (hoffsets : ((jsLayout ids 0 fs).insertionSort jsLayoutLe).map (fun l => l.1.offset) =
      ((jsLayout ids' 0 fs').insertionSort jsLayoutLe).map fun l => l.1.offset) :
    (jsLayout ids 0 fs).map placeOf = (jsLayout ids' 0 fs').map placeOf := by
  have hsorted : ((jsLayout ids 0 fs).insertionSort jsLayoutLe).map placeOf =
      ((jsLayout ids' 0 fs').insertionSort jsLayoutLe).map placeOf := by
    have hzip : ∀ ls : List (FieldEntry × (JsString × JsTree)),
        ls.map placeOf = (ls.map fun l => l.1.key).zip (ls.map fun l => l.1.offset) := fun _ => List.zip_map'.symm
    rw [hzip, hzip, map_key_jsLayout, map_key_jsLayout, texts_sorted hperm, hoffsets]
  have hplaces : ∀ {ids : JsString → Nat} {fs : List (JsString × JsTree)}, (∀ f ∈ fs, f.2.WellFormed) →
      ((jsLayout ids 0 fs).map placeOf).Pairwise fun p q => p.2 < q.2 := by
    intro ids fs h
    rw [List.pairwise_map]
    exact pairwise_jsLayout h 0
  have hperm' : ∀ (ids : JsString → Nat) (fs : List (JsString × JsTree)),
      (((jsLayout ids 0 fs).insertionSort jsLayoutLe).map placeOf).Perm ((jsLayout ids 0 fs).map placeOf) :=
    fun ids fs => (List.perm_insertionSort jsLayoutLe _).map placeOf
  refine List.Perm.eq_of_pairwise ?_ (hplaces hwf) (hplaces hwf') ?_
  · intro p q _ _ hpq hqp
    omega
  · exact (hperm' ids fs).symm.trans (hsorted ▸ hperm' ids' fs')

/-! ## Keys by their texts -/

/-- The text of an array index is that of no other key. -/
theorem arrayIndex?_of_scalars {key key' : JsString} (h : Utf16.scalars key = Utf16.scalars key') :
    arrayIndex? key = arrayIndex? key' := by
  have hdigits : ∀ {key : JsString}, (arrayIndex? key).isSome → ∀ c ∈ key, c.toNat < 0xD800 := by
    intro key hsome c hc
    unfold arrayIndex? at hsome
    dsimp only at hsome
    split_ifs at hsome with hindex
    · have := List.all_eq_true.mp hindex.2.1 c hc
      simp only [decide_eq_true_eq] at this
      omega
    · cases hsome
  by_cases hkey : (arrayIndex? key).isSome
  · rw [Utf16.eq_of_scalars_of_small (hdigits hkey) h.symm]
  · by_cases hkey' : (arrayIndex? key').isSome
    · rw [Utf16.eq_of_scalars_of_small (hdigits hkey') h]
    · rw [Option.not_isSome_iff_eq_none] at hkey hkey'
      rw [hkey, hkey']

theorem inEntryOrder_of_texts {α β : Type} {fs : List (JsString × α)} {gs : List (JsString × β)}
    (h : fs.map (fun p => Utf16.scalars p.1) = gs.map fun p => Utf16.scalars p.1) (hgs : InEntryOrder gs) :
      InEntryOrder fs := by
  have hindex : fs.map (fun p => arrayIndex? p.1) = gs.map fun p => arrayIndex? p.1 := by
    refine List.ext_getElem? fun i => ?_
    have hi := congrArg (·[i]?) h
    simp only [List.getElem?_map] at hi ⊢
    cases hf : fs[i]? with
    | none =>
      rw [hf] at hi
      cases hg : gs[i]? with
      | none => rfl
      | some q =>
        rw [hg] at hi
        cases hi
    | some p =>
      rw [hf] at hi
      cases hg : gs[i]? with
      | none =>
        rw [hg] at hi
        cases hi
      | some q =>
        rw [hg] at hi
        exact congrArg some (arrayIndex?_of_scalars (Option.some.inj hi))
  have hmap : ∀ {γ : Type} (hs : List (JsString × γ)), InEntryOrder hs ↔
      (hs.map fun p => arrayIndex? p.1).Pairwise fun a b => b.isSome → a.isSome ∧ a.getD 0 ≤ b.getD 0 := by
    intro γ hs
    rw [List.pairwise_map]
    rfl
  rw [hmap, hindex, ← hmap]
  exact hgs

/-! ## Trees -/

/-- The bytes at the place of an element are found at the same place in both. -/
theorem element_at {v : Variant} {segs segs' : List Bytes} (hlen : (arrayBytes segs).length ≤ MAX_ARRAY_LENGTH)
    (hlen' : (arrayBytes segs').length ≤ MAX_ARRAY_LENGTH) (h : At v.value v.pos (arrayBytes segs))
    (h' : At v.value v.pos (arrayBytes segs')) {i : Nat} {seg seg' : Bytes} (hi : segs[i]? = some seg)
    (hi' : segs'[i]? = some seg') :
    ∃ pos, At v.value pos seg ∧ At v.value pos seg' := by
  have hcount := length_le_arrayHeader (runningOffsets 0 segs) segs.flatten.length
  have hcount' := length_le_arrayHeader (runningOffsets 0 segs') segs'.flatten.length
  rw [arrayBytes, List.length_append] at hlen hlen'
  simp only [MAX_ARRAY_LENGTH] at hlen hlen'
  obtain ⟨info, hinfo⟩ := Variant.arrayAt_of_at h (by omega)
  obtain ⟨info', hinfo'⟩ := Variant.arrayAt_of_at h' (by omega)
  have hlt : i < segs.length := (List.getElem?_eq_some_iff.mp hi).choose
  have hlt' : i < segs'.length := (List.getElem?_eq_some_iff.mp hi').choose
  have hle := ((at_self segs.flatten).segment hi).le
  have hle' := ((at_self segs'.flatten).segment hi').le
  have hoffset := hinfo.offset_eq hinfo' (by omega) (by omega) (getElem?_runningOffsets hlt 0)
    (getElem?_runningOffsets hlt' 0) (by omega) (by omega)
  obtain rfl := Except.ok.inj (hinfo.eq.symm.trans hinfo'.eq)
  refine ⟨_, hinfo.data.segment hi, ?_⟩
  have := hinfo'.data.segment hi'
  rw [Nat.zero_add, Nat.zero_add] at hoffset
  rwa [hoffset]

def headerFields (ids : JsString → Nat) (fs : List (JsString × JsTree)) : List (FieldEntry × (JsString × JsTree)) :=
  (jsLayout ids 0 fs).insertionSort jsLayoutLe

section

variable {v : Variant} {ids ids' : JsString → Nat} {fs fs' : List (JsString × JsTree)}

theorem length_headerFields (ids : JsString → Nat) (fs : List (JsString × JsTree)) : (headerFields ids fs).length =
    fs.length := by
  rw [headerFields, List.length_insertionSort, ← List.length_map Prod.snd, map_snd_jsLayout]

theorem objectAt_headerFields (hwf : ∀ f ∈ fs, f.2.WellFormed)
    (hlen : (jsObjectBytes ids (jsEncodeFields ids fs)).length ≤ MAX_ARRAY_LENGTH)
    (h : At v.value v.pos (jsObjectBytes ids (jsEncodeFields ids fs))) :
    (jsFieldData (jsEncodeFields ids fs)).length < 2 ^ 32 ∧
      ∃ info, v.ObjectAt ((headerFields ids fs).map Prod.fst) (Variant.maxId ((headerFields ids fs).map Prod.fst))
        (jsFieldData (jsEncodeFields ids fs)).length (jsFieldData (jsEncodeFields ids fs)) info := by
  rw [jsObjectBytes, ← sort_fst_jsLayout, ← headerFields] at h hlen
  have hnum := numFields_le (by rw [List.length_map, length_headerFields]; exact length_le_jsFieldData hwf ids) hlen
  rw [List.length_append] at hlen
  simp only [MAX_ARRAY_LENGTH] at hlen
  exact ⟨by omega, Variant.objectAt_of_at h (by omega)⟩

theorem offset_le {l : FieldEntry × (JsString × JsTree)} (hl : l ∈ headerFields ids fs) :
    l.1.offset ≤ (jsFieldData (jsEncodeFields ids fs)).length := by
  rw [headerFields, List.mem_insertionSort] at hl
  obtain ⟨-, -, front, back, hdata, hoffset⟩ := jsLayout_of_mem ids hl
  rw [hdata, List.length_append]
  omega

/-- Two objects at one place tell the same places of their fields. -/
theorem fields_at (hwf : ∀ f ∈ fs, f.2.WellFormed) (hwf' : ∀ f ∈ fs', f.2.WellFormed)
    (hperm : (fs.map Prod.fst).Perm (fs'.map Prod.fst))
    (hlen : (jsObjectBytes ids (jsEncodeFields ids fs)).length ≤ MAX_ARRAY_LENGTH)
    (hlen' : (jsObjectBytes ids' (jsEncodeFields ids' fs')).length ≤ MAX_ARRAY_LENGTH)
    (h : At v.value v.pos (jsObjectBytes ids (jsEncodeFields ids fs)))
    (h' : At v.value v.pos (jsObjectBytes ids' (jsEncodeFields ids' fs'))) :
    (jsLayout ids 0 fs).map placeOf = (jsLayout ids' 0 fs').map placeOf ∧
      ∀ (i : Nat) (f f' : JsString × JsTree), fs[i]? = some f → fs'[i]? = some f' →
        ∃ pos, At v.value pos (f.2.encode ids) ∧ At v.value pos (f'.2.encode ids') := by
  obtain ⟨hsize, info, hinfo⟩ := objectAt_headerFields hwf hlen h
  obtain ⟨hsize', info', hinfo'⟩ := objectAt_headerFields hwf' hlen' h'
  have hcount : fs.length = fs'.length := by
    have := hperm.length_eq
    rwa [List.length_map, List.length_map] at this
  have hoffsets : (headerFields ids fs).map (fun l => l.1.offset) = (headerFields ids' fs').map fun l =>
    l.1.offset := by
    refine List.ext_getElem? fun i => ?_
    rw [List.getElem?_map, List.getElem?_map]
    cases hl : (headerFields ids fs)[i]? with
    | none =>
      rw [List.getElem?_eq_none_iff, length_headerFields, hcount, ← length_headerFields ids',
        ← List.getElem?_eq_none_iff] at hl
      rw [hl]
    | some l =>
      have hi := (List.getElem?_eq_some_iff.mp hl).choose
      rw [length_headerFields, hcount, ← length_headerFields ids'] at hi
      have hl' := List.getElem?_eq_getElem hi
      rw [hl']
      have hfst : ((headerFields ids fs).map Prod.fst)[i]? = some l.1 := by rw [List.getElem?_map, hl]; rfl
      have hfst' : ((headerFields ids' fs').map Prod.fst)[i]? = some (headerFields ids' fs')[i].1 := by
        rw [List.getElem?_map, hl']
        rfl
      exact congrArg some (hinfo.offset_eq hinfo' hsize hsize' hfst hfst' (offset_le (List.mem_of_getElem? hl))
        (offset_le (List.getElem_mem hi)))
  have hplaces := places_eq hwf hwf' hperm hoffsets
  refine ⟨hplaces, fun i f f' hf hf' => ?_⟩
  rw [← map_snd_jsLayout ids 0 fs, List.getElem?_map] at hf
  rw [← map_snd_jsLayout ids' 0 fs', List.getElem?_map] at hf'
  obtain ⟨l, hl, rfl⟩ := Option.map_eq_some_iff.mp hf
  obtain ⟨l', hl', rfl⟩ := Option.map_eq_some_iff.mp hf'
  have hplace := congrArg (·[i]?) hplaces
  simp only [List.getElem?_map, hl, hl', Option.map_some] at hplace
  have hoffset : l.1.offset = l'.1.offset := congrArg Prod.snd (Option.some.inj hplace)
  obtain ⟨-, -, front, back, hdata, hfront⟩ := jsLayout_of_mem ids (List.mem_of_getElem? hl)
  obtain ⟨-, -, front', back', hdata', hfront'⟩ := jsLayout_of_mem ids' (List.mem_of_getElem? hl')
  obtain rfl := Except.ok.inj (hinfo.eq.symm.trans hinfo'.eq)
  have hat := hinfo.data
  have hat' := hinfo'.data
  rw [hdata] at hat
  rw [hdata'] at hat'
  refine ⟨_, hat.right.left, ?_⟩
  have hlength : front.length = front'.length := by omega
  rw [hlength]
  exact hat'.right.left

end

/-! ## Values -/

theorem map_fst_appendedFields (fs : List (JsString × JsonValue)) : (appendedFields fs).map Prod.fst =
    fs.map Prod.fst := by
  rw [appendedFields_eq, List.map_map]
  rfl

theorem appendedFieldsWellFormed_iff (fs : List (JsString × JsonValue)) :
    jsFieldsWellFormed (appendedFields fs) ↔ ∀ f ∈ fs, f.2.appended.WellFormed := by
  rw [jsFieldsWellFormed_iff, appendedFields_eq, List.forall_mem_map]
  rfl

theorem appendedElementsWellFormed_iff (ts : List JsonValue) :
    jsElementsWellFormed (appendedElements ts) ↔ ∀ t ∈ ts, t.appended.WellFormed := by
  rw [jsElementsWellFormed_iff, appendedElements_eq, List.forall_mem_map]

theorem wellFormed_kept {t : JsonValue} (h : t.appended.WellFormed) : t.kept.appended.WellFormed := by
  induction t using induct_mem with
  | null => exact h
  | boolean b => exact h
  | number x => exact h
  | string s => exact h
  | array ts ih =>
    rw [appended, JsTree.WellFormed, appendedElementsWellFormed_iff] at h
    rw [kept, keptElements_eq, appended, JsTree.WellFormed, appendedElementsWellFormed_iff, List.forall_mem_map]
    exact fun t ht => ih t ht (h t ht)
  | object fs ih =>
    rw [appended, JsTree.WellFormed, appendedFieldsWellFormed_iff] at h
    rw [kept, keptFields_eq, appended, JsTree.WellFormed, appendedFieldsWellFormed_iff]
    intro f hf
    obtain ⟨p, hp, rfl⟩ := List.mem_map.mp (properties_subset _ ((entries_perm _).mem_iff.mp hf))
    exact ih p hp (h p hp)

theorem length_le_of_at {data seg : Bytes} {pos : Int} (hsize : data.length ≤ MAX_ARRAY_LENGTH)
    (h : At data pos seg) :
    seg.length ≤ MAX_ARRAY_LENGTH := by
  have := h.le
  have := h.nonneg
  omega

theorem getElem?_jsEncodeElements {ids : JsString → Nat} {ts : List JsonValue} {i : Nat} {t : JsonValue}
    (h : ts[i]? = some t) :
    (jsEncodeElements ids (appendedElements ts))[i]? = some (t.appended.encode ids) := by
  rw [jsEncodeElements_eq, appendedElements_eq, List.getElem?_map, List.getElem?_map, h]
  rfl

/-- If the tree as the language holds it is encoded as the same bytes, its fields are in the same order. -/
theorem entryOrder_of_at (t : JsonValue) {v : Variant} {ids ids' : JsString → Nat}
    (hsize : v.value.length ≤ MAX_ARRAY_LENGTH)
    (hwf : t.appended.WellFormed) (hnodup : t.NoDuplicates) (h : At v.value v.pos (t.appended.encode ids))
    (h' : At v.value v.pos (t.kept.appended.encode ids')) : t.EntryOrder := by
  induction t using induct_mem generalizing v with
  | null => trivial
  | boolean b => trivial
  | number x => trivial
  | string s => trivial
  | array ts ih =>
    rw [appended, JsTree.WellFormed, appendedElementsWellFormed_iff] at hwf
    rw [NoDuplicates, noDuplicatesElements_iff] at hnodup
    rw [appended, JsTree.encode] at h
    rw [kept, keptElements_eq, appended, JsTree.encode] at h'
    rw [EntryOrder, entryOrderElements_iff]
    intro t ht
    obtain ⟨i, hi⟩ := List.mem_iff_getElem?.mp ht
    have hkept : (ts.map kept)[i]? = some t.kept := by
      rw [List.getElem?_map, hi]
      rfl
    obtain ⟨pos, hat, hat'⟩ := element_at (length_le_of_at hsize h) (length_le_of_at hsize h') h h'
      (getElem?_jsEncodeElements hi) (getElem?_jsEncodeElements hkept)
    exact ih t ht (v := ⟨v.value, v.metadata, pos⟩) hsize (hwf t ht) (hnodup t ht) hat hat'
  | object fs ih =>
    have hwf' := wellFormed_kept hwf
    rw [appended, JsTree.WellFormed, jsFieldsWellFormed_iff] at hwf
    rw [NoDuplicates, noDuplicatesFields_iff] at hnodup
    have hkeys : ((fs.map (onValue kept)).map Prod.fst).Nodup := by
      rw [List.map_map]
      exact hnodup.1
    rw [kept, keptFields_eq, properties_of_nodup hkeys] at h' hwf'
    rw [appended, JsTree.WellFormed, jsFieldsWellFormed_iff] at hwf'
    rw [appended, JsTree.encode] at h h'
    have hperm : ((appendedFields fs).map Prod.fst).Perm
      ((appendedFields (entries (fs.map (onValue kept)))).map Prod.fst) := by
      rw [map_fst_appendedFields, map_fst_appendedFields]
      have := (entries_perm (fs.map (onValue kept))).map Prod.fst
      rw [List.map_map] at this
      exact this.symm
    obtain ⟨hplaces, hchildren⟩ :=
      fields_at hwf hwf' hperm (length_le_of_at hsize h) (length_le_of_at hsize h') h h'
    have htexts : fs.map (fun p => Utf16.scalars p.1) =
        (entries (fs.map (onValue kept))).map fun p => Utf16.scalars p.1 := by
      have hmap := congrArg (List.map Prod.fst) hplaces
      rw [texts_placeOf, texts_placeOf, map_fst_appendedFields, map_fst_appendedFields, List.map_map,
        List.map_map] at hmap
      exact hmap
    have horder : InEntryOrder fs := inEntryOrder_of_texts htexts (inEntryOrder_entries _)
    have hentries : entries (fs.map (onValue kept)) = fs.map (onValue kept) := by
      rw [← map_entries, entries_of_inEntryOrder horder]
    rw [EntryOrder, entryOrderFields_iff]
    refine ⟨horder, fun p hp => ?_⟩
    obtain ⟨i, hi⟩ := List.mem_iff_getElem?.mp hp
    have hfield : (appendedFields fs)[i]? = some (p.1, p.2.appended) := by
      rw [appendedFields_eq, List.getElem?_map, hi]
      rfl
    have hfield' : (appendedFields (entries (fs.map (onValue kept))))[i]? = some (p.1, p.2.kept.appended) := by
      rw [hentries, appendedFields_eq, List.getElem?_map, List.getElem?_map, hi]
      rfl
    obtain ⟨pos, hat, hat'⟩ := hchildren i _ _ hfield hfield'
    have hchild : p.2.appended.WellFormed := hwf (p.1, p.2.appended) (List.mem_of_getElem? hfield)
    exact ih p hp (v := ⟨v.value, v.metadata, pos⟩) hsize hchild (hnodup.2 p hp) hat hat'

/-! ## The two builds -/

/-- A text that has the tree, with its numbers rounded to doubles. -/
def IsTextOf (text : JsString) (t : JsonValue) : Prop :=
  (parse true text).map (fun r => r.bind fun l => .number (literalNumber l)) = some t

theorem parseJson_of_isTextOf {text : JsString} {t : JsonValue} (htext : IsTextOf text t)
    (hnodup : t.NoDuplicates) {fuel : Nat}
    {result : Option JsonValue} (h : parseJsonAllowingNonFinite text fuel = some result) :
      result = some t.kept := by
  obtain ⟨r, hr, rfl⟩ := Option.map_eq_some_iff.mp htext
  have hnodups : ∀ r', parse true text = some r' → r'.NoDuplicates := by
    intro r' hr'
    rw [hr] at hr'
    cases hr'
    exact (noDuplicates_bind _ r).mp hnodup
  obtain ⟨enough, henough⟩ := parsed_of_noDuplicates hnodups
  have hmore := parseAttempts_mono h (Nat.le_max_left fuel enough)
  have hresult := henough (max fuel enough) (Nat.le_max_right fuel enough)
  rw [parseJsonAllowingNonFinite, hmore, hr] at hresult
  exact Option.some.inj hresult

theorem buildFromJson_eq_ok {text : JsString} {t : JsonValue} (htext : IsTextOf text t) (hnodup : t.NoDuplicates)
    (hwf : t.appended.WellFormed) {sizeLimit maxArguments fuel : Nat} {v : Variant}
    (h : (JsBuilder.new sizeLimit maxArguments).buildFromJson text fuel = some (.ok v)) :
      v = t.kept.appended.encoded ∧ t.kept.appended.Sized := by
  obtain ⟨result, hresult, hbuild⟩ := Option.map_eq_some_iff.mp h
  obtain rfl := parseJson_of_isTextOf htext hnodup hresult
  have hlimited : Limited False (fun v => v = t.kept.appended.encoded ∧ t.kept.appended.Sized) (do
      let b' ← JsBuilder.processParsedJson t.kept (JsBuilder.new sizeLimit maxArguments)
      let r ← b'.base.finalize
      Variant.new r.1 r.2 0) := by
    refine (JsBuilder.limited_processParsedJson _ t.kept (wellFormed_kept hwf)
      (JsBuilder.hasKeys_new sizeLimit maxArguments)
      (List.prefix_refl _)).bind fun b hb => ?_
    have hvalue : b.base.value = t.kept.appended.encoded.value := hb.value
    have hkeys : b.base.dictionaryKeys = jsKeyBytes (t.kept.appended.keys []) := hb.keys.dictionaryKeys
    have hlen := hb.length_le
    refine b.base.limited_finalize.bind ?_
    rintro _ ⟨rfl, hmeta⟩
    dsimp only
    rw [hkeys, hvalue, Variant.new_metadataBytes]
    rw [hkeys] at hmeta
    rw [hvalue] at hlen
    exact ⟨rfl, hlen, hmeta⟩
  dsimp only at hbuild
  cases hdriver : (do
      let b' ← JsBuilder.processParsedJson t.kept (JsBuilder.new sizeLimit maxArguments)
      let r ← b'.base.finalize
      Variant.new r.1 r.2 0) with
  | error e =>
    rw [hdriver] at hbuild
    cases hbuild
  | ok v' =>
    rw [hdriver] at hbuild hlimited
    cases hbuild
    exact hlimited

/-- The two builds write the same exactly where the order of the keys is that of `Object.entries`. -/
theorem buildFromJson_same_iff {t : JsonValue} (hnodup : t.NoDuplicates) {text : JsString} (htext : IsTextOf text t)
    {sizeLimit sizeLimit' maxArguments maxArguments' fuel : Nat} {v v' : Variant}
    (hparsed : (JsBuilder.new sizeLimit maxArguments).buildFromJson text fuel = some (.ok v))
    (hbuilt : t.appended.build sizeLimit' maxArguments' = .ok v') : v.value = v'.value ∧ v.metadata = v'.metadata ↔
      t.EntryOrder := by
  obtain ⟨hwf, -, rfl, -⟩ := JsTree.build_eq_ok hbuilt
  obtain ⟨rfl, hsized⟩ := buildFromJson_eq_ok htext hnodup hwf hparsed
  constructor
  · rintro ⟨hvalue, -⟩
    have hat : At t.kept.appended.encoded.value 0 (t.kept.appended.encode fun key =>
      (t.kept.appended.keys []).idxOf key) :=
      at_self _
    have hat' : At t.kept.appended.encoded.value 0 (t.appended.encode fun key => (t.appended.keys []).idxOf key) :=
      hvalue ▸ at_self _
    exact entryOrder_of_at t (v := t.kept.appended.encoded) hsized.value hwf hnodup hat' hat
  · intro horder
    rw [kept_of_entryOrder hnodup horder]
    exact ⟨rfl, rfl⟩

/-- With the array index first. -/
theorem buildFromJson_same_index :
    ∃ v v', (JsBuilder.new 100 100000).buildFromJson (units "\x7b\"0\":300,\"b\":\"x\"\x7d") 1 = some (.ok v) ∧
      (.object [(units "0", .number (.finite 300)), (units "b", .string (units "x"))] : JsonValue).appended.build
        100 100000 = .ok v' ∧
      (v.value = v'.value ∧ v.metadata = v'.metadata ↔
        (.object [(units "0", .number (.finite 300)), (units "b", .string (units "x"))] :
          JsonValue).EntryOrder) := by
  have hnodup : (.object [(units "0", .number (.finite 300)), (units "b", .string (units "x"))] :
    JsonValue).NoDuplicates := by
    simp [NoDuplicates, noDuplicatesFields, units, unit]
  have hparse : parse true (units "\x7b\"0\":300,\"b\":\"x\"\x7d") =
      some (.object [(units "0", .number (.text (units "300"))), (units "b", .string (units "x"))]) := rfl
  have hnumber : toNumber (units "300") = .finite 300 := by decide +kernel
  have htext : IsTextOf (units "\x7b\"0\":300,\"b\":\"x\"\x7d")
      (.object [(units "0", .number (.finite 300)), (units "b", .string (units "x"))]) := by
    rw [IsTextOf, hparse, Option.map_some, JsonTree.bind, bindFields, bindFields, bindFields, JsonTree.bind,
      JsonTree.bind,
      literalNumber, hnumber]
  have hparsed : (JsBuilder.new 100 100000).buildFromJson (units "\x7b\"0\":300,\"b\":\"x\"\x7d") 1 =
      some (.ok ⟨[2, 2, 0, 1, 0, 3, 5, 16, 44, 1, 5, 120], [1, 2, 0, 1, 2, 48, 98], 0⟩) := by decide +kernel
  have hbuilt : (.object [(units "0", .number (.finite 300)), (units "b", .string (units "x"))] :
    JsonValue).appended.build 100 100000 =
      .ok ⟨[2, 2, 0, 1, 0, 3, 5, 16, 44, 1, 5, 120], [1, 2, 0, 1, 2, 48, 98], 0⟩ := by decide +kernel
  exact ⟨_, _, hparsed, hbuilt, buildFromJson_same_iff hnodup htext hparsed hbuilt⟩

/-- The language puts an array index first, and the builder gives it the first id. -/
theorem buildFromJson_same_fails :
    ∃ v v', (JsBuilder.new 100 100000).buildFromJson (units "\x7b\"b\":true,\"0\":null\x7d") 1 = some (.ok v) ∧
      (.object [(units "b", .boolean true), (units "0", .null)] : JsonValue).appended.build 100 100000 = .ok v' ∧
      (.object [(units "b", .boolean true), (units "0", .null)] : JsonValue).NoDuplicates ∧
      IsTextOf (units "\x7b\"b\":true,\"0\":null\x7d") (.object [(units "b", .boolean true), (units "0", .null)]) ∧
      v.value ≠ v'.value ∧ v.metadata ≠ v'.metadata := by
  have hnodup : (.object [(units "b", .boolean true), (units "0", .null)] : JsonValue).NoDuplicates := by
    simp [NoDuplicates, noDuplicatesFields, units, unit]
  have hparse : parse true (units "\x7b\"b\":true,\"0\":null\x7d") =
      some (.object [(units "b", .boolean true), (units "0", .null)]) := rfl
  have htext : IsTextOf (units "\x7b\"b\":true,\"0\":null\x7d")
    (.object [(units "b", .boolean true), (units "0", .null)]) := by
    rw [IsTextOf, hparse, Option.map_some, JsonTree.bind, bindFields, bindFields, bindFields, JsonTree.bind,
      JsonTree.bind]
  have hparsed : (JsBuilder.new 100 100000).buildFromJson (units "\x7b\"b\":true,\"0\":null\x7d") 1 =
      some (.ok ⟨[2, 2, 0, 1, 0, 1, 2, 0, 4], [1, 2, 0, 1, 2, 48, 98], 0⟩) := by decide +kernel
  have hbuilt : (.object [(units "b", .boolean true), (units "0", .null)] : JsonValue).appended.build 100 100000 =
      .ok ⟨[2, 2, 1, 0, 1, 0, 2, 4, 0], [1, 2, 0, 1, 2, 98, 48], 0⟩ := by decide +kernel
  exact ⟨_, _, hparsed, hbuilt, hnodup, htext, by decide, by decide⟩

end ConfluentKafka
