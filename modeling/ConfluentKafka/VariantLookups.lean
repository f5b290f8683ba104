import ConfluentKafka.VariantPlaces

/-!
# Looking up what was built

Strings, keys and fields of a tree that was built, found again: the decoder of texts drops a byte
order mark, and the encoder makes one text of strings that differ in surrogates that stand alone.
-/

namespace ConfluentKafka

open VariantFormat VariantBuilder

namespace Variant

/-- The values of a tree and where they are found: an element by its index, a field by its index in the order
of the keys. -/
inductive Placed (r : Variant) (t : JsTree) : Variant → JsTree → Prop where
  | root : Placed r t r t
  | element {v c : Variant} {ts : List JsTree} {i : Nat} {u : JsTree} (h : Placed r t v (.array ts))
    (hu : ts[i]? = some u)
      (hc : v.getElementAtIndex i = .ok (some c)) : Placed r t c u
  | field {v c : Variant} {fs : List (JsString × JsTree)} {i : Nat} {f : JsString × JsTree} {key : List Char}
      (h : Placed r t v (.object fs)) (hf : (fs.insertionSort jsFieldLe)[i]? = some f)
      (hc : v.getFieldAtIndex i = .ok (key, c)) : Placed r t c f.2

theorem holdsJs_of_placed {t : JsTree} {sizeLimit maxArguments : Nat} {r : Variant}
    (hbuild : t.build sizeLimit maxArguments = .ok r) {v : Variant}
    {u : JsTree} (h : Placed r t v u) : v.HoldsJs (t.keys []) u := by
  obtain ⟨hwf, hstrings, rfl, hsized⟩ := JsTree.build_eq_ok hbuild
  induction h with
  | root => exact ⟨rfl, at_self _, hsized.value, ⟨[], List.prefix_refl _⟩, hwf, hstrings⟩
  | element h hu hc ih =>
    obtain ⟨c', hc', hholds⟩ := ih.element hu
    rw [hc] at hc'
    cases hc'
    exact hholds
  | field h hf hc ih =>
    obtain ⟨info, view, hfields⟩ := ih.fields hsized.metadata
    obtain ⟨c', hc', hholds⟩ := hfields.field _ _ hf
    rw [getFieldAtIndex_of_view hfields.tables hc'] at hc
    cases hc
    exact hholds

theorem fieldsJs_of_placed {t : JsTree} {sizeLimit maxArguments : Nat} {r : Variant}
    (hbuild : t.build sizeLimit maxArguments = .ok r) {v : Variant}
    {fs : List (JsString × JsTree)} (h : Placed r t v (.object fs)) : ∃ info view, v.FieldsJs
    (t.keys []) fs info view := by
  have hsized := (JsTree.build_eq_ok hbuild).2.2.2
  exact (holdsJs_of_placed hbuild h).fields hsized.metadata

/-! ## Strings and keys -/

theorem mem_stripBom {c : Char} (hc : c ≠ BOM) (s : List Char) : c ∈ stripBom s ↔ c ∈ s := by
  cases s with
  | nil => rfl
  | cons d s =>
    by_cases hd : d = BOM
    · simp [stripBom, hd, hc]
    · simp [stripBom, hd]

/-- Each field is found by its index, with the key it was appended under, and by that key. -/
def FindsFields (v : Variant) (keys : List JsString) (fs : List (JsString × JsTree)) : Prop :=
  ∀ (i : Nat) (f : JsString × JsTree), (fs.insertionSort jsFieldLe)[i]? = some f → ∃ c, c.HoldsJs keys f.2 ∧
    v.getFieldAtIndex i = .ok (Utf16.scalars f.1, c) ∧
    ∃ enough, ∀ fuel, enough ≤ fuel → v.getFieldByKey (Utf16.scalars f.1) fuel = some (.ok (some c))

theorem getString_of_holdsJs {v : Variant} {keys : List JsString} {s : List Char}
    (h : v.HoldsJs keys (.primitive (.string s))) : v.getString = .ok (stripBom s) := by
  have hbytes := h.bytes
  have hlen := h.length_le
  rw [JsTree.encode] at hbytes hlen
  have hstring := h.strings
  rw [JsTree.hasStrings] at hstring
  have hread := (readsPrimitive_string hbytes (Nat.lt_of_le_of_lt hlen (by decide))
    (of_decide_eq_true hstring)).read
  rw [readPrimitive] at hread
  obtain ⟨s', hs', heq⟩ := bind_eq_ok hread
  cases heq
  exact hs'

/-- Distinct texts, with no mark to be dropped, are decoded as they were and increase. -/
theorem increasing_decodedKeys {fs : List (JsString × JsTree)} (hnodup : (fs.map Prod.fst).Nodup)
    (hwf : ∀ f ∈ fs, Utf16.WellFormed f.1) (hbom : ∀ f ∈ fs, ¬StartsWithBom (Utf16.scalars f.1)) :
    Increasing (decodedKeys fs) := by
  have hperm := List.perm_insertionSort jsFieldLe fs
  have hne : (fs.insertionSort jsFieldLe).Pairwise fun f g => f.1 ≠ g.1 :=
    List.pairwise_map.mp ((hperm.map Prod.fst).nodup_iff.mpr hnodup)
  rw [Increasing, decodedKeys, List.pairwise_map]
  refine ((List.pairwise_insertionSort jsFieldLe fs).and hne).imp_of_mem fun {f g} hf hg hfg => ?_
  have hf := hperm.mem_iff.mp hf
  have hg := hperm.mem_iff.mp hg
  rw [(stripBom_eq_self_iff _).mpr (hbom f hf), (stripBom_eq_self_iff _).mpr (hbom g hg)]
  rcases (keyLe_iff _ _).mp hfg.1 with hlt | heq
  · exact hlt
  · have heq := congrArg Utf16.ofChars (Utf8.encode_injective heq)
    rw [hwf f hf, hwf g hg] at heq
    exact absurd heq hfg.2

/-- A field whose key is decoded as it was, among keys that increase, is found by it. -/
theorem getFieldByKey_of_increasing {v : Variant} {info : ObjectInfo} {view : List (List Char × Variant)}
    (h : v.ObjectView info view) (hlen : view.length ≤ 2 ^ 30) (horder : Increasing (view.map Prod.fst)) {i : Nat}
    {f : List Char × Variant} (hf : view[i]? = some f) {fuel : Nat} (hfuel : view.length < fuel) :
    v.getFieldByKey f.1 fuel = some (.ok (some f.2)) := by
  obtain ⟨hi, hget⟩ := List.getElem?_eq_some_iff.mp hf
  have hnodup := nodup_of_increasing horder
  have hbefore : ∀ j (hj : j < i), view[j].1 ≠ f.1 := by
    intro j hj heq
    have hi' : i < (view.map Prod.fst).length := by rw [List.length_map]; exact hi
    have hj' : j < (view.map Prod.fst).length := hj.trans hi'
    have hmap : (view.map Prod.fst)[j] = (view.map Prod.fst)[i] := by simpa [hget] using heq
    have := hnodup.getElem_inj_iff.mp hmap
    omega
  have hfirst : f.1 ∉ (view.map Prod.fst).take i := by
    intro hmem
    obtain ⟨j, hj, heq⟩ := List.getElem_of_mem hmem
    rw [List.length_take, List.length_map] at hj
    exact hbefore j (by omega) (by simpa using heq)
  refine getFieldByKey_of_view h hlen ?_ ?_ hfuel
  · have hfind : (view.find? fun g => g.1 = f.1) = some f :=
      List.find?_eq_some_iff_getElem.mpr ⟨by simp, i, hi, hget, fun j hj => by simpa using hbefore j hj⟩
    rw [hfind]
    rfl
  · rw [search_of_alongHalves (alongHalves_of_increasing horder) hf hfirst, Option.bind_some, hf]
    rfl

/-- A string is read back, and the fields of an object with distinct texts as keys are found by index and by
key, exactly where no byte order mark is at the front. -/
theorem strings_and_keys_iff {t : JsTree} {sizeLimit maxArguments : Nat} {r : Variant}
    (hbuild : t.build sizeLimit maxArguments = .ok r) :
    (∀ v s, Placed r t v (.primitive (.string s)) → (v.getString = .ok s ↔ ¬StartsWithBom s)) ∧
      ∀ v fs, Placed r t v (.object fs) → (fs.map Prod.fst).Nodup → (∀ f ∈ fs, Utf16.WellFormed f.1) →
        (v.FindsFields (t.keys []) fs ↔ ∀ f ∈ fs, ¬StartsWithBom (Utf16.scalars f.1)) := by
  refine ⟨fun v s hv => ?_, fun v fs hv hnodup hwf => ?_⟩
  · rw [getString_of_holdsJs (holdsJs_of_placed hbuild hv), Except.ok.injEq]
    exact stripBom_eq_self_iff s
  · obtain ⟨info, view, hfields⟩ := fieldsJs_of_placed hbuild hv
    have hperm := List.perm_insertionSort jsFieldLe fs
    constructor
    · intro hfinds f hf
      obtain ⟨i, hi, hget⟩ := List.getElem_of_mem (hperm.mem_iff.mpr hf)
      have hget := List.getElem?_eq_some_iff.mpr ⟨hi, hget⟩
      obtain ⟨c, -, hc, -⟩ := hfinds i f hget
      obtain ⟨c', hc', -⟩ := hfields.field i f hget
      rw [getFieldAtIndex_of_view hfields.tables hc'] at hc
      rw [← stripBom_eq_self_iff]
      simpa using congrArg Prod.fst (Except.ok.inj hc)
    · intro hbom i f hf
      obtain ⟨c, hc, hholds⟩ := hfields.field i f hf
      rw [(stripBom_eq_self_iff _).mpr (hbom f (hperm.mem_iff.mp (List.mem_of_getElem? hf)))] at hc
      have horder := increasing_decodedKeys hnodup hwf hbom
      rw [← hfields.decoded] at horder
      exact ⟨c, hholds, getFieldAtIndex_of_view hfields.tables hc, view.length + 1, fun fuel hfuel =>
        getFieldByKey_of_increasing hfields.tables hfields.length_le horder hc hfuel⟩

/-- Keys in descending order, of one and two bytes after the letter. -/
def columns (n : Nat) : List (JsString × JsTree) :=
  (List.range n).map fun i => (Utf16.ofChars ['c', Char.ofNat (0x90 - i)], .primitive
    (.string ['v', Char.ofNat (0x30 + i)]))

theorem columns_wellFormed {n : Nat} : ∀ f ∈ columns n, Utf16.WellFormed f.1 := by
  intro f hf
  obtain ⟨i, -, rfl⟩ := List.mem_map.mp hf
  exact Utf16.wellFormed_ofChars _

theorem columns_noBom {n : Nat} : ∀ f ∈ columns n, ¬StartsWithBom (Utf16.scalars f.1) := by
  intro f hf
  obtain ⟨i, -, rfl⟩ := List.mem_map.mp hf
  rw [Utf16.scalars_ofChars]
  simp [StartsWithBom, BOM]

theorem build_three : (JsTree.object (columns 3)).build 2000 100000 = .ok (JsTree.object (columns 3)).encoded := by
  decide +kernel

theorem build_forty : (JsTree.object (columns 40)).build 2000 100000 = .ok
    (JsTree.object (columns 40)).encoded := by
  decide +kernel

theorem nodup_columns : ((columns 3).map Prod.fst).Nodup ∧ ((columns 40).map Prod.fst).Nodup := by
  decide +kernel

/-- Three fields are searched one after the other, forty by halves. -/
theorem strings_and_keys_iff_columns :
    (∃ r, (JsTree.object (columns 3)).build 2000 100000 = .ok r ∧
      r.FindsFields ((JsTree.object (columns 3)).keys []) (columns 3)) ∧
    ∃ r, (JsTree.object (columns 40)).build 2000 100000 = .ok r ∧
      r.FindsFields ((JsTree.object (columns 40)).keys []) (columns 40) := by
  refine ⟨⟨_, build_three, ((strings_and_keys_iff build_three).2 _ _ .root ?_ columns_wellFormed).mpr
    columns_noBom⟩,
    ⟨_, build_forty, ((strings_and_keys_iff build_forty).2 _ _ .root ?_ columns_wellFormed).mpr columns_noBom⟩⟩
  · exact nodup_columns.1
  · exact nodup_columns.2

/-- A string and a key with a mark at the front: the string is read without it, and the field is found under
another key. -/
def marked : JsTree := .object [(Utf16.ofChars [BOM, 'a'], .primitive (.string [BOM, 'x']))]

theorem strings_and_keys_iff_fails :
    (∃ v, (JsTree.primitive (.string [BOM, 'x'])).build 100 100000 = .ok v ∧ v.getString = .ok ['x']) ∧
      ∃ r c, marked.build 100 100000 = .ok r ∧ r.getFieldAtIndex 0 = .ok (['a'], c) ∧ c.getString = .ok ['x'] ∧
        r.getFieldByKey [BOM, 'a'] 2 = some (.ok none) :=
  ⟨⟨(JsTree.primitive (.string [BOM, 'x'])).encoded, rfl, rfl⟩,
    marked.encoded, ⟨marked.encoded.value, marked.encoded.metadata, 5⟩, rfl, rfl, rfl, rfl⟩

/-! ## The two searches -/

/-- The searches of an object that was built agree on every string exactly where no key has a replacement
character, or a surrogate that stands alone, and the decoded keys are in order along the halves. Keys that are
decoded as different texts are so exactly where they increase. -/
theorem lookupsAgree_iff {t : JsTree} {sizeLimit maxArguments : Nat} {r : Variant}
    (hbuild : t.build sizeLimit maxArguments = .ok r) {v : Variant}
    {fs : List (JsString × JsTree)} (hv : Placed r t v (.object fs)) :
    (v.LookupsAgree ↔ (∀ f ∈ fs, Utf16.replacementChar ∉ Utf16.scalars f.1) ∧ AlongHalves (decodedKeys fs)) ∧
      ((decodedKeys fs).Nodup → (AlongHalves (decodedKeys fs) ↔ Increasing (decodedKeys fs))) := by
  obtain ⟨info, view, hfields⟩ := fieldsJs_of_placed hbuild hv
  refine ⟨?_, fun hnodup => ⟨fun h => increasing_of_alongHalves h hnodup, alongHalves_of_increasing⟩⟩
  rw [lookupsAgree_iff_of_view hfields.tables hfields.length_le hfields.children, hfields.decoded]
  refine and_congr_left fun _ => ?_
  have hview : (∀ f ∈ view, Utf16.replacementChar ∉ f.1) ↔ ∀ key ∈ decodedKeys fs, Utf16.replacementChar ∉ key := by
    rw [← hfields.decoded, List.forall_mem_map]
  rw [hview, decodedKeys, List.forall_mem_map]
  simp only [List.mem_insertionSort]
  exact forall₂_congr fun f _ => not_congr (mem_stripBom (by decide) _)

theorem lookupsAgree_columns :
    (∃ r, (JsTree.object (columns 3)).build 2000 100000 = .ok r ∧ r.LookupsAgree) ∧
      ∃ r, (JsTree.object (columns 40)).build 2000 100000 = .ok r ∧ r.LookupsAgree := by
  refine ⟨⟨_, build_three, (lookupsAgree_iff build_three .root).1.mpr ⟨by decide +kernel, ?_⟩⟩,
    ⟨_, build_forty, (lookupsAgree_iff build_forty .root).1.mpr ⟨by decide +kernel, ?_⟩⟩⟩
  · exact alongHalves_of_increasing (increasing_decodedKeys nodup_columns.1 columns_wellFormed columns_noBom)
  · exact alongHalves_of_increasing (increasing_decodedKeys nodup_columns.2 columns_wellFormed columns_noBom)

deriving instance DecidableEq for ObjectInfo

/-- As many fields as are searched by halves, one of them under the replacement character. -/
def crowdedFields : List (JsString × JsTree) :=
  (List.range 32).map fun i => (Utf16.ofChars [Char.ofNat (0xFFFD - i)], .primitive .null)

/-- A surrogate that stands alone: the search by halves finds a field, the search by one field after the other
does not. -/
theorem lookupsAgree_crowded_fails : ∃ r info c, (JsTree.object crowdedFields).build 1000 100000 = .ok r ∧
    (crowdedFields.map Prod.fst).Nodup ∧ r.objectInfo = .ok info ∧ info.numFields = BINARY_SEARCH_THRESHOLD ∧
    r.jsLinearSearch info [Utf16.lone] 0 info.numFields = .ok none ∧
    r.binarySearch info (Utf8.encode (Utf16.scalars [Utf16.lone])) 7 0 ((info.numFields : Int) - 1) = some
      (.ok (some c)) := by
  refine ⟨(JsTree.object crowdedFields).encoded, ⟨32, 1, 1, 2, 34, 67⟩,
    ⟨(JsTree.object crowdedFields).encoded.value, (JsTree.object crowdedFields).encoded.metadata, 67⟩, ?_⟩
  decide +kernel

end Variant

end ConfluentKafka
