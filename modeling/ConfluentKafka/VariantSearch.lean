import ConfluentKafka.Bisect
import ConfluentKafka.Utf16
import ConfluentKafka.VariantRoundTrip

/-!
# The search for a field

What `getFieldByKey` finds in an object, by the keys and the values that its tables give: the search
by one field after the other finds the first field with the key, the search by halves one of them
where the keys are in order.
-/

namespace ConfluentKafka

open VariantFormat

namespace Variant

/-- The fields of an object as its tables give them: key and value. -/
structure ObjectView (v : Variant) (info : ObjectInfo) (view : List (List Char × Variant)) : Prop where
  eq : v.objectInfo = .ok info
  numFields : info.numFields = view.length
  key : ∀ (i : Nat) (f : List Char × Variant), view[i]? = some f → v.keyAt info i = .ok f.1
  child : ∀ (i : Nat) (f : List Char × Variant), view[i]? = some f →
    v.childAt info.offsetStart info.offsetSize info.dataStart i = .ok f.2

/-- The search by one field after the other, from the `i`-th on, for a key that is the one looked for. -/
def scan (v : Variant) (info : ObjectInfo) (found : List Char → Bool) : Nat → Nat → Except VariantFault
    (Option Variant)
  | _, 0 => .ok none
  | i, n + 1 => do
    let k ← v.keyAt info i
    if found k then return some (← v.childAt info.offsetStart info.offsetSize info.dataStart i)
    else scan v info found (i + 1) n

theorem linearSearch_eq_scan (v : Variant) (info : ObjectInfo) (key : List Char) (i n : Nat) :
    v.linearSearch info key i n = v.scan info (fun k => k = key) i n := by
  induction n generalizing i with
  | zero => rfl
  | succ n ih =>
    rw [linearSearch, scan]
    simp only [ih, decide_eq_true_eq]

def jsLinearSearch (v : Variant) (info : ObjectInfo) (key : JsString) (i n : Nat) :
    Except VariantFault (Option Variant) :=
  v.scan info (fun k => Utf16.ofChars k = key) i n

def compareAt (view : List (List Char × Variant)) (keyBytes : Bytes) (i : Nat) : Int :=
  (view[i]?).elim 0 fun f => compareKeysBytes (Utf8.encode f.1) keyBytes

theorem compareAt_of_getElem? {view : List (List Char × Variant)} {i : Nat} {f : List Char × Variant}
    (h : view[i]? = some f) (keyBytes : Bytes) : compareAt view keyBytes i = compareKeysBytes
    (Utf8.encode f.1) keyBytes := by
  rw [compareAt, h]
  rfl

section

variable {v : Variant} {info : ObjectInfo} {view : List (List Char × Variant)} (h : v.ObjectView info view)
include h

theorem scan_of_view (found : List Char → Bool) (n i : Nat) (hn : i + n = view.length) :
    v.scan info found i n = .ok (((view.drop i).find? fun f => found f.1).map Prod.snd) := by
  induction n generalizing i with
  | zero =>
    rw [scan, List.drop_of_length_le (by omega)]
    rfl
  | succ n ih =>
    have hlt : i < view.length := by omega
    have hget := List.getElem?_eq_getElem hlt
    rw [scan, h.key i _ hget, List.drop_eq_getElem_cons hlt, List.find?_cons]
    show (if found view[i].1 = true then _ else _) = _
    by_cases hfound : found view[i].1 = true
    · rw [if_pos hfound, h.child i _ hget, hfound]
      rfl
    · rw [if_neg hfound, ih (i + 1) (by omega), Bool.eq_false_iff.mpr hfound]

theorem linearSearch_of_view (key : List Char) :
    v.linearSearch info key 0 info.numFields = .ok ((view.find? fun f => f.1 = key).map Prod.snd) := by
  rw [linearSearch_eq_scan, scan_of_view h _ _ 0 (by rw [h.numFields]; omega), List.drop_zero]

theorem jsLinearSearch_of_view (key : JsString) :
    v.jsLinearSearch info key 0 info.numFields = .ok
      ((view.find? fun f => Utf16.ofChars f.1 = key).map Prod.snd) := by
  rw [jsLinearSearch, scan_of_view h _ _ 0 (by rw [h.numFields]; omega), List.drop_zero]

theorem binarySearch_of_view (hlen : view.length ≤ 2 ^ 30) (keyBytes : Bytes) (fuel : Nat) {lo hi : Nat}
    (hhi : hi ≤ view.length) (hfuel : hi - lo < fuel) :
    v.binarySearch info keyBytes fuel lo ((hi : Int) - 1) =
      some (.ok ((Bisect.search (compareAt view keyBytes) lo hi).bind fun i => (view[i]?).map Prod.snd)) := by
  induction fuel generalizing lo hi with
  | zero => omega
  | succ fuel ih =>
    rw [binarySearch]
    by_cases hlt : lo < hi
    · have hmid : toInt32 (lo + ((hi : Int) - 1)) / 2 = ((lo + (hi - 1)) / 2 : Nat) := by
        rw [toInt32_eq (by omega) (by omega)]
        omega
      have hin : (lo + (hi - 1)) / 2 < view.length := by omega
      have hget := List.getElem?_eq_getElem hin
      have hcompare := compareAt_of_getElem? hget keyBytes
      rw [if_pos (by omega), hmid]
      dsimp only
      rw [h.key _ _ hget]
      dsimp only
      rw [← hcompare]
      by_cases hneg : compareAt view keyBytes ((lo + (hi - 1)) / 2) < 0
      · have hnext : (((lo + (hi - 1)) / 2 : Nat) : Int) + 1 = ((lo + (hi - 1)) / 2 + 1 : Nat) := by omega
        rw [if_pos hneg, Bisect.search_of_neg hlt hneg, hnext, ih hhi (by omega)]
      by_cases hpos : 0 < compareAt view keyBytes ((lo + (hi - 1)) / 2)
      · rw [if_neg hneg, if_pos hpos, Bisect.search_of_pos hlt hpos, ih (by omega) (by omega)]
      · rw [if_neg hneg, if_neg hpos, Bisect.search_of_zero hlt (by omega), h.child _ _ hget,
          Option.bind_some, hget]
        rfl
    · rw [if_neg (by omega), Bisect.search_of_le (by omega)]
      rfl

theorem getFieldAtIndex_of_view {i : Nat} {f : List Char × Variant} (hf : view[i]? = some f) :
    v.getFieldAtIndex i = .ok f := by
  have hkey := h.key i f hf
  have hchild := h.child i f hf
  rw [keyAt] at hkey
  rw [childAt] at hchild
  obtain ⟨id, hid, hkey⟩ := bind_eq_ok hkey
  obtain ⟨offset, hoffset, hnew⟩ := bind_eq_ok hchild
  rw [getFieldAtIndex, h.eq]
  simp only [bind, Except.bind]
  rw [hid, hoffset]
  simp only
  rw [hkey, hnew]
  rfl

end

/-! ## Keys in order -/

/-- On the way to the first of the fields with a key, the halving passes smaller keys in front of it and larger keys
behind it. -/
def AlongHalves (keys : List (List Char)) : Prop :=
  ∀ i key, keys[i]? = some key → key ∉ keys.take i → ∀ m ∈ Bisect.way i 0 keys.length, ∀ other,
    keys[m]? = some other →
    (m < i → Utf8.encode other < Utf8.encode key) ∧ (i < m → Utf8.encode key < Utf8.encode other)

def Increasing (keys : List (List Char)) : Prop := keys.Pairwise fun key other =>
    Utf8.encode key < Utf8.encode other

theorem compareAt_neg_iff {view : List (List Char × Variant)} {i : Nat} {f : List Char × Variant}
    (h : view[i]? = some f)
    (keyBytes : Bytes) : compareAt view keyBytes i < 0 ↔ Utf8.encode f.1 < keyBytes := by
  rw [compareAt_of_getElem? h, compareKeysBytes_neg_iff]

theorem compareAt_pos_iff {view : List (List Char × Variant)} {i : Nat} {f : List Char × Variant}
    (h : view[i]? = some f)
    (keyBytes : Bytes) : 0 < compareAt view keyBytes i ↔ keyBytes < Utf8.encode f.1 := by
  rw [compareAt_of_getElem? h, ← compareKeysBytes_neg_iff, compareKeysBytes_swap (Utf8.encode f.1) keyBytes]
  omega

theorem compareAt_eq_zero_iff {view : List (List Char × Variant)} {i : Nat} {f : List Char × Variant}
    (h : view[i]? = some f)
    (key : List Char) : compareAt view (Utf8.encode key) i = 0 ↔ f.1 = key := by
  rw [compareAt_of_getElem? h, compareKeysBytes_eq_zero_iff]
  exact ⟨Utf8.encode_injective, congrArg Utf8.encode⟩

/-- What it takes for the halving to find a field by its key. -/
theorem search_eq_some_iff_of_view {view : List (List Char × Variant)} {i : Nat} {f : List Char × Variant}
    (hf : view[i]? = some f) : Bisect.search (compareAt view (Utf8.encode f.1)) 0 view.length = some i ↔
      ∀ m ∈ Bisect.way i 0 view.length, ∀ g, view[m]? = some g →
        (m < i → Utf8.encode g.1 < Utf8.encode f.1) ∧ (i < m → Utf8.encode f.1 < Utf8.encode g.1) := by
  have hi : i < view.length := (List.getElem?_eq_some_iff.mp hf).choose
  have hzero : compareAt view (Utf8.encode f.1) i = 0 := (compareAt_eq_zero_iff hf f.1).mpr rfl
  rw [Bisect.search_eq_some_iff (Nat.zero_le i) hi, and_iff_right hzero]
  refine forall₂_congr fun m hm => ?_
  have hget := List.getElem?_eq_getElem (Bisect.mem_way hm).2
  rw [compareAt_neg_iff hget, compareAt_pos_iff hget]
  constructor
  · intro h g hg
    rw [hget] at hg
    cases hg
    exact h
  · intro h
    exact h _ hget

theorem search_of_alongHalves {view : List (List Char × Variant)} (horder : AlongHalves (view.map Prod.fst))
    {i : Nat}
    {f : List Char × Variant} (hf : view[i]? = some f) (hfirst : f.1 ∉ (view.map Prod.fst).take i) :
    Bisect.search (compareAt view (Utf8.encode f.1)) 0 view.length = some i := by
  rw [search_eq_some_iff_of_view hf]
  intro m hm g hg
  have hlen : (view.map Prod.fst).length = view.length := List.length_map _
  refine horder i f.1 (by rw [List.getElem?_map, hf]; rfl) hfirst m (by rw [hlen]; exact hm) g.1 ?_
  rw [List.getElem?_map, hg]
  rfl

theorem alongHalves_of_increasing {keys : List (List Char)} (h : Increasing keys) : AlongHalves keys := by
  intro i key hi _ m _ other hm
  obtain ⟨hi', rfl⟩ := List.getElem?_eq_some_iff.mp hi
  obtain ⟨hm', rfl⟩ := List.getElem?_eq_some_iff.mp hm
  have hlt := List.pairwise_iff_getElem.mp h
  exact ⟨fun hlo => hlt m i hm' hi' hlo, fun hhi => hlt i m hi' hm' hhi⟩

theorem nodup_of_increasing {keys : List (List Char)} (h : Increasing keys) : keys.Nodup := by
  refine h.imp fun {key other} hlt heq => ?_
  rw [heq] at hlt
  exact List.lt_irrefl _ hlt

/-- Keys that differ are in order along the halves only where they increase. -/
theorem increasing_of_alongHalves {keys : List (List Char)} (h : AlongHalves keys) (hnodup : keys.Nodup) :
    Increasing keys := by
  let c : Nat → Nat → Int := fun j i => compareKeysBytes (Utf8.encode (keys.getD i []))
    (Utf8.encode (keys.getD j []))
  have hneg : ∀ i j, c j i < 0 ↔ Utf8.encode (keys.getD i []) < Utf8.encode (keys.getD j []) := fun i j =>
    compareKeysBytes_neg_iff _ _
  have hswap : ∀ i j, c i j = -c j i := fun i j => compareKeysBytes_swap _ _
  have hgetD : ∀ {i : Nat} (hi : i < keys.length), keys.getD i [] = keys[i] := by
    intro i hi
    simp [hi]
  have hget : ∀ {i : Nat}, i < keys.length → keys[i]? = some (keys.getD i []) := by
    intro i hi
    rw [List.getElem?_eq_getElem hi, hgetD hi]
  have hcompares : Bisect.Compares c keys.length := by
    refine ⟨hswap, fun i j k hij hjk => ?_, fun i j hi hj hne hzero => hne ?_⟩
    · rw [hneg] at hij hjk ⊢
      have : Trans (fun x y : UInt8 => x < y) (fun x y => x < y) (fun x y => x < y) := ⟨UInt8.lt_trans⟩
      exact List.lt_trans hij hjk
    · have heq := Utf8.encode_injective ((compareKeysBytes_eq_zero_iff _ _).mp hzero)
      rw [hgetD hi, hgetD hj] at heq
      exact hnodup.getElem_inj_iff.mp heq
  have hfound : ∀ j, 0 ≤ j → j < keys.length → Bisect.search (c j) 0 keys.length = some j := by
    intro j _ hj
    rw [Bisect.search_eq_some_iff (Nat.zero_le j) hj]
    refine ⟨(compareKeysBytes_eq_zero_iff _ _).mpr rfl, fun m hm => ?_⟩
    have hfirst : keys.getD j [] ∉ keys.take j := by
      intro hmem
      obtain ⟨k, hk, heq⟩ := List.getElem_of_mem hmem
      rw [List.length_take] at hk
      rw [List.getElem_take, hgetD hj] at heq
      have := hnodup.getElem_inj_iff.mp heq
      omega
    have horder := h j _ (hget hj) hfirst m hm _ (hget (Bisect.mem_way hm).2)
    refine ⟨fun hlt => (hneg m j).mpr (horder.1 hlt), fun hlt => ?_⟩
    have hlt' := (hneg j m).mpr (horder.2 hlt)
    rw [hswap] at hlt'
    omega
  refine List.pairwise_iff_getElem.mpr fun i j hi hj hij => ?_
  have hlt := (hneg i j).mp (Bisect.increasing_of_search hcompares keys.length (by omega) (Nat.le_refl _) hfound i j
    (Nat.zero_le i) hij hj)
  rwa [hgetD hi, hgetD hj] at hlt

/-! ## The two searches -/

/-- For every string of the language, the search by halves ends as the search by one field after the other does. -/
def LookupsAgree (v : Variant) : Prop :=
  ∀ info, v.objectInfo = .ok info → ∀ key : JsString, ∃ enough, ∀ fuel, enough ≤ fuel →
    v.binarySearch info (Utf8.encode (Utf16.scalars key)) fuel 0 ((info.numFields : Int) - 1) =
      some (v.jsLinearSearch info key 0 info.numFields)

section

variable {v : Variant} {info : ObjectInfo} {view : List (List Char × Variant)} (h : v.ObjectView info view)
  (hlen : view.length ≤ 2 ^ 30)
include h hlen

theorem lookupsAgree_iff_search : v.LookupsAgree ↔ ∀ key : JsString,
    ((Bisect.search (compareAt view (Utf8.encode (Utf16.scalars key))) 0 view.length).bind fun i =>
      (view[i]?).map Prod.snd) =
      (view.find? fun f => Utf16.ofChars f.1 = key).map Prod.snd := by
  have hbinary : ∀ (key : JsString) {fuel : Nat}, view.length < fuel →
      v.binarySearch info (Utf8.encode (Utf16.scalars key)) fuel 0 ((info.numFields : Int) - 1) = some (.ok
        ((Bisect.search (compareAt view (Utf8.encode (Utf16.scalars key))) 0 view.length).bind fun i =>
          (view[i]?).map Prod.snd)) := by
    intro key fuel hfuel
    rw [h.numFields]
    exact binarySearch_of_view h hlen _ fuel (Nat.le_refl _) hfuel
  constructor
  · intro hagree key
    obtain ⟨enough, hall⟩ := hagree info h.eq key
    have heq := hall (max enough (view.length + 1)) (Nat.le_max_left _ _)
    rw [hbinary key (Nat.le_max_right _ _), jsLinearSearch_of_view h] at heq
    simpa using heq
  · intro hall info' hinfo' key
    rw [h.eq] at hinfo'
    cases hinfo'
    refine ⟨view.length + 1, fun fuel hfuel => ?_⟩
    rw [hbinary key hfuel, jsLinearSearch_of_view h, hall key]

theorem getFieldByKey_of_view {key : List Char} {c : Variant}
    (hlinear : (view.find? fun f => f.1 = key).map Prod.snd = some c)
    (hbinary : (Bisect.search (compareAt view (Utf8.encode key)) 0 view.length).bind
      (fun i => (view[i]?).map Prod.snd) = some c)
    {fuel : Nat} (hfuel : view.length < fuel) : v.getFieldByKey key fuel = some (.ok (some c)) := by
  rw [getFieldByKey, h.eq]
  dsimp only
  by_cases hfew : info.numFields < BINARY_SEARCH_THRESHOLD
  · rw [if_pos hfew, linearSearch_of_view h, hlinear]
  · rw [if_neg hfew, h.numFields]
    have hsearch := binarySearch_of_view h hlen (Utf8.encode key) fuel (Nat.le_refl view.length)
      (show view.length - 0 < fuel from hfuel)
    rw [hbinary] at hsearch
    exact hsearch

omit h hlen in
theorem find?_key_eq_some {p : List Char → Bool} {f : List Char × Variant}
    (hf : (view.find? fun f => p f.1) = some f) :
    p f.1 = true ∧ ∃ i : Nat, view[i]? = some f ∧ ∀ k ∈ (view.map Prod.fst).take i, p k = false := by
  obtain ⟨hfound, i, hi, hget, hbefore⟩ := List.find?_eq_some_iff_getElem.mp hf
  refine ⟨hfound, i, by rw [List.getElem?_eq_getElem hi, hget], fun k hk => ?_⟩
  obtain ⟨j, hj, rfl⟩ := List.getElem_of_mem hk
  rw [List.length_take] at hj
  have := hbefore j (by omega)
  simpa [List.getElem_take] using this

/-- The searches agree where the keys have no replacement character and are in order along the halves, and
only there. -/
theorem lookupsAgree_iff_of_view (hnodup : (view.map Prod.snd).Nodup) :
    v.LookupsAgree ↔ (∀ f ∈ view, Utf16.replacementChar ∉ f.1) ∧ AlongHalves (view.map Prod.fst) := by
  rw [lookupsAgree_iff_search h hlen]
  constructor
  · intro hagree
    refine ⟨fun f hf hmem => ?_, fun i key hi hfirst m hm other hother => ?_⟩
    · -- one string of which the text is the key, and one that is no text
      obtain ⟨s, hs, hnone⟩ := Utf16.exists_lone hmem
      have htext := hagree (Utf16.ofChars f.1)
      have hlone := hagree s
      rw [Utf16.scalars_ofChars] at htext
      rw [hs, htext] at hlone
      have hnot : (view.find? fun g => Utf16.ofChars g.1 = s) = none := by
        rw [List.find?_eq_none]
        intro g _
        simpa using hnone g.1
      rw [hnot, Option.map_none, Option.map_eq_none_iff, List.find?_eq_none] at hlone
      exact hlone f hf (by simp)
    · rw [List.length_map] at hm
      rw [List.getElem?_map, Option.map_eq_some_iff] at hi hother
      obtain ⟨f, hf, rfl⟩ := hi
      obtain ⟨g, hg, rfl⟩ := hother
      have hfind : (view.find? fun e => Utf16.ofChars e.1 = Utf16.ofChars f.1) = some f := by
        obtain ⟨hi, hget⟩ := List.getElem?_eq_some_iff.mp hf
        refine List.find?_eq_some_iff_getElem.mpr ⟨by simp, i, hi, hget, fun j hj => ?_⟩
        have hne : view[j].1 ≠ f.1 := by
          intro heq
          refine hfirst (List.mem_take_iff_getElem.mpr ⟨j, ?_, by simpa using heq⟩)
          rw [List.length_map]
          omega
        simpa using fun heq => hne (Utf16.ofChars_injective heq)
      have hkey := hagree (Utf16.ofChars f.1)
      rw [hfind, Utf16.scalars_ofChars, Option.map_some, Option.bind_eq_some_iff] at hkey
      obtain ⟨j, hsearch, hj⟩ := hkey
      have hij : i = j := by
        have hfi : (view.map Prod.snd)[i]? = some f.2 := by rw [List.getElem?_map, hf]; rfl
        rw [← List.getElem?_map] at hj
        obtain ⟨hi', hfi⟩ := List.getElem?_eq_some_iff.mp hfi
        obtain ⟨hj', hfj⟩ := List.getElem?_eq_some_iff.mp hj
        exact hnodup.getElem_inj_iff.mp (hfi.trans hfj.symm)
      rw [← hij] at hsearch
      exact (search_eq_some_iff_of_view hf).mp hsearch m hm g hg
  · rintro ⟨hscalar, horder⟩ key
    cases hfind : view.find? fun f => Utf16.ofChars f.1 = key with
    | some f =>
      obtain ⟨hkey, i, hf, hbefore⟩ := find?_key_eq_some (p := fun k => Utf16.ofChars k = key) hfind
      have hkey : Utf16.ofChars f.1 = key := by simpa using hkey
      have hfirst : f.1 ∉ (view.map Prod.fst).take i := by
        intro hmem
        have := hbefore _ hmem
        simp [hkey] at this
      rw [← hkey, Utf16.scalars_ofChars, search_of_alongHalves horder hf hfirst, Option.bind_some, hf]
    | none =>
      cases hsearch : Bisect.search (compareAt view (Utf8.encode (Utf16.scalars key))) 0 view.length with
      | none => rfl
      | some j =>
        obtain ⟨-, hj, hzero⟩ := Bisect.search_eq_some hsearch
        have hget := List.getElem?_eq_getElem hj
        have heq := (compareAt_eq_zero_iff hget _).mp hzero
        have hwf : Utf16.WellFormed key := by
          refine Utf16.wellFormed_of_not_mem ?_
          rw [← heq]
          exact hscalar _ (List.getElem_mem hj)
        rw [List.find?_eq_none] at hfind
        exact absurd (by rw [heq]; simpa using (show _ = _ from hwf)) (hfind _ (List.getElem_mem hj))

end

/-- The tables that the builder wrote, with their keys from the dictionary. -/
theorem objectView_of_at {v : Variant} {keys : List Bytes} (hmeta : v.metadata = VariantBuilder.metadataBytes keys)
    (hlen : (VariantBuilder.metadataBytes keys).length ≤ MAX_ARRAY_LENGTH) {fields : List FieldEntry}
    {dataSize : Nat}
    {data : Bytes} {info : ObjectInfo} (h : v.ObjectAt fields (maxId fields) dataSize data info)
    (hids : ∀ f ∈ fields, f.id < 2 ^ 32 ∧ keys[f.id]? = some (Utf8.encode f.key) ∧ IsString f.key)
    (hsize : dataSize < 2 ^ 32)
    (hle : ∀ f ∈ fields, f.offset ≤ dataSize) :
    v.ObjectView info (fields.map fun f => (stripBom f.key, ⟨v.value, v.metadata, info.dataStart + f.offset⟩)) where
  eq := h.eq
  numFields := by rw [h.numFields, List.length_map]
  key := by
    intro i f hf
    rw [List.getElem?_map, Option.map_eq_some_iff] at hf
    obtain ⟨e, he, rfl⟩ := hf
    have hmem := List.mem_of_getElem? he
    have hread := readUnsignedLE_entry (f := fun f : FieldEntry => f.id) h.ids he (le_maxId hmem)
      (maxId_lt (by decide) fun g hg => (hids g hg).1)
    rw [keyAt, h.idSize, hread]
    simp only [bind, Except.bind]
    rw [hmeta, getMetadataKey_of_getElem? hlen (hids e hmem).2.1 (hids e hmem).2.2]
  child := by
    intro i f hf
    rw [List.getElem?_map, Option.map_eq_some_iff] at hf
    obtain ⟨e, he, rfl⟩ := hf
    have hmem := List.mem_of_getElem? he
    have hread := readUnsignedLE_entry (f := fun f : FieldEntry => f.offset) h.offsets he (hle e hmem) hsize
    rw [childAt, h.offsetSize, hread]
    simp only [bind, Except.bind]
    rw [hmeta, new_metadataBytes]

end Variant

end ConfluentKafka
