import ConfluentKafka.VariantJsonTexts

/-!
# Reading any two byte arrays

The search for a key halves what is between its two ends, but takes the sum of the ends as a 32-bit
number: with more than 2^30 fields it may go right forever. Where it does not, and no text that is
come to is too long for a string, every accessor returns or throws a `VariantError`.
-/

namespace ConfluentKafka

open VariantFormat

namespace Variant

section Search

variable {v : Variant} {info : ObjectInfo}

theorem safe_keyAt (info : ObjectInfo) (i : Int) : SafeUpTo True (v.keyAt info i) := by
  rw [keyAt_eq]
  exact safe_decode (safe_keyBytesAt info i)

theorem keyAt_long {i : Int} (h : v.keyAt info i = .error .stringLength) : ¬FitsString (v.keyBytesAt info i) := by
  rw [← safe_keyAt_iff, h]
  exact id

theorem keyAt_of_not_fits {i : Int} (h : ¬FitsString (v.keyBytesAt info i)) :
    v.keyAt info i = .error .stringLength := by
  rw [← safe_keyAt_iff] at h
  by_contra hlong
  exact h ((safe_keyAt info i).safe hlong)

theorem safe_linearSearch (key : List Char) : ∀ n i : Nat, SafeUpTo True (v.linearSearch info key i n)
  | 0, _ => trivial
  | n + 1, i => by
    refine (safe_keyAt info i).bind fun k _ => ?_
    split
    · exact (safe_childAt _ _ _ _).upTo.bind fun _ _ => trivial
    · exact safe_linearSearch key n (i + 1)

theorem linearSearch_eq_ok {key : List Char} {c : Variant} :
    ∀ n i : Nat, v.linearSearch info key i n = .ok (some c) → info.dataStart ≤ c.pos
  | 0, _, h => by cases h
  | n + 1, i, h => by
    obtain ⟨k, -, h⟩ := bind_eq_ok h
    split at h
    · obtain ⟨c', hc, h⟩ := bind_eq_ok h
      cases h
      exact (childAt_eq_ok hc).2
    · exact linearSearch_eq_ok n (i + 1) h

theorem binarySearch_eq_ok {keyBytes : Bytes} {c : Variant} (fuel : Nat) (low high : Int)
    (h : v.binarySearch info keyBytes fuel low high = some (.ok (some c))) : info.dataStart ≤ c.pos := by
  induction fuel generalizing low high with
  | zero => cases h
  | succ fuel ih =>
    rw [binarySearch] at h
    split at h
    · dsimp only at h
      split at h
      · cases h
      · split at h
        · exact ih _ _ h
        split at h
        · exact ih _ _ h
        · cases hc : v.childAt info.offsetStart info.offsetSize info.dataStart (toInt32 (low + high) / 2) with
          | error e => simp [hc, Except.map] at h
          | ok c' =>
            simp only [hc, Except.map, Option.some.injEq, Except.ok.injEq] at h
            exact h ▸ (childAt_eq_ok hc).2
    · cases h

theorem endsUpTo_keyAt {α : Type} {i : Int} {e : VariantFault} (h : v.keyAt info i = .error e) :
    EndsUpTo True (some (.error e : Except VariantFault α)) := by
  have hsafe := v.safe_keyAt info i
  rw [h] at hsafe
  exact .some hsafe.error

theorem ends_binarySearch {keyBytes : Bytes} (fuel : Nat) (low high : Int) (h₁ : -2 ^ 30 ≤ low) (h₂ : low ≤ 2 ^ 30)
    (h₃ : high < 2 ^ 30) (h₀ : 0 < fuel) (hfuel : high - low + 1 < fuel) :
    EndsUpTo True (v.binarySearch info keyBytes fuel low high) := by
  induction fuel generalizing low high with
  | zero => omega
  | succ fuel ih =>
    rw [binarySearch]
    split
    · next hle =>
      rw [toInt32_eq (by omega) (by omega)]
      dsimp only
      cases hkey : v.keyAt info ((low + high) / 2) with
      | error e => exact endsUpTo_keyAt hkey
      | ok midKey =>
        dsimp only
        split
        · exact ih _ _ (by omega) (by omega) h₃ (by omega) (by omega)
        split
        · exact ih _ _ h₁ h₂ (by omega) (by omega) (by omega)
        · exact .some (safe_childAt _ _ _ _).upTo.map
    · exact .some trivial

def probeLow (n : Nat) : Nat → Int
  | 0 => 0
  | k + 1 => toInt32 (probeLow n k + ((n : Int) - 1)) / 2 + 1

def probe (n k : Nat) : Int := toInt32 (probeLow n k + ((n : Int) - 1)) / 2

theorem probe_bounds (n k : Nat) : -2 ^ 30 ≤ probe n k ∧ probe n k < 2 ^ 30 := by
  have := toInt32_bounds (probeLow n k + ((n : Int) - 1))
  unfold probe
  omega

theorem probeLow_bounds (n k : Nat) : -2 ^ 30 ≤ probeLow n k ∧ probeLow n k ≤ 2 ^ 30 := by
  cases k with
  | zero => simp [probeLow]
  | succ k =>
    have := probe_bounds n k
    unfold probe at this
    rw [probeLow]
    omega

/-- The key of the field is there and smaller than the one looked up. -/
def SmallerAt (v : Variant) (info : ObjectInfo) (keyBytes : Bytes) (i : Int) : Prop :=
  ∃ k, v.keyAt info i = .ok k ∧ compareKeysBytes (Utf8.encode k) keyBytes < 0

theorem binarySearch_smaller {keyBytes : Bytes} (hn : 2 ^ 30 < info.numFields) {k : Nat}
    (h : SmallerAt v info keyBytes (probe info.numFields k)) (fuel : Nat) :
    v.binarySearch info keyBytes (fuel + 1) (probeLow info.numFields k) ((info.numFields : Int) - 1) =
      v.binarySearch info keyBytes fuel (probeLow info.numFields (k + 1)) ((info.numFields : Int) - 1) := by
  obtain ⟨midKey, hkey, hcmp⟩ := h
  have hlow := probeLow_bounds info.numFields k
  rw [probe] at hkey
  rw [binarySearch, if_pos (by omega)]
  simp only [hkey, if_pos hcmp, probeLow]

theorem binarySearch_skip {keyBytes : Bytes} (hn : 2 ^ 30 < info.numFields) (fuel k : Nat)
    (h : ∀ j < k, SmallerAt v info keyBytes (probe info.numFields j)) :
    v.binarySearch info keyBytes (fuel + k) 0 ((info.numFields : Int) - 1) =
      v.binarySearch info keyBytes fuel (probeLow info.numFields k) ((info.numFields : Int) - 1) := by
  induction k generalizing fuel with
  | zero => rfl
  | succ k ih =>
    have hbefore := ih (fuel + 1) fun j hj => h j (by omega)
    rw [show fuel + (k + 1) = fuel + 1 + k by omega, hbefore]
    exact binarySearch_smaller hn (h k (by omega)) fuel

def SearchLoops (v : Variant) (key : List Char) : Prop :=
  ∃ info, v.objectInfo = .ok info ∧ 2 ^ 30 < info.numFields ∧
    ∀ k, SmallerAt v info (Utf8.encode key) (probe info.numFields k)

theorem getFieldByKey_eq_none {key : List Char} (h : SearchLoops v key) (fuel : Nat) :
    v.getFieldByKey key fuel = none := by
  obtain ⟨info, hinfo, hn, hall⟩ := h
  have hskip := binarySearch_skip hn 0 fuel fun j _ => hall j
  rw [Nat.zero_add] at hskip
  rw [getFieldByKey, hinfo]
  dsimp only
  rw [if_neg (by simp only [BINARY_SEARCH_THRESHOLD]; omega), hskip, binarySearch]

theorem ends_getFieldByKey {key : List Char} (h : ¬SearchLoops v key) :
    ∃ fuel, EndsUpTo True (v.getFieldByKey key fuel) := by
  cases hinfo : v.objectInfo with
  | error e =>
    refine ⟨0, ?_⟩
    rw [getFieldByKey, hinfo]
    exact endsUpTo_error v.safe_objectInfo hinfo
  | ok info =>
    have hget : ∀ fuel, v.getFieldByKey key fuel =
        if info.numFields < BINARY_SEARCH_THRESHOLD then some (v.linearSearch info key 0 info.numFields)
        else v.binarySearch info (Utf8.encode key) fuel 0 ((info.numFields : Int) - 1) := by
      intro fuel
      rw [getFieldByKey, hinfo]
    by_cases hlin : info.numFields < BINARY_SEARCH_THRESHOLD
    · refine ⟨0, ?_⟩
      rw [hget, if_pos hlin]
      exact .some (safe_linearSearch key _ _)
    simp only [hget, if_neg hlin]
    by_cases hn : info.numFields ≤ 2 ^ 30
    · exact ⟨info.numFields + 1, ends_binarySearch _ _ _ (by omega) (by omega) (by omega) (by omega) (by omega)⟩
    · -- the first probe that does not send the search to the right
      have hex : ∃ k, ¬SmallerAt v info (Utf8.encode key) (probe info.numFields k) := by
        by_contra hall
        push Not at hall
        exact h ⟨info, hinfo, by omega, hall⟩
      classical
      let k := Nat.find hex
      have hk : ¬SmallerAt v info (Utf8.encode key) (probe info.numFields k) := Nat.find_spec hex
      have hbefore : ∀ j < k, SmallerAt v info (Utf8.encode key) (probe info.numFields j) := fun j hj =>
        not_not.mp (Nat.find_min hex hj)
      have hlow := probeLow_bounds info.numFields k
      have hprobe := probe_bounds info.numFields k
      refine ⟨2 ^ 31 + 3 + 1 + k, ?_⟩
      rw [binarySearch_skip (by omega) _ k hbefore, binarySearch, if_pos (by omega)]
      rw [← probe]
      dsimp only
      cases hkey : v.keyAt info (probe info.numFields k) with
      | error e => exact endsUpTo_keyAt hkey
      | ok midKey =>
        dsimp only
        split
        · next hcmp => exact absurd ⟨midKey, hkey, hcmp⟩ hk
        split
        · exact ends_binarySearch _ _ _ hlow.1 hlow.2 (by omega) (by omega) (by omega)
        · exact .some (safe_childAt _ _ _ _).upTo.map

/-! ## The keys that the search reads -/

inductive Narrows (v : Variant) (info : ObjectInfo) (keyBytes : Bytes) : Int → Int → Prop where
  | start : Narrows v info keyBytes 0 ((info.numFields : Int) - 1)
  | right {low high : Int} {k : List Char} (h : Narrows v info keyBytes low high) (hle : low ≤ high)
    (hkey : v.keyAt info (toInt32 (low + high) / 2) = .ok k)
    (hcmp : compareKeysBytes (Utf8.encode k) keyBytes < 0) :
    Narrows v info keyBytes (toInt32 (low + high) / 2 + 1) high
  | left {low high : Int} {k : List Char} (h : Narrows v info keyBytes low high) (hle : low ≤ high)
    (hkey : v.keyAt info (toInt32 (low + high) / 2) = .ok k)
    (hcmp : 0 < compareKeysBytes (Utf8.encode k) keyBytes) :
    Narrows v info keyBytes low (toInt32 (low + high) / 2 - 1)

/-- The search for the key reads that of the field `i`. -/
inductive ReadsKey (v : Variant) (info : ObjectInfo) (key : List Char) : Int → Prop where
  | linear {i : Nat} (hfew : info.numFields < BINARY_SEARCH_THRESHOLD) (hi : i < info.numFields)
    (hbefore : ∀ j < i, ∃ k, v.keyAt info (j : Nat) = .ok k ∧ k ≠ key) : ReadsKey v info key i
  | halving {low high : Int} (hmany : BINARY_SEARCH_THRESHOLD ≤ info.numFields)
    (h : Narrows v info (Utf8.encode key) low high) (hle : low ≤ high) : ReadsKey v info key
    (toInt32 (low + high) / 2)

/-- No key that the search reads is too long for a string. -/
def KeysFit (v : Variant) (key : List Char) : Prop :=
  ∀ info, v.objectInfo = .ok info → ∀ i, ReadsKey v info key i → FitsString (v.keyBytesAt info i)

theorem linearSearch_long {key : List Char} (hfew : info.numFields < BINARY_SEARCH_THRESHOLD) :
    ∀ n i : Nat, i + n = info.numFields → (∀ j < i, ∃ k, v.keyAt info (j : Nat) = .ok k ∧ k ≠ key) →
      v.linearSearch info key i n = .error .stringLength → ∃ i, ReadsKey v info key i ∧
        ¬FitsString (v.keyBytesAt info i)
  | 0, _, _, _, h => by cases h
  | n + 1, i, hin, hbefore, h => by
    rw [linearSearch] at h
    cases hkey : v.keyAt info i with
    | error e =>
      rw [hkey] at h
      cases h
      exact ⟨i, .linear hfew (by omega) hbefore, keyAt_long hkey⟩
    | ok k =>
      rw [hkey] at h
      change (if k = key then _ else _) = _ at h
      split at h
      · have hsafe : Safe (v.childAt info.offsetStart info.offsetSize info.dataStart i >>= fun c =>
          pure (some c)) :=
          (safe_childAt _ _ _ _).bind fun _ _ => trivial
        rw [h] at hsafe
        exact hsafe.elim
      · next hne =>
        refine linearSearch_long hfew n (i + 1) (by omega) (fun j hj => ?_) h
        rcases Nat.lt_succ_iff_lt_or_eq.mp hj with hlt | rfl
        · exact hbefore j hlt
        · exact ⟨k, hkey, hne⟩

theorem linearSearch_skip {key : List Char} {i : Nat} (hbefore : ∀ j < i, ∃ k, v.keyAt info (j : Nat) =
    .ok k ∧ k ≠ key)
    (n : Nat) : v.linearSearch info key 0 (i + n) = v.linearSearch info key i n := by
  induction i generalizing n with
  | zero => rw [Nat.zero_add]
  | succ i ih =>
    obtain ⟨k, hkey, hne⟩ := hbefore i (Nat.lt_succ_self i)
    rw [Nat.add_assoc, Nat.add_comm 1, ih fun j hj => hbefore j (by omega), linearSearch, hkey]
    exact if_neg hne

theorem binarySearch_long {key : List Char} (hmany : BINARY_SEARCH_THRESHOLD ≤ info.numFields) {fuel : Nat}
    {low high : Int}
    (hends : Narrows v info (Utf8.encode key) low high)
    (h : v.binarySearch info (Utf8.encode key) fuel low high = some (.error .stringLength)) :
    ∃ i, ReadsKey v info key i ∧ ¬FitsString (v.keyBytesAt info i) := by
  induction fuel generalizing low high with
  | zero => cases h
  | succ fuel ih =>
    rw [binarySearch] at h
    split at h
    · next hle =>
      dsimp only at h
      split at h
      · next hkey =>
        cases h
        exact ⟨_, .halving hmany hends hle, keyAt_long hkey⟩
      · next k hkey =>
        split at h
        · next hcmp => exact ih (hends.right hle hkey hcmp) h
        split at h
        · next hcmp => exact ih (hends.left hle hkey hcmp) h
        · have hsafe : Safe
            ((v.childAt info.offsetStart info.offsetSize info.dataStart (toInt32 (low + high) / 2)).map some) :=
            (safe_childAt _ _ _ _).map
          rw [Option.some.inj h] at hsafe
          exact hsafe.elim
    · cases h

/-- What the search comes to does not depend on how much fuel is left. -/
theorem binarySearch_mono {keyBytes : Bytes} {fuel : Nat} {low high : Int}
    {x : Except VariantFault (Option Variant)}
    (h : v.binarySearch info keyBytes fuel low high = some x) (m : Nat) :
    v.binarySearch info keyBytes (fuel + m) low high = some x := by
  induction fuel generalizing low high with
  | zero => cases h
  | succ fuel ih =>
    rw [Nat.add_right_comm]
    rw [binarySearch] at h ⊢
    split at h
    · next hle =>
      rw [if_pos hle]
      dsimp only at h ⊢
      split at h
      · exact h
      · split at h
        · next hcmp => rw [if_pos hcmp, ih h]
        · next hcmp =>
          rw [if_neg hcmp]
          split at h
          · next hcmp' => rw [if_pos hcmp', ih h]
          · next hcmp' => rw [if_neg hcmp', h]
    · next hle => rw [if_neg hle, h]

theorem Narrows.comesTo {keyBytes : Bytes} {low high : Int} (h : Narrows v info keyBytes low high) :
    ∃ m, ∀ fuel, v.binarySearch info keyBytes (fuel + m) 0 ((info.numFields : Int) - 1) =
      v.binarySearch info keyBytes fuel low high := by
  induction h with
  | start => exact ⟨0, fun _ => rfl⟩
  | right _ hle hkey hcmp ih =>
    obtain ⟨m, ih⟩ := ih
    refine ⟨m + 1, fun fuel => ?_⟩
    rw [← Nat.add_assoc, Nat.add_right_comm, ih, binarySearch, if_pos hle]
    dsimp only
    rw [hkey]
    exact if_pos hcmp
  | left _ hle hkey hcmp ih =>
    obtain ⟨m, ih⟩ := ih
    refine ⟨m + 1, fun fuel => ?_⟩
    rw [← Nat.add_assoc, Nat.add_right_comm, ih, binarySearch, if_pos hle]
    dsimp only
    rw [hkey]
    dsimp only
    rw [if_neg (by omega), if_pos hcmp]

theorem keysFit_of_ends {key : List Char} {fuel : Nat} (h : EndsSafe (v.getFieldByKey key fuel)) :
    KeysFit v key := by
  intro info hinfo i hreads
  by_contra hlong
  have hkey := keyAt_of_not_fits hlong
  obtain ⟨x, hx, hsafe⟩ := h
  rw [getFieldByKey, hinfo] at hx
  dsimp only at hx
  cases hreads with
  | @linear i hfew hi hbefore =>
    obtain ⟨n, hn⟩ := Nat.exists_eq_add_of_lt hi
    rw [if_pos hfew, hn, Nat.add_assoc, linearSearch_skip hbefore, linearSearch, hkey] at hx
    cases hx
    exact hsafe
  | @halving low high hmany hends hle =>
    rw [if_neg (by omega)] at hx
    obtain ⟨m, hm⟩ := hends.comesTo
    have hstop := hm (fuel + 1)
    rw [binarySearch, if_pos hle] at hstop
    dsimp only at hstop
    rw [hkey, Nat.add_assoc, binarySearch_mono hx] at hstop
    cases hstop
    exact hsafe

/-- The search returns or throws a `VariantError` just where it does not go right forever and no key
that it reads is too long. -/
theorem getFieldByKey_endsSafe_iff (v : Variant) (key : List Char) :
    (∃ fuel, EndsSafe (v.getFieldByKey key fuel)) ↔ ¬SearchLoops v key ∧ KeysFit v key := by
  constructor
  · rintro ⟨fuel, h⟩
    refine ⟨fun hloops => ?_, keysFit_of_ends h⟩
    obtain ⟨x, hx, -⟩ := h
    rw [getFieldByKey_eq_none hloops] at hx
    cases hx
  · rintro ⟨hends, hfit⟩
    obtain ⟨fuel, x, hx, hsafe⟩ := ends_getFieldByKey hends
    refine ⟨fuel, x, hx, hsafe.safe ?_⟩
    rintro rfl
    rw [getFieldByKey] at hx
    split at hx
    · next e hinfo =>
      have hsafe' := v.safe_objectInfo
      cases hx
      rw [hinfo] at hsafe'
      exact hsafe'
    · next info hinfo =>
      split at hx
      · next hfew =>
        obtain ⟨i, hreads, hlong⟩ := linearSearch_long hfew _ 0 (Nat.zero_add _) (fun j hj => by omega)
          (Option.some.inj hx)
        exact hlong (hfit info hinfo i hreads)
      · next hmany =>
        obtain ⟨i, hreads, hlong⟩ := binarySearch_long (Nat.not_lt.mp hmany) .start hx
        exact hlong (hfit info hinfo i hreads)

end Search

/-! ## Any two arrays -/

/-- The index is below the number of fields, if there is one. -/
def IndexBelow (v : Variant) (idx : Int) : Prop := ∀ n, v.numObjectFields = .ok n → idx < n

/-- Every accessor ends, with a result or a `VariantError`, and what it navigates to is behind. -/
structure ReadsSafely (nt : NumberText) (v : Variant) (key : List Char) : Prop where
  getType : Safe v.getType
  getBoolean : Safe v.getBoolean
  getByte : Safe v.getByte
  getShort : Safe v.getShort
  getInt : Safe v.getInt
  getLong : Safe v.getLong
  getFloat : Safe v.getFloat
  getDouble : Safe v.getDouble
  getDecimalParts : Safe v.getDecimalParts
  getDecimal : Safe v.getDecimal
  getBinary : Safe v.getBinary
  getUuid : Safe v.getUuid
  getString : Safe v.getString
  numObjectFields : Safe v.numObjectFields
  numArrayElements : Safe v.numArrayElements
  toJson : ∃ fuel, EndsSafe (toJson nt fuel v)
  getFieldByKey : ∃ fuel, EndsSafe (v.getFieldByKey key fuel)
  getFieldAtIndex : ∀ idx, IndexBelow v idx → Safe (v.getFieldAtIndex idx)
  getElementAtIndex : ∀ index, Safe (v.getElementAtIndex index)
  fieldByKey_pos : ∀ fuel c, v.getFieldByKey key fuel = some (.ok (some c)) → v.pos < c.pos
  fieldAtIndex_pos : ∀ idx k c, v.getFieldAtIndex idx = .ok (k, c) → v.pos < c.pos
  elementAtIndex_pos : ∀ index c, v.getElementAtIndex index = .ok (some c) → v.pos < c.pos

/-- No text that the accessors come to is too long for a string. -/
structure TextsFit (nt : NumberText) (v : Variant) (key : List Char) : Prop where
  string : FitsString v.stringBytes
  fields : ∀ idx, IndexBelow v idx → FitsString (v.fieldKeyBytes idx)
  search : KeysFit v key
  json : ∀ text, MakesText nt v text → IsString text.toList

theorem getFieldByKey_pos {v c : Variant} {key : List Char} {fuel : Nat}
    (h : v.getFieldByKey key fuel = some (.ok (some c))) : v.pos < c.pos := by
  rw [getFieldByKey] at h
  split at h
  · cases h
  · next info hinfo =>
    have hstart := objectInfo_dataStart hinfo
    split at h
    · exact hstart.trans_le (linearSearch_eq_ok _ _ (Option.some.inj h))
    · exact hstart.trans_le (binarySearch_eq_ok _ _ _ h)

/-- Constructing a Variant over any two byte arrays and reading it is safe, but for the search that
goes right forever and texts that are too long. -/
theorem reads_safely_iff (nt : NumberText) (value metadata : Bytes) (pos : Int) (key : List Char) :
    (Safe (new value metadata pos) ∧ ∀ v, new value metadata pos = .ok v → ReadsSafely nt v key) ↔
      ∀ v, new value metadata pos = .ok v → ¬v.SearchLoops key ∧ TextsFit nt v key := by
  constructor
  · rintro ⟨-, h⟩ v hv
    have hreads := h v hv
    obtain ⟨hends, hsearch⟩ := (getFieldByKey_endsSafe_iff v key).mp hreads.getFieldByKey
    exact
      { left := hends
        right.string := v.safe_getString_iff.mp hreads.getString
        right.fields := fun idx hidx => (v.safe_getFieldAtIndex_iff idx).mp (hreads.getFieldAtIndex idx hidx)
        right.search := hsearch
        right.json := (toJson_endsSafe_iff nt v).mp hreads.toJson }
  · intro h
    refine ⟨safe_new value metadata pos, fun v hv => ?_⟩
    obtain ⟨hends, hfit⟩ := h v hv
    exact
      { getType := v.safe_getType
        getBoolean := v.safe_getBoolean
        getByte := v.safe_getByte
        getShort := v.safe_getShort
        getInt := v.safe_getInt
        getLong := v.safe_getLong
        getFloat := v.safe_getFloat
        getDouble := v.safe_getDouble
        getDecimalParts := v.safe_getDecimalParts
        getDecimal := v.safe_getDecimal
        getBinary := v.safe_getBinary
        getUuid := v.safe_getUuid
        getString := v.safe_getString_iff.mpr hfit.string
        numObjectFields := v.safe_numObjectFields
        numArrayElements := v.safe_numArrayElements
        toJson := (toJson_endsSafe_iff nt v).mpr hfit.json
        getFieldByKey := (getFieldByKey_endsSafe_iff v key).mpr ⟨hends, hfit.search⟩
        getFieldAtIndex := fun idx hidx => (v.safe_getFieldAtIndex_iff idx).mpr (hfit.fields idx hidx)
        getElementAtIndex := v.safe_getElementAtIndex
        fieldByKey_pos := fun _ _ => getFieldByKey_pos
        fieldAtIndex_pos := fun _ _ _ hc => (getFieldAtIndex_eq_ok hc).2
        elementAtIndex_pos := fun _ _ hc => (getElementAtIndex_eq_ok hc).2 }

/-- An object of 2^32 - 1 fields, of which no byte is there, and a dictionary of 256 empty keys. -/
def loopingObject : Variant := ⟨[0x42, 0xff, 0xff, 0xff, 0xff], [0x41, 0x00, 0x01] ++ List.replicate 514 0, 0⟩

theorem probeLow_last (k : Nat) : probeLow (2 ^ 32 - 1) k = 0 := by
  induction k with
  | zero => rfl
  | succ k ih =>
    rw [probeLow, ih]
    decide

theorem searchLoops_loopingObject : loopingObject.SearchLoops ['a'] := by
  refine ⟨⟨2 ^ 32 - 1, 1, 1, 5, 5 + (2 ^ 32 - 1), 5 + (2 ^ 32 - 1) + 2 ^ 32⟩, by rfl, by decide, fun k => ⟨[],
    ?_, by decide⟩⟩
  have hprobe : probe (2 ^ 32 - 1) k = -1 := by
    rw [probe, probeLow_last]
    decide
  rw [hprobe]
  decide +kernel

/-- The search of an object that claims 2^32 - 1 fields does not end. -/
theorem reads_safely_fails :
    ¬∀ (nt : NumberText) (value metadata : Bytes) (pos : Int) (key : List Char),
      Safe (new value metadata pos) ∧ ∀ v, new value metadata pos = .ok v → ReadsSafely nt v key := by
  intro h
  have hnew : new loopingObject.value loopingObject.metadata 0 = .ok loopingObject := by decide +kernel
  obtain ⟨fuel, x, hx, -⟩ := ((h ⟨fun _ => "", fun _ => ""⟩ _ _ _ ['a']).2 _ hnew).getFieldByKey
  rw [getFieldByKey_eq_none searchLoops_loopingObject] at hx
  cases hx

end Variant

end ConfluentKafka
