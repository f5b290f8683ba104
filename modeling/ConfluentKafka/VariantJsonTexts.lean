import ConfluentKafka.VariantSafe

/-!
# The texts that `toJson` makes

What is read inside a value is behind it, so that `toJson` ends. It returns the text of the value,
throws a `VariantError`, or comes to a text that is too long for a string: that of a leaf, a key, a
field or a whole container, where all that stands before it could be written.
-/

namespace ConfluentKafka

open VariantFormat

namespace Variant

section Leaves

variable (nt : NumberText)

theorem safe_formatDate (days : Int) : Safe (formatDate days) := by
  unfold formatDate
  split <;> trivial

theorem safe_checkMicrosRange (micros : Int) : Safe (checkMicrosRange micros) := by
  unfold checkMicrosRange
  split <;> trivial

theorem safe_formatInstantMicros (micros : Int) : Safe (formatInstantMicros micros) :=
  (safe_checkMicrosRange micros).bind fun _ _ => trivial

theorem safe_formatLocalDateTimeMicros (micros : Int) : Safe (formatLocalDateTimeMicros micros) :=
  (safe_checkMicrosRange micros).bind fun _ _ => trivial

theorem safe_formatLocalTime (micros : Int) : Safe (formatLocalTime micros) := by
  unfold formatLocalTime
  split <;> trivial

theorem makeText_of_not {s : String} (h : ¬IsString s.toList) : makeText s = .error .stringLength := if_neg h

theorem not_isString_of_makeText {s : String} (h : makeText s = .error .stringLength) : ¬IsString s.toList := by
  intro hfits
  rw [makeText, if_pos hfits] at h
  cases h

theorem makeText_eq_ok {s s' : String} (h : makeText s = .ok s') : s = s' := by
  unfold makeText at h
  split at h
  · exact Except.ok.inj h
  · cases h

theorem makeText_cases (s : String) : makeText s = .ok s ∨ makeText s = .error .stringLength := by
  unfold makeText
  split
  · exact .inl rfl
  · exact .inr rfl

theorem safe_makeText (s : String) : SafeUpTo True (makeText s) := by
  rcases makeText_cases s with h | h
  · rw [h]
    trivial
  · rw [h]
    trivial

theorem safe_leafJson_short (v : Variant) {t : VariantType} (hstring : t ≠ .STRING) (hbinary : t ≠ .BINARY) :
    Safe (leafJson nt v t) := by
  cases t with
  | OBJECT => exact safe_throw _
  | ARRAY => exact safe_throw _
  | NULL => trivial
  | BOOLEAN => exact v.safe_getBoolean.bind fun b _ => by cases b <;> trivial
  | BYTE => exact v.safe_getLong.bind fun _ _ => trivial
  | SHORT => exact v.safe_getLong.bind fun _ _ => trivial
  | INT => exact v.safe_getLong.bind fun _ _ => trivial
  | LONG => exact v.safe_getLong.bind fun _ _ => trivial
  | STRING => exact absurd rfl hstring
  | DOUBLE => exact v.safe_getDouble.bind fun _ _ => trivial
  | DECIMAL4 => exact v.safe_getDecimalParts.bind fun _ _ => trivial
  | DECIMAL8 => exact v.safe_getDecimalParts.bind fun _ _ => trivial
  | DECIMAL16 => exact v.safe_getDecimalParts.bind fun _ _ => trivial
  | DATE => exact v.safe_getLong.bind fun _ _ => (safe_formatDate _).bind fun _ _ => trivial
  | TIMESTAMP_TZ =>
    exact v.safe_getLong.bind fun _ _ => (safe_formatInstantMicros _).bind fun _ _ => trivial
  | TIMESTAMP_NTZ =>
    exact v.safe_getLong.bind fun _ _ => (safe_formatLocalDateTimeMicros _).bind fun _ _ => trivial
  | FLOAT => exact v.safe_getFloat.bind fun _ _ => trivial
  | BINARY => exact absurd rfl hbinary
  | TIME => exact v.safe_getLong.bind fun _ _ => (safe_formatLocalTime _).bind fun _ _ => trivial
  | TIMESTAMP_NANOS_TZ => exact v.safe_getLong.bind fun _ _ => trivial
  | TIMESTAMP_NANOS_NTZ => exact v.safe_getLong.bind fun _ _ => trivial
  | UUID => exact v.safe_getUuid.bind fun _ _ => trivial

theorem safe_leafJson (v : Variant) (t : VariantType) : SafeUpTo True (leafJson nt v t) := by
  by_cases hstring : t = .STRING
  · subst hstring
    exact (safe_decode v.safe_stringBytes).bind fun _ _ => safe_makeText _
  by_cases hbinary : t = .BINARY
  · subst hbinary
    exact v.safe_getBinary.upTo.bind fun _ _ => safe_makeText _
  · exact (safe_leafJson_short nt v hstring hbinary).upTo

theorem textLength_append (a b : List Char) : textLength (a ++ b) = textLength a + textLength b := by
  simp [textLength, Utf16.ofChars_append]

theorem length_ofChar_bounds (c : Char) : 1 ≤ (Utf16.ofChar c).length ∧ (Utf16.ofChar c).length ≤ 2 := by
  unfold Utf16.ofChar
  split <;> simp

theorem textLength_le_escape (text : List Char) : textLength text ≤ textLength (text.flatMap escapeChar) := by
  induction text with
  | nil => exact Nat.le_refl _
  | cons c text ih =>
    have hchar : textLength [c] ≤ textLength (escapeChar c) := by
      have hbounds := fun d => length_ofChar_bounds d
      have hone : ∀ d, textLength [d] = (Utf16.ofChar d).length := fun d => by simp [textLength, Utf16.ofChars]
      have htwo : ∀ d e rest, 2 ≤ textLength (d :: e :: rest) := by
        intro d e rest
        simp only [textLength, Utf16.ofChars_cons, List.length_append]
        have := hbounds d
        have := hbounds e
        omega
      have hle := (hbounds c).2
      rw [← hone] at hle
      unfold escapeChar
      split_ifs <;> first | exact hle.trans (htwo _ _ _) | exact Nat.le_refl _
    rw [List.flatMap_cons, textLength_append, ← List.singleton_append, textLength_append]
    omega

theorem isString_of_jsonString {text : List Char} (h : IsString (jsonString text).toList) : IsString text := by
  have hle := textLength_le_escape text
  have hquoted : (jsonString text).toList = ['"'] ++ (text.flatMap escapeChar ++ ['"']) := by
    simp [jsonString]
  unfold IsString at h ⊢
  rw [hquoted, textLength_append, textLength_append] at h
  omega

inductive LeafText (v : Variant) : VariantType → String → Prop where
  | string {bs : Bytes} (h : v.stringBytes = .ok bs) : LeafText v .STRING (jsonString (textDecode bs))
  | binary {bs : Bytes} (h : v.getBinary = .ok bs) : LeafText v .BINARY (quoted (String.ofList (Base64.encode bs)))
  | short {t : VariantType} {s : String} (hstring : t ≠ .STRING) (hbinary : t ≠ .BINARY)
    (h : leafJson nt v t = .ok s) :
    LeafText v t s

variable {nt}

theorem leafJson_string {v : Variant} {bs : Bytes} (h : v.stringBytes = .ok bs) :
    leafJson nt v .STRING = makeText (jsonString (textDecode bs)) := by
  have hget : v.getString = makeString (textDecode bs) := by
    rw [getString, h]
    rfl
  rw [leafJson, hget]
  by_cases hfits : IsString (textDecode bs)
  · rw [makeString, if_pos hfits]
    rfl
  · rw [makeString_of_not hfits, makeText_of_not fun hlong => hfits (isString_of_jsonString hlong)]
    rfl

theorem leafJson_binary {v : Variant} {bs : Bytes} (h : v.getBinary = .ok bs) :
    leafJson nt v .BINARY = makeText (quoted (String.ofList (Base64.encode bs))) := by
  rw [leafJson, h]
  rfl

theorem LeafText.written {v : Variant} {t : VariantType} {s : String} (h : LeafText nt v t s) :
    leafJson nt v t = .ok s ∨ leafJson nt v t = .error .stringLength := by
  cases h with
  | string h =>
    rw [leafJson_string h]
    exact makeText_cases _
  | binary h =>
    rw [leafJson_binary h]
    exact makeText_cases _
  | short _ _ h => exact .inl h

theorem leafText_of_ok {v : Variant} {t : VariantType} {s : String} (h : leafJson nt v t = .ok s) :
    LeafText nt v t s := by
  by_cases hstring : t = .STRING
  · subst hstring
    cases hbytes : v.stringBytes with
    | error e => simp [leafJson, getString, hbytes, bind, Except.bind] at h
    | ok bs =>
      rw [leafJson_string hbytes] at h
      exact makeText_eq_ok h ▸ .string hbytes
  · by_cases hbinary : t = .BINARY
    · subst hbinary
      cases hbytes : v.getBinary with
      | error e => simp [leafJson, hbytes, bind, Except.bind] at h
      | ok bs =>
        rw [leafJson_binary hbytes] at h
        exact makeText_eq_ok h ▸ .binary hbytes
    · exact .short hstring hbinary h

end Leaves

/-! ## Parts in order -/

section Parts

variable {α : Type} {part : Nat → Option (Except VariantFault α)}

/-- The computation has no result, for want of fuel or because of a text that is too long. -/
def Cut (x : Option (Except VariantFault α)) : Prop := x = none ∨ x = some (.error .stringLength)

theorem Cut.bind {β : Type} {x : Option (Except VariantFault α)} (h : Cut x) (f : α → Except VariantFault β) :
    Cut (x.map fun r => r.bind f) := by
  rcases h with rfl | rfl
  · exact .inl rfl
  · exact .inr rfl

theorem cut_makeText {s : String} (h : ¬IsString s.toList) : Cut (some (makeText s)) :=
  .inr (congrArg some (makeText_of_not h))

theorem cut_or_written (s : String) : Cut (some (makeText s)) ∨ some (makeText s) = some (.ok s) := by
  rcases makeText_cases s with hs | hs
  · exact .inr (congrArg some hs)
  · exact .inl (.inr (congrArg some hs))

theorem parts_error {e : VariantFault} :
    ∀ {n i : Nat}, parts part i n = some (.error e) →
      ∃ j, i ≤ j ∧ j < i + n ∧ part j = some (.error e) ∧ ∀ k, i ≤ k → k < j → ∃ s, part k = some (.ok s)
  | 0, _, h => by cases h
  | n + 1, i, h => by
    rw [parts] at h
    split at h
    · cases h
    · next hpart =>
      cases h
      exact ⟨i, le_rfl, by omega, hpart, fun k _ _ => by omega⟩
    · next s hpart =>
      split at h
      · cases h
      · next hrest =>
        cases h
        obtain ⟨j, hij, hj, hfail, hbefore⟩ := parts_error hrest
        refine ⟨j, by omega, by omega, hfail, fun k hk hkj => ?_⟩
        rcases Nat.eq_or_lt_of_le hk with rfl | hlt
        · exact ⟨s, hpart⟩
        · exact hbefore k hlt hkj
      · cases h

theorem parts_ok [Inhabited α] {ss : List α} :
    ∀ {n i : Nat}, parts part i n = some (.ok ss) →
      ∃ texts : Nat → α, ss = (List.range' i n).map texts ∧ ∀ k, i ≤ k → k < i + n → part k = some (.ok (texts k))
  | 0, _, h => by
    cases h
    exact ⟨fun _ => default, rfl, fun k _ _ => by omega⟩
  | n + 1, i, h => by
    rw [parts] at h
    split at h
    · cases h
    · cases h
    · next s hpart =>
      split at h
      · cases h
      · cases h
      · next ss' hrest =>
        cases h
        obtain ⟨texts, rfl, hall⟩ := parts_ok hrest
        refine ⟨fun k => if k = i then s else texts k, ?_, fun k hk hkn => ?_⟩
        · have htail : (List.range' (i + 1) n).map (fun k => if k = i then s else texts k) =
              (List.range' (i + 1) n).map texts := by
            refine List.map_congr_left fun k hk => if_neg ?_
            have := (List.mem_range'_1.mp hk).1
            omega
          rw [List.range'_succ, List.map_cons, if_pos rfl, htail]
        · rcases Nat.eq_or_lt_of_le hk with rfl | hlt
          · simp only [hpart, if_true]
          · rw [hall k hlt (by omega)]
            simp only [if_neg (Nat.ne_of_gt hlt)]

/-- What is before the part that is cut has been written, unless it is cut itself. -/
theorem parts_cut {j : Nat} (hcut : Cut (part j)) :
    ∀ {n i : Nat}, i ≤ j → j < i + n → (∀ k, i ≤ k → k < j → Cut (part k) ∨ ∃ s, part k = some (.ok s)) →
      Cut (parts part i n)
  | 0, _, _, hj, _ => by omega
  | n + 1, i, hij, hj, hbefore => by
    have hcutAt : Cut (part i) → Cut (parts part i (n + 1)) := by
      rintro (h | h)
      · rw [parts, h]
        exact .inl rfl
      · rw [parts, h]
        exact .inr rfl
    rcases Nat.eq_or_lt_of_le hij with rfl | hlt
    · exact hcutAt hcut
    rcases hbefore i le_rfl hlt with h | ⟨s, h⟩
    · exact hcutAt h
    · rw [parts, h]
      have hrest := parts_cut (n := n) (i := i + 1) hcut hlt (by omega) fun k hk => hbefore k (by omega)
      rcases hrest with hrest | hrest
      · rw [hrest]
        exact .inl rfl
      · rw [hrest]
        exact .inr rfl

theorem parts_written {texts : Nat → α} {n : Nat}
    (h : ∀ k < n, Cut (part k) ∨ part k = some (.ok (texts k))) :
    Cut (parts part 0 n) ∨ parts part 0 n = some (.ok ((List.range n).map texts)) := by
  by_cases hcut : ∃ j < n, Cut (part j)
  · obtain ⟨j, hj, hcut⟩ := hcut
    refine .inl (parts_cut hcut (Nat.zero_le j) (by omega) fun k _ hk => ?_)
    exact (h k (by omega)).imp_right fun hk => ⟨_, hk⟩
  · have hall : ∀ i m, i + m = n → parts part i m = some (.ok ((List.range' i m).map texts)) := by
      intro i m
      induction m generalizing i with
      | zero => exact fun _ => rfl
      | succ m ih =>
        intro him
        have hi := (h i (by omega)).resolve_left fun hc => hcut ⟨i, by omega, hc⟩
        rw [parts, hi, ih (i + 1) (by omega)]
        rfl
    rw [List.range_eq_range']
    exact .inr (hall 0 n (by omega))

end Parts

/-! ## The texts of a value and of what is in it -/

section Text

attribute [local irreducible] makeText

variable (nt : NumberText)

def arrayText (n : Nat) (texts : Nat → String) : String :=
  "[" ++ ",".intercalate ((List.range n).map texts) ++ "]"

def memberText (key : List Char) (s : String) : String := jsonString key ++ ":" ++ s

def objectText (n : Nat) (keys : Nat → List Char) (texts : Nat → String) : String :=
  "\x7b" ++ ",".intercalate ((List.range n).map fun i => memberText (keys i) (texts i)) ++ "\x7d"

/-- The text of a value that can be read throughout, however long. -/
inductive JsonText : Variant → String → Prop where
  | leaf {v : Variant} {t : VariantType} {s : String} (ht : v.getType = .ok t)
    (h : LeafText nt v t s) : JsonText v s
  | array {v : Variant} {n : Nat} {children : Nat → Variant} {texts : Nat → String} (ht : v.getType = .ok .ARRAY)
    (hn : v.numArrayElements = .ok n) (hget : ∀ i < n, v.getElementAtIndex i = .ok (some (children i)))
    (h : ∀ i < n, JsonText (children i) (texts i)) : JsonText v (arrayText n texts)
  | object {v : Variant} {n : Nat} {keys : Nat → List Char} {children : Nat → Variant} {texts : Nat → String}
    (ht : v.getType = .ok .OBJECT) (hn : v.numObjectFields = .ok n)
    (hget : ∀ i < n, v.getFieldAtIndex i = .ok (keys i, children i))
    (h : ∀ i < n, JsonText (children i) (texts i)) : JsonText v (objectText n keys texts)

/-- All the elements before this one can be written. -/
structure ReachesElement (v : Variant) (i : Nat) : Prop where
  isArray : v.getType = .ok .ARRAY
  inside : ∃ n, v.numArrayElements = .ok n ∧ i < n
  before : ∀ j < i, ∃ c s, v.getElementAtIndex (j : Nat) = .ok (some c) ∧ JsonText nt c s

structure ReachesField (v : Variant) (i : Nat) : Prop where
  isObject : v.getType = .ok .OBJECT
  inside : ∃ n, v.numObjectFields = .ok n ∧ i < n
  before : ∀ j < i, ∃ key c s, v.getFieldAtIndex (j : Nat) = .ok (key, c) ∧ JsonText nt c s

/-- The texts that a value is put together from, up to the first part of it that cannot be read. -/
inductive MakesText : Variant → String → Prop where
  | string {v : Variant} {bs : Bytes} (ht : v.getType = .ok .STRING) (h : v.stringBytes = .ok bs) :
    MakesText v (jsonString (textDecode bs))
  | binary {v : Variant} {bs : Bytes} (ht : v.getType = .ok .BINARY) (h : v.getBinary = .ok bs) :
    MakesText v (quoted (String.ofList (Base64.encode bs)))
  | element {v c : Variant} {i : Nat} {text : String} (hi : ReachesElement nt v i)
    (hget : v.getElementAtIndex i = .ok (some c)) (h : MakesText c text) : MakesText v text
  | array {v : Variant} {n : Nat} {children : Nat → Variant} {texts : Nat → String} (ht : v.getType = .ok .ARRAY)
    (hn : v.numArrayElements = .ok n) (hget : ∀ i < n, v.getElementAtIndex i = .ok (some (children i)))
    (h : ∀ i < n, JsonText nt (children i) (texts i)) : MakesText v (arrayText n texts)
  | key {v : Variant} {i : Nat} {bs : Bytes} (hi : ReachesField nt v i) (h : v.fieldKeyBytes i = .ok bs) :
    MakesText v (String.ofList (textDecode bs))
  | name {v c : Variant} {i : Nat} {key : List Char} (hi : ReachesField nt v i)
    (hget : v.getFieldAtIndex i = .ok (key, c)) : MakesText v (jsonString key ++ ":")
  | value {v c : Variant} {i : Nat} {key : List Char} {text : String} (hi : ReachesField nt v i)
    (hget : v.getFieldAtIndex i = .ok (key, c)) (h : MakesText c text) : MakesText v text
  | member {v c : Variant} {i : Nat} {key : List Char} {s : String} (hi : ReachesField nt v i)
    (hget : v.getFieldAtIndex i = .ok (key, c)) (h : JsonText nt c s) : MakesText v (memberText key s)
  | object {v : Variant} {n : Nat} {keys : Nat → List Char} {children : Nat → Variant} {texts : Nat → String}
    (ht : v.getType = .ok .OBJECT) (hn : v.numObjectFields = .ok n)
    (hget : ∀ i < n, v.getFieldAtIndex i = .ok (keys i, children i))
    (h : ∀ i < n, JsonText nt (children i) (texts i)) : MakesText v (objectText n keys texts)

variable {nt} {v : Variant} {fuel : Nat}

/-! ### One step of the recursion -/

theorem toJson_leaf {t : VariantType} (ht : v.getType = .ok t) (hobject : t ≠ .OBJECT) (harray : t ≠ .ARRAY) :
    toJson nt (fuel + 1) v = some (leafJson nt v t) := by
  rw [toJson, ht]
  cases t <;> first | exact absurd rfl hobject | exact absurd rfl harray | rfl

theorem toJson_array {n : Nat} (ht : v.getType = .ok .ARRAY) (hn : v.numArrayElements = .ok n) :
    toJson nt (fuel + 1) v = (parts (v.elementText (toJson nt fuel)) 0 n).map
      fun r => r.bind fun texts => makeText ("[" ++ ",".intercalate texts ++ "]") := by
  rw [toJson, ht]
  dsimp only
  rw [hn]

theorem toJson_object {n : Nat} (ht : v.getType = .ok .OBJECT) (hn : v.numObjectFields = .ok n) :
    toJson nt (fuel + 1) v = (parts (v.fieldText (toJson nt fuel)) 0 n).map
      fun r => r.bind fun texts => makeText ("\x7b" ++ ",".intercalate texts ++ "\x7d") := by
  rw [toJson, ht]
  dsimp only
  rw [hn]

/-- How a value comes to its text: the header is refused, or it is a leaf or a container. -/
inductive Wrote (nt : NumberText) (fuel : Nat) (v : Variant) : Except VariantFault String → Prop where
  | refused {e : VariantFault} (h : Safe (.error e : Except VariantFault String)) : Wrote nt fuel v (.error e)
  | leaf {t : VariantType} (ht : v.getType = .ok t) : Wrote nt fuel v (leafJson nt v t)
  | array {n : Nat} {r : Except VariantFault (List String)} (ht : v.getType = .ok .ARRAY)
    (hn : v.numArrayElements = .ok n) (hr : parts (v.elementText (toJson nt fuel)) 0 n = some r) :
    Wrote nt fuel v (r.bind fun texts => makeText ("[" ++ ",".intercalate texts ++ "]"))
  | object {n : Nat} {r : Except VariantFault (List String)} (ht : v.getType = .ok .OBJECT)
    (hn : v.numObjectFields = .ok n) (hr : parts (v.fieldText (toJson nt fuel)) 0 n = some r) :
    Wrote nt fuel v (r.bind fun texts => makeText ("\x7b" ++ ",".intercalate texts ++ "\x7d"))

theorem wrote_of_toJson {x : Except VariantFault String} (h : toJson nt (fuel + 1) v = some x) :
    Wrote nt fuel v x := by
  cases ht : v.getType with
  | error e =>
    rw [toJson, ht] at h
    cases h
    have hsafe := v.safe_getType
    rw [ht] at hsafe
    exact .refused hsafe.error
  | ok t =>
    by_cases harray : t = .ARRAY
    · subst harray
      cases hn : v.numArrayElements with
      | error e =>
        rw [toJson, ht] at h
        dsimp only at h
        rw [hn] at h
        cases h
        have hsafe := v.safe_numArrayElements
        rw [hn] at hsafe
        exact .refused hsafe.error
      | ok n =>
        rw [toJson_array ht hn] at h
        obtain ⟨r, hr, rfl⟩ := Option.map_eq_some_iff.mp h
        exact .array ht hn hr
    by_cases hobject : t = .OBJECT
    · subst hobject
      cases hn : v.numObjectFields with
      | error e =>
        rw [toJson, ht] at h
        dsimp only at h
        rw [hn] at h
        cases h
        have hsafe := v.safe_numObjectFields
        rw [hn] at hsafe
        exact .refused hsafe.error
      | ok n =>
        rw [toJson_object ht hn] at h
        obtain ⟨r, hr, rfl⟩ := Option.map_eq_some_iff.mp h
        exact .object ht hn hr
    · rw [toJson_leaf ht hobject harray] at h
      cases h
      exact .leaf ht

section Steps

variable {read : Variant → Option (Except VariantFault String)} {i : Nat}

theorem elementText_of_get {c : Variant} (hget : v.getElementAtIndex i = .ok (some c)) :
    v.elementText read i = read c := by
  rw [elementText, hget]

theorem elementText_ok {s : String} (h : v.elementText read i = some (.ok s)) :
    ∃ c, v.getElementAtIndex i = .ok (some c) ∧ read c = some (.ok s) := by
  rw [elementText] at h
  split at h
  · cases h
  · cases h
  · next c hget => exact ⟨c, hget, h⟩

theorem elementText_long (h : v.elementText read i = some (.error .stringLength)) :
    ∃ c, v.getElementAtIndex i = .ok (some c) ∧ read c = some (.error .stringLength) := by
  rw [elementText] at h
  split at h
  · next hget =>
    cases h
    have hsafe := v.safe_getElementAtIndex i
    rw [hget] at hsafe
    exact hsafe.elim
  · cases h
  · next c hget => exact ⟨c, hget, h⟩

theorem fieldText_ok {m : String} (h : v.fieldText read i = some (.ok m)) :
    ∃ key c s, v.getFieldAtIndex i = .ok (key, c) ∧ read c = some (.ok s) ∧ m = memberText key s := by
  rw [fieldText] at h
  split at h
  · cases h
  · next key c hget =>
    split at h
    · cases h
    · next name hname =>
      obtain ⟨r, hr, h⟩ := Option.map_eq_some_iff.mp h
      obtain ⟨s, rfl, h⟩ := bind_eq_ok h
      rw [← makeText_eq_ok hname] at h
      exact ⟨key, c, s, hget, hr, (makeText_eq_ok h).symm⟩

/-- The key, its name, the value or the member as a whole is too long. -/
theorem fieldText_long (h : v.fieldText read i = some (.error .stringLength)) :
    (∃ bs, v.fieldKeyBytes i = .ok bs ∧ ¬IsString (textDecode bs)) ∨
      ∃ key c, v.getFieldAtIndex i = .ok (key, c) ∧
        (¬IsString (jsonString key ++ ":").toList ∨ read c = some (.error .stringLength) ∨
          ∃ s, read c = some (.ok s) ∧ ¬IsString (memberText key s).toList) := by
  rw [fieldText] at h
  split at h
  · next hget =>
    cases h
    refine .inl ?_
    by_contra hfits
    push Not at hfits
    have hsafe := (v.safe_getFieldAtIndex_iff i).mpr hfits
    rw [hget] at hsafe
    exact hsafe
  · next key c hget =>
    refine .inr ⟨key, c, hget, ?_⟩
    split at h
    · next hname =>
      cases h
      exact .inl (not_isString_of_makeText hname)
    · next name hname =>
      obtain ⟨r, hr, h⟩ := Option.map_eq_some_iff.mp h
      rw [← makeText_eq_ok hname] at h
      cases r with
      | error e =>
        cases h
        exact .inr (.inl hr)
      | ok s => exact .inr (.inr ⟨s, hr, not_isString_of_makeText h⟩)

theorem fieldText_made {key : List Char} {c : Variant} {s : String} (hget : v.getFieldAtIndex i = .ok (key, c))
    (h : Cut (read c) ∨ read c = some (.ok s)) :
    Cut (v.fieldText read i) ∨ v.fieldText read i = some (makeText (memberText key s)) := by
  rw [fieldText, hget]
  dsimp only
  rcases makeText_cases (jsonString key ++ ":") with hname | hname
  · rw [hname]
    dsimp only
    rcases h with h | h
    · exact .inl (h.bind _)
    · rw [h, memberText]
      exact .inr rfl
  · rw [hname]
    exact .inl (.inr rfl)

theorem fieldText_written {key : List Char} {c : Variant} {s : String} (hget : v.getFieldAtIndex i = .ok (key, c))
    (h : Cut (read c) ∨ read c = some (.ok s)) :
    Cut (v.fieldText read i) ∨ v.fieldText read i = some (.ok (memberText key s)) := by
  rcases fieldText_made hget h with hcut | hmade
  · exact .inl hcut
  · rw [hmade]
    exact cut_or_written _

end Steps

end Text

/-! ### The run -/

section Run

variable {nt : NumberText}

theorem elements_of_parts {v : Variant} {fuel n : Nat} {ss : List String}
    (h : parts (v.elementText (toJson nt fuel)) 0 n = some (.ok ss)) :
    ∃ (children : Nat → Variant) (texts : Nat → String), ss = (List.range n).map texts ∧
      ∀ i < n, v.getElementAtIndex (i : Nat) = .ok (some (children i)) ∧
        toJson nt fuel (children i) = some (.ok (texts i)) := by
  obtain ⟨texts, hss, hall⟩ := parts_ok h
  have hpart : ∀ i < n, ∃ c, v.getElementAtIndex (i : Nat) = .ok (some c) ∧
      toJson nt fuel c = some (.ok (texts i)) :=
    fun i hi => elementText_ok (hall i (Nat.zero_le i) (by rwa [Nat.zero_add]))
  have : Inhabited Variant := ⟨v⟩
  choose! children hpart using hpart
  rw [← List.range_eq_range'] at hss
  exact ⟨children, texts, hss, hpart⟩

theorem fields_of_parts {v : Variant} {fuel n : Nat} {ss : List String}
    (h : parts (v.fieldText (toJson nt fuel)) 0 n = some (.ok ss)) :
    ∃ (keys : Nat → List Char) (children : Nat → Variant) (texts : Nat → String),
      ss = ((List.range n).map fun i => memberText (keys i) (texts i)) ∧
        ∀ i < n, v.getFieldAtIndex (i : Nat) = .ok (keys i, children i) ∧
          toJson nt fuel (children i) = some (.ok (texts i)) := by
  obtain ⟨members, hss, hall⟩ := parts_ok h
  have hpart : ∀ i < n, ∃ key c s, v.getFieldAtIndex (i : Nat) = .ok (key, c) ∧
      toJson nt fuel c = some (.ok s) ∧ members i = memberText key s :=
    fun i hi => fieldText_ok (hall i (Nat.zero_le i) (by rwa [Nat.zero_add]))
  have : Inhabited Variant := ⟨v⟩
  choose! keys children texts hpart using hpart
  have hmembers : (List.range n).map members = (List.range n).map fun i => memberText (keys i) (texts i) :=
    List.map_congr_left fun i hi => (hpart i (List.mem_range.mp hi)).2.2
  rw [← List.range_eq_range', hmembers] at hss
  exact ⟨keys, children, texts, hss, fun i hi => ⟨(hpart i hi).1, (hpart i hi).2.1⟩⟩

theorem jsonText_of_ok {fuel : Nat} {v : Variant} {s : String} (h : toJson nt fuel v = some (.ok s)) :
    JsonText nt v s := by
  induction fuel generalizing v s with
  | zero => cases h
  | succ fuel ih =>
    generalize hx : (Except.ok s : Except VariantFault String) = x at h
    cases wrote_of_toJson h with
    | refused _ => cases hx
    | leaf ht => exact .leaf ht (leafText_of_ok hx.symm)
    | array ht hn hr =>
      obtain ⟨ss, rfl, hmade⟩ := bind_eq_ok hx.symm
      obtain ⟨children, texts, rfl, hpart⟩ := elements_of_parts hr
      rw [← makeText_eq_ok hmade]
      exact .array ht hn (fun i hi => (hpart i hi).1) fun i hi => ih (hpart i hi).2
    | object ht hn hr =>
      obtain ⟨ss, rfl, hmade⟩ := bind_eq_ok hx.symm
      obtain ⟨keys, children, texts, rfl, hpart⟩ := fields_of_parts hr
      rw [← makeText_eq_ok hmade]
      exact .object ht hn (fun i hi => (hpart i hi).1) fun i hi => ih (hpart i hi).2

section Made

variable {v : Variant} {n fuel : Nat} {children : Nat → Variant} {texts : Nat → String}
  (h : ∀ i < n, Cut (toJson nt fuel (children i)) ∨ toJson nt fuel (children i) = some (.ok (texts i)))
include h

theorem array_made (ht : v.getType = .ok .ARRAY) (hn : v.numArrayElements = .ok n)
    (hget : ∀ i < n, v.getElementAtIndex (i : Nat) = .ok (some (children i))) :
    Cut (toJson nt (fuel + 1) v) ∨ toJson nt (fuel + 1) v = some (makeText (arrayText n texts)) := by
  have hparts : Cut (parts (v.elementText (toJson nt fuel)) 0 n) ∨
      parts (v.elementText (toJson nt fuel)) 0 n = some (.ok ((List.range n).map texts)) := by
    refine parts_written fun i hi => ?_
    rw [elementText_of_get (hget i hi)]
    exact h i hi
  rw [toJson_array ht hn]
  rcases hparts with hcut | hok
  · exact .inl (hcut.bind _)
  · rw [hok, arrayText]
    exact .inr rfl

theorem object_made {keys : Nat → List Char} (ht : v.getType = .ok .OBJECT) (hn : v.numObjectFields = .ok n)
    (hget : ∀ i < n, v.getFieldAtIndex (i : Nat) = .ok (keys i, children i)) :
    Cut (toJson nt (fuel + 1) v) ∨ toJson nt (fuel + 1) v = some (makeText (objectText n keys texts)) := by
  have hparts : Cut (parts (v.fieldText (toJson nt fuel)) 0 n) ∨ parts (v.fieldText (toJson nt fuel)) 0 n =
      some (.ok ((List.range n).map fun i => memberText (keys i) (texts i))) :=
    parts_written fun i hi => fieldText_written (hget i hi) (h i hi)
  rw [toJson_object ht hn]
  rcases hparts with hcut | hok
  · exact .inl (hcut.bind _)
  · rw [hok, objectText]
    exact .inr rfl

end Made

theorem JsonText.written {v : Variant} {s : String} (h : JsonText nt v s) (fuel : Nat) :
    Cut (toJson nt fuel v) ∨ toJson nt fuel v = some (.ok s) := by
  induction h generalizing fuel with
  | @leaf v t s ht h =>
    cases fuel with
    | zero => exact .inl (.inl rfl)
    | succ fuel =>
      have hleaf : ∀ e, leafJson nt v t = .error (.variantError e) → False := by
        intro e he
        rcases h.written with hs | hs <;> rw [hs] at he <;> cases he
      rw [toJson_leaf ht]
      · rcases h.written with hs | hs
        · exact .inr (congrArg some hs)
        · exact .inl (.inr (congrArg some hs))
      · rintro rfl
        exact hleaf _ rfl
      · rintro rfl
        exact hleaf _ rfl
  | @array v n children texts ht hn hget _ ih =>
    cases fuel with
    | zero => exact .inl (.inl rfl)
    | succ fuel =>
      rcases array_made (fun i hi => ih i hi fuel) ht hn hget with hcut | hmade
      · exact .inl hcut
      · rw [hmade]
        exact cut_or_written _
  | @object v n keys children texts ht hn hget _ ih =>
    cases fuel with
    | zero => exact .inl (.inl rfl)
    | succ fuel =>
      rcases object_made (fun i hi => ih i hi fuel) ht hn hget with hcut | hmade
      · exact .inl hcut
      · rw [hmade]
        exact cut_or_written _

theorem ReachesElement.cut {v c : Variant} {i : Nat} (h : ReachesElement nt v i)
    (hget : v.getElementAtIndex i = .ok (some c)) {fuel : Nat} (hcut : Cut (toJson nt fuel c)) :
    Cut (toJson nt (fuel + 1) v) := by
  obtain ⟨n, hn, hi⟩ := h.inside
  rw [toJson_array h.isArray hn]
  refine Cut.bind (parts_cut (by rwa [elementText_of_get hget]) (Nat.zero_le i) (by omega) fun j _ hj => ?_) _
  obtain ⟨c', s, hget', hs⟩ := h.before j hj
  rw [elementText_of_get hget']
  exact (hs.written fuel).imp_right fun hok => ⟨s, hok⟩

theorem ReachesField.cut {v : Variant} {i : Nat} (h : ReachesField nt v i) {fuel : Nat}
    (hcut : Cut (v.fieldText (toJson nt fuel) i)) : Cut (toJson nt (fuel + 1) v) := by
  obtain ⟨n, hn, hi⟩ := h.inside
  rw [toJson_object h.isObject hn]
  refine Cut.bind (parts_cut hcut (Nat.zero_le i) (by omega) fun j _ hj => ?_) _
  obtain ⟨key, c', s, hget', hs⟩ := h.before j hj
  exact (fieldText_written hget' (hs.written fuel)).imp_right fun hok => ⟨_, hok⟩

/-- A text that is too long comes up before the result does. -/
theorem MakesText.cut {v : Variant} {text : String} (h : MakesText nt v text) (hlong : ¬IsString text.toList)
    (fuel : Nat) : Cut (toJson nt fuel v) := by
  induction h generalizing fuel with
  | string ht h =>
    cases fuel with
    | zero => exact .inl rfl
    | succ fuel =>
      rw [toJson_leaf ht (by decide) (by decide), leafJson_string h]
      exact cut_makeText hlong
  | binary ht h =>
    cases fuel with
    | zero => exact .inl rfl
    | succ fuel =>
      rw [toJson_leaf ht (by decide) (by decide), leafJson_binary h]
      exact cut_makeText hlong
  | element hi hget _ ih =>
    cases fuel with
    | zero => exact .inl rfl
    | succ fuel => exact hi.cut hget (ih hlong fuel)
  | array ht hn hget h =>
    cases fuel with
    | zero => exact .inl rfl
    | succ fuel =>
      rcases array_made (fun i hi => (h i hi).written fuel) ht hn hget with hcut | hmade
      · exact hcut
      · rw [hmade]
        exact cut_makeText hlong
  | @key v i bs hi h =>
    cases fuel with
    | zero => exact .inl rfl
    | succ fuel =>
      rw [String.toList_ofList] at hlong
      refine hi.cut (.inr ?_)
      rw [fieldText, getFieldAtIndex_of_bytes h, makeString_of_not hlong]
      rfl
  | name hi hget =>
    cases fuel with
    | zero => exact .inl rfl
    | succ fuel =>
      refine hi.cut (.inr ?_)
      rw [fieldText, hget]
      dsimp only
      rw [makeText_of_not hlong]
  | value hi hget _ ih =>
    cases fuel with
    | zero => exact .inl rfl
    | succ fuel =>
      refine hi.cut ?_
      rw [fieldText, hget]
      dsimp only
      rcases makeText_cases _ with hname | hname
      · rw [hname]
        exact (ih hlong fuel).bind _
      · rw [hname]
        exact .inr rfl
  | member hi hget h =>
    cases fuel with
    | zero => exact .inl rfl
    | succ fuel =>
      refine hi.cut ?_
      rcases fieldText_made hget (h.written fuel) with hcut | hmade
      · exact hcut
      · rw [hmade]
        exact cut_makeText hlong
  | object ht hn hget h =>
    cases fuel with
    | zero => exact .inl rfl
    | succ fuel =>
      rcases object_made (fun i hi => (h i hi).written fuel) ht hn hget with hcut | hmade
      · exact hcut
      · rw [hmade]
        exact cut_makeText hlong

theorem leaf_long {v : Variant} {t : VariantType} (ht : v.getType = .ok t)
    (h : leafJson nt v t = .error .stringLength) : ∃ text, MakesText nt v text ∧ ¬IsString text.toList := by
  by_cases hstring : t = .STRING
  · subst hstring
    cases hbytes : v.stringBytes with
    | error e =>
      have hsafe := v.safe_stringBytes
      rw [hbytes] at hsafe
      simp only [leafJson, getString, hbytes, bind, Except.bind, Except.error.injEq] at h
      subst h
      exact hsafe.elim
    | ok bs =>
      rw [leafJson_string hbytes] at h
      exact ⟨_, .string ht hbytes, not_isString_of_makeText h⟩
  by_cases hbinary : t = .BINARY
  · subst hbinary
    cases hbytes : v.getBinary with
    | error e =>
      have hsafe := v.safe_getBinary
      rw [hbytes] at hsafe
      simp only [leafJson, hbytes, bind, Except.bind, Except.error.injEq] at h
      subst h
      exact hsafe.elim
    | ok bs =>
      rw [leafJson_binary hbytes] at h
      exact ⟨_, .binary ht hbytes, not_isString_of_makeText h⟩
  · have hsafe := safe_leafJson_short nt v hstring hbinary
    rw [h] at hsafe
    exact hsafe.elim

/-- Where a text is too long for the result, it is one of those made. -/
theorem makesText_of_long {fuel : Nat} {v : Variant} (h : toJson nt fuel v = some (.error .stringLength)) :
    ∃ text, MakesText nt v text ∧ ¬IsString text.toList := by
  induction fuel generalizing v with
  | zero => cases h
  | succ fuel ih =>
    generalize hx : (Except.error VariantFault.stringLength : Except VariantFault String) = x at h
    cases wrote_of_toJson h with
    | refused hsafe =>
      cases hx
      exact hsafe.elim
    | @leaf t ht => exact leaf_long ht hx.symm
    | @array n r ht hn hr =>
      cases r with
      | error e =>
        cases hx
        obtain ⟨i, -, hi, hfail, hbefore⟩ := parts_error hr
        obtain ⟨c, hget, hc⟩ := elementText_long hfail
        obtain ⟨text, htext, htoo⟩ := ih hc
        refine ⟨text, .element ⟨ht, ⟨n, hn, by omega⟩, fun j hj => ?_⟩ hget htext, htoo⟩
        obtain ⟨s, hs⟩ := hbefore j (Nat.zero_le j) hj
        obtain ⟨c', hget', hs⟩ := elementText_ok hs
        exact ⟨c', s, hget', jsonText_of_ok hs⟩
      | ok ss =>
        obtain ⟨children, texts, rfl, hpart⟩ := elements_of_parts hr
        refine ⟨_, .array ht hn (fun i hi => (hpart i hi).1) fun i hi => jsonText_of_ok (hpart i hi).2, ?_⟩
        exact not_isString_of_makeText hx.symm
    | @object n r ht hn hr =>
      cases r with
      | error e =>
        cases hx
        obtain ⟨i, -, hi, hfail, hbefore⟩ := parts_error hr
        have hreach : ReachesField nt v i := by
          refine ⟨ht, ⟨n, hn, by omega⟩, fun j hj => ?_⟩
          obtain ⟨m, hm⟩ := hbefore j (Nat.zero_le j) hj
          obtain ⟨key, c', s, hget', hs, -⟩ := fieldText_ok hm
          exact ⟨key, c', s, hget', jsonText_of_ok hs⟩
        rcases fieldText_long hfail with ⟨bs, hbytes, htoo⟩ | ⟨key, c, hget, hname | hc | ⟨s, hs, hmember⟩⟩
        · exact ⟨_, .key hreach hbytes, by rwa [String.toList_ofList]⟩
        · exact ⟨_, .name hreach hget, hname⟩
        · obtain ⟨text, htext, htoo⟩ := ih hc
          exact ⟨text, .value hreach hget htext, htoo⟩
        · exact ⟨_, .member hreach hget (jsonText_of_ok hs), hmember⟩
      | ok ss =>
        obtain ⟨keys, children, texts, rfl, hpart⟩ := fields_of_parts hr
        refine ⟨_, .object ht hn (fun i hi => (hpart i hi).1) fun i hi => jsonText_of_ok (hpart i hi).2, ?_⟩
        exact not_isString_of_makeText hx.symm

end Run

/-! ### The end -/

/-- The computation ends, with a result or a `VariantError`, or where that is let pass with a text
that is too long. -/
def EndsUpTo {α : Type} (long : Prop) (r : Option (Except VariantFault α)) : Prop := ∃ x, r = some x ∧
    SafeUpTo long x

abbrev EndsSafe {α : Type} (r : Option (Except VariantFault α)) : Prop := EndsUpTo False r

section Ends

variable {α β : Type} {long : Prop}

theorem EndsUpTo.bind {r : Option (Except VariantFault α)} (h : EndsUpTo long r) {f : α → Except VariantFault β}
    (hf : ∀ a, SafeUpTo long (f a)) : EndsUpTo long (r.map fun x => x.bind f) := by
  obtain ⟨x, rfl, hx⟩ := h
  exact ⟨x.bind f, rfl, hx.bind fun a _ => hf a⟩

theorem EndsUpTo.some {x : Except VariantFault α} (h : SafeUpTo long x) : EndsUpTo long (some x) := ⟨x, rfl, h⟩

theorem endsUpTo_error {x : Except VariantFault α} (hx : Safe x) {e : VariantFault} (h : x = .error e) :
    EndsUpTo long (some (.error e : Except VariantFault β)) := by
  subst h
  exact .some hx.upTo.error

theorem endsUpTo_parts {part : Nat → Option (Except VariantFault α)} :
    ∀ (n i : Nat), (∀ j, i ≤ j → j < i + n → EndsUpTo long (part j)) → EndsUpTo long (parts part i n)
  | 0, _, _ => ⟨_, rfl, trivial⟩
  | n + 1, i, h => by
    obtain ⟨x, hx, hsafe⟩ := h i le_rfl (by omega)
    obtain ⟨y, hy, hsafe'⟩ := endsUpTo_parts n (i + 1) fun j hj hj' => h j (by omega) (by omega)
    rw [parts, hx]
    cases x with
    | error e => exact ⟨_, rfl, hsafe.error⟩
    | ok s =>
      rw [hy]
      cases y with
      | error e => exact ⟨_, rfl, hsafe'.error⟩
      | ok ss => exact ⟨_, rfl, trivial⟩

end Ends

theorem lt_length_of_getType {v : Variant} {t : VariantType} (h : v.getType = .ok t) : v.pos < v.value.length := by
  obtain ⟨_, h, -⟩ := bind_eq_ok h
  exact (checkIndex_eq_ok.mp h).2

/-- The depth of the recursion is at most the number of bytes from the position on: what is read
inside a value is behind it, and a position behind the last byte is refused. -/
theorem toJson_ends (nt : NumberText) (n : Nat) (v : Variant) (hn : (v.value.length : Int) - v.pos ≤ n) :
    EndsUpTo True (toJson nt (n + 1) v) := by
  induction n generalizing v with
  | zero =>
    rw [toJson]
    cases ht : v.getType with
    | error e => exact endsUpTo_error v.safe_getType ht
    | ok t =>
      have := lt_length_of_getType ht
      omega
  | succ n ih =>
    have hchild : ∀ c : Variant, c.value = v.value ∧ v.pos < c.pos → EndsUpTo True (toJson nt (n + 1) c) := by
      rintro c ⟨hval, hpos⟩
      exact ih c (by rw [hval]; push_cast at hn; omega)
    cases ht : v.getType with
    | error e =>
      rw [toJson, ht]
      exact endsUpTo_error v.safe_getType ht
    | ok t =>
      by_cases harray : t = .ARRAY
      · subst harray
        cases hnum : v.numArrayElements with
        | error e =>
          rw [toJson, ht]
          dsimp only
          rw [hnum]
          exact endsUpTo_error v.safe_numArrayElements hnum
        | ok m =>
          rw [toJson_array ht hnum]
          refine EndsUpTo.bind (endsUpTo_parts m 0 fun i _ hi => ?_) fun _ => safe_makeText _
          rw [elementText]
          cases hget : v.getElementAtIndex i with
          | error e => exact endsUpTo_error (v.safe_getElementAtIndex i) hget
          | ok o =>
            cases o with
            | none => exact absurd hget (getElementAtIndex_ne_none hnum (by omega))
            | some c => exact hchild c (getElementAtIndex_eq_ok hget)
      by_cases hobject : t = .OBJECT
      · subst hobject
        cases hnum : v.numObjectFields with
        | error e =>
          rw [toJson, ht]
          dsimp only
          rw [hnum]
          exact endsUpTo_error v.safe_numObjectFields hnum
        | ok m =>
          rw [toJson_object ht hnum]
          refine EndsUpTo.bind (endsUpTo_parts m 0 fun i _ _ => ?_) fun _ => safe_makeText _
          rw [fieldText]
          cases hget : v.getFieldAtIndex i with
          | error e =>
            have hsafe := v.safe_getFieldAtIndex i
            rw [hget] at hsafe
            exact .some hsafe.error
          | ok p =>
            dsimp only
            rcases makeText_cases (jsonString p.1 ++ ":") with hname | hname
            · rw [hname]
              exact (hchild p.2 (getFieldAtIndex_eq_ok hget)).bind fun _ => safe_makeText _
            · rw [hname]
              exact .some trivial
      · rw [toJson_leaf ht hobject harray]
        exact .some (safe_leafJson nt v t)

/-- `toJson` returns or throws a `VariantError` just where every text that it makes is a string. -/
theorem toJson_endsSafe_iff (nt : NumberText) (v : Variant) :
    (∃ fuel, EndsSafe (toJson nt fuel v)) ↔ ∀ text, MakesText nt v text → IsString text.toList := by
  constructor
  · rintro ⟨fuel, x, hx, hsafe⟩ text htext
    by_contra hlong
    rcases htext.cut hlong fuel with hcut | hcut
    · cases hcut.symm.trans hx
    · cases hcut.symm.trans hx
      exact hsafe
  · intro hfits
    obtain ⟨x, hx, hsafe⟩ := toJson_ends nt _ v (Int.self_le_toNat _)
    refine ⟨_, x, hx, hsafe.safe ?_⟩
    rintro rfl
    obtain ⟨text, htext, htoo⟩ := makesText_of_long hx
    exact htoo (hfits text htext)

end Variant

end ConfluentKafka
