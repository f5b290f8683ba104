import ConfluentKafka.JsObject

/-!
# Message headers

`convertToRdKafkaHeaders` of `_common.js` and `#createHeaders` of `_consumer.js`. The native client
takes and gives a list of objects with one key each, the application a map from a key to its value
or to the array of its values. Values are of any type that is not an array.
-/

namespace ConfluentKafka

inductive OneOrMany (α : Type) where
  | one (value : α)
  | many (values : List α)
  deriving DecidableEq

variable {α : Type}

def header (key : String) (value : α) : JsObject α := JsObject.empty.assign key value

/-- The loop of `convertToRdKafkaHeaders`, over the entries of the map. -/
def convertEntries (entries : List (String × OneOrMany α)) : List (JsObject α) :=
  entries.flatMap fun e =>
    match e.2 with
    | .many values => values.map fun v => header e.1 v
    | .one value => [header e.1 value]

def convertToRdKafkaHeaders (kafkaJSHeaders : Option (JsObject (OneOrMany α))) : Option (List (JsObject α)) :=
  kafkaJSHeaders.map fun o => convertEntries o.entries

def addHeader (headers : JsObject (OneOrMany α)) (e : String × α) : JsObject (OneOrMany α) :=
  match headers.get? e.1 with
  | none => headers.assign e.1 (.one e.2)
  | some (.many values) => headers.assign e.1 (.many (values ++ [e.2]))
  | some (.one value) => headers.assign e.1 (.many [value, e.2])

def createHeaders (messageHeaders : Option (List (JsObject α))) : Option (JsObject (OneOrMany α)) :=
  messageHeaders.map fun hs =>
    hs.foldl (fun headers h => h.entries.foldl addHeader headers) JsObject.empty

/-! ## What is read -/

def collect : List α → Option (OneOrMany α)
  | [] => none
  | [v] => some (.one v)
  | v :: w :: vs => some (.many (v :: w :: vs))

theorem collect_append_singleton (vs : List α) (v : α) :
    collect (vs ++ [v]) = match collect vs with
      | none => some (.one v)
      | some (.many values) => some (.many (values ++ [v]))
      | some (.one value) => some (.many [value, v]) := by
  match vs with
  | [] => rfl
  | [w] => rfl
  | w :: x :: ws => rfl

def valuesOf (key : String) (es : List (String × α)) : List α := (es.filter fun e => e.1 = key).map Prod.snd

theorem get?_addHeader (headers : JsObject (OneOrMany α)) (e : String × α) {key : String} (hkey : key ≠ "__proto__")
    {vs : List α} (h : headers.get? key = collect vs) :
    (addHeader headers e).get? key = collect (if e.1 = key then vs ++ [e.2] else vs) := by
  by_cases he : e.1 = key
  · subst he
    rw [if_pos rfl, collect_append_singleton, ← h, addHeader]
    cases headers.get? e.1 with
    | none => simp [hkey]
    | some x => cases x <;> simp [hkey]
  · rw [if_neg he, ← h, addHeader]
    cases headers.get? e.1 with
    | none => simp [Ne.symm he]
    | some x => cases x <;> simp [Ne.symm he]

/-- The setter of the prototype takes every value of this key. -/
theorem get?_proto_addHeader {headers : JsObject (OneOrMany α)} (h : headers.get? "__proto__" = none)
    (e : String × α) :
    (addHeader headers e).get? "__proto__" = none := by
  unfold addHeader
  split
  · rw [JsObject.get?_proto_assign, h]
  · rw [JsObject.get?_proto_assign, h]
  · rw [JsObject.get?_proto_assign, h]

theorem foldl_addHeader (es : List (String × α)) {headers : JsObject (OneOrMany α)} {key : String}
    (hkey : key ≠ "__proto__") {vs : List α} (h : headers.get? key = collect vs) :
    (es.foldl addHeader headers).get? key = collect (vs ++ valuesOf key es) := by
  induction es generalizing headers vs with
  | nil => simpa [valuesOf] using h
  | cons e es ih =>
    rw [List.foldl_cons, ih (get?_addHeader headers e hkey h)]
    by_cases he : e.1 = key
    · simp [valuesOf, he]
    · simp [valuesOf, he]

theorem proto_foldl_addHeader (es : List (String × α)) {headers : JsObject (OneOrMany α)}
    (h : headers.get? "__proto__" = none) : (es.foldl addHeader headers).get? "__proto__" = none := by
  induction es generalizing headers with
  | nil => exact h
  | cons e es ih => exact ih (get?_proto_addHeader h e)

theorem createHeaders_eq (hs : List (JsObject α)) :
    createHeaders (some hs) = some ((hs.flatMap JsObject.entries).foldl addHeader JsObject.empty) := by
  rw [createHeaders, Option.map_some, List.foldl_flatMap]

/-- A list of entries without a key twice holds one value of a key. -/
theorem flatMap_of_nodup {β γ : Type} {es : List (String × β)} (h : (es.map Prod.fst).Nodup) {key : String}
    (f : β → List γ) :
    (es.flatMap fun e => if e.1 = key then f e.2 else []) = match es.find? fun e => e.1 = key with
      | some e => f e.2
      | none => [] := by
  induction es with
  | nil => rfl
  | cons e es ih =>
    rw [List.map_cons, List.nodup_cons] at h
    rw [List.flatMap_cons, ih h.2]
    by_cases he : e.1 = key
    · have hnone : es.find? (fun e => e.1 = key) = none := by
        rw [List.find?_eq_none]
        intro d hd hk
        exact h.1 (List.mem_map.mpr ⟨d, hd, (of_decide_eq_true hk).trans he.symm⟩)
      simp [he, hnone]
    · simp [he]

theorem find?_entries (o : JsObject α) (key : String) :
    (o.entries.find? fun e => e.1 = key).map Prod.snd = o.get? key := by
  cases hf : o.entries.find? fun e => e.1 = key with
  | none =>
    rw [List.find?_eq_none] at hf
    cases hg : o.get? key with
    | none => rfl
    | some v => exact absurd (decide_eq_true rfl) (hf (key, v) (JsObject.mem_entries.mpr hg))
  | some e =>
    have hk : e.1 = key := by simpa using List.find?_some hf
    subst hk
    exact (JsObject.mem_entries.mp (List.mem_of_find?_eq_some hf)).symm

theorem valuesOf_eq_flatMap (key : String) (es : List (String × α)) :
    valuesOf key es = es.flatMap fun e => if e.1 = key then [e.2] else [] := by
  induction es with
  | nil => rfl
  | cons e es ih =>
    rw [List.flatMap_cons, ← ih]
    by_cases he : e.1 = key
    · simp [valuesOf, he]
    · simp [valuesOf, he]

theorem valuesOf_entries (o : JsObject α) (key : String) : valuesOf key o.entries = (o.get? key).toList := by
  rw [valuesOf_eq_flatMap, flatMap_of_nodup o.nodup_entries fun v => [v], ← find?_entries]
  cases o.entries.find? fun e => e.1 = key with
  | none => rfl
  | some e => rfl

theorem valuesOf_flatMap {β : Type} (key : String) (l : List β) (f : β → List (String × α)) :
    valuesOf key (l.flatMap f) = l.flatMap fun b => valuesOf key (f b) := by
  rw [valuesOf_eq_flatMap, List.flatMap_assoc]
  congr 1
  funext b
  rw [valuesOf_eq_flatMap]

/-! ## Lists of header objects -/

def ReadsAll (hs : List (JsObject α)) (o : JsObject (OneOrMany α)) : Prop :=
  ∀ key, o.get? key = collect (hs.filterMap fun h => h.get? key)

theorem createHeaders_get? (hs : List (JsObject α)) :
    ∃ o, createHeaders (some hs) = some o ∧ o.get? "__proto__" = none ∧
      ∀ key, key ≠ "__proto__" → o.get? key = collect (hs.filterMap fun h => h.get? key) := by
  refine ⟨_, createHeaders_eq hs, proto_foldl_addHeader _ rfl, fun key hkey => ?_⟩
  have hempty : (JsObject.empty : JsObject (OneOrMany α)).get? key = collect ([] : List α) := rfl
  rw [foldl_addHeader _ hkey hempty, List.nil_append, valuesOf_flatMap]
  congr 1
  rw [List.filterMap_eq_flatMap_toList]
  congr 1
  funext h
  exact valuesOf_entries h key

theorem collect_eq_none_iff (vs : List α) : collect vs = none ↔ vs = [] := by
  match vs with
  | [] => exact iff_of_true rfl rfl
  | [_] => simp [collect]
  | _ :: _ :: _ => simp [collect]

theorem readsAll_iff (hs : List (JsObject α)) :
    (∃ o, createHeaders (some hs) = some o ∧ ReadsAll hs o) ↔ ∀ h ∈ hs, h.get? "__proto__" = none := by
  obtain ⟨o, ho, hproto, hget⟩ := createHeaders_get? hs
  have hempty : hs.filterMap (fun h => h.get? "__proto__") = [] ↔ ∀ h ∈ hs, h.get? "__proto__" = none :=
    List.filterMap_eq_nil_iff
  rw [← hempty]
  constructor
  · rintro ⟨o', ho', h⟩
    rw [ho] at ho'
    cases ho'
    rw [← collect_eq_none_iff, ← h "__proto__", hproto]
  · intro h
    refine ⟨o, ho, fun key => ?_⟩
    by_cases hkey : key = "__proto__"
    · rw [hkey, hproto, h]
      rfl
    · exact hget key hkey

/-! ## Header maps -/

def OneOrMany.values : OneOrMany α → List α
  | .one v => [v]
  | .many vs => vs

def OneOrMany.Proper : OneOrMany α → Prop
  | .one _ => True
  | .many vs => 2 ≤ vs.length

theorem collect_values {x : OneOrMany α} (h : x.Proper) : collect x.values = some x := by
  cases x with
  | one v => rfl
  | many vs =>
    match vs, h with
    | _ :: _ :: _, _ => rfl

theorem convertEntries_eq (es : List (String × OneOrMany α)) :
    convertEntries es = es.flatMap fun e => e.2.values.map fun v => header e.1 v := by
  unfold convertEntries
  congr 1
  funext e
  cases e.2 with
  | one v => rfl
  | many vs => rfl

theorem get?_header (key key' : String) (v : α) :
    (header key v).get? key' = if key' = key ∧ key ≠ "__proto__" then some v else none := by
  rw [header, JsObject.get?_assign, JsObject.get?_empty]

/-- The values of a key come out of the list in the order of its array. -/
theorem filterMap_convertEntries {es : List (String × OneOrMany α)} {key : String} (hkey : key ≠ "__proto__") :
    (convertEntries es).filterMap (fun h => h.get? key) = es.flatMap fun e => if e.1 =
      key then e.2.values else [] := by
  rw [convertEntries_eq, List.filterMap_flatMap]
  congr 1
  funext e
  rw [List.filterMap_map]
  by_cases he : e.1 = key
  · subst he
    simp [get?_header, hkey]
  · simp [get?_header, he, Ne.symm he]

def RoundTrips (o : JsObject (OneOrMany α)) : Prop :=
  ∃ o', createHeaders (convertToRdKafkaHeaders (some o)) = some o' ∧ ∀ key, o'.get? key = o.get? key

theorem roundTrips_iff {o : JsObject (OneOrMany α)} (h : ∀ key x, o.get? key = some x → x.Proper) :
    RoundTrips o ↔ o.get? "__proto__" = none := by
  obtain ⟨o', ho', hproto, hget⟩ := createHeaders_get? (convertEntries o.entries)
  have hget' : ∀ key, key ≠ "__proto__" → o'.get? key = o.get? key := by
    intro key hkey
    rw [hget key hkey, filterMap_convertEntries hkey, flatMap_of_nodup o.nodup_entries]
    have hfind := find?_entries o key
    cases hf : o.entries.find? fun e => e.1 = key with
    | none =>
      rw [hf] at hfind
      rw [← hfind]
      rfl
    | some e =>
      rw [hf] at hfind
      rw [← hfind]
      exact collect_values (h key e.2 hfind.symm)
  constructor
  · rintro ⟨o'', ho'', heq⟩
    rw [convertToRdKafkaHeaders, Option.map_some, ho'] at ho''
    cases ho''
    rw [← heq, hproto]
  · intro hnone
    refine ⟨o', ho', fun key => ?_⟩
    by_cases hkey : key = "__proto__"
    · rw [hkey, hproto, hnone]
    · exact hget' key hkey

/-- Both laws hold exactly where no key is `__proto__`, whatever the values. -/
theorem headers_round_trip_iff {o : JsObject (OneOrMany α)} (ho : ∀ key x, o.get? key = some x → x.Proper)
    (hs : List (JsObject α)) :
    (RoundTrips o ↔ o.get? "__proto__" = none) ∧
      ((∃ o', createHeaders (some hs) = some o' ∧ ReadsAll hs o') ↔ ∀ h ∈ hs, h.get? "__proto__" = none) :=
  ⟨roundTrips_iff ho, readsAll_iff hs⟩

/-- The map `a: [1, 2], constructor: 3` and a list with a key that comes twice. -/
def sampleHeaders : JsObject (OneOrMany Nat) :=
  (JsObject.empty.assign "a" (.many [1, 2])).assign "constructor" (.one 3)

theorem sampleHeaders_round_trip : RoundTrips sampleHeaders ∧
    ∃ o, createHeaders (some [header "a" 1, header "b" 2, header "a" 3]) = some o ∧
      o.get? "a" = some (.many [1, 3]) ∧ o.get? "b" = some (.one 2) := by
  have hproper : ∀ key x, sampleHeaders.get? key = some x → x.Proper := by
    intro key x hx
    rw [← JsObject.mem_entries, sampleHeaders.entries_perm.mem_iff] at hx
    have hmem : (key, x) ∈ [("a", OneOrMany.many [1, 2]), ("constructor", .one 3)] := hx
    simp only [List.mem_cons, Prod.mk.injEq, List.not_mem_nil, or_false] at hmem
    rcases hmem with ⟨-, rfl⟩ | ⟨-, rfl⟩
    · exact Nat.le_refl 2
    · trivial
  obtain ⟨h₁, h₂⟩ := headers_round_trip_iff hproper [header "a" 1, header "b" 2, header "a" 3]
  obtain ⟨o, ho, hread⟩ := h₂.mpr (by
    intro h hh
    simp only [List.mem_cons, List.not_mem_nil, or_false] at hh
    rcases hh with rfl | rfl | rfl <;> rw [get?_header] <;> simp)
  refine ⟨h₁.mpr rfl, o, ho, ?_, ?_⟩
  · rw [hread]
    simp [get?_header, collect]
  · rw [hread]
    simp [get?_header, collect]

def protoHeader (v : α) : JsObject α := ⟨JsMap.empty.set "__proto__" v⟩

theorem proto_header_dropped :
    (∀ key x, (protoHeader (OneOrMany.one 1)).get? key = some x → x.Proper) ∧
      ¬RoundTrips (protoHeader (OneOrMany.one 1)) ∧
      ¬∃ o, createHeaders (some [protoHeader 1]) = some o ∧ ReadsAll [protoHeader 1] o := by
  have hget : ∀ {β : Type} (v : β) key, (protoHeader v).get? key = if key = "__proto__" then some v else none := by
    intro β v key
    rw [protoHeader, JsObject.get?, JsMap.get?_set]
    rfl
  have hproper : ∀ key x, (protoHeader (OneOrMany.one 1)).get? key = some x → x.Proper := by
    intro key x hx
    rw [hget] at hx
    split at hx
    · cases hx
      trivial
    · cases hx
  refine ⟨hproper, ?_, ?_⟩
  · rw [roundTrips_iff hproper, hget]
    simp
  · rw [readsAll_iff]
    simp [hget]

end ConfluentKafka
