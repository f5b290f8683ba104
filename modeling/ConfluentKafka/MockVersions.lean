import ConfluentKafka.MockRegistry

/-!
# Versions of the mock registry

The last version of a subject is read at the end of a map whose entries keep their places. It is the greatest,
and the schema that is found for it is its own, as long as the versions of each subject that are not deleted
increase along the map and no deleted entry before one of them has its number. Registering a schema that was
deleted before can break either; no deletion can.
-/

namespace ConfluentKafka

namespace MockClient

/-! ## Sorted schemas -/

theorem sortEntries_idem {α : Type} (es : List (String × α)) : sortEntries (sortEntries es) = sortEntries es := by
  have htotal : Std.Total fun a b : String × α => a.1 ≤ b.1 := ⟨fun a b => String.le_total a.1 b.1⟩
  have htrans : IsTrans (String × α) fun a b => a.1 ≤ b.1 := ⟨fun _ _ _ => String.le_trans⟩
  exact (List.pairwise_insertionSort (fun a b : String × α => a.1 ≤ b.1) es).insertionSort_eq

theorem rule_sorted_idem (r : Rule) : r.sorted.sorted = r.sorted := by
  obtain ⟨_, _, _, _, _, _, params, _, _, _, _⟩ := r
  cases params with
  | none => rfl
  | some params => simp only [Rule.sorted, Option.map_some, sortEntries_idem]

theorem map_sorted_idem (rules : Option (List Rule)) :
    (rules.map fun rs => rs.map Rule.sorted).map (fun rs => rs.map Rule.sorted) =
      rules.map fun rs => rs.map Rule.sorted := by
  cases rules with
  | none => rfl
  | some rs =>
    have hrule : Rule.sorted ∘ Rule.sorted = Rule.sorted := funext rule_sorted_idem
    rw [Option.map_some, Option.map_some, List.map_map, hrule]

theorem map_sortEntries_idem {α : Type} (es : Option (List (String × α))) :
    (es.map sortEntries).map sortEntries = es.map sortEntries := by
  cases es with
  | none => rfl
  | some es => rw [Option.map_some, Option.map_some, sortEntries_idem]

theorem sorted_idem (s : SchemaInfo) : s.sorted.sorted = s.sorted := by
  obtain ⟨_, _, _, metadata, ruleSet⟩ := s
  have hmetadata : (metadata.map Metadata.sorted).map Metadata.sorted = metadata.map Metadata.sorted := by
    cases metadata with
    | none => rfl
    | some m => simp only [Option.map_some, Metadata.sorted, map_sortEntries_idem]
  have hrules : (ruleSet.map RuleSet.sorted).map RuleSet.sorted = ruleSet.map RuleSet.sorted := by
    cases ruleSet with
    | none => rfl
    | some r => simp only [Option.map_some, RuleSet.sorted, map_sorted_idem]
  simp only [SchemaInfo.sorted, hmetadata, hrules]

/-! ## The order of the versions -/

/-- Where the second entry is of the same subject and not deleted, the first has another version, and a
smaller one where it is not deleted either. -/
def Before (e e' : (String × SchemaInfo) × VersionCacheEntry) : Prop :=
  e.1.1 = e'.1.1 → e'.2.softDeleted = false →
    if e.2.softDeleted then e.2.version ≠ e'.2.version else e.2.version < e'.2.version

theorem before_deleted (e : (String × SchemaInfo) × VersionCacheEntry) (k : String × SchemaInfo) (version : Int) :
    Before e (k, ⟨version, true⟩) := by
  intro _ hlive
  cases hlive

theorem Before.delete {k : String × SchemaInfo} {v : VersionCacheEntry}
    {e : (String × SchemaInfo) × VersionCacheEntry}
    (h : Before (k, v) e) : Before (k, ⟨v.version, true⟩) e := by
  intro hsubject hlive
  have hversion := h hsubject hlive
  split_ifs at hversion
  · exact hversion
  · exact Int.ne_of_lt hversion

theorem mem_allVersions {c : MockClient} {subject : String} {version : Int} : version ∈ c.allVersions subject ↔
    ∃ k e, c.schemaToVersionCache.get? k = some e ∧ k.1 = subject ∧ e.softDeleted = false ∧
      e.version = version := by
  unfold allVersions
  rw [List.mem_map]
  constructor
  · rintro ⟨⟨k, e⟩, he, rfl⟩
    rw [List.mem_filter, decide_eq_true_iff, Bool.not_eq_true'] at he
    exact ⟨k, e, JsMap.get?_eq_some.mpr he.1, he.2.1, he.2.2, rfl⟩
  · rintro ⟨k, e, hget, hsubject, hlive, rfl⟩
    refine ⟨(k, e), ?_, rfl⟩
    rw [List.mem_filter, decide_eq_true_iff, Bool.not_eq_true']
    exact ⟨JsMap.get?_eq_some.mp hget, hsubject, hlive⟩

theorem pairwise_versions {es : List ((String × SchemaInfo) × VersionCacheEntry)} (h : es.Pairwise Before)
    (subject : String) :
    ((es.filter fun e => e.1.1 = subject ∧ !e.2.softDeleted).map (·.2.version)).Pairwise (· < ·) := by
  rw [List.pairwise_map]
  refine (h.filter _).imp_of_mem ?_
  intro e e' he he' hbefore
  rw [List.mem_filter, decide_eq_true_iff, Bool.not_eq_true'] at he he'
  have hversion := hbefore (he.2.1.trans he'.2.1.symm) he'.2.2
  rwa [he.2.2, if_neg Bool.false_ne_true] at hversion

theorem le_getLast {l : List Int} (h : l.Pairwise (· < ·)) {v : Int} (hv : v ∈ l) :
    ∃ last, l.getLast? = some last ∧ v ≤ last := by
  rcases List.eq_nil_or_concat' l with rfl | ⟨l, last, rfl⟩
  · cases hv
  · refine ⟨last, List.getLast?_concat, ?_⟩
    rcases List.mem_append.mp hv with hin | hin
    · exact Int.le_of_lt ((List.pairwise_append.mp h).2.2 v hin last (List.mem_cons_self ..))
    · exact Int.le_of_eq (List.mem_singleton.mp hin)

theorem lt_newVersion {c : MockClient} (h : c.schemaToVersionCache.entries.Pairwise Before)
    {subject : String} {v : Int}
    (hv : v ∈ c.allVersions subject) : v < c.newVersion subject := by
  obtain ⟨last, hlast, hle⟩ := le_getLast (pairwise_versions h subject) hv
  have hnew : c.newVersion subject = last + 1 := by
    unfold newVersion allVersions
    rw [hlast]
  omega

theorem latestVersion_eq {c : MockClient} (h : c.schemaToVersionCache.entries.Pairwise Before)
    {subject : String} {v : Int}
    (hv : v ∈ c.allVersions subject) (hgreatest : ∀ v' ∈ c.allVersions subject, v' ≤ v) :
      c.latestVersion subject = v := by
  obtain ⟨last, hlast, hle⟩ := le_getLast (pairwise_versions h subject) hv
  have hmem : last ∈ c.allVersions subject := List.mem_of_getLast? hlast
  have hge := hgreatest last hmem
  have hlatest : c.latestVersion subject = last := by
    unfold latestVersion allVersions
    rw [hlast]
    rfl
  omega

/-- The first entry with the number of a version that is not deleted is its own. -/
theorem find?_version {c : MockClient} (h : c.schemaToVersionCache.entries.Pairwise Before)
    {k : String × SchemaInfo}
    {e : VersionCacheEntry} (hget : c.schemaToVersionCache.get? k = some e) (hlive : e.softDeleted = false) :
    (c.schemaToVersionCache.entries.find? fun e' => e'.1.1 = k.1 ∧ e'.2.version = e.version) = some (k, e) := by
  rw [JsMap.entries_of_get? hget, List.pairwise_append] at h
  have hnone : (c.schemaToVersionCache.before k).find? (fun e' => e'.1.1 = k.1 ∧ e'.2.version = e.version) =
    none := by
    rw [List.find?_eq_none]
    intro x hx hfound
    obtain ⟨hsubject, hversion⟩ := of_decide_eq_true hfound
    have hbefore := h.2.2 x hx (k, e) (List.mem_cons_self ..) hsubject hlive
    split_ifs at hbefore
    · exact hbefore hversion
    · exact Int.ne_of_lt hbefore hversion
  rw [JsMap.entries_of_get? hget, List.find?_append, hnone, List.find?_cons_of_pos (by simp)]
  rfl

/-! ## What the maps know of each other -/

/-- Each id is at most the counter, and its schema's text has a GUID of its own or of an equal text. -/
structure Known (v4 : Nat → String) (ids : JsMap (String × Int) InfoCacheEntry)
    (guids : JsMap String InfoCacheEntry)
    (counter : Nat) : Prop where
  range : ∀ k i, ids.get? k = some i → 1 ≤ k.2 ∧ k.2 ≤ counter
  guid : ∀ k i, ids.get? k = some i → ∃ g i', guids.get? g = some i' ∧ i'.info.schema = i.info.schema
  drawn : ∀ g i, guids.get? g = some i → ∃ n, n ≤ counter ∧ g = v4 n

/-- The same schemas are in both maps of a subject's schemas, and each has an entry under its id. -/
structure Consistent (v4 : Nat → String) (c : MockClient) : Prop where
  positive : ∀ k e, c.schemaToVersionCache.get? k = some e → 1 ≤ e.version
  sorted : ∀ k e, c.schemaToVersionCache.get? k = some e → k.2.sorted = k.2
  synced : ∀ k, (c.schemaToVersionCache.get? k).map (·.softDeleted) = (c.infoToSchemaCache.get? k).map
    (·.softDeleted)
  ids : ∀ k m, c.infoToSchemaCache.get? k = some m →
    ∃ id i, m.metadata.id = some id ∧ c.idToSchemaCache.get? (k.1, id) = some i ∧ i.info.sorted = k.2
  known : Known v4 c.idToSchemaCache c.guidToSchemaCache c.counter

def Ordered (c : MockClient) : Prop := c.schemaToVersionCache.entries.Pairwise Before

theorem consistent_new (v4 : Nat → String) : Consistent v4 new where
  positive _ _ h := nomatch h
  sorted _ _ h := nomatch h
  synced _ := rfl
  ids _ _ h := nomatch h
  known := ⟨fun _ _ h => (nomatch h), fun _ _ h => (nomatch h), fun _ _ h => (nomatch h)⟩

theorem ordered_new : Ordered new := List.Pairwise.nil

theorem find?_getD {β γ : Type} {l : List β} {p : β → Bool} {x : β} (hx : x ∈ l) (hp : p x = true)
    (f : β → γ) (d : γ) :
    ∃ y ∈ l, p y = true ∧ ((l.find? p).map f).getD d = f y := by
  rcases hfind : l.find? p with _ | y
  · exact absurd hp (List.find?_eq_none.mp hfind x hx)
  · exact ⟨y, List.mem_of_find?_eq_some hfind, List.find?_some hfind, rfl⟩

section
variable {v4 : Nat → String} {c : MockClient} (hc : Consistent v4 c)
include hc

theorem Consistent.info {k : String × SchemaInfo} {e : VersionCacheEntry}
    (h : c.schemaToVersionCache.get? k = some e) :
    ∃ m, c.infoToSchemaCache.get? k = some m ∧ m.softDeleted = e.softDeleted := by
  have hsynced := hc.synced k
  rw [h] at hsynced
  rcases hm : c.infoToSchemaCache.get? k with _ | m
  · rw [hm] at hsynced
    cases hsynced
  · rw [hm] at hsynced
    exact ⟨m, rfl, (Option.some.inj hsynced).symm⟩

theorem Consistent.getSchemaMetadata (hguid : ∀ n, v4 n ≠ "") {k : String × SchemaInfo} {e : VersionCacheEntry}
    (h : c.schemaToVersionCache.get? k = some e) (hordered : c.Ordered) (hlive : e.softDeleted = false) :
    ∃ md, c.getSchemaMetadata k.1 e.version = .ok md ∧ md.toSchemaInfo = k.2 ∧ md.version = some e.version ∧
      md.subject = some k.1 := by
  obtain ⟨m, hm, _⟩ := hc.info h
  obtain ⟨id, i, _, hid, htext⟩ := hc.ids k m hm
  have hschema : i.info.sorted.schema = k.2.schema := congrArg SchemaInfo.schema htext
  obtain ⟨g, i', hg, hg'⟩ := hc.known.guid _ i hid
  obtain ⟨y, hy, _, hyid⟩ := find?_getD (p := fun e' => decide (e'.1.1 = k.1 ∧ e'.2.info.schema = k.2.schema))
    (JsMap.get?_eq_some.mp hid) (decide_eq_true ⟨rfl, hschema⟩) (·.1.2) (-1)
  obtain ⟨z, hz, _, hzguid⟩ := find?_getD (p := fun e' => decide (e'.2.info.schema = k.2.schema))
    (JsMap.get?_eq_some.mp hg) (decide_eq_true (hg'.trans hschema)) (·.1) ""
  have hrange := hc.known.range y.1 y.2 (JsMap.get?_eq_some.mpr hy)
  obtain ⟨n, _, hn⟩ := hc.known.drawn z.1 z.2 (JsMap.get?_eq_some.mpr hz)
  unfold MockClient.getSchemaMetadata
  rw [find?_version hordered h hlive]
  dsimp only
  rw [hyid, if_neg (by omega), hzguid, if_neg (by rw [hn]; exact hguid n)]
  exact ⟨_, rfl, rfl, rfl, rfl⟩

end

/-! ## Registration -/

theorem cacheKey_eq (subject : String) (schema : SchemaInfo) : cacheKey subject schema = (subject, schema.sorted) :=
  rfl

theorem cacheKey_of_sorted {k : String × SchemaInfo} (h : k.2.sorted = k.2) : cacheKey k.1 k.2 = k := by
  rw [cacheKey_eq, h]

/-- The place that the schema takes: behind it no version of the subject is left, and before it no deleted one
has the next number. -/
def Placed (c : MockClient) (subject : String) (schema : SchemaInfo) : Prop :=
  (∀ e ∈ c.schemaToVersionCache.behind (cacheKey subject schema), e.1.1 = subject → e.2.softDeleted = true) ∧
  ∀ e ∈ c.schemaToVersionCache.before (cacheKey subject schema), e.1.1 = subject → e.2.softDeleted = true →
    e.2.version ≠ c.newVersion subject

instance (c : MockClient) (subject : String) (schema : SchemaInfo) : Decidable (c.Placed subject schema) :=
  inferInstanceAs (Decidable (_ ∧ _))

/-- The schema is registered with the subject, and not deleted. -/
def Live (c : MockClient) (subject : String) (schema : SchemaInfo) : Prop :=
  ∃ e, c.schemaToVersionCache.get? (cacheKey subject schema) = some e ∧ e.softDeleted = false

theorem ordered_generateVersion {c : MockClient} (h : c.Ordered) {subject : String} {schema : SchemaInfo}
    (hplaced : c.Placed subject schema) : (c.generateVersion subject schema).Ordered := by
  have hrest : (c.schemaToVersionCache.before (cacheKey subject schema) ++ c.schemaToVersionCache.behind
    (cacheKey subject schema)).Pairwise
      Before := h.sublist (JsMap.sublist_entries c.schemaToVersionCache (cacheKey subject schema))
  rw [List.pairwise_append] at hrest
  unfold Ordered generateVersion
  rw [JsMap.entries_set, List.pairwise_append, List.pairwise_cons]
  refine ⟨hrest.1, ⟨?_, hrest.2.1⟩, ?_⟩
  · intro e he hsubject hlive
    rw [hplaced.1 e he hsubject.symm] at hlive
    cases hlive
  · intro e he e' he'
    rcases List.mem_cons.mp he' with rfl | he'
    · intro hsubject _
      split_ifs with hdeleted
      · exact hplaced.2 e he hsubject hdeleted
      · have hin : e ∈ c.schemaToVersionCache.entries :=
          (JsMap.sublist_entries c.schemaToVersionCache (cacheKey subject schema)).subset
          (List.mem_append_left _ he)
        exact lt_newVersion h (mem_allVersions.mpr ⟨e.1, e.2, JsMap.get?_eq_some.mpr hin, hsubject,
          Bool.eq_false_iff.mpr hdeleted, rfl⟩)
    · exact hrest.2.2 e he e' he'

theorem one_le_newVersion {v4 : Nat → String} {c : MockClient} (hc : Consistent v4 c) (subject : String) :
    1 ≤ c.newVersion subject := by
  unfold newVersion
  split
  · exact Int.le_refl 1
  · next version hlast =>
    obtain ⟨k, e, hget, _, _, hversion⟩ := mem_allVersions.mp (List.mem_of_getLast? hlast)
    have hpositive := hc.positive k e hget
    omega

/-- The id that is found or drawn has an entry with an equal schema; no entry is lost. -/
theorem getIDFromRegistry_known {v4 : Nat → String} (hv4 : Function.Injective v4) {c : MockClient}
    (hknown : Known v4 c.idToSchemaCache c.guidToSchemaCache c.counter) (subject : String) (schema : SchemaInfo) :
    ∃ id guid ids guids counter, c.getIDFromRegistry v4 subject schema =
        (id, guid, { c.generateVersion subject schema with
          idToSchemaCache := ids, guidToSchemaCache := guids, counter := counter }) ∧
      Known v4 ids guids counter ∧ 1 ≤ id ∧ (∃ i, ids.get? (subject, id) = some i ∧ i.info.sorted = schema.sorted) ∧
      ∀ k i, c.idToSchemaCache.get? k = some i → ids.get? k = some i := by
  rcases hfind : c.idToSchemaCache.entries.find? fun e => e.1.1 = subject ∧ schemasEqual e.2.info schema with _ | e
  · -- A new id and GUID.
    have hfresh {k : String × Int} {i : InfoCacheEntry} (h : c.idToSchemaCache.get? k = some i) :
        k ≠ (subject, ((c.counter + 1 : Nat) : Int)) := by
      rintro rfl
      have hrange := (hknown.range _ i h).2
      dsimp only at hrange
      omega
    refine ⟨((c.counter + 1 : Nat) : Int), v4 (c.counter + 1),
      c.idToSchemaCache.set (subject, ((c.counter + 1 : Nat) : Int)) ⟨schema, false⟩,
      c.guidToSchemaCache.set (v4 (c.counter + 1)) ⟨schema, false⟩, c.counter + 1, ?_, ⟨?_, ?_, ?_⟩, by
        omega, ?_, ?_⟩
    · unfold getIDFromRegistry
      rw [hfind]
      rfl
    · intro k i h
      rw [JsMap.get?_set] at h
      split_ifs at h with hk
      · rw [hk]
        exact ⟨by dsimp only; omega, Int.le_refl _⟩
      · have hrange := hknown.range k i h
        omega
    · intro k i h
      rw [JsMap.get?_set] at h
      split_ifs at h with hk
      · refine ⟨v4 (c.counter + 1), ⟨schema, false⟩, by rw [JsMap.get?_set, if_pos rfl], ?_⟩
        rw [← Option.some.inj h]
      · obtain ⟨g, i', hg, htext⟩ := hknown.guid k i h
        obtain ⟨n, hn, rfl⟩ := hknown.drawn g i' hg
        refine ⟨v4 n, i', ?_, htext⟩
        rw [JsMap.get?_set, if_neg fun heq => by have := hv4 heq; omega]
        exact hg
    · intro g i h
      rw [JsMap.get?_set] at h
      split_ifs at h with hg
      · exact ⟨c.counter + 1, Nat.le_refl _, hg⟩
      · obtain ⟨n, hn, hdrawn⟩ := hknown.drawn g i h
        exact ⟨n, Nat.le_succ_of_le hn, hdrawn⟩
    · exact ⟨⟨schema, false⟩, by rw [JsMap.get?_set, if_pos rfl], rfl⟩
    · intro k i h
      rw [JsMap.get?_set, if_neg (hfresh h)]
      exact h
  · have hin := JsMap.get?_eq_some.mpr (List.mem_of_find?_eq_some hfind)
    have hrange := hknown.range e.1 e.2 hin
    have hfound := List.find?_some hfind
    obtain ⟨hsubject, hequal⟩ := of_decide_eq_true hfound
    refine ⟨e.1.2, ((c.guidToSchemaCache.entries.find? fun e => schemasEqual e.2.info schema).map (·.1)).getD "",
      c.idToSchemaCache,
      c.guidToSchemaCache, c.counter, ?_, hknown, hrange.1, ⟨e.2, ?_, of_decide_eq_true hequal⟩, fun _ _ h => h⟩
    · unfold getIDFromRegistry
      rw [hfind]
      dsimp only [Option.map_some, Option.getD_some]
      rw [if_neg (by omega)]
      rfl
    · rw [← hsubject]
      exact hin

theorem live_iff {v4 : Nat → String} {c : MockClient} (hc : Consistent v4 c) (subject : String)
    (schema : SchemaInfo) :
    c.Live subject schema ↔
      ∃ metadata, c.infoToSchemaCache.get? (cacheKey subject schema) = some ⟨metadata, false⟩ := by
  constructor
  · rintro ⟨e, he, hlive⟩
    obtain ⟨⟨metadata, deleted⟩, hm, hdeleted⟩ := hc.info he
    exact ⟨metadata, by rw [hm, ← hlive, ← hdeleted]⟩
  · rintro ⟨metadata, hm⟩
    have hsynced := hc.synced (cacheKey subject schema)
    rw [hm] at hsynced
    rcases he : c.schemaToVersionCache.get? (cacheKey subject schema) with _ | e
    · rw [he] at hsynced
      cases hsynced
    · rw [he] at hsynced
      exact ⟨e, he, Option.some.inj hsynced⟩

theorem register_of_live {v4 : Nat → String} {c : MockClient} (hc : Consistent v4 c) {subject : String}
    {schema : SchemaInfo}
    (hlive : c.Live subject schema) : (c.registerFullResponse v4 subject schema).2 = c := by
  obtain ⟨metadata, hm⟩ := (live_iff hc subject schema).mp hlive
  unfold registerFullResponse
  rw [hm]

theorem register_of_not_live {v4 : Nat → String} (hv4 : Function.Injective v4) {c : MockClient}
    (hc : Consistent v4 c)
    {subject : String} {schema : SchemaInfo} (hlive : ¬c.Live subject schema) :
    Consistent v4 (c.registerFullResponse v4 subject schema).2 ∧
      (c.registerFullResponse v4 subject schema).2.schemaToVersionCache =
        (c.generateVersion subject schema).schemaToVersionCache := by
  obtain ⟨id, guid, ids, guids, counter, hget, hknown, hid, ⟨i, hi, hequal⟩, hkept⟩ :=
    getIDFromRegistry_known hv4 hc.known subject schema
  have hafter : (c.registerFullResponse v4 subject schema).2 = { c.generateVersion subject schema with
      infoToSchemaCache := c.infoToSchemaCache.set (cacheKey subject schema)
        ⟨{ toSchemaInfo := schema, id := some id, guid := some guid }, false⟩
      idToSchemaCache := ids, guidToSchemaCache := guids, counter := counter } := by
    have hother := mt (live_iff hc subject schema).mpr hlive
    unfold registerFullResponse
    split
    · next metadata hm => exact absurd ⟨metadata, hm⟩ hother
    · rw [hget]
      dsimp only
      rw [if_neg (by omega)]
      rfl
  rw [hafter]
  refine ⟨⟨?_, ?_, ?_, ?_, hknown⟩, rfl⟩
  · intro k e h
    have hset : (c.schemaToVersionCache.set (cacheKey subject schema) ⟨c.newVersion subject, false⟩).get?
      k = some e := h
    rw [JsMap.get?_set] at hset
    split_ifs at hset
    · rw [← Option.some.inj hset]
      exact one_le_newVersion hc subject
    · exact hc.positive k e hset
  · intro k e h
    have hset : (c.schemaToVersionCache.set (cacheKey subject schema) ⟨c.newVersion subject, false⟩).get?
      k = some e := h
    rw [JsMap.get?_set] at hset
    split_ifs at hset with hk
    · rw [hk]
      exact sorted_idem schema
    · exact hc.sorted k e hset
  · intro k
    show ((c.schemaToVersionCache.set (cacheKey subject schema) ⟨c.newVersion subject, false⟩).get? k).map _ = _
    dsimp only
    rw [JsMap.get?_set, JsMap.get?_set]
    split_ifs
    · rfl
    · exact hc.synced k
  · intro k m h
    dsimp only at h
    rw [JsMap.get?_set] at h
    split_ifs at h with hk
    · rw [hk, ← Option.some.inj h]
      exact ⟨id, i, rfl, hi, hequal⟩
    · obtain ⟨id', i', hmid, hid', htext⟩ := hc.ids k m h
      exact ⟨id', i', hmid, hkept _ i' hid', htext⟩

/-! ## Deletion -/

theorem pairwise_retire {m : JsMap (String × SchemaInfo) VersionCacheEntry} (h : m.entries.Pairwise Before)
    {k : String × SchemaInfo}
    {e : VersionCacheEntry} (hget : m.get? k = some e) (permanent : Bool) :
    (m.retire k ⟨e.version, true⟩ permanent).entries.Pairwise Before := by
  cases permanent with
  | true => exact h.filter _
  | false =>
    rw [JsMap.entries_of_get? hget, List.pairwise_append, List.pairwise_cons] at h
    have hset : (m.retire k ⟨e.version, true⟩ false).entries = (m.set k ⟨e.version, true⟩).entries := rfl
    rw [hset, JsMap.entries_set, List.pairwise_append, List.pairwise_cons]
    refine ⟨h.1, ⟨fun y hy => (h.2.1.1 y hy).delete, h.2.1.2⟩, fun x hx y hy => ?_⟩
    rcases List.mem_cons.mp hy with rfl | hy
    · exact before_deleted x k e.version
    · exact h.2.2 x hx y (List.mem_cons_of_mem _ hy)

theorem Known.of_le {v4 : Nat → String} {ids ids' : JsMap (String × Int) InfoCacheEntry}
    {guids : JsMap String InfoCacheEntry}
    {counter : Nat} (h : Known v4 ids guids counter) (hle : ∀ k i, ids'.get? k = some i → ids.get? k = some i) :
    Known v4 ids' guids counter where
  range k i hi := h.range k i (hle k i hi)
  guid k i hi := h.guid k i (hle k i hi)
  drawn := h.drawn

section
variable {v4 : Nat → String} {c : MockClient} (hc : Consistent v4 c)
include hc

theorem deleteEntry_eq {k : String × SchemaInfo} {e : VersionCacheEntry}
    (hget : c.schemaToVersionCache.get? k = some e)
    (permanent : Bool) : ∃ m id, c.infoToSchemaCache.get? k = some m ∧ m.metadata.id = some id ∧
      c.deleteEntry k e.version permanent = { c with
        schemaToVersionCache := c.schemaToVersionCache.retire k ⟨e.version, true⟩ permanent
        infoToSchemaCache := c.infoToSchemaCache.retire k ⟨m.metadata, true⟩ permanent
        idToSchemaCache := if permanent then c.idToSchemaCache.delete (k.1, id) else c.idToSchemaCache } := by
  obtain ⟨m, hm, _⟩ := hc.info hget
  obtain ⟨id, i, hid, hi, _⟩ := hc.ids k m hm
  refine ⟨m, id, hm, hid, ?_⟩
  unfold deleteEntry
  rw [cacheKey_of_sorted (hc.sorted k e hget)]
  simp only [deleteVersion, hm, hid, deleteMetadata, hi]
  cases permanent <;> rfl

theorem consistent_deleteEntry {k : String × SchemaInfo} {e : VersionCacheEntry}
    (hget : c.schemaToVersionCache.get? k = some e)
    (permanent : Bool) : Consistent v4 (c.deleteEntry k e.version permanent) := by
  obtain ⟨m, id, hm, hid, hafter⟩ := deleteEntry_eq hc hget permanent
  obtain ⟨id', i, hid', hi, htext⟩ := hc.ids k m hm
  obtain rfl : id = id' := Option.some.inj (hid.symm.trans hid')
  have hids : ∀ k' i', (if permanent then c.idToSchemaCache.delete (k.1, id) else c.idToSchemaCache).get?
    k' = some i' →
      c.idToSchemaCache.get? k' = some i' := by
    intro k' i' h
    split_ifs at h
    · rw [JsMap.get?_delete] at h
      split_ifs at h
      exact h
    · exact h
  rw [hafter]
  refine ⟨?_, ?_, ?_, ?_, hc.known.of_le hids⟩
  · intro k' e' h
    dsimp only at h
    rw [JsMap.get?_retire] at h
    split_ifs at h
    · rw [← Option.some.inj h]
      exact hc.positive k e hget
    · exact hc.positive k' e' h
  · intro k' e' h
    dsimp only at h
    rw [JsMap.get?_retire] at h
    split_ifs at h with hk
    · rw [hk]
      exact hc.sorted k e hget
    · exact hc.sorted k' e' h
  · intro k'
    dsimp only
    rw [JsMap.get?_retire, JsMap.get?_retire]
    split_ifs
    · rfl
    · rfl
    · exact hc.synced k'
  · intro k' m' h
    dsimp only at h
    rw [JsMap.get?_retire] at h
    by_cases hk : k' = k
    · rw [if_pos hk] at h
      split_ifs at h with hpermanent
      subst hk
      rw [← Option.some.inj h]
      refine ⟨id, i, hid, ?_, htext⟩
      dsimp only
      rw [if_neg hpermanent]
      exact hi
    · -- The entry of another schema has another id.
      rw [if_neg hk] at h
      obtain ⟨id'', i'', hmid, hi'', htext'⟩ := hc.ids k' m' h
      refine ⟨id'', i'', hmid, ?_, htext'⟩
      dsimp only
      split_ifs
      · rw [JsMap.get?_delete, if_neg]
        · exact hi''
        · intro heq
          rw [heq, hi] at hi''
          exact hk (Prod.ext (Prod.mk.inj heq).1 (by rw [← htext', ← htext, Option.some.inj hi'']))
      · exact hi''

theorem deleteSubjectVersion_kept (hordered : c.Ordered) (subject : String) (version : Int) (permanent : Bool) :
    Consistent v4 (c.deleteSubjectVersion subject version permanent).2 ∧
      (c.deleteSubjectVersion subject version permanent).2.Ordered := by
  refine JsMap.foldl_entries_induction schemaToVersionCache (P := fun c => Consistent v4 c ∧ c.Ordered) ?_
    ⟨hc, hordered⟩
  rintro c k e ⟨hc, hordered⟩ hget
  dsimp only
  split_ifs with hpicked
  · obtain ⟨-, rfl⟩ := hpicked
    obtain ⟨m, id, _, _, hafter⟩ := deleteEntry_eq hc hget permanent
    refine ⟨⟨consistent_deleteEntry hc hget permanent, ?_⟩, fun k' hne => ?_⟩
    · rw [hafter]
      exact pairwise_retire hordered hget permanent
    · rw [hafter]
      dsimp only
      rw [JsMap.get?_retire, if_neg hne]
  · exact ⟨⟨hc, hordered⟩, fun _ _ => rfl⟩

end

theorem foldl_deleteMetadata (c : MockClient) (p : (String × SchemaInfo) × MetadataCacheEntry → Prop)
    [DecidablePred p]
    (permanent : Bool) (es : List ((String × SchemaInfo) × MetadataCacheEntry)) :
    es.foldl (fun c e => if p e then c.deleteMetadata e.1 e.2.metadata permanent else c) c =
      { c with
        infoToSchemaCache := es.foldl
          (fun m e => if p e then m.retire e.1 ⟨e.2.metadata, true⟩ permanent else m) c.infoToSchemaCache } :=
  JsMap.foldl_part infoToSchemaCache (fun c m => { c with infoToSchemaCache := m }) (fun _ _ => rfl)
    (fun _ _ _ => rfl) (fun _ => rfl)
    p (fun m e => m.retire e.1 ⟨e.2.metadata, true⟩ permanent) es c

theorem foldl_deleteVersion (c : MockClient) (p : (String × SchemaInfo) × VersionCacheEntry → Prop)
    [DecidablePred p]
    (permanent : Bool) (es : List ((String × SchemaInfo) × VersionCacheEntry)) :
    es.foldl (fun c e => if p e then c.deleteVersion e.1 e.2.version permanent else c) c =
      { c with
        schemaToVersionCache := es.foldl
          (fun m e => if p e then m.retire e.1 ⟨e.2.version, true⟩ permanent else m) c.schemaToVersionCache } :=
  JsMap.foldl_part schemaToVersionCache (fun c m => { c with schemaToVersionCache := m }) (fun _ _ => rfl)
    (fun _ _ _ => rfl)
    (fun _ => rfl) p (fun m e => m.retire e.1 ⟨e.2.version, true⟩ permanent) es c

theorem foldl_deleteInfo (c : MockClient) (p : (String × Int) × InfoCacheEntry → Prop) [DecidablePred p]
    (permanent : Bool)
    (es : List ((String × Int) × InfoCacheEntry)) :
    es.foldl (fun c e => if p e then c.deleteInfo e.1 e.2.info permanent else c) c =
      { c with idToSchemaCache :=
        es.foldl (fun m e => if p e then m.retire e.1 ⟨e.2.info, true⟩ permanent else m) c.idToSchemaCache } :=
  JsMap.foldl_part idToSchemaCache (fun c m => { c with idToSchemaCache := m }) (fun _ _ => rfl) (fun _ _ _ => rfl)
    (fun _ => rfl)
    p (fun m e => m.retire e.1 ⟨e.2.info, true⟩ permanent) es c

theorem deleteSubject_eq (c : MockClient) (subject : String) (permanent : Bool) :
    (c.deleteSubject subject permanent).2 = { c with
    infoToSchemaCache := c.infoToSchemaCache.entries.foldl (fun m e =>
      if e.1.1 = subject ∧ (permanent ∨ !e.2.softDeleted) then m.retire e.1 ⟨e.2.metadata, true⟩ permanent else m)
        c.infoToSchemaCache
    schemaToVersionCache := c.schemaToVersionCache.entries.foldl (fun m e =>
      if e.1.1 = subject ∧ (permanent ∨ !e.2.softDeleted) then m.retire e.1 ⟨e.2.version, true⟩ permanent else m)
        c.schemaToVersionCache
    idToSchemaCache := if permanent then
        c.idToSchemaCache.entries.foldl (fun m e =>
          if e.1.1 = subject ∧ !e.2.softDeleted then m.retire e.1 ⟨e.2.info, true⟩ permanent else m)
            c.idToSchemaCache
      else c.idToSchemaCache } := by
  unfold deleteSubject
  dsimp only
  rw [foldl_deleteMetadata, foldl_deleteVersion, foldl_deleteInfo]
  cases permanent <;> rfl

theorem consistent_deleteSubject {v4 : Nat → String} {c : MockClient} (hc : Consistent v4 c) (subject : String)
    (permanent : Bool) :
    Consistent v4 (c.deleteSubject subject permanent).2 := by
  have hversions (k : String × SchemaInfo) := JsMap.get?_loop_retire c.schemaToVersionCache
    (fun e => e.1.1 = subject ∧ (permanent ∨ !e.2.softDeleted)) (fun e => ⟨e.2.version, true⟩) permanent k
  have hinfos (k : String × SchemaInfo) := JsMap.get?_loop_retire c.infoToSchemaCache
    (fun e => e.1.1 = subject ∧ (permanent ∨ !e.2.softDeleted)) (fun e => ⟨e.2.metadata, true⟩) permanent k
  have hids (k : String × Int) := JsMap.get?_loop_retire c.idToSchemaCache (fun e => e.1.1 = subject ∧
    !e.2.softDeleted)
    (fun e => ⟨e.2.info, true⟩) permanent k
  have hversion {k : String × SchemaInfo} {e : VersionCacheEntry}
    (h : (c.deleteSubject subject permanent).2.schemaToVersionCache.get? k = some e) :
      ∃ e', c.schemaToVersionCache.get? k = some e' ∧ e.version = e'.version := by
    rw [deleteSubject_eq, hversions, Option.bind_eq_some_iff] at h
    obtain ⟨e', he', h⟩ := h
    refine ⟨e', he', ?_⟩
    split_ifs at h <;> rw [← Option.some.inj h]
  rw [deleteSubject_eq] at hversion ⊢
  refine ⟨?_, ?_, ?_, ?_, hc.known.of_le ?_⟩
  · intro k e h
    obtain ⟨e', he', heq⟩ := hversion h
    rw [heq]
    exact hc.positive k e' he'
  · intro k e h
    obtain ⟨e', he', -⟩ := hversion h
    exact hc.sorted k e' he'
  · intro k
    have hsynced := hc.synced k
    dsimp only
    rw [hversions, hinfos]
    rcases hv : c.schemaToVersionCache.get? k with _ | e <;>
      rcases hm : c.infoToSchemaCache.get? k with _ | m <;> rw [hv, hm] at hsynced
    · rfl
    · cases hsynced
    · cases hsynced
    · have hsame : e.softDeleted = m.softDeleted := Option.some.inj hsynced
      dsimp only [Option.bind_some]
      rw [hsame]
      split_ifs
      · rfl
      · rfl
      · exact congrArg some hsame
  · intro k m h
    dsimp only at h
    rw [hinfos, Option.bind_eq_some_iff] at h
    obtain ⟨m', hm', h⟩ := h
    obtain ⟨id, i, hid, hi, htext⟩ := hc.ids k m' hm'
    split_ifs at h with hpicked hpermanent
    · refine ⟨id, i, by rw [← Option.some.inj h]; exact hid, ?_, htext⟩
      dsimp only
      rw [if_neg hpermanent]
      exact hi
    · refine ⟨id, i, by rw [← Option.some.inj h]; exact hid, ?_, htext⟩
      dsimp only
      split_ifs with hpermanent
      · have hother : ¬((k.1, id) : String × Int).1 = subject := fun hsubject =>
          hpicked ⟨hsubject, Or.inl hpermanent⟩
        rw [hids, hi, Option.bind_some, if_neg fun h => hother h.1]
      · exact hi
  · intro k i h
    dsimp only at h
    split_ifs at h with hpermanent
    · rw [hids, Option.bind_eq_some_iff] at h
      obtain ⟨i', hi', h⟩ := h
      split_ifs at h
      rw [hi', h]
    · exact h

theorem ordered_deleteSubject {c : MockClient} (h : c.Ordered) (subject : String) (permanent : Bool) :
    (c.deleteSubject subject permanent).2.Ordered := by
  rw [deleteSubject_eq]
  refine JsMap.foldl_entries_induction id (P := fun m => m.entries.Pairwise Before) ?_ h
  intro m k e hm hget
  dsimp only
  split_ifs
  · refine ⟨pairwise_retire hm hget permanent, fun k' hne => ?_⟩
    exact (JsMap.get?_retire _ _ _ _ _).trans (if_neg hne)
  · exact ⟨hm, fun _ _ => rfl⟩

/-! ## Right versions -/

/-- The versions of each subject are distinct, the next schema to be registered gets a greater one than all of
them, and the latest is the schema that was registered under the greatest. -/
structure VersionsRight (v4 : Nat → String) (c : MockClient) : Prop where
  distinct : ∀ subject, (c.allVersions subject).Nodup
  greater : ∀ subject schema, ¬c.Live subject schema →
    ∃ e, (c.registerFullResponse v4 subject schema).2.schemaToVersionCache.get? (cacheKey subject schema) = some e ∧
      e.softDeleted = false ∧ ∀ v ∈ c.allVersions subject, v < e.version
  latest : ∀ subject schema e, c.schemaToVersionCache.get? (cacheKey subject schema) = some e →
    e.softDeleted = false →
    (∀ v ∈ c.allVersions subject, v ≤ e.version) →
      ∃ md, c.getLatestSchemaMetadata subject = .ok md ∧ md.toSchemaInfo = schema.sorted ∧
        md.version = some e.version ∧
        md.subject = some subject

theorem get?_generateVersion (c : MockClient) (subject : String) (schema : SchemaInfo) (k : String × SchemaInfo) :
    (c.generateVersion subject schema).schemaToVersionCache.get? k =
      if k = cacheKey subject schema then some ⟨c.newVersion subject, false⟩ else c.schemaToVersionCache.get? k :=
  JsMap.get?_set ..

section
variable {v4 : Nat → String} (hv4 : Function.Injective v4) {c : MockClient} (hc : Consistent v4 c)
  (hordered : c.Ordered)
include hv4 hc hordered

theorem versionsRight (hguid : ∀ n, v4 n ≠ "") : VersionsRight v4 c where
  distinct subject := (pairwise_versions hordered subject).imp Int.ne_of_lt
  greater subject schema hlive := by
    refine ⟨⟨c.newVersion subject, false⟩, ?_, rfl, fun v hv => lt_newVersion hordered hv⟩
    rw [(register_of_not_live hv4 hc hlive).2, get?_generateVersion, if_pos rfl]
  latest subject schema e hget hlive hgreatest := by
    have hmem : e.version ∈ c.allVersions subject := mem_allVersions.mpr ⟨_, e, hget, rfl, hlive, rfl⟩
    have hpositive := hc.positive _ e hget
    obtain ⟨md, hmd⟩ := hc.getSchemaMetadata hguid hget hordered hlive
    unfold getLatestSchemaMetadata
    dsimp only
    rw [latestVersion_eq hordered hmem hgreatest, if_neg (by omega)]
    exact ⟨md, hmd⟩

end

/-- The new version is the greatest wherever it is placed. -/
theorem le_newVersion_of_mem {c : MockClient} (hordered : c.Ordered) {subject : String}
    {schema : SchemaInfo} {v : Int}
    (hv : v ∈ (c.generateVersion subject schema).allVersions subject) : v ≤ c.newVersion subject := by
  obtain ⟨k, e, hget, hsubject, hlive, rfl⟩ := mem_allVersions.mp hv
  rw [get?_generateVersion] at hget
  split_ifs at hget
  · rw [← Option.some.inj hget]
  · exact Int.le_of_lt (lt_newVersion hordered (mem_allVersions.mpr ⟨k, e, hget, hsubject, hlive, rfl⟩))

theorem getLatestSchemaMetadata_found {c : MockClient} {subject : String} {md : SchemaMetadata}
    (h : c.getLatestSchemaMetadata subject = .ok md) : md.version = some (c.latestVersion subject) ∧
      ∃ e, (c.schemaToVersionCache.entries.find? fun e => e.1.1 = subject ∧
        e.2.version = c.latestVersion subject) = some e ∧
        md.toSchemaInfo = e.1.2 := by
  unfold getLatestSchemaMetadata at h
  dsimp only at h
  split_ifs at h
  unfold getSchemaMetadata at h
  split at h
  · cases h
  · next e hfind =>
    dsimp only at h
    split_ifs at h
    rw [← Except.ok.inj h]
    exact ⟨rfl, e, hfind, rfl⟩

theorem allVersions_congr {c c' : MockClient} (h : c'.schemaToVersionCache = c.schemaToVersionCache)
    (subject : String) :
    c'.allVersions subject = c.allVersions subject := by
  unfold allVersions
  rw [h]

/-- Where a version of the subject is left behind the place of the schema, that one stays the last. -/
theorem latestVersion_lt {c : MockClient} (hordered : c.Ordered) {subject : String} {schema : SchemaInfo}
    {e : (String × SchemaInfo) × VersionCacheEntry} (he : e ∈ c.schemaToVersionCache.behind
      (cacheKey subject schema))
    (hsubject : e.1.1 = subject) (hlive : e.2.softDeleted = false) :
    (c.generateVersion subject schema).latestVersion subject < c.newVersion subject := by
  have hbehind : ((c.schemaToVersionCache.behind (cacheKey subject schema)).filter fun e => e.1.1 = subject ∧
    !e.2.softDeleted).map
      (·.2.version) ≠ [] := by
    refine List.ne_nil_of_mem (List.mem_map_of_mem (List.mem_filter.mpr ⟨he, ?_⟩))
    rw [decide_eq_true_iff, Bool.not_eq_true']
    exact ⟨hsubject, hlive⟩
  obtain ⟨vs, last, hvs⟩ := (List.eq_nil_or_concat' _).resolve_left hbehind
  have hall : (c.generateVersion subject schema).allVersions subject =
      ((c.schemaToVersionCache.before (cacheKey subject schema)).filter fun e => e.1.1 = subject ∧
        !e.2.softDeleted).map (·.2.version) ++
        c.newVersion subject :: (vs ++ [last]) := by
    unfold allVersions generateVersion
    rw [JsMap.entries_set, List.filter_append, List.map_append, List.filter_cons_of_pos (by simp [cacheKey_eq]),
      List.map_cons, hvs]
  have hlatest : (c.generateVersion subject schema).latestVersion subject = last := by
    unfold latestVersion
    rw [hall, ← List.cons_append, ← List.append_assoc, List.getLast?_concat]
    rfl
  have hmem : last ∈ ((c.schemaToVersionCache.behind (cacheKey subject schema)).filter fun e => e.1.1 = subject ∧
    !e.2.softDeleted).map
      (·.2.version) := by
    rw [hvs]
    exact List.mem_append_right vs (List.mem_cons_self ..)
  obtain ⟨x, hx, hversion⟩ := List.mem_map.mp hmem
  rw [List.mem_filter, decide_eq_true_iff, Bool.not_eq_true'] at hx
  have hin : x ∈ c.schemaToVersionCache.entries :=
    (JsMap.sublist_entries c.schemaToVersionCache (cacheKey subject schema)).subset (List.mem_append_right _ hx.1)
  rw [hlatest, ← hversion]
  exact lt_newVersion hordered (mem_allVersions.mpr ⟨x.1, x.2, JsMap.get?_eq_some.mpr hin, hx.2.1, hx.2.2, rfl⟩)

theorem placed_of_versionsRight {v4 : Nat → String} {c c' : MockClient} (hordered : c.Ordered) {subject : String}
    {schema : SchemaInfo}
    (hmap : c'.schemaToVersionCache = (c.generateVersion subject schema).schemaToVersionCache)
      (hright : VersionsRight v4 c') :
    c.Placed subject schema := by
  have hall := allVersions_congr hmap subject
  have hlast : c'.latestVersion subject = (c.generateVersion subject schema).latestVersion subject := by
    unfold latestVersion
    rw [hall]
  obtain ⟨md, hmd, hschema, hversion, _⟩ := hright.latest subject schema ⟨c.newVersion subject, false⟩
    (by rw [hmap, get?_generateVersion, if_pos rfl]) rfl fun v hv => le_newVersion_of_mem hordered (hall ▸ hv)
  obtain ⟨hlatest, x, hfind, hfound⟩ := getLatestSchemaMetadata_found hmd
  have hnew : c'.latestVersion subject = c.newVersion subject := Option.some.inj (hlatest.symm.trans hversion)
  constructor
  · intro e he hsubject
    by_contra hlive
    have hlt := latestVersion_lt hordered he hsubject (Bool.eq_false_iff.mpr hlive)
    omega
  · intro e he hsubject _ hsame
    rw [hnew, hmap] at hfind
    unfold generateVersion at hfind
    dsimp only at hfind
    rw [JsMap.entries_set, List.find?_append] at hfind
    rcases hbefore : (c.schemaToVersionCache.before (cacheKey subject schema)).find?
      fun e => e.1.1 = subject ∧ e.2.version = c.newVersion subject with _ | y
    · exact List.find?_eq_none.mp hbefore e he (decide_eq_true ⟨hsubject, hsame⟩)
    · rw [hbefore, Option.some_or] at hfind
      obtain rfl : y = x := Option.some.inj hfind
      have hkey := List.find?_some hbefore
      have hne := JsMap.ne_of_mem_before (List.mem_of_find?_eq_some hbefore)
      refine hne (Prod.ext (of_decide_eq_true hkey).1 ?_)
      rw [← hfound, hschema]
      rfl

end MockClient

/-! ## Runs of the registry -/

namespace MockClient

/-- A schema that is registered and not deleted is answered as it is; another one has to be placed last. -/
def Meets (c : MockClient) : MockOp → Prop
  | .register subject schema => c.Live subject schema ∨ c.Placed subject schema
  | _ => True

def RunMeets (v4 : Nat → String) : MockClient → List MockOp → Prop
  | _, [] => True
  | c, op :: ops => c.Meets op ∧ RunMeets v4 (c.step v4 op) ops

section
variable {v4 : Nat → String} (hv4 : Function.Injective v4)
include hv4

theorem consistent_step {c : MockClient} (hc : Consistent v4 c) (hordered : c.Ordered) (op : MockOp) :
    Consistent v4 (c.step v4 op) := by
  cases op with
  | register subject schema =>
    by_cases hlive : c.Live subject schema
    · rw [step, register_of_live hc hlive]
      exact hc
    · exact (register_of_not_live hv4 hc hlive).1
  | deleteSubject subject permanent => exact consistent_deleteSubject hc subject permanent
  | deleteSubjectVersion subject version permanent =>
      exact (deleteSubjectVersion_kept hc hordered subject version permanent).1

theorem ordered_step {c : MockClient} (hc : Consistent v4 c) (hordered : c.Ordered) {op : MockOp}
    (hmeets : c.Meets op) :
    (c.step v4 op).Ordered := by
  cases op with
  | register subject schema =>
    by_cases hlive : c.Live subject schema
    · rw [step, register_of_live hc hlive]
      exact hordered
    · unfold Ordered step
      dsimp only
      rw [(register_of_not_live hv4 hc hlive).2]
      exact ordered_generateVersion hordered (hmeets.resolve_left hlive)
  | deleteSubject subject permanent => exact ordered_deleteSubject hordered subject permanent
  | deleteSubjectVersion subject version permanent =>
      exact (deleteSubjectVersion_kept hc hordered subject version permanent).2

theorem run_kept (ops : List MockOp) : ∀ {c : MockClient}, Consistent v4 c → c.Ordered → RunMeets v4 c ops →
    Consistent v4 (ops.foldl (step v4) c) ∧ (ops.foldl (step v4) c).Ordered := by
  induction ops with
  | nil => exact fun hc hordered _ => ⟨hc, hordered⟩
  | cons op ops ih =>
    intro c hc hordered hmeets
    exact ih (consistent_step hv4 hc hordered op) (ordered_step hv4 hc hordered hmeets.1) hmeets.2

/-- In every run whose registrations are placed last the versions are right; and after such a run one more
operation leaves them right exactly if it meets the condition, too. -/
theorem run_versionsRight (hguid : ∀ n, v4 n ≠ "") (ops : List MockOp) (hmeets : RunMeets v4 new ops) :
    VersionsRight v4 (ops.foldl (step v4) new) ∧
    ∀ op, VersionsRight v4 ((ops.foldl (step v4) new).step v4 op) ↔ (ops.foldl (step v4) new).Meets op := by
  obtain ⟨hc, hordered⟩ := run_kept hv4 ops (consistent_new v4) ordered_new hmeets
  refine ⟨versionsRight hv4 hc hordered hguid, fun op => ⟨fun hright => ?_, fun hop => ?_⟩⟩
  · cases op with
    | register subject schema =>
      by_cases hlive : (ops.foldl (step v4) new).Live subject schema
      · exact Or.inl hlive
      · exact Or.inr (placed_of_versionsRight hordered (register_of_not_live hv4 hc hlive).2 hright)
    | deleteSubject subject permanent => trivial
    | deleteSubjectVersion subject version permanent => trivial
  · exact versionsRight hv4 (consistent_step hv4 hc hordered op) (ordered_step hv4 hc hordered hop) hguid

end

def distinctGuid (n : Nat) : String := String.ofList (List.replicate (n + 1) 'a')

theorem distinctGuid_injective : Function.Injective distinctGuid := by
  intro m n h
  have hlength := congrArg List.length (String.ofList_injective h)
  rw [List.length_replicate, List.length_replicate] at hlength
  omega

theorem distinctGuid_ne (n : Nat) : distinctGuid n ≠ "" := by
  intro h
  cases String.ofList_injective (h : String.ofList _ = String.ofList [])

/-- The first of two schemas is deleted, and a third is registered. -/
theorem run_versionsRight_third : VersionsRight distinctGuid ([.register "s" ⟨"1", none, none, none, none⟩,
    .register "s" ⟨"2", none, none, none, none⟩, .deleteSubjectVersion "s" 1 false,
    .register "s" ⟨"3", none, none, none, none⟩].foldl (step distinctGuid) new) :=
  (run_versionsRight distinctGuid_injective distinctGuid_ne [.register "s" ⟨"1", none, none, none, none⟩,
    .register "s" ⟨"2", none, none, none, none⟩, .deleteSubjectVersion "s" 1 false, .register "s"
      ⟨"3", none, none, none, none⟩]
    ⟨Or.inr (by decide), Or.inr (by decide), trivial, Or.inr (by decide), trivial⟩).1

/-- The first of two schemas is deleted and registered again, and then a third is registered: its version is
that of the first. -/
theorem not_versionsRight_registered_again : ¬∀ v4 : Nat → String, Function.Injective v4 → (∀ n, v4 n ≠ "") →
    ∀ ops : List MockOp, VersionsRight v4 (ops.foldl (step v4) new) := by
  intro h
  have hdistinct :=
    (h distinctGuid distinctGuid_injective distinctGuid_ne [.register "s" ⟨"1", none, none, none, none⟩,
    .register "s" ⟨"2", none, none, none, none⟩, .deleteSubjectVersion "s" 1 false,
    .register "s" ⟨"1", none, none, none, none⟩, .register "s" ⟨"3", none, none, none, none⟩]).distinct "s"
  revert hdistinct
  decide

end MockClient

end ConfluentKafka
