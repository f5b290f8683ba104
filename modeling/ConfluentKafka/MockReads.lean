import ConfluentKafka.MockVersions
import ConfluentKafka.Rules

/-!
# Ids and GUIDs of the mock registry

The other lookups of `mock-schemaregistry-client.ts`, and what they answer over a run. An id names one schema
of one subject, and a GUID one schema; no registration and no soft deletion takes either away. A permanent
deletion does, and among schemas that differ in the order of their maps alone the first one is answered, so
the runs here have neither.
-/

namespace ConfluentKafka

namespace MockClient

def getBySubjectAndId (c : MockClient) (subject : String) (id : Int) : Except RestError SchemaInfo :=
  if subject = "" then
    match c.idToSchemaCache.entries.find? fun e => e.1.2 = id ∧ !e.2.softDeleted with
    | some e => .ok e.2.info
    | none => .error schemaNotFound
  else
    match c.idToSchemaCache.get? (subject, id) with
    | some ⟨info, false⟩ => .ok info
    | _ => .error schemaNotFound

def getByGuid (c : MockClient) (guid : String) : Except RestError SchemaInfo :=
  match c.guidToSchemaCache.get? guid with
  | some ⟨info, false⟩ => .ok info
  | _ => .error schemaNotFound

def getIdFullResponse (c : MockClient) (subject : String) (schema : SchemaInfo) : Except RestError SchemaMetadata :=
  match c.infoToSchemaCache.get? (cacheKey subject schema) with
  | some ⟨metadata, false⟩ => .ok metadata
  | _ => .error schemaNotFound

def getVersion (c : MockClient) (subject : String) (schema : SchemaInfo) : Except RestError Int :=
  match c.schemaToVersionCache.get? (cacheKey subject schema) with
  | some ⟨version, false⟩ => .ok version
  | _ => .error schemaNotFound

def isSubset (containee : List (String × String)) (container : Option (List (String × String))) :
    Except Thrown Bool :=
  match containee, container with
  | [], _ => .ok true
  | (key, _) :: _, none => .error (.error ("Cannot read properties of undefined (reading '" ++ key ++ "')"))
  | containee, some container => .ok (containee.all fun e => (container.find? (·.1 = e.1)).map (·.2) = some e.2)

def getLatestWithMetadata (c : MockClient) (subject : String) (metadata : List (String × String)) (deleted : Bool) :
    Except Thrown SchemaMetadata := do
  let entries := c.schemaToVersionCache.entries.filter fun e => e.1.1 = subject ∧ (!e.2.softDeleted ∨ deleted)
  let results ← entries.filterMapM fun e =>
    match e.1.2.metadata with
    | none => .ok none
    | some m => (isSubset metadata m.properties).map fun subset =>
      if subset then
        some ({ toSchemaInfo := e.1.2, subject := some subject, version := some e.2.version } : SchemaMetadata)
      else none
  match results with
  | [] => .error (.error schemaNotFound.message)
  | first :: rest =>
    let latest := rest.foldl (fun latest result =>
      if latest.version.getD 0 < result.version.getD 0 then result else latest) first
    match c.idToSchemaCache.entries.find? fun e => e.1.1 = subject ∧ e.2.info.schema = latest.schema with
    | none => .error (.error schemaNotFound.message)
    | some e => .ok { latest with id := some e.1.2 }

/-! ## What the maps know of each other -/

/-- The metadata has an id and a GUID, and both lead to the schema. -/
def Answers (c : MockClient) (subject : String) (md : SchemaMetadata) (info : SchemaInfo) : Prop :=
  ∃ id guid, md.id = some id ∧ md.guid = some guid ∧
    c.idToSchemaCache.get? (subject, id) = some ⟨info, false⟩ ∧ c.guidToSchemaCache.get? guid = some ⟨info, false⟩

/-- Every id is one of a single subject and schema, every schema has a GUID, and the registered metadata leads
to its schema. All schemas are of a kind `P`, with their maps in order. -/
structure Linked (v4 : Nat → String) (P : SchemaInfo → Prop) (c : MockClient) : Prop where
  sorted : ∀ info, P info → info.sorted = info
  ids : ∀ k i, c.idToSchemaCache.get? k = some i → i.softDeleted = false ∧ P i.info ∧ 1 ≤ k.2 ∧ k.2 ≤ c.counter
  named : ∀ k i, c.idToSchemaCache.get? k = some i → ∃ guid, c.guidToSchemaCache.get? guid = some i
  guids : ∀ g i, c.guidToSchemaCache.get? g = some i → i.softDeleted = false ∧ P i.info ∧ ∃ n ≤ c.counter, g = v4 n
  unique : ∀ k k' i i', c.idToSchemaCache.get? k = some i → c.idToSchemaCache.get? k' = some i' →
    k.2 = k'.2 → k = k'
  once : ∀ k k' i, c.idToSchemaCache.get? k = some i → c.idToSchemaCache.get? k' = some i → k.1 = k'.1 → k = k'
  metadata : ∀ k m, c.infoToSchemaCache.get? k = some m → c.Answers k.1 m.metadata k.2

theorem linked_new (v4 : Nat → String) {P : SchemaInfo → Prop} (hP : ∀ info, P info → info.sorted = info) :
    Linked v4 P new where
  sorted := hP
  ids _ _ h := nomatch h
  named _ _ h := nomatch h
  guids _ _ h := nomatch h
  unique _ _ _ _ h := nomatch h
  once _ _ _ h := nomatch h
  metadata _ _ h := nomatch h

/-- No id and no GUID of the first registry is lost or changed in the second. -/
def Extends (c c' : MockClient) : Prop :=
  (∀ k i, c.idToSchemaCache.get? k = some i → c'.idToSchemaCache.get? k = some i) ∧
    ∀ g i, c.guidToSchemaCache.get? g = some i → c'.guidToSchemaCache.get? g = some i

theorem Extends.refl (c : MockClient) : c.Extends c := ⟨fun _ _ h => h, fun _ _ h => h⟩

theorem Extends.trans {c₁ c₂ c₃ : MockClient} (h₁ : c₁.Extends c₂) (h₂ : c₂.Extends c₃) : c₁.Extends c₃ :=
  ⟨fun k i h => h₂.1 k i (h₁.1 k i h), fun g i h => h₂.2 g i (h₁.2 g i h)⟩

theorem Answers.extends {c c' : MockClient} {subject : String} {md : SchemaMetadata} {info : SchemaInfo}
    (h : c.Answers subject md info) (he : c.Extends c') : c'.Answers subject md info := by
  obtain ⟨id, guid, hid, hguid, hinfo, hinfo'⟩ := h
  exact ⟨id, guid, hid, hguid, he.1 _ _ hinfo, he.2 _ _ hinfo'⟩

section
variable {v4 : Nat → String} {P : SchemaInfo → Prop} {c : MockClient}

theorem Linked.getBySubjectAndId_iff (hc : Linked v4 P c) (subject : String) (id : Int) (info : SchemaInfo) :
    c.getBySubjectAndId subject id = .ok info ↔
      ∃ subject', (subject = "" ∨ subject' = subject) ∧ c.idToSchemaCache.get? (subject', id) = some
        ⟨info, false⟩ := by
  unfold getBySubjectAndId
  split_ifs with hs
  · constructor
    · intro h
      split at h
      · next e hfind =>
        have hfound := List.find?_some hfind
        obtain ⟨hid, hlive⟩ := of_decide_eq_true hfound
        rw [Bool.not_eq_true'] at hlive
        refine ⟨e.1.1, .inl hs, ?_⟩
        rw [← hid, ← Except.ok.inj h, ← hlive]
        exact JsMap.get?_eq_some.mpr (List.mem_of_find?_eq_some hfind)
      · cases h
    · rintro ⟨subject', _, hget⟩
      have hmem := JsMap.get?_eq_some.mp hget
      cases hfind : c.idToSchemaCache.entries.find? fun e => e.1.2 = id ∧ !e.2.softDeleted with
      | none =>
        have hnot := List.find?_eq_none.mp hfind _ hmem
        simp at hnot
      | some e =>
        have hfound := List.find?_some hfind
        have hget' := JsMap.get?_eq_some.mpr (List.mem_of_find?_eq_some hfind)
        have hkey := hc.unique e.1 (subject', id) e.2 _ hget' hget (of_decide_eq_true hfound).1
        rw [hkey, hget] at hget'
        simp only [← Option.some.inj hget']
  · constructor
    · intro h
      split at h
      · next hget =>
        obtain rfl := Except.ok.inj h
        exact ⟨subject, .inr rfl, hget⟩
      · cases h
    · rintro ⟨subject', hsame, hget⟩
      rw [← hsame.resolve_left hs, hget]

theorem getByGuid_iff (c : MockClient) (guid : String) (info : SchemaInfo) :
    c.getByGuid guid = .ok info ↔ c.guidToSchemaCache.get? guid = some ⟨info, false⟩ := by
  unfold getByGuid
  constructor
  · intro h
    split at h
    · next hget =>
      obtain rfl := Except.ok.inj h
      exact hget
    · cases h
  · intro h
    rw [h]

/-- The lookups by an id, with the subject and without, and by a GUID. -/
theorem Linked.answered (hc : Linked v4 P c) {subject : String} {md : SchemaMetadata} {info : SchemaInfo}
    (h : c.Answers subject md info) :
    (∀ id, md.id = some id → c.getBySubjectAndId subject id = .ok info ∧ c.getBySubjectAndId "" id = .ok info) ∧
      ∀ guid, md.guid = some guid → c.getByGuid guid = .ok info := by
  obtain ⟨id, guid, hid, hguid, hinfo, hinfo'⟩ := h
  refine ⟨fun id' hid' => ?_, fun guid' hguid' => ?_⟩
  · obtain rfl := Option.some.inj (hid.symm.trans hid')
    exact ⟨(hc.getBySubjectAndId_iff ..).mpr ⟨subject, .inr rfl, hinfo⟩,
      (hc.getBySubjectAndId_iff ..).mpr ⟨subject, .inl rfl, hinfo⟩⟩
  · obtain rfl := Option.some.inj (hguid.symm.trans hguid')
    exact (getByGuid_iff ..).mpr hinfo'

theorem Linked.answers_of_getId (hc : Linked v4 P c) {subject : String} {md : SchemaMetadata} {info : SchemaInfo}
    (hP : P info) (h : c.getIdFullResponse subject info = .ok md) : c.Answers subject md info := by
  unfold getIdFullResponse at h
  split at h
  · next hget =>
    obtain rfl := Except.ok.inj h
    rw [cacheKey_eq, hc.sorted info hP] at hget
    exact hc.metadata _ _ hget
  · cases h

/-! ## Registration -/

/-- An id is found with the schema, or the next one is drawn. -/
theorem getIDFromRegistry_cases (hc : Linked v4 P c) (subject : String) {schema : SchemaInfo} (hP : P schema) :
    (∃ id guid, c.idToSchemaCache.get? (subject, id) = some ⟨schema, false⟩ ∧
      c.guidToSchemaCache.get? guid = some ⟨schema, false⟩ ∧ 1 ≤ id ∧
      c.getIDFromRegistry v4 subject schema = (id, guid, c.generateVersion subject schema)) ∨
    (∀ k i, c.idToSchemaCache.get? k = some i → k.1 = subject → i.info ≠ schema) ∧
      c.getIDFromRegistry v4 subject schema = (((c.counter + 1 : Nat) : Int), v4 (c.counter + 1),
        { c.generateVersion subject schema with
          counter := c.counter + 1
          idToSchemaCache := c.idToSchemaCache.set (subject, ((c.counter + 1 : Nat) : Int)) ⟨schema, false⟩
          guidToSchemaCache := c.guidToSchemaCache.set (v4 (c.counter + 1)) ⟨schema, false⟩ }) := by
  have hequal : ∀ info, P info → (schemasEqual info schema = true ↔ info = schema) := by
    intro info hinfo
    unfold schemasEqual
    rw [decide_eq_true_iff, hc.sorted info hinfo, hc.sorted schema hP]
  rcases hfind : c.idToSchemaCache.entries.find? fun e => e.1.1 = subject ∧ schemasEqual e.2.info schema with _ | e
  · right
    refine ⟨fun k i hget hk hinfo => ?_, ?_⟩
    · have hnot := List.find?_eq_none.mp hfind (k, i) (JsMap.get?_eq_some.mp hget)
      exact hnot (decide_eq_true ⟨hk, (hequal i.info (hc.ids k i hget).2.1).mpr hinfo⟩)
    · unfold getIDFromRegistry
      rw [hfind]
      rfl
  · left
    have hget := JsMap.get?_eq_some.mpr (List.mem_of_find?_eq_some hfind)
    obtain ⟨hlive, hPe, hpos, -⟩ := hc.ids e.1 e.2 hget
    have hfound := List.find?_some hfind
    obtain ⟨hsubject, hschema⟩ := of_decide_eq_true hfound
    have hinfo : e.2 = ⟨schema, false⟩ := by
      rw [← (hequal _ hPe).mp hschema, ← hlive]
    obtain ⟨g, hg⟩ := hc.named e.1 e.2 hget
    -- The GUID that is found has the same schema.
    cases hfindg : c.guidToSchemaCache.entries.find? fun e => schemasEqual e.2.info schema with
    | none =>
      have hnot := List.find?_eq_none.mp hfindg (g, e.2) (JsMap.get?_eq_some.mp hg)
      exact absurd hschema hnot
    | some e' =>
      have hget' := JsMap.get?_eq_some.mpr (List.mem_of_find?_eq_some hfindg)
      obtain ⟨hlive', hPe', -⟩ := hc.guids e'.1 e'.2 hget'
      have hfoundg := List.find?_some hfindg
      have hinfo' : e'.2 = ⟨schema, false⟩ := by
        rw [← (hequal _ hPe').mp hfoundg, ← hlive']
      refine ⟨e.1.2, e'.1, ?_, ?_, hpos, ?_⟩
      · rw [← hsubject, ← hinfo]
        exact hget
      · rw [← hinfo']
        exact hget'
      · unfold getIDFromRegistry
        rw [hfind, hfindg]
        dsimp only [Option.map_some, Option.getD_some]
        rw [if_neg (by omega)]

/-- The versions do not matter to the ids and GUIDs. -/
theorem linked_of_parts (hc : Linked v4 P c) (c' : MockClient) (hids : c'.idToSchemaCache = c.idToSchemaCache)
    (hguids : c'.guidToSchemaCache = c.guidToSchemaCache) (hcounter : c'.counter = c.counter)
    (hinfos : ∀ k m, c'.infoToSchemaCache.get? k = some m → c.Answers k.1 m.metadata k.2) :
    Linked v4 P c' ∧ c.Extends c' := by
  have hextends : c.Extends c' := by
    refine ⟨fun k i h => ?_, fun g i h => ?_⟩
    · rwa [hids]
    · rwa [hguids]
  refine ⟨⟨hc.sorted, ?_, ?_, ?_, ?_, ?_, ?_⟩, hextends⟩
  · rw [hids, hcounter]
    exact hc.ids
  · rw [hids, hguids]
    exact hc.named
  · rw [hguids, hcounter]
    exact hc.guids
  · rw [hids]
    exact hc.unique
  · rw [hids]
    exact hc.once
  · exact fun k m h => (hinfos k m h).extends hextends

def store (c : MockClient) (subject : String) (schema : SchemaInfo) (id : Int) (guid : String) : MockClient :=
  let metadata : SchemaMetadata := { toSchemaInfo := schema, id := some id, guid := some guid }
  { c with infoToSchemaCache := c.infoToSchemaCache.set (subject, schema) ⟨metadata, false⟩ }

theorem linked_store (hc : Linked v4 P c) {subject : String} {schema : SchemaInfo} {id : Int} {guid : String}
    (hid : c.idToSchemaCache.get? (subject, id) = some ⟨schema, false⟩)
    (hguid : c.guidToSchemaCache.get? guid = some ⟨schema, false⟩) :
    Linked v4 P (c.store subject schema id guid) ∧ c.Extends (c.store subject schema id guid) ∧
      (c.store subject schema id guid).Answers subject { toSchemaInfo := schema, id := some id, guid := some guid }
        schema := by
  have hanswers : c.Answers subject { toSchemaInfo := schema, id := some id, guid := some guid } schema :=
    ⟨id, guid, rfl, rfl, hid, hguid⟩
  obtain ⟨hlinked, hextends⟩ := linked_of_parts hc (c.store subject schema id guid) rfl rfl rfl <| by
    intro k m h
    unfold store at h
    rw [JsMap.get?_set] at h
    split_ifs at h with hk
    · rw [hk, ← Option.some.inj h]
      exact hanswers
    · exact hc.metadata k m h
  exact ⟨hlinked, hextends, hanswers.extends hextends⟩

def Fresh (v4 : Nat → String) (c : MockClient) : Prop := c.guidToSchemaCache.get? (v4 (c.counter + 1)) = none

theorem Linked.fresh (hv4 : Function.Injective v4) (hc : Linked v4 P c) : Fresh v4 c := by
  unfold Fresh
  rw [JsMap.get?_eq_none]
  intro i hmem
  obtain ⟨-, -, n, hn, hdrawn⟩ := hc.guids _ i (JsMap.get?_eq_some.mpr hmem)
  have := hv4 hdrawn
  omega

section
variable (hfresh : Fresh v4 c)
include hfresh

/-- The next id and GUID, for a schema that the subject does not have yet. -/
theorem linked_draw (hc : Linked v4 P c) {subject : String} {schema : SchemaInfo} (hP : P schema)
    (hnew : ∀ k i, c.idToSchemaCache.get? k = some i → k.1 = subject → i.info ≠ schema) (c' : MockClient)
    (hids : c'.idToSchemaCache = c.idToSchemaCache.set (subject, ((c.counter + 1 : Nat) : Int)) ⟨schema, false⟩)
    (hguids : c'.guidToSchemaCache = c.guidToSchemaCache.set (v4 (c.counter + 1)) ⟨schema, false⟩)
    (hcounter : c'.counter = c.counter + 1) (hinfos : c'.infoToSchemaCache = c.infoToSchemaCache) :
    Linked v4 P c' ∧ c.Extends c' := by
  have hdrawn : ∀ k i, c.idToSchemaCache.get? k = some i → k.2 ≠ ((c.counter + 1 : Nat) : Int) := by
    intro k i h
    have hrange := (hc.ids k i h).2.2.2
    omega
  have hget : ∀ k, c'.idToSchemaCache.get? k =
      if k = (subject, ((c.counter + 1 : Nat) : Int)) then some ⟨schema, false⟩ else c.idToSchemaCache.get? k := by
    intro k
    rw [hids, JsMap.get?_set]
  have hgetg : ∀ g, c'.guidToSchemaCache.get? g =
      if g = v4 (c.counter + 1) then some ⟨schema, false⟩ else c.guidToSchemaCache.get? g := by
    intro g
    rw [hguids, JsMap.get?_set]
  have hextends : c.Extends c' := by
    refine ⟨fun k i h => ?_, fun g i h => ?_⟩
    · rw [hget, if_neg fun hk => hdrawn k i h (by rw [hk])]
      exact h
    · have hne : g ≠ v4 (c.counter + 1) := by
        rintro rfl
        rw [hfresh] at h
        cases h
      rw [hgetg, if_neg hne]
      exact h
  refine ⟨⟨hc.sorted, ?_, ?_, ?_, ?_, ?_, ?_⟩, hextends⟩
  · intro k i h
    rw [hget] at h
    rw [hcounter]
    split_ifs at h with hk
    · obtain rfl := Option.some.inj h
      exact ⟨rfl, hP, by rw [hk]; omega, by rw [hk]⟩
    · obtain ⟨hlive, hPi, hpos, hle⟩ := hc.ids k i h
      exact ⟨hlive, hPi, hpos, by omega⟩
  · intro k i h
    rw [hget] at h
    split_ifs at h with hk
    · exact ⟨v4 (c.counter + 1), by rw [hgetg, if_pos rfl, h]⟩
    · obtain ⟨g, hg⟩ := hc.named k i h
      exact ⟨g, hextends.2 g i hg⟩
  · intro g i h
    rw [hgetg] at h
    rw [hcounter]
    split_ifs at h with hg
    · obtain rfl := Option.some.inj h
      exact ⟨rfl, hP, c.counter + 1, Nat.le_refl _, hg⟩
    · obtain ⟨hlive, hPi, n, hn, hdrawn⟩ := hc.guids g i h
      exact ⟨hlive, hPi, n, Nat.le_succ_of_le hn, hdrawn⟩
  · intro k k' i i' h h' heq
    rw [hget] at h h'
    split_ifs at h h' with hk hk' hk'
    · rw [hk, hk']
    · exact absurd (by rw [← heq, hk]) (hdrawn k' i' h')
    · exact absurd (by rw [heq, hk']) (hdrawn k i h)
    · exact hc.unique k k' i i' h h' heq
  · intro k k' i h h' heq
    rw [hget] at h h'
    split_ifs at h h' with hk hk' hk'
    · rw [hk, hk']
    · have hinfo : i.info = schema := by rw [← Option.some.inj h]
      exact absurd hinfo (hnew k' i h' (by rw [← heq, hk]))
    · have hinfo : i.info = schema := by rw [← Option.some.inj h']
      exact absurd hinfo (hnew k i h (by rw [heq, hk']))
    · exact hc.once k k' i h h' heq
  · intro k m h
    rw [hinfos] at h
    exact (hc.metadata k m h).extends hextends

theorem getIDFromRegistry_linked (hc : Linked v4 P c) (subject : String) {schema : SchemaInfo} (hP : P schema) :
    ∃ id guid c', c.getIDFromRegistry v4 subject schema = (id, guid, c') ∧ 1 ≤ id ∧ Linked v4 P c' ∧ c.Extends c' ∧
      c'.idToSchemaCache.get? (subject, id) = some ⟨schema, false⟩ ∧
      c'.guidToSchemaCache.get? guid = some ⟨schema, false⟩ := by
  rcases getIDFromRegistry_cases hc subject hP with ⟨id, guid, hid, hguid, hpos, heq⟩ | ⟨hnew, heq⟩
  · obtain ⟨hlinked, hextends⟩ := linked_of_parts hc (c.generateVersion subject schema) rfl rfl rfl hc.metadata
    exact ⟨id, guid, _, heq, hpos, hlinked, hextends, hid, hguid⟩
  · refine ⟨_, _, _, heq, by omega, ?_⟩
    obtain ⟨hlinked, hextends⟩ := linked_draw hfresh hc hP hnew { c.generateVersion subject schema with
      counter := c.counter + 1
      idToSchemaCache := c.idToSchemaCache.set (subject, ((c.counter + 1 : Nat) : Int)) ⟨schema, false⟩
      guidToSchemaCache := c.guidToSchemaCache.set (v4 (c.counter + 1)) ⟨schema, false⟩ } rfl rfl rfl rfl
    refine ⟨hlinked, hextends, ?_, ?_⟩
    · rw [JsMap.get?_set, if_pos rfl]
    · rw [JsMap.get?_set, if_pos rfl]

theorem linked_register (hc : Linked v4 P c) (subject : String) {schema : SchemaInfo} (hP : P schema) :
    Linked v4 P (c.registerFullResponse v4 subject schema).2 ∧
      c.Extends (c.registerFullResponse v4 subject schema).2 ∧
      ∃ md, (c.registerFullResponse v4 subject schema).1 = .ok md ∧
        (c.registerFullResponse v4 subject schema).2.Answers subject md schema := by
  have hkey : cacheKey subject schema = (subject, schema) := by
    rw [cacheKey_eq, hc.sorted schema hP]
  unfold registerFullResponse
  rw [hkey]
  split
  · next metadata hm =>
    exact ⟨hc, .refl c, metadata, rfl, hc.metadata _ _ hm⟩
  · obtain ⟨id, guid, c', heq, hpos, hlinked, hextends, hid, hguid⟩ := getIDFromRegistry_linked hfresh hc subject hP
    obtain ⟨hlinked', hextends', hanswers⟩ := linked_store hlinked hid hguid
    rw [heq]
    dsimp only
    rw [if_neg (by omega)]
    exact ⟨hlinked', hextends.trans hextends', _, rfl, hanswers⟩

end

end

/-! ## Soft deletion -/

structure Softer (c c' : MockClient) : Prop where
  ids : c'.idToSchemaCache = c.idToSchemaCache
  guids : c'.guidToSchemaCache = c.guidToSchemaCache
  counter : c'.counter = c.counter
  infos : ∀ k m', c'.infoToSchemaCache.get? k = some m' →
    ∃ m, c.infoToSchemaCache.get? k = some m ∧ m'.metadata = m.metadata

theorem Softer.refl (c : MockClient) : c.Softer c := ⟨rfl, rfl, rfl, fun _ m' h => ⟨m', h, rfl⟩⟩

theorem Softer.trans {c₁ c₂ c₃ : MockClient} (h₁ : c₁.Softer c₂) (h₂ : c₂.Softer c₃) : c₁.Softer c₃ where
  ids := h₂.ids.trans h₁.ids
  guids := h₂.guids.trans h₁.guids
  counter := h₂.counter.trans h₁.counter
  infos := by
    intro k m' h
    obtain ⟨m, hm, heq⟩ := h₂.infos k m' h
    obtain ⟨m₀, hm₀, heq₀⟩ := h₁.infos k m hm
    exact ⟨m₀, hm₀, heq.trans heq₀⟩

theorem softer_deleteEntry (c : MockClient) (key : String × SchemaInfo) (version : Int) :
    c.Softer (c.deleteEntry key version false) := by
  have hversion : c.Softer (c.deleteVersion key version false) := ⟨rfl, rfl, rfl, fun _ m' h => ⟨m', h, rfl⟩⟩
  unfold deleteEntry
  dsimp only
  split
  · exact hversion
  · next cacheEntry hentry =>
    simp only [Bool.false_eq_true, if_false]
    refine ⟨rfl, rfl, rfl, fun k m' h => ?_⟩
    unfold deleteMetadata at h
    rw [JsMap.get?_retire] at h
    split_ifs at h with hk
    · obtain rfl := Option.some.inj h
      exact ⟨cacheEntry, by rw [hk]; exact hentry, rfl⟩
    · exact ⟨m', h, rfl⟩

theorem softer_deleteSubjectVersion (c : MockClient) (subject : String) (version : Int) :
    c.Softer (c.deleteSubjectVersion subject version false).2 := by
  have hloop : ∀ (es : List ((String × SchemaInfo) × VersionCacheEntry)) (c' : MockClient), c.Softer c' →
      c.Softer (es.foldl (fun c e =>
        if e.1.1 = subject ∧ e.2.version = version then c.deleteEntry e.1 version false else c) c') := by
    intro es
    induction es with
    | nil => exact fun _ h => h
    | cons e es ih =>
      intro c' h
      rw [List.foldl_cons]
      refine ih _ ?_
      split_ifs
      · exact h.trans (softer_deleteEntry c' e.1 version)
      · exact h
  exact hloop _ c (.refl c)

theorem softer_deleteSubject (c : MockClient) (subject : String) :
    c.Softer (c.deleteSubject subject false).2 := by
  rw [deleteSubject_eq]
  refine ⟨rfl, rfl, rfl, fun k m' h => ?_⟩
  rw [JsMap.get?_loop_retire c.infoToSchemaCache (fun e => e.1.1 = subject ∧ ((false : Bool) ∨ !e.2.softDeleted))
    (fun e => ⟨e.2.metadata, true⟩) false k, Option.bind_eq_some_iff] at h
  obtain ⟨m, hm, h⟩ := h
  refine ⟨m, hm, ?_⟩
  split_ifs at h
  all_goals rw [← Option.some.inj h]

theorem linked_softer {v4 : Nat → String} {P : SchemaInfo → Prop} {c c' : MockClient} (hc : Linked v4 P c)
    (h : c.Softer c') : Linked v4 P c' ∧ c.Extends c' := by
  refine linked_of_parts hc c' h.ids h.guids h.counter fun k m' hm' => ?_
  obtain ⟨m, hm, heq⟩ := h.infos k m' hm'
  rw [heq]
  exact hc.metadata k m hm

/-! ## Runs -/

/-- A registration of such a schema, or a deletion that is not permanent. -/
def Keeps (P : SchemaInfo → Prop) : MockOp → Prop
  | .register _ schema => P schema
  | .deleteSubject _ permanent => permanent = false
  | .deleteSubjectVersion _ _ permanent => permanent = false

theorem linked_step {v4 : Nat → String} {P : SchemaInfo → Prop} {c : MockClient} (hc : Linked v4 P c)
    (hfresh : Fresh v4 c)
    {op : MockOp} (hop : Keeps P op) : Linked v4 P (c.step v4 op) ∧ c.Extends (c.step v4 op) := by
  cases op with
  | register subject schema =>
    obtain ⟨hlinked, hextends, _⟩ := linked_register hfresh hc subject hop
    exact ⟨hlinked, hextends⟩
  | deleteSubject subject permanent =>
    obtain rfl : permanent = false := hop
    exact linked_softer hc (softer_deleteSubject c subject)
  | deleteSubjectVersion subject version permanent =>
    obtain rfl : permanent = false := hop
    exact linked_softer hc (softer_deleteSubjectVersion c subject version)

theorem linked_run {v4 : Nat → String} (hv4 : Function.Injective v4) {P : SchemaInfo → Prop} (ops : List MockOp) :
    ∀ {c : MockClient}, Linked v4 P c → (∀ op ∈ ops, Keeps P op) →
      Linked v4 P (ops.foldl (step v4) c) ∧ c.Extends (ops.foldl (step v4) c) := by
  induction ops with
  | nil => exact fun hc _ => ⟨hc, .refl _⟩
  | cons op ops ih =>
    intro c hc hops
    obtain ⟨hlinked, hextends⟩ := linked_step hc (hc.fresh hv4) (hops op List.mem_cons_self)
    obtain ⟨hlinked', hextends'⟩ := ih hlinked fun op' hop' => hops op' (List.mem_cons_of_mem _ hop')
    exact ⟨hlinked', hextends.trans hextends'⟩

def InOrder (info : SchemaInfo) : Prop := info.sorted = info

/-- What a registration answers leads to its schema at any later time, by its id with the subject and without,
and by its GUID; and the schema gets the same id whenever it is registered with the subject again. -/
theorem registered_answered {v4 : Nat → String} (hv4 : Function.Injective v4) (ops later : List MockOp)
    (hops : ∀ op ∈ ops, Keeps InOrder op) (hlater : ∀ op ∈ later, Keeps InOrder op) (subject : String)
    {schema : SchemaInfo} (hschema : InOrder schema) :
    ∃ md id guid, ((ops.foldl (step v4) new).registerFullResponse v4 subject schema).1 = .ok md ∧
      md.id = some id ∧ md.guid = some guid ∧
      let c := later.foldl (step v4) ((ops.foldl (step v4) new).registerFullResponse v4 subject schema).2
      c.getBySubjectAndId subject id = .ok schema ∧ c.getBySubjectAndId "" id = .ok schema ∧
        c.getByGuid guid = .ok schema ∧
        ∃ md', (c.registerFullResponse v4 subject schema).1 = .ok md' ∧ md'.id = some id := by
  have hc := (linked_run hv4 ops (linked_new v4 fun _ h => h) hops).1
  obtain ⟨hlinked, _, md, hmd, hanswers⟩ := linked_register (hc.fresh hv4) hc subject hschema
  obtain ⟨hlinked', hextends⟩ := linked_run hv4 later hlinked hlater
  have hanswers' := hanswers.extends hextends
  obtain ⟨hids, hguids⟩ := hlinked'.answered hanswers'
  obtain ⟨id, guid, hid, hguid, hkept, _⟩ := hanswers'
  refine ⟨md, id, guid, hmd, hid, hguid, (hids id hid).1, (hids id hid).2, hguids guid hguid, ?_⟩
  obtain ⟨hagain, hextends', md', hmd', id', _, hid', _, hinfo', _⟩ := linked_register (hlinked'.fresh hv4) hlinked'
    subject hschema
  have hsame := hagain.once _ _ _ hinfo' (hextends'.1 _ _ hkept) rfl
  exact ⟨md', hmd', by rw [hid', (Prod.mk.inj hsame).2]⟩

/-- A schema that another subject has, too, and that is deleted in between. -/
theorem registered_answered_twice : ∃ md id guid,
    (([.register "a" ⟨"1", none, none, none, none⟩, .register "b" ⟨"1", none, none, none, none⟩,
      .deleteSubject "b" false].foldl (step distinctGuid) new).registerFullResponse distinctGuid "b"
        ⟨"1", none, none, none, none⟩).1 = .ok md ∧
      md.id = some id ∧ md.guid = some guid ∧
      let c := [MockOp.deleteSubjectVersion "b" 1 false, .register "b" ⟨"2", none, none, none, none⟩].foldl
        (step distinctGuid) (([.register "a" ⟨"1", none, none, none, none⟩,
          .register "b" ⟨"1", none, none, none, none⟩, .deleteSubject "b" false].foldl
            (step distinctGuid) new).registerFullResponse distinctGuid "b" ⟨"1", none, none, none, none⟩).2
      c.getBySubjectAndId "b" id = .ok ⟨"1", none, none, none, none⟩ ∧
        c.getBySubjectAndId "" id = .ok ⟨"1", none, none, none, none⟩ ∧
        c.getByGuid guid = .ok ⟨"1", none, none, none, none⟩ ∧
        ∃ md', (c.registerFullResponse distinctGuid "b" ⟨"1", none, none, none, none⟩).1 = .ok md' ∧
          md'.id = some id :=
  registered_answered distinctGuid_injective _ _ (by simp [Keeps, InOrder, SchemaInfo.sorted])
    (by simp [Keeps, InOrder, SchemaInfo.sorted]) "b" rfl

end MockClient

end ConfluentKafka
