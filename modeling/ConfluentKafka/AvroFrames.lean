import ConfluentKafka.AvroSerde
import ConfluentKafka.Framing
import ConfluentKafka.RuleRecovery

/-!
# Frames of the Avro serializer

A frame is made of the bytes of the message and the id or GUID of its schema. It is read back when the
registry still answers that id or GUID with the schema, and the rules of the schema can be taken back.
-/

namespace ConfluentKafka

theorem ok_of_bind {ε α β : Type} {x : Except ε α} {f : α → Except ε β} {b : β} (h : (x >>= f) = .ok b) :
    ∃ a, x = .ok a ∧ f a = .ok b := by
  cases x with
  | error => cases h
  | ok a => exact ⟨a, rfl, h⟩

theorem ok_of_map {ε α β : Type} {x : Except ε α} {f : α → β} {b : β} (h : x.map f = .ok b) :
    ∃ a, x = .ok a ∧ f a = b := by
  cases x with
  | error => cases h
  | ok a => exact ⟨a, rfl, Except.ok.inj h⟩

def Avsc.Lawful {μ τ : Type} (avsc : Avsc μ τ) : Prop :=
  ∀ t x bytes, avsc.isValid t x = none → avsc.typeName t ≠ "bytes" → avsc.toBuffer t x = .ok bytes →
    avsc.fromBuffer t (some (.buffer bytes)) = .ok x

namespace AvroSerde

variable {μ τ σ : Type} {a : AvroSerde μ τ} {reg : SchemaRegistry σ}

/-! ## The rules of a schema -/

/-- What the rules of the schema write can be taken back, in both phases. -/
def RecoverableSchema (a : AvroSerde μ τ) (info : SchemaInfo) : Prop :=
  ∀ subject topic, a.rules.RecoverableRules (ruleCall subject topic .domain .write info) ∧
    a.rules.RecoverableRules (ruleCall subject topic .encoding .write info)

/-! ## What a frame is made of -/

/-- The steps of `encode` that made a frame: the message after the domain rules, its encoding, and that after
the encoding rules. -/
structure Steps (a : AvroSerde μ τ) (topic : String) (info : SchemaInfo) (msg : Payload μ) (t : τ)
    (subject : String)
    (stored encoded framed : Payload μ) : Prop where
  type : a.avsc.toType info = .ok t
  named : a.subjectName topic (some info) = .ok subject
  domain : (a.rules.executeRulesWithPhase (ruleCall subject topic .domain .read info) (some stored)).result =
    .ok (some msg)
  written : (a.rules.executeRulesWithPhase (ruleCall subject topic .domain .write info) (some msg)).result =
    .ok (some stored)
  decoded : if a.avsc.typeName t = "bytes" then encoded = stored
    else a.avsc.fromBuffer t (some encoded) = .ok (some stored)
  encoding : (a.rules.executeRulesWithPhase (ruleCall subject topic .encoding .read info) (some framed)).result =
    .ok (some encoded)

theorem Steps.fromMsgBytes {topic : String} {info : SchemaInfo} {msg : Payload μ} {t : τ} {subject : String}
    {stored encoded framed : Payload μ} (hs : Steps a topic info msg t subject stored encoded framed) :
    a.fromMsgBytes t (some encoded) = .ok (some stored) := by
  have hdecoded := hs.decoded
  unfold AvroSerde.fromMsgBytes
  split_ifs at hdecoded ⊢
  · rw [hdecoded]
  · exact hdecoded

theorem encode_steps (hlaw : a.avsc.Lawful) {info : SchemaInfo} (hrules : a.RecoverableSchema info)
    {conf : SerializerConfig} {topic : String} {schemaId : SchemaId} {msg : Payload μ}
    {headers headers' : Option Headers}
    {payload : Option (Payload μ)}
    (h : a.encode conf topic schemaId info (some msg) headers = .ok (payload, headers')) :
    ∃ t subject stored encoded framed, Steps a topic info msg t subject stored encoded framed ∧
      a.serializeSchemaId conf.schemaIdSerializer (some framed) schemaId headers = .ok (payload, headers') := by
  unfold encode at h
  obtain ⟨t, ht, h⟩ := ok_of_bind h
  obtain ⟨subject, hsubject, h⟩ := ok_of_bind h
  obtain ⟨_, _, h⟩ := ok_of_bind h
  obtain ⟨out, hdomain, h⟩ := ok_of_bind h
  obtain ⟨_, _, h⟩ := ok_of_bind h
  obtain ⟨_, hvalid, h⟩ := ok_of_bind h
  obtain ⟨msgBytes, hbytes, h⟩ := ok_of_bind h
  obtain ⟨framed?, hencoding, h⟩ := ok_of_bind h
  obtain ⟨stored, rfl, hread⟩ := a.rules.recover (hrules subject topic).1 hdomain
  have hvalid : a.avsc.isValid t (some stored) = none := by
    unfold checkValid at hvalid
    split at hvalid
    · assumption
    · cases hvalid
  -- The bytes are those of the type, or the message itself.
  obtain ⟨encoded, rfl, hdecoded⟩ : ∃ encoded, msgBytes = some encoded ∧
      if a.avsc.typeName t = "bytes" then encoded = stored else a.avsc.fromBuffer t (some encoded) = .ok
        (some stored) := by
    unfold toMsgBytes at hbytes
    split_ifs at hbytes ⊢ with hname
    · exact ⟨stored, (Except.ok.inj hbytes).symm, rfl⟩
    · obtain ⟨bytes, hb, rfl⟩ := ok_of_map hbytes
      exact ⟨.buffer bytes, rfl, hlaw t _ bytes hvalid hname hb⟩
  obtain ⟨framed, rfl, hback⟩ := a.rules.recover (hrules subject topic).2 hencoding
  exact ⟨t, subject, stored, encoded, framed, ⟨ht, hsubject, hread, hdomain, hdecoded, hback⟩, h⟩

/-! ## Reading a frame -/

/-- The registry answers the id and the guid of the schema with the schema, and a deserializer of the topic
asks for it. -/
structure Held (a : AvroSerde μ τ) (reg : SchemaRegistry σ) (w : σ) (topic : String) (schemaId : SchemaId)
    (info : SchemaInfo) : Prop where
  id : ∀ id, schemaId.id = some id → ∃ subject, a.subjectName topic none = .ok subject ∧
    reg.getBySubjectAndId w subject id none = .ok info
  guid : ∀ guid, schemaId.guid = some guid → Canonical guid ∧ reg.getByGuid w guid none = .ok info

/-- Where the id goes before the payload, no header of an earlier message hides it. -/
def Unhidden (a : AvroSerde μ τ) (conf : SerializerConfig) (headers : Option Headers) : Prop :=
  conf.schemaIdSerializer = .prefixed → headers.bind (·.get? (headerKey a.serdeType)) = none

def avroSchemaId (md : SchemaMetadata) : SchemaId := { schemaType := AVRO_TYPE, id := md.id, guid := md.guid }

theorem avroSchemaId_blank (md : SchemaMetadata) : (avroSchemaId md).blank = { schemaType := AVRO_TYPE } := rfl

theorem wellIndexed_avro (md : SchemaMetadata) : (avroSchemaId md).WellIndexed := by
  have hne : AVRO_TYPE ≠ "PROTOBUF" := by decide
  simp [SchemaId.WellIndexed, avroSchemaId, hne]

theorem indexBytes_avro (md : SchemaMetadata) : (avroSchemaId md).indexBytes = [] := rfl

theorem prefixSerializer_ok {bytes frame : Bytes} {schemaId : SchemaId}
    (h : PrefixSchemaIdSerializer bytes schemaId = .ok frame) : ∃ id, schemaId.id = some id ∧ FitsBytes 4 id ∧
      frame = MAGIC_BYTE_V0 ++ bytesBE 4 (unsigned 4 id) ++ schemaId.indexBytes ++ bytes := by
  obtain ⟨idBytes, hid, hframe⟩ := ok_of_bind h
  unfold SchemaId.idToBytes at hid
  split at hid
  · cases hid
  · next id hsome =>
    obtain ⟨idBuffer, hwrite, hbytes⟩ := ok_of_bind hid
    unfold writeInt32BE at hwrite
    split_ifs at hwrite with hrange
    have hfits : FitsBytes 4 id := by
      unfold FitsBytes
      omega
    refine ⟨id, hsome, hfits, ?_⟩
    rw [← Except.ok.inj hframe, ← Except.ok.inj hbytes, ← Except.ok.inj hwrite]

theorem headerSerializer_ok {serdeType : SerdeType} {schemaId : SchemaId} {headers : Option Headers} {bytes : Bytes}
    {out : Bytes × Headers} (h : HeaderSchemaIdSerializer serdeType bytes schemaId headers = .ok out) :
    ∃ guid old, schemaId.guid = some guid ∧ headers = some old ∧ out.2 = old.set (headerKey serdeType)
      (.one (.buffer (MAGIC_BYTE_V1 ++ parseUuid guid ++ schemaId.indexBytes))) := by
  unfold HeaderSchemaIdSerializer at h
  split at h
  · cases h
  · next old =>
    obtain ⟨guidBytes, hguid, hset⟩ := ok_of_bind h
    unfold SchemaId.guidToBytes at hguid
    split at hguid
    · cases hguid
    · next guid hsome =>
      obtain rfl := Except.ok.inj hguid
      exact ⟨guid, old, hsome, rfl, (congrArg Prod.snd (Except.ok.inj hset)).symm⟩

theorem getWriterSchema_id {w : σ} {topic subject : String} {bytes : Bytes} {headers : Option Headers}
    {n : Nat} {id : Int}
    {blank schemaId : SchemaId} {info : SchemaInfo}
    (hread : DualSchemaIdDeserializer a.serdeType bytes blank headers = .ok (schemaId, n))
    (hid : schemaId.id = some id)
    (hsubject : a.subjectName topic none = .ok subject)
    (hget : reg.getBySubjectAndId w subject id none = .ok info) :
    a.getWriterSchema reg w topic bytes blank headers none = .ok (info, n) := by
  simp [getWriterSchema, hread, hid, hsubject, hget, bind, Except.bind, pure, Except.pure]

theorem getWriterSchema_guid {w : σ} {topic guid : String} {bytes : Bytes} {headers : Option Headers} {n : Nat}
    {blank schemaId : SchemaId} {info : SchemaInfo}
    (hread : DualSchemaIdDeserializer a.serdeType bytes blank headers = .ok (schemaId, n))
    (hid : schemaId.id = none)
    (hguid : schemaId.guid = some guid) (hget : reg.getByGuid w guid none = .ok info) :
    a.getWriterSchema reg w topic bytes blank headers none = .ok (info, n) := by
  simp [getWriterSchema, hread, hid, hguid, hget, bind, Except.bind, pure, Except.pure]

/-- A frame with a buffer in it: what the deserializer finds of its schema, and where the message begins. -/
theorem getWriterSchema_framed {w : σ} {conf : SerializerConfig} {topic : String} {md : SchemaMetadata}
    {info : SchemaInfo}
    {framed : Payload μ} {bytes : Bytes} {headers headers' : Option Headers} (hheaders : Unhidden a conf headers)
    (hheld : Held a reg w topic (avroSchemaId md) info)
    (h : a.serializeSchemaId conf.schemaIdSerializer (some framed) (avroSchemaId md) headers =
      .ok (some (.buffer bytes), headers')) :
    ∃ n, a.getWriterSchema reg w topic bytes { schemaType := AVRO_TYPE } headers' none = .ok (info, n) ∧
      framed = .buffer (bytes.drop n) := by
  unfold serializeSchemaId at h
  split at h
  · -- The guid is in a header, and the payload is the message.
    obtain ⟨⟨_, headers₁⟩, hserialized, hout⟩ := ok_of_bind h
    simp only [pure, Except.pure, Except.ok.injEq, Prod.mk.injEq, Option.some.injEq] at hout
    obtain ⟨rfl, rfl⟩ := hout
    obtain ⟨guid, old, hguid, rfl, rfl⟩ := headerSerializer_ok hserialized
    obtain ⟨hcanonical, hget⟩ := hheld.guid guid hguid
    have hread := fromBytes_guid (wellIndexed_avro md) hcanonical []
    have hbuffer : headerBuffer a.serdeType (some (old.set (headerKey a.serdeType)
        (.one (.buffer (MAGIC_BYTE_V1 ++ parseUuid guid ++ (avroSchemaId md).indexBytes))))) =
        some (MAGIC_BYTE_V1 ++ parseUuid guid ++ (avroSchemaId md).indexBytes) := by
      simp [headerBuffer, JsMap.get?_set, HeaderItem.toBuffer]
    rw [List.append_nil, avroSchemaId_blank] at hread
    have hdual : DualSchemaIdDeserializer a.serdeType bytes { schemaType := AVRO_TYPE }
      (some (old.set (headerKey a.serdeType)
        (.one (.buffer (MAGIC_BYTE_V1 ++ parseUuid guid ++ (avroSchemaId md).indexBytes))))) =
        .ok ({ schemaType := AVRO_TYPE, guid := some guid }, 0) := by
      rw [DualSchemaIdDeserializer, hbuffer]
      simp only [hread]
      rfl
    exact ⟨0, getWriterSchema_guid hdual rfl rfl hget, by rw [List.drop_zero]⟩
  · -- The id is before the message.
    next hframing =>
    split at h
    · next message hmessage =>
      obtain rfl := Option.some.inj hmessage
      obtain ⟨frame, hserialized, hout⟩ := ok_of_bind h
      simp only [pure, Except.pure, Except.ok.injEq, Prod.mk.injEq, Option.some.injEq, Payload.buffer.injEq] at hout
      obtain ⟨rfl, rfl⟩ := hout
      obtain ⟨id, hid, hfits, rfl⟩ := prefixSerializer_ok hserialized
      obtain ⟨subject, hsubject, hget⟩ := hheld.id id hid
      have hread := fromBytes_id (wellIndexed_avro md) hfits message
      have hnone : headerBuffer a.serdeType headers = none := by
        rw [headerBuffer, hheaders hframing]
      rw [avroSchemaId_blank] at hread
      have hdual : DualSchemaIdDeserializer a.serdeType (MAGIC_BYTE_V0 ++ bytesBE 4 (unsigned 4 id) ++
          (avroSchemaId md).indexBytes ++ message) { schemaType := AVRO_TYPE } headers =
          .ok ({ schemaType := AVRO_TYPE, id := some id }, 5) := by
        rw [DualSchemaIdDeserializer, hnone]
        exact hread
      refine ⟨5, getWriterSchema_id hdual rfl hsubject hget, ?_⟩
      rw [indexBytes_avro, List.append_nil, List.drop_left' (by simp [MAGIC_BYTE_V0])]
    · obtain ⟨_, _, herror⟩ := ok_of_bind h
      cases herror

def Fetched (reg : SchemaRegistry σ) (w : σ) (info : SchemaInfo) : Prop :=
  (∃ subject id, reg.getBySubjectAndId w subject id none = .ok info) ∨ ∃ guid, reg.getByGuid w guid none = .ok info

theorem fetched_of_framed {w : σ} {topic : String} {info : SchemaInfo} {schemaId : SchemaId}
    {framing : SchemaIdFraming}
    (hheld : Held a reg w topic schemaId info) {framed : Option (Payload μ)} {headers : Option Headers}
    {out : Option (Payload μ) × Option Headers}
    (h : a.serializeSchemaId framing framed schemaId headers = .ok out) :
    Fetched reg w info := by
  have hid : ∀ id, schemaId.id = some id → Fetched reg w info := by
    intro id hid
    obtain ⟨subject, _, hget⟩ := hheld.id id hid
    exact .inl ⟨subject, id, hget⟩
  unfold serializeSchemaId at h
  split at h
  · obtain ⟨_, hserialized, _⟩ := ok_of_bind h
    obtain ⟨guid, _, hguid, _⟩ := headerSerializer_ok hserialized
    exact .inr ⟨guid, (hheld.guid guid hguid).2⟩
  · split at h
    · obtain ⟨_, hserialized, _⟩ := ok_of_bind h
      obtain ⟨id, hsome, _⟩ := prefixSerializer_ok hserialized
      exact hid id hsome
    · obtain ⟨_, _, herror⟩ := ok_of_bind h
      cases herror

theorem framed_of_encode {conf : SerializerConfig} {topic : String} {schemaId : SchemaId} {info : SchemaInfo}
    {msg : Option (Payload μ)} {headers : Option Headers} {out : Option (Payload μ) × Option Headers}
    (h : a.encode conf topic schemaId info msg headers = .ok out) :
    ∃ framed, a.serializeSchemaId conf.schemaIdSerializer framed schemaId headers = .ok out := by
  unfold encode at h
  obtain ⟨_, _, h⟩ := ok_of_bind h
  obtain ⟨_, _, h⟩ := ok_of_bind h
  obtain ⟨_, _, h⟩ := ok_of_bind h
  obtain ⟨_, _, h⟩ := ok_of_bind h
  obtain ⟨_, _, h⟩ := ok_of_bind h
  obtain ⟨_, _, h⟩ := ok_of_bind h
  obtain ⟨_, _, h⟩ := ok_of_bind h
  obtain ⟨framed, _, h⟩ := ok_of_bind h
  exact ⟨framed, h⟩

/-- What is left of `deserialize` once the frame is opened and the encoding rules have run. -/
def readEncoded (a : AvroSerde μ τ) (reg : SchemaRegistry σ) (w : σ) (conf : SerdeConfig) (subject topic : String)
    (info : SchemaInfo) (t : τ) (encoded : Payload μ) : Except Thrown (Option (Payload μ)) := do
  let readerMeta ← getReaderSchema reg w conf subject none
  let migrations ← readerMigrations reg w subject info readerMeta
  let msg ← a.decode subject topic migrations readerMeta t (some encoded)
  (a.rules.executeRulesWithPhase
    (ruleCall subject topic .domain .read ((readerMeta.map SchemaMetadata.toSchemaInfo).getD info)) msg).result

def NoReader (conf : SerdeConfig) : Prop := conf.useLatestVersion = false ∧ conf.useLatestWithMetadata.getD [] = []

section
variable (hlaw : a.avsc.Lawful) {w : σ} {conf : SerializerConfig} {topic : String} {md : SchemaMetadata}
  {info : SchemaInfo}
  {msg : Payload μ} {bytes : Bytes} {headers headers' : Option Headers}
  (hrules : Fetched reg w info → a.RecoverableSchema info) (hheaders : Unhidden a conf headers)
  (hheld : Held a reg w topic (avroSchemaId md) info)
  (h : a.encode conf topic (avroSchemaId md) info (some msg) headers = .ok (some (.buffer bytes), headers'))
include hlaw hrules hheaders hheld h

theorem deserialize_encoded (conf' : SerdeConfig) :
    ∃ t subject stored encoded framed, Steps a topic info msg t subject stored encoded framed ∧
      a.deserialize reg w conf' topic (some (.buffer bytes)) headers' =
        if bytes = [] then .ok none else a.readEncoded reg w conf' subject topic info t encoded := by
  obtain ⟨_, hframed⟩ := framed_of_encode h
  obtain ⟨t, subject, stored, encoded, framed, hs, hout⟩ := encode_steps hlaw
    (hrules (fetched_of_framed hheld hframed)) h
  obtain ⟨n, hwriter, rfl⟩ := getWriterSchema_framed hheaders hheld hout
  refine ⟨t, subject, stored, encoded, _, hs, ?_⟩
  rw [deserialize]
  split_ifs
  · rfl
  · rw [hwriter]
    show a.readMessage reg w conf' topic info (bytes.drop n) = _
    unfold readMessage readEncoded
    simp only [hs.named, hs.type, hs.encoding, bind, Except.bind]

theorem deserialize_plain {conf' : SerdeConfig} (hconf : NoReader conf') :
    a.deserialize reg w conf' topic (some (.buffer bytes)) headers' = .ok
      (if bytes = [] then none else some msg) := by
  obtain ⟨t, subject, stored, encoded, framed, hs, heq⟩ := deserialize_encoded hlaw hrules hheaders hheld h conf'
  have hreader : getReaderSchema reg w conf' subject none = .ok none := by
    simp [getReaderSchema, hconf.1, hconf.2]
  have hdecode : a.decode subject topic [] none t (some encoded) = .ok (some stored) := hs.fromMsgBytes
  have hread : a.readEncoded reg w conf' subject topic info t encoded = .ok (some msg) := by
    simp only [readEncoded, hreader, readerMigrations, hdecode, bind, Except.bind]
    exact hs.domain
  rw [heq, hread]
  split_ifs <;> rfl

end

end AvroSerde

end ConfluentKafka
