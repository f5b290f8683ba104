import ConfluentKafka.AvroFrames
import ConfluentKafka.Lts
import ConfluentKafka.MockReads

/-!
# What was written with Avro stays readable

Serializers that register, look up or are given their schemas, and a registry that goes on changing. What a
message was written with is kept in the registry as long as the registry is durable, and the mock of the
repository is, while nothing is deleted permanently.
-/

namespace ConfluentKafka

namespace AvroSerde

variable {μ τ σ : Type} {a : AvroSerde μ τ} {reg : SchemaRegistry σ}

/-! ## Runs -/

structure Written (μ : Type) where
  topic : String
  msg : Option (Payload μ)
  payload : Option (Payload μ)
  headers : Option Headers

structure TopicState (σ μ : Type) where
  registry : σ
  written : List (Written μ)

/-- A message is serialized, by any serializer of the topic, or the registry does something else. -/
inductive TopicLabel (ο μ : Type) where
  | serialize (conf : SerializerConfig) (topic : String) (msg : Option (Payload μ)) (headers : Option Headers)
  | registry (op : ο)

def topics {ο : Type} (a : AvroSerde μ τ) (reg : SchemaRegistry σ) (other : ο → σ → σ) (w : σ) :
    Lts (TopicState σ μ) (TopicLabel ο μ) where
  init := ⟨w, []⟩
  step := fun s l =>
    match l with
    | .serialize conf topic msg headers =>
      let (out, w) := a.serialize reg s.registry conf topic msg headers
      match out with
      | .ok (payload, headers) => some ⟨w, s.written ++ [⟨topic, msg, payload, headers⟩]⟩
      | .error _ => some ⟨w, s.written⟩
    | .registry op => some ⟨other op s.registry, s.written⟩

/-- A reader names the subject as the writer does, or leaves it empty. -/
def NamesSubjects (a : AvroSerde μ τ) : Prop :=
  ∀ topic info subject, a.subjectName topic info = .ok subject →
    a.subjectName topic none = .ok subject ∨ a.subjectName topic none = .ok ""

/-- The registry answers the id and the guid of the metadata with the schema. -/
structure Holds (reg : SchemaRegistry σ) (w : σ) (subject : String) (md : SchemaMetadata) (info : SchemaInfo) :
    Prop where
  id : ∀ id, md.id = some id →
    reg.getBySubjectAndId w subject id none = .ok info ∧ reg.getBySubjectAndId w "" id none = .ok info
  guid : ∀ guid, md.guid = some guid → Canonical guid ∧ reg.getByGuid w guid none = .ok info

/-- A registry that keeps what it answered: in the states `I`, for registrations in the states `R`, and under
the operations that `O` allows. The latest versions count only where serializers use them. -/
structure Durable {ο : Type} (reg : SchemaRegistry σ) (other : ο → σ → σ) (I R : σ → Prop) (O : σ → ο → Prop)
    (byLatest : Prop) : Prop where
  registered : ∀ w w' subject text normalize md, I w → R w →
    reg.registerFullResponse w subject (some (derivedSchema text)) normalize = (.ok md, w') →
      Holds reg w' subject md (derivedSchema text)
  lookedUp : ∀ w subject text normalize md, I w →
    reg.getIdFullResponse w subject (some (derivedSchema text)) normalize = .ok md →
      Holds reg w subject md (derivedSchema text)
  fetched : ∀ w subject id info normalize md, I w → reg.getBySubjectAndId w subject id none = .ok info →
    reg.getIdFullResponse w subject (some info) normalize = .ok md → Holds reg w subject md info
  latest : byLatest → ∀ w subject md, I w → reg.getLatestSchemaMetadata w subject none = .ok md →
    Holds reg w subject md md.toSchemaInfo
  latestWithMetadata : byLatest → ∀ w subject metadata deleted md, I w →
    reg.getLatestWithMetadata w subject metadata deleted none = .ok md → Holds reg w subject md md.toSchemaInfo
  register : ∀ w subject info normalize, I w → R w →
    (∀ schema, info = some schema → ∃ text, schema = derivedSchema text) →
    I (reg.registerFullResponse w subject info normalize).2 ∧
      ∀ subject' md info', Holds reg w subject' md info' →
        Holds reg (reg.registerFullResponse w subject info normalize).2 subject' md info'
  other : ∀ w op, I w → O w op → I (other op w) ∧
    ∀ subject md info, Holds reg w subject md info → Holds reg (other op w) subject md info

def UsesLatest (conf : SerializerConfig) : Prop :=
  conf.useLatestVersion = true ∨ conf.useLatestWithMetadata.getD [] ≠ []

/-- What a step may do: `R` holds where a serializer registers, and `O` of any other operation. -/
def Allowed {ο : Type} (a : AvroSerde μ τ) (R : σ → Prop) (O : σ → ο → Prop) (byLatest : Prop)
    (s : TopicState σ μ) :
    TopicLabel ο μ → Prop
  | .serialize conf _ _ headers =>
    Unhidden a conf headers ∧ (UsesLatest conf → byLatest) ∧ (conf.autoRegisterSchemas = true → R s.registry)
  | .registry op => O s.registry op

theorem Holds.held (hnames : NamesSubjects a) {w : σ} {topic subject : String} {schema? : Option SchemaInfo}
    {md : SchemaMetadata} {info : SchemaInfo} (hsubject : a.subjectName topic schema? = .ok subject)
    (h : Holds reg w subject md info) : Held a reg w topic (avroSchemaId md) info where
  id := by
    intro id hid
    rcases hnames topic schema? subject hsubject with hname | hname
    · exact ⟨subject, hname, (h.id id hid).1⟩
    · exact ⟨"", hname, (h.id id hid).2⟩
  guid := h.guid

theorem schemaOf_derived {conf : SerializerConfig} {msg : Payload μ} {schema? : Option SchemaInfo}
    (h : a.schemaOf conf msg = .ok schema?) : ∀ info, schema? = some info → ∃ text, info = derivedSchema text := by
  unfold schemaOf at h
  split_ifs at h
  · obtain ⟨text, _, rfl⟩ := ok_of_map h
    exact fun info hinfo => ⟨text, (Option.some.inj hinfo).symm⟩
  · obtain rfl := Except.ok.inj h
    exact fun info hinfo => nomatch hinfo

theorem findSchema_holds {ο : Type} {other : ο → σ → σ} {I R : σ → Prop} {O : σ → ο → Prop} {byLatest : Prop}
    (hd : Durable reg other I R O byLatest) {w : σ} (hI : I w) {conf : SerializerConfig}
    (hl : UsesLatest conf → byLatest)
    {subject : String} {schema? : Option SchemaInfo} (hschema : ∀ info, schema? = some info → ∃ text,
      info = derivedSchema text)
    {md : SchemaMetadata} {info : SchemaInfo}
    (h : findSchema reg w conf subject schema? none = .ok (md, some info)) : Holds reg w subject md info := by
  unfold findSchema at h
  split at h
  · obtain ⟨info', hget, h⟩ := ok_of_bind h
    obtain ⟨md', hid, h⟩ := ok_of_bind h
    simp only [pure, Except.pure, Except.ok.injEq, Prod.mk.injEq, Option.some.injEq] at h
    obtain ⟨rfl, rfl⟩ := h
    exact hd.fetched _ _ _ _ _ _ hI hget hid
  · next entry entries _ hentries =>
    obtain ⟨md', hlatest, h⟩ := ok_of_bind h
    simp only [pure, Except.pure, Except.ok.injEq, Prod.mk.injEq, Option.some.injEq] at h
    obtain ⟨rfl, rfl⟩ := h
    have huses : UsesLatest conf := .inr (by rw [hentries]; exact List.cons_ne_nil _ _)
    exact hd.latestWithMetadata (hl huses) _ _ _ _ _ hI hlatest
  · split_ifs at h with huse
    · obtain ⟨md', hlatest, h⟩ := ok_of_bind h
      simp only [pure, Except.pure, Except.ok.injEq, Prod.mk.injEq, Option.some.injEq] at h
      obtain ⟨rfl, rfl⟩ := h
      exact hd.latest (hl (.inl huse)) _ _ _ hI hlatest
    · obtain ⟨md', hid, h⟩ := ok_of_bind h
      simp only [pure, Except.pure, Except.ok.injEq, Prod.mk.injEq] at h
      obtain ⟨rfl, rfl⟩ := h
      obtain ⟨text, rfl⟩ := hschema info rfl
      exact hd.lookedUp _ _ _ _ _ hI hid

/-- The message was written with a schema that the registry holds. -/
def Recorded (a : AvroSerde μ τ) (reg : SchemaRegistry σ) (w : σ) (r : Written μ) : Prop :=
  ∃ conf headers md info subject schema? m, r.msg = some m ∧ Unhidden a conf headers ∧
    a.subjectName r.topic schema? = .ok subject ∧ Holds reg w subject md info ∧
    a.encode conf r.topic (avroSchemaId md) info r.msg headers = .ok (r.payload, r.headers)

/-! ## The mock registry -/

/-- A `RestError`, as far as a serde tells errors apart. -/
def RestError.thrown {α : Type} (r : Except RestError α) : Except Thrown α := r.mapError fun e => .error e.message

def ofUndefined : Thrown := .error "Cannot read properties of undefined (reading 'schemaType')"

def mockRegistry (v4 : Nat → String) : SchemaRegistry MockClient where
  registerFullResponse := fun c subject info _ =>
    match info with
    | none => (.error ofUndefined, c)
    | some schema =>
      (RestError.thrown (c.registerFullResponse v4 subject schema).1, (c.registerFullResponse v4 subject schema).2)
  getIdFullResponse := fun c subject info _ =>
    match info with
    | none => .error ofUndefined
    | some schema => RestError.thrown (c.getIdFullResponse subject schema)
  getBySubjectAndId := fun c subject id _ => RestError.thrown (c.getBySubjectAndId subject id)
  getByGuid := fun c guid _ => RestError.thrown (c.getByGuid guid)
  getLatestSchemaMetadata := fun c subject _ => RestError.thrown (c.getLatestSchemaMetadata subject)
  getLatestWithMetadata := fun c subject metadata deleted _ => c.getLatestWithMetadata subject metadata deleted
  migrationClient := fun c =>
    { getVersion := fun subject info _ _ => RestError.thrown (c.getVersion subject info)
      getSchemaMetadata := fun subject version _ _ => RestError.thrown (c.getSchemaMetadata subject version) }

theorem RestError.ok_of_thrown {α : Type} {r : Except RestError α} {x : α} (h : RestError.thrown r = .ok x) :
    r = .ok x := by
  cases r with
  | error => cases h
  | ok y => exact congrArg Except.ok (Except.ok.inj h)

section
variable {v4 : Nat → String} {P : SchemaInfo → Prop} {c : MockClient} (hcanonical : ∀ n, Canonical (v4 n))
include hcanonical

theorem mock_holds (hc : MockClient.Linked v4 P c) {subject : String} {md : SchemaMetadata} {info : SchemaInfo}
    (h : c.Answers subject md info) : Holds (mockRegistry v4) c subject md info where
  id := by
    intro id hid
    obtain ⟨hsubject, hany⟩ := (hc.answered h).1 id hid
    exact ⟨congrArg RestError.thrown hsubject, congrArg RestError.thrown hany⟩
  guid := by
    intro guid hguid
    refine ⟨?_, congrArg RestError.thrown ((hc.answered h).2 guid hguid)⟩
    obtain ⟨_, guid', _, hguid', _, hinfo'⟩ := h
    obtain rfl := Option.some.inj (hguid.symm.trans hguid')
    obtain ⟨_, _, n, _, rfl⟩ := hc.guids _ _ hinfo'
    exact hcanonical n

omit hcanonical in
theorem mock_holds_extends {c' : MockClient} (hc : MockClient.Linked v4 P c) (hc' : MockClient.Linked v4 P c')
    (he : c.Extends c') {subject : String} {md : SchemaMetadata} {info : SchemaInfo}
    (h : Holds (mockRegistry v4) c subject md info) : Holds (mockRegistry v4) c' subject md info where
  id := by
    intro id hid
    have hkept : ∀ subject, RestError.thrown (c.getBySubjectAndId subject id) = .ok info →
        RestError.thrown (c'.getBySubjectAndId subject id) = .ok info := by
      intro subject hget
      obtain ⟨subject', hsame, hinfo⟩ := (hc.getBySubjectAndId_iff ..).mp (RestError.ok_of_thrown hget)
      exact congrArg RestError.thrown ((hc'.getBySubjectAndId_iff ..).mpr ⟨subject', hsame, he.1 _ _ hinfo⟩)
    exact ⟨hkept subject (h.id id hid).1, hkept "" (h.id id hid).2⟩
  guid := by
    intro guid hguid
    obtain ⟨hcanonical, hget⟩ := h.guid guid hguid
    have hinfo := (MockClient.getByGuid_iff ..).mp (RestError.ok_of_thrown hget)
    exact ⟨hcanonical, congrArg RestError.thrown ((MockClient.getByGuid_iff ..).mpr (he.2 _ _ hinfo))⟩

theorem mock_durable (hP : ∀ text, P (derivedSchema text)) :
    Durable (mockRegistry v4) (fun op c => c.step v4 op) (MockClient.Linked v4 P) (MockClient.Fresh v4)
      (fun c op => MockClient.Fresh v4 c ∧ MockClient.Keeps P op) False where
  registered := by
    intro c c' subject text normalize md hc hfresh h
    obtain ⟨hlinked, _, md', hmd', hanswers⟩ := MockClient.linked_register hfresh hc subject (hP text)
    obtain ⟨hmd, rfl⟩ := Prod.mk.inj h
    obtain rfl := Except.ok.inj (hmd'.symm.trans (RestError.ok_of_thrown hmd))
    exact mock_holds hcanonical hlinked hanswers
  lookedUp := by
    intro c subject text normalize md hc h
    exact mock_holds hcanonical hc (hc.answers_of_getId (hP text) (RestError.ok_of_thrown h))
  fetched := by
    intro c subject id info normalize md hc hget h
    obtain ⟨subject', _, hinfo⟩ := (hc.getBySubjectAndId_iff ..).mp (RestError.ok_of_thrown hget)
    exact mock_holds hcanonical hc (hc.answers_of_getId (hc.ids _ _ hinfo).2.1 (RestError.ok_of_thrown h))
  latest := fun h => h.elim
  latestWithMetadata := fun h => h.elim
  register := by
    intro c subject info normalize hc hfresh hinfo
    cases info with
    | none => exact ⟨hc, fun _ _ _ h => h⟩
    | some schema =>
      obtain ⟨text, rfl⟩ := hinfo schema rfl
      obtain ⟨hlinked, hextends, _⟩ := MockClient.linked_register hfresh hc subject (hP text)
      exact ⟨hlinked, fun _ _ _ h => mock_holds_extends hc hlinked hextends h⟩
  other := by
    intro c op hc hop
    obtain ⟨hlinked, hextends⟩ := MockClient.linked_step hc hop.1 hop.2
    exact ⟨hlinked, fun _ _ _ h => mock_holds_extends hc hlinked hextends h⟩

end

section
variable {ο : Type} {other : ο → σ → σ} {I R : σ → Prop} {O : σ → ο → Prop} {byLatest : Prop}
  (hd : Durable reg other I R O byLatest)
include hd

theorem getSchemaId_holds {w : σ} (hI : I w) {conf : SerializerConfig} (hl : UsesLatest conf → byLatest)
    (hR : conf.autoRegisterSchemas = true → R w) (topic : String) {schema? : Option SchemaInfo}
    (hschema : ∀ info, schema? = some info → ∃ text, info = derivedSchema text) :
    (I (a.getSchemaId reg w conf AVRO_TYPE topic schema? none).2 ∧
      ∀ subject md info, Holds reg w subject md info →
        Holds reg (a.getSchemaId reg w conf AVRO_TYPE topic schema? none).2 subject md info) ∧
    ∀ schemaId info, (a.getSchemaId reg w conf AVRO_TYPE topic schema? none).1 = .ok (schemaId, some info) →
      ∃ subject md, a.subjectName topic schema? = .ok subject ∧ schemaId = avroSchemaId md ∧
        Holds reg (a.getSchemaId reg w conf AVRO_TYPE topic schema? none).2 subject md info := by
  unfold getSchemaId
  cases hsubject : a.subjectName topic schema? with
  | error error => exact ⟨⟨hI, fun _ _ _ h => h⟩, fun _ _ h => nomatch h⟩
  | ok subject =>
    dsimp only
    split_ifs with hauto
    · have hreg := hd.register w subject schema? conf.normalizeSchemas hI (hR hauto) hschema
      have hholds := hd.registered w (reg.registerFullResponse w subject schema? conf.normalizeSchemas).2 subject
      refine ⟨hreg, fun schemaId info h => ?_⟩
      obtain ⟨md, hmd, heq⟩ := ok_of_map h
      obtain ⟨rfl, rfl⟩ := Prod.mk.inj heq
      obtain ⟨text, rfl⟩ := hschema info rfl
      exact ⟨subject, md, rfl, rfl, hholds text conf.normalizeSchemas md hI (hR hauto) (Prod.ext hmd rfl)⟩
    · refine ⟨⟨hI, fun _ _ _ h => h⟩, fun schemaId info h => ?_⟩
      obtain ⟨⟨md, info'⟩, hfind, heq⟩ := ok_of_map h
      obtain ⟨rfl, rfl⟩ := Prod.mk.inj heq
      exact ⟨subject, md, rfl, rfl, findSchema_holds hd hI hl hschema hfind⟩

theorem serialize_holds {w : σ} (hI : I w) {conf : SerializerConfig} (hl : UsesLatest conf → byLatest)
    (hR : conf.autoRegisterSchemas = true → R w) (topic : String) (msg : Option (Payload μ))
    (headers : Option Headers) :
    (I (a.serialize reg w conf topic msg headers).2 ∧
      ∀ subject md info, Holds reg w subject md info →
        Holds reg (a.serialize reg w conf topic msg headers).2 subject md info) ∧
    ∀ payload headers', (a.serialize reg w conf topic msg headers).1 = .ok (payload, headers') →
      Unhidden a conf headers →
        Recorded a reg (a.serialize reg w conf topic msg headers).2 ⟨topic, msg, payload, headers'⟩ := by
  have hidle : (I w ∧ ∀ subject md info, Holds reg w subject md info → Holds reg w subject md info) :=
    ⟨hI, fun _ _ _ h => h⟩
  unfold serialize
  cases msg with
  | none => exact ⟨hidle, fun _ _ h => nomatch h⟩
  | some m =>
    dsimp only
    cases hschema : a.schemaOf conf m with
    | error error => exact ⟨hidle, fun _ _ h => nomatch h⟩
    | ok schema? =>
      have hholds := getSchemaId_holds (a := a) hd hI hl hR topic (schemaOf_derived hschema)
      dsimp only
      cases hget : a.getSchemaId reg w conf AVRO_TYPE topic schema? none with
      | mk result w' =>
        rw [hget] at hholds
        obtain ⟨hkept, hfound⟩ := hholds
        match result with
        | .error error => exact ⟨hkept, fun _ _ h => nomatch h⟩
        | .ok (schemaId, none) => exact ⟨hkept, fun _ _ h => nomatch h⟩
        | .ok (schemaId, some info) =>
          refine ⟨hkept, fun payload headers' h hheaders => ?_⟩
          obtain ⟨subject, md, hsubject, rfl, hold⟩ := hfound schemaId info rfl
          exact ⟨conf, headers, md, info, subject, schema?, m, rfl, hheaders, hsubject, hold, h⟩

theorem recorded_step {s s' : TopicState σ μ} {l : TopicLabel ο μ} (hI : I s.registry)
    (h : ∀ r ∈ s.written, Recorded a reg s.registry r) (hC : Allowed a R O byLatest s l)
    {w₀ : σ} (hs : (topics a reg other w₀).step s l = some s') :
    I s'.registry ∧ ∀ r ∈ s'.written, Recorded a reg s'.registry r := by
  have hmono : ∀ w', (∀ subject md info, Holds reg s.registry subject md info → Holds reg w' subject md info) →
      ∀ r ∈ s.written, Recorded a reg w' r := by
    intro w' hkept r hr
    obtain ⟨conf, headers, md, info, subject, schema?, m, hm, hheaders, hsubject, hold, hencode⟩ := h r hr
    exact ⟨conf, headers, md, info, subject, schema?, m, hm, hheaders, hsubject, hkept _ _ _ hold, hencode⟩
  cases l with
  | serialize conf topic msg headers =>
    obtain ⟨⟨hI', hkept⟩, hrecorded⟩ := serialize_holds (a := a) hd hI hC.2.1 hC.2.2 topic msg headers
    simp only [topics] at hs
    split at hs
    · next payload headers' hout =>
      obtain rfl := Option.some.inj hs
      refine ⟨hI', fun r hr => ?_⟩
      rcases List.mem_append.mp hr with hr | hr
      · exact hmono _ hkept r hr
      · obtain rfl := List.mem_singleton.mp hr
        exact hrecorded payload headers' hout hC.1
    · obtain rfl := Option.some.inj hs
      exact ⟨hI', hmono _ hkept⟩
  | registry op =>
    obtain ⟨hI', hkept⟩ := hd.other s.registry op hI hC
    obtain rfl := Option.some.inj hs
    exact ⟨hI', hmono _ hkept⟩

end

/-! ## Two serializers -/

def shifted : AvroSerde Int Unit where
  rules :=
    { isKey := false
      isFalse := fun _ => false
      getExecutor := fun _ => some fun ctx msg => .ok (msg.map fun m =>
        match m with
        | .buffer bytes => .buffer bytes
        | .other n => .other (if ctx.ruleMode = .write then n + 1 else n - 1))
      getAction := fun _ => none
      getOverride := fun _ => none }
  avsc :=
    { toType := fun _ => .ok ()
      messageToSchema := fun _ => .ok "\"int\""
      typeName := fun _ => "int"
      isValid := fun _ msg =>
        match msg with
        | some (.other n) => if 0 ≤ n ∧ n < 256 then none else some ⟨[], "int", "number"⟩
        | _ => some ⟨[], "int", "object"⟩
      toBuffer := fun _ msg =>
        match msg with
        | some (.other n) => .ok [UInt8.ofNat n.toNat]
        | _ => .error (.error "invalid")
      fromBuffer := fun _ bytes =>
        match bytes with
        | some (.buffer [b]) => .ok (some (.other b.toNat))
        | _ => .error (.error "truncated buffer")
      equals := fun _ _ => true
      resolve := fun _ _ _ => .error (.error "cannot read") }
  subjectName := fun topic _ => .ok (topic ++ "-value")
  validateAvroMessage := fun _ _ _ => .ok []

def shiftRule : Rule := { name := "shift", kind := .transform, mode := some .writeread, type := "SHIFT" }

def shiftSchema : SchemaInfo :=
  { schemaType := some "AVRO", schema := "\"int\"", ruleSet := some { domainRules := some [shiftRule] } }

def ShiftKind (info : SchemaInfo) : Prop := info = shiftSchema ∨ ∃ text, info = derivedSchema text

def guidOf (n : Nat) : String :=
  String.ofList ("89791762".toList ++ '-' :: ("2336".toList ++ '-' :: ("186f".toList ++ '-' :: ("9674".toList ++
    '-' :: ("299b90a802e".toList ++ [Nat.digitChar (n % 16)])))))

theorem guidOf_canonical (n : Nat) : Canonical (guidOf n) := by
  have hdigit : Nat.digitChar (n % 16) ∈ "0123456789abcdef".toList := by
    have := (by decide +kernel : ∀ i : Fin 16, Nat.digitChar i ∈ "0123456789abcdef".toList)
    exact this ⟨n % 16, Nat.mod_lt _ (by decide)⟩
  refine ⟨"89791762".toList, "2336".toList, "186f".toList, "9674".toList, "299b90a802e".toList ++
    [Nat.digitChar (n % 16)],
    ⟨?_, rfl⟩, ⟨?_, rfl⟩, ⟨?_, rfl⟩, ⟨?_, rfl⟩, ⟨?_, rfl⟩, ?_⟩
  · simp [IsHex]
  · simp [IsHex]
  · simp [IsHex]
  · simp [IsHex]
  · intro c hc
    rcases List.mem_append.mp hc with hc | hc
    · have hhex : ∀ c ∈ "299b90a802e".toList, c ∈ "0123456789abcdef".toList := by simp
      exact hhex c hc
    · rw [List.mem_singleton.mp hc]
      exact hdigit
  · unfold guidOf
    exact String.toList_ofList

theorem shifted_lawful : shifted.avsc.Lawful := by
  intro t x bytes hvalid _ hbytes
  match x with
  | some (.other n) =>
    have hrange : 0 ≤ n ∧ n < 256 := by
      by_contra hne
      simp [shifted, hne] at hvalid
    obtain rfl := Except.ok.inj hbytes
    show Except.ok (some (Payload.other ((UInt8.ofNat n.toNat).toNat : Int))) = _
    rw [UInt8.toNat_ofNat', Nat.mod_eq_of_lt (by omega), Int.toNat_of_nonneg hrange.1]
  | some (.buffer _) => cases hvalid
  | none => cases hvalid

theorem shifted_recoverable {info : SchemaInfo} (h : ShiftKind info) : shifted.RecoverableSchema info := by
  intro subject topic
  rcases h with rfl | ⟨text, rfl⟩
  · refine ⟨fun target rules ht hrs i hi => ?_, fun target rules ht hrs => ?_⟩
    · obtain rfl := Option.some.inj ht
      obtain rfl := Option.some.inj hrs
      obtain rfl : i = 0 := by simpa using hi
      refine ⟨fun _ => ⟨rfl, fun transform hx m => ?_⟩, fun _ => ⟨(fun h => nomatch h), fun h => nomatch h⟩,
        fun _ transform hx m m' hm => ?_, fun hne => absurd rfl hne, fun _ m => ?_⟩
      · obtain rfl := Option.some.inj hx
        exact ⟨(fun h => nomatch h), fun _ h => nomatch Except.ok.inj h⟩
      · obtain rfl := Option.some.inj hx
        obtain rfl := Option.some.inj (Except.ok.inj hm)
        cases m with
        | buffer => rfl
        | other n =>
          show Except.ok (some (Payload.other (n + 1 - 1))) = _
          rw [Int.add_sub_cancel]
      · rfl
    · obtain rfl := Option.some.inj ht
      cases hrs
  · refine ⟨fun target rules ht hrs => ?_, fun target rules ht hrs => ?_⟩
    · obtain rfl := Option.some.inj ht
      cases hrs
    · obtain rfl := Option.some.inj ht
      cases hrs

theorem shiftKind_sorted {info : SchemaInfo} (h : ShiftKind info) : info.sorted = info := by
  rcases h with rfl | ⟨text, rfl⟩ <;> rfl

/-- A schema with a rule is registered; one message is written with its id, and one with a schema that is
registered on the way, in a header. Then the subject is deleted softly. -/
def shiftLabels : List (TopicLabel MockOp Int) :=
  [.registry (.register "orders-value" shiftSchema),
    .serialize { useSchemaId := some 1 } "orders" (some (.other 5)) none,
    .serialize { autoRegisterSchemas := true, schemaIdSerializer := .header } "orders" (some (.other 7))
      (some .empty),
    .registry (.deleteSubject "orders-value" false)]

def shiftTopics : Lts (TopicState MockClient Int) (TopicLabel MockOp Int) :=
  topics shifted (mockRegistry guidOf) (fun op c => c.step guidOf op) .new

abbrev ShiftAllowed : TopicState MockClient Int → TopicLabel MockOp Int → Prop :=
  Allowed shifted (MockClient.Fresh guidOf) (fun c op => MockClient.Fresh guidOf c ∧
    MockClient.Keeps ShiftKind op) False

def shiftCheck (s : TopicState MockClient Int) : TopicLabel MockOp Int → Bool
  | .serialize conf _ _ headers =>
    (conf.schemaIdSerializer = .header || headers.isNone) && !conf.useLatestVersion &&
      conf.useLatestWithMetadata.isNone &&
        (s.registry.guidToSchemaCache.get? (guidOf (s.registry.counter + 1))).isNone
  | .registry (.register _ schema) =>
    schema = shiftSchema && (s.registry.guidToSchemaCache.get? (guidOf (s.registry.counter + 1))).isNone
  | .registry (.deleteSubject _ permanent) =>
    !permanent && (s.registry.guidToSchemaCache.get? (guidOf (s.registry.counter + 1))).isNone
  | .registry (.deleteSubjectVersion ..) => false

theorem shiftAllowed_of_check (s : TopicState MockClient Int) (l : TopicLabel MockOp Int)
    (h : shiftCheck s l = true) : ShiftAllowed s l := by
  match l with
  | .serialize conf topic msg headers =>
    simp only [shiftCheck, Bool.and_eq_true, Bool.or_eq_true, decide_eq_true_eq, Bool.not_eq_true',
      Option.isNone_iff_eq_none] at h
    obtain ⟨⟨⟨hheaders, hlatest⟩, hmetadata⟩, hfresh⟩ := h
    refine ⟨fun hprefixed => ?_, ?_, fun _ => hfresh⟩
    · rcases hheaders with hheader | rfl
      · rw [hprefixed] at hheader
        cases hheader
      · rfl
    · rintro (huse | huse)
      · rw [hlatest] at huse
        cases huse
      · exact huse (by rw [hmetadata]; rfl)
  | .registry (.register _ schema) =>
    simp only [shiftCheck, Bool.and_eq_true, decide_eq_true_eq, Option.isNone_iff_eq_none] at h
    exact ⟨h.2, .inl h.1⟩
  | .registry (.deleteSubject _ permanent) =>
    simp only [shiftCheck, Bool.and_eq_true, Bool.not_eq_true', Option.isNone_iff_eq_none] at h
    exact ⟨h.2, h.1⟩

end AvroSerde

end ConfluentKafka
