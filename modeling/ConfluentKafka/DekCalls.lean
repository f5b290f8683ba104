import ConfluentKafka.DekInv

/-!
# What the calls of the executor do

The outcomes of each call, with what the registry and the client have then, and that every call
keeps the invariant.
-/

namespace ConfluentKafka

open Transform

/-! ## The calls -/

section Calls

variable {cr : Crypto} {objects : Nat → Transform} {w : DekWorld} {c : Nat}

theorem getKek_cases (h : DekInv cr objects w) (i : DekInput) (id : KekId) :
    DekRely cr objects w (w.getKek i c id).2 ∧
      ((∃ kek, (w.getKek i c id).1 = .ok kek ∧ w.registry.kek? id.name id.context = some kek) ∨
       ((w.getKek i c id).1 = .notFound ∧ w.registry.kek? id.name id.context = none) ∨
       ∃ s, (w.getKek i c id).1 = .failed s) := by
  unfold DekWorld.getKek
  split
  · next kek hk => exact ⟨h.rely, .inl ⟨kek, rfl, h.keks c id kek hk⟩⟩
  · split
    · exact ⟨h.rely, .inr (.inr ⟨_, rfl⟩)⟩
    · exact ⟨h.rely, .inr (.inr ⟨_, rfl⟩)⟩
    · split
      · next hn => exact ⟨h.rely, .inr (.inl ⟨rfl, hn⟩)⟩
      · next kek hk => exact ⟨h.cacheKek hk, .inl ⟨kek, rfl, hk⟩⟩

theorem createKek_cases (h : DekInv cr objects w) (name kmsType kmsKeyId : String) (shared : Bool)
    (context : Option String) :
    DekRely cr objects w (w.createKek name kmsType kmsKeyId shared context).2 ∧
      ((∃ kek, (w.createKek name kmsType kmsKeyId shared context).1 = .ok kek ∧
          (w.createKek name kmsType kmsKeyId shared context).2.registry.kek? name context = some kek) ∨
       (w.createKek name kmsType kmsKeyId shared context).1 = .conflict) := by
  unfold DekWorld.createKek
  split
  · exact ⟨h.rely, .inr rfl⟩
  · next hn => exact ⟨h.addKek _ _ _, .inl ⟨_, rfl, kek?_addKek hn⟩⟩

theorem registerKek_cases (h : DekInv cr objects w) (i : DekInput) (name kmsType kmsKeyId : String) (shared : Bool)
    (context : Option String) :
    DekRely cr objects w (w.registerKek i c name kmsType kmsKeyId shared context).2 ∧
      ∀ kek, (w.registerKek i c name kmsType kmsKeyId shared context).1 = .ok kek →
        (w.registerKek i c name kmsType kmsKeyId shared context).2.registry.kek? name context = some kek := by
  unfold DekWorld.registerKek
  dsimp only
  split
  · next kek hk =>
    refine ⟨h.rely, fun kek' he => ?_⟩
    obtain rfl : kek = kek' := by simpa using he
    exact h.keks c _ kek hk
  · have hcr := createKek_cases h name kmsType kmsKeyId shared context
    cases i.delivery with
    | refused s => exact ⟨h.rely, by simp [DekWorld.deliver]⟩
    | lost s => exact ⟨hcr.1, by simp [DekWorld.deliver]⟩
    | delivered =>
      simp only [DekWorld.deliver]
      obtain ⟨hrel, ⟨kek, hok, hk⟩ | hc⟩ := hcr
      · generalize w.createKek name kmsType kmsKeyId shared context = r at hrel hok hk
        obtain ⟨o, w'⟩ := r
        obtain rfl : o = .ok kek := hok
        refine ⟨hrel.trans (hrel.2.cacheKek hk), fun kek' he => ?_⟩
        obtain rfl : kek = kek' := by simpa using he
        exact hk
      · generalize w.createKek name kmsType kmsKeyId shared context = r at hrel hc
        obtain ⟨o, w'⟩ := r
        obtain rfl : o = .conflict := hc
        exact ⟨hrel, by simp⟩

theorem has_record (h : DekInv cr objects w) {d : Dek} (hd : w.Has c d) :
    ∃ r ∈ w.registry.deks, d = r.dek d.cell := by
  obtain ⟨cell, hc, rfl⟩ := hd
  obtain ⟨-, r, hr⟩ := h.cells c _ cell hc
  exact ⟨r, hr.mem, hr.dek⟩

theorem answers_dek (id : DekId) {r : DekRecord} (hr : r ∈ w.registry.versionsOf id.kekName id.subject id.algorithm)
    (hv : id.version ≠ -1 → (r.version : Int) = id.version) (k : Nat) : Answers id (r.dek k) := by
  obtain ⟨-, h₁, h₂, h₃⟩ := mem_versionsOf.mp hr
  exact ⟨h₁, h₂, h₃, hv⟩

/-- What the client has got for an id, and that it is the newest version when the registry was asked. -/
structure Got (cached : Bool) (c : Nat) (id : DekId) (d : Dek) (w : DekWorld) : Prop where
  has : w.Has c d
  answers : Answers id d
  newest : cached = false → id.version = -1 → w.registry.newest d.kekName d.subject d.algorithm = some d.version

theorem getDek_cases (h : DekInv cr objects w) (i : DekInput) (id : DekId) :
    DekRely cr objects w (w.getDek i c id).2 ∧
      ((∃ d, (w.getDek i c id).1 = .ok d ∧ Got ((w.clients c).dekCache.has id) c id d (w.getDek i c id).2) ∨
       ((w.getDek i c id).1 = .notFound ∧ w.registry.dek? id.kekName id.subject id.algorithm id.version = none) ∨
       ∃ s, (w.getDek i c id).1 = .failed s) := by
  unfold DekWorld.getDek JsMap.has
  split
  · next d hd =>
    obtain ⟨hhas, hans⟩ := h.deks c id d hd
    exact ⟨h.rely, .inl ⟨d, rfl, hhas, hans, by simp [hd]⟩⟩
  · split
    · exact ⟨h.rely, .inr (.inr ⟨_, rfl⟩)⟩
    · exact ⟨h.rely, .inr (.inr ⟨_, rfl⟩)⟩
    · split
      · next hn => exact ⟨h.rely, .inr (.inl ⟨rfl, hn⟩)⟩
      · next r hr =>
        obtain ⟨hmem, hv, hnew⟩ := dek?_some hr
        obtain ⟨hrel, hhas, hdek⟩ := h.receive (c := c) (mem_versionsOf.mp hmem).1 i
        have hans : Answers id (w.receive i c r).1 := by rw [hdek]; exact answers_dek id hmem hv _
        have hcache := hrel.2.cacheDek hhas hans
        refine ⟨hrel.trans hcache, .inl ⟨_, rfl, hcache.1.has hhas, hans, fun _ he => ?_⟩⟩
        have := hnew he
        rw [hans.kekName, hans.subject, hans.algorithm]
        exact this

structure MayRegister (cr : Crypto) (objects : Nat → Transform) (g : DekRegistry) (kekName subject : String)
    (algorithm : DekFormat) (version : Nat) (encryptedKeyMaterial : Option (List Char)) : Prop where
  pos : 1 ≤ version
  pred : 1 < version → ∃ r ∈ g.versionsOf kekName subject algorithm, r.version + 1 = version
  key : Inverts cr → ∀ e, encryptedKeyMaterial = some e → ∃ key, HasKey cr objects g kekName subject e key

theorem Grows.mayRegister {w' : DekWorld} (h : Grows w w') {kekName subject : String} {algorithm : DekFormat}
    {version : Nat} {e : Option (List Char)}
    (hm : MayRegister cr objects w.registry kekName subject algorithm version e) :
    MayRegister cr objects w'.registry kekName subject algorithm version e := by
  refine ⟨hm.pos, fun hv => ?_, fun hcr e' he => ?_⟩
  · obtain ⟨r, hr, hrv⟩ := hm.pred hv
    obtain ⟨hmem, hs⟩ := mem_versionsOf.mp hr
    exact ⟨r, mem_versionsOf.mpr ⟨h.deks r hmem, hs⟩, hrv⟩
  · obtain ⟨key, hk⟩ := hm.key hcr e' he
    exact ⟨key, h.hasKey hk⟩

section Create

variable {kekName subject : String} {algorithm : DekFormat} {version : Nat} {e : Option (List Char)}

theorem creatable_newRecord (i : DekInput) {kek : Kek}
    (hm : MayRegister cr objects w.registry kekName subject algorithm version e) (he : e ≠ some [])
    (hkek : w.registry.kek? kekName (contextFor subject) = some kek)
    (hv : w.registry.version? kekName subject algorithm version = none) :
    Creatable cr objects w.registry (DekWorld.newRecord cr i kek kekName subject algorithm version e) := by
  have hpred : 1 < version → ∃ r' ∈ w.registry.deks,
      (r'.kekName = kekName ∧ r'.subject = subject ∧ r'.algorithm = algorithm) ∧ r'.version + 1 = version := by
    intro h1
    obtain ⟨r, hr, hrv⟩ := hm.pred h1
    obtain ⟨hmem, hs⟩ := mem_versionsOf.mp hr
    exact ⟨r, hmem, hs, hrv⟩
  cases e with
  | some s =>
    refine ⟨hv, hm.pos, hpred, fun _ => by simpa [DekWorld.newRecord] using he, fun hcr => ?_⟩
    obtain ⟨key, hk⟩ := hm.key hcr s rfl
    exact ⟨key, hk, by simp [DekWorld.newRecord]⟩
  | none =>
    refine ⟨hv, hm.pos, hpred, fun hcr hn => hcr.kms_ne_nil _ _ _ (Base64.encode_eq_nil.mp hn), fun hcr => ?_⟩
    refine ⟨generateKey cr i algorithm, ⟨kek, hkek, ?_⟩, ?_⟩
    · simp only [DekWorld.newRecord, Base64.decode_encode]
      exact hcr.opens (.inl rfl) _ _
    · intro s hs
      exact (Option.some.inj hs).symm

theorem newRecord_fields (cr : Crypto) (i : DekInput) (kek : Kek) (kekName subject : String) (algorithm : DekFormat)
    (version : Nat) (e : Option (List Char)) :
    (DekWorld.newRecord cr i kek kekName subject algorithm version e).kekName = kekName ∧
      (DekWorld.newRecord cr i kek kekName subject algorithm version e).subject = subject ∧
      (DekWorld.newRecord cr i kek kekName subject algorithm version e).algorithm = algorithm ∧
      (DekWorld.newRecord cr i kek kekName subject algorithm version e).version = version := by
  cases e <;> exact ⟨rfl, rfl, rfl, rfl⟩

/-- The outcomes of a creation, at the registry: the new version is then the newest one. -/
inductive Created (kekName subject : String) (algorithm : DekFormat) (version : Nat) (w : DekWorld) :
    Outcome DekRecord → Prop where
  | ok {r : DekRecord} : r ∈ w.registry.versionsOf kekName subject algorithm → r.version = version →
      w.registry.newest kekName subject algorithm = some version →
        Created kekName subject algorithm version w (.ok r)
  | conflict {r : DekRecord} : r ∈ w.registry.versionsOf kekName subject algorithm → r.version = version →
      Created kekName subject algorithm version w .conflict
  | notFound : w.registry.kek? kekName (contextFor subject) = none →
    Created kekName subject algorithm version w .notFound
  | failed (s : Option Nat) : Created kekName subject algorithm version w (.failed s)

theorem postDek_cases (h : DekInv cr objects w) (i : DekInput)
    (hm : MayRegister cr objects w.registry kekName subject algorithm version e) (he : e ≠ some []) :
    DekRely cr objects w (w.postDek cr i kekName subject algorithm version e).2 ∧
      Created kekName subject algorithm version (w.postDek cr i kekName subject algorithm version e).2
        (w.postDek cr i kekName subject algorithm version e).1 := by
  unfold DekWorld.postDek
  split
  · next hn => exact ⟨h.rely, .notFound hn⟩
  · next kek hkek =>
    split
    · next r hr => exact ⟨h.rely, .conflict (version?_some hr).1 (version?_some hr).2⟩
    · next hv =>
      have hc := creatable_newRecord i hm he hkek hv
      obtain ⟨h₁, h₂, h₃, h₄⟩ := newRecord_fields cr i kek kekName subject algorithm version e
      have hnew := newest_addDek h hc
      rw [h₁, h₂, h₃, h₄] at hnew
      exact ⟨h.addDek hc, .ok (mem_versionsOf.mpr ⟨List.mem_append_right _ (by simp), h₁, h₂, h₃⟩) h₄ hnew⟩

theorem deliver_cases (h : DekInv cr objects w) (i : DekInput) (d : Delivery)
    (hm : MayRegister cr objects w.registry kekName subject algorithm version e) (he : e ≠ some []) :
    DekRely cr objects w (w.deliver d (DekWorld.postDek cr i kekName subject algorithm version e)).2 ∧
      Created kekName subject algorithm version
        (w.deliver d (DekWorld.postDek cr i kekName subject algorithm version e)).2
        (w.deliver d (DekWorld.postDek cr i kekName subject algorithm version e)).1 := by
  have hp := postDek_cases h i hm he
  cases d with
  | delivered => exact hp
  | refused s => exact ⟨h.rely, .failed s⟩
  | lost s => exact ⟨hp.1, .failed s⟩

theorem createDek_cases (h : DekInv cr objects w) (i : DekInput)
    (hm : MayRegister cr objects w.registry kekName subject algorithm version e) (he : e ≠ some []) :
    DekRely cr objects w (w.createDek cr i kekName subject algorithm version e).2 ∧
      Created kekName subject algorithm version (w.createDek cr i kekName subject algorithm version e).2
        (w.createDek cr i kekName subject algorithm version e).1 := by
  have h₁ := deliver_cases h i i.delivery hm he
  unfold DekWorld.createDek
  dsimp only
  split
  · have h₂ := deliver_cases h₁.1.2 i i.retry (h₁.1.1.mayRegister hm) he
    exact ⟨h₁.1.trans h₂.1, h₂.2⟩
  · exact h₁

inductive Registered (cached : Bool) (c : Nat) (kekName subject : String) (algorithm : DekFormat) (version : Nat)
    (w : DekWorld) : Outcome Dek → Prop where
  | ok {d : Dek} : w.Has c d → Answers { kekName, subject, version, algorithm, deleted := false } d →
      (cached = false → w.registry.newest kekName subject algorithm = some version) →
      Registered cached c kekName subject algorithm version w (.ok d)
  | conflict {r : DekRecord} : r ∈ w.registry.versionsOf kekName subject algorithm → r.version = version →
      Registered cached c kekName subject algorithm version w .conflict
  | notFound : w.registry.kek? kekName (contextFor subject) = none →
      Registered cached c kekName subject algorithm version w .notFound
  | failed (s : Option Nat) : Registered cached c kekName subject algorithm version w (.failed s)

theorem registerDek_cases (h : DekInv cr objects w) (i : DekInput)
    (hm : MayRegister cr objects w.registry kekName subject algorithm version e) :
    DekRely cr objects w (w.registerDek cr i c kekName subject algorithm version e).2 ∧
      Registered ((w.clients c).dekCache.has { kekName, subject, version, algorithm, deleted := false }) c
        kekName subject
        algorithm version (w.registerDek cr i c kekName subject algorithm version e).2
        (w.registerDek cr i c kekName subject algorithm version e).1 := by
  unfold DekWorld.registerDek JsMap.has
  dsimp only
  split
  · next d hd =>
    obtain ⟨hhas, hans⟩ := h.deks c _ d hd
    exact ⟨h.rely, .ok hhas hans (by simp [hd])⟩
  · have hfilter : MayRegister cr objects w.registry kekName subject algorithm version
      (e.filter fun s => s ≠ []) := by
      refine ⟨hm.pos, hm.pred, fun hcr s hs => hm.key hcr s ?_⟩
      exact (Option.filter_eq_some_iff.mp hs).1
    have hne : (e.filter fun s => s ≠ []) ≠ some [] := by
      intro hs
      simpa using (Option.filter_eq_some_iff.mp hs).2
    obtain ⟨hrel, hcreated⟩ := createDek_cases h i hfilter hne
    generalize w.createDek cr i kekName subject algorithm version (e.filter fun s => s ≠ []) = o at hrel hcreated
    obtain ⟨o, w₁⟩ := o
    cases hcreated with
    | conflict hr hv => exact ⟨hrel, .conflict hr hv⟩
    | notFound hn => exact ⟨hrel, .notFound hn⟩
    | failed s => exact ⟨hrel, .failed s⟩
    | ok hr hv hnew =>
      rename_i r
      obtain ⟨hrel₂, hhas, hdek⟩ := hrel.2.receive (c := c) (mem_versionsOf.mp hr).1 i
      have hans : Answers { kekName, subject, version, algorithm, deleted := false } (w₁.receive i c r).1 := by
        rw [hdek]
        exact answers_dek { kekName, subject, version, algorithm, deleted := false } hr
          (fun _ => by simp [hv]) _
      have h₃ := hrel₂.2.cacheDek hhas hans
      have h₄ := h₃.2.uncacheDek (c := c) { kekName, subject, version := -1, algorithm, deleted := false }
      have h₅ := h₄.2.uncacheDek (c := c) { kekName, subject, version := -1, algorithm, deleted := true }
      have hlast := h₃.trans (h₄.trans h₅)
      exact ⟨hrel.trans (hrel₂.trans hlast), .ok (hlast.1.has hhas) hans fun _ => hnew⟩

end Create

/-! ## Key material -/

def KeyOf (cr : Crypto) (objects : Nat → Transform) (w : DekWorld) (d : Dek) (key : Bytes) : Prop :=
  ∃ r ∈ w.registry.deks, d = r.dek d.cell ∧ HasKey cr objects w.registry r.kekName r.subject
    r.encryptedKeyMaterial key

theorem KeyOf.unique {d : Dek} {k₁ k₂ : Bytes} (h₁ : KeyOf cr objects w d k₁) (h₂ : KeyOf cr objects w d k₂) :
    k₁ = k₂ := by
  obtain ⟨r₁, -, hd₁, hk₁⟩ := h₁
  obtain ⟨r₂, -, hd₂, hk₂⟩ := h₂
  have : r₁.dek d.cell = r₂.dek d.cell := hd₁.symm.trans hd₂
  simp only [DekRecord.dek, Dek.mk.injEq, Option.some.injEq] at this
  obtain ⟨hn, hs, -, -, he, -⟩ := this
  rw [hn, hs, he] at hk₁
  exact hk₁.unique hk₂

theorem Grows.keyOf {w' : DekWorld} (h : Grows w w') {d : Dek} {key : Bytes} (hk : KeyOf cr objects w d key) :
    KeyOf cr objects w' d key := by
  obtain ⟨r, hr, hd, hk⟩ := hk
  exact ⟨r, h.deks r hr, hd, h.hasKey hk⟩

theorem exists_keyOf (hcr : Inverts cr) (h : DekInv cr objects w) {d : Dek} (hd : w.Has c d) :
    ∃ key, KeyOf cr objects w d key := by
  obtain ⟨r, hr, hrd⟩ := has_record h hd
  obtain ⟨key, hk, -⟩ := (h.records r hr).key hcr
  exact ⟨key, r, hr, hrd, hk⟩

theorem cell_cases (h : DekInv cr objects w) {d : Dek} (hd : w.Has c d) :
    (w.clients c).cells[d.cell]? = some (w.cell c d) ∧ (w.cell c d).dek = d ∧
      ∀ b, (w.cell c d).encryptedKeyMaterialBytes = some b → b = Base64.decode
        (d.encryptedKeyMaterial.getD []) := by
  obtain ⟨cell, hc, hcd⟩ := hd
  have hcell : w.cell c d = cell := by rw [DekWorld.cell, hc, Option.getD_some]
  obtain ⟨-, r, hr⟩ := h.cells c _ cell hc
  rw [hcell]
  refine ⟨hc, hcd, ?_⟩
  rw [← hcd, hr.dek]
  exact hr.encrypted

theorem cell_key (hcr : Inverts cr) (h : DekInv cr objects w) {d : Dek} (hd : w.Has c d) {key : Bytes}
    (hk : KeyOf cr objects w d key) : (∀ s, (w.cell c d).keyMaterial = some s → s = Base64.encode key) ∧
      ∀ b, (w.cell c d).keyMaterialBytes = some b → b = key := by
  obtain ⟨cell, hc, hcd⟩ := hd
  have hcell : w.cell c d = cell := by rw [DekWorld.cell, hc, Option.getD_some]
  obtain ⟨-, r, hr⟩ := h.cells c _ cell hc
  have hkr : HasKey cr objects w.registry r.kekName r.subject r.encryptedKeyMaterial key := by
    obtain ⟨key', hk', -⟩ := (h.records r hr.mem).key hcr
    obtain rfl := hk.unique ⟨r, hr.mem, by rw [← hcd]; exact hr.dek, hk'⟩
    exact hk'
  rw [hcell]
  exact ⟨fun s => hr.text hcr key s hkr, fun b => hr.bytes hcr key b hkr⟩

theorem setCell_rely (h : DekInv cr objects w) {d : Dek} (hd : w.Has c d) {cell : DekCell} (hcd : cell.dek = d)
    (henc : ∀ b, cell.encryptedKeyMaterialBytes = some b → b = Base64.decode (d.encryptedKeyMaterial.getD []))
    (htext : Inverts cr → ∀ key s, KeyOf cr objects w d key → cell.keyMaterial = some s → s = Base64.encode key)
    (hbytes : Inverts cr → ∀ key b, KeyOf cr objects w d key → cell.keyMaterialBytes = some b → b = key)
    (hkeep : (w.cell c d).keyMaterial.isSome → cell.keyMaterial.isSome) : DekRely cr objects w
    (w.setCell c d cell) := by
  apply h.setCell hcd
  · intro cell' hc'
    obtain ⟨cell'', hc'', hd''⟩ := hd
    obtain rfl : cell' = cell'' := Option.some.inj (hc'.symm.trans hc'')
    exact hd''
  · exact hkeep
  · intro _
    obtain ⟨r, hr, hrd⟩ := has_record h hd
    refine ⟨r, hr, by rw [hcd]; exact hrd, ?_, fun hcr key s hk => htext hcr key s ⟨r, hr, hrd, hk⟩,
      fun hcr key b hk => hbytes hcr key b ⟨r, hr, hrd, hk⟩⟩
    rw [hrd] at henc
    exact henc

theorem decoded_of_ne_nil {s : List Char} (h : s ≠ []) (b : Option Bytes) :
    DekWorld.decoded (some s) b = some (b.getD (Base64.decode s)) := by
  cases s with
  | nil => exact absurd rfl h
  | cons a s => rfl

theorem getDekEncryptedKeyMaterialBytes_eq (hcr : Inverts cr) (h : DekInv cr objects w) {d : Dek} (hd : w.Has c d) :
    (w.getDekEncryptedKeyMaterialBytes c d).1 = some (Base64.decode (d.encryptedKeyMaterial.getD [])) := by
  obtain ⟨-, -, henc⟩ := cell_cases h hd
  obtain ⟨r, hr, hrd⟩ := has_record h hd
  have hne := (h.records r hr).ne_nil hcr
  have he : d.encryptedKeyMaterial = some r.encryptedKeyMaterial := by rw [hrd]; rfl
  simp only [DekWorld.getDekEncryptedKeyMaterialBytes]
  rw [he] at henc ⊢
  rw [decoded_of_ne_nil hne, Option.getD_some]
  cases hb : (w.cell c d).encryptedKeyMaterialBytes with
  | none => rfl
  | some b => rw [henc b hb, Option.getD_some, Option.getD_some]

/-- What is read is what was decoded before, or the text. -/
theorem decoded_eq_some {text : Option (List Char)} {bytes : Option Bytes} {b : Bytes}
    (h : DekWorld.decoded text bytes = some b) : text.isSome ∧
    (bytes = some b ∨ b = Base64.decode (text.getD [])) := by
  obtain ⟨s, rfl⟩ : ∃ s, text = some s := by
    cases text with
    | none => cases h
    | some s => exact ⟨s, rfl⟩
  have hne : s ≠ [] := by
    rintro rfl
    cases h
  rw [decoded_of_ne_nil hne, Option.some.injEq] at h
  refine ⟨rfl, ?_⟩
  cases bytes with
  | none => exact .inr h.symm
  | some b' => exact .inl (congrArg some h)

theorem getDekEncryptedKeyMaterialBytes_rely (h : DekInv cr objects w) {d : Dek} (hd : w.Has c d) :
    DekRely cr objects w (w.getDekEncryptedKeyMaterialBytes c d).2 := by
  obtain ⟨-, hcd, henc⟩ := cell_cases h hd
  refine setCell_rely h hd hcd ?_ ?_ ?_ (fun h => h)
  · intro b hb
    obtain hb | hb := Option.or_eq_some_iff.mp hb
    · obtain ⟨-, hb | hb⟩ := decoded_eq_some hb
      · exact henc b hb
      · exact hb
    · exact henc b hb.2
  · intro hcr key s hk hs
    exact (cell_key hcr h hd hk).1 s hs
  · intro hcr key b hk hb
    exact (cell_key hcr h hd hk).2 b hb

theorem decoded_keyMaterial (hcr : Inverts cr) {d : Dek} (h : DekInv cr objects w) (hd : w.Has c d) {key : Bytes}
    (hk : KeyOf cr objects w d key) : (w.getDekKeyMaterialBytes c d).1 =
      if (w.cell c d).keyMaterial.isSome ∧ key ≠ [] then some key else none := by
  obtain ⟨htext, hbytes⟩ := cell_key hcr h hd hk
  simp only [DekWorld.getDekKeyMaterialBytes]
  cases hs : (w.cell c d).keyMaterial with
  | none => simp [DekWorld.decoded]
  | some s =>
    obtain rfl := htext s hs
    by_cases hkey : key = []
    · subst hkey
      simp [Base64.encode_eq_nil.mpr, DekWorld.decoded]
    · have hne : Base64.encode key ≠ [] := fun he => hkey (Base64.encode_eq_nil.mp he)
      rw [if_pos ⟨rfl, hkey⟩, decoded_of_ne_nil hne]
      cases hb : (w.cell c d).keyMaterialBytes with
      | none => rw [Option.getD_none, Base64.decode_encode]
      | some b => rw [hbytes b hb, Option.getD_some]

theorem getDekKeyMaterialBytes_rely (h : DekInv cr objects w) {d : Dek} (hd : w.Has c d) :
    DekRely cr objects w (w.getDekKeyMaterialBytes c d).2 := by
  obtain ⟨-, hcd, henc⟩ := cell_cases h hd
  refine setCell_rely h hd hcd henc ?_ ?_ (fun h => h)
  · intro hcr key s hk hs
    exact (cell_key hcr h hd hk).1 s hs
  · intro hcr key b hk hb
    have hres := decoded_keyMaterial hcr h hd hk
    simp only [DekWorld.getDekKeyMaterialBytes] at hres
    rw [hres] at hb
    split at hb
    · exact (Option.some.inj hb).symm
    · exact (cell_key hcr h hd hk).2 b hb

theorem setDekKeyMaterial_rely (h : DekInv cr objects w) {d : Dek} (hd : w.Has c d) {key : Bytes}
    (hk : Inverts cr → KeyOf cr objects w d key) : DekRely cr objects w (w.setDekKeyMaterial c d key) := by
  obtain ⟨-, hcd, henc⟩ := cell_cases h hd
  refine setCell_rely h hd hcd henc ?_ ?_ (fun _ => rfl)
  · intro hcr key' s hk' hs
    obtain rfl := (hk hcr).unique hk'
    exact (Option.some.inj hs).symm
  · intro hcr key' b hk' hb
    exact (cell_key hcr h hd hk').2 b hb

theorem cell_setDekKeyMaterial {d : Dek} (hd : w.Has c d) (key : Bytes) :
    ((w.setDekKeyMaterial c d key).cell c d).keyMaterial.isSome := by
  obtain ⟨cell, hc, -⟩ := hd
  simp only [DekWorld.setDekKeyMaterial, DekWorld.setCell, DekWorld.cell, clients_setClient, if_true]
  rw [List.getElem?_set_self (List.getElem?_eq_some_iff.mp hc).1]
  rfl

end Calls

/-! ## What every call keeps -/

def DekPre (cr : Crypto) (objects : Nat → Transform) : DekOp → DekWorld → Prop
  | .setThisKek o kek, w =>
    w.registry.kek? (objects o).kekName (contextFor (objects o).subject) = some kek ∧ (objects o).Agrees kek
  | .registerDek _ kekName subject algorithm version e, w =>
    MayRegister cr objects w.registry kekName subject algorithm version e
  | .getDekEncryptedKeyMaterialBytes c d, w => w.Has c d
  | .getDekKeyMaterialBytes c d, w => w.Has c d
  | .setDekKeyMaterial c d key, w => w.Has c d ∧ (Inverts cr → KeyOf cr objects w d key)
  | _, _ => True

theorem setThisKek_rely {cr : Crypto} {objects : Nat → Transform} {w : DekWorld} (h : DekInv cr objects w) {o : Nat}
    {kek : Kek}
    (hk : w.registry.kek? (objects o).kekName (contextFor (objects o).subject) = some kek ∧
      (objects o).Agrees kek) :
    DekRely cr objects w { w with thisKek := fun o' => if o' = o then some kek else w.thisKek o' } := by
  refine ⟨⟨fun _ _ _ h => h, fun _ h => h, fun _ _ cell hc => ⟨cell, hc, rfl, id⟩⟩, h.records, h.keks, ?_,
    h.cells, h.deks⟩
  intro o' kek' ho
  dsimp only at ho
  split at ho
  · next he =>
    obtain rfl : kek = kek' := Option.some.inj ho
    rw [he]
    exact hk
  · exact h.thisKek o' kek' ho

theorem exec_rely {cr : Crypto} {objects : Nat → Transform} {w : DekWorld} (h : DekInv cr objects w)
    (i : DekInput) (op : DekOp) (hp : DekPre cr objects op w) : DekRely cr objects w (op.exec cr i w).2 := by
  cases op with
  | thisKek o => exact h.rely
  | setThisKek o kek => exact setThisKek_rely h hp
  | getKek c id => exact (getKek_cases h i id).1
  | registerKek c name kmsType kmsKeyId shared context => exact (registerKek_cases h i _ _ _ _ _).1
  | getDek c id => exact (getDek_cases h i id).1
  | registerDek c kekName subject algorithm version e => exact (registerDek_cases h i hp).1
  | now => exact h.rely
  | generateKey format => exact h.rely
  | kmsEncrypt url rawKey => exact h.rely
  | kmsDecrypt url encryptedKey => exact h.rely
  | getDekEncryptedKeyMaterialBytes c d => exact getDekEncryptedKeyMaterialBytes_rely h hp
  | getDekKeyMaterialBytes c d => exact getDekKeyMaterialBytes_rely h hp
  | setDekKeyMaterial c d key => exact setDekKeyMaterial_rely h hp.1 hp.2
  | encrypt d format key plaintext => exact h.rely
  | decrypt format key ciphertext => exact h.rely

theorem evict_rely {cr : Crypto} {objects : Nat → Transform} {w : DekWorld} (h : DekInv cr objects w)
    (e : Eviction) :
    DekRely cr objects w (w.evict e) := by
  cases e with
  | kek c id => exact h.uncacheKek
  | dek c id => exact h.uncacheDek id

end ConfluentKafka
