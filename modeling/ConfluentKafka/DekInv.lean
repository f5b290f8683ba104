import ConfluentKafka.Encryption

/-!
# What the registry and its clients keep

The versions of a DEK are those from 1 to the newest one. Everything cached is something the
registry has. If the KMS decrypts what it has encrypted, each version has one key, and the key
material in a cell is the key of the cell's own version. `DekRely` is what every call does to the
world: the invariant holds again, and nothing the registry or a client knew is lost.
-/

namespace ConfluentKafka

open Transform

/-! ## Keys -/

/-- A KMS key that a DEK's key may be encrypted with: the KEK's own, which the registry takes, or one of a
producer's. -/
def MayEncrypt (objects : Nat → Transform) (kek : Kek) (id : String) : Prop :=
  id = kek.kmsKeyId ∨ ∃ o, (objects o).ruleMode ≠ .read ∧ id ∈ getKmsKeyIds (objects o).alternateKmsKeyIds kek

/-- One of these KMS keys opens the ciphertext to that key, and no KMS key opens it to another. -/
def Opens (cr : Crypto) (objects : Nat → Transform) (kek : Kek) (encryptedKey key : Bytes) : Prop :=
  (∃ id, MayEncrypt objects kek id ∧ cr.kmsDecrypt (keyUrl kek id) encryptedKey = some key) ∧
    ∀ url b, cr.kmsDecrypt url encryptedKey = some b → b = key

/-- The AEADs and the KMS decrypt with a key what they have encrypted with it. With another key the KMS may
refuse. -/
structure Inverts (cr : Crypto) : Prop where
  aead : ∀ f k n p c, cr.aeadEncrypt f k n p = some c → cr.aeadDecrypt f k c = some p
  kms : ∀ url nonce rawKey, cr.kmsDecrypt url (cr.kmsEncrypt url nonce rawKey) = some rawKey
  kms_other : ∀ url url' nonce rawKey b, cr.kmsDecrypt url' (cr.kmsEncrypt url nonce rawKey) = some b → b = rawKey
  kms_ne_nil : ∀ url nonce rawKey, cr.kmsEncrypt url nonce rawKey ≠ []

def HasKey (cr : Crypto) (objects : Nat → Transform) (g : DekRegistry) (kekName subject : String)
    (encryptedKeyMaterial : List Char) (key : Bytes) : Prop :=
  ∃ kek, g.kek? kekName (contextFor subject) = some kek ∧ Opens cr objects kek
    (Base64.decode encryptedKeyMaterial) key

theorem Inverts.opens {cr : Crypto} (hcr : Inverts cr) {objects : Nat → Transform} {kek : Kek} {id : String}
    (hid : MayEncrypt objects kek id) (nonce rawKey : Bytes) :
    Opens cr objects kek (cr.kmsEncrypt (keyUrl kek id) nonce rawKey) rawKey :=
  ⟨⟨id, hid, hcr.kms _ _ _⟩, fun url b hb => hcr.kms_other _ url nonce rawKey b hb⟩

theorem HasKey.unique {cr : Crypto} {objects : Nat → Transform} {g : DekRegistry} {kekName subject : String}
    {e : List Char} {k₁ k₂ : Bytes} (h₁ : HasKey cr objects g kekName subject e k₁)
    (h₂ : HasKey cr objects g kekName subject e k₂) : k₁ = k₂ := by
  obtain ⟨kek, -, ⟨id, -, hd⟩, -⟩ := h₁
  obtain ⟨-, -, -, honly⟩ := h₂
  exact honly _ _ hd

theorem mem_getKmsKeyIds (alternates : Option String) (kek : Kek) : kek.kmsKeyId ∈ getKmsKeyIds alternates kek := by
  unfold getKmsKeyIds
  split <;> simp

/-! ## The invariant -/

def SameDek (r r' : DekRecord) : Prop := r.kekName = r'.kekName ∧ r.subject = r'.subject ∧
    r.algorithm = r'.algorithm

structure RecordOk (cr : Crypto) (objects : Nat → Transform) (g : DekRegistry) (r : DekRecord) : Prop where
  found : g.version? r.kekName r.subject r.algorithm r.version = some r
  pos : 1 ≤ r.version
  pred : 1 < r.version → ∃ r' ∈ g.deks, SameDek r' r ∧ r'.version + 1 = r.version
  ne_nil : Inverts cr → r.encryptedKeyMaterial ≠ []
  key : Inverts cr → ∃ key, HasKey cr objects g r.kekName r.subject r.encryptedKeyMaterial key ∧
    ∀ s, r.keyMaterial = some s → s = Base64.encode key

structure CellOk (cr : Crypto) (objects : Nat → Transform) (g : DekRegistry) (cell : DekCell) (r : DekRecord) :
    Prop where
  mem : r ∈ g.deks
  dek : cell.dek = r.dek cell.dek.cell
  encrypted : ∀ b, cell.encryptedKeyMaterialBytes = some b → b = Base64.decode r.encryptedKeyMaterial
  text : Inverts cr → ∀ key s, HasKey cr objects g r.kekName r.subject r.encryptedKeyMaterial key →
    cell.keyMaterial = some s → s = Base64.encode key
  bytes : Inverts cr → ∀ key b, HasKey cr objects g r.kekName r.subject r.encryptedKeyMaterial key →
    cell.keyMaterialBytes = some b → b = key

def DekWorld.Has (w : DekWorld) (c : Nat) (d : Dek) : Prop :=
  ∃ cell, (w.clients c).cells[d.cell]? = some cell ∧ cell.dek = d

/-- The object is what was asked for; for version -1 it is any version. -/
structure Answers (id : DekId) (d : Dek) : Prop where
  kekName : d.kekName = id.kekName
  subject : d.subject = id.subject
  algorithm : d.algorithm = id.algorithm
  version : id.version ≠ -1 → (d.version : Int) = id.version

/-- The rule's KMS type and key id, where it has them, are those of the KEK. -/
def Transform.Agrees (t : Transform) (kek : Kek) : Prop :=
  (t.kmsType.getD "" = "" ∨ t.kmsType = some kek.kmsType) ∧
  (t.kmsKeyId.getD "" = "" ∨ t.kmsKeyId = some kek.kmsKeyId)

structure DekInv (cr : Crypto) (objects : Nat → Transform) (w : DekWorld) : Prop where
  records : ∀ r ∈ w.registry.deks, RecordOk cr objects w.registry r
  keks : ∀ c id kek, (w.clients c).kekCache.get? id = some kek → w.registry.kek? id.name id.context = some kek
  thisKek : ∀ o kek, w.thisKek o = some kek →
    w.registry.kek? (objects o).kekName (contextFor (objects o).subject) = some kek ∧ (objects o).Agrees kek
  cells : ∀ (c k : Nat) (cell : DekCell), (w.clients c).cells[k]? = some cell → cell.dek.cell = k ∧ ∃ r,
    CellOk cr objects w.registry cell r
  deks : ∀ c id d, (w.clients c).dekCache.get? id = some d → w.Has c d ∧ Answers id d

structure Grows (w w' : DekWorld) : Prop where
  keks : ∀ name context kek, w.registry.kek? name context = some kek → w'.registry.kek? name context = some kek
  deks : ∀ r ∈ w.registry.deks, r ∈ w'.registry.deks
  cells : ∀ (c k : Nat) (cell : DekCell), (w.clients c).cells[k]? = some cell →
    ∃ cell' : DekCell, (w'.clients c).cells[k]? = some cell' ∧ cell'.dek = cell.dek ∧
      (cell.keyMaterial.isSome → cell'.keyMaterial.isSome)

theorem Grows.refl (w : DekWorld) : Grows w w :=
  ⟨fun _ _ _ h => h, fun _ h => h, fun _ _ cell h => ⟨cell, h, rfl, id⟩⟩

theorem Grows.trans {w₁ w₂ w₃ : DekWorld} (h₁ : Grows w₁ w₂) (h₂ : Grows w₂ w₃) : Grows w₁ w₃ := by
  refine ⟨fun n c k h => h₂.keks n c k (h₁.keks n c k h), fun r h => h₂.deks r (h₁.deks r h), fun c k cell h => ?_⟩
  obtain ⟨cell₂, hc₂, hd₂, hk₂⟩ := h₁.cells c k cell h
  obtain ⟨cell₃, hc₃, hd₃, hk₃⟩ := h₂.cells c k cell₂ hc₂
  exact ⟨cell₃, hc₃, hd₃.trans hd₂, fun h => hk₃ (hk₂ h)⟩

theorem Grows.has {w w' : DekWorld} (h : Grows w w') {c : Nat} {d : Dek} (hd : w.Has c d) : w'.Has c d := by
  obtain ⟨cell, hc, rfl⟩ := hd
  obtain ⟨cell', hc', hd', -⟩ := h.cells c _ cell hc
  exact ⟨cell', hc', hd'⟩

theorem Grows.hasKey {w w' : DekWorld} (h : Grows w w') {cr : Crypto} {objects : Nat → Transform}
    {kekName subject : String} {e : List Char}
    {key : Bytes} (hk : HasKey cr objects w.registry kekName subject e key) : HasKey cr objects w'.registry kekName
      subject e key := by
  obtain ⟨kek, hkek, ho⟩ := hk
  exact ⟨kek, h.keks _ _ _ hkek, ho⟩

def DekRely (cr : Crypto) (objects : Nat → Transform) (w w' : DekWorld) : Prop := Grows w w' ∧ DekInv cr objects w'

theorem DekRely.trans {cr : Crypto} {objects : Nat → Transform} {w₁ w₂ w₃ : DekWorld}
    (h₁ : DekRely cr objects w₁ w₂)
    (h₂ : DekRely cr objects w₂ w₃) : DekRely cr objects w₁ w₃ :=
  ⟨h₁.1.trans h₂.1, h₂.2⟩

theorem DekInv.rely {cr : Crypto} {objects : Nat → Transform} {w : DekWorld} (h : DekInv cr objects w) :
    DekRely cr objects w w :=
  ⟨Grows.refl w, h⟩

/-! ## Changing one client -/

section Clients

variable {cr : Crypto} {objects : Nat → Transform} {w : DekWorld} {c : Nat}

theorem clients_setClient (w : DekWorld) (c c' : Nat) (cl : DekClient) :
    (w.setClient c cl).clients c' = if c' = c then cl else w.clients c' := rfl

theorem DekInv.setClient (h : DekInv cr objects w) {cl : DekClient}
    (hkeks : ∀ id kek, cl.kekCache.get? id = some kek → w.registry.kek? id.name id.context = some kek)
    (hgrow : ∀ (k : Nat) (cell : DekCell), (w.clients c).cells[k]? = some cell → ∃ cell' : DekCell,
      cl.cells[k]? = some cell' ∧ cell'.dek = cell.dek ∧ (cell.keyMaterial.isSome → cell'.keyMaterial.isSome))
    (hcells : ∀ (k : Nat) (cell : DekCell), cl.cells[k]? = some cell → cell.dek.cell = k ∧ ∃ r,
      CellOk cr objects w.registry cell r)
    (hdeks : ∀ id d, cl.dekCache.get? id = some d →
      (∃ cell : DekCell, cl.cells[d.cell]? = some cell ∧ cell.dek = d) ∧ Answers id d) :
    DekRely cr objects w (w.setClient c cl) := by
  refine ⟨⟨fun _ _ _ h => h, fun _ h => h, ?_⟩, ⟨h.records, ?_, h.thisKek, ?_, ?_⟩⟩
  · intro c' k cell hc
    rw [clients_setClient]
    by_cases he : c' = c
    · subst he
      rw [if_pos rfl]
      exact hgrow k cell hc
    · rw [if_neg he]
      exact ⟨cell, hc, rfl, id⟩
  · intro c' id kek hk
    rw [clients_setClient] at hk
    by_cases he : c' = c
    · rw [if_pos he] at hk
      exact hkeks id kek hk
    · rw [if_neg he] at hk
      exact h.keks c' id kek hk
  · intro c' k cell hc
    rw [clients_setClient] at hc
    by_cases he : c' = c
    · rw [if_pos he] at hc
      exact hcells k cell hc
    · rw [if_neg he] at hc
      exact h.cells c' k cell hc
  · intro c' id d hd
    unfold DekWorld.Has
    rw [clients_setClient] at hd ⊢
    by_cases he : c' = c
    · rw [if_pos he] at hd ⊢
      exact hdeks id d hd
    · rw [if_neg he] at hd ⊢
      exact h.deks c' id d hd

theorem DekInv.cacheKek (h : DekInv cr objects w) {id : KekId} {kek : Kek}
    (hk : w.registry.kek? id.name id.context = some kek) : DekRely cr objects w (w.cacheKek c id kek) := by
  apply h.setClient
  · intro id' kek' hg
    rw [JsMap.get?_set] at hg
    split at hg
    · next he =>
      obtain rfl : kek = kek' := Option.some.inj hg
      rw [he]
      exact hk
    · exact h.keks c id' kek' hg
  · exact fun k cell hc => ⟨cell, hc, rfl, fun h => h⟩
  · exact fun k cell hc => h.cells c k cell hc
  · exact fun id' d hd => h.deks c id' d hd

theorem DekInv.uncacheKek (h : DekInv cr objects w) {id : KekId} : DekRely cr objects w (w.uncacheKek c id) := by
  apply h.setClient
  · intro id' kek' hg
    rw [JsMap.get?_delete] at hg
    split at hg
    · cases hg
    · exact h.keks c id' kek' hg
  · exact fun k cell hc => ⟨cell, hc, rfl, fun h => h⟩
  · exact fun k cell hc => h.cells c k cell hc
  · exact fun id' d hd => h.deks c id' d hd

theorem DekInv.cacheDek (h : DekInv cr objects w) {id : DekId} {d : Dek} (hd : w.Has c d) (ha : Answers id d) :
    DekRely cr objects w (w.cacheDek c id d) := by
  apply h.setClient
  · exact fun id' kek hk => h.keks c id' kek hk
  · exact fun k cell hc => ⟨cell, hc, rfl, fun h => h⟩
  · exact fun k cell hc => h.cells c k cell hc
  · intro id' d' hg
    rw [JsMap.get?_set] at hg
    split at hg
    · next he =>
      obtain rfl : d = d' := Option.some.inj hg
      rw [he]
      exact ⟨hd, ha⟩
    · exact h.deks c id' d' hg

theorem DekInv.uncacheDek (h : DekInv cr objects w) (id : DekId) : DekRely cr objects w (w.uncacheDek c id) := by
  apply h.setClient
  · exact fun id' kek hk => h.keks c id' kek hk
  · exact fun k cell hc => ⟨cell, hc, rfl, fun h => h⟩
  · exact fun k cell hc => h.cells c k cell hc
  · intro id' d' hg
    rw [JsMap.get?_delete] at hg
    split at hg
    · cases hg
    · exact h.deks c id' d' hg

theorem DekInv.receive (h : DekInv cr objects w) {r : DekRecord} (hr : r ∈ w.registry.deks) (i : DekInput) :
    DekRely cr objects w (w.receive i c r).2 ∧ (w.receive i c r).2.Has c (w.receive i c r).1 ∧
      (w.receive i c r).1 = r.dek (w.clients c).cells.length := by
  have hold : ∀ {k : Nat} {cell : DekCell}, (w.clients c).cells[k]? = some cell → ∀ l : List DekCell,
      ((w.clients c).cells ++ l)[k]? = some cell := by
    intro k cell hc l
    rw [List.getElem?_append_left (List.getElem?_eq_some_iff.mp hc).1, hc]
  refine ⟨?_, ?_, rfl⟩
  · apply h.setClient
    · exact fun id' kek hk => h.keks c id' kek hk
    · exact fun k cell hc => ⟨cell, hold hc _, rfl, fun h => h⟩
    · intro k cell hc
      rw [List.getElem?_append] at hc
      split at hc
      · exact h.cells c k cell hc
      · have hk : k - (w.clients c).cells.length = 0 := by
          have := (List.getElem?_eq_some_iff.mp hc).1
          simp only [List.length_singleton] at this
          omega
        rw [hk] at hc
        obtain rfl := Option.some.inj hc
        refine ⟨by simp only [DekRecord.dek]; omega, r, hr, rfl, by simp, ?_, by simp⟩
        intro hcr key s hkey hs
        obtain ⟨key', hkey', htext⟩ := (h.records r hr).key hcr
        obtain rfl := hkey.unique hkey'
        by_cases hshow : i.showKey
        · simp only [hshow, if_true] at hs
          exact htext s hs
        · simp [hshow] at hs
    · intro id d hd
      obtain ⟨⟨cell, hc, hcd⟩, ha⟩ := h.deks c id d hd
      exact ⟨⟨cell, hold hc _, hcd⟩, ha⟩
  · refine ⟨⟨r.dek (w.clients c).cells.length, none, if i.showKey then r.keyMaterial else none, none⟩, ?_, rfl⟩
    simp only [DekWorld.receive, DekRecord.dek, clients_setClient, if_true]
    rw [List.getElem?_append_right (Nat.le_refl _), Nat.sub_self]
    rfl

theorem DekInv.setCell (h : DekInv cr objects w) {d : Dek} {cell : DekCell} (hd : cell.dek = d)
    (hold : ∀ cell', (w.clients c).cells[d.cell]? = some cell' → cell'.dek = d)
    (hkey : (w.cell c d).keyMaterial.isSome → cell.keyMaterial.isSome)
    (hok : w.Has c d → ∃ r, CellOk cr objects w.registry cell r) : DekRely cr objects w (w.setCell c d cell) := by
  have hget : ∀ k : Nat, ((w.clients c).cells.set d.cell cell)[k]? =
      if d.cell = k ∧ k < (w.clients c).cells.length then some cell else (w.clients c).cells[k]? := by
    intro k
    rw [List.getElem?_set]
    by_cases hk : d.cell = k
    · subst hk
      by_cases hl : d.cell < (w.clients c).cells.length
      · simp [hl]
      · simp [hl]
    · simp [hk]
  have hgrow : ∀ (k : Nat) (cell' : DekCell), (w.clients c).cells[k]? = some cell' → ∃ cell'' : DekCell,
      ((w.clients c).cells.set d.cell cell)[k]? = some cell'' ∧ cell''.dek = cell'.dek ∧
        (cell'.keyMaterial.isSome → cell''.keyMaterial.isSome) := by
    intro k cell' hc
    rw [hget]
    by_cases hk : d.cell = k ∧ k < (w.clients c).cells.length
    · rw [if_pos hk]
      obtain ⟨rfl, hl⟩ := hk
      refine ⟨cell, rfl, hd.trans (hold cell' hc).symm, fun hs => hkey ?_⟩
      rw [DekWorld.cell, hc]
      exact hs
    · rw [if_neg hk]
      exact ⟨cell', hc, rfl, fun h => h⟩
  apply h.setClient
  · exact fun id' kek hk => h.keks c id' kek hk
  · exact hgrow
  · intro k cell' hc
    rw [hget] at hc
    split at hc
    · next hk =>
      obtain rfl := Option.some.inj hc
      refine ⟨by rw [hd]; exact hk.1, hok ?_⟩
      have hl : d.cell < (w.clients c).cells.length := by rw [hk.1]; exact hk.2
      obtain ⟨cell', hcell'⟩ : ∃ cell', (w.clients c).cells[d.cell]? = some cell' :=
        ⟨_, List.getElem?_eq_getElem hl⟩
      exact ⟨cell', hcell', hold cell' hcell'⟩
    · exact h.cells c k cell' hc
  · intro id d' hg
    obtain ⟨⟨cell', hc, hcd⟩, ha⟩ := h.deks c id d' hg
    obtain ⟨cell'', hc'', hd'', -⟩ := hgrow _ _ hc
    exact ⟨⟨cell'', hc'', hd''.trans hcd⟩, ha⟩

end Clients

/-! ## Changing the registry -/

structure RegistryGrows (g g' : DekRegistry) : Prop where
  keks : ∀ name context kek, g.kek? name context = some kek → g'.kek? name context = some kek
  deks : ∀ r ∈ g.deks, r ∈ g'.deks
  versions : ∀ kekName subject algorithm version r, g.version? kekName subject algorithm version = some r →
    g'.version? kekName subject algorithm version = some r

section Registries

variable {cr : Crypto} {objects : Nat → Transform} {w : DekWorld} {g g' : DekRegistry}

theorem RegistryGrows.hasKey (hg : RegistryGrows g g') {kekName subject : String} {e : List Char} {key : Bytes}
    (h : HasKey cr objects g kekName subject e key) : HasKey cr objects g' kekName subject e key := by
  obtain ⟨kek, hkek, ho⟩ := h
  exact ⟨kek, hg.keks _ _ _ hkek, ho⟩

theorem RecordOk.grows {r : DekRecord} (h : RecordOk cr objects g r) (hg : RegistryGrows g g') :
    RecordOk cr objects g' r where
  found := hg.versions _ _ _ _ _ h.found
  pos := h.pos
  pred hv := by
    obtain ⟨r', hr', hs⟩ := h.pred hv
    exact ⟨r', hg.deks r' hr', hs⟩
  ne_nil := h.ne_nil
  key hcr := by
    obtain ⟨key, hk, ht⟩ := h.key hcr
    exact ⟨key, hg.hasKey hk, ht⟩

theorem CellOk.grows {cell : DekCell} {r : DekRecord} (h : CellOk cr objects g cell r)
    (hr : RecordOk cr objects g r)
    (hg : RegistryGrows g g') : CellOk cr objects g' cell r := by
  refine ⟨hg.deks r h.mem, h.dek, h.encrypted, ?_, ?_⟩
  · intro hcr key s hk hs
    obtain ⟨key₀, hk₀, -⟩ := hr.key hcr
    obtain rfl := hk.unique (hg.hasKey hk₀)
    exact h.text hcr key s hk₀ hs
  · intro hcr key b hk hb
    obtain ⟨key₀, hk₀, -⟩ := hr.key hcr
    obtain rfl := hk.unique (hg.hasKey hk₀)
    exact h.bytes hcr key b hk₀ hb

theorem DekInv.setRegistry (h : DekInv cr objects w) (hg : RegistryGrows w.registry g')
    (hnew : ∀ r ∈ g'.deks, r ∈ w.registry.deks ∨ RecordOk cr objects g' r) :
    DekRely cr objects w { w with registry := g' } := by
  refine ⟨⟨hg.keks, hg.deks, fun c k cell hc => ⟨cell, hc, rfl, id⟩⟩, ⟨?_, ?_, ?_, ?_, ?_⟩⟩
  · intro r hr
    obtain hr | hr := hnew r hr
    · exact (h.records r hr).grows hg
    · exact hr
  · exact fun c id kek hk => hg.keks _ _ _ (h.keks c id kek hk)
  · exact fun o kek hk => ⟨hg.keks _ _ _ (h.thisKek o kek hk).1, (h.thisKek o kek hk).2⟩
  · intro c k cell hc
    obtain ⟨hk, r, hr⟩ := h.cells c k cell hc
    exact ⟨hk, r, hr.grows (h.records r hr.mem) hg⟩
  · exact fun c id d hd => h.deks c id d hd

theorem DekInv.addKek (h : DekInv cr objects w) (name : String) (context : Option String) (kek : Kek) :
    DekRely cr objects w (w.addKek name context kek) := by
  refine h.setRegistry ⟨?_, fun r hr => hr, fun _ _ _ _ _ h => h⟩ fun r hr => .inl hr
  intro n c k hk
  obtain ⟨e, he, hek⟩ := Option.map_eq_some_iff.mp hk
  simp only [DekRegistry.kek?, List.find?_append, he, Option.some_or, Option.map_some, hek]

theorem kek?_addKek {name : String} {context : Option String} {kek : Kek}
    (hn : w.registry.kek? name context = none) :
    (w.addKek name context kek).registry.kek? name context = some kek := by
  rw [DekRegistry.kek?, Option.map_eq_none_iff] at hn
  simp [DekRegistry.kek?, DekWorld.addKek, List.find?_append, hn]

theorem version?_addDek (w : DekWorld) (r : DekRecord) (kekName subject : String) (algorithm : DekFormat)
    (version : Nat) :
    (w.addDek r).registry.version? kekName subject algorithm version =
      (w.registry.version? kekName subject algorithm version).or
        (if r.kekName = kekName ∧ r.subject = subject ∧ r.algorithm = algorithm ∧ r.version = version then some r
         else none) := by
  simp only [DekRegistry.version?, DekRegistry.versionsOf, DekWorld.addDek, List.filter_append, List.find?_append]
  congr 1
  by_cases h : r.kekName = kekName ∧ r.subject = subject ∧ r.algorithm = algorithm
  · by_cases hv : r.version = version
    · simp [h, hv]
    · simp [h, hv]
  · have hn : ¬(r.kekName = kekName ∧ r.subject = subject ∧ r.algorithm = algorithm ∧ r.version = version) :=
      fun hc => h ⟨hc.1, hc.2.1, hc.2.2.1⟩
    rw [if_neg hn]
    simp [h]

/-- A version may be created when it is the first one or its predecessor is there, and it has a key. -/
structure Creatable (cr : Crypto) (objects : Nat → Transform) (g : DekRegistry) (r : DekRecord) : Prop where
  fresh : g.version? r.kekName r.subject r.algorithm r.version = none
  pos : 1 ≤ r.version
  pred : 1 < r.version → ∃ r' ∈ g.deks, SameDek r' r ∧ r'.version + 1 = r.version
  ne_nil : Inverts cr → r.encryptedKeyMaterial ≠ []
  key : Inverts cr → ∃ key, HasKey cr objects g r.kekName r.subject r.encryptedKeyMaterial key ∧
    ∀ s, r.keyMaterial = some s → s = Base64.encode key

theorem DekInv.addDek (h : DekInv cr objects w) {r : DekRecord} (hr : Creatable cr objects w.registry r) :
    DekRely cr objects w (w.addDek r) := by
  have hg : RegistryGrows w.registry (w.addDek r).registry := by
    refine ⟨fun _ _ _ h => h, fun r' hr' => List.mem_append_left _ hr', ?_⟩
    intro kekName subject algorithm version r' hr'
    rw [version?_addDek, hr', Option.some_or]
  refine h.setRegistry hg fun r' hr' => ?_
  obtain hr' | hr' := List.mem_append.mp hr'
  · exact .inl hr'
  · right
    rw [List.mem_singleton.mp hr']
    refine ⟨?_, hr.pos, ?_, hr.ne_nil, ?_⟩
    · have : (w.addDek r).registry.version? r.kekName r.subject r.algorithm r.version = some r := by
        rw [version?_addDek, hr.fresh]
        simp
      exact this
    · intro hv
      obtain ⟨r'', hr'', hs⟩ := hr.pred hv
      exact ⟨r'', hg.deks r'' hr'', hs⟩
    · intro hcr
      obtain ⟨key, hk, ht⟩ := hr.key hcr
      exact ⟨key, hg.hasKey hk, ht⟩

end Registries

/-! ## Versions -/

section Versions

variable {cr : Crypto} {objects : Nat → Transform} {w : DekWorld} {g : DekRegistry}
  {kekName subject : String} {algorithm : DekFormat}

theorem mem_versionsOf {r : DekRecord} : r ∈ g.versionsOf kekName subject algorithm ↔
    r ∈ g.deks ∧ r.kekName = kekName ∧ r.subject = subject ∧ r.algorithm = algorithm := by
  simp [DekRegistry.versionsOf]

theorem version?_some {version : Nat} {r : DekRecord} (h : g.version? kekName subject algorithm version = some r) :
    r ∈ g.versionsOf kekName subject algorithm ∧ r.version = version :=
  ⟨List.mem_of_find?_eq_some h, by simpa using List.find?_some h⟩

theorem newest_eq_some {n : Nat} : g.newest kekName subject algorithm = some n ↔
    (∃ r ∈ g.versionsOf kekName subject algorithm, r.version = n) ∧
      ∀ r ∈ g.versionsOf kekName subject algorithm, r.version ≤ n := by
  rw [DekRegistry.newest, List.max?_eq_some_iff]
  simp

theorem le_newest {r : DekRecord} (hr : r ∈ g.versionsOf kekName subject algorithm) :
    ∃ n, g.newest kekName subject algorithm = some n ∧ r.version ≤ n := by
  cases hn : g.newest kekName subject algorithm with
  | none =>
    rw [DekRegistry.newest, List.max?_eq_none_iff, List.map_eq_nil_iff] at hn
    rw [hn] at hr
    cases hr
  | some n => exact ⟨n, rfl, (newest_eq_some.mp hn).2 r hr⟩

theorem versions_below (h : ∀ r ∈ g.deks, RecordOk cr objects g r) {m : Nat} (hm : 1 ≤ m) (k : Nat) :
    ∀ r ∈ g.versionsOf kekName subject algorithm, r.version = m + k →
      ∃ r' ∈ g.versionsOf kekName subject algorithm, r'.version = m := by
  induction k with
  | zero => exact fun r hr hv => ⟨r, hr, hv⟩
  | succ k ih =>
    intro r hr hv
    obtain ⟨hmem, hk, hs, ha⟩ := mem_versionsOf.mp hr
    obtain ⟨r', hr', ⟨hk', hs', ha'⟩, hv'⟩ := (h r hmem).pred (by omega)
    apply ih r' (mem_versionsOf.mpr ⟨hr', hk'.trans hk, hs'.trans hs, ha'.trans ha⟩)
    omega

theorem newest_addDek (h : DekInv cr objects w) {r : DekRecord} (hr : Creatable cr objects w.registry r) :
    (w.addDek r).registry.newest r.kekName r.subject r.algorithm = some r.version := by
  rw [newest_eq_some]
  refine ⟨⟨r, mem_versionsOf.mpr ⟨List.mem_append_right _ (by simp), rfl, rfl, rfl⟩, rfl⟩, fun r' hr' => ?_⟩
  obtain ⟨hmem, hk, hs, ha⟩ := mem_versionsOf.mp hr'
  obtain hmem | hmem := List.mem_append.mp hmem
  · by_contra hlt
    -- a later version would have this one before it already
    obtain ⟨r'', hr'', hv⟩ := versions_below h.records hr.pos (r'.version - r.version) r'
      (mem_versionsOf.mpr ⟨hmem, hk, hs, ha⟩) (by omega)
    have := hr.fresh
    rw [DekRegistry.version?, List.find?_eq_none] at this
    exact this r'' hr'' (by simp [hv])
  · rw [List.mem_singleton.mp hmem]

theorem dek?_some {version : Int} {r : DekRecord} (h : g.dek? kekName subject algorithm version = some r) :
    r ∈ g.versionsOf kekName subject algorithm ∧ (version ≠ -1 → (r.version : Int) = version) ∧
      (version = -1 → g.newest kekName subject algorithm = some r.version) := by
  unfold DekRegistry.dek? at h
  split at h
  · next hv =>
    obtain ⟨n, hn, hr⟩ := Option.bind_eq_some_iff.mp h
    obtain ⟨hmem, hrv⟩ := version?_some hr
    exact ⟨hmem, fun hne => absurd hv hne, fun _ => by rw [hn, hrv]⟩
  · next hv =>
    split at h
    · obtain ⟨hmem, hrv⟩ := version?_some h
      exact ⟨hmem, fun _ => by omega, fun he => absurd he hv⟩
    · cases h

end Versions

end ConfluentKafka
