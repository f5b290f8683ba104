import ConfluentKafka.EncryptSpec

/-!
# What a transform ensures

The key of the DEK that was selected is brought into its cell, and a field is encrypted or
decrypted with it. From here on only what happened to the field is told: a written value carries
the version of the DEK it was encrypted under, and a read one is decrypted with that version's key.
-/

namespace ConfluentKafka

open Transform

section Material

variable {cr : Crypto} {objects : Nat → Transform} {X : Dek → List DekEvent → Prop} {w : DekWorld}
  {tr : List DekEvent}

theorem Grows.keyMaterial {w' : DekWorld} (h : Grows w w') {c : Nat} {d : Dek} (hd : w.Has c d)
    (hk : (w.cell c d).keyMaterial.isSome) : (w'.cell c d).keyMaterial.isSome := by
  obtain ⟨cell, hc, -⟩ := hd
  obtain ⟨cell', hc', -, hkey⟩ := h.cells c _ cell hc
  rw [DekWorld.cell, hc] at hk
  rw [DekWorld.cell, hc']
  exact hkey hk

theorem isSome_of_getDekKeyMaterialBytes {c : Nat} {d : Dek} {b : Bytes}
    (h : (w.getDekKeyMaterialBytes c d).1 = some b) :
    (w.cell c d).keyMaterial.isSome :=
  (decoded_eq_some h).1

theorem keyMaterial_does {c : Nat} {d : Dek} (hd : w.Has c d) : Does cr objects X
    (answer fun o w' _ => w'.Has c d ∧ (∀ b, o = some b → (w'.cell c d).keyMaterial.isSome) ∧
      (Inverts cr → (∀ b, o = some b → KeyOf cr objects w' d b ∧ b ≠ []) ∧
        (o = none → (w.cell c d).keyMaterial.isSome → KeyOf cr objects w' d [])))
    (call (.getDekKeyMaterialBytes c d)) w tr := by
  apply does_call (.getDekKeyMaterialBytes c d) (by simp) (fun w' h => h.1.has hd)
  intro w₁ i w₂ h₁ h₂
  have hd₁ := h₁.1.has hd
  have hrel := (getDekKeyMaterialBytes_rely h₁.2 hd₁).trans h₂
  simp only [answer, post, DekOp.exec]
  refine ⟨hrel.1.has hd₁, fun b hb => hrel.1.keyMaterial hd₁ (isSome_of_getDekKeyMaterialBytes hb), fun hcr => ?_⟩
  obtain ⟨key, hk⟩ := exists_keyOf hcr h₁.2 hd₁
  rw [decoded_keyMaterial hcr h₁.2 hd₁ hk]
  refine ⟨fun b hb => ?_, fun hn hsome => ?_⟩
  · split at hb
    · next hc =>
      obtain rfl := Option.some.inj hb
      exact ⟨hrel.1.keyOf hk, hc.2⟩
    · cases hb
  · split at hn
    · cases hn
    · next hc =>
      have hempty : key = [] := by
        by_contra hne
        exact hc ⟨h₁.1.keyMaterial hd hsome, hne⟩
      rw [← hempty]
      exact hrel.1.keyOf hk

theorem encryptedKeyMaterial_does {c : Nat} {d : Dek} (hd : w.Has c d) : Does cr objects X
    (answer fun o _ _ => Inverts cr → o = some (Base64.decode (d.encryptedKeyMaterial.getD [])))
    (call (.getDekEncryptedKeyMaterialBytes c d)) w tr := by
  apply does_call (.getDekEncryptedKeyMaterialBytes c d) (by simp) (fun w' h => h.1.has hd)
  intro w₁ i w₂ h₁ h₂ hcr
  exact getDekEncryptedKeyMaterialBytes_eq hcr h₁.2 (h₁.1.has hd)

theorem KeyOf.opens {d : Dek} {kek : Kek} {key : Bytes} (h : KeyOf cr objects w d key)
    (hkek : w.registry.kek? d.kekName (contextFor d.subject) = some kek) :
    Opens cr objects kek (Base64.decode (d.encryptedKeyMaterial.getD [])) key := by
  obtain ⟨r, -, hrd, kek', hkek', ho⟩ := h
  rw [hrd] at hkek ⊢
  obtain rfl : kek = kek' := Option.some.inj (hkek.symm.trans hkek')
  exact ho

/-- The executor of the transform has every KMS key that the key of a DEK may be encrypted with. -/
def HasKmsKeys (objects : Nat → Transform) (t : Transform) : Prop :=
  ∀ kek id, MayEncrypt objects kek id → id ∈ getKmsKeyIds t.alternateKmsKeyIds kek

theorem fillKeyMaterial_does (t : Transform) {kek : Kek} {d : Dek} (hd : w.Has t.client d)
    (hw : DekInv cr objects w)
    (hkek : w.registry.kek? d.kekName (contextFor d.subject) = some kek) : Does cr objects X
    (post (fun _ w' _ => (w'.cell t.client d).keyMaterial.isSome)
      fun _ tr' => Inverts cr → HasKmsKeys objects t → ¬NoFailure tr') (t.fillKeyMaterial kek d) w tr := by
  apply seq (keyMaterial_does hd)
  · rintro o w₁ tr₁ h₁ _ ⟨hd₁, hsome, -⟩
    cases o with
    | some b =>
      apply does_pure
      exact fun w₂ h₂ => h₂.1.keyMaterial hd₁ (hsome b rfl)
    | none =>
      apply seq (encryptedKeyMaterial_does hd₁)
      · rintro o w₂ tr₂ h₂ _ ho
        have hd₂ := h₂.1.has hd₁
        cases o with
        | none => exact does_throw fun w₃ _ hcr => by cases ho hcr
        | some bytes =>
          have hopens : Inverts cr → ∃ key, KeyOf cr objects w d key ∧ Opens cr objects kek bytes key := by
            intro hcr
            obtain ⟨key, hk⟩ := exists_keyOf hcr hw hd
            exact ⟨key, hk, by rw [Option.some.inj (ho hcr)]; exact hk.opens hkek⟩
          apply seq (kmsDecryptWith_does kek _ _)
          · rintro b w₃ tr₃ h₃ _ ⟨id, hid, hb⟩
            have hkey : Inverts cr → KeyOf cr objects w d b := by
              intro hcr
              obtain ⟨key, hk, -, honly⟩ := hopens hcr
              rw [honly _ b hb]
              exact hk
            apply does_call (.setDekKeyMaterial t.client d b) (by simp)
            · exact fun w₄ h₄ => ⟨(h₃.trans h₄).1.has hd₂,
                fun hcr => (h₁.trans (h₂.trans (h₃.trans h₄))).1.keyOf (hkey hcr)⟩
            · intro w₄ i w₅ h₄ h₅
              have hd₄ := (h₃.trans h₄).1.has hd₂
              have hset := setDekKeyMaterial_rely h₄.2 hd₄ fun hcr =>
                (h₁.trans (h₂.trans (h₃.trans h₄))).1.keyOf (hkey hcr)
              exact h₅.1.keyMaterial (hset.1.has hd₄) (cell_setDekKeyMaterial hd₄ b)
          · intro e w₃ tr₃ _ _ hnone hcr hkeys hn
            obtain ⟨key, -, ⟨id, hid, hb⟩, -⟩ := hopens hcr
            rw [hnone hn id (hkeys kek id hid)] at hb
            cases hb
      · exact fun _ _ _ _ _ h => h.elim
  · exact fun _ _ _ _ _ h => h.elim

def NoDek : DekOp → Prop
  | .getDek _ _ => False
  | .registerDek _ _ _ _ _ _ => False
  | _ => True

theorem call_only (op : DekOp) (h : NoDek op) : (call op).Only NoDek := ⟨h, fun _ => trivial⟩

theorem kmsDecryptWith_only (kek : Kek) (encryptedKey : Bytes) (ids : List String) :
    (kmsDecryptWith kek encryptedKey ids).Only NoDek := by
  induction ids with
  | nil => trivial
  | cons id ids ih =>
    refine Prog.Only.bind (call_only _ trivial) fun o => ?_
    cases o with
    | some b => trivial
    | none =>
      cases ids with
      | nil => trivial
      | cons id' ids => exact ih

theorem fillKeyMaterial_only (t : Transform) (kek : Kek) (d : Dek) : (t.fillKeyMaterial kek d).Only NoDek := by
  refine Prog.Only.bind (call_only _ trivial) fun o => ?_
  cases o with
  | some b => trivial
  | none =>
    refine Prog.Only.bind (call_only _ trivial) fun o => ?_
    cases o with
    | none => trivial
    | some b =>
      refine Prog.Only.bind (kmsDecryptWith_only kek b _) fun _ => ?_
      exact call_only _ trivial

theorem event_noDek (i : DekInput) (op : DekOp) (w : DekWorld) (h : NoDek op) : ¬IsAnswer (op.event cr i w) := by
  cases op with
  | getDek c id => exact h.elim
  | registerDek c kekName subject algorithm version e => exact h.elim
  | getKek c id =>
    simp only [DekOp.event]
    cases (w.getKek i c id).1 <;> simp [Outcome.event, IsAnswer]
  | registerKek c name kmsType kmsKeyId shared context =>
    simp only [DekOp.event]
    cases (w.registerKek i c name kmsType kmsKeyId shared context).1 <;> simp [Outcome.event, IsAnswer]
  | kmsEncrypt url rawKey =>
    simp only [DekOp.event]
    split <;> simp [IsAnswer]
  | kmsDecrypt url encryptedKey =>
    simp only [DekOp.event]
    split <;> simp [IsAnswer]
  | _ => simp [DekOp.event, IsAnswer]

theorem does_quiet {α : Type} {p : EncryptProg α} {Q : Except EncryptError α → DekWorld → List DekEvent → Prop}
    (hp : p.Only NoDek) (h : Does cr objects X Q p w tr) :
    Does cr objects X (fun r w' tr' => (∃ es, tr' = tr ++ es ∧ ∀ e ∈ es, ¬IsAnswer e) ∧ Q r w' tr') p w tr := by
  apply Ensures.only (T := fun e => ¬IsAnswer e) hp _ h
  exact fun i op w hop => event_noDek i op w hop

end Material

section Transforms

variable {cr : Crypto} {objects : Nat → Transform} {X : Dek → List DekEvent → Prop} {w : DekWorld}
  {tr : List DekEvent}

def Transform.dekId (t : Transform) (version : Option Int) : DekId where
  kekName := t.kekName
  subject := t.subject
  version := if version.getD 0 = 0 then 1 else version.getD 0
  algorithm := t.dekFormat
  deleted := t.ruleMode = .read

theorem getOrCreateDek_does (t : Transform) (ht : Owned objects t) {version : Option Int}
    (hid : Asks t (t.dekId version)) :
    Does cr objects X
      (post (fun d w' tr' => w'.Has t.client d ∧ Answers (t.dekId version) d ∧
        (w'.cell t.client d).keyMaterial.isSome ∧
          KekReady t w' ∧ (t.ruleMode ≠ .read → 0 < t.dekExpiryDays → OkTrace RotationOk tr' → Evidence t d tr'))
        fun _ tr' => t.ruleMode = .read → Inverts cr → HasKmsKeys objects t → NoFailure tr' → KekReady t w →
          Missing w (t.dekId version))
      (t.getOrCreateDek version) w tr := by
  apply seq (getKek_ensures t ht)
  · rintro kek w₁ tr₁ h₁ _ ⟨hkek, hagrees⟩
    apply seq (selectDek_does t ht hid hkek)
    · rintro d w₂ tr₂ h₂ _ ⟨hhas, hans, hev⟩
      have hkek₂ : w₂.registry.kek? d.kekName (contextFor d.subject) = some kek := by
        rw [hans.kekName, hans.subject]
        exact h₂.1.keks _ _ _ hkek
      apply seq (does_quiet (fillKeyMaterial_only t kek d) (fillKeyMaterial_does t hhas h₂.2 hkek₂))
      · rintro _ w₃ tr₃ h₃ _ ⟨⟨es, rfl, hes⟩, hcell⟩
        apply does_pure
        intro w₄ h₄
        have hhas₃ := h₃.1.has hhas
        refine ⟨h₄.1.has hhas₃, hans, h₄.1.keyMaterial hhas₃ hcell, ⟨kek, ?_, hagrees⟩, fun hmode hrot hok => ?_⟩
        · exact (h₂.trans (h₃.trans h₄)).1.keks _ _ _ hkek
        · have hok₂ : OkTrace RotationOk tr₂ :=
            fun a e b hab => hok a e (b ++ es) (by rw [hab]; simp)
          exact (hev hmode hrot hok₂).append hes
      · exact fun e w₃ tr₃ _ _ h _ hcr hkeys hn => absurd hn (h.2 hcr hkeys)
    · exact fun e w₂ tr₂ _ _ h hmode _ _ hn _ => (h hmode hn).before h₁.1
  · exact fun e w₁ tr₁ _ _ h _ _ _ hn hready => absurd hready (h hn)

/-! ## Writing -/

def framed (t : Transform) (version : Nat) (ciphertext : Bytes) : Bytes :=
  if t.isDekRotated then MAGIC_BYTE_V0 ++ bytesBE 4 (unsigned 4 version) ++ ciphertext else ciphertext

/-- The value is the plaintext encrypted under a version of the DEK that the registry has. -/
structure Written (cr : Crypto) (objects : Nat → Transform) (t : Transform) (fieldType : FieldType)
    (plaintext : Bytes)
    (w : DekWorld) (v : FieldValue) (d : Dek) (key rawKey ciphertext nonce : Bytes) : Prop where
  supported : fieldType = .STRING ∨ fieldType = .BYTES
  keyOf : KeyOf cr objects w d key
  ne_nil : key ≠ []
  kekName : d.kekName = t.kekName
  subject : d.subject = t.subject
  algorithm : d.algorithm = t.dekFormat
  version : if t.isDekRotated then FitsBytes 4 d.version else d.version = 1
  fromBinary : cr.fromBinary t.dekFormat key = some rawKey
  encrypted : cr.aeadEncrypt t.dekFormat rawKey nonce plaintext = some ciphertext
  ready : KekReady t w
  value : v = if fieldType = .STRING then .string (String.ofList (Base64.encode (framed t d.version ciphertext)))
    else toObject fieldType (framed t d.version ciphertext)

def WrittenValue (cr : Crypto) (objects : Nat → Transform) (t : Transform) (fieldType : FieldType)
    (plaintext : Bytes)
    (w : DekWorld) (v : FieldValue) : Prop :=
  ∃ d key rawKey ciphertext nonce, Written cr objects t fieldType plaintext w v d key rawKey ciphertext nonce

theorem KekReady.later {t : Transform} {w' : DekWorld} (h : KekReady t w) (hg : Grows w w') : KekReady t w' := by
  obtain ⟨kek, hkek, ha⟩ := h
  exact ⟨kek, hg.keks _ _ _ hkek, ha⟩

theorem WrittenValue.later {t : Transform} {fieldType : FieldType} {plaintext : Bytes} {w' : DekWorld}
    {v : FieldValue}
    (h : WrittenValue cr objects t fieldType plaintext w v) (hg : Grows w w') : WrittenValue cr objects t fieldType
      plaintext w' v := by
  obtain ⟨d, key, rawKey, ciphertext, nonce, h⟩ := h
  exact ⟨d, key, rawKey, ciphertext, nonce,
    { h with keyOf := hg.keyOf h.keyOf, ready := h.ready.later hg }⟩

theorem toBytes_type {fieldType : FieldType} {fieldValue : FieldValue} {plaintext : Bytes}
    (h : toBytes fieldType fieldValue = some plaintext) : fieldType = .STRING ∨ fieldType = .BYTES := by
  unfold toBytes at h
  split at h
  · exact .inr rfl
  · exact .inl rfl
  · cases h

theorem asks_write (t : Transform) : Asks t (t.dekId (if t.isDekRotated then some (-1) else none)) := by
  refine ⟨rfl, rfl, rfl, ?_, fun _ => ?_⟩
  · by_cases h : t.isDekRotated <;> simp [dekId, h]
  · by_cases h : 0 < t.dekExpiryDays <;> simp [dekId, isDekRotated, h]

theorem encrypt_does {d : Dek} (f : DekFormat) (key plaintext : Bytes) (hX : X d tr) : Does cr objects X
    (answer fun o w' _ => DekRely cr objects w w' ∧ ∃ nonce,
      o = (cr.fromBinary f key).bind fun rawKey => cr.aeadEncrypt f rawKey nonce plaintext)
    (call (.encrypt d f key plaintext)) w tr := by
  apply ensures_lift
  intro w₁ h₁
  refine ⟨⟨trivial, fun d' f' k' p' he => ?_⟩, fun i w₂ h₂ => ?_⟩
  · obtain ⟨rfl, -⟩ := DekOp.encrypt.inj he
    exact hX
  · exact ⟨DekRely.trans h₁ h₂, i.nonce, rfl⟩

theorem prefixVersion_cases (version : Int) (ciphertext : Bytes) :
    (FitsBytes 4 version ∧
      prefixVersion version ciphertext = .ret (MAGIC_BYTE_V0 ++ bytesBE 4 (unsigned 4 version) ++ ciphertext)) ∨
    prefixVersion version ciphertext = .fail (.thrown "RangeError") := by
  unfold prefixVersion
  split
  · next h => exact .inl ⟨h, rfl⟩
  · exact .inr rfl

theorem frame_does (t : Transform) {version : Nat} {ciphertext : Bytes}
    {Q : Except EncryptError Bytes → DekWorld → List DekEvent → Prop}
    (hok : ∀ w', DekRely cr objects w w' → (t.isDekRotated → FitsBytes 4 version) →
      Q (.ok (framed t version ciphertext)) w' tr)
    (herr : ∀ e w', Q (.error e) w' tr) :
    Does cr objects X Q (t.frame version ciphertext) w tr := by
  unfold frame
  by_cases hrot : t.isDekRotated
  · rw [if_pos hrot]
    have hcases := prefixVersion_cases version ciphertext
    cases hcases with
    | inl h =>
      rw [h.2]
      intro w' h'
      have := hok w' h' fun _ => h.1
      rw [framed, if_pos hrot] at this
      exact this
    | inr h =>
      rw [h]
      exact fun w' _ => herr _ w'
  · rw [if_neg hrot]
    apply does_pure
    intro w' h'
    have := hok w' h' fun h => absurd h hrot
    rw [framed, if_neg hrot] at this
    exact this

theorem write_does (t : Transform) (ht : Owned objects t) (hmode : t.ruleMode ≠ .read) (fieldType : FieldType)
    (fieldValue : FieldValue)
    (hX : ∀ d tr, (0 < t.dekExpiryDays → OkTrace RotationOk tr → Evidence t d tr) → X d tr) :
    Does cr objects X
      (post (fun v w' _ => ∃ plaintext, toBytes fieldType fieldValue = some plaintext ∧
        (Inverts cr → WrittenValue cr objects t fieldType plaintext w' v)) fun _ _ => True)
      (t.write fieldType fieldValue) w tr := by
  unfold write
  cases hbytes : toBytes fieldType fieldValue with
  | none => exact does_throw fun _ _ => trivial
  | some plaintext =>
    apply seq (getOrCreateDek_does t ht (asks_write t))
    · rintro d w₁ tr₁ h₁ _ ⟨hhas, hans, hcell, hready, hev⟩
      apply seq (does_quiet (call_only (.getDekKeyMaterialBytes t.client d) trivial) (keyMaterial_does hhas))
      · rintro o w₂ tr₂ h₂ _ ⟨⟨es, rfl, hes⟩, hhas₂, -, hsome⟩
        cases o with
        | none => exact Ensures.bind (does_throw fun _ _ => trivial)
        | some key =>
          have hXd : X d (tr₁ ++ es) := by
            apply hX
            intro hrot hok
            have hok₁ : OkTrace RotationOk tr₁ := fun a e b hab => hok a e (b ++ es) (by rw [hab]; simp)
            exact (hev hmode hrot hok₁).append hes
          apply Ensures.bind
          apply does_pure
          intro w₃ h₃
          apply seq (encrypt_does t.dekFormat key plaintext hXd)
          · rintro o w₄ tr₄ h₄ _ ⟨-, nonce, ho⟩
            cases o with
            | none => exact Ensures.bind (does_throw fun _ _ => trivial)
            | some ciphertext =>
              obtain ⟨rawKey, hraw, henc⟩ := Option.bind_eq_some_iff.mp ho.symm
              apply Ensures.bind
              apply does_pure
              intro w₅ h₅
              apply Ensures.bind
              apply frame_does
              · intro w₆ h₆ hfit
                have hg := h₃.trans (h₄.trans (h₅.trans h₆))
                have hwritten : Inverts cr → ∀ v, v = (if fieldType = .STRING then
                      .string (String.ofList (Base64.encode (framed t d.version ciphertext)))
                    else toObject fieldType (framed t d.version ciphertext)) →
                    WrittenValue cr objects t fieldType plaintext w₆ v := by
                  intro hcr v hv
                  obtain ⟨hkey, hne⟩ := (hsome hcr).1 key rfl
                  refine ⟨d, key, rawKey, ciphertext, nonce, toBytes_type hbytes, hg.1.keyOf hkey, hne,
                    hans.kekName, hans.subject,
                    hans.algorithm, ?_, hraw, henc, hready.later (h₂.trans hg).1, hv⟩
                  by_cases hrot : t.isDekRotated
                  · rw [if_pos hrot]
                    exact hfit hrot
                  · have hv := hans.version
                    simp [dekId, hrot] at hv
                    rw [if_neg hrot]
                    exact_mod_cast hv
                dsimp only
                by_cases hstr : fieldType = .STRING
                · rw [if_pos hstr]
                  apply does_pure
                  intro w₇ h₇
                  exact ⟨plaintext, rfl, fun hcr => (hwritten hcr _ (by rw [if_pos hstr])).later h₇.1⟩
                · rw [if_neg hstr]
                  apply does_pure
                  intro w₇ h₇
                  exact ⟨plaintext, rfl, fun hcr => (hwritten hcr _ (by rw [if_neg hstr])).later h₇.1⟩
              · exact fun _ _ => trivial
          · exact fun _ _ _ _ _ h => h.elim
      · exact fun _ _ _ _ _ h => h.2.elim
    · exact fun _ _ _ _ _ _ => trivial

/-! ## Reading -/

structure Matches (t t' : Transform) : Prop where
  kekName : t.kekName = t'.kekName
  subject : t.subject = t'.subject
  kmsType : t.kmsType = t'.kmsType
  kmsKeyId : t.kmsKeyId = t'.kmsKeyId
  dekFormat : t.dekFormat = t'.dekFormat
  rotated : t.isDekRotated = t'.isDekRotated

theorem Matches.ready {t t' : Transform} (h : Matches t t') (hr : KekReady t w) : KekReady t' w := by
  obtain ⟨kek, hkek, ha⟩ := hr
  refine ⟨kek, by rw [← h.kekName, ← h.subject]; exact hkek, ?_⟩
  unfold Agrees at ha ⊢
  rw [← h.kmsType, ← h.kmsKeyId]
  exact ha

theorem Written.ciphertextOf {t : Transform} {fieldType : FieldType} {plaintext : Bytes} {v : FieldValue} {d : Dek}
    {key rawKey ciphertext nonce : Bytes}
    (h : Written cr objects t fieldType plaintext w v d key rawKey ciphertext nonce) :
    ciphertextOf fieldType v = some (framed t d.version ciphertext) := by
  have hv := h.value
  obtain rfl | rfl := h.supported
  · rw [if_pos rfl] at hv
    rw [hv]
    simp [Transform.ciphertextOf, Base64.decode_encode]
  · rw [if_neg (by simp)] at hv
    rw [hv]
    rfl

theorem unframe_cases (t : Transform) (c : Bytes) :
    (∃ v c', t.unframe c = .ret (v, c')) ∨ ∃ e, t.unframe c = .fail e := by
  unfold unframe extractVersion
  split
  · split
    · exact .inr ⟨_, rfl⟩
    · split
      · exact .inr ⟨_, rfl⟩
      · exact .inl ⟨_, _, rfl⟩
  · exact .inl ⟨_, _, rfl⟩

theorem unframe_framed {t t' : Transform} (hrot : t.isDekRotated = t'.isDekRotated) {version : Nat}
    {ciphertext : Bytes}
    (hfit : t.isDekRotated → FitsBytes 4 version) :
    t'.unframe (framed t version ciphertext) =
      .ret (if t.isDekRotated then some (version : Int) else none, ciphertext) := by
  unfold unframe framed
  rw [hrot] at hfit ⊢
  by_cases h : t'.isDekRotated
  · simp only [h, if_true]
    have htake : ((MAGIC_BYTE_V0 ++ bytesBE 4 (unsigned 4 version) ++ ciphertext).take 5).drop 1 =
        bytesBE 4 (unsigned 4 version) := by
      rw [List.take_append_of_le_length (by simp [MAGIC_BYTE_V0]), List.take_of_length_le (by simp [MAGIC_BYTE_V0])]
      rfl
    have hread : signed 4 (natBE (bytesBE 4 (unsigned 4 (version : Int)))) = version := by
      rw [natBE_bytesBE, Nat.mod_eq_of_lt (unsigned_lt 4 _), signed_unsigned (hfit h)]
    have hextract : extractVersion (MAGIC_BYTE_V0 ++ bytesBE 4 (unsigned 4 version) ++ ciphertext) = .ret
      (version : Int) := by
      unfold extractVersion
      rw [if_neg (by simp [MAGIC_BYTE_V0]), htake, if_neg (by simp), hread]
      rfl
    rw [hextract]
    rfl
  · simp only [h, Bool.false_eq_true, if_false]
    rfl

theorem KeyOf.same (hw : DekInv cr objects w) {d d' : Dek} {key key' : Bytes} (h : KeyOf cr objects w d key)
    (h' : KeyOf cr objects w d' key') (hn : d.kekName = d'.kekName) (hs : d.subject = d'.subject)
    (ha : d.algorithm = d'.algorithm) (hv : d.version = d'.version) : key = key' := by
  obtain ⟨r, hr, hrd, hk⟩ := h
  obtain ⟨r', hr', hrd', hk'⟩ := h'
  rw [hrd, hrd'] at hn hs ha hv
  have hfound := (hw.records r hr).found
  have hfound' := (hw.records r' hr').found
  change r.kekName = r'.kekName at hn
  change r.subject = r'.subject at hs
  change r.algorithm = r'.algorithm at ha
  change r.version = r'.version at hv
  rw [hn, hs, ha, hv, hfound'] at hfound
  obtain rfl := Option.some.inj hfound
  exact hk.unique hk'

theorem decrypt_does (f : DekFormat) (key ciphertext : Bytes) : Does cr objects X
    (answer fun o _ _ => o = (cr.fromBinary f key).bind fun rawKey => cr.aeadDecrypt f rawKey ciphertext)
    (call (.decrypt f key ciphertext)) w tr :=
  does_call (.decrypt f key ciphertext) (by simp) (fun _ _ => trivial) fun _ _ _ _ _ => rfl

theorem asks_read {t : Transform} (hmode : t.ruleMode = .read) (version : Option Int) :
    Asks t (t.dekId version) := by
  refine ⟨rfl, rfl, rfl, ?_, fun h => absurd hmode h⟩
  unfold dekId
  split
  · simp
  · next h => exact h

/-- What the reader takes off the value: the ciphertext, and the version to ask for. -/
theorem Written.unframe (hw : DekInv cr objects w) {t t' : Transform} {fieldType : FieldType} {plaintext : Bytes}
    {v : FieldValue} {d : Dek} {key rawKey ciphertext nonce : Bytes}
    (h : Written cr objects t' fieldType plaintext w v d key rawKey ciphertext nonce) (hm : Matches t' t) :
    ∃ version, t.unframe (framed t' d.version ciphertext) = .ret (version, ciphertext) ∧
      (t.dekId version).version = d.version := by
  obtain ⟨r, hr, hrd, -⟩ := h.keyOf
  have hpos : 1 ≤ d.version := by
    rw [hrd]
    exact (hw.records r hr).pos
  have hversion := h.version
  refine ⟨_, unframe_framed hm.rotated ?_, ?_⟩
  · intro hrot
    rw [if_pos hrot] at hversion
    exact hversion
  · by_cases hrot : t'.isDekRotated
    · simp only [hrot, if_true, dekId, Option.getD_some]
      rw [if_neg (by omega)]
    · rw [if_neg hrot] at hversion
      simp [hrot, dekId, hversion]

theorem Written.not_missing {t t' : Transform} {fieldType : FieldType} {plaintext : Bytes}
    {v : FieldValue} {d : Dek} {key rawKey ciphertext nonce : Bytes}
    (h : Written cr objects t' fieldType plaintext w v d key rawKey ciphertext nonce) (hm : Matches t' t)
    {version : Option Int}
    (hv : (t.dekId version).version = d.version) : ¬Missing w (t.dekId version) := by
  intro hmiss
  obtain ⟨r, hr, hrd, -⟩ := h.keyOf
  have hn := h.kekName
  have hs := h.subject
  have ha := h.algorithm
  rw [hrd] at hn hs ha hv
  apply (hmiss r (mem_versionsOf.mpr ⟨hr, hn.trans hm.kekName, hs.trans hm.subject, ha.trans hm.dekFormat⟩)).2
  rw [hv]
  rfl

theorem read_does (t : Transform) (ht : Owned objects t) (hmode : t.ruleMode = .read) (fieldType : FieldType)
    (v : FieldValue) (hinv : DekInv cr objects w) : Does cr objects X
    (fun r _ tr' => Inverts cr → HasKmsKeys objects t → ∀ t' plaintext, Matches t' t →
      WrittenValue cr objects t' fieldType plaintext w v → NoFailure tr' → r = .ok (toObject fieldType plaintext))
    (t.read fieldType v) w tr := by
  unfold Transform.read
  cases hc : ciphertextOf fieldType v with
  | none =>
    apply does_pure
    rintro w₁ h₁ hcr hkmsKeys t' plaintext hm ⟨d, key, rawKey, ciphertext, nonce, hw⟩ hn
    rw [hw.ciphertextOf] at hc
    cases hc
  | some c =>
    apply Ensures.bind
    have hunframe := unframe_cases t c
    cases hunframe with
    | inr h =>
      obtain ⟨e, he⟩ := h
      rw [he]
      rintro w₁ h₁ hcr hkmsKeys t' plaintext hm ⟨d, key, rawKey, ciphertext, nonce, hw⟩ hn
      obtain ⟨version, hu, -⟩ := hw.unframe hinv hm
      rw [hw.ciphertextOf] at hc
      rw [← Option.some.inj hc, hu] at he
      cases he
    | inl h =>
      obtain ⟨version, ciphertext, hu⟩ := h
      rw [hu]
      intro w₁ h₁
      -- what the value says of the version and of the ciphertext, if it was written
      have hparts : ∀ {t' plaintext d key rawKey ciphertext' nonce}, Matches t' t →
          Written cr objects t' fieldType plaintext w v d key rawKey ciphertext' nonce →
          ciphertext' = ciphertext ∧ (t.dekId version).version = d.version := by
        intro t' plaintext d key rawKey ciphertext' nonce hm hw
        obtain ⟨version', hu', hv⟩ := hw.unframe hinv hm
        rw [hw.ciphertextOf] at hc
        rw [← Option.some.inj hc, hu'] at hu
        obtain ⟨rfl, rfl⟩ := Prod.mk.inj (Prog.ret.inj hu)
        exact ⟨rfl, hv⟩
      apply seq (getOrCreateDek_does t ht (asks_read hmode version))
      · rintro d' w₂ tr₂ h₂ _ ⟨hhas, hans, hcell, -, -⟩
        apply seq (keyMaterial_does hhas)
        · rintro o w₃ tr₃ h₃ _ ⟨-, -, hmaterial⟩
          -- the object read stands for the version that was written under
          have hkeys : ∀ {t' plaintext d key rawKey ciphertext' nonce k}, Matches t' t →
              Written cr objects t' fieldType plaintext w v d key rawKey ciphertext' nonce →
                KeyOf cr objects w₃ d' k → key = k := by
            intro t' plaintext d key rawKey ciphertext' nonce k hm hw hk
            have hv := (hparts hm hw).2
            have hpos : (t.dekId version).version ≠ -1 := by rw [hv]; omega
            have hkey₃ := (h₁.trans (h₂.trans h₃)).1.keyOf hw.keyOf
            apply hkey₃.same h₃.2 hk
            · rw [hw.kekName, hans.kekName, hm.kekName]; rfl
            · rw [hw.subject, hans.subject, hm.subject]; rfl
            · rw [hw.algorithm, hans.algorithm, hm.dekFormat]; rfl
            · have := hans.version hpos
              rw [hv] at this
              exact_mod_cast this.symm
          cases o with
          | none =>
            apply Ensures.bind
            apply does_throw
            rintro w₄ h₄ hcr - t' plaintext hm ⟨d, key, rawKey, ciphertext', nonce, hw⟩ hn
            exact absurd (hkeys hm hw ((hmaterial hcr).2 rfl hcell)) hw.ne_nil
          | some key' =>
            apply Ensures.bind
            apply does_pure
            intro w₄ h₄
            apply seq (decrypt_does t.dekFormat key' ciphertext)
            · rintro o w₅ tr₅ h₅ _ ho
              have hplain : Inverts cr → ∀ t' plaintext, Matches t' t →
                WrittenValue cr objects t' fieldType plaintext w v →
                  o = some plaintext := by
                rintro hcr t' plaintext hm ⟨d, key, rawKey, ciphertext', nonce, hw⟩
                obtain rfl := hkeys hm hw ((hmaterial hcr).1 key' rfl).1
                obtain ⟨rfl, -⟩ := hparts hm hw
                have hraw := hw.fromBinary
                have henc := hcr.aead _ _ _ _ _ hw.encrypted
                rw [hm.dekFormat] at hraw henc
                rw [ho, hraw, Option.bind_some, henc]
              cases o with
              | none =>
                apply Ensures.bind
                apply does_throw
                intro w₆ h₆ hcr _ t' plaintext hm hw hn
                cases hplain hcr t' plaintext hm hw
              | some p =>
                apply Ensures.bind
                apply does_pure
                intro w₆ h₆
                apply does_pure
                intro w₇ h₇ hcr _ t' plaintext hm hw hn
                obtain rfl := Option.some.inj (hplain hcr t' plaintext hm hw)
                rfl
            · exact fun _ _ _ _ _ h => h.elim
        · exact fun _ _ _ _ _ h => h.elim
      · rintro e w₂ tr₂ h₂ _ herr hcr hkmsKeys t' plaintext hm ⟨d, key, rawKey, ciphertext', nonce, hw⟩ hn
        have hmiss := (herr hmode hcr hkmsKeys hn ((hm.ready hw.ready).later h₁.1)).before h₁.1
        exact absurd hmiss (hw.not_missing hm (hparts hm hw).2)

/-- No transform breaks what the others rely on, and nothing is encrypted but with a DEK that meets `X`. -/
theorem transform_does (t : Transform) (ht : Owned objects t)
    (hX : t.ruleMode = .write → ∀ d tr, (0 < t.dekExpiryDays → OkTrace RotationOk tr → Evidence t d tr) → X d tr)
    (fieldType : FieldType) (fieldValue : FieldValue) (hw : DekInv cr objects w) :
    Does cr objects X (fun _ _ _ => True) (t.transform fieldType fieldValue) w tr := by
  unfold transform
  by_cases hnull : fieldValue = .null
  · rw [if_pos hnull]
    exact does_pure fun _ _ => trivial
  · rw [if_neg hnull]
    cases hmode : t.ruleMode with
    | write => exact (write_does t ht (by simp [hmode]) _ _ (hX hmode)).mono fun _ _ _ _ => trivial
    | read => exact (read_does t ht hmode _ _ hw).mono fun _ _ _ _ => trivial
    | upgrade => exact does_throw fun _ _ => trivial
    | downgrade => exact does_throw fun _ _ => trivial
    | updown => exact does_throw fun _ _ => trivial
    | writeread => exact does_throw fun _ _ => trivial

def TransformCall.transform (c : TransformCall) (objects : Nat → Transform) : Transform :=
  { objects c.object with object := c.object }

theorem owned_call (c : TransformCall) : Owned objects (c.transform objects) := rfl

theorem transforms_guarantee (cr : Crypto) (objects : Nat → Transform) :
    System.Guarantee (transforms cr objects) (dekContract cr objects fun _ _ => True) where
  start c _ hw := transform_does (c.transform objects) (owned_call c) (fun _ _ _ _ => trivial) _ _ hw.2
  exec i op _ _ hw hp := exec_rely hw.2 i op hp.1
  env e _ hw := evict_rely hw.2 e

end Transforms

def DekWorld.start (keks : List ((String × Option String) × Kek)) : DekWorld where
  registry := { keks, deks := [] }
  clients _ := { kekCache := JsMap.empty, dekCache := JsMap.empty, cells := [] }
  thisKek _ := none

theorem start_inv (cr : Crypto) (objects : Nat → Transform) (keks : List ((String × Option String) × Kek)) :
    DekInv cr objects (DekWorld.start keks) := by
  refine ⟨?_, ?_, ?_, ?_, ?_⟩ <;> simp [DekWorld.start]

end ConfluentKafka
