import ConfluentKafka.DekCalls

/-!
# What the executor's functions ensure

One specification for each function of the executor, under any interference that keeps the
invariant. An error is either the failure of a request, which the trace shows, or it says
something about the registry. `X` is what has to be known of a DEK when something is encrypted
with it.
-/

namespace ConfluentKafka

open Transform

def dekContract (cr : Crypto) (objects : Nat → Transform) (X : Dek → List DekEvent → Prop) :
    Contract DekOp DekWorld DekEvent where
  rely := DekRely cr objects
  refl h := h.2.rely
  trans h₁ h₂ := h₁.trans h₂
  pre op w tr := DekPre cr objects op w ∧ ∀ d f k p, op = .encrypt d f k p → X d tr

def post {α : Type} (ok : α → DekWorld → List DekEvent → Prop) (error : DekWorld → List DekEvent → Prop) :
    Except EncryptError α → DekWorld → List DekEvent → Prop
  | .ok a => ok a
  | .error _ => error

def NoFailure (tr : List DekEvent) : Prop := ∀ s, DekEvent.failed s ∉ tr

theorem not_noFailure {tr : List DekEvent} {s : Option Nat} (h : DekEvent.failed s ∈ tr) : ¬NoFailure tr :=
  fun hn => hn s h

theorem NoFailure.before {tr tr' : List DekEvent} (h : NoFailure tr') (hp : tr <+: tr') : NoFailure tr :=
  fun s hs => h s (hp.subset hs)

section Specs

variable {cr : Crypto} {objects : Nat → Transform} {X : Dek → List DekEvent → Prop} {α β : Type} {w : DekWorld}
  {tr : List DekEvent}

abbrev Does (cr : Crypto) (objects : Nat → Transform) (X : Dek → List DekEvent → Prop)
    (Q : Except EncryptError α → DekWorld → List DekEvent → Prop) (p : EncryptProg α) (w : DekWorld)
    (tr : List DekEvent) : Prop :=
  Ensures (dekMachine cr) (dekContract cr objects X) Q p w tr

theorem seq {p : EncryptProg α} {f : α → EncryptProg β} {P : Except EncryptError α → DekWorld →
    List DekEvent → Prop}
    {Q : Except EncryptError β → DekWorld → List DekEvent → Prop} (h : Does cr objects X P p w tr)
    (hok : ∀ a w' tr', DekRely cr objects w w' → tr <+: tr' → P (.ok a) w' tr' → Does cr objects X Q (f a) w' tr')
    (herr : ∀ e w' tr', DekRely cr objects w w' → tr <+: tr' → P (.error e) w' tr' → Q (.error e) w' tr') :
    Does cr objects X Q (p >>= f) w tr := by
  apply Ensures.seq (K := dekContract cr objects X) _ h hok herr
  intro i op w tr hw hp
  exact exec_rely hw.2 i op hp.1

theorem does_since {p : EncryptProg α} {Q : Except EncryptError α → DekWorld → List DekEvent → Prop}
    (h : Does cr objects X Q p w tr) :
    Does cr objects X (fun r w' tr' => DekRely cr objects w w' ∧ tr <+: tr' ∧ Q r w' tr') p w tr := by
  apply Ensures.since (K := dekContract cr objects X) _ h
  intro i op w tr hw hp
  exact exec_rely hw.2 i op hp.1

theorem does_pure {Q : Except EncryptError α → DekWorld → List DekEvent → Prop} {a : α}
    (h : ∀ w', DekRely cr objects w w' → Q (.ok a) w' tr) : Does cr objects X Q (pure a) w tr :=
  fun w' hw' => h w' hw'

theorem does_throw {Q : Except EncryptError α → DekWorld → List DekEvent → Prop} {e : EncryptError}
    (h : ∀ w', DekRely cr objects w w' → Q (.error e) w' tr) : Does cr objects X Q (throw e) w tr :=
  fun w' hw' => h w' hw'

theorem does_call (op : DekOp) (hop : ∀ d f k p, op ≠ .encrypt d f k p)
    {Q : Except EncryptError op.Ans → DekWorld → List DekEvent → Prop}
    (hpre : ∀ w', DekRely cr objects w w' → DekPre cr objects op w')
    (h : ∀ w' i w'', DekRely cr objects w w' → DekRely cr objects (op.exec cr i w').2 w'' →
      Q (.ok (op.exec cr i w').1) w'' (tr ++ [op.event cr i w'])) : Does cr objects X Q (call op) w tr := by
  apply ensures_lift
  intro w' hw'
  refine ⟨⟨hpre w' hw', fun d f k p he => absurd he (hop d f k p)⟩, fun i w'' hw'' => ?_⟩
  exact h w' i w'' hw' hw''

def answer {α : Type} (ok : α → DekWorld → List DekEvent → Prop) :
    Except EncryptError α → DekWorld → List DekEvent → Prop :=
  post ok fun _ _ => False

/-! ## The KEK -/

theorem getKek_does (c : Nat) (id : KekId) : Does cr objects X
    (answer fun o w' tr' => (∃ kek, o = .ok kek ∧ w'.registry.kek? id.name id.context = some kek) ∨
      (o = .notFound ∧ w.registry.kek? id.name id.context = none) ∨ ∃ s, o = .failed s ∧ .failed s ∈ tr')
    (call (.getKek c id)) w tr := by
  apply does_call (.getKek c id) (by simp) (fun _ _ => trivial)
  intro w₁ i w₂ h₁ h₂
  obtain ⟨hrel, ⟨kek, ho, hk⟩ | ⟨ho, hk⟩ | ⟨s, ho⟩⟩ := getKek_cases (c := c) h₁.2 i id
  · exact .inl ⟨kek, ho, (hrel.trans h₂).1.keks _ _ _ hk⟩
  · refine .inr (.inl ⟨ho, ?_⟩)
    by_contra hn
    obtain ⟨kek, hkek⟩ := Option.ne_none_iff_exists'.mp hn
    rw [h₁.1.keks _ _ _ hkek] at hk
    cases hk
  · refine .inr (.inr ⟨s, ho, ?_⟩)
    simp [DekOp.event, ho, Outcome.event]

theorem retrieveKek_does (t : Transform) (id : KekId) : Does cr objects X
    (post (fun k w' tr' => (∀ kek, k = some kek → w'.registry.kek? id.name id.context = some kek) ∧
        (k = none → NoFailure tr' → w.registry.kek? id.name id.context = none))
      fun _ tr' => ¬NoFailure tr') (t.retrieveKekFromRegistry id) w tr := by
  apply seq (getKek_does t.client id)
  · rintro o w₁ tr₁ h₁ htr (⟨kek, rfl, hk⟩ | ⟨rfl, hk⟩ | ⟨s, rfl, hs⟩)
    · apply does_pure
      intro w₂ h₂
      refine ⟨fun kek' he => ?_, by simp⟩
      obtain rfl : kek = kek' := Option.some.inj he
      exact h₂.1.keks _ _ _ hk
    · apply does_pure
      exact fun w₂ h₂ => ⟨by simp, fun _ _ => hk⟩
    · by_cases h404 : s = some 404
      · simp only [Outcome.status, h404, if_true]
        apply does_pure
        exact fun w₂ h₂ => ⟨by simp, fun _ hn => absurd hn (not_noFailure hs)⟩
      · simp only [Outcome.status, h404, if_false]
        apply does_throw
        exact fun w₂ h₂ => not_noFailure hs
  · exact fun _ _ _ _ _ h => h.elim

theorem registerKek_does (c : Nat) (name kmsType kmsKeyId : String) (shared : Bool) (context : Option String) :
    Does cr objects X (answer fun o w' _ => ∀ kek, o = .ok kek → w'.registry.kek? name context = some kek)
      (call (.registerKek c name kmsType kmsKeyId shared context)) w tr := by
  apply does_call (.registerKek c name kmsType kmsKeyId shared context) (by simp) (fun _ _ => trivial)
  intro w₁ i w₂ h₁ h₂ kek ho
  exact h₂.1.keks _ _ _ ((registerKek_cases h₁.2 i name kmsType kmsKeyId shared context).2 kek ho)

theorem storeKek_does (t : Transform) (id : KekId) (kmsType kmsKeyId : String) (shared : Bool) : Does cr objects X
    (post (fun k w' _ => ∀ kek, k = some kek → w'.registry.kek? id.name id.context = some kek) fun _ _ => True)
    (t.storeKekToRegistry id kmsType kmsKeyId shared) w tr := by
  apply seq (registerKek_does t.client id.name kmsType kmsKeyId shared id.context)
  · intro o w₁ tr₁ h₁ htr hk
    have hother : ∀ s : Option Nat, Does cr objects X
        (post (fun k w' _ => ∀ kek, k = some kek → w'.registry.kek? id.name id.context = some kek) fun _ _ => True)
        (if s = some 409 then pure none else throw (.ruleErrorFor ("could not register kek " ++ id.name) s)) w₁
          tr₁ := by
      intro s
      by_cases hs : s = some 409
      · rw [if_pos hs]
        apply does_pure
        intro w₂ _ kek he
        cases he
      · rw [if_neg hs]
        exact does_throw fun _ _ => trivial
    cases o with
    | ok kek =>
      apply does_pure
      intro w₂ h₂ kek' he
      obtain rfl : kek = kek' := Option.some.inj he
      exact h₂.1.keks _ _ _ (hk kek rfl)
    | notFound => exact hother _
    | conflict => exact hother _
    | failed s => exact hother s
  · exact fun _ _ _ _ _ h => h.elim

theorem createKek_does (t : Transform) : Does cr objects X
    (post (fun kek w' _ => w'.registry.kek? t.kekName (contextFor t.subject) = some kek) fun _ _ => True)
    t.createKek w tr := by
  unfold createKek
  by_cases h₁ : t.ruleMode = .read
  · rw [if_pos h₁]
    exact does_throw fun _ _ => trivial
  by_cases h₂ : t.kmsType.getD "" = ""
  · rw [if_neg h₁, if_pos h₂]
    exact does_throw fun _ _ => trivial
  by_cases h₃ : t.kmsKeyId.getD "" = ""
  · rw [if_neg h₁, if_neg h₂, if_pos h₃]
    exact does_throw fun _ _ => trivial
  rw [if_neg h₁, if_neg h₂, if_neg h₃]
  apply seq (storeKek_does t t.kekId _ _ false)
  · intro k w₁ tr₁ _ _ hk
    cases k with
    | some kek =>
      apply does_pure
      exact fun w₂ h₂ => h₂.1.keks _ _ _ (hk kek rfl)
    | none =>
      apply seq (retrieveKek_does t t.kekId)
      · intro k w₂ tr₂ _ _ hk'
        cases k with
        | some kek =>
          apply does_pure
          exact fun w₃ h₃ => h₃.1.keks _ _ _ (hk'.1 kek rfl)
        | none => exact does_throw fun _ _ => trivial
      · exact fun _ _ _ _ _ _ => trivial
  · exact fun _ _ _ _ _ _ => trivial

theorem checkKek_does (t : Transform) {kek : Kek} {Q : Except EncryptError Kek → DekWorld → List DekEvent → Prop}
    (hok : ∀ w', DekRely cr objects w w' → t.Agrees kek → Q (.ok kek) w' tr)
    (herr : ∀ e w', DekRely cr objects w w' → ¬t.Agrees kek → Q (.error e) w' tr) :
    Does cr objects X Q (t.checkKek kek) w tr := by
  unfold checkKek
  by_cases h₁ : (t.kmsType.getD "") ≠ "" ∧ t.kmsType ≠ some kek.kmsType
  · rw [if_pos h₁]
    exact does_throw fun w' h => herr _ w' h fun ha => ha.1.elim h₁.1 h₁.2
  by_cases h₂ : (t.kmsKeyId.getD "") ≠ "" ∧ t.kmsKeyId ≠ some kek.kmsKeyId
  · rw [if_neg h₁, if_pos h₂]
    exact does_throw fun w' h => herr _ w' h fun ha => ha.2.elim h₂.1 h₂.2
  rw [if_neg h₁, if_neg h₂]
  apply does_pure
  intro w' h
  refine hok w' h ⟨?_, ?_⟩
  · by_contra hn
    exact h₁ (not_or.mp hn)
  · by_contra hn
    exact h₂ (not_or.mp hn)

def KekReady (t : Transform) (w : DekWorld) : Prop :=
  ∃ kek, w.registry.kek? t.kekName (contextFor t.subject) = some kek ∧ t.Agrees kek

theorem getOrCreateKek_does (t : Transform) : Does cr objects X
    (post (fun kek w' _ => w'.registry.kek? t.kekName (contextFor t.subject) = some kek ∧ t.Agrees kek)
      fun _ tr' => NoFailure tr' → ¬KekReady t w) t.getOrCreateKek w tr := by
  apply seq (retrieveKek_does t t.kekId)
  · rintro k w₁ tr₁ h₁ _ ⟨hsome, hnone⟩
    cases k with
    | some kek =>
      have hkek := hsome kek rfl
      apply checkKek_does
      · exact fun w₂ h₂ ha => ⟨h₂.1.keks _ _ _ hkek, ha⟩
      · rintro e w₂ h₂ hna - ⟨kek', hkek', ha⟩
        obtain rfl : kek = kek' := Option.some.inj (hkek.symm.trans (h₁.1.keks _ _ _ hkek'))
        exact hna ha
    | none =>
      have hready : NoFailure tr₁ → ¬KekReady t w := by
        rintro hn ⟨kek, hkek, -⟩
        have := hnone rfl hn
        rw [show w.registry.kek? t.kekId.name t.kekId.context = some kek from hkek] at this
        cases this
      apply seq (createKek_does t)
      · intro kek w₂ tr₂ _ htr hkek
        apply checkKek_does
        · exact fun w₃ h₃ ha => ⟨h₃.1.keks _ _ _ hkek, ha⟩
        · exact fun e w₃ h₃ _ hn => hready (hn.before htr)
      · exact fun e w₂ tr₂ _ htr _ hn => hready (hn.before htr)
  · exact fun e w₁ tr₁ _ _ h hn => absurd hn h

def Owned (objects : Nat → Transform) (t : Transform) : Prop := t = { objects t.object with object := t.object }

theorem getKek_ensures (t : Transform) (ht : Owned objects t) : Does cr objects X
    (post (fun kek w' _ => w'.registry.kek? t.kekName (contextFor t.subject) = some kek ∧ t.Agrees kek)
      fun _ tr' => NoFailure tr' → ¬KekReady t w) t.getKek w tr := by
  have hname : (objects t.object).kekName = t.kekName := by rw [ht]
  have hsubject : (objects t.object).subject = t.subject := by rw [ht]
  have hagrees : ∀ kek, (objects t.object).Agrees kek ↔ t.Agrees kek := by
    intro kek
    rw [ht]
    rfl
  have hthis : Does cr objects X (answer fun k w' _ => ∀ kek, k = some kek →
      w'.registry.kek? t.kekName (contextFor t.subject) = some kek ∧ t.Agrees kek)
        (call (.thisKek t.object)) w tr := by
    apply does_call (.thisKek t.object) (by simp) (fun _ _ => trivial)
    intro w₁ i w₂ h₁ h₂ kek hk
    have := h₁.2.thisKek t.object kek hk
    rw [hname, hsubject, hagrees] at this
    exact ⟨h₂.1.keks _ _ _ this.1, this.2⟩
  apply seq hthis
  · intro k w₁ tr₁ h₁ _ hk
    cases k with
    | some kek =>
      apply does_pure
      exact fun w₂ h₂ => ⟨h₂.1.keks _ _ _ (hk kek rfl).1, (hk kek rfl).2⟩
    | none =>
      apply seq (getOrCreateKek_does t)
      · rintro kek w₂ tr₂ _ _ ⟨hkek, ha⟩
        have hset : Does cr objects X (answer fun _ w' _ =>
            w'.registry.kek? t.kekName (contextFor t.subject) = some kek)
              (call (.setThisKek t.object kek)) w₂ tr₂ := by
          apply does_call (.setThisKek t.object kek) (by simp)
          · intro w₃ h₃
            refine ⟨?_, (hagrees kek).mpr ha⟩
            rw [hname, hsubject]
            exact h₃.1.keks _ _ _ hkek
          · intro w₃ i w₄ h₃ h₄
            exact h₄.1.keks _ _ _ (h₃.1.keks _ _ _ hkek)
        apply seq hset
        · intro _ w₃ tr₃ _ _ hkek'
          apply does_pure
          exact fun w₄ h₄ => ⟨h₄.1.keks _ _ _ hkek', ha⟩
        · exact fun _ _ _ _ _ h => h.elim
      · rintro e w₂ tr₂ _ _ h hn ⟨kek, hkek, ha⟩
        exact h hn ⟨kek, h₁.1.keks _ _ _ hkek, ha⟩
  · exact fun _ _ _ _ _ h => h.elim

/-! ## The KMS -/

theorem kmsEncrypt_does (url : String) (rawKey : Bytes) : Does cr objects X
    (answer fun o _ _ => ∀ b, o = some b → ∃ nonce, b = cr.kmsEncrypt url nonce rawKey)
    (call (.kmsEncrypt url rawKey)) w tr := by
  apply does_call (.kmsEncrypt url rawKey) (by simp) (fun _ _ => trivial)
  intro w₁ i w₂ _ _ b hb
  simp only [DekOp.exec, kmsRequest] at hb
  split at hb
  · exact ⟨i.nonce, (Option.some.inj hb).symm⟩
  · cases hb

theorem kmsEncryptWith_does (kek : Kek) (rawKey : Bytes) (ids : List String) : Does cr objects X
    (post (fun b _ _ => ∃ id ∈ ids, ∃ nonce, b = cr.kmsEncrypt (keyUrl kek id) nonce rawKey) fun _ _ => True)
    (kmsEncryptWith kek rawKey ids) w tr := by
  induction ids generalizing w tr with
  | nil => exact does_throw fun _ _ => trivial
  | cons id ids ih =>
    apply seq (kmsEncrypt_does (keyUrl kek id) rawKey)
    · intro o w₁ tr₁ _ _ ho
      cases o with
      | some b =>
        apply does_pure
        intro w₂ _
        obtain ⟨nonce, hb⟩ := ho b rfl
        exact ⟨id, by simp, nonce, hb⟩
      | none =>
        cases ids with
        | nil => exact does_throw fun _ _ => trivial
        | cons id' ids =>
          apply ih.mono
          intro r w₂ tr₂ hr
          cases r with
          | error e => trivial
          | ok b =>
            obtain ⟨id'', hid, hb⟩ := hr
            exact ⟨id'', List.mem_cons_of_mem _ hid, hb⟩
    · exact fun _ _ _ _ _ _ => trivial

theorem kmsDecrypt_does (url : String) (encryptedKey : Bytes) : Does cr objects X
    (answer fun o _ tr' => (∀ b, o = some b → cr.kmsDecrypt url encryptedKey = some b) ∧
      (o = none → NoFailure tr' → cr.kmsDecrypt url encryptedKey = none))
    (call (.kmsDecrypt url encryptedKey)) w tr := by
  apply does_call (.kmsDecrypt url encryptedKey) (by simp) (fun _ _ => trivial)
  intro w₁ i w₂ _ _
  simp only [answer, post, DekOp.exec, DekOp.event, kmsRequest]
  cases i.delivery with
  | delivered => exact ⟨fun b hb => hb, fun hn _ => hn⟩
  | refused s => exact ⟨by simp, fun _ hn => absurd hn (not_noFailure (s := none) (by simp))⟩
  | lost s => exact ⟨by simp, fun _ hn => absurd hn (not_noFailure (s := none) (by simp))⟩

theorem kmsDecryptWith_does (kek : Kek) (encryptedKey : Bytes) (ids : List String) : Does cr objects X
    (post (fun b _ _ => ∃ id ∈ ids, cr.kmsDecrypt (keyUrl kek id) encryptedKey = some b)
      fun _ tr' => NoFailure tr' → ∀ id ∈ ids, cr.kmsDecrypt (keyUrl kek id) encryptedKey = none)
    (kmsDecryptWith kek encryptedKey ids) w tr := by
  induction ids generalizing w tr with
  | nil => exact does_throw fun _ _ _ => by simp
  | cons id ids ih =>
    apply seq (kmsDecrypt_does (keyUrl kek id) encryptedKey)
    · rintro o w₁ tr₁ _ _ ⟨hsome, hnone⟩
      cases o with
      | some b =>
        apply does_pure
        exact fun w₂ _ => ⟨id, by simp, hsome b rfl⟩
      | none =>
        have hid := hnone rfl
        cases ids with
        | nil =>
          apply does_throw
          intro w₂ _ hn id' hid'
          rw [List.mem_singleton.mp hid']
          exact hid hn
        | cons id' ids =>
          apply (does_since ih).mono
          rintro r w₂ tr₂ ⟨-, htr, hr⟩
          cases r with
          | ok b =>
            obtain ⟨id'', hid'', hb⟩ := hr
            exact ⟨id'', List.mem_cons_of_mem _ hid'', hb⟩
          | error e =>
            intro hn id'' hid''
            obtain rfl | hid'' := List.mem_cons.mp hid''
            · exact hid (hn.before htr)
            · exact hr hn id'' hid''
    · exact fun _ _ _ _ _ h => h.elim

/-! ## The DEK -/

def Missing (w : DekWorld) (id : DekId) : Prop :=
  ∀ r ∈ w.registry.versionsOf id.kekName id.subject id.algorithm, id.version ≠ -1 ∧ (r.version : Int) ≠ id.version

theorem missing_of_dek? (h : DekInv cr objects w) {id : DekId}
    (hn : w.registry.dek? id.kekName id.subject id.algorithm id.version = none) : Missing w id := by
  intro r hr
  have hfound := (h.records r (mem_versionsOf.mp hr).1)
  have hv : w.registry.version? id.kekName id.subject id.algorithm r.version = some r := by
    obtain ⟨-, h₁, h₂, h₃⟩ := mem_versionsOf.mp hr
    rw [← h₁, ← h₂, ← h₃]
    exact hfound.found
  have hpos := hfound.pos
  constructor
  · intro he
    obtain ⟨n, hnew, hle⟩ := le_newest hr
    obtain ⟨⟨r', hr', rfl⟩, -⟩ := newest_eq_some.mp hnew
    rw [DekRegistry.dek?, if_pos he, hnew, Option.bind_some, DekRegistry.version?, List.find?_eq_none] at hn
    exact hn r' hr' (by simp)
  · intro he
    rw [DekRegistry.dek?, if_neg (by omega), if_pos (by omega), ← he, Int.toNat_natCast, hv] at hn
    cases hn

theorem Missing.before {w' : DekWorld} {id : DekId} (h : Missing w' id) (hg : Grows w w') : Missing w id := by
  intro r hr
  obtain ⟨hmem, hs⟩ := mem_versionsOf.mp hr
  exact h r (mem_versionsOf.mpr ⟨hg.deks r hmem, hs⟩)

/-- The trace ends with the answer that gave the DEK, no older than the registry's newest version then
unless it came from the cache. -/
def EndsWith (tr₀ tr : List DekEvent) (d : Dek) : Prop :=
  ∃ cached n, tr = tr₀ ++ [.answer d cached (some n)] ∧ d.version ≤ n ∧ (cached = false → n = d.version)

theorem exists_newest {c : Nat} (h : DekInv cr objects w) {d : Dek} (hd : w.Has c d) :
    ∃ n, w.registry.newest d.kekName d.subject d.algorithm = some n ∧ d.version ≤ n := by
  obtain ⟨r, hr, hrd⟩ := has_record h hd
  rw [hrd]
  exact le_newest (mem_versionsOf.mpr ⟨hr, rfl, rfl, rfl⟩)

theorem getDek_does (c : Nat) (id : DekId) : Does cr objects X
    (answer fun o w' tr' => (∃ d, o = .ok d ∧ w'.Has c d ∧ Answers id d ∧
      (∃ cached n, tr' = tr ++ [.answer d cached n]) ∧
        (id.version = -1 → EndsWith tr tr' d)) ∨
      (o = .notFound ∧ Missing w id) ∨ ∃ s, o = .failed s ∧ .failed s ∈ tr')
    (call (.getDek c id)) w tr := by
  apply does_call (.getDek c id) (by simp) (fun _ _ => trivial)
  intro w₁ i w₂ h₁ h₂
  obtain ⟨hrel, ⟨d, ho, hgot⟩ | ⟨ho, hn⟩ | ⟨s, ho⟩⟩ := getDek_cases (c := c) h₁.2 i id
  · obtain ⟨n, hn, hle⟩ := exists_newest hrel.2 hgot.has
    have hev : DekOp.event cr i (.getDek c id) w₁ = .answer d ((w₁.clients c).dekCache.has id) (some n) := by
      simp only [DekOp.event, dekEvent, ho, Outcome.event, hn]
    refine .inl ⟨d, ho, h₂.1.has hgot.has, hgot.answers, ⟨_, _, by rw [hev]⟩, fun hv => ?_⟩
    refine ⟨(w₁.clients c).dekCache.has id, n, by rw [hev], hle, fun hc => ?_⟩
    rw [hgot.newest hc hv] at hn
    exact (Option.some.inj hn).symm
  · exact .inr (.inl ⟨ho, (missing_of_dek? h₁.2 hn).before h₁.1⟩)
  · refine .inr (.inr ⟨s, ho, ?_⟩)
    simp [DekOp.event, dekEvent, ho, Outcome.event]

theorem retrieveDek_does (t : Transform) (id : DekId) (hid : id.version ≠ 0) : Does cr objects X
    (post (fun d? w' tr' =>
        (∀ d, d? = some d → w'.Has t.client d ∧ Answers id d ∧ (∃ cached n, tr' = tr ++ [.answer d cached n]) ∧
          (id.version = -1 → EndsWith tr tr' d)) ∧
        (d? = none → NoFailure tr' → Missing w id))
      fun _ tr' => ¬NoFailure tr') (t.retrieveDekFromRegistry id) w tr := by
  unfold retrieveDekFromRegistry
  rw [if_neg hid]
  apply seq (getDek_does t.client id)
  · rintro o w₁ tr₁ h₁ htr (⟨d, rfl, hhas, hans, hev, hend⟩ | ⟨rfl, hm⟩ | ⟨s, rfl, hs⟩)
    · apply does_pure
      intro w₂ h₂
      have hsome : d.encryptedKeyMaterial.isSome := by
        obtain ⟨r, -, hrd⟩ := has_record h₁.2 hhas
        rw [hrd]
        rfl
      rw [if_pos hsome]
      refine ⟨fun d' he => ?_, by simp⟩
      obtain rfl : d = d' := Option.some.inj he
      exact ⟨h₂.1.has hhas, hans, hev, hend⟩
    · apply does_pure
      exact fun w₂ h₂ => ⟨by simp, fun _ _ => hm⟩
    · by_cases h404 : s = some 404
      · simp only [Outcome.status, h404, if_true]
        apply does_pure
        exact fun w₂ h₂ => ⟨by simp, fun _ hn => absurd hn (not_noFailure hs)⟩
      · simp only [Outcome.status, h404, if_false]
        apply does_throw
        exact fun w₂ h₂ => not_noFailure hs
  · exact fun _ _ _ _ _ h => h.elim

/-- What is known when a version is created: its KEK, and that it may be. -/
structure ReadyToCreate (cr : Crypto) (objects : Nat → Transform) (w : DekWorld) (id : DekId) (version : Nat)
    (e : Option (List Char)) : Prop where
  kek : ∃ kek, w.registry.kek? id.kekName (contextFor id.subject) = some kek
  may : MayRegister cr objects w.registry id.kekName id.subject id.algorithm version e

theorem ReadyToCreate.later {w' : DekWorld} {id : DekId} {version : Nat} {e : Option (List Char)}
    (h : ReadyToCreate cr objects w id version e) (hg : Grows w w') : ReadyToCreate cr objects w' id version e := by
  obtain ⟨kek, hkek⟩ := h.kek
  exact ⟨⟨kek, hg.keks _ _ _ hkek⟩, hg.mayRegister h.may⟩

theorem registerDek_does (c : Nat) (id : DekId) (version : Nat) (e : Option (List Char))
    (hready : ReadyToCreate cr objects w id version e) : Does cr objects X
    (answer fun o w' tr' =>
      (∃ d, o = .ok d ∧ w'.Has c d ∧ Answers { id with version, deleted := false } d ∧ EndsWith tr tr' d) ∨
      (o = .conflict ∧ ∃ r ∈ w'.registry.versionsOf id.kekName id.subject id.algorithm, r.version = version) ∨
      ∃ s, o = .failed s ∧ .failed s ∈ tr')
    (call (.registerDek c id.kekName id.subject id.algorithm version e)) w tr := by
  apply does_call (.registerDek c id.kekName id.subject id.algorithm version e) (by simp)
  · exact fun w' h => (hready.later h.1).may
  · intro w₁ i w₂ h₁ h₂
    obtain ⟨hrel, hreg⟩ := registerDek_cases (c := c) h₁.2 i (hready.later h₁.1).may
    change DekRely cr objects (w₁.registerDek cr i c id.kekName id.subject id.algorithm version e).2 w₂ at h₂
    simp only [answer, post, DekOp.exec, DekOp.event, dekEvent]
    generalize w₁.registerDek cr i c id.kekName id.subject id.algorithm version e = r at hrel hreg h₂ ⊢
    obtain ⟨o, w₃⟩ := r
    cases hreg with
    | ok hhas hans hnew =>
      rename_i d
      obtain ⟨n, hn, hle⟩ := exists_newest hrel.2 hhas
      refine .inl ⟨d, rfl, h₂.1.has hhas, hans, _, n, by rw [Outcome.event, hn], hle, fun hc => ?_⟩
      have hv : d.version = version := by
        have := hans.version
        simp only [ne_eq, Int.natCast_inj] at this
        exact this (by omega)
      have hnew' := hnew hc
      rw [hans.kekName, hans.subject, hans.algorithm] at hn
      rw [hv]
      exact Option.some.inj (hn.symm.trans hnew')
    | conflict hr hv =>
      obtain ⟨hmem, hs⟩ := mem_versionsOf.mp hr
      exact .inr (.inl ⟨rfl, _, mem_versionsOf.mpr ⟨h₂.1.deks _ hmem, hs⟩, hv⟩)
    | notFound hn =>
      obtain ⟨kek, hkek⟩ := (hready.later (h₁.trans hrel).1).kek
      rw [hkek] at hn
      cases hn
    | failed s => exact .inr (.inr ⟨s, rfl, by simp [Outcome.event]⟩)

theorem storeDek_does (t : Transform) (id : DekId) (newVersion : Option Nat) (encryptedDek : Option Bytes)
    (hready : ReadyToCreate cr objects w id (if newVersion.getD 0 = 0 then 1 else newVersion.getD 0)
      (encryptedDek.map Base64.encode)) : Does cr objects X
    (post (fun d? w' tr' =>
        (∀ d, d? = some d → w'.Has t.client d ∧
          Answers { id with
            version := (if newVersion.getD 0 = 0 then 1 else newVersion.getD 0 : Nat)
            deleted := false } d ∧
          EndsWith tr tr' d) ∧
        (d? = none → NoFailure tr' → ∃ r ∈ w'.registry.versionsOf id.kekName id.subject id.algorithm,
          r.version = if newVersion.getD 0 = 0 then 1 else newVersion.getD 0))
      fun _ tr' => ¬NoFailure tr') (t.storeDekToRegistry id newVersion encryptedDek) w tr := by
  unfold storeDekToRegistry
  dsimp only
  apply seq (registerDek_does t.client id _ _ hready)
  · rintro o w₁ tr₁ h₁ htr (⟨d, rfl, hhas, hans, hend⟩ | ⟨rfl, r, hr, hv⟩ | ⟨s, rfl, hs⟩)
    · apply does_pure
      intro w₂ h₂
      refine ⟨fun d' he => ?_, by simp⟩
      obtain rfl : d = d' := Option.some.inj he
      exact ⟨h₂.1.has hhas, hans, hend⟩
    · simp only [Outcome.status, if_true]
      apply does_pure
      intro w₂ h₂
      obtain ⟨hmem, hsame⟩ := mem_versionsOf.mp hr
      exact ⟨by simp, fun _ _ => ⟨r, mem_versionsOf.mpr ⟨h₂.1.deks r hmem, hsame⟩, hv⟩⟩
    · by_cases h409 : s = some 409
      · simp only [Outcome.status, h409, if_true]
        apply does_pure
        exact fun w₂ h₂ => ⟨by simp, fun _ hn => absurd hn (not_noFailure hs)⟩
      · simp only [Outcome.status, h409, if_false]
        apply does_throw
        exact fun w₂ h₂ => not_noFailure hs
  · exact fun _ _ _ _ _ h => h.elim

theorem createDek_does (t : Transform) (id : DekId) (newVersion : Option Nat) (encryptedDek : Option Bytes)
    (hid : id.version ≠ 0)
    (hver : id.version ≠ -1 → id.version = (if newVersion.getD 0 = 0 then 1 else newVersion.getD 0 : Nat))
    (hready : ReadyToCreate cr objects w id (if newVersion.getD 0 = 0 then 1 else newVersion.getD 0)
      (encryptedDek.map Base64.encode)) : Does cr objects X
    (post (fun d w' tr' => w'.Has t.client d ∧ Answers id d ∧
        (id.version = -1 → ∃ tr₀, tr <+: tr₀ ∧ EndsWith tr₀ tr' d))
      fun _ tr' => ¬NoFailure tr') (t.createDek id newVersion encryptedDek) w tr := by
  apply seq (storeDek_does t id newVersion encryptedDek hready)
  · rintro d? w₁ tr₁ h₁ htr ⟨hsome, hnone⟩
    cases d? with
    | some d =>
      obtain ⟨hhas, hans, hend⟩ := hsome d rfl
      apply does_pure
      intro w₂ h₂
      refine ⟨h₂.1.has hhas, ⟨hans.kekName, hans.subject, hans.algorithm, fun hv => ?_⟩,
        fun _ => ⟨tr, List.prefix_refl tr, hend⟩⟩
      have hdv := hans.version
      dsimp only at hdv
      rw [hver hv]
      exact hdv (by omega)
    | none =>
      apply seq (retrieveDek_does t id hid)
      · rintro d? w₂ tr₂ h₂ htr₂ ⟨hsome', hnone'⟩
        cases d? with
        | some d =>
          obtain ⟨hhas, hans, -, hend⟩ := hsome' d rfl
          apply does_pure
          exact fun w₃ h₃ => ⟨h₃.1.has hhas, hans, fun hv => ⟨tr₁, htr, hend hv⟩⟩
        | none =>
          apply does_throw
          intro w₃ h₃ hn
          obtain ⟨r, hr, hrv⟩ := hnone rfl (hn.before htr₂)
          obtain ⟨hne, hne'⟩ := hnone' rfl hn r hr
          exact hne' (by rw [hver hne, hrv])
      · exact fun _ _ _ _ _ h => h
  · exact fun _ _ _ _ _ h => h

theorem newEncryptedDek_does (t : Transform) (ht : Owned objects t) (hmode : t.ruleMode ≠ .read) {kek : Kek}
    (hkek : w.registry.kek? t.kekName (contextFor t.subject) = some kek) : Does cr objects X
    (post (fun e w' _ => Inverts cr → ∀ s, e.map Base64.encode = some s → ∃ key,
      HasKey cr objects w'.registry t.kekName t.subject s key)
      fun _ _ => True) (t.newEncryptedDek kek) w tr := by
  unfold newEncryptedDek
  by_cases hs : kek.shared
  · rw [if_pos hs]
    apply does_pure
    simp [post]
  · rw [if_neg hs]
    have hgen : Does cr objects X (answer fun _ _ _ => True) (call (.generateKey t.dekFormat)) w tr :=
      does_call (.generateKey t.dekFormat) (by simp) (fun _ _ => trivial) fun _ _ _ _ _ => trivial
    apply seq hgen
    · intro rawKey w₁ tr₁ h₁ _ _
      apply seq (kmsEncryptWith_does kek rawKey _)
      · rintro b w₂ tr₂ h₂ _ ⟨id, hid, nonce, rfl⟩
        apply does_pure
        intro w₃ h₃ hcr s hs
        obtain rfl := Option.some.inj hs
        refine ⟨rawKey, kek, ((h₁.trans h₂).trans h₃).1.keks _ _ _ hkek, ?_⟩
        rw [Base64.decode_encode]
        rw [ht] at hmode hid
        exact hcr.opens (.inr ⟨t.object, hmode, hid⟩) nonce rawKey
      · exact fun _ _ _ _ _ _ => trivial
    · exact fun _ _ _ _ _ _ => trivial

end Specs

/-! ## Evidence for a DEK -/

/-- What a rotation may count on: no request fails but with 409, and once the expiry was checked
no answer comes from the cache that is older than the registry's newest version. -/
def RotationOk (tr : List DekEvent) : DekEvent → Prop
  | .failed _ => False
  | .answer d true (some n) => (∃ t, DekEvent.now t ∈ tr) → n ≤ d.version
  | _ => True

theorem okTrace_noFailure {tr : List DekEvent} (h : OkTrace RotationOk tr) : NoFailure tr := by
  intro s hs
  obtain ⟨tr₁, tr₂, rfl⟩ := List.append_of_mem hs
  exact h tr₁ _ tr₂ rfl

def IsAnswer : DekEvent → Prop
  | .answer _ _ _ => True
  | _ => False

/-- The last DEK that the calls were answered with is this one, and it was the newest version then, or
it was found not to be expired after that. -/
def Evidence (t : Transform) (d : Dek) (tr : List DekEvent) : Prop :=
  ∃ tr₁ tr₂ cached newest, tr = tr₁ ++ .answer d cached newest :: tr₂ ∧ (∀ e ∈ tr₂, ¬IsAnswer e) ∧
    (newest = some d.version ∨ ∃ now, .now now ∈ tr₂ ∧ t.isExpired now (some d) = false)

theorem Evidence.append {t : Transform} {d : Dek} {tr es : List DekEvent} (h : Evidence t d tr)
    (hes : ∀ e ∈ es, ¬IsAnswer e) : Evidence t d (tr ++ es) := by
  obtain ⟨tr₁, tr₂, cached, newest, rfl, hq, hev⟩ := h
  refine ⟨tr₁, tr₂ ++ es, cached, newest, by simp, ?_, ?_⟩
  · intro e he
    obtain he | he := List.mem_append.mp he
    · exact hq e he
    · exact hes e he
  · obtain hev | ⟨now, hnow, hx⟩ := hev
    · exact .inl hev
    · exact .inr ⟨now, List.mem_append_left _ hnow, hx⟩

theorem EndsWith.evidence {t : Transform} {d : Dek} {tr₀ tr : List DekEvent} (h : EndsWith tr₀ tr d)
    (hnow : ∃ t, DekEvent.now t ∈ tr₀) (hok : OkTrace RotationOk tr) : Evidence t d tr := by
  obtain ⟨cached, n, rfl, hle, hn⟩ := h
  refine ⟨tr₀, [], cached, some n, rfl, by simp, .inl ?_⟩
  cases cached with
  | false => rw [hn rfl]
  | true =>
    have hge := (okTrace_snoc.mp hok).2 hnow
    rw [Nat.le_antisymm hge hle]

section Selection

variable {cr : Crypto} {objects : Nat → Transform} {X : Dek → List DekEvent → Prop} {w : DekWorld}
  {tr : List DekEvent}

theorem now_does : Does cr objects X (answer fun t w' tr' => DekRely cr objects w w' ∧ tr' = tr ++ [.now t])
    (call .now) w tr := by
  apply does_call .now (by simp) (fun _ _ => trivial)
  exact fun w₁ i w₂ h₁ h₂ => ⟨h₁.trans h₂, rfl⟩

structure Asks (t : Transform) (id : DekId) : Prop where
  kekName : id.kekName = t.kekName
  subject : id.subject = t.subject
  algorithm : id.algorithm = t.dekFormat
  version : id.version ≠ 0
  write : t.ruleMode ≠ .read → id.version = if 0 < t.dekExpiryDays then -1 else 1

theorem isExpired_rotated {t : Transform} {now : Int} {d : Option Dek} (h : t.isExpired now d = true) :
    t.ruleMode ≠ .read ∧ 0 < t.dekExpiryDays := by
  unfold isExpired at h
  split at h
  · cases h
  · split at h
    · cases h
    · have := of_decide_eq_true h
      exact ⟨this.1, this.2.1⟩

theorem createDek_evidence (t : Transform) {kek : Kek} {id : DekId} (hid : Asks t id) (hmode : t.ruleMode ≠ .read)
    (newVersion : Option Nat) (encryptedDek : Option Bytes)
    (hkek : w.registry.kek? t.kekName (contextFor t.subject) = some kek)
    (hkey : Inverts cr → ∀ s, encryptedDek.map Base64.encode = some s → ∃ key,
      HasKey cr objects w.registry t.kekName t.subject s key)
    (hnow : ∃ t, DekEvent.now t ∈ tr)
    (hver : id.version ≠ -1 → id.version = (if newVersion.getD 0 = 0 then 1 else newVersion.getD 0 : Nat))
    (hpred : 1 < (if newVersion.getD 0 = 0 then 1 else newVersion.getD 0) →
      ∃ r ∈ w.registry.versionsOf t.kekName t.subject t.dekFormat,
        r.version + 1 = if newVersion.getD 0 = 0 then 1 else newVersion.getD 0) : Does cr objects X
    (post (fun d w' tr' => w'.Has t.client d ∧ Answers id d ∧
        (0 < t.dekExpiryDays → OkTrace RotationOk tr' → Evidence t d tr'))
      fun _ tr' => ¬NoFailure tr')
    (t.createDek id newVersion encryptedDek) w tr := by
  have hready : ReadyToCreate cr objects w id (if newVersion.getD 0 = 0 then 1 else newVersion.getD 0)
      (encryptedDek.map Base64.encode) := by
    refine ⟨⟨kek, by rw [hid.kekName, hid.subject]; exact hkek⟩, ?_, ?_, ?_⟩
    · split <;> omega
    · rw [hid.kekName, hid.subject, hid.algorithm]
      exact hpred
    · rw [hid.kekName, hid.subject]
      exact hkey
  apply (createDek_does t id newVersion encryptedDek hid.version hver hready).mono
  intro r w₂ tr₂ hr
  cases r with
  | error e => exact hr
  | ok d =>
    obtain ⟨hhas, hans, hend⟩ := hr
    refine ⟨hhas, hans, fun hrot hok => ?_⟩
    have hv : id.version = -1 := by
      rw [hid.write hmode, if_pos hrot]
    obtain ⟨tr₀, htr₀, hends⟩ := hend hv
    obtain ⟨now, hnow⟩ := hnow
    exact hends.evidence ⟨now, htr₀.subset hnow⟩ hok

theorem selectDek_does (t : Transform) (ht : Owned objects t) {kek : Kek} {id : DekId} (hid : Asks t id)
    (hkek : w.registry.kek? t.kekName (contextFor t.subject) = some kek) : Does cr objects X
    (post (fun d w' tr' => w'.Has t.client d ∧ Answers id d ∧
        (t.ruleMode ≠ .read → 0 < t.dekExpiryDays → OkTrace RotationOk tr' → Evidence t d tr'))
      fun _ tr' => t.ruleMode = .read → NoFailure tr' → Missing w id) (t.selectDek kek id) w tr := by
  apply seq (retrieveDek_does t id hid.version)
  · rintro d? w₁ tr₁ h₁ htr₁ ⟨hsome, hnone⟩
    apply seq now_does
    · rintro now w₂ tr₂ h₂ htr₂ ⟨-, rfl⟩
      have hkek₂ := (h₁.trans h₂).1.keks _ _ _ hkek
      have hnow : ∃ t, DekEvent.now t ∈ tr₁ ++ [.now now] := ⟨now, by simp⟩
      cases d? with
      | none =>
        by_cases hmode : t.ruleMode = .read
        · simp only [hmode, if_true]
          apply does_throw
          exact fun w₃ h₃ _ hn => hnone rfl (hn.before (List.prefix_append _ _))
        · simp only [hmode, if_false]
          apply seq (newEncryptedDek_does t ht hmode hkek₂)
          · intro e w₃ tr₃ h₃ htr₃ hkey
            have hnow₃ : ∃ t, DekEvent.now t ∈ tr₃ := ⟨now, htr₃.subset (by simp)⟩
            have hver : id.version ≠ -1 → id.version = (if (none : Option Nat).getD 0 = 0 then 1 else 0 : Nat) := by
              have := hid.write hmode
              split at this
              · exact fun hv => absurd this hv
              · exact fun _ => this
            apply (createDek_evidence t hid hmode none e (h₃.1.keks _ _ _ hkek₂) hkey hnow₃ hver (by simp)).mono
            intro r w₄ tr₄ hr
            cases r with
            | error e => exact fun he => he.elim
            | ok d => exact ⟨hr.1, hr.2.1, fun _ => hr.2.2⟩
          · exact fun _ _ _ _ _ _ he => he.elim
      | some d =>
        obtain ⟨hhas, hans, ⟨cached, n, htr⟩, -⟩ := hsome d rfl
        cases hx : t.isExpired now (some d) with
        | false =>
          apply does_pure
          refine fun w₃ h₃ => ⟨(h₂.trans h₃).1.has hhas, hans, fun _ _ _ => ?_⟩
          exact ⟨tr, [.now now], cached, n, by rw [htr]; simp, by simp [IsAnswer], .inr ⟨now, by simp, hx⟩⟩
        | true =>
          obtain ⟨hmode, hrot⟩ := isExpired_rotated hx
          have hv : id.version = -1 := by rw [hid.write hmode, if_pos hrot]
          simp only [hmode, if_false]
          apply seq (newEncryptedDek_does t ht hmode hkek₂)
          · intro e w₃ tr₃ h₃ htr₃ hkey
            have hnow₃ : ∃ t, DekEvent.now t ∈ tr₃ := ⟨now, htr₃.subset (by simp)⟩
            have hhas₃ := (h₂.trans h₃).1.has hhas
            have hpred : ∃ r ∈ w₃.registry.versionsOf t.kekName t.subject t.dekFormat,
              r.version + 1 = d.version + 1 := by
              obtain ⟨r, hr, hrd⟩ := has_record h₃.2 hhas₃
              refine ⟨r, mem_versionsOf.mpr ⟨hr, ?_, ?_, ?_⟩, by rw [hrd]; rfl⟩
              · rw [← hid.kekName, ← hans.kekName, hrd]; rfl
              · rw [← hid.subject, ← hans.subject, hrd]; rfl
              · rw [← hid.algorithm, ← hans.algorithm, hrd]; rfl
            apply Ensures.handle
            apply (does_since (createDek_evidence t hid hmode (some (d.version + 1)) e (h₃.1.keks _ _ _ hkek₂) hkey
              hnow₃ (fun hne => absurd hv hne) (fun _ => by simpa using hpred))).mono
            rintro r w₄ tr₄ ⟨h₄, -, hr⟩
            cases r with
            | ok d' => exact ⟨hr.1, hr.2.1, fun _ => hr.2.2⟩
            | error e =>
              apply does_pure
              refine fun w₅ h₅ => ⟨(h₄.trans h₅).1.has hhas₃, hans, fun _ _ hok => ?_⟩
              exact absurd (okTrace_noFailure hok) hr
          · exact fun _ _ _ _ _ _ he => he.elim
    · exact fun _ _ _ _ _ h => h.elim
  · exact fun _ _ _ _ _ h _ hn => absurd hn h

end Selection

end ConfluentKafka
