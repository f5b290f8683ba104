import ConfluentKafka.EncryptTransform

/-!
# Rotating DEKs

Any number of producers write with DEKs that expire. As long as no answer that is older than the
registry's newest version comes out of a client's cache after the expiry was checked, everything
is encrypted with a DEK that was found unexpired or was the newest version. The conflict path
reads the cache again, so a producer that loses the race for a new version goes on with the
expired one.
-/

namespace ConfluentKafka

open Transform

/-! ## Evidence is about the last answer -/

theorem Evidence.last {t : Transform} {d d' : Dek} {cached : Bool} {newest : Option Nat} (tr₁ : List DekEvent)
    {tr₂ : List DekEvent}
    (h : Evidence t d (tr₁ ++ .answer d' cached newest :: tr₂)) (hq : ∀ e ∈ tr₂, ¬IsAnswer e) :
    newest = some d'.version ∨ ∃ now, .now now ∈ tr₂ ∧ t.isExpired now (some d') = false := by
  obtain ⟨tr₃, tr₄, cached', newest', heq, hq', hev⟩ := h
  obtain ⟨l, hl₁, hl₂⟩ | ⟨l, hl₁, hl₂⟩ := List.append_eq_append_iff.mp heq
  · cases l with
    | nil =>
      obtain ⟨he, rfl⟩ := List.cons.inj hl₂
      obtain ⟨rfl, rfl, rfl⟩ := DekEvent.answer.inj he
      exact hev
    | cons e l =>
      obtain ⟨-, rfl⟩ := List.cons.inj hl₂
      exact absurd trivial (hq (.answer d cached' newest') (by simp))
  · cases l with
    | nil =>
      obtain ⟨he, rfl⟩ := List.cons.inj hl₂
      obtain ⟨rfl, rfl, rfl⟩ := DekEvent.answer.inj he
      exact hev
    | cons e l =>
      obtain ⟨-, rfl⟩ := List.cons.inj hl₂
      exact absurd trivial (hq' (.answer d' cached newest) (by simp))

/-! ## Every run -/

instance (tr : List DekEvent) : Decidable (∃ t, DekEvent.now t ∈ tr) :=
  decidable_of_iff (∃ e ∈ tr, (match e with | .now _ => true | _ => false) = true) (by
    constructor
    · rintro ⟨e, he, hm⟩
      cases e with
      | now t => exact ⟨t, he⟩
      | _ => cases hm
    · rintro ⟨t, ht⟩
      exact ⟨_, ht, rfl⟩)

instance (tr : List DekEvent) : (e : DekEvent) → Decidable (RotationOk tr e)
  | .failed _ => inferInstanceAs (Decidable False)
  | .answer d true (some n) => inferInstanceAs (Decidable ((∃ t, DekEvent.now t ∈ tr) → n ≤ d.version))
  | .answer _ true none => inferInstanceAs (Decidable True)
  | .answer _ false _ => inferInstanceAs (Decidable True)
  | .conflict => inferInstanceAs (Decidable True)
  | .now _ => inferInstanceAs (Decidable True)
  | .encrypt _ => inferInstanceAs (Decidable True)
  | .other => inferInstanceAs (Decidable True)

/-- The condition on the steps of a run, for the call that the stepping transform makes. -/
def RotationStep (cr : Crypto) (s : Pool DekOp DekOp.Ans EncryptError FieldValue TransformCall DekEvent DekWorld) :
    PoolLabel TransformCall DekInput Eviction → Bool
  | .step i inp =>
    match s.threads[i]? with
    | some ⟨_, .call op _, tr⟩ => decide (RotationOk tr (op.event cr inp s.world))
    | _ => true
  | _ => true

theorem event_encrypt {cr : Crypto} {i : DekInput} {op : DekOp} {w : DekWorld} {d : Dek}
    (h : op.event cr i w = .encrypt d) : ∃ f k p, op = .encrypt d f k p := by
  cases op with
  | encrypt d' f k p => exact ⟨f, k, p, by rw [DekEvent.encrypt.inj h]⟩
  | getDek c id =>
    simp only [DekOp.event, dekEvent] at h
    cases ho : (w.getDek i c id).1 <;> simp [ho, Outcome.event] at h
  | registerDek c kekName subject algorithm version e =>
    simp only [DekOp.event, dekEvent] at h
    cases ho : (w.registerDek cr i c kekName subject algorithm version e).1 <;> simp [ho, Outcome.event] at h
  | getKek c id =>
    simp only [DekOp.event] at h
    cases ho : (w.getKek i c id).1 <;> simp [ho, Outcome.event] at h
  | registerKek c name kmsType kmsKeyId shared context =>
    simp only [DekOp.event] at h
    cases ho : (w.registerKek i c name kmsType kmsKeyId shared context).1 <;> simp [ho, Outcome.event] at h
  | kmsEncrypt url rawKey =>
    simp only [DekOp.event] at h
    split at h <;> cases h
  | kmsDecrypt url encryptedKey =>
    simp only [DekOp.event] at h
    split at h <;> cases h
  | _ => cases h

def EncryptsWithEvidence (t : Transform) (tr : List DekEvent) : Prop :=
  ∀ tr₁ d tr₂, tr = tr₁ ++ .encrypt d :: tr₂ → Evidence t d tr₁

theorem encryptsWithEvidence_snoc {t : Transform} {tr : List DekEvent} {e : DekEvent}
    (h : EncryptsWithEvidence t tr) (he : ∀ d, e = .encrypt d → Evidence t d tr) :
    EncryptsWithEvidence t (tr ++ [e]) := by
  intro tr₁ d tr₂ heq
  rcases List.eq_nil_or_concat tr₂ with rfl | ⟨tr₃, e', rfl⟩
  · obtain ⟨rfl, h'⟩ := List.append_inj' heq rfl
    exact he d (by simpa using h')
  · rw [List.concat_eq_append, ← List.cons_append, ← List.append_assoc] at heq
    obtain ⟨rfl, -⟩ := List.append_inj' heq rfl
    exact h tr₁ d tr₃ rfl

/-- In a run all of whose steps meet the condition, every WRITE with expiring DEKs encrypts with one
that was found unexpired or was the registry's newest version when it was obtained. -/
theorem rotation_evidence {cr : Crypto} {objects : Nat → Transform} {keks : List ((String × Option String) × Kek)}
    {ls : List (PoolLabel TransformCall DekInput Eviction)}
    {s : Pool DekOp DekOp.Ans EncryptError FieldValue TransformCall DekEvent DekWorld}
    (hr : ((transforms cr objects).pool ⟨DekWorld.start keks, []⟩).RunWhere
      (fun s l => RotationStep cr s l = true) ls s) :
    ∀ t ∈ s.threads, (t.arg.transform objects).ruleMode = .write → 0 < (t.arg.transform objects).dekExpiryDays →
      EncryptsWithEvidence (t.arg.transform objects) t.trace := by
  intro t ht hmode hrot
  have hok : OkTrace RotationOk t.trace := by
    refine System.okTrace_run RotationOk ?_ hr t ht
    intro s i inp c op k tr hstep hi
    simp only [RotationStep, hi] at hstep
    exact of_decide_eq_true hstep
  have hw := (start_inv cr objects keks).rely
  have hholds := (transforms_guarantee cr objects).holds
    (L := dekContract cr objects fun d tr => OkTrace RotationOk tr → Evidence (t.arg.transform objects) d tr)
    (Q := fun _ _ _ => True)
    (J := fun tr => OkTrace RotationOk tr → EncryptsWithEvidence (t.arg.transform objects) tr)
    (A := fun c => c = t.arg) ?_ rfl ?_ ?_ hw hr t ht rfl
  · exact hholds.1 hok
  · intro i op w tr hpre hj hok'
    obtain ⟨hok₁, -⟩ := okTrace_snoc.mp hok'
    apply encryptsWithEvidence_snoc (hj hok₁)
    intro d hd
    obtain ⟨f, k, p, rfl⟩ := event_encrypt hd
    exact hpre.2 d f k p rfl hok₁
  · intro _ tr₁ d tr₂ h
    simp at h
  · rintro c w rfl hw
    exact transform_does _ (owned_call t.arg) (fun _ d tr h => h hrot) _ _ hw.2

/-! ## Two producers -/

def keyTag (url : String) : UInt8 := url.toList.foldl (fun n c => n + UInt8.ofNat c.toNat) 0

def maskBytes (key text : Bytes) : Bytes := text.mapIdx fun i b => b ^^^ key.getD (i % key.length) 0

theorem maskBytes_maskBytes (key text : Bytes) : maskBytes key (maskBytes key text) = text := by
  apply List.ext_getElem (by simp [maskBytes])
  intro i _ _
  simp only [maskBytes, List.getElem_mapIdx, UInt8.xor_assoc, UInt8.xor_self, UInt8.xor_zero]

/-- A KMS whose keys open only what they have encrypted themselves, and an AEAD that depends on its key. -/
def keyedCrypto : Crypto where
  kmsEncrypt url _ rawKey := keyTag url :: rawKey
  kmsDecrypt url encryptedKey := if encryptedKey.head? = some (keyTag url) then some encryptedKey.tail else none
  toBinary _ rawKey := rawKey
  fromBinary _ key := some key
  aeadEncrypt _ key _ plaintext := some (maskBytes key plaintext)
  aeadDecrypt _ key ciphertext := some (maskBytes key ciphertext)

theorem keyedCrypto_inverts : Inverts keyedCrypto where
  aead f k n p c h := by
    obtain rfl := Option.some.inj h
    exact congrArg some (maskBytes_maskBytes k p)
  kms url nonce rawKey := if_pos rfl
  kms_other url url' nonce rawKey b h := by
    simp only [keyedCrypto] at h
    split at h
    · exact (Option.some.inj h).symm
    · cases h
  kms_ne_nil url nonce rawKey := by simp [keyedCrypto]

example : keyedCrypto.kmsDecrypt "local-kms://key" (keyedCrypto.kmsEncrypt "local-kms://backup" [] [1, 2]) =
  none := by
  decide +kernel

def producers (n : Nat) : Transform where
  object := n
  client := n
  alternateKmsKeyIds := none
  kekName := "kek"
  subject := "topic-value"
  ruleMode := .write
  kmsType := none
  kmsKeyId := none
  dekFormat := .AES128_GCM
  dekExpiryDays := 1

def sharedKeks : List ((String × Option String) × Kek) :=
  [(("kek", none), { kmsType := "local-kms", kmsKeyId := "key", kmsProps := none, shared := true })]

def dayInput (day : Nat) : DekInput where
  now := day * MILLIS_IN_DAY
  ts := some (day * MILLIS_IN_DAY)
  random k := UInt8.ofNat (k + 16 * day + 1)
  showKey := true

def writeOn (day thread object calls : Nat) : List (PoolLabel TransformCall DekInput Eviction) :=
  .spawn { object, fieldType := .BYTES, fieldValue := .bytes [1] } ::
    List.replicate calls (.step thread (dayInput day))

def runOf (C : Pool DekOp DekOp.Ans EncryptError FieldValue TransformCall DekEvent DekWorld →
      PoolLabel TransformCall DekInput Eviction → Bool) (ls : List (PoolLabel TransformCall DekInput Eviction)) :
    Option (Pool DekOp DekOp.Ans EncryptError FieldValue TransformCall DekEvent DekWorld) :=
  ((transforms keyedCrypto producers).pool ⟨DekWorld.start sharedKeks, []⟩).exec C
    ⟨DekWorld.start sharedKeks, []⟩ ls

/-- A producer writes, and rotates the DEK two days later. -/
theorem rotation_evidence_alone :
    ∃ s, runOf (RotationStep keyedCrypto) (writeOn 0 0 0 9 ++ writeOn 2 1 0 7) = some s ∧
      (s.threads.map fun t => t.trace.countP fun e => e matches .encrypt _) = [1, 1] ∧
      ∀ t ∈ s.threads, EncryptsWithEvidence (t.arg.transform producers) t.trace := by
  obtain ⟨s, hs⟩ := Option.isSome_iff_exists.mp
    (show (runOf (RotationStep keyedCrypto) (writeOn 0 0 0 9 ++ writeOn 2 1 0 7)).isSome by decide +kernel)
  have hcount : ((runOf (RotationStep keyedCrypto) (writeOn 0 0 0 9 ++ writeOn 2 1 0 7)).map fun s =>
      s.threads.map fun t => t.trace.countP fun e => e matches .encrypt _) = some [1, 1] := by decide +kernel
  rw [hs] at hcount
  refine ⟨s, hs, Option.some.inj hcount, fun t ht => ?_⟩
  exact rotation_evidence (Lts.RunWhere.of_exec .nil hs) t ht rfl (show (0 : ℚ) < 1 by decide)

def staleDek : Dek where
  kekName := "kek"
  subject := "topic-value"
  version := 1
  algorithm := .AES128_GCM
  encryptedKeyMaterial :=
    some (Base64.encode (keyTag "local-kms://key" :: generateKey keyedCrypto (dayInput 0) .AES128_GCM))
  ts := some 0
  cell := 0

/-- Both producers write on the first day. On the third one the first of them creates version 2; the
other has version 1 in its cache, gets the conflict, and reads its cache again. -/
def staleLabels : List (PoolLabel TransformCall DekInput Eviction) :=
  writeOn 0 0 0 9 ++ writeOn 0 1 1 8 ++ writeOn 2 2 0 7 ++ writeOn 2 3 1 8

theorem stale_dek_encrypts :
    ¬∀ (cr : Crypto), Inverts cr → ∀ (objects : Nat → Transform) (keks : List ((String × Option String) × Kek))
      (ls : List (PoolLabel TransformCall DekInput Eviction))
      (s : Pool DekOp DekOp.Ans EncryptError FieldValue TransformCall DekEvent DekWorld),
      ((transforms cr objects).pool ⟨DekWorld.start keks, []⟩).Run ls s → (∀ t ∈ s.threads, NoFailure t.trace) →
      ∀ t ∈ s.threads, (t.arg.transform objects).ruleMode = .write → 0 < (t.arg.transform objects).dekExpiryDays →
        EncryptsWithEvidence (t.arg.transform objects) t.trace := by
  intro h
  obtain ⟨s, hs⟩ := Option.isSome_iff_exists.mp
    (show (runOf (fun _ _ => true) staleLabels).isSome by decide +kernel)
  have hfail : ((runOf (fun _ _ => true) staleLabels).map fun s =>
      s.threads.all fun t => t.trace.all fun e => !(e matches .failed _)) = some true := by decide +kernel
  have hlast : ((runOf (fun _ _ => true) staleLabels).bind fun s => (s.threads[3]?).map fun t => t.trace) =
      some [.other, .answer staleDek true (some 2), .now (2 * MILLIS_IN_DAY), .conflict,
        .answer staleDek true (some 2),
        .other, .other, .encrypt staleDek] := by decide +kernel
  rw [hs] at hfail hlast
  obtain ⟨t, ht, htrace⟩ := Option.map_eq_some_iff.mp hlast
  have hno : ∀ t ∈ s.threads, NoFailure t.trace := by
    intro t ht st hst
    have := List.all_eq_true.mp (List.all_eq_true.mp (Option.some.inj hfail) t ht) _ hst
    cases this
  have hev := h keyedCrypto keyedCrypto_inverts producers sharedKeks staleLabels s (Lts.Run.of_exec hs) hno t
    (List.mem_of_getElem? ht) rfl (show (0 : ℚ) < 1 by decide)
  rw [htrace] at hev
  have hev' := (hev [.other, .answer staleDek true (some 2), .now (2 * MILLIS_IN_DAY), .conflict,
    .answer staleDek true (some 2), .other, .other] staleDek [] rfl).last
      [.other, .answer staleDek true (some 2), .now (2 * MILLIS_IN_DAY), .conflict] (by simp [IsAnswer])
  simp [staleDek] at hev'

end ConfluentKafka
