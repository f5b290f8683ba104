import ConfluentKafka.DekRotation

/-!
# Reading what was written

A READ on the result of a WRITE gives the field back, whatever transforms run before, between and
beside the two: the version in front of the ciphertext names the key, and the registry still has it.
-/

namespace ConfluentKafka

open Transform

theorem toObject_toBytes {fieldType : FieldType} {fieldValue : FieldValue} {plaintext : Bytes}
    (h : toBytes fieldType fieldValue = some plaintext) : toObject fieldType plaintext = fieldValue := by
  unfold toBytes at h
  split at h
  · rw [← Option.some.inj h]
    rfl
  · rw [← Option.some.inj h, toObject, Utf8.decode_encode, String.ofList_toList]
  · cases h

section

variable {cr : Crypto} {objects : Nat → Transform} {w : DekWorld}

def WriteResult (cr : Crypto) (objects : Nat → Transform) (c : TransformCall) (v : FieldValue) (w : DekWorld) :
    Prop :=
  (c.fieldValue = .null ∧ v = .null) ∨ (c.fieldValue ≠ .null ∧ ∃ plaintext, toBytes c.fieldType c.fieldValue =
    some plaintext ∧
    WrittenValue cr objects (c.transform objects) c.fieldType plaintext w v)

theorem start_write (hcr : Inverts cr) {c : TransformCall} (hmode : (c.transform objects).ruleMode = .write)
    (tr : List DekEvent) :
    Does cr objects (fun _ _ => True)
      (fun r w' _ => ∀ v, r = .ok v → WriteResult cr objects c v w') ((transforms cr objects).start c) w tr := by
  change Does cr objects _ _ ((c.transform objects).transform c.fieldType c.fieldValue) w tr
  unfold transform
  by_cases hnull : c.fieldValue = .null
  · rw [if_pos hnull]
    apply does_pure
    intro w' _ v hv
    exact .inl ⟨hnull, (Except.ok.inj hv).symm⟩
  · rw [if_neg hnull, hmode]
    apply (write_does (c.transform objects) (owned_call c) (by simp [hmode]) _ _ fun _ _ _ => trivial).mono
    rintro r w' tr' hr v rfl
    obtain ⟨plaintext, hbytes, hwritten⟩ := hr
    exact .inr ⟨hnull, plaintext, hbytes, hwritten hcr⟩

theorem start_read (hcr : Inverts cr) {c d : TransformCall} (hmode : (d.transform objects).ruleMode = .read)
    (hkeys : HasKmsKeys objects (d.transform objects)) (hm : Matches (c.transform objects) (d.transform objects))
    (htype : d.fieldType = c.fieldType) (hw : DekInv cr objects w)
    (hwritten : WriteResult cr objects c d.fieldValue w) (tr : List DekEvent) :
    Does cr objects (fun _ _ => True) (fun r _ tr' => NoFailure tr' → r = .ok c.fieldValue)
      ((transforms cr objects).start d) w tr := by
  change Does cr objects _ _ ((d.transform objects).transform d.fieldType d.fieldValue) w tr
  unfold transform
  obtain ⟨hnull, hv⟩ | ⟨hnull, plaintext, hbytes, hwritten⟩ := hwritten
  · rw [if_pos hv]
    apply does_pure
    exact fun _ _ _ => by rw [hnull]
  · have hne : d.fieldValue ≠ .null := by
      obtain ⟨_, key, rawKey, ciphertext, nonce, h⟩ := hwritten
      intro hv
      have := h.ciphertextOf
      rw [hv] at this
      revert this
      cases c.fieldType <;> simp [ciphertextOf, toBytes]
    rw [if_neg hne, hmode]
    apply (read_does (d.transform objects) (owned_call d) hmode _ _ hw).mono
    intro r w' tr' hr hn
    rw [← htype] at hwritten hbytes
    rw [hr hcr hkeys _ plaintext hm hwritten hn, toObject_toBytes hbytes]

end

/-! ## Requests that are delivered -/

theorem Outcome.event_ne_failed {α : Type} {o : Outcome α} (ho : ∀ st, o ≠ .failed st) {ok : α → DekEvent}
    (hok : ∀ a st, ok a ≠ .failed st) (st : Option Nat) : o.event ok ≠ .failed st := by
  cases o with
  | ok a => exact hok a st
  | notFound => simp [Outcome.event]
  | conflict => simp [Outcome.event]
  | failed st' => exact absurd rfl (ho st')

theorem postDek_delivered (cr : Crypto) (i : DekInput) (kekName subject : String) (algorithm : DekFormat)
    (version : Nat)
    (e : Option (List Char)) (w : DekWorld) :
    (∀ st, (w.postDek cr i kekName subject algorithm version e).1 ≠ .failed st) ∧
      (w.postDek cr i kekName subject algorithm version e).1.status ≠ some 405 := by
  unfold DekWorld.postDek
  split
  · simp [Outcome.status]
  · split <;> simp [Outcome.status]

theorem registerDek_delivered (cr : Crypto) (c : Nat) (kekName subject : String) (algorithm : DekFormat)
    (version : Nat)
    (e : Option (List Char)) (w : DekWorld) (st : Option Nat) :
    (w.registerDek cr {} c kekName subject algorithm version e).1 ≠ .failed st := by
  unfold DekWorld.registerDek
  dsimp only
  split
  · simp
  · obtain ⟨hfail, h405⟩ := postDek_delivered cr {} kekName subject algorithm version (e.filter fun s => s ≠ []) w
    have hcreate : w.createDek cr {} kekName subject algorithm version (e.filter fun s => s ≠ []) =
        w.postDek cr {} kekName subject algorithm version (e.filter fun s => s ≠ []) :=
      if_neg h405
    rw [hcreate]
    generalize w.postDek cr {} kekName subject algorithm version (e.filter fun s => s ≠ []) = r at hfail
    obtain ⟨o, w'⟩ := r
    cases o with
    | failed st' => exact absurd rfl (hfail st')
    | _ => simp

/-- With every request delivered no call fails. -/
theorem event_delivered (cr : Crypto) (op : DekOp) (w : DekWorld) (st : Option Nat) :
    op.event cr {} w ≠ .failed st := by
  cases op with
  | getKek c id =>
    apply Outcome.event_ne_failed _ (by simp)
    intro st'
    simp only [DekWorld.getKek]
    split
    · simp
    · split <;> simp
  | registerKek c name kmsType kmsKeyId shared context =>
    apply Outcome.event_ne_failed _ (by simp)
    intro st'
    simp only [DekWorld.registerKek, DekWorld.deliver, DekWorld.createKek]
    split
    · simp
    · cases w.registry.kek? name context <;> simp
  | getDek c id =>
    apply Outcome.event_ne_failed _ (by simp)
    intro st'
    simp only [DekWorld.getDek]
    split
    · simp
    · split <;> simp
  | registerDek c kekName subject algorithm version e =>
    exact Outcome.event_ne_failed (registerDek_delivered cr c kekName subject algorithm version e w) (by simp) st
  | kmsEncrypt url rawKey => simp [DekOp.event]
  | kmsDecrypt url encryptedKey => simp [DekOp.event]
  | _ => simp [DekOp.event]

/-! ## The round trip -/

abbrev EncryptPool := Pool DekOp DekOp.Ans EncryptError FieldValue TransformCall DekEvent DekWorld

def Pool.spawned (cr : Crypto) (objects : Nat → Transform) (s : EncryptPool) (c : TransformCall) : EncryptPool :=
  { s with threads := s.threads ++ [⟨c, (transforms cr objects).start c, []⟩] }

theorem noFailure_iff {tr : List DekEvent} : NoFailure tr ↔ OkTrace (fun _ e => ∀ st, e ≠ .failed st) tr := by
  constructor
  · rintro h tr₁ e tr₂ rfl st rfl
    exact h st (by simp)
  · intro h st hst
    obtain ⟨tr₁, tr₂, rfl⟩ := List.append_of_mem hst
    exact h tr₁ _ tr₂ rfl st rfl

/-- After any run, a READ of what a WRITE returned, with the same rule, the producers' KMS keys and any client,
returns the field that was written, unless one of its requests fails. It is never blocked. -/
theorem transform_read_write {cr : Crypto} (hcr : Inverts cr) {objects : Nat → Transform}
    {keks : List ((String × Option String) × Kek)} {ls : List (PoolLabel TransformCall DekInput Eviction)}
    {s : EncryptPool}
    (hr : ((transforms cr objects).pool ⟨DekWorld.start keks, []⟩).Run ls s)
    {t : Thread DekOp DekOp.Ans EncryptError FieldValue TransformCall DekEvent} (ht : t ∈ s.threads)
    (hwrite : (t.arg.transform objects).ruleMode = .write) {v : FieldValue} (hv : t.prog.result? = some (.ok v))
    {o : Nat} (hread : (objects o).ruleMode = .read) (hkeys : HasKmsKeys objects (objects o))
    (hm : Matches (t.arg.transform objects) (objects o))
    {ls' : List (PoolLabel TransformCall DekInput Eviction)} {s' : EncryptPool}
    (hr' : ((transforms cr objects).pool (s.spawned cr objects ⟨o, t.arg.fieldType, v⟩)).Run ls' s') :
    ∃ t', s'.threads[s.threads.length]? = some t' ∧ t'.arg = ⟨o, t.arg.fieldType, v⟩ ∧
      (NoFailure t'.trace →
        (∀ r, t'.prog.result? = some r → r = .ok t.arg.fieldValue) ∧
        ∃ ls'' s'' t'', (∀ l ∈ ls'', ∃ i, l = .step s.threads.length i) ∧
          ((transforms cr objects).pool s').Run ls'' s'' ∧ s''.threads[s.threads.length]? = some t'' ∧
          NoFailure t''.trace ∧ t''.prog.result? = some (.ok t.arg.fieldValue)) := by
  have hK := transforms_guarantee cr objects
  have hw₀ := (start_inv cr objects keks).rely
  have hkept := (hK.run (s := ⟨DekWorld.start keks, []⟩) ⟨hw₀, by simp⟩ hr).1
  -- what the WRITE has left in the registry
  have hwritten : WriteResult cr objects t.arg v s.world := by
    have hholds := hK.holds (L := dekContract cr objects fun _ _ => True)
      (Q := fun r w' _ => ∀ v, r = .ok v → WriteResult cr objects t.arg v w') (J := fun _ => True)
      (A := fun c => c = t.arg) (fun _ _ _ _ _ _ => trivial) rfl trivial
      (by rintro c w rfl hw; exact start_write hcr hwrite []) hw₀ hr t ht rfl
    exact hholds.2.result hkept.world hv v rfl
  have hkept₁ : System.Kept (transforms cr objects) _ (s.spawned cr objects ⟨o, t.arg.fieldType, v⟩) :=
    (hK.step hkept (l := .spawn ⟨o, t.arg.fieldType, v⟩) rfl).2
  have hlast : (s.spawned cr objects ⟨o, t.arg.fieldType, v⟩).threads[s.threads.length]? =
      some ⟨⟨o, t.arg.fieldType, v⟩, (transforms cr objects).start ⟨o, t.arg.fieldType, v⟩, []⟩ := by
    simp [Pool.spawned]
  -- what the READ ensures, and with it every run it is part of
  have hstart : System.Holds (transforms cr objects) (dekContract cr objects fun _ _ => True)
      (fun r _ tr' => NoFailure tr' → r = .ok t.arg.fieldValue) (fun _ => True) s.world
      ⟨⟨o, t.arg.fieldType, v⟩, (transforms cr objects).start ⟨o, t.arg.fieldType, v⟩, []⟩ :=
    ⟨trivial, start_read hcr (c := t.arg) (d := ⟨o, t.arg.fieldType, v⟩) hread hkeys
      ⟨hm.kekName, hm.subject, hm.kmsType, hm.kmsKeyId, hm.dekFormat, hm.rotated⟩ rfl hkept.world.2 hwritten []⟩
  obtain ⟨t', hj', harg, hholds⟩ := hstart.run (fun _ _ _ _ _ _ => trivial) hK rfl hkept₁ hlast hr'
  have hkept' := (hK.run hkept₁ hr').1
  refine ⟨t', hj', harg, fun hn => ⟨fun r hres => hholds.2.result hkept'.world hres hn, ?_⟩⟩
  -- running the READ alone
  obtain ⟨c, p, tr⟩ := t'
  obtain ⟨ls'', s'', t'', hls, hex, hj'', -, hok, r, hres⟩ :=
    System.exec_own (S := transforms cr objects) (fun _ op w => ⟨{}, fun st => event_delivered cr op w st⟩)
      s' p s' tr hj'
      (noFailure_iff.mp hn)
  have hrun'' : ((transforms cr objects).pool s').Run ls'' s'' := Lts.Run.of_exec hex
  obtain ⟨t₃, hj₃, -, hholds₃⟩ := hholds.run (fun _ _ _ _ _ _ => trivial) hK rfl hkept' hj' hrun''
  obtain rfl : t'' = t₃ := Option.some.inj (hj''.symm.trans hj₃)
  have hn'' : NoFailure t''.trace := noFailure_iff.mpr hok
  refine ⟨ls'', s'', t'', hls, hrun'', hj'', hn'', ?_⟩
  rw [hres, hholds₃.2.result (hK.run hkept' hrun'').1.world hres hn'']

def endpoints (n : Nat) : Transform :=
  { producers n with ruleMode := if n = 0 then .write else .read, alternateKmsKeyIds := some "backup" }

theorem endpoints_hasKmsKeys (o : Nat) : HasKmsKeys endpoints (endpoints o) := by
  rintro kek id (rfl | ⟨o', -, hid⟩)
  · exact mem_getKmsKeyIds _ kek
  · exact hid

def localKeks : List ((String × Option String) × Kek) :=
  [(("kek", none), { kmsType := "local-kms", kmsKeyId := "key", kmsProps := none, shared := false })]

/-- The producer writes a text, and two days later it rotates the DEK. The first KMS key cannot be reached when the
text is written, so the second one encrypts the first version. -/
def textLabels : List (PoolLabel TransformCall DekInput Eviction) :=
  .spawn ⟨0, .STRING, .string "Zürich"⟩ :: List.replicate 6 (.step 0 (dayInput 0)) ++
    .step 0 { dayInput 0 with delivery := .refused none } :: List.replicate 9 (.step 0 (dayInput 0)) ++
      writeOn 2 1 0 12

theorem transform_read_write_rotated :
    ∃ (s : EncryptPool) (v : FieldValue) (ls : List (PoolLabel TransformCall DekInput Eviction)) (s' : EncryptPool)
      (t' : Thread DekOp DekOp.Ans EncryptError FieldValue TransformCall DekEvent),
      ((transforms keyedCrypto endpoints).pool ⟨DekWorld.start localKeks, []⟩).Run textLabels s ∧
      s.world.registry.newest "kek" "topic-value" .AES128_GCM = some 2 ∧
      ((transforms keyedCrypto endpoints).pool (s.spawned keyedCrypto endpoints ⟨1, .STRING, v⟩)).Run ls s' ∧
      s'.threads[s.threads.length]? = some t' ∧ t'.prog.result? = some (.ok (.string "Zürich")) := by
  let run := ((transforms keyedCrypto endpoints).pool ⟨DekWorld.start localKeks, []⟩).exec (fun _ _ => true)
    ⟨DekWorld.start localKeks, []⟩ textLabels
  obtain ⟨s, hs⟩ := Option.isSome_iff_exists.mp (show run.isSome by decide +kernel)
  have hnew : (run.map fun s => s.world.registry.newest "kek" "topic-value" .AES128_GCM) = some (some 2) := by
    decide +kernel
  have hwrote : (run.bind fun s => s.threads[0]?.map fun t => (t.arg.object, t.arg.fieldType, t.arg.fieldValue,
      t.prog.result?.any Except.isOk)) = some (0, .STRING, .string "Zürich", true) := by
    decide +kernel
  rw [hs] at hnew hwrote
  obtain ⟨⟨⟨o, ft, fv⟩, p, tr⟩, ht, harg⟩ := Option.map_eq_some_iff.mp hwrote
  obtain ⟨rfl, rfl, rfl, hp⟩ : o = 0 ∧ ft = .STRING ∧ fv = .string "Zürich" ∧ _ = true := by simpa using harg
  obtain ⟨v, hv⟩ : ∃ v, p.result? = some (.ok v) := by
    obtain ⟨r, hr, hok⟩ := (Option.any_eq_true _ _).mp hp
    cases r with
    | error e => cases hok
    | ok v => exact ⟨v, hr⟩
  have hrun : ((transforms keyedCrypto endpoints).pool ⟨DekWorld.start localKeks, []⟩).Run textLabels s :=
    Lts.Run.of_exec hs
  have hm : Matches (TransformCall.transform ⟨0, .STRING, .string "Zürich"⟩ endpoints) (endpoints 1) :=
    ⟨rfl, rfl, rfl, rfl, rfl, rfl⟩
  obtain ⟨t', hj, -, hread⟩ := transform_read_write keyedCrypto_inverts hrun (List.mem_of_getElem? ht) rfl hv
    (o := 1) rfl (endpoints_hasKmsKeys 1) hm .nil
  have htrace : t'.trace = [] := by
    obtain rfl : _ = t' := by simpa [System.pool, Pool.spawned] using hj
    rfl
  obtain ⟨-, ls, s', t'', -, hrun', hj', -, hres⟩ := hread (by simp [htrace, NoFailure])
  exact ⟨s, v, ls, s', t'', hrun, Option.some.inj hnew, hrun', hj', hres⟩

end ConfluentKafka
