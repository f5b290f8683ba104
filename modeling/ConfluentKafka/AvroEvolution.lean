import ConfluentKafka.AvroRuns

/-!
# Reading in another version

A consumer that reads in a version of its own gets the message of the writer's version through exactly the
migrations between the two, and then through the read rules of its own version. When the migrations can be
undone and no domain rule is in the way, what it writes in its version comes back to the first version as the
message it was.
-/

namespace ConfluentKafka

namespace AvroSerde

variable {μ τ σ : Type} {a : AvroSerde μ τ} {reg : SchemaRegistry σ} {w : σ} {topic subject : String} {n : Nat}
  {schemas : Nat → SchemaMetadata}

/-- The registry serves the versions `1..n` of the subject, finds those of `i` and `v`, and both are of the
topic. -/
structure Versioned (a : AvroSerde μ τ) (reg : SchemaRegistry σ) (w : σ) (topic subject : String) (n : Nat)
    (schemas : Nat → SchemaMetadata) (i v : Nat) : Prop where
  serves : Serves (reg.migrationClient w) subject none n schemas
  range : (1 ≤ i ∧ i ≤ n) ∧ 1 ≤ v ∧ v ≤ n
  version : ∀ k ∈ [i, v], (reg.migrationClient w).getVersion subject (schemas k).toSchemaInfo false true = .ok
    (k : Int)
  named : ∀ k ∈ [i, v], a.subjectName topic (some (schemas k).toSchemaInfo) = .ok subject

theorem Versioned.swap {i v : Nat} (h : Versioned a reg w topic subject n schemas i v) :
    Versioned a reg w topic subject n schemas v i where
  serves := h.serves
  range := h.range.symm
  version := fun k hk => h.version k (by simpa [or_comm] using hk)
  named := fun k hk => h.named k (by simpa [or_comm] using hk)

/-- A frame of a message in a version: the registry holds its schema, whose rules can be taken back, and there
is something in it. -/
structure Frame (a : AvroSerde μ τ) (reg : SchemaRegistry σ) (w : σ) (topic : String) (info : SchemaInfo)
    (msg : Payload μ)
    (bytes : Bytes) (headers : Option Headers) : Prop where
  recoverable : a.RecoverableSchema info
  nonempty : bytes ≠ []
  written : ∃ conf md before, Unhidden a conf before ∧ Held a reg w topic (avroSchemaId md) info ∧
    a.encode conf topic (avroSchemaId md) info (some msg) before = .ok (some (.buffer bytes), headers)

/-- The message after the write rules of the writer's version, the migrations, and the read rules of the
reader's. -/
theorem deserialize_migrated (hlaw : a.avsc.Lawful) {i v : Nat} (hv : Versioned a reg w topic subject n schemas i v)
    {msg : Payload μ} {bytes : Bytes} {headers : Option Headers}
    (hf : Frame a reg w topic (schemas i).toSchemaInfo msg bytes headers) {conf : SerdeConfig}
    (hreader : getReaderSchema reg w conf subject none = .ok (some (schemas v)))
    (hsome : migrationsBetween schemas i v ≠ []) :
    ∃ stored, (a.rules.executeRulesWithPhase (ruleCall subject topic .domain .write (schemas i).toSchemaInfo)
        (some msg)).result = .ok (some stored) ∧
      a.deserialize reg w conf topic (some (.buffer bytes)) headers =
        a.rules.executeMigrations subject topic (migrationsBetween schemas i v) (some stored) >>= fun moved =>
          (a.rules.executeRulesWithPhase (ruleCall subject topic .domain .read (schemas v).toSchemaInfo)
            moved).result := by
  obtain ⟨conf₀, md, before, hheaders, hheld, hencode⟩ := hf.written
  obtain ⟨t, subject', stored, encoded, framed, hs, heq⟩ :=
    deserialize_encoded hlaw (fun _ => hf.recoverable) hheaders hheld hencode conf
  obtain rfl := Except.ok.inj (hs.named.symm.trans (hv.named i (by simp)))
  refine ⟨stored, hs.written, ?_⟩
  have hmigrations : readerMigrations reg w subject' (schemas i).toSchemaInfo (some (schemas v)) =
      .ok (migrationsBetween schemas i v) :=
    getMigrations_eq hv.serves hv.range.1.1 hv.range.1.2 hv.range.2.1 hv.range.2.2 (hv.version i (by simp))
  rw [heq, if_neg hf.nonempty, readEncoded, hreader]
  show (readerMigrations reg w subject' (schemas i).toSchemaInfo (some (schemas v)) >>= _) = _
  rw [hmigrations]
  show (a.decode subject' topic (migrationsBetween schemas i v) (some (schemas v)) t (some encoded) >>= _) = _
  rw [decode, if_pos hsome, hs.fromMsgBytes]
  rfl

/-! ## There and back -/

def NoDomainRules (info : SchemaInfo) : Prop := info.ruleSet.bind RuleSet.domainRules = none

theorem execute_noDomainRules {info : SchemaInfo} (h : NoDomainRules info) {ruleMode : RuleMode}
    (hmode : ruleMode = .write ∨ ruleMode = .read) (msg : Option (Payload μ)) :
    (a.rules.executeRulesWithPhase (ruleCall subject topic .domain ruleMode info) msg).result = .ok msg := by
  cases msg with
  | none => rfl
  | some m =>
    have hrules : Serde.rulesOf (ruleCall subject topic .domain ruleMode info) info = none := by
      rcases hmode with rfl | rfl
      · exact h
      · show (info.ruleSet.bind RuleSet.domainRules).map List.reverse = none
        rw [h]
        rfl
    rw [Serde.execute_none rfl hrules]

theorem migrationsBetween_swap_ne {i v : Nat} (hrev : ReversibleMigrations a.rules subject topic schemas i v)
    (h : migrationsBetween schemas i v ≠ []) : migrationsBetween schemas v i ≠ [] := by
  unfold migrationsBetween at h ⊢
  rw [Ne, List.map_eq_nil_iff, List.filter_eq_nil_iff, not_forall] at h ⊢
  obtain ⟨k, hk⟩ := h
  rw [Classical.not_imp, not_not, decide_eq_true_iff] at hk
  refine ⟨k, ?_⟩
  rw [Classical.not_imp, not_not, decide_eq_true_iff, stepsBetween_swap, List.mem_reverse]
  exact ⟨hk.1, (applicable_swap hrev hk.1).mp hk.2⟩

def stepped : AvroSerde Int Unit :=
  { shifted with
    rules :=
      { isKey := false
        isFalse := fun _ => false
        getExecutor := fun _ => some fun ctx msg => .ok (msg.map fun m =>
          match m with
          | .buffer bytes => .buffer bytes
          | .other n => .other (if ctx.ruleMode = .upgrade then n + 1 else n - 1))
        getAction := fun _ => none
        getOverride := fun _ => none } }

def stepRegistry : SchemaRegistry Unit where
  registerFullResponse := fun _ _ _ _ => (.error (.error "read only"), ())
  getIdFullResponse := fun _ _ _ _ => .error (.error "Schema not found")
  getBySubjectAndId := fun _ _ id _ => .ok (stepSchemas id.toNat).toSchemaInfo
  getByGuid := fun _ _ _ => .error (.error "Schema not found")
  getLatestSchemaMetadata := fun _ _ _ => .ok (stepSchemas 3)
  getLatestWithMetadata := fun _ _ _ _ _ => .ok (stepSchemas 1)
  migrationClient := fun _ => stepClient

theorem versioned_stepped : Versioned stepped stepRegistry () "orders" "orders-value" 3 stepSchemas 1 3 where
  serves := by
    refine ⟨fun i h₁ h₂ => ?_, fun i _ _ => rfl⟩
    match i, h₁, h₂ with
    | 1, _, _ => rfl
    | 2, _, _ => rfl
    | 3, _, _ => rfl
  range := by decide
  version := by
    intro k hk
    simp only [List.mem_cons, List.not_mem_nil, or_false] at hk
    rcases hk with rfl | rfl <;> rfl
  named := fun _ _ => rfl

theorem reversible_stepped : ReversibleMigrations stepped.rules "orders-value" "orders" stepSchemas 1 3 := by
  have hrule : ∀ c d : RuleContext, c.rule = stepRule → c.enabledEnv = none → c.ruleMode = .upgrade →
      d.rule = stepRule → d.ruleMode = .downgrade → ReversibleRule stepped.rules c d := by
    intro c d hc henv hup hd hdown
    refine ⟨by rw [hc]; rfl, by rw [hc]; rfl, ?_, ⟨_, rfl, fun m => ?_⟩, fun m => ?_, fun m => ?_⟩
    · simp [Serde.isDisabled, stepped, hc, henv, stepRule]
    · cases m with
      | buffer bytes => exact ⟨.buffer bytes, rfl, rfl⟩
      | other n => exact ⟨.other (n + 1), by simp [hup], by simp [hdown]⟩
    · simp [Serde.runAction, Serde.getOnSuccess, stepped, hc, stepRule, getRuleActionName,
        Serde.getRuleAction, NoneAction]
    · simp [Serde.runAction, Serde.getOnSuccess, stepped, hd, stepRule, getRuleActionName,
        Serde.getRuleAction, NoneAction]
  intro i hi there back hthere hback rules hrules k hk
  subst hthere hback
  have hi : 2 ≤ i ∧ i < 4 := by simpa [stepsBetween] using hi
  have hi : i = 2 ∨ i = 3 := by omega
  have hall : ∀ rule ∈ rules, rule = stepRule := by
    rcases hi with rfl | rfl
    · obtain rfl := Option.some.inj hrules
      simp
    · obtain rfl := Option.some.inj hrules
      simp
  have hk' := hall _ (List.getElem_mem hk)
  rcases hi with rfl | rfl
  · exact hrule _ _ hk' rfl rfl hk' rfl
  · exact hrule _ _ hk' rfl rfl hk' rfl

theorem frame_stepped {k : Nat} (hk : k = 1 ∨ k = 3) {n : Int} {bytes : Bytes} (hne : bytes ≠ [])
    (h : stepped.encode {} "orders" (avroSchemaId { stepSchemas k with id := some (k : Int) })
      (stepSchemas k).toSchemaInfo
      (some (.other n)) none = .ok (some (.buffer bytes), none)) :
    Frame stepped stepRegistry () "orders" (stepSchemas k).toSchemaInfo (.other n) bytes none where
  recoverable := by
    intro subject topic
    refine ⟨fun target rules ht hrs => ?_, fun target rules ht hrs => ?_⟩
    all_goals
      obtain rfl := Option.some.inj ht
      rcases hk with rfl | rfl <;> cases hrs
  nonempty := hne
  written := by
    refine ⟨{}, { stepSchemas k with id := some (k : Int) }, none, fun _ => rfl,
      ⟨fun id hid => ?_, fun guid hguid => ?_⟩, h⟩
    · obtain rfl := Option.some.inj hid
      exact ⟨"orders-value", rfl, rfl⟩
    · rcases hk with rfl | rfl <;> cases hguid

end AvroSerde

end ConfluentKafka
