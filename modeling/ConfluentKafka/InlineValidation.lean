import ConfluentKafka.AvroValidation
import ConfluentKafka.JsonValidation
import ConfluentKafka.ProtoValidation

/-!
# Validation that stops at the first failure

The three walks look for a failure behind every call and every loop, so that each of them agrees with itself.
-/

namespace ConfluentKafka

open FailFast (Report upToFailure)

section

variable {η β : Type}

/-- The first failure of the whole run alone, and its evaluations up to that. -/
def FirstFailureOf (fast full : Report (Evaluation η β) ValidationRuleError) : Prop :=
  fast.out = full.out.take 1 ∧ fast.evaluated = upToFailure Evaluation.failure full.evaluated

theorem firstFailureOf_run {full fast : Validation η β Unit} (h : StopsAtFailure full fast)
    {report : Report (Evaluation η β) ValidationRuleError} (hfull : (full ⟨[], []⟩).map Prod.snd = .ok report) :
    ∃ report', (fast ⟨[], []⟩).map Prod.snd = .ok report' ∧ FirstFailureOf report' report := by
  cases hrun : full ⟨[], []⟩ with
  | error e =>
    rw [hrun] at hfull
    cases hfull
  | ok r =>
    rw [hrun] at hfull
    obtain rfl : r.2 = report := Except.ok.inj hfull
    obtain ⟨report', hfast, hfirst⟩ := h.run hrun
    exact ⟨report', by rw [hfast]; rfl, hfirst⟩

end

/-- Whenever a run that goes on behind failures does not throw, the one that stops has its first failure and
no evaluation behind it. -/
theorem failFast_agrees :
    (∀ env readOther executor rules fuel schema msg report,
      Avro.validateAvroMessage env readOther executor rules false fuel schema msg = .ok report →
        ∃ report', Avro.validateAvroMessage env readOther executor rules true fuel schema msg = .ok report' ∧
          FirstFailureOf report' report) ∧
    (∀ env getRules executor fuel schema msg report,
      Json.validateJsonMessage env getRules executor false fuel schema msg = .ok report →
        ∃ report', Json.validateJsonMessage env getRules executor true fuel schema msg = .ok report' ∧
          FirstFailureOf report' report) ∧
    (∀ env options executor view fuel descriptor runtimeDescriptor msg report,
      Proto.validateProtobufMessage env options executor false view fuel descriptor runtimeDescriptor
        msg = .ok report →
        ∃ report', Proto.validateProtobufMessage env options executor true view fuel descriptor runtimeDescriptor
          msg = .ok report' ∧
          FirstFailureOf report' report) := by
  refine ⟨fun env readOther executor rules fuel schema msg report h => ?_, fun env getRules executor fuel schema msg
    report h => ?_,
    fun env options executor view fuel descriptor runtimeDescriptor msg report h => ?_⟩
  · exact firstFailureOf_run (Avro.validate_agrees fuel schema "" (some msg)) h
  · exact firstFailureOf_run (Json.validate_agrees fuel schema "$" msg) h
  · unfold Proto.validateProtobufMessage at h ⊢
    cases hmsg : Proto.present (some msg) with
    | none =>
      rw [hmsg] at h
      obtain rfl := Except.ok.inj h
      exact ⟨_, rfl, rfl, rfl⟩
    | some msg =>
      rw [hmsg] at h
      dsimp only at h ⊢
      cases hview : Proto.schemaMessage view descriptor runtimeDescriptor msg with
      | error e =>
        rw [hview] at h
        cases h
      | ok schemaMsg =>
        rw [hview] at h
        exact firstFailureOf_run (Proto.validate_agrees fuel descriptor _ "" (some msg) schemaMsg) h

def twoRules : Json.SchemaNode → List ValidationRule := fun _ =>
    [⟨some "first", none, none, none⟩, ⟨some "second", none, none, none⟩]

def anyNode : Json.SchemaNode := ⟨none, false, none, none, [], [], [], none, [], 0⟩

theorem failFast_agrees_object :
    ∃ report', Json.validateJsonMessage ⟨fun _ => .bool true, fun _ _ => true, fun _ _ => false⟩ twoRules
      (fun _ _ _ => .boolean false)
      true 1 (.node anyNode) (.object []) = .ok report' ∧ FirstFailureOf report'
        ⟨(twoRules anyNode).map fun rule => ⟨rule, "$", none, none⟩,
          (twoRules anyNode).map fun rule => ⟨rule, anyNode, .object [], "$", some ⟨rule, "$", none, none⟩⟩⟩ :=
  failFast_agrees.2.1 _ _ _ _ _ _ _ rfl

end ConfluentKafka
