import ConfluentKafka.AvroLeaves
import ConfluentKafka.JsonIdentity
import ConfluentKafka.ProtoIdentity

/-!
# The walks of the three formats with the identity

A rule that returns each value unchanged should leave a message as it was. The Avro walk always does so;
the other two do unless they are disturbed.
-/

namespace ConfluentKafka

/-- The walks end with the message, outside every field, if and only if they are not disturbed. -/
theorem identity_walks {rule : WalkRule} (hrule : rule.condition = false) :
    (∀ (env : Avro.Setting) (t : Avro.AvType) (v : Avro.Datum) (os : List Avro.Occurrence),
      Avro.Leaves env none t v os →
      ∃ n, ∀ fuel ≥ n, ∃ notes,
        Avro.transform env rule Avro.identity fuel t v ⟨[], []⟩ = .ok v ⟨[], notes⟩) ∧
    (∀ (env : Json.Setting) (schema : Json.Schema) (path : String) (v : JsValue), Json.Grounded env.graph →
      ((∃ n, ∀ fuel ≥ n, ∃ notes,
          Json.transform env rule Json.identity fuel schema path v ⟨[], []⟩ = .ok v ⟨[], notes⟩) ↔
        ¬Json.Disturbed env schema v)) ∧
    ∀ (env : Proto.Setting) (d : Proto.DescMessage) (r : Option Proto.DescMessage) (v : Proto.Value),
      Proto.Valid env d r v →
      ((∃ n, ∀ fuel ≥ n, ∃ notes,
          Proto.transform env rule Proto.identity fuel d r v ⟨[], []⟩ = .ok v ⟨[], notes⟩) ↔
        ¬Proto.Disturbed env d r v) := by
  refine ⟨fun env t v os h => ?_, fun env schema path v hgraph => ?_, fun env d r v hvalid => ?_⟩
  · exact Avro.transform_identity hrule h
  · exact Json.transform_identity_iff hrule hgraph schema path v
  · exact Proto.transform_identity_iff hrule hvalid

namespace Identity

def rule : WalkRule := ⟨"same", [], false, fun _ => []⟩

def jsonGraph : Nat → Json.Schema
  | 0 => .node { Json.Sample.empty with type := some (.inl .object), properties := some [("constructor", 1)] }
  | _ => .node { Json.Sample.empty with type := some (.inl .string) }

def jsonSetting : Json.Setting := { Json.Sample.setting with graph := jsonGraph }

/-- A message with an integer that has explicit presence, and a map of such messages. -/
def protoDesc : Proto.DescMessage where
  typeName := "Node"
  fields := [⟨"count", "count", 1, .single (.scalar .int32), none, []⟩,
    ⟨"nodes", "nodes", 2, .map (.message 0), none, []⟩]

def protoSetting : Proto.Setting where
  descs _ := protoDesc
  inherits _ localName := if localName = "count" then some (.scalar .number 0) else none
  plain typeName localName value h := by
    split_ifs at h
    cases h
    rfl

def protoNode (count : Option Nat) (entries : List (String × Proto.Value)) : Proto.Value :=
  .message "Node" ((count.toList.map fun n => ("count", .scalar .number n)) ++ [("nodes", .map entries)])

/-- The fields of the message, with the values they may have. -/
theorem ownValue_protoNode {r : Option Proto.DescMessage} (hr : r.getD protoDesc = protoDesc) {count : Option Nat}
    {entries : List (String × Proto.Value)} {fd runtimeFd : Proto.DescField} {value : Proto.Value}
    (hmem : runtimeFd ∈ (r.getD protoDesc).fields) (hfd : Proto.schemaFieldFor protoDesc r runtimeFd = some fd)
    (hvalue : Proto.ownValue ((count.toList.map fun n => ("count", .scalar .number n)) ++ [("nodes", .map entries)])
      runtimeFd = some value) :
    fd = runtimeFd ∧ ((fd.kind = .single (.scalar .int32) ∧ value.isPlain = true) ∨
      (fd.kind = .map (.message 0) ∧ value = .map entries)) := by
  have heq : fd = runtimeFd := by
    rw [hr] at hmem
    cases r with
    | none => exact (Option.some.inj hfd).symm
    | some d =>
      simp only [protoDesc, List.mem_cons, List.not_mem_nil, or_false] at hmem
      obtain rfl | rfl := hmem
      · exact (Option.some.inj hfd).symm
      · exact (Option.some.inj hfd).symm
  refine ⟨heq, ?_⟩
  subst heq
  rw [hr] at hmem
  simp only [protoDesc, List.mem_cons, List.not_mem_nil, or_false] at hmem
  obtain rfl | rfl := hmem
  · cases count with
    | none => simp [Proto.ownValue, List.lookup_cons] at hvalue
    | some n =>
      simp only [Proto.ownValue, Option.toList_some, List.map_cons, List.map_nil, List.cons_append, List.nil_append,
        List.lookup_cons_self, Option.some.injEq] at hvalue
      subst hvalue
      exact .inl ⟨rfl, rfl⟩
  · right
    refine ⟨rfl, ?_⟩
    cases count with
    | none => simpa [Proto.ownValue, List.lookup_cons] using hvalue.symm
    | some n => simpa [Proto.ownValue, List.lookup_cons] using hvalue.symm

theorem valid_protoNode {r : Option Proto.DescMessage} (hr : r.getD protoDesc = protoDesc) (count : Option Nat)
    {entries : List (String × Proto.Value)}
    (h : ∀ e ∈ entries, Proto.Valid protoSetting protoDesc (some protoDesc) e.2) :
    Proto.Valid protoSetting protoDesc r (protoNode count entries) := by
  have hname : "Node" = (r.getD protoDesc).typeName := by rw [hr]; rfl
  unfold protoNode
  rw [hname]
  refine .message (fun runtimeFd hmem fd hfd value hvalue => ?_) fun runtimeFd hmem fd hfd value hvalue i w hpart =>
    ?_
  · obtain ⟨rfl, ⟨hkind, hplain⟩ | ⟨hkind, rfl⟩⟩ := ownValue_protoNode hr hmem hfd hvalue
    · exact .single hkind hkind rfl fun _ => hplain
    · exact .map hkind hkind rfl nofun
  · obtain ⟨rfl, ⟨hkind, -⟩ | ⟨hkind, rfl⟩⟩ := ownValue_protoNode hr hmem hfd hvalue
    · cases hpart with
      | single hkind' => cases hkind.symm.trans hkind'
      | elem hkind' _ => cases hkind.symm.trans hkind'
      | entry hkind' _ => cases hkind.symm.trans hkind'
    · cases hpart with
      | single hkind' => cases hkind.symm.trans hkind'
      | entry hkind' hw =>
        have hdesc : Proto.messageOf protoSetting fd = some protoDesc := by
          simp [Proto.messageOf, hkind, Proto.FieldKind.elem, protoSetting]
        rw [hdesc]
        exact h _ hw

end Identity

open Identity in
/-- A property that the message inherits, a field that is not set and a key that names the prototype. -/
theorem identity_disturbs :
    (∃ r t, Json.transform jsonSetting rule Json.identity 3 (jsonGraph 0) "$" (.object []) ⟨[], []⟩ = .ok r t ∧
      r ≠ .object []) ∧
    Proto.Valid protoSetting protoDesc none (protoNode none []) ∧
    (∃ r t, Proto.transform protoSetting rule Proto.identity 3 protoDesc none (protoNode none [])
      ⟨[], []⟩ = .ok r t ∧
      r ≠ protoNode none []) ∧
    Proto.Valid protoSetting protoDesc none (protoNode (some 1) [("__proto__", protoNode (some 2) [])]) ∧
    ∃ r t, Proto.transform protoSetting rule Proto.identity 3 protoDesc none
        (protoNode (some 1) [("__proto__", protoNode (some 2) [])]) ⟨[], []⟩ = .ok r t ∧
      r ≠ protoNode (some 1) [("__proto__", protoNode (some 2) [])] := by
  refine ⟨⟨.object [("constructor", .builtin)], _, rfl, by simp⟩, valid_protoNode rfl none nofun,
    ⟨.message "Node" [("nodes", .map []), ("count", .scalar .number 0)], _, rfl, by simp [protoNode]⟩,
    valid_protoNode rfl (some 1) fun e he => ?_, ⟨protoNode (some 1) [], _, rfl, by simp [protoNode]⟩⟩
  obtain rfl := List.mem_singleton.mp he
  exact valid_protoNode rfl (some 2) nofun

open Identity in
theorem identity_walks_node :
    Json.Grounded Json.Sample.graph ∧ Proto.Valid protoSetting protoDesc none (protoNode (some 1) []) ∧
    ((∃ n, ∀ fuel ≥ n, ∃ notes, Json.transform Json.Sample.setting rule Json.identity fuel (Json.Sample.graph 0) "$"
        (Json.Sample.person "ab") ⟨[], []⟩ = .ok (Json.Sample.person "ab") ⟨[], notes⟩) ↔
      ¬Json.Disturbed Json.Sample.setting (Json.Sample.graph 0) (Json.Sample.person "ab")) ∧
    ((∃ n, ∀ fuel ≥ n, ∃ notes, Proto.transform protoSetting rule Proto.identity fuel protoDesc none
        (protoNode (some 1) []) ⟨[], []⟩ = .ok (protoNode (some 1) []) ⟨[], notes⟩) ↔
      ¬Proto.Disturbed protoSetting protoDesc none (protoNode (some 1) [])) :=
  ⟨Json.Sample.grounded_graph, valid_protoNode rfl (some 1) nofun,
    (identity_walks rfl).2.1 Json.Sample.setting (Json.Sample.graph 0) "$" (Json.Sample.person "ab")
      Json.Sample.grounded_graph,
    (identity_walks rfl).2.2 protoSetting protoDesc none (protoNode (some 1) [])
    (valid_protoNode rfl (some 1) nofun)⟩

end ConfluentKafka
