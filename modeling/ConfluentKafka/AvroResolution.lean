import ConfluentKafka.AvroText

/-!
# The names of schema texts

The specification gives each definition a full name and the namespace that what it encloses is written in, and
each reference the full name that it stands for. The walks find the same names, each in its way, and
references are resolved to the definitions that they stand for, also where a definition was come to by a
reference from another namespace.
-/

namespace ConfluentKafka

namespace AvroText

open Avro (fullname namespaceOf qualify EndsWell Encloses)

/-! ## The specification -/

mutual

/-- The nodes of a schema that is written in a namespace, each with the namespace that it is written in. -/
def nodes (enclosing : String) : Schema → List (String × Schema)
  | .name s => [(enclosing, .name s)]
  | .union branches => (enclosing, .union branches) :: nodesAll enclosing branches
  | .primitive type => [(enclosing, .primitive type)]
  | .enum node => [(enclosing, .enum node)]
  | .fixed node => [(enclosing, .fixed node)]
  | .array items => (enclosing, .array items) :: nodes enclosing items
  | .map values => (enclosing, .map values) :: nodes enclosing values
  | .record node rules fields =>
    (enclosing, .record node rules fields) :: nodesFields (namespaceOf node.name node.nspace enclosing) fields

def nodesAll (enclosing : String) : List Schema → List (String × Schema)
  | [] => []
  | schema :: schemas => nodes enclosing schema ++ nodesAll enclosing schemas

def nodesFields (enclosing : String) : List Field → List (String × Schema)
  | [] => []
  | .mk _ _ _ type :: fields => nodes enclosing type ++ nodesFields enclosing fields

end

mutual

def visits (enclosing : String) : Schema → List Visit
  | .name _ => []
  | .union branches => visitsAll enclosing branches
  | .primitive _ => []
  | .enum _ => []
  | .fixed _ => []
  | .array items => visits enclosing items
  | .map values => visits enclosing values
  | .record node rules fields =>
    .record (fullname node.name node.nspace enclosing) rules ::
      visitsFields (namespaceOf node.name node.nspace enclosing) (fullname node.name node.nspace enclosing) fields

def visitsAll (enclosing : String) : List Schema → List Visit
  | [] => []
  | schema :: schemas => visits enclosing schema ++ visitsAll enclosing schemas

def visitsFields (enclosing recordName : String) : List Field → List Visit
  | [] => []
  | .mk name tags rules type :: fields =>
    .field recordName (.mk name tags rules type) ::
      (visits enclosing type ++ visitsFields enclosing recordName fields)

end

def definitionOf (n : String × Schema) : Option (String × Schema) :=
  n.2.definition.map fun node => (fullname node.name node.nspace n.1, withNamespaces n.1 n.2)

def definitions (enclosing : String) (schema : Schema) : List (String × Schema) :=
  (nodes enclosing schema).filterMap definitionOf

namespace Schemas

variable (schemas : Schemas)

def nodes : List (String × Schema) := schemas.texts.flatMap fun text => AvroText.nodes "" text.schema

def visits : List Visit := schemas.texts.flatMap fun text => AvroText.visits "" text.schema

def definitions : List (String × Schema) := schemas.nodes.filterMap definitionOf

end Schemas

def IsPrimitive (s : String) : Prop := s ∈ ["null", "boolean", "int", "long", "float", "double", "bytes", "string"]

instance : DecidablePred IsPrimitive := fun s =>
  inferInstanceAs (Decidable (s ∈ ["null", "boolean", "int", "long", "float", "double", "bytes", "string"]))

def simpleName (s : String) : String := String.ofList (s.toList.reverse.takeWhile (· ≠ '.')).reverse

/-- Every reference stands for a definition, or for a primitive type; no definition has the name of one in any
namespace. -/
structure Schemas.WellFormed (schemas : Schemas) : Prop where
  defined : ∀ ns s, (ns, .name s) ∈ schemas.nodes → IsPrimitive s ∨ ∃ d, (qualify ns s, d) ∈ schemas.definitions
  primitives : ∀ d ∈ schemas.definitions, ¬IsPrimitive (simpleName d.1)

inductive Schemas.Designates (schemas : Schemas) (ns s : String) : Schema → Prop where
  | primitive (h : IsPrimitive s) : Designates schemas ns s (.name s)
  | definition {d : Schema} (h : (qualify ns s, d) ∈ schemas.definitions) : Designates schemas ns s d

/-! ## Names -/

theorem endsWith_part (start : Bool) (cs : List Char) (h : nameParts start cs = true) :
    (cs = [] ∧ start = false) ∨ ∃ front c, cs = front ++ [c] ∧ c ≠ '.' := by
  induction cs generalizing start with
  | nil =>
    rw [nameParts, Bool.not_eq_true'] at h
    exact .inl ⟨rfl, h⟩
  | cons c cs ih =>
    right
    rw [nameParts] at h
    by_cases hdot : c = '.'
    · rw [if_pos hdot, Bool.and_eq_true] at h
      obtain ⟨-, hstart⟩ | ⟨front, last, rfl, hlast⟩ := ih true h.2
      · cases hstart
      · exact ⟨c :: front, last, rfl, hlast⟩
    · rw [if_neg hdot, Bool.and_eq_true] at h
      obtain ⟨rfl, -⟩ | ⟨front, last, rfl, hlast⟩ := ih false h.2
      · exact ⟨[], c, rfl, hdot⟩
      · exact ⟨c :: front, last, rfl, hlast⟩

theorem NameAttributes.endsWell (node : NameAttributes) : EndsWell node.name := by
  obtain ⟨-, hstart⟩ | ⟨front, c, hname, hc⟩ := endsWith_part true _ node.isName
  · cases hstart
  · rw [EndsWell, hname, List.reverse_append, List.reverse_singleton, List.singleton_append]
    simp [hc]

theorem exists_last_dot {cs : List Char} (h : '.' ∈ cs) : ∃ front back, cs = front ++ '.' :: back ∧ '.' ∉ back := by
  induction cs with
  | nil => cases h
  | cons c cs ih =>
    by_cases hcs : '.' ∈ cs
    · obtain ⟨front, back, rfl, hback⟩ := ih hcs
      exact ⟨c :: front, back, rfl, hback⟩
    · obtain rfl : '.' = c := (List.mem_cons.mp h).resolve_right hcs
      exact ⟨[], cs, rfl, hcs⟩

/-- The full name and the namespace that are found at the last dot are those of the specification. -/
theorem avroFullname_eq (node : NameAttributes) (ns : String) :
    avroFullname node ns = (namespaceOf node.name node.nspace ns, fullname node.name node.nspace ns) := by
  unfold avroFullname namespaceOf fullname
  by_cases hdot : '.' ∈ node.name.toList
  · obtain ⟨front, back, hname, hback⟩ := exists_last_dot hdot
    rw [if_pos hdot, if_pos hdot, hname, DottedNames.lastIndexOf_append _ hback, Avro.dropWhile_dot _ _ hback]
    simp
  · rw [if_neg hdot, if_neg hdot, DottedNames.lastIndexOf_eq_none hdot]
    simp only [ne_eq, ite_not]

/-- A definition of which nothing tells the namespace is in none, and is seen in none. -/
def Keeps (node : NameAttributes) (enclosing ns : String) : Prop :=
  '.' ∉ node.name.toList → node.nspace = none → enclosing = "" → ns = ""

/-- With the namespace that is written on it, a definition keeps its namespace where it is come to by a
reference. -/
theorem avroFullname_inherit {node : NameAttributes} {enclosing ns : String} (h : Keeps node enclosing ns) :
    (avroFullname (node.inherit enclosing) ns).1 = namespaceOf node.name node.nspace enclosing := by
  rw [avroFullname_eq]
  unfold NameAttributes.inherit
  rw [avroFullname_eq]
  dsimp only
  by_cases hdot : '.' ∈ node.name.toList
  · rw [if_neg fun hwrites => hwrites.2.2 hdot, namespaceOf, namespaceOf, if_pos hdot, if_pos hdot]
  · cases hns : node.nspace with
    | some nspace =>
      rw [if_neg fun hwrites => Option.some_ne_none _ hwrites.2.1, hns, namespaceOf, namespaceOf, if_neg hdot,
        if_neg hdot]
      rfl
    | none =>
      have hencl : namespaceOf node.name none enclosing = enclosing := by
        rw [namespaceOf, if_neg hdot, Option.getD_none]
      rw [hencl]
      by_cases hempty : enclosing = ""
      · rw [if_neg fun hwrites => hwrites.1 hempty, hns, namespaceOf, if_neg hdot, Option.getD_none,
          h hdot hns hempty, hempty]
      · rw [if_pos ⟨hempty, rfl, hdot⟩, namespaceOf, if_neg hdot, Option.getD_some]

/-! ## The walks come by the same records -/

theorem visit_record (node : NameAttributes) {ns name : String} (h : Encloses ns name) :
    Avro.resolveRecordFullname node.name node.nspace ns name =
      (namespaceOf node.name node.nspace ns, fullname node.name node.nspace ns) :=
  Avro.resolveRecordFullname_eq h node.endsWell node.nspace

section

variable {σ : Type} (visit : σ → Visit → σ)

mutual

/-- Where the namespace is found in the name of the record, or else is what is passed, the walk visits what the
specification lists. -/
theorem walk_eq {ns name : String} (h : Encloses ns name) :
    ∀ (schema : Schema) (s : σ), walk visit ns name schema s = (visits ns schema).foldl visit s
  | .name _, _ => rfl
  | .union branches, s => walkAll_eq h branches s
  | .primitive _, _ => rfl
  | .enum _, _ => rfl
  | .fixed _, _ => rfl
  | .array items, s => walk_eq h items s
  | .map values, s => walk_eq h values s
  | .record node rules fields, s => by
    rw [walk, visit_record node h, visits, List.foldl_cons]
    exact walkFields_eq (Avro.encloses_fullname node.endsWell node.nspace ns) fields _

theorem walkAll_eq {ns name : String} (h : Encloses ns name) :
    ∀ (schemas : List Schema) (s : σ), walkAll visit ns name schemas s = (visitsAll ns schemas).foldl visit s
  | [], _ => rfl
  | schema :: schemas, s => by
    rw [walkAll, visitsAll, List.foldl_append, walk_eq h schema, walkAll_eq h schemas]

theorem walkFields_eq {ns name : String} (h : Encloses ns name) :
    ∀ (fields : List Field) (s : σ), walkFields visit ns name fields s = (visitsFields ns name fields).foldl visit s
  | [], _ => rfl
  | .mk _ _ _ type :: fields, s => by
    rw [walkFields, visitsFields, List.foldl_cons, List.foldl_append, walk_eq h type, walkFields_eq h fields]

end

theorem encloses_empty : Encloses "" "" := by
  rw [Encloses, Avro.impliedNamespace_dotless (by simp), Option.getD_none]

/-- The walks over the root and what it refers to, one after the other. -/
theorem walk_texts (schemas : Schemas) (s : σ) :
    schemas.deps.foldl (fun s dep => walk visit "" "" dep.schema s) (walk visit "" "" schemas.root.schema s) =
      schemas.visits.foldl visit s := by
  have hdeps (deps : List SchemaText) (s : σ) : deps.foldl (fun s dep => walk visit "" "" dep.schema s) s =
      (deps.flatMap fun text => visits "" text.schema).foldl visit s := by
    induction deps generalizing s with
    | nil => rfl
    | cons dep deps ih =>
      rw [List.foldl_cons, ih, List.flatMap_cons, List.foldl_append, walk_eq visit encloses_empty]
  rw [Schemas.visits, Schemas.texts, List.flatMap_cons, List.foldl_append, hdeps, walk_eq visit encloses_empty]

end

inductive Visits : String × Schema → Visit → Prop where
  | record {ns : String} {node : NameAttributes} {rules : Option (List RuleEntry)} {fields : List Field} :
      Visits (ns, .record node rules fields) (.record (fullname node.name node.nspace ns) rules)
  | field {ns : String} {node : NameAttributes} {rules : Option (List RuleEntry)} {fields : List Field}
    {field : Field}
      (h : field ∈ fields) : Visits (ns, .record node rules fields)
      (.field (fullname node.name node.nspace ns) field)

theorem visits_record {ns : String} {node : NameAttributes} {rules : Option (List RuleEntry)} {fields : List Field}
    {v : Visit} :
    Visits (ns, .record node rules fields) v ↔ v = .record (fullname node.name node.nspace ns) rules ∨
      ∃ field ∈ fields, v = .field (fullname node.name node.nspace ns) field := by
  constructor
  · intro h
    cases h with
    | record => exact .inl rfl
    | field h => exact .inr ⟨_, h, rfl⟩
  · rintro (rfl | ⟨field, h, rfl⟩)
    · exact .record
    · exact .field h

theorem exists_mem_cons_of_not {n : String × Schema} {ns : List (String × Schema)} {v : Visit} (h : ¬Visits n v) :
    (∃ m ∈ n :: ns, Visits m v) ↔ ∃ m ∈ ns, Visits m v := by
  rw [List.exists_mem_cons_iff]
  exact or_iff_right h

mutual

theorem mem_visits {v : Visit} (ns : String) :
    ∀ schema : Schema, v ∈ visits ns schema ↔ ∃ n ∈ nodes ns schema, Visits n v
  | .name _ => by
    rw [visits, nodes, exists_mem_cons_of_not]
    · simp
    · nofun
  | .union branches => by
    rw [visits, nodes, exists_mem_cons_of_not]
    · exact mem_visitsAll ns branches
    · nofun
  | .primitive _ => by
    rw [visits, nodes, exists_mem_cons_of_not]
    · simp
    · nofun
  | .enum _ => by
    rw [visits, nodes, exists_mem_cons_of_not]
    · simp
    · nofun
  | .fixed _ => by
    rw [visits, nodes, exists_mem_cons_of_not]
    · simp
    · nofun
  | .array items => by
    rw [visits, nodes, exists_mem_cons_of_not]
    · exact mem_visits ns items
    · nofun
  | .map values => by
    rw [visits, nodes, exists_mem_cons_of_not]
    · exact mem_visits ns values
    · nofun
  | .record node rules fields => by
    rw [visits, nodes, List.mem_cons, mem_visitsFields, List.exists_mem_cons_iff, visits_record, or_assoc]

theorem mem_visitsAll {v : Visit} (ns : String) :
    ∀ schemas : List Schema, v ∈ visitsAll ns schemas ↔ ∃ n ∈ nodesAll ns schemas, Visits n v
  | [] => by simp [visitsAll, nodesAll]
  | schema :: schemas => by
    rw [visitsAll, nodesAll, List.mem_append, mem_visits ns schema, mem_visitsAll ns schemas]
    simp only [List.mem_append, or_and_right, exists_or]

theorem mem_visitsFields {v : Visit} (ns recordName : String) : ∀ fields : List Field,
    v ∈ visitsFields ns recordName fields ↔
      (∃ field ∈ fields, v = .field recordName field) ∨ ∃ n ∈ nodesFields ns fields, Visits n v
  | [] => by simp [visitsFields, nodesFields]
  | .mk name tags rules type :: fields => by
    rw [visitsFields, nodesFields, List.mem_cons, List.mem_append, mem_visits ns type,
      mem_visitsFields ns recordName fields, List.exists_mem_cons_iff, or_assoc]
    simp only [List.mem_append, or_and_right, exists_or]
    exact or_congr_right or_left_comm

end

theorem Schemas.mem_visits (schemas : Schemas) (v : Visit) : v ∈ schemas.visits ↔ ∃ n ∈ schemas.nodes,
    Visits n v := by
  simp only [Schemas.visits, Schemas.nodes, List.mem_flatMap, AvroText.mem_visits]
  constructor
  · rintro ⟨text, htext, n, hn, hv⟩
    exact ⟨n, ⟨text, htext, hn⟩, hv⟩
  · rintro ⟨n, ⟨text, htext, hn⟩, hv⟩
    exact ⟨text, htext, n, hn, hv⟩

/-! ## The index holds the definitions by their full names -/

def index (out : Named) (d : String × Schema) : Named := out.set d.1 d.2

theorem foldl_definitions_cons {n : String × Schema} {ns : List (String × Schema)} (out : Named)
    (h : n.2.definition = none) :
    ((n :: ns).filterMap definitionOf).foldl index out = (ns.filterMap definitionOf).foldl index out := by
  rw [List.filterMap_cons_none (by rw [definitionOf, h, Option.map_none])]

theorem index_definition {node : NameAttributes} {ns : String} {schema : Schema} (h : schema.definition = some node)
    (rest : List (String × Schema)) (out : Named) :
    (((ns, schema) :: rest).filterMap definitionOf).foldl index out =
      (rest.filterMap definitionOf).foldl index (out.set (avroFullname node ns).2 (withNamespaces ns schema)) := by
  have hdefinition :
      definitionOf (ns, schema) = some (fullname node.name node.nspace ns, withNamespaces ns schema) := by
    rw [definitionOf, h, Option.map_some]
  rw [List.filterMap_cons_some hdefinition, List.foldl_cons, avroFullname_eq, index]

mutual

theorem collectAvroNamed_eq (ns : String) :
    ∀ (schema : Schema) (out : Named), collectAvroNamed ns out schema = (definitions ns schema).foldl index out
  | .name _, out => by rw [definitions, nodes, foldl_definitions_cons out rfl]; rfl
  | .union branches, out => by
    rw [definitions, nodes, foldl_definitions_cons out rfl]
    exact collectAvroNamedEach_eq ns branches out
  | .primitive _, out => by rw [definitions, nodes, foldl_definitions_cons out rfl]; rfl
  | .enum node, out => by rw [definitions, nodes, index_definition rfl]; rfl
  | .fixed node, out => by rw [definitions, nodes, index_definition rfl]; rfl
  | .array items, out => by
    rw [definitions, nodes, foldl_definitions_cons out rfl]
    exact collectAvroNamed_eq ns items out
  | .map values, out => by
    rw [definitions, nodes, foldl_definitions_cons out rfl]
    exact collectAvroNamed_eq ns values out
  | .record node rules fields, out => by
    rw [definitions, nodes, index_definition rfl, collectAvroNamed, collectAvroNamedFields_eq, avroFullname_eq]

theorem collectAvroNamedEach_eq (ns : String) : ∀ (schemas : List Schema) (out : Named),
    collectAvroNamedEach ns out schemas = ((nodesAll ns schemas).filterMap definitionOf).foldl index out
  | [], _ => rfl
  | schema :: schemas, out => by
    rw [collectAvroNamedEach, nodesAll, List.filterMap_append, List.foldl_append, collectAvroNamed_eq ns schema,
      collectAvroNamedEach_eq ns schemas, definitions]

theorem collectAvroNamedFields_eq (ns : String) : ∀ (fields : List Field) (out : Named),
    collectAvroNamedFields ns out fields = ((nodesFields ns fields).filterMap definitionOf).foldl index out
  | [], _ => rfl
  | .mk _ _ _ type :: fields, out => by
    rw [collectAvroNamedFields, nodesFields, List.filterMap_append, List.foldl_append, collectAvroNamed_eq ns type,
      collectAvroNamedFields_eq ns fields, definitions]

end

theorem collectAvroNamedAll_eq (schemas : Schemas) :
    collectAvroNamedAll schemas = schemas.definitions.foldl index .empty := by
  have hdeps (deps : List SchemaText) (out : Named) :
      deps.foldl (fun named dep => collectAvroNamed "" named dep.schema) out =
      ((deps.flatMap fun text => nodes "" text.schema).filterMap definitionOf).foldl index out := by
    induction deps generalizing out with
    | nil => rfl
    | cons dep deps ih =>
      rw [List.foldl_cons, ih, List.flatMap_cons, List.filterMap_append, List.foldl_append, collectAvroNamed_eq,
        definitions]
  rw [collectAvroNamedAll, Schemas.definitions, Schemas.nodes, Schemas.texts, List.flatMap_cons,
    List.filterMap_append,
    List.foldl_append, hdeps, collectAvroNamed_eq, definitions]

theorem get?_index {s : String} {d : Schema} (ds : List (String × Schema)) {out : Named}
    (h : (ds.foldl index out).get? s = some d) : out.get? s = some d ∨ (s, d) ∈ ds := by
  induction ds generalizing out with
  | nil => exact .inl h
  | cons e ds ih =>
    obtain hout | hds := ih h
    · rw [index, JsMap.get?_set] at hout
      split_ifs at hout with hs
      · cases hout
        exact .inr (hs ▸ List.mem_cons_self)
      · exact .inl hout
    · exact .inr (List.mem_cons_of_mem e hds)

theorem get?_index_ne_none {s : String} (ds : List (String × Schema)) {out : Named}
    (h : out.get? s ≠ none ∨ ∃ d, (s, d) ∈ ds) : (ds.foldl index out).get? s ≠ none := by
  induction ds generalizing out with
  | nil =>
    obtain h | ⟨d, h⟩ := h
    · exact h
    · cases h
  | cons e ds ih =>
    refine ih ?_
    rw [index, JsMap.get?_set]
    obtain h | ⟨d, h⟩ := h
    · left
      split_ifs
      · exact Option.some_ne_none _
      · exact h
    · obtain rfl | h := List.mem_cons.mp h
      · exact .inl (by rw [if_pos rfl]; exact Option.some_ne_none _)
      · exact .inr ⟨d, h⟩

theorem mem_definitions_of_get? {schemas : Schemas} {s : String} {d : Schema}
    (h : (collectAvroNamedAll schemas).get? s = some d) :
    (s, d) ∈ schemas.definitions := by
  rw [collectAvroNamedAll_eq] at h
  exact (get?_index _ h).resolve_left (by simp)

theorem exists_get?_of_mem {schemas : Schemas} {s : String} {d : Schema} (h : (s, d) ∈ schemas.definitions) :
    ∃ d', (collectAvroNamedAll schemas).get? s = some d' ∧ (s, d') ∈ schemas.definitions := by
  have hsome : (collectAvroNamedAll schemas).get? s ≠ none := by
    rw [collectAvroNamedAll_eq]
    exact get?_index_ne_none _ (.inr ⟨d, h⟩)
  obtain ⟨d', hd'⟩ := Option.ne_none_iff_exists'.mp hsome
  exact ⟨d', hd', mem_definitions_of_get? hd'⟩

/-! ## References resolve to what they stand for -/

theorem simpleName_dotted (ns : String) {s : String} (h : '.' ∉ s.toList) : simpleName (ns ++ "." ++ s) = s := by
  rw [simpleName, Avro.toList_dotted, Avro.takeWhile_dot _ _ h, List.reverse_reverse, String.ofList_toList]

theorem simpleName_dotless {s : String} (h : '.' ∉ s.toList) : simpleName s = s := by
  have hall : ∀ c ∈ s.toList.reverse, decide (c ≠ '.') = true := by
    intro c hc
    exact decide_eq_true fun heq => h (heq ▸ List.mem_reverse.mp hc)
  rw [simpleName, List.takeWhile_eq_self_iff.mpr hall, List.reverse_reverse, String.ofList_toList]

theorem IsPrimitive.dotless {s : String} (h : IsPrimitive s) : '.' ∉ s.toList := by
  simp only [IsPrimitive, List.mem_cons, List.not_mem_nil, or_false] at h
  obtain rfl | rfl | rfl | rfl | rfl | rfl | rfl | rfl := h <;> decide

theorem get?_primitive {schemas : Schemas} (h : schemas.WellFormed) {s : String} (hs : IsPrimitive (simpleName s)) :
    (collectAvroNamedAll schemas).get? s = none := by
  rw [Option.eq_none_iff_forall_ne_some]
  intro d hd
  exact h.primitives _ (mem_definitions_of_get? hd) hs

theorem resolveAvroNode_primitive {schemas : Schemas} (h : schemas.WellFormed) (ns : String) {s : String}
    (hs : IsPrimitive s) :
    resolveAvroNode (.name s) (collectAvroNamedAll schemas) ns = .name s := by
  have hnone : (collectAvroNamedAll schemas).get? s = none := get?_primitive h
    (by rwa [simpleName_dotless hs.dotless])
  have hqualified : (collectAvroNamedAll schemas).get? (ns ++ "." ++ s) = none :=
    get?_primitive h (by rwa [simpleName_dotted ns hs.dotless])
  simp only [resolveAvroNode, hnone, hqualified, Option.getD_none, ite_self]

theorem resolveAvroNode_of_qualify {named : Named} {ns s : String} {d : Schema}
    (h : named.get? (qualify ns s) = some d) :
    resolveAvroNode (.name s) named ns = d := by
  rw [resolveAvroNode]
  rw [qualify] at h
  split_ifs at h ⊢ with hqualify
  · rw [h]
  · rw [h, Option.getD_some]

theorem resolveAvroNode_designates {schemas : Schemas} (h : schemas.WellFormed) {ns s : String}
    (hs : (ns, .name s) ∈ schemas.nodes) :
    schemas.Designates ns s (resolveAvroNode (.name s) (collectAvroNamedAll schemas) ns) := by
  obtain hprimitive | ⟨d, hd⟩ := h.defined ns s hs
  · rw [resolveAvroNode_primitive h ns hprimitive]
    exact .primitive hprimitive
  · obtain ⟨d', hget, hd'⟩ := exists_get?_of_mem hd
    rw [resolveAvroNode_of_qualify hget]
    exact .definition hd'

/-! ## Namespaces along the references -/

theorem self_mem_nodes (ns : String) (schema : Schema) : (ns, schema) ∈ nodes ns schema := by
  cases schema <;> exact List.mem_cons_self

theorem nodesAll_eq (ns : String) (schemas : List Schema) : nodesAll ns schemas = schemas.flatMap (nodes ns) := by
  induction schemas with
  | nil => rfl
  | cons schema schemas ih => rw [nodesAll, ih, List.flatMap_cons]

theorem nodesFields_eq (ns : String) (fields : List Field) :
    nodesFields ns fields = fields.flatMap fun field => nodes ns field.type := by
  induction fields with
  | nil => rfl
  | cons field fields ih =>
    obtain ⟨name, tags, rules, type⟩ := field
    rw [nodesFields, ih, List.flatMap_cons, Field.type]

theorem withNamespacesAll_eq (ns : String) (schemas : List Schema) :
    withNamespacesAll ns schemas = schemas.map (withNamespaces ns) := by
  induction schemas with
  | nil => rfl
  | cons schema schemas ih => rw [withNamespacesAll, ih, List.map_cons]

theorem types_withNamespacesFields (ns : String) (fields : List Field) :
    (withNamespacesFields ns fields).map Field.type = fields.map fun field => withNamespaces ns field.type := by
  induction fields with
  | nil => rfl
  | cons field fields ih =>
    obtain ⟨name, tags, rules, type⟩ := field
    rw [withNamespacesFields, List.map_cons, List.map_cons, ih, Field.type, Field.type]

mutual

/-- What is within a node of a schema is within the schema. -/
theorem nodes_trans {m n : String × Schema} (hm : m ∈ nodes n.1 n.2) (ns : String) :
    ∀ schema : Schema, n ∈ nodes ns schema → m ∈ nodes ns schema
  | .name _, h => by
    obtain rfl := List.mem_singleton.mp h
    exact hm
  | .union branches, h => by
    obtain rfl | h := List.mem_cons.mp h
    · exact hm
    · exact List.mem_cons_of_mem _ (nodesAll_trans hm ns branches h)
  | .primitive _, h => by
    obtain rfl := List.mem_singleton.mp h
    exact hm
  | .enum _, h => by
    obtain rfl := List.mem_singleton.mp h
    exact hm
  | .fixed _, h => by
    obtain rfl := List.mem_singleton.mp h
    exact hm
  | .array items, h => by
    obtain rfl | h := List.mem_cons.mp h
    · exact hm
    · exact List.mem_cons_of_mem _ (nodes_trans hm ns items h)
  | .map values, h => by
    obtain rfl | h := List.mem_cons.mp h
    · exact hm
    · exact List.mem_cons_of_mem _ (nodes_trans hm ns values h)
  | .record node rules fields, h => by
    obtain rfl | h := List.mem_cons.mp h
    · exact hm
    · exact List.mem_cons_of_mem _ (nodesFields_trans hm _ fields h)

theorem nodesAll_trans {m n : String × Schema} (hm : m ∈ nodes n.1 n.2) (ns : String) :
    ∀ schemas : List Schema, n ∈ nodesAll ns schemas → m ∈ nodesAll ns schemas
  | [], h => nomatch (h : n ∈ [])
  | schema :: schemas, h => by
    rw [nodesAll, List.mem_append] at h ⊢
    exact h.imp (nodes_trans hm ns schema) (nodesAll_trans hm ns schemas)

theorem nodesFields_trans {m n : String × Schema} (hm : m ∈ nodes n.1 n.2) (ns : String) :
    ∀ fields : List Field, n ∈ nodesFields ns fields → m ∈ nodesFields ns fields
  | [], h => nomatch (h : n ∈ [])
  | .mk _ _ _ type :: fields, h => by
    rw [nodesFields, List.mem_append] at h ⊢
    exact h.imp (nodes_trans hm ns type) (nodesFields_trans hm ns fields)

end

theorem Schemas.nodes_trans {schemas : Schemas} {m n : String × Schema} (hn : n ∈ schemas.nodes)
    (hm : m ∈ AvroText.nodes n.1 n.2) :
    m ∈ schemas.nodes := by
  obtain ⟨text, htext, hn⟩ := List.mem_flatMap.mp hn
  exact List.mem_flatMap.mpr ⟨text, htext, AvroText.nodes_trans hm "" text.schema hn⟩

theorem Schemas.mem_definitions {schemas : Schemas} {s : String} {d : Schema} (h : (s, d) ∈ schemas.definitions) :
    ∃ enclosing d' node, (enclosing, d') ∈ schemas.nodes ∧ d'.definition = some node ∧
      s = fullname node.name node.nspace enclosing ∧ d = withNamespaces enclosing d' := by
  obtain ⟨⟨enclosing, d'⟩, hmem, hdefinition⟩ := List.mem_filterMap.mp h
  obtain ⟨node, hnode, heq⟩ := Option.map_eq_some_iff.mp hdefinition
  cases heq
  exact ⟨enclosing, d', node, hmem, hnode, rfl, rfl⟩

theorem definition_withNamespaces {d : Schema} {node : NameAttributes} (h : d.definition = some node)
    (enclosing : String) :
    (withNamespaces enclosing d).definition = some (node.inherit enclosing) := by
  cases d with
  | enum n => cases h; rfl
  | fixed n => cases h; rfl
  | record n rules fields => cases h; rfl
  | name s => cases h
  | union branches => cases h
  | primitive type => cases h
  | array items => cases h
  | map values => cases h

theorem withNamespaces_eq_name {enclosing s : String} {d : Schema} (h : withNamespaces enclosing d = .name s) :
    d = .name s := by
  cases d with
  | name t => exact h
  | union branches => cases h
  | primitive type => cases h
  | enum n => cases h
  | fixed n => cases h
  | array items => cases h
  | map values => cases h
  | record n rules fields => cases h

/-- A node that the conversions come to in a namespace: it is written in it, or it is a definition that keeps
its own in it. -/
inductive Written (schemas : Schemas) : String → Schema → Prop where
  | here {ns : String} {d : Schema} (h : (ns, d) ∈ schemas.nodes) : Written schemas ns (withNamespaces ns d)
  | definition {enclosing ns : String} {d : Schema} {node : NameAttributes} (h : (enclosing, d) ∈ schemas.nodes)
      (hnode : d.definition = some node) (hkeeps : Keeps node enclosing ns) :
      Written schemas ns (withNamespaces enclosing d)

/-- From a record the conversions go on in the namespace that its fields are written in. -/
theorem parts_record {node : NameAttributes} {enclosing ns : String} (h : Keeps node enclosing ns)
    {rules : Option (List RuleEntry)} {fields : List Field} {p : String × Schema}
    (hp : p ∈ parts ns (withNamespaces enclosing (.record node rules fields))) :
    ∃ d, (p.1, d) ∈ nodes enclosing (.record node rules fields) ∧ p.2 = withNamespaces p.1 d := by
  rw [withNamespaces, parts, avroFullname_inherit h, avroFullname_eq] at hp
  obtain ⟨written, hwritten, rfl⟩ := List.mem_map.mp hp
  have htype :
      written.type ∈ (withNamespacesFields (namespaceOf node.name node.nspace enclosing) fields).map Field.type :=
    List.mem_map_of_mem hwritten
  rw [types_withNamespacesFields] at htype
  obtain ⟨field, hfield, htype⟩ := List.mem_map.mp htype
  refine ⟨field.type, ?_, htype.symm⟩
  rw [nodes, nodesFields_eq]
  exact List.mem_cons_of_mem _ (List.mem_flatMap.mpr ⟨field, hfield, self_mem_nodes _ _⟩)

theorem parts_here {ns : String} {d : Schema} {p : String × Schema} (hp : p ∈ parts ns (withNamespaces ns d)) :
    ∃ d', (p.1, d') ∈ nodes ns d ∧ p.2 = withNamespaces p.1 d' := by
  cases d with
  | name s => cases hp
  | union branches =>
    rw [withNamespaces, parts, withNamespacesAll_eq, List.map_map] at hp
    obtain ⟨branch, hbranch, rfl⟩ := List.mem_map.mp hp
    refine ⟨branch, ?_, rfl⟩
    rw [nodes, nodesAll_eq]
    exact List.mem_cons_of_mem _ (List.mem_flatMap.mpr ⟨branch, hbranch, self_mem_nodes ns branch⟩)
  | primitive type => cases hp
  | enum node => cases hp
  | fixed node => cases hp
  | array items =>
    obtain rfl := List.mem_singleton.mp hp
    exact ⟨items, List.mem_cons_of_mem _ (self_mem_nodes ns items), rfl⟩
  | map values =>
    obtain rfl := List.mem_singleton.mp hp
    exact ⟨values, List.mem_cons_of_mem _ (self_mem_nodes ns values), rfl⟩
  | record node rules fields => exact parts_record (fun _ _ h => h) hp

theorem Written.part {schemas : Schemas} {ns : String} {node : Schema} (h : Written schemas ns node)
    {p : String × Schema}
    (hp : p ∈ parts ns node) : Written schemas p.1 p.2 := by
  cases h with
  | here h =>
    obtain ⟨d', hd', heq⟩ := parts_here hp
    rw [heq]
    exact .here (Schemas.nodes_trans h hd')
  | @definition enclosing _ d _ h hnode hkeeps =>
    cases d with
    | record n rules fields =>
      cases hnode
      obtain ⟨d', hd', heq⟩ := parts_record hkeeps hp
      rw [heq]
      exact .here (Schemas.nodes_trans h hd')
    | enum n => cases hp
    | fixed n => cases hp
    | name s => cases hnode
    | union branches => cases hnode
    | primitive type => cases hnode
    | array items => cases hnode
    | map values => cases hnode

theorem Written.reference {schemas : Schemas} {ns s : String} {node : Schema} (h : Written schemas ns node)
    (hs : node = .name s) :
    (ns, .name s) ∈ schemas.nodes := by
  cases h with
  | here h => rwa [withNamespaces_eq_name hs] at h
  | definition h hnode =>
    rw [withNamespaces_eq_name hs] at hnode
    cases hnode

/-- A name without dots that a reference in a namespace stands for is in none, and so is the reference. -/
theorem keeps_of_qualify {node : NameAttributes} {enclosing ns s : String}
    (h : qualify ns s = fullname node.name node.nspace enclosing) : Keeps node enclosing ns := by
  intro hdot hnone hempty
  by_contra hns
  rw [fullname, if_neg hdot, hnone, Option.getD_none, if_pos hempty, qualify] at h
  split_ifs at h with hqualify
  · rw [← h, Avro.toList_dotted] at hdot
    exact hdot (List.mem_append_right _ List.mem_cons_self)
  · rw [← h] at hdot
    exact hqualify ⟨hns, hdot⟩

theorem Schemas.Designates.written {schemas : Schemas} {ns s : String} {d : Schema} (h : schemas.Designates ns s d)
    (hs : (ns, .name s) ∈ schemas.nodes) : Written schemas ns d := by
  cases h with
  | primitive => exact .here hs
  | definition h =>
    obtain ⟨enclosing, d', node, hd', hnode, hname, rfl⟩ := Schemas.mem_definitions h
    exact .definition hd' hnode (keeps_of_qualify hname)

/-- Seen from no namespace, a definition has its own. -/
theorem keeps_own (node : NameAttributes) (enclosing : String) :
    Keeps node enclosing (avroFullname (node.inherit enclosing) "").1 := by
  intro hdot hnone hempty
  rw [avroFullname_inherit fun _ _ _ => rfl, namespaceOf, if_neg hdot, hnone, Option.getD_none, hempty]

theorem Reads.written {schemas : Schemas} (hwf : schemas.WellFormed) {ns : String} {node : Schema}
    (h : Reads schemas ns node) :
    Written schemas ns node := by
  induction h with
  | root => exact .here (List.mem_flatMap.mpr ⟨schemas.root, List.mem_cons_self, self_mem_nodes "" _⟩)
  | indexed h hnode =>
    obtain ⟨enclosing, d, attributes, hd, hdefinition, -, rfl⟩ := Schemas.mem_definitions
      (mem_definitions_of_get? h)
    rw [definition_withNamespaces hdefinition] at hnode
    cases hnode
    exact .definition hd hdefinition (keeps_own attributes enclosing)
  | @reference ns s h ih =>
    have hs : (ns, .name s) ∈ schemas.nodes := ih.reference rfl
    exact (resolveAvroNode_designates hwf hs).written hs
  | part h hpart ih => exact ih.part hpart

/-! ## Agreement -/

theorem fullnames_agree (schemas : Schemas) (h : schemas.WellFormed) :
    getInlineTags schemas = schemas.visits.foldl setTags .empty ∧
      getInlineValidationRules schemas = schemas.visits.foldl setRules (noRules schemas) ∧
      (∀ v, v ∈ schemas.visits ↔ ∃ n ∈ schemas.nodes, Visits n v) ∧
      collectAvroNamedAll schemas = schemas.definitions.foldl index .empty ∧
      (∀ ns s, (ns, .name s) ∈ schemas.nodes →
        schemas.Designates ns s (resolveAvroNode (.name s) (collectAvroNamedAll schemas) ns)) ∧
      ∀ ns s, Reads schemas ns (.name s) → (ns, .name s) ∈ schemas.nodes := by
  refine ⟨walk_texts setTags schemas .empty, walk_texts setRules schemas (noRules schemas), schemas.mem_visits,
    collectAvroNamedAll_eq schemas, fun ns s hs => resolveAvroNode_designates h hs, fun ns s hreads => ?_⟩
  exact (hreads.written h).reference rfl

/-! ### Money of two namespaces -/

def rate : Schema := .fixed ⟨"Rate", none, by decide⟩

def money (nspace : String) : Schema :=
  .record ⟨"Money", some nspace, by decide⟩ none [.mk "rate" (some ["PII"]) none rate]

def order : Schema :=
  .record ⟨"b.Order", some "a", by decide⟩ none
    [.mk "money" none none (.name "Money"), .mk "label" none none (.name "string"), .mk "rates" none none
      (.map (.name "a.Rate"))]

def orderTexts : Schemas := ⟨⟨"order", order⟩, [⟨"a-money", money "a"⟩, ⟨"b-money", money "b"⟩]⟩

theorem orderTexts_nodes : orderTexts.nodes = [("", order), ("b", .name "Money"), ("b", .name "string"),
    ("b", .map (.name "a.Rate")), ("b", .name "a.Rate"), ("", money "a"), ("a", rate), ("", money "b"),
    ("b", rate)] := by
  rfl

theorem orderTexts_definitions :
    orderTexts.definitions.map Prod.fst = ["b.Order", "a.Money", "a.Rate", "b.Money", "b.Rate"] := by
  rfl

theorem orderTexts_wellFormed : orderTexts.WellFormed where
  defined ns s h := by
    have hdefined : ∀ t ∈ orderTexts.definitions.map Prod.fst, ∃ d, (t, d) ∈ orderTexts.definitions := by
      intro t ht
      obtain ⟨d, hd, rfl⟩ := List.mem_map.mp ht
      exact ⟨d.2, hd⟩
    rw [orderTexts_definitions] at hdefined
    rw [orderTexts_nodes] at h
    simp only [order, money, rate, List.mem_cons, Prod.mk.injEq, Schema.name.injEq, reduceCtorEq,
      and_false, false_or,
      or_false, List.not_mem_nil] at h
    obtain ⟨rfl, rfl⟩ | ⟨rfl, rfl⟩ | ⟨rfl, rfl⟩ := h
    · exact .inr (hdefined _ (by decide))
    · exact .inl (by decide)
    · exact .inr (hdefined _ (by decide))
  primitives d hd := by
    have hnames : ∀ t ∈ ["b.Order", "a.Money", "a.Rate", "b.Money", "b.Rate"], ¬IsPrimitive (simpleName t) := by
      decide
    rw [← orderTexts_definitions] at hnames
    exact hnames d.1 (List.mem_map_of_mem hd)

theorem fullnames_agree_order : (getInlineTags orderTexts).get? "a.Money.rate" = some ["PII"] ∧
    orderTexts.Designates "b" "Money" (resolveAvroNode (.name "Money") (collectAvroNamedAll orderTexts) "b") := by
  obtain ⟨htags, -, -, -, hresolve, -⟩ := fullnames_agree orderTexts orderTexts_wellFormed
  refine ⟨?_, hresolve "b" "Money" (by rw [orderTexts_nodes]; exact List.mem_cons_of_mem _ List.mem_cons_self)⟩
  rw [htags]
  rfl

end AvroText

end ConfluentKafka
