import ConfluentKafka.AvroTags
import ConfluentKafka.AvroValidation
import ConfluentKafka.DottedNames

/-!
# The walks over Avro schema texts

`getInlineTags` and `getInlineValidationRules` of `avro.ts` and `collectAvroNamedAll` and `resolveAvroNode` of
`cel-executor.ts`, over the JSON of schemas. Each walk goes through fields, arrays, maps and unions, and takes
the enclosing namespace along in a way of its own: one finds it in the name of the record it comes from, one
writes it on the definitions.
-/

namespace ConfluentKafka

namespace AvroText

/-! ## Schemas -/

/-- Parts of letters, digits and underscores that do not begin with a digit, with dots between them. The flag
tells whether a part begins here. -/
def nameParts : Bool → List Char → Bool
  | start, [] => !start
  | start, c :: cs =>
    if c = '.' then !start && nameParts true cs
    else ((if start then c.isAlpha else c.isAlphanum) || c = '_') && nameParts false cs

structure NameAttributes where
  name : String
  nspace : Option String
  isName : nameParts true name.toList = true

inductive RuleEntry where
  | object (rule : ValidationRule)
  | other

mutual

/-- The JSON of a schema: a string, an array or an object by its `type`. Rules that are no list count as none. -/
inductive Schema where
  | name (s : String)
  | union (branches : List Schema)
  | primitive (type : String)
  | enum (node : NameAttributes)
  | fixed (node : NameAttributes)
  | array (items : Schema)
  | map (values : Schema)
  | record (node : NameAttributes) (rules : Option (List RuleEntry)) (fields : List Field)

inductive Field where
  | mk (name : String) (tags : Option (List String)) (rules : Option (List RuleEntry)) (type : Schema)

end

namespace Field

def name : Field → String
  | mk name _ _ _ => name

def tags : Field → Option (List String)
  | mk _ tags _ _ => tags

def rules : Field → Option (List RuleEntry)
  | mk _ _ rules _ => rules

def type : Field → Schema
  | mk _ _ _ type => type

end Field

def Schema.definition : Schema → Option NameAttributes
  | .enum node => some node
  | .fixed node => some node
  | .record node _ _ => some node
  | _ => none

structure SchemaText where
  text : String
  schema : Schema

structure Schemas where
  root : SchemaText
  deps : List SchemaText

def Schemas.texts (schemas : Schemas) : List SchemaText := schemas.root :: schemas.deps

/-! ## Tags and validation rules -/

/-- What the walks of `avro.ts` come by: a record, and each of its fields. -/
inductive Visit where
  | record (recordName : String) (rules : Option (List RuleEntry))
  | field (recordName : String) (field : Field)

section

variable {σ : Type} (visit : σ → Visit → σ)

mutual

/-- The walk over a schema within a record: `name` is that of the record and `ns` its namespace. -/
def walk (ns name : String) : Schema → σ → σ
  | .name _, s => s
  | .union branches, s => walkAll ns name branches s
  | .primitive _, s => s
  | .enum _, s => s
  | .fixed _, s => s
  | .array items, s => walk ns name items s
  | .map values, s => walk ns name values s
  | .record node rules fields, s =>
    let resolved := Avro.resolveRecordFullname node.name node.nspace ns name
    walkFields resolved.1 resolved.2 fields (visit s (.record resolved.2 rules))

def walkAll (ns name : String) : List Schema → σ → σ
  | [], s => s
  | schema :: schemas, s => walkAll ns name schemas (walk ns name schema s)

def walkFields (recordNs recordName : String) : List Field → σ → σ
  | [], s => s
  | .mk name tags rules type :: fields, s =>
    walkFields recordNs recordName fields
      (walk recordNs recordName type (visit s (.field recordName (.mk name tags rules type))))

end

end

abbrev Tags := JsMap String (List String)

def setTags (tags : Tags) : Visit → Tags
  | .record _ _ => tags
  | .field recordName field =>
    match field.tags with
    | some fieldTags => tags.set (recordName ++ "." ++ field.name) fieldTags
    | none => tags

def getInlineTagsRecursively (ns name : String) (schema : Schema) (tags : Tags) : Tags :=
  walk setTags ns name schema tags

def getInlineTags (schemas : Schemas) : Tags :=
  schemas.deps.foldl (fun tags dep => getInlineTagsRecursively "" "" dep.schema tags)
    (getInlineTagsRecursively "" "" schemas.root.schema .empty)

section Raw

variable (leaf : Schema → Avro.Leaf) (isVariant : NameAttributes → Bool) (hasDefault : Field → Bool)

mutual

/-- The schema as the transforms of fields see it, whatever they see in leaves, variants and defaults. -/
def raw : Schema → Avro.RawSchema
  | .name s => .name s
  | .union branches => .union (rawAll branches)
  | .primitive type => .other (leaf (.primitive type))
  | .enum node => .other (leaf (.enum node))
  | .fixed node => .other (leaf (.fixed node))
  | .array items => .array (raw items)
  | .map values => .map (raw values)
  | .record node _ fields => .record node.name node.nspace (isVariant node) (rawFields fields)

def rawAll : List Schema → List Avro.RawSchema
  | [] => []
  | schema :: schemas => raw schema :: rawAll schemas

def rawFields : List Field → List Avro.RawField
  | [] => []
  | .mk name tags rules type :: fields =>
    .mk name tags (raw type) (hasDefault (.mk name tags rules type)) :: rawFields fields

end

theorem get?_setTags (tags : Tags) (recordName name : String) (fieldTags : Option (List String))
    (rules : Option (List RuleEntry)) (type : Schema) (type' : Avro.RawSchema) (withDefault : Bool) :
    (setTags tags (.field recordName (.mk name fieldTags rules type))).get? =
      Avro.setFieldTags recordName (.mk name fieldTags type' withDefault) tags.get? := by
  cases fieldTags with
  | none => rfl
  | some fieldTags =>
    funext key
    exact JsMap.get?_set tags _ key fieldTags

mutual

theorem getInlineTagsRecursively_raw (ns name : String) : ∀ (schema : Schema) (tags : Tags),
    (getInlineTagsRecursively ns name schema tags).get? =
      Avro.getInlineTagsRecursively ns name (raw leaf isVariant hasDefault schema) tags.get?
  | .name _, _ => rfl
  | .union branches, tags => getInlineTagsAll_raw ns name branches tags
  | .primitive _, _ => rfl
  | .enum _, _ => rfl
  | .fixed _, _ => rfl
  | .array items, tags => getInlineTagsRecursively_raw ns name items tags
  | .map values, tags => getInlineTagsRecursively_raw ns name values tags
  | .record _ _ fields, tags => getInlineTagsFields_raw _ _ fields tags

theorem getInlineTagsAll_raw (ns name : String) : ∀ (schemas : List Schema) (tags : Tags),
    (walkAll setTags ns name schemas tags).get? =
      Avro.getInlineTagsAll ns name (rawAll leaf isVariant hasDefault schemas) tags.get?
  | [], _ => rfl
  | schema :: schemas, tags => by
    rw [walkAll, getInlineTagsAll_raw ns name schemas, rawAll, Avro.getInlineTagsAll]
    exact congrArg _ (getInlineTagsRecursively_raw ns name schema tags)

theorem getInlineTagsFields_raw (recordNs recordName : String) : ∀ (fields : List Field) (tags : Tags),
    (walkFields setTags recordNs recordName fields tags).get? =
      Avro.getInlineTagsFields recordNs recordName (rawFields leaf isVariant hasDefault fields) tags.get?
  | [], _ => rfl
  | .mk name fieldTags rules type :: fields, tags => by
    rw [walkFields, getInlineTagsFields_raw recordNs recordName fields, rawFields, Avro.getInlineTagsFields,
      ← get?_setTags tags recordName name fieldTags rules type]
    exact congrArg _ (getInlineTagsRecursively_raw recordNs recordName type _)

end

/-- The tags are the same for the transforms and for the rules. -/
theorem getInlineTags_raw (schemas : Schemas) : (getInlineTags schemas).get? = Avro.getInlineTags
    ⟨raw leaf isVariant hasDefault schemas.root.schema, schemas.deps.map fun dep =>
      raw leaf isVariant hasDefault dep.schema⟩ := by
  have hdeps : ∀ (deps : List SchemaText) (tags : Tags),
      (deps.foldl (fun tags dep => getInlineTagsRecursively "" "" dep.schema tags) tags).get? =
        (deps.map fun dep => raw leaf isVariant hasDefault dep.schema).foldl
          (fun tags schema => Avro.getInlineTagsRecursively "" "" schema tags) tags.get? := by
    intro deps
    induction deps with
    | nil => exact fun _ => rfl
    | cons dep deps ih =>
      intro tags
      rw [List.foldl_cons, ih, List.map_cons, List.foldl_cons,
        getInlineTagsRecursively_raw leaf isVariant hasDefault]
  rw [getInlineTags, hdeps, getInlineTagsRecursively_raw leaf isVariant hasDefault, Avro.getInlineTags]
  rfl

end Raw

def RuleEntry.rule : RuleEntry → Option ValidationRule
  | .object rule => some rule
  | .other => none

def parseValidationRules (propValue : Option (List RuleEntry)) : List ValidationRule :=
  (propValue.getD []).filterMap RuleEntry.rule

def setRules (rules : Avro.InlineValidationRules) : Visit → Avro.InlineValidationRules
  | .record recordName propValue =>
    let recordRules := parseValidationRules propValue
    if recordRules.length > 0 then
      { rules with recordRules := rules.recordRules.set recordName recordRules }
    else rules
  | .field recordName field =>
    let fieldRules := parseValidationRules field.rules
    if fieldRules.length > 0 then
      { rules with fieldRules := rules.fieldRules.set (recordName ++ "." ++ field.name) fieldRules }
    else rules

def getInlineValidationRulesRecursively (ns name : String) (schema : Schema) (rules : Avro.InlineValidationRules) :
    Avro.InlineValidationRules := walk setRules ns name schema rules

def noRules (schemas : Schemas) : Avro.InlineValidationRules :=
  ⟨.empty, .empty, schemas.root.text, schemas.deps.map SchemaText.text⟩

def getInlineValidationRules (schemas : Schemas) : Avro.InlineValidationRules :=
  schemas.deps.foldl (fun rules dep => getInlineValidationRulesRecursively "" "" dep.schema rules)
    (getInlineValidationRulesRecursively "" "" schemas.root.schema (noRules schemas))

/-! ## The index of the definitions -/

def avroFullname (node : NameAttributes) (ns : String) : String × String :=
  match DottedNames.lastIndexOf '.' node.name.toList with
  | some dot => (String.ofList (node.name.toList.take dot), node.name)
  | none =>
    let nodeNs := node.nspace.getD ns
    (nodeNs, if nodeNs ≠ "" then nodeNs ++ "." ++ node.name else node.name)

/-- The attributes with the namespace that `collectAvroNamed` writes. -/
def NameAttributes.inherit (node : NameAttributes) (ns : String) : NameAttributes :=
  let nodeNs := (avroFullname node ns).1
  if nodeNs ≠ "" ∧ node.nspace = none ∧ '.' ∉ node.name.toList then { node with nspace := some nodeNs } else node

mutual

/-- A schema as `collectAvroNamed` leaves it. -/
def withNamespaces (ns : String) : Schema → Schema
  | .name s => .name s
  | .union branches => .union (withNamespacesAll ns branches)
  | .primitive type => .primitive type
  | .enum node => .enum (node.inherit ns)
  | .fixed node => .fixed (node.inherit ns)
  | .array items => .array (withNamespaces ns items)
  | .map values => .map (withNamespaces ns values)
  | .record node rules fields =>
    .record (node.inherit ns) rules (withNamespacesFields (avroFullname node ns).1 fields)

def withNamespacesAll (ns : String) : List Schema → List Schema
  | [] => []
  | schema :: schemas => withNamespaces ns schema :: withNamespacesAll ns schemas

def withNamespacesFields (ns : String) : List Field → List Field
  | [] => []
  | .mk name tags rules type :: fields =>
    .mk name tags rules (withNamespaces ns type) :: withNamespacesFields ns fields

end

abbrev Named := JsMap String Schema

mutual

/-- What is stored is the object itself, which in the end has the namespaces that are written on it and within
it. -/
def collectAvroNamed (ns : String) (out : Named) : Schema → Named
  | .name _ => out
  | .union branches => collectAvroNamedEach ns out branches
  | .primitive _ => out
  | .enum node => out.set (avroFullname node ns).2 (withNamespaces ns (.enum node))
  | .fixed node => out.set (avroFullname node ns).2 (withNamespaces ns (.fixed node))
  | .array items => collectAvroNamed ns out items
  | .map values => collectAvroNamed ns out values
  | .record node rules fields =>
    collectAvroNamedFields (avroFullname node ns).1
      (out.set (avroFullname node ns).2 (withNamespaces ns (.record node rules fields))) fields

def collectAvroNamedEach (ns : String) (out : Named) : List Schema → Named
  | [] => out
  | schema :: schemas => collectAvroNamedEach ns (collectAvroNamed ns out schema) schemas

def collectAvroNamedFields (childNs : String) (out : Named) : List Field → Named
  | [] => out
  | .mk _ _ _ type :: fields => collectAvroNamedFields childNs (collectAvroNamed childNs out type) fields

end

def collectAvroNamedAll (schemas : Schemas) : Named :=
  schemas.deps.foldl (fun named dep => collectAvroNamed "" named dep.schema)
    (collectAvroNamed "" .empty schemas.root.schema)

/-! ## References -/

def resolveAvroNode (node : Schema) (named : Named) (ns : String) : Schema :=
  match node with
  | .name s =>
    if ns ≠ "" ∧ '.' ∉ s.toList then
      match named.get? (ns ++ "." ++ s) with
      | some qualified => qualified
      | none => (named.get? s).getD (.name s)
    else (named.get? s).getD (.name s)
  | node => node

/-- What the conversions of a value go on to within a node, each with the namespace they pass for it. -/
def parts (ns : String) : Schema → List (String × Schema)
  | .union branches => branches.map (ns, ·)
  | .array items => [(ns, items)]
  | .map values => [(ns, values)]
  | .record node _ fields => fields.map fun field => ((avroFullname node ns).1, field.type)
  | _ => []

/-- The nodes that the conversions come to, with the namespace they take each to be written in: from the root,
or from a record that is looked up by its name. -/
inductive Reads (schemas : Schemas) : String → Schema → Prop where
  | root : Reads schemas "" (withNamespaces "" schemas.root.schema)
  | indexed {recordName : String} {record : Schema} {node : NameAttributes}
      (h : (collectAvroNamedAll schemas).get? recordName = some record) (hnode : record.definition = some node) :
      Reads schemas (avroFullname node "").1 record
  | reference {ns s : String} (h : Reads schemas ns (.name s)) :
      Reads schemas ns (resolveAvroNode (.name s) (collectAvroNamedAll schemas) ns)
  | part {ns ns' : String} {node node' : Schema} (h : Reads schemas ns node)
    (hpart : (ns', node') ∈ parts ns node) :
      Reads schemas ns' node'

end AvroText

end ConfluentKafka
