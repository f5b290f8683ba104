import ConfluentKafka.AvroCalls
import ConfluentKafka.AvroNames

/-!
# The tags of Avro schemas

The library drops the tags of fields, so that they are collected from the schemas themselves, under names
that the collection computes. A schema and the schemas it refers to define records with the full names
of the Avro specification; the tags that the walk finds for a field are those of its definition.
-/

namespace ConfluentKafka

namespace Avro

mutual

/-- A schema as it is written. A name may be that of a primitive type; what has no fields is given by its type. -/
inductive RawSchema where
  | name (s : String)
  | union (branches : List RawSchema)
  | array (items : RawSchema)
  | map (values : RawSchema)
  | record (name : String) (nspace : Option String) (isVariant : Bool) (fields : List RawField)
  | other (leaf : Leaf)

inductive RawField where
  | mk (name : String) (tags : Option (List String)) (type : RawSchema) (hasDefault : Bool)

end

namespace RawField

def name : RawField → String
  | mk name _ _ _ => name

def tags : RawField → Option (List String)
  | mk _ tags _ _ => tags

end RawField

/-! ## The names that the collection computes -/

/-- The text before the last dot, by a regular expression that wants some text after it. -/
def impliedNamespace (name : String) : Option String :=
  match name.toList.reverse.dropWhile (· ≠ '.') with
  | [] => none
  | _ :: front =>
    if name.toList.reverse.takeWhile (· ≠ '.') = [] then none else some (String.ofList front.reverse)

def resolveRecordFullname (recordName : String) (recordNs : Option String) (ns name : String) : String × String :=
  if '.' ∈ recordName.toList then ((impliedNamespace recordName).getD "", recordName)
  else
    let recordNs := (recordNs.or (impliedNamespace name)).getD ns
    (recordNs, if recordNs ≠ "" then recordNs ++ "." ++ recordName else recordName)

abbrev Tags := String → Option (List String)

def Tags.set (tags : Tags) (key : String) (value : List String) : Tags := fun k =>
  if k = key then some value else tags k

def setFieldTags (recordName : String) (field : RawField) (tags : Tags) : Tags :=
  match field.tags with
  | some fieldTags => tags.set (recordName ++ "." ++ field.name) fieldTags
  | none => tags

mutual

def getInlineTagsRecursively (ns name : String) : RawSchema → Tags → Tags
  | .name _, tags => tags
  | .union branches, tags => getInlineTagsAll ns name branches tags
  | .array items, tags => getInlineTagsRecursively ns name items tags
  | .map values, tags => getInlineTagsRecursively ns name values tags
  | .record recordName recordNs _ fields, tags =>
    let resolved := resolveRecordFullname recordName recordNs ns name
    getInlineTagsFields resolved.1 resolved.2 fields tags
  | .other _, tags => tags

def getInlineTagsAll (ns name : String) : List RawSchema → Tags → Tags
  | [], tags => tags
  | schema :: schemas, tags => getInlineTagsAll ns name schemas (getInlineTagsRecursively ns name schema tags)

def getInlineTagsFields (recordNs recordName : String) : List RawField → Tags → Tags
  | [], tags => tags
  | .mk fieldName fieldTags type hasDefault :: fields, tags =>
    getInlineTagsFields recordNs recordName fields (getInlineTagsRecursively recordNs recordName type
      (setFieldTags recordName (.mk fieldName fieldTags type hasDefault) tags))

end

structure Schemas where
  root : RawSchema
  deps : List RawSchema

def getInlineTags (schemas : Schemas) : Tags :=
  schemas.deps.foldl (fun tags schema => getInlineTagsRecursively "" "" schema tags)
    (getInlineTagsRecursively "" "" schemas.root fun _ => none)

/-! ## The definitions of schemas -/

/-- A record of a schema, with its full name and the namespace for what it encloses. -/
structure Definition where
  name : String
  fullname : String
  nspace : String
  fields : List RawField

mutual

def definitions (enclosing : String) : RawSchema → List Definition
  | .name _ => []
  | .union branches => definitionsAll enclosing branches
  | .array items => definitions enclosing items
  | .map values => definitions enclosing values
  | .record name nspace _ fields =>
    ⟨name, fullname name nspace enclosing, namespaceOf name nspace enclosing, fields⟩ ::
      definitionsFields (namespaceOf name nspace enclosing) fields
  | .other _ => []

def definitionsAll (enclosing : String) : List RawSchema → List Definition
  | [] => []
  | schema :: schemas => definitions enclosing schema ++ definitionsAll enclosing schemas

def definitionsFields (enclosing : String) : List RawField → List Definition
  | [] => []
  | .mk _ _ type _ :: fields => definitions enclosing type ++ definitionsFields enclosing fields

end

def Schemas.definitions (schemas : Schemas) : List Definition :=
  Avro.definitions "" schemas.root ++ definitionsAll "" schemas.deps

structure Reading where
  resolve : String → String → AvType
  wraps : List RawSchema → Bool

mutual

def typeOf (reading : Reading) (enclosing : String) : RawSchema → AvType
  | .name s => reading.resolve enclosing s
  | .union branches => .union (reading.wraps branches) (typeOfAll reading enclosing branches)
  | .array items => .array (typeOf reading enclosing items)
  | .map values => .map (typeOf reading enclosing values)
  | .record name nspace isVariant _ =>
    if isVariant then .variant (fullname name nspace enclosing) else .record (fullname name nspace enclosing)
  | .other leaf => .leaf leaf

def typeOfAll (reading : Reading) (enclosing : String) : List RawSchema → List AvType
  | [] => []
  | schema :: schemas => typeOf reading enclosing schema :: typeOfAll reading enclosing schemas

end

def fieldOf (reading : Reading) (enclosing : String) : RawField → Field
  | .mk name tags type hasDefault => ⟨name, typeOf reading enclosing type, hasDefault, tags.getD []⟩

def Schemas.fields (schemas : Schemas) (reading : Reading) (recordName : String) : List Field :=
  match schemas.definitions.find? fun d => d.fullname = recordName with
  | some d => d.fields.map (fieldOf reading d.nspace)
  | none => []

def Schemas.setting (schemas : Schemas) (reading : Reading) (isValid : AvType → Datum → Bool)
    (inherits : String → Bool) : Setting where
  fields := schemas.fields reading
  isValid := isValid
  inherits := inherits
  inlineTags key := (getInlineTags schemas key).getD []

/-- The names are ones that the specification allows, and every record and every field is defined once. -/
structure WellNamed (schemas : Schemas) : Prop where
  names : ∀ d ∈ schemas.definitions, EndsWell d.name
  records : (schemas.definitions.map Definition.fullname).Nodup
  fields : ∀ d ∈ schemas.definitions, (d.fields.map RawField.name).Nodup
  dots : ∀ d ∈ schemas.definitions, ∀ field ∈ d.fields, '.' ∉ field.name.toList

/-! ## The names are those of the specification -/

theorem impliedNamespace_dotted {front back : String} (hdots : '.' ∉ back.toList) (hback : back.toList ≠ []) :
    impliedNamespace (front ++ "." ++ back) = some front := by
  unfold impliedNamespace
  rw [toList_dotted, dropWhile_dot _ _ hdots, takeWhile_dot _ _ hdots]
  simp [hback]

theorem impliedNamespace_dotless {name : String} (h : '.' ∉ name.toList) : impliedNamespace name = none := by
  have hdrop : name.toList.reverse.dropWhile (· ≠ '.') = [] := by
    rw [List.dropWhile_eq_nil_iff]
    intro c hc
    exact decide_eq_true fun heq => h (heq ▸ List.mem_reverse.mp hc)
  simp only [impliedNamespace, hdrop]

theorem impliedNamespace_of_mem {name : String} (hdot : '.' ∈ name.toList) (hname : EndsWell name)
    (nspace : Option String) (enclosing : String) :
    impliedNamespace name = some (namespaceOf name nspace enclosing) := by
  unfold impliedNamespace namespaceOf
  rw [if_pos hdot]
  cases hdrop : name.toList.reverse.dropWhile (· ≠ '.') with
  | nil =>
    rw [List.dropWhile_eq_nil_iff] at hdrop
    have hne := hdrop '.' (List.mem_reverse.mpr hdot)
    simp at hne
  | cons c front => simp only [if_neg hname, List.drop_succ_cons, List.drop_zero]

/-- The name of the enclosing record, if it has dots, has the enclosing namespace before the last one. -/
def Encloses (ns name : String) : Prop := (impliedNamespace name).getD ns = ns

theorem resolveRecordFullname_eq {ns name recordName : String} (h : Encloses ns name) (hname : EndsWell recordName)
    (recordNs : Option String) :
    resolveRecordFullname recordName recordNs ns name =
      (namespaceOf recordName recordNs ns, fullname recordName recordNs ns) := by
  unfold resolveRecordFullname fullname
  by_cases hdot : '.' ∈ recordName.toList
  · rw [if_pos hdot, if_pos hdot, impliedNamespace_of_mem hdot hname recordNs ns, Option.getD_some]
  · have hns : (recordNs.or (impliedNamespace name)).getD ns = recordNs.getD ns := by
      cases recordNs with
      | none => exact h
      | some recordNs => rfl
    simp only [if_neg hdot, hns, namespaceOf, ne_eq, ite_not]

theorem encloses_fullname {recordName : String} (hname : EndsWell recordName) (recordNs : Option String)
    (ns : String) :
    Encloses (namespaceOf recordName recordNs ns) (fullname recordName recordNs ns) := by
  unfold Encloses
  by_cases hdot : '.' ∈ recordName.toList
  · rw [show fullname recordName recordNs ns = recordName from if_pos hdot,
      impliedNamespace_of_mem hdot hname recordNs ns, Option.getD_some]
  · simp only [fullname, namespaceOf, if_neg hdot]
    split_ifs with hempty
    · rw [impliedNamespace_dotless hdot, Option.getD_none]
    · rw [impliedNamespace_dotted hdot (toList_ne_nil_of_endsWell hname), Option.getD_some]

/-! ## The tags are those of the definitions -/

def Declares (recordName : String) (fields : List RawField) (key : String) (value : List String) : Prop :=
  ∃ field ∈ fields, field.tags = some value ∧ recordName ++ "." ++ field.name = key

def DeclaresAny (ds : List Definition) (key : String) (value : List String) : Prop :=
  ∃ d ∈ ds, Declares d.fullname d.fields key value

/-- Every key that is declared gets one of the values it is declared with, and the other keys stay. -/
def Collects (declared : String → List String → Prop) (tags tags' : Tags) : Prop :=
  ∀ key, (∃ value, tags' key = some value ∧ declared key value) ∨
    (tags' key = tags key ∧ ∀ value, ¬declared key value)

namespace Collects

variable {P Q : String → List String → Prop} {tags tags' tags'' : Tags}

theorem refl (h : ∀ key value, ¬P key value) : Collects P tags tags := fun key => .inr ⟨rfl, h key⟩

theorem trans (h : Collects P tags tags') (h' : Collects Q tags' tags'') :
    Collects (fun key value => P key value ∨ Q key value) tags tags'' := by
  intro key
  obtain ⟨value, hvalue, hQ⟩ | ⟨hsame, hQ⟩ := h' key
  · exact .inl ⟨value, hvalue, .inr hQ⟩
  · obtain ⟨value, hvalue, hP⟩ | ⟨hsame', hP⟩ := h key
    · exact .inl ⟨value, hsame.trans hvalue, .inl hP⟩
    · exact .inr ⟨hsame.trans hsame', fun value hor => hor.elim (hP value) (hQ value)⟩

theorem congr (h : Collects P tags tags') (hiff : ∀ key value, P key value ↔ Q key value) :
    Collects Q tags tags' := by
  intro key
  simpa only [hiff] using h key

end Collects

theorem declaresAny_cons (d : Definition) (ds : List Definition) (key : String) (value : List String) :
    DeclaresAny (d :: ds) key value ↔ Declares d.fullname d.fields key value ∨ DeclaresAny ds key value := by
  simp [DeclaresAny]

theorem declaresAny_append (ds ds' : List Definition) (key : String) (value : List String) :
    DeclaresAny (ds ++ ds') key value ↔ DeclaresAny ds key value ∨ DeclaresAny ds' key value := by
  simp [DeclaresAny, or_and_right, exists_or]

theorem not_declaresAny_nil (key : String) (value : List String) : ¬DeclaresAny [] key value := by
  simp [DeclaresAny]

theorem setFieldTags_collects (recordName : String) (field : RawField) (tags : Tags) :
    Collects (Declares recordName [field]) tags (setFieldTags recordName field tags) := by
  intro key
  unfold setFieldTags Declares
  cases htags : field.tags with
  | none => exact .inr ⟨rfl, by simp [htags]⟩
  | some value =>
    by_cases hkey : key = recordName ++ "." ++ field.name
    · exact .inl ⟨value, if_pos hkey, field, List.mem_singleton_self _, htags, hkey.symm⟩
    · exact .inr ⟨if_neg hkey, by simp [Ne.symm hkey]⟩

theorem declares_cons {recordName : String} (field : RawField) (fields : List RawField) (key : String)
    (value : List String) : Declares recordName (field :: fields) key value ↔
      Declares recordName [field] key value ∨ Declares recordName fields key value := by
  simp [Declares]

mutual

/-- The collection finds the tags that the definitions of a schema declare. -/
theorem getInlineTagsRecursively_collects {ns name : String} (hns : Encloses ns name) :
    ∀ (schema : RawSchema), (∀ d ∈ definitions ns schema, EndsWell d.name) → ∀ tags,
      Collects (DeclaresAny (definitions ns schema)) tags (getInlineTagsRecursively ns name schema tags)
  | .name _, _, _ => Collects.refl not_declaresAny_nil
  | .union branches, hnames, tags => getInlineTagsAll_collects hns branches hnames tags
  | .array items, hnames, tags => getInlineTagsRecursively_collects hns items hnames tags
  | .map values, hnames, tags => getInlineTagsRecursively_collects hns values hnames tags
  | .record recordName recordNs isVariant fields, hnames, tags => by
    simp only [definitions, List.forall_mem_cons] at hnames
    simp only [getInlineTagsRecursively, resolveRecordFullname_eq hns hnames.1]
    refine (getInlineTagsFields_collects (encloses_fullname hnames.1 recordNs ns) fields hnames.2 tags).congr ?_
    intro key value
    rw [definitions, declaresAny_cons]
  | .other _, _, _ => Collects.refl not_declaresAny_nil

theorem getInlineTagsAll_collects {ns name : String} (hns : Encloses ns name) :
    ∀ (schemas : List RawSchema), (∀ d ∈ definitionsAll ns schemas, EndsWell d.name) → ∀ tags,
      Collects (DeclaresAny (definitionsAll ns schemas)) tags (getInlineTagsAll ns name schemas tags)
  | [], _, _ => Collects.refl not_declaresAny_nil
  | schema :: schemas, hnames, tags => by
    simp only [definitionsAll, List.forall_mem_append] at hnames
    refine ((getInlineTagsRecursively_collects hns schema hnames.1 tags).trans
      (getInlineTagsAll_collects hns schemas hnames.2 _)).congr fun key value => ?_
    exact (declaresAny_append _ _ key value).symm

theorem getInlineTagsFields_collects {recordNs recordName : String} (hns : Encloses recordNs recordName) :
    ∀ (fields : List RawField), (∀ d ∈ definitionsFields recordNs fields, EndsWell d.name) → ∀ tags,
      Collects (fun key value => Declares recordName fields key value ∨
        DeclaresAny (definitionsFields recordNs fields) key value) tags
        (getInlineTagsFields recordNs recordName fields tags)
  | [], _, _ =>
    Collects.refl fun key value h => h.elim (fun ⟨_, hmem, _⟩ => nomatch hmem) (not_declaresAny_nil key value)
  | .mk fieldName fieldTags type hasDefault :: fields, hnames, tags => by
    simp only [definitionsFields, List.forall_mem_append] at hnames
    refine (((setFieldTags_collects recordName _ tags).trans
      (getInlineTagsRecursively_collects hns type hnames.1 _)).trans
        (getInlineTagsFields_collects hns fields hnames.2 _)).congr fun key value => ?_
    rw [declares_cons _ fields, definitionsFields, declaresAny_append]
    tauto

end

theorem getInlineTagsAll_eq_foldl (ns name : String) (schemas : List RawSchema) (tags : Tags) :
    getInlineTagsAll ns name schemas tags =
      schemas.foldl (fun tags schema => getInlineTagsRecursively ns name schema tags) tags := by
  induction schemas generalizing tags with
  | nil => rfl
  | cons schema schemas ih => exact ih _

variable {schemas : Schemas}

theorem getInlineTags_collects (hnames : WellNamed schemas) :
    Collects (DeclaresAny schemas.definitions) (fun _ => none) (getInlineTags schemas) := by
  have hall := hnames.names
  simp only [Schemas.definitions, List.forall_mem_append] at hall
  have hroot : Encloses "" "" := rfl
  rw [getInlineTags, ← getInlineTagsAll_eq_foldl]
  refine ((getInlineTagsRecursively_collects hroot schemas.root hall.1 _).trans
    (getInlineTagsAll_collects hroot schemas.deps hall.2 _)).congr fun key value => ?_
  exact (declaresAny_append _ _ key value).symm

theorem getInlineTags_field (hnames : WellNamed schemas) {d : Definition} (hd : d ∈ schemas.definitions)
    {field : RawField}
    (hfield : field ∈ d.fields) : getInlineTags schemas (d.fullname ++ "." ++ field.name) = field.tags := by
  obtain ⟨value, hvalue, d', hd', field', hfield', htags, hkey⟩ | ⟨hnone, hdeclared⟩ :=
    getInlineTags_collects hnames (d.fullname ++ "." ++ field.name)
  · obtain ⟨hrecord, hname⟩ := dotted_inj (hnames.dots d' hd' field' hfield') (hnames.dots d hd field hfield) hkey
    obtain rfl := List.inj_on_of_nodup_map hnames.records hd' hd hrecord
    obtain rfl := List.inj_on_of_nodup_map (hnames.fields d' hd') hfield' hfield hname
    rw [hvalue, htags]
  · rw [hnone]
    cases htags : field.tags with
    | none => rfl
    | some value => exact (hdeclared value ⟨d, hd, field, hfield, htags, rfl⟩).elim

end Avro

end ConfluentKafka
