import ConfluentKafka.AvroTags

/-!
# The field transform reaches what is tagged

Of a schema whose fields have tags and a message that is valid for it, the walk calls the field transform
on the values whose innermost field has a tag of the rule, and on no others. A tag of a field further out
does not count.
-/

namespace ConfluentKafka

namespace Avro

/-! ## The fields of the values -/

section Occurrences

variable {env : Setting}

mutual

theorem field_of_leaves {f : Option (String × Field)} {t : AvType} {v : Datum} {os : List Occurrence}
    (hf : ∀ g ∈ f, g.2 ∈ env.fields g.1) : Leaves env f t v os → ∀ o ∈ os, o.field ∈ env.fields o.recordName
  | .leaf _, o, ho => by
    obtain ⟨g, hg, rfl⟩ := List.mem_map.mp ho
    exact hf g (Option.mem_toList.mp hg)
  | .variant, _, ho => nomatch ho
  | .array h, o, ho => field_of_leavesElems hf h o ho
  | .map h, o, ho => field_of_leavesEntries hf h o ho
  | .unwrapped _ h, o, ho => field_of_leaves hf h o ho
  | .null _ h, o, ho => field_of_leaves hf h o ho
  | .wrapped _ _ _ h, o, ho => field_of_leaves hf h o ho
  | .record h, o, ho => field_of_leavesFields (fun _ hg => hg) h o ho

theorem field_of_leavesElems {f : Option (String × Field)} {items : AvType} {vs : List Datum} {os : List Occurrence}
    (hf : ∀ g ∈ f, g.2 ∈ env.fields g.1) : LeavesElems env f items vs os → ∀ o ∈ os,
      o.field ∈ env.fields o.recordName
  | .nil, _, ho => nomatch ho
  | .cons h hs, o, ho =>
    (List.mem_append.mp ho).elim (field_of_leaves hf h o) (field_of_leavesElems hf hs o)

theorem field_of_leavesEntries {f : Option (String × Field)} {values : AvType} {es : List (String × Datum)}
    {os : List Occurrence} (hf : ∀ g ∈ f, g.2 ∈ env.fields g.1) :
    LeavesEntries env f values es os → ∀ o ∈ os, o.field ∈ env.fields o.recordName
  | .nil, _, ho => nomatch ho
  | .cons h hs, o, ho =>
    (List.mem_append.mp ho).elim (field_of_leaves hf h o) (field_of_leavesEntries hf hs o)

theorem field_of_leavesFields {recordName : String} {fields : List Field} {props : List (String × Datum)}
    {os : List Occurrence} (hfields : ∀ field ∈ fields, field ∈ env.fields recordName) :
    LeavesFields env recordName fields props os → ∀ o ∈ os, o.field ∈ env.fields o.recordName
  | .nil, _, ho => nomatch ho
  | .absent _ _ _ h, o, ho =>
    field_of_leavesFields (fun field hmem => hfields field (List.mem_cons_of_mem _ hmem)) h o ho
  | .present _ h hs, o, ho =>
    (List.mem_append.mp ho).elim
      (field_of_leaves (fun _ hg => Option.mem_some.mp hg ▸ hfields _ List.mem_cons_self) h o)
      (field_of_leavesFields (fun field hmem => hfields field (List.mem_cons_of_mem _ hmem)) hs o)

end

end Occurrences

/-! ## The tags of the fields -/

section Tagged

variable {schemas : Schemas} {reading : Reading} {isValid : AvType → Datum → Bool} {inherits : String → Bool}
  {rule : WalkRule}

theorem name_fieldOf (reading : Reading) (enclosing : String) (field : RawField) :
    (fieldOf reading enclosing field).name = field.name := by
  cases field
  rfl

theorem tags_fieldOf (reading : Reading) (enclosing : String) (field : RawField) :
    (fieldOf reading enclosing field).tags = field.tags.getD [] := by
  cases field
  rfl

theorem definition_of_fields {recordName : String} {field : Field} (h : field ∈ schemas.fields reading recordName) :
    ∃ d ∈ schemas.definitions, d.fullname = recordName ∧ ∃ raw ∈ d.fields,
      fieldOf reading d.nspace raw = field := by
  unfold Schemas.fields at h
  split at h
  · rename_i d hfind
    obtain ⟨raw, hraw, rfl⟩ := List.mem_map.mp h
    have hname := List.find?_some hfind
    exact ⟨d, List.mem_of_find?_eq_some hfind, by simpa only [decide_eq_true_eq] using hname, raw, hraw, rfl⟩
  · cases h

theorem nodup_fields (hnames : WellNamed schemas) (recordName : String) :
    ((schemas.fields reading recordName).map Field.name).Nodup := by
  unfold Schemas.fields
  split
  · rename_i d hfind
    have hcomp : Field.name ∘ fieldOf reading d.nspace = RawField.name := funext (name_fieldOf reading d.nspace)
    rw [List.map_map, hcomp]
    exact hnames.fields d (List.mem_of_find?_eq_some hfind)
  · exact List.nodup_nil

/-- The names of the collection and those of the walk lead to the same tags. -/
theorem inlineTags_setting (hnames : WellNamed schemas) {recordName : String} {field : Field}
    (h : field ∈ schemas.fields reading recordName) :
    (schemas.setting reading isValid inherits).inlineTags (recordName ++ "." ++ field.name) = field.tags := by
  obtain ⟨d, hd, rfl, raw, hraw, rfl⟩ := definition_of_fields h
  simp only [Schemas.setting, name_fieldOf, tags_fieldOf, getInlineTags_field hnames hd hraw]

/-- The field has a tag of the rule, in the schema or by the metadata. -/
def Tagged (rule : WalkRule) (recordName : String) (field : Field) : Prop :=
  ∃ tag ∈ rule.tags, tag ∈ field.tags ∨ tag ∈ rule.getTags (recordName ++ "." ++ field.name)

instance (rule : WalkRule) (recordName : String) (field : Field) : Decidable (Tagged rule recordName field) :=
  inferInstanceAs (Decidable (∃ tag ∈ rule.tags, _))

def taggedContext (rule : WalkRule) (o : Occurrence) : FieldContext :=
  ⟨o.recordName ++ "." ++ o.field.name, o.field.name, o.leaf.getType,
    o.field.tags ++ rule.getTags (o.recordName ++ "." ++ o.field.name)⟩

def taggedCalls (rule : WalkRule) (os : List Occurrence) : List Call :=
  (os.filter fun o => Tagged rule o.recordName o.field).map fun o => (taggedContext rule o, o.value)

theorem contextOf_setting (hnames : WellNamed schemas) {o : Occurrence}
    (ho : o.field ∈ schemas.fields reading o.recordName) :
    contextOf (schemas.setting reading isValid inherits) rule o.recordName o.field o.leaf.getType =
      taggedContext rule o := by
  unfold contextOf
  rw [inlineTags_setting hnames ho]
  rfl

theorem applies_iff_tagged (htags : rule.tags ≠ []) (o : Occurrence) :
    Walk.applies rule (taggedContext rule o) = true ↔ Tagged rule o.recordName o.field := by
  simp [Walk.applies, htags, disjoint, Tagged, taggedContext, or_iff_not_imp_left]

theorem calls_eq_taggedCalls (hnames : WellNamed schemas) (htags : rule.tags ≠ []) {os : List Occurrence}
    (hos : ∀ o ∈ os, o.field ∈ schemas.fields reading o.recordName) :
    calls (schemas.setting reading isValid inherits) rule os = taggedCalls rule os := by
  unfold calls taggedCalls
  have hfilter : (os.filter fun o => Walk.applies rule
      (contextOf (schemas.setting reading isValid inherits) rule o.recordName o.field o.leaf.getType)) =
      os.filter fun o => Tagged rule o.recordName o.field := by
    refine List.filter_congr fun o ho => ?_
    rw [contextOf_setting hnames (hos o ho), Bool.eq_iff_iff, applies_iff_tagged htags, decide_eq_true_iff]
  rw [hfilter]
  refine List.map_congr_left fun o ho => ?_
  rw [contextOf_setting hnames (hos o (List.mem_filter.mp ho).1)]

theorem notes_of_logs {α : Type} {m : Walk Call α} {log : List Call} (h : Logs m ⟨[], []⟩ log) :
    (endState (m ⟨[], []⟩)).notes <+: log ∧ ∀ a t, m ⟨[], []⟩ = .ok a t → t.notes = log := h

theorem Ends.outside {env : Setting} {t : AvType} {m : Nat → Walk Call Datum} {log : List Call} (h : Ends env t m)
    (ho : ∀ fuel, Walk.Orderly (m fuel)) (hlogs : ∀ fuel, Logs (m fuel) ⟨[], []⟩ log) :
    ∃ n, ∀ fuel ≥ n, ∃ r, m fuel ⟨[], []⟩ = .ok r ⟨[], log⟩ := by
  obtain ⟨n, ⟨r, s, -, hok⟩ | hbad⟩ := h ⟨[], []⟩
  · refine ⟨n, fun fuel hfuel => ⟨r, ?_⟩⟩
    have hnotes := (notes_of_logs (hlogs fuel)).2 r s (hok fuel hfuel)
    have hcontexts := (ho fuel).outside (s := ⟨[], []⟩) rfl
    rw [hok fuel hfuel] at hcontexts ⊢
    rw [← hnotes, ← hcontexts]
    rfl
  · obtain ⟨x, -, hx⟩ := hbad n (le_refl n)
    exact (hx trivial).elim

theorem logs_tagged (hnames : WellNamed schemas) (htags : rule.tags ≠ []) {msg : Datum} {os : List Occurrence}
    (hmsg : Leaves (schemas.setting reading isValid inherits) none (typeOf reading "" schemas.root) msg os)
    (fieldTransform : FieldTransform Datum) (fuel : Nat) :
    Logs (transform (schemas.setting reading isValid inherits) rule fieldTransform fuel
      (typeOf reading "" schemas.root) msg) ⟨[], []⟩ (taggedCalls rule os) := by
  rw [← calls_eq_taggedCalls hnames htags (field_of_leaves (fun g hg => absurd hg (Option.not_mem_none g)) hmsg)]
  exact logs_leaves (nodup_fields hnames) hmsg fuel _ rfl

theorem ends_tagged (hnames : WellNamed schemas) (htags : rule.tags ≠ []) {msg : Datum} {os : List Occurrence}
    (hmsg : Leaves (schemas.setting reading isValid inherits) none (typeOf reading "" schemas.root) msg os)
    {fieldTransform : FieldTransform Datum} (hrule : rule.condition = false)
    (hlawful : Lawful (schemas.setting reading isValid inherits))
    (hkeeps : KeepsTypes (schemas.setting reading isValid inherits) fieldTransform) :
    ∃ n, ∀ fuel ≥ n, ∃ r, transform (schemas.setting reading isValid inherits) rule fieldTransform fuel
      (typeOf reading "" schemas.root) msg ⟨[], []⟩ = .ok r ⟨[], taggedCalls rule os⟩ :=
  (ends_leaves ⟨hrule, hlawful, hkeeps, nodup_fields hnames⟩ hmsg).outside
  (fun fuel => transform_orderly fuel _ msg)
    (logs_tagged hnames htags hmsg fieldTransform)

/-- The walk of a valid message calls the field transform on the values whose innermost field is tagged, each
once and in order, and on no others, until it throws; it does not throw if the field transform keeps the
types. -/
theorem transform_calls_tagged (hnames : WellNamed schemas) (htags : rule.tags ≠ []) {msg : Datum}
    {os : List Occurrence}
    (hmsg : Leaves (schemas.setting reading isValid inherits) none (typeOf reading "" schemas.root) msg os)
    (fieldTransform : FieldTransform Datum) :
    (∀ fuel, (endState (transform (schemas.setting reading isValid inherits) rule fieldTransform fuel
        (typeOf reading "" schemas.root) msg ⟨[], []⟩)).notes <+: taggedCalls rule os) ∧
    (∀ fuel r s, transform (schemas.setting reading isValid inherits) rule fieldTransform fuel
        (typeOf reading "" schemas.root) msg ⟨[], []⟩ = .ok r s → s.notes = taggedCalls rule os) ∧
    (rule.condition = false → Lawful (schemas.setting reading isValid inherits) →
      KeepsTypes (schemas.setting reading isValid inherits) fieldTransform →
      ∃ n, ∀ fuel ≥ n, ∃ r, transform (schemas.setting reading isValid inherits) rule fieldTransform fuel
        (typeOf reading "" schemas.root) msg ⟨[], []⟩ = .ok r ⟨[], taggedCalls rule os⟩) := by
  refine ⟨fun fuel => ?_, fun fuel => ?_, fun hrule hlawful hkeeps => ?_⟩
  · exact (notes_of_logs (logs_tagged hnames htags hmsg fieldTransform fuel)).1
  · exact (notes_of_logs (logs_tagged hnames htags hmsg fieldTransform fuel)).2
  · exact ends_tagged hnames htags hmsg hrule hlawful hkeeps

end Tagged

namespace Sample

def reading : Reading where
  resolve _ name := if name = "string" then .leaf .string else if name = "null" then .leaf .null else .record name
  wraps _ := false

def isValid : AvType → Datum → Bool
  | .leaf .null, v => isNull v
  | .leaf .string, .string _ => true
  | .leaf .string, _ => false
  | .union _ _, _ => true
  | _, v => !isNull v

def address : RawSchema :=
  .record "Address" (some "org.geo") false [.mk "city" (some ["PII"]) (.name "string") false]

def order : RawSchema :=
  .record "Order" none false [.mk "note" none (.name "string") false, .mk "code" none (.name "string") true]

/-- The records of the orders are in the namespace of the customers; the address is a schema of its own. -/
def schemas : Schemas where
  root := .record "Customer" (some "org.shop") false
    [.mk "emails" (some ["PII"]) (.array (.union [.name "null", .name "string"])) false,
      .mk "home" none (.name "org.geo.Address") false, .mk "orders" (some ["PII"]) (.map order) false]
  deps := [address]

def rule : WalkRule :=
  ⟨"mask", ["PII"], false, fun fullName => if fullName = "org.shop.Order.note" then ["PII"] else []⟩

def setting : Setting := schemas.setting reading isValid fun _ => false

def mask : FieldTransform Datum
  | _, .string _ => .ok (.string "*")
  | _, v => .ok v

def message : Datum :=
  .object [("emails", .array [.string "a", .null]), ("home", .object [("city", .string "b")]),
    ("orders", .object [("1", .object [("note", .string "c"), ("code", .string "d")])])]

def emails : Field := ⟨"emails", .array (.union false [.leaf .null, .leaf .string]), false, ["PII"]⟩

def city : Field := ⟨"city", .leaf .string, false, ["PII"]⟩

def orders : Field := ⟨"orders", .map (.record "org.shop.Order"), false, ["PII"]⟩

def note : Field := ⟨"note", .leaf .string, false, []⟩

def code : Field := ⟨"code", .leaf .string, true, []⟩

def occurrences : List Occurrence :=
  [⟨"org.shop.Customer", emails, .string, .string "a"⟩, ⟨"org.shop.Customer", emails, .null, .null⟩,
    ⟨"org.geo.Address", city, .string, .string "b"⟩, ⟨"org.shop.Order", note, .string, .string "c"⟩,
    ⟨"org.shop.Order", code, .string, .string "d"⟩]

theorem wellNamed : WellNamed schemas where
  names := by
    unfold EndsWell
    decide
  records := by decide
  fields := by decide
  dots := by decide

theorem leaves_string (f : String × Field) (s : String) :
    Leaves setting (some f) (.leaf .string) (.string s) [⟨f.1, f.2, .string, .string s⟩] := .leaf rfl

theorem leaves_message : Leaves setting none (typeOf reading "" schemas.root) message occurrences := by
  have hemails : LeavesElems setting (some ("org.shop.Customer", emails))
    (.union false [.leaf .null, .leaf .string])
      [.string "a", .null] _ :=
    .cons (.unwrapped rfl (leaves_string _ "a")) (.cons (.unwrapped rfl (.leaf (l := .null) rfl)) .nil)
  have hhome : Leaves setting (some ("org.shop.Customer", ⟨"home", .record "org.geo.Address", false, []⟩))
      (.record "org.geo.Address") (.object [("city", .string "b")]) _ :=
    .record (show LeavesFields setting "org.geo.Address" [city] _ _ from .present rfl (leaves_string _ "b") .nil)
  have horder : Leaves setting (some ("org.shop.Customer", orders)) (.record "org.shop.Order")
      (.object [("note", .string "c"), ("code", .string "d")]) _ :=
    .record (show LeavesFields setting "org.shop.Order" [note, code] _ _ from
      .present rfl (leaves_string _ "c") (.present rfl (leaves_string _ "d") .nil))
  exact .record (.present rfl (.array hemails) (.present rfl hhome (.present rfl (.map (.cons horder .nil)) .nil)))

theorem lawful : Lawful setting where
  variant _ _ := rfl
  array _ _ _ := rfl
  map _ _ _ := rfl
  unwrapped _ _ _ _ _ := rfl
  null _ _ _ := rfl
  wrapped _ _ _ _ _ _ := rfl
  record _ _ _ := rfl
  null_only v h := by
    cases v with
    | null => rfl
    | _ => cases h
  only_null t h := by
    cases t with
    | leaf l => cases l <;> first | exact .inl rfl | cases h
    | union wrapped types => exact .inr ⟨wrapped, types, rfl⟩
    | _ => cases h

theorem mask_keepsTypes : KeepsTypes setting mask := by
  intro c l v _ hv
  cases v with
  | string s => exact ⟨.string "*", rfl, by cases l <;> first | rfl | cases hv⟩
  | _ => exact ⟨_, rfl, hv⟩

end Sample

open Sample in
theorem transform_calls_tagged_customer :
    ∃ n, ∀ fuel ≥ n, ∃ r, transform setting rule mask fuel (typeOf reading "" schemas.root) message ⟨[], []⟩ =
      .ok r ⟨[], [(⟨"org.shop.Customer.emails", "emails", .STRING, ["PII"]⟩, .string "a"),
        (⟨"org.shop.Customer.emails", "emails", .NULL, ["PII"]⟩, .null),
        (⟨"org.geo.Address.city", "city", .STRING, ["PII"]⟩, .string "b"),
        (⟨"org.shop.Order.note", "note", .STRING, ["PII"]⟩, .string "c")]⟩ :=
  (transform_calls_tagged wellNamed (by decide) leaves_message mask).2.2 rfl lawful mask_keepsTypes

/-- A value without parts that a message of a type has somewhere inside. -/
inductive Within (env : Setting) : AvType → Datum → Leaf → Datum → Prop where
  | leaf {l : Leaf} {v : Datum} : Within env (.leaf l) v l v
  | array {items : AvType} {elems : List Datum} {u v : Datum} {l : Leaf} (hmem : u ∈ elems)
    (h : Within env items u l v) :
      Within env (.array items) (.array elems) l v
  | map {values : AvType} {props : List (String × Datum)} {e : String × Datum} {v : Datum} {l : Leaf}
    (hmem : e ∈ props)
      (h : Within env values e.2 l v) : Within env (.map values) (.object props) l v
  | union {wrapped : Bool} {types : List AvType} {t : AvType} {u u' v : Datum} {l : Leaf}
      (hresolve : resolveUnion env wrapped types u = .ok (some (t, u'))) (h : Within env t u' l v) :
      Within env (.union wrapped types) u l v
  | record {name : String} {field : Field} {props : List (String × Datum)} {u v : Datum} {l : Leaf}
      (hfield : field ∈ env.fields name) (hlook : props.lookup field.name = some u)
      (h : Within env field.type u l v) :
      Within env (.record name) (.object props) l v

open Sample in
/-- The code of an order is reached through the orders, which are tagged and no record, but the rule is not
for it. -/
theorem tagged_outside_not_called :
    WellNamed schemas ∧ Leaves setting none (typeOf reading "" schemas.root) message occurrences ∧
    orders ∈ setting.fields "org.shop.Customer" ∧ Tagged rule "org.shop.Customer" orders ∧
    (∀ name, orders.type ≠ .record name) ∧
    (∃ props u, message = .object props ∧ props.lookup "orders" = some u ∧
      Within setting orders.type u .string (.string "d")) ∧
    ∃ n, ∀ fuel ≥ n, ∃ r s, transform setting rule mask fuel (typeOf reading "" schemas.root) message
      ⟨[], []⟩ = .ok r s ∧
      ∀ c ∈ s.notes, c.2 ≠ .string "d" := by
  have hfields : setting.fields "org.shop.Order" = [note, code] := rfl
  have hwithin : Within setting (.record "org.shop.Order") (.object [("note", .string "c"), ("code", .string "d")])
      .string (.string "d") := by
    have hcode : code ∈ setting.fields "org.shop.Order" := by simp [hfields]
    exact .record hcode rfl .leaf
  refine ⟨wellNamed, leaves_message, ?_, by decide, nofun, ⟨_, _, rfl, rfl, ?_⟩, ?_⟩
  · have hcustomer : setting.fields "org.shop.Customer" =
        [emails, ⟨"home", .record "org.geo.Address", false, []⟩, orders] := rfl
    simp [hcustomer]
  · exact .map List.mem_cons_self hwithin
  · have htags : rule.tags ≠ [] := by decide
    obtain ⟨n, hrun⟩ := ends_tagged wellNamed htags leaves_message rfl lawful mask_keepsTypes
    refine ⟨n, fun fuel hfuel => ?_⟩
    obtain ⟨r, hr⟩ := hrun fuel hfuel
    refine ⟨r, _, hr, ?_⟩
    have hcalls : (taggedCalls rule occurrences).map Prod.snd = [.string "a", .null, .string "b", .string "c"] :=
      rfl
    intro c hc
    have hvalue := List.mem_map_of_mem (f := Prod.snd) hc
    rw [hcalls] at hvalue
    rintro heq
    simp [heq] at hvalue

end Avro

end ConfluentKafka
