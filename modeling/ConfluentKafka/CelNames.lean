import ConfluentKafka.CelUnions
import ConfluentKafka.JsMap

/-!
# The index of the definitions

`collectAvroNamedAll` of `cel-executor.ts` lists the definitions of a schema and of the schemas it refers
to by their full names, and writes the namespaces that definitions inherit on them. The library knows the
same definitions, since names are unique, so that data come back from rules.
-/

namespace ConfluentKafka

namespace Cel

/-! ## Collecting the definitions -/

def inheritedNamespace (name : String) (nspace : Option String) (ns : String) : Option String :=
  let nodeNs := Avro.namespaceOf name nspace ns
  if nodeNs ≠ "" ∧ nspace = none ∧ '.' ∉ name.toList then some nodeNs else nspace

mutual

/-- The schema with the namespaces that `collectAvroNamed` leaves on its definitions. -/
def withNamespaces (ns : String) : Node → Node
  | .name s => .name s
  | .union branches => .union (withNamespacesAll ns branches)
  | .primitive type logicalType => .primitive type logicalType
  | .enum name nspace symbols => .enum name (inheritedNamespace name nspace ns) symbols
  | .fixed name nspace size logicalType => .fixed name (inheritedNamespace name nspace ns) size logicalType
  | .array items => .array (withNamespaces ns items)
  | .map values => .map (withNamespaces ns values)
  | .record name nspace isVariant fields =>
    .record name (inheritedNamespace name nspace ns) isVariant
      (withNamespacesFields (Avro.namespaceOf name nspace ns) fields)

def withNamespacesAll (ns : String) : List Node → List Node
  | [] => []
  | node :: nodes => withNamespaces ns node :: withNamespacesAll ns nodes

def withNamespacesFields (ns : String) : List Field → List Field
  | [] => []
  | .mk name type hasDefault :: fields =>
    .mk name (withNamespaces ns type) hasDefault :: withNamespacesFields ns fields

end

mutual

/-- The definitions are the nodes of the schema itself, as they are after the namespaces have been written. -/
def collectAvroNamed (ns : String) (out : JsMap String Node) : Node → JsMap String Node
  | .union branches => collectAvroNamedEach ns out branches
  | .enum name nspace symbols =>
    out.set (Avro.fullname name nspace ns) (withNamespaces ns (.enum name nspace symbols))
  | .fixed name nspace size logicalType =>
    out.set (Avro.fullname name nspace ns) (withNamespaces ns (.fixed name nspace size logicalType))
  | .record name nspace isVariant fields =>
    collectAvroNamedFields (Avro.namespaceOf name nspace ns)
      (out.set (Avro.fullname name nspace ns) (withNamespaces ns (.record name nspace isVariant fields))) fields
  | .array items => collectAvroNamed ns out items
  | .map values => collectAvroNamed ns out values
  | .name _ => out
  | .primitive _ _ => out

def collectAvroNamedEach (ns : String) (out : JsMap String Node) : List Node → JsMap String Node
  | [] => out
  | node :: nodes => collectAvroNamedEach ns (collectAvroNamed ns out node) nodes

def collectAvroNamedFields (ns : String) (out : JsMap String Node) : List Field → JsMap String Node
  | [] => out
  | .mk _ type _ :: fields => collectAvroNamedFields ns (collectAvroNamed ns out type) fields

end

/-- The schemas that do not parse are left out of `depSchemas`. -/
def collectAvroNamedAll (root : Node) (depSchemas : List Node) : JsMap String Node :=
  depSchemas.foldl (collectAvroNamed "") (collectAvroNamed "" .empty root)

/-! ## The definitions of a schema -/

mutual

inductive Defines : String → Node → String → Node → Prop where
  | enum {ns name : String} {nspace : Option String} {symbols : List String} :
      Defines ns (.enum name nspace symbols) (Avro.fullname name nspace ns)
        (withNamespaces ns (.enum name nspace symbols))
  | fixed {ns name : String} {nspace : Option String} {size : Nat} {t : Option LogicalType} :
      Defines ns (.fixed name nspace size t) (Avro.fullname name nspace ns)
        (withNamespaces ns (.fixed name nspace size t))
  | record {ns name : String} {nspace : Option String} {isVariant : Bool} {fields : List Field} :
      Defines ns (.record name nspace isVariant fields) (Avro.fullname name nspace ns)
        (withNamespaces ns (.record name nspace isVariant fields))
  | field {ns name s : String} {nspace : Option String} {isVariant : Bool} {fields : List Field} {d : Node}
      (h : DefinesFields (Avro.namespaceOf name nspace ns) fields s d) :
      Defines ns (.record name nspace isVariant fields) s d
  | items {ns s : String} {items d : Node} (h : Defines ns items s d) : Defines ns (.array items) s d
  | values {ns s : String} {values d : Node} (h : Defines ns values s d) : Defines ns (.map values) s d
  | branch {ns s : String} {branches : List Node} {d : Node} (h : DefinesAny ns branches s d) :
      Defines ns (.union branches) s d

inductive DefinesAny : String → List Node → String → Node → Prop where
  | head {ns s : String} {node d : Node} {nodes : List Node} (h : Defines ns node s d) :
      DefinesAny ns (node :: nodes) s d
  | tail {ns s : String} {node d : Node} {nodes : List Node} (h : DefinesAny ns nodes s d) :
      DefinesAny ns (node :: nodes) s d

inductive DefinesFields : String → List Field → String → Node → Prop where
  | head {ns s name : String} {type d : Node} {hasDefault : Bool} {fields : List Field} (h : Defines ns type s d) :
      DefinesFields ns (.mk name type hasDefault :: fields) s d
  | tail {ns s : String} {field : Field} {d : Node} {fields : List Field} (h : DefinesFields ns fields s d) :
      DefinesFields ns (field :: fields) s d

end

def DefinesAll (root : Node) (depSchemas : List Node) (s : String) (d : Node) : Prop :=
  Defines "" root s d ∨ DefinesAny "" depSchemas s d

/-- Names of primitive types are not defined in any namespace. -/
def NamesPrimitive (s : String) : Prop :=
  ∃ t type, TypeName.ofName t = some (.primitive type) ∧ (s = t ∨ ∃ ns : String, s = ns ++ "." ++ t)

/-- The library knows each definition of the schemas by its full name, and no others. -/
structure Library.Knows (lib : Library) (root : Node) (depSchemas : List Node) : Prop where
  types : ∀ s d, lib.types s = some d ↔ DefinesAll root depSchemas s d
  names : ∀ s d, DefinesAll root depSchemas s d → ¬NamesPrimitive s

/-! ## The index is complete -/

structure Adds (D : String → Node → Prop) (out out' : JsMap String Node) : Prop where
  old : ∀ s d, out'.get? s = some d → out.get? s = some d ∨ D s d
  kept : ∀ s, out.get? s ≠ none → out'.get? s ≠ none
  new : ∀ s d, D s d → out'.get? s ≠ none

namespace Adds

variable {D E : String → Node → Prop} {out out' out'' : JsMap String Node}

theorem none (h : ∀ s d, ¬D s d) : Adds D out out :=
  ⟨fun _ _ h => .inl h, fun _ h => h, fun s d hd => absurd hd (h s d)⟩

theorem set {s : String} {d : Node} (h : ∀ t e, D t e ↔ t = s ∧ e = d) : Adds D out (out.set s d) := by
  refine ⟨fun t e he => ?_, fun t ht => ?_, fun t e he => ?_⟩
  · rw [JsMap.get?_set] at he
    split at he
    · rename_i ht
      cases he
      exact .inr ((h t d).mpr ⟨ht, rfl⟩)
    · exact .inl he
  · rw [JsMap.get?_set]
    split
    · exact Option.some_ne_none d
    · exact ht
  · rw [JsMap.get?_set, if_pos ((h t e).mp he).1]
    exact Option.some_ne_none d

theorem trans (h : Adds D out out') (h' : Adds E out' out'') : Adds (fun s d => D s d ∨ E s d) out out'' := by
  refine ⟨fun s d hd => ?_, fun s hs => h'.kept s (h.kept s hs), fun s d hd => ?_⟩
  · rcases h'.old s d hd with hd | hd
    · rcases h.old s d hd with hd | hd
      · exact .inl hd
      · exact .inr (.inl hd)
    · exact .inr (.inr hd)
  · rcases hd with hd | hd
    · exact h'.kept s (h.new s d hd)
    · exact h'.new s d hd

theorem congr (h : Adds D out out') (hiff : ∀ s d, E s d ↔ D s d) : Adds E out out' :=
  ⟨fun s d hd => (h.old s d hd).imp_right (hiff s d).mpr, h.kept, fun s d hd => h.new s d ((hiff s d).mp hd)⟩

end Adds

theorem definesAny_cons {ns s : String} {node d : Node} {nodes : List Node} :
    DefinesAny ns (node :: nodes) s d ↔ Defines ns node s d ∨ DefinesAny ns nodes s d := by
  constructor
  · intro h
    cases h with
    | head h => exact .inl h
    | tail h => exact .inr h
  · rintro (h | h)
    · exact .head h
    · exact .tail h

theorem definesFields_cons {ns s name : String} {type d : Node} {hasDefault : Bool} {fields : List Field} :
    DefinesFields ns (.mk name type hasDefault :: fields) s d ↔ Defines ns type s d ∨
      DefinesFields ns fields s d := by
  constructor
  · intro h
    cases h with
    | head h => exact .inl h
    | tail h => exact .inr h
  · rintro (h | h)
    · exact .head h
    · exact .tail h

theorem defines_record {ns name s : String} {nspace : Option String} {isVariant : Bool}
    {fields : List Field} {d : Node} :
    Defines ns (.record name nspace isVariant fields) s d ↔
      (s = Avro.fullname name nspace ns ∧ d = withNamespaces ns (.record name nspace isVariant fields)) ∨
        DefinesFields (Avro.namespaceOf name nspace ns) fields s d := by
  constructor
  · intro h
    cases h with
    | record => exact .inl ⟨rfl, rfl⟩
    | field h => exact .inr h
  · rintro (⟨rfl, rfl⟩ | h)
    · exact .record
    · exact .field h

mutual

theorem collectAvroNamed_adds (ns : String) (out : JsMap String Node) :
    ∀ node, Adds (Defines ns node) out (collectAvroNamed ns out node)
  | .union branches => (collectAvroNamedEach_adds ns out branches).congr fun _ _ =>
    ⟨fun h => by cases h; assumption, .branch⟩
  | .enum name nspace symbols => Adds.set fun _ _ =>
    ⟨fun h => by cases h; exact ⟨rfl, rfl⟩, by rintro ⟨rfl, rfl⟩; exact .enum⟩
  | .fixed name nspace size logicalType => Adds.set fun _ _ =>
    ⟨fun h => by cases h; exact ⟨rfl, rfl⟩, by rintro ⟨rfl, rfl⟩; exact .fixed⟩
  | .record name nspace isVariant fields =>
    (Adds.trans (Adds.set fun _ _ => Iff.rfl) (collectAvroNamedFields_adds _ _ fields)).congr fun _ _ =>
      defines_record
  | .array items => (collectAvroNamed_adds ns out items).congr fun _ _ => ⟨fun h => by cases h; assumption, .items⟩
  | .map values => (collectAvroNamed_adds ns out values).congr fun _ _ => ⟨fun h => by cases h; assumption, .values⟩
  | .name _ => Adds.none nofun
  | .primitive _ _ => Adds.none nofun

theorem collectAvroNamedEach_adds (ns : String) (out : JsMap String Node) :
    ∀ nodes, Adds (DefinesAny ns nodes) out (collectAvroNamedEach ns out nodes)
  | [] => Adds.none nofun
  | node :: nodes =>
    ((collectAvroNamed_adds ns out node).trans (collectAvroNamedEach_adds ns _ nodes)).congr fun _ _ =>
      definesAny_cons

theorem collectAvroNamedFields_adds (ns : String) (out : JsMap String Node) :
    ∀ fields, Adds (DefinesFields ns fields) out (collectAvroNamedFields ns out fields)
  | [] => Adds.none nofun
  | .mk _ type _ :: fields =>
    ((collectAvroNamed_adds ns out type).trans (collectAvroNamedFields_adds ns _ fields)).congr fun _ _ =>
      definesFields_cons

end

theorem collectAvroNamedEach_eq_foldl (ns : String) (out : JsMap String Node) (nodes : List Node) :
    nodes.foldl (collectAvroNamed ns) out = collectAvroNamedEach ns out nodes := by
  induction nodes generalizing out with
  | nil => rfl
  | cons node nodes ih => exact ih _

theorem collectAvroNamedAll_adds (root : Node) (depSchemas : List Node) :
    Adds (DefinesAll root depSchemas) .empty (collectAvroNamedAll root depSchemas) := by
  rw [collectAvroNamedAll, collectAvroNamedEach_eq_foldl]
  exact (collectAvroNamed_adds "" _ root).trans (collectAvroNamedEach_adds "" _ depSchemas)

theorem Library.Knows.index_eq {lib : Library} {root : Node} {depSchemas : List Node}
    (h : lib.Knows root depSchemas) :
    (collectAvroNamedAll root depSchemas).get? = lib.types := by
  have hadds := collectAvroNamedAll_adds root depSchemas
  have hdefines : ∀ s d, (collectAvroNamedAll root depSchemas).get? s = some d →
    DefinesAll root depSchemas s d := by
    intro s d hd
    rcases hadds.old s d hd with hold | hd
    · cases hold
    · exact hd
  funext s
  cases hindex : (collectAvroNamedAll root depSchemas).get? s with
  | some d => exact ((h.types s d).mpr (hdefines s d hindex)).symm
  | none =>
    cases htypes : lib.types s with
    | none => rfl
    | some d => exact absurd hindex (hadds.new s d ((h.types s d).mp htypes))

mutual

theorem Defines.ne_name {ns s t : String} {node d : Node} : Defines ns node s d → d ≠ .name t
  | .enum => by simp [withNamespaces]
  | .fixed => by simp [withNamespaces]
  | .record => by simp [withNamespaces]
  | .field h => h.ne_name
  | .items h => h.ne_name
  | .values h => h.ne_name
  | .branch h => h.ne_name

theorem DefinesAny.ne_name {ns s t : String} {nodes : List Node} {d : Node} : DefinesAny ns nodes s d → d ≠ .name t
  | .head h => h.ne_name
  | .tail h => h.ne_name

theorem DefinesFields.ne_name {ns s t : String} {fields : List Field} {d : Node} :
    DefinesFields ns fields s d → d ≠ .name t
  | .head h => h.ne_name
  | .tail h => h.ne_name

end

theorem Library.Knows.registry {lib : Library} {root : Node} {depSchemas : List Node}
    (h : lib.Knows root depSchemas) :
    Registry lib.types := by
  constructor
  · intro s t hs
    rcases (h.types s _).mp hs with hd | hd
    · exact hd.ne_name rfl
    · exact hd.ne_name rfl
  · intro ns s type hs
    constructor
    · cases hd : lib.types s with
      | none => rfl
      | some d => exact absurd ⟨s, type, hs, .inl rfl⟩ (h.names s d ((h.types s d).mp hd))
    · cases hd : lib.types (ns ++ "." ++ s) with
      | none => rfl
      | some d => exact absurd ⟨s, type, hs, .inr ⟨ns, rfl⟩⟩ (h.names _ d ((h.types _ d).mp hd))

/-! ## Data come back -/

/-- The conversions of `wrapAvroForCel` and `unwrapAvroFromCel`, and those for parts of a message: a datum
that is not disturbed comes back as one that stands for the same logical value. -/
theorem write_back_identity {lib : Library} {root : Node} {depSchemas : List Node}
    (hlib : lib.Knows root depSchemas)
    (numberOf : Value → Option Int) {ns : String} {node : Node} {v : Value} {l : Logical}
    (h : Denotes lib ns node v l)
    (hk : ¬Disturbed lib ns node v) :
    ∃ c w n, ∀ fuel ≥ n,
      avroToCel ⟨(collectAvroNamedAll root depSchemas).get?, numberOf⟩ fuel node ns v = .ok c ∧
      celToAvro ⟨(collectAvroNamedAll root depSchemas).get?, numberOf⟩ fuel node ns c = .ok w ∧
        Denotes lib ns node w l := by
  have hkept : Kept lib ⟨(collectAvroNamedAll root depSchemas).get?, numberOf⟩ ns node v l :=
    kept_of_denotes hlib.registry hlib.index_eq h hk
  obtain ⟨c, w, ⟨n, hn⟩, ⟨n', hn'⟩, hd, -, -⟩ := hkept
  refine ⟨c, w, max n n', fun fuel hfuel => ⟨hn fuel ?_, hn' fuel ?_, hd⟩⟩
  · exact le_trans (le_max_left n n') hfuel
  · exact le_trans (le_max_right n n') hfuel

/-! ### Orders with decimals -/

def orderNode : Node :=
  .record "Order" none false
    [.mk "amount" (.primitive .bytes (some (.decimal (some 2)))) false, .mk "next"
      (.union [.name "null", .name "Order"]) false]

def Library.single (name : String) (node : Node) : Library where
  types := fun s => if s = name then some node else none
  wraps := fun _ => false

def orderLibrary : Library := .single "Order" orderNode

theorem not_namesPrimitive {s : String} (hdot : '.' ∉ s.toList) (h : TypeName.ofName s = none) :
    ¬NamesPrimitive s := by
  rintro ⟨t, type, ht, rfl | ⟨ns, rfl⟩⟩
  · rw [h] at ht
    cases ht
  · simp at hdot

theorem withNamespaces_order : withNamespaces "" orderNode = orderNode := by
  simp [withNamespaces, withNamespacesFields, withNamespacesAll, orderNode, inheritedNamespace, Avro.namespaceOf]

theorem not_defines_name {ns s t : String} {d : Node} : ¬Defines ns (.name t) s d := nofun

theorem defines_order {s : String} {d : Node} : DefinesAll orderNode [] s d ↔ s = "Order" ∧ d = orderNode := by
  constructor
  · rintro (h | h)
    · rw [orderNode, defines_record] at h
      rcases h with ⟨rfl, rfl⟩ | h
      · exact ⟨by simp [Avro.fullname], withNamespaces_order⟩
      · rw [definesFields_cons, definesFields_cons] at h
        rcases h with h | h | h
        · cases h
        · cases h with
          | branch h =>
            rw [definesAny_cons, definesAny_cons] at h
            rcases h with h | h | h
            · exact absurd h not_defines_name
            · exact absurd h not_defines_name
            · cases h
        · cases h
    · cases h
  · rintro ⟨rfl, rfl⟩
    have h : Defines "" orderNode _ _ := .record
    rw [show Avro.fullname "Order" none "" = "Order" by simp [Avro.fullname]] at h
    exact .inl (withNamespaces_order ▸ h)

theorem single_knows {root node : Node} {name : String} (hdefines : ∀ s d, DefinesAll root [] s d ↔
    s = name ∧ d = node)
    (hdot : '.' ∉ name.toList) (hname : TypeName.ofName name = none) :
    (Library.single name node).Knows root [] := by
  constructor
  · intro s d
    rw [hdefines]
    simp only [Library.single]
    split
    · rename_i hs
      simp [hs, eq_comm]
    · rename_i hs
      simp [hs]
  · intro s d hd
    obtain ⟨rfl, -⟩ := (hdefines s d).mp hd
    exact not_namesPrimitive hdot hname

theorem orderLibrary_knows : orderLibrary.Knows orderNode [] :=
  single_knows (fun _ _ => defines_order) (by decide) rfl

theorem resolved_null : resolved orderLibrary "" (.name "null") = .name "null" :=
  orderLibrary_knows.registry.resolved_primitive rfl

theorem resolved_order : resolved orderLibrary "" (.name "Order") = orderNode :=
  resolved_of_qualify (by simp [Avro.qualify, orderLibrary, Library.single])

theorem takes_null {j : Nat} {b : Node} (hb : [Node.name "null", .name "Order"][j]? = some b)
    (ht : takes (resolved orderLibrary "" b) .null = true) : j = 0 ∧ b = .name "null" := by
  match j, hb with
  | 0, hb => exact ⟨rfl, (Option.some.inj hb).symm⟩
  | 1, hb =>
    cases hb
    rw [resolved_order] at ht
    cases ht

def sampleOrder : Value := .object [("amount", .bytes [4, 210]), ("next", .null)]

theorem sampleOrder_denotes : Denotes orderLibrary "" orderNode sampleOrder
    (.record [("amount", some (.decimal 1234)), ("next", some (.union 0 (.plain .null)))]) := by
  have hnull : Denotes orderLibrary "" (.union [.name "null", .name "Order"]) .null (.union 0 (.plain .null)) := by
    refine .unwrapped rfl rfl ?_ (fun j b hb ht => (takes_null hb ht).1) (.primitiveName rfl .null)
    rw [resolved_null]
    rfl
  refine .record (by decide) ?_
  rw [show Avro.namespaceOf "Order" none "" = "" by simp [Avro.namespaceOf]]
  exact .present rfl (.primitive .decimal) (.present rfl hnull .nil)

theorem not_disturbed_null : ¬Disturbed orderLibrary "" (.union [.name "null", .name "Order"]) .null := by
  intro h
  cases h with
  | timestampType ht => cases ht
  | branch hwraps hi htakes hshield h =>
    obtain ⟨-, rfl⟩ := takes_null hi htakes
    cases h with
    | named hs => simp [Avro.qualify, orderLibrary, Library.single] at hs
    | timestampType ht => cases ht
  | behind hwraps hi htakes hshield => simp [shielded, isCelStruct] at hshield
  | tagged h => simp [isTagged, typeTag] at h
  | wrapped hwraps => cases hwraps

theorem sampleOrder_narrow : Narrow [4, 210] 2 := by
  constructor <;> decide

theorem sampleOrder_not_disturbed : ¬Disturbed orderLibrary "" orderNode sampleOrder := by
  intro h
  cases h with
  | timestampType ht => cases ht
  | field hfield hlook h =>
    rw [show Avro.namespaceOf "Order" none "" = "" by simp [Avro.namespaceOf]] at h
    rw [List.mem_cons, List.mem_singleton] at hfield
    rcases hfield with rfl | rfl
    · cases hlook
      cases h with
      | wide ht h =>
        cases ht
        exact h sampleOrder_narrow
      | timestampType ht => cases ht
    · cases hlook
      exact not_disturbed_null h

theorem write_back_order : ∃ c w n, ∀ fuel ≥ n,
    avroToCel ⟨(collectAvroNamedAll orderNode []).get?, fun _ => none⟩ fuel orderNode "" sampleOrder = .ok c ∧
      celToAvro ⟨(collectAvroNamedAll orderNode []).get?, fun _ => none⟩ fuel orderNode "" c = .ok w ∧
      Denotes orderLibrary "" orderNode w
        (.record [("amount", some (.decimal 1234)), ("next", some (.union 0 (.plain .null)))]) :=
  write_back_identity orderLibrary_knows (fun _ => none) sampleOrder_denotes sampleOrder_not_disturbed

/-! ### A decimal on fixed bytes -/

def priceNode : Node := .fixed "Price" none 4 (some (.decimal (some 2)))

theorem withNamespaces_price : withNamespaces "" priceNode = priceNode := by
  simp [withNamespaces, priceNode, inheritedNamespace, Avro.namespaceOf]

def priceLibrary : Library := .single "Price" priceNode

theorem defines_price {s : String} {d : Node} : DefinesAll priceNode [] s d ↔ s = "Price" ∧ d = priceNode := by
  constructor
  · rintro (h | h)
    · cases h
      exact ⟨by simp [Avro.fullname], withNamespaces_price⟩
    · cases h
  · rintro ⟨rfl, rfl⟩
    have h : Defines "" priceNode _ _ := .fixed
    rw [show Avro.fullname "Price" none "" = "Price" by simp [Avro.fullname]] at h
    exact .inl (withNamespaces_price ▸ h)

theorem priceLibrary_knows : priceLibrary.Knows priceNode [] :=
  single_knows (fun _ _ => defines_price) (by decide) rfl

/-- A decimal on fixed bytes comes back in the fewest bytes. -/
theorem not_write_back_fixed :
    ¬ ∀ (lib : Library) (root : Node) (depSchemas : List Node), lib.Knows root depSchemas →
      ∀ (numberOf : Value → Option Int) (ns : String) (node : Node) (v : Value) (l : Logical),
        Denotes lib ns node v l →
      ∃ c w n, ∀ fuel ≥ n,
        avroToCel ⟨(collectAvroNamedAll root depSchemas).get?, numberOf⟩ fuel node ns v = .ok c ∧
        celToAvro ⟨(collectAvroNamedAll root depSchemas).get?, numberOf⟩ fuel node ns c = .ok w ∧
        Denotes lib ns node w l := by
  intro h
  obtain ⟨c, w, n, hn⟩ := h priceLibrary priceNode [] priceLibrary_knows (fun _ => none) "" priceNode
    (.bytes [0, 0, 0, 1]) _
    (.fixedDecimal rfl)
  obtain ⟨hc, hw, hd⟩ := hn (n + 1) (Nat.le_succ n)
  have hcel : (.ok (.decimal ⟨[1], 2⟩) : Except CelError Value) = .ok c := hc
  cases hcel
  have havro : (.ok (.bytes [1]) : Except CelError Value) = .ok w := hw
  cases havro
  cases hd with
  | fixedDecimal hsize => exact absurd hsize (by decide)

end Cel

end ConfluentKafka
