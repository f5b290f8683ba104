import ConfluentKafka.JsMap
import ConfluentKafka.Rules
import Mathlib.Data.List.Induction

/-!
# References of schemas

`resolveReferences` of `serde.ts`, over any client. The recursion takes fuel for its depth and is `none`
where that does not suffice. The format of a request changes the text that is served, not the references.
-/

namespace ConfluentKafka

/-- What the serdes ask of a client to resolve references: the schema of a subject and a version, deleted ones
too, in a format. -/
structure ReferenceClient where
  getSchemaMetadata : String → Int → Bool → Option String → Except Thrown SchemaMetadata

abbrev Deps := JsMap String String

namespace ReferenceClient

variable (client : ReferenceClient)

def resolveEach (resolve : SchemaInfo → Deps → Option (Except Thrown Deps)) (format : Option String) :
    List Reference → Deps → Option (Except Thrown Deps)
  | [], deps => some (.ok deps)
  | ref :: refs, deps =>
    match client.getSchemaMetadata ref.subject ref.version true format with
    | .error e => some (.error e)
    | .ok metadata =>
      match resolve metadata.toSchemaInfo (deps.set ref.name metadata.schema) with
      | none => none
      | some (.error e) => some (.error e)
      | some (.ok deps) => resolveEach resolve format refs deps

def resolveReferences : Nat → SchemaInfo → Deps → Option String → Option (Except Thrown Deps)
  | 0, _, _, _ => none
  | fuel + 1, schema, deps, format =>
    match schema.references with
    | none => some (.ok deps)
    | some references =>
      client.resolveEach (fun metadata deps => resolveReferences fuel metadata deps none) format references deps

/-! ## What the registry serves -/

def served (ref : Reference) (format : Option String) : Except Thrown SchemaMetadata :=
  client.getSchemaMetadata ref.subject ref.version true format

def text (ref : Reference) (format : Option String) : String :=
  match client.served ref format with
  | .ok metadata => metadata.schema
  | .error _ => ""

def referencesOf (ref : Reference) : List Reference :=
  match client.served ref none with
  | .ok metadata => metadata.references.getD []
  | .error _ => []

/-- The schema is served in every format, with the same references. -/
def Serves (ref : Reference) : Prop :=
  ∀ format, ∃ metadata, client.served ref format = .ok metadata ∧ metadata.references.getD
    [] = client.referencesOf ref

/-- The references go on to no cycle, and each schema is served. -/
inductive Resolvable : List Reference → Prop
  | intro {refs : List Reference} (serves : ∀ ref ∈ refs, client.Serves ref)
      (nested : ∀ ref ∈ refs, Resolvable (client.referencesOf ref)) : Resolvable refs

inductive Refers : List Reference → Reference → Prop
  | direct {refs : List Reference} {ref : Reference} (h : ref ∈ refs) : Refers refs ref
  | nested {refs : List Reference} {ref r : Reference} (h : ref ∈ refs) (hr : Refers (client.referencesOf ref) r) :
    Refers refs r

/-- The names of all referenced schemas, each with the text that is served in the format. -/
def Filled (refs : List Reference) (format : Option String) (deps : Deps) : Prop :=
  (∀ ref, client.Refers refs ref → deps.get? ref.name = some (client.text ref format)) ∧
    ∀ name, (deps.get? name).isSome → ∃ ref, client.Refers refs ref ∧ ref.name = name

/-! ## Requests -/

/-- The references in the order of the requests, each with the format that is asked for. -/
def requests : Nat → List Reference → Option String → List (Reference × Option String)
  | 0, _, _ => []
  | fuel + 1, refs, format => refs.flatMap fun ref => (ref, format) :: requests fuel (client.referencesOf ref) none

def store (deps : Deps) (r : Reference × Option String) : Deps := deps.set r.1.name (client.text r.1 r.2)

def lastOf (name : String) (rs : List (Reference × Option String)) : Option (Reference × Option String) :=
  rs.reverse.find? fun r => r.1.name = name

/-- The last request for a name is served the text that each reference of the name has in the format. -/
def LastInFormat (refs : List Reference) (format : Option String) (rs : List (Reference × Option String)) : Prop :=
  ∀ ref, client.Refers refs ref → ∀ r, lastOf ref.name rs = some r → client.text r.1 r.2 = client.text ref format

variable {client}

theorem Serves.served_eq {ref : Reference} (h : client.Serves ref) (format : Option String) :
    ∃ metadata, client.served ref format = .ok metadata ∧ metadata.schema = client.text ref format ∧
      metadata.references.getD [] = client.referencesOf ref := by
  obtain ⟨metadata, hserved, hrefs⟩ := h format
  refine ⟨metadata, hserved, ?_, hrefs⟩
  rw [text, hserved]

/-- A loop whose recursive calls store the requests of the schemas that are referenced stores all requests. -/
theorem resolveEach_eq {resolve : SchemaInfo → Deps → Option (Except Thrown Deps)}
    (format : Option String) {fuel : Nat}
    {refs : List Reference} (hserves : ∀ ref ∈ refs, client.Serves ref)
    (hresolve : ∀ ref ∈ refs, ∀ (schema : SchemaInfo) (deps : Deps), schema.references.getD
      [] = client.referencesOf ref →
      resolve schema deps = some
        (.ok ((client.requests fuel (client.referencesOf ref) none).foldl client.store deps))) :
    ∀ deps, client.resolveEach resolve format refs deps =
      some (.ok ((client.requests (fuel + 1) refs format).foldl client.store deps)) := by
  induction refs with
  | nil => exact fun deps => rfl
  | cons ref refs ih =>
    intro deps
    obtain ⟨metadata, hserved, hschema, hrefs⟩ := (hserves ref List.mem_cons_self).served_eq format
    have hnested := hresolve ref List.mem_cons_self metadata.toSchemaInfo (deps.set ref.name metadata.schema) hrefs
    have hrest := ih (fun r hr => hserves r (List.mem_cons_of_mem _ hr)) fun r hr =>
      hresolve r (List.mem_cons_of_mem _ hr)
    rw [served] at hserved
    rw [resolveEach, hserved]
    dsimp only
    rw [hnested]
    dsimp only
    rw [hrest, requests, requests, List.flatMap_cons, List.foldl_append, List.foldl_cons, store, hschema]

theorem exists_depth {P : Reference → Nat → Prop} {refs : List Reference}
    (h : ∀ ref ∈ refs, ∃ n, ∀ fuel ≥ n, P ref fuel) :
    ∃ n, ∀ ref ∈ refs, ∀ fuel ≥ n, P ref fuel := by
  induction refs with
  | nil => exact ⟨0, by simp⟩
  | cons ref refs ih =>
    obtain ⟨n, hn⟩ := h ref List.mem_cons_self
    obtain ⟨n', hn'⟩ := ih fun r hr => h r (List.mem_cons_of_mem _ hr)
    refine ⟨max n n', fun r hr fuel hfuel => ?_⟩
    rcases List.mem_cons.mp hr with rfl | hr
    · exact hn fuel (Nat.le_trans (Nat.le_max_left _ _) hfuel)
    · exact hn' r hr fuel (Nat.le_trans (Nat.le_max_right _ _) hfuel)

/-- With fuel for the depth of the graph, the requests are stored in their order, and they are for all
references. -/
theorem Resolvable.run {refs : List Reference} (h : client.Resolvable refs) : ∃ depth, ∀ fuel ≥ depth,
    (∀ (schema : SchemaInfo) (deps : Deps) (format : Option String), schema.references.getD [] = refs →
      client.resolveReferences fuel schema deps format = some
        (.ok ((client.requests fuel refs format).foldl client.store deps))) ∧
      ∀ format ref, ref ∈ (client.requests fuel refs format).map Prod.fst ↔ client.Refers refs ref := by
  induction h with
  | @intro refs hserves hnested ih =>
    obtain ⟨depth, hdepth⟩ := exists_depth ih
    refine ⟨depth + 1, fun fuel hfuel => ?_⟩
    obtain ⟨fuel, rfl⟩ : ∃ n, fuel = n + 1 := ⟨fuel - 1, by omega⟩
    have hrec : ∀ ref ∈ refs, _ := fun ref hr => hdepth ref hr fuel (by omega)
    refine ⟨fun schema deps format hrefs => ?_, fun format ref => ?_⟩
    · rw [resolveReferences]
      cases hreferences : schema.references with
      | none =>
        rw [hreferences] at hrefs
        obtain rfl : [] = refs := hrefs
        rfl
      | some references =>
        rw [hreferences] at hrefs
        obtain rfl : references = refs := hrefs
        exact resolveEach_eq format hserves (fun ref hr schema deps hs => (hrec ref hr).1 schema deps none hs) deps
    · rw [requests, List.map_flatMap, List.mem_flatMap]
      constructor
      · rintro ⟨r, hr, hmem⟩
        rcases List.mem_cons.mp hmem with rfl | hmem
        · exact .direct hr
        · exact .nested hr (((hrec r hr).2 none ref).mp hmem)
      · intro hrefers
        cases hrefers with
        | direct hr => exact ⟨ref, hr, List.mem_cons_self⟩
        | @nested _ r _ hr hnext => exact ⟨r, hr, List.mem_cons_of_mem _ (((hrec r hr).2 none ref).mpr hnext)⟩

theorem get?_foldl_store (rs : List (Reference × Option String)) (name : String) :
    (rs.foldl client.store JsMap.empty).get? name = (lastOf name rs).map fun r => client.text r.1 r.2 := by
  induction rs using List.reverseRecOn with
  | nil => rfl
  | append_singleton rs r ih =>
    rw [List.foldl_append, List.foldl_cons, List.foldl_nil, store, JsMap.get?_set, ih, lastOf, lastOf,
      List.reverse_append,
      List.reverse_singleton, List.singleton_append, List.find?_cons]
    by_cases hname : name = r.1.name
    · rw [if_pos hname, decide_eq_true hname.symm]
      rfl
    · rw [if_neg hname, decide_eq_false (Ne.symm hname)]

theorem lastOf_isSome_iff (name : String) (rs : List (Reference × Option String)) :
    (lastOf name rs).isSome ↔ ∃ ref ∈ rs.map Prod.fst, ref.name = name := by
  rw [lastOf, List.find?_isSome]
  constructor
  · rintro ⟨r, hr, hname⟩
    exact ⟨r.1, List.mem_map_of_mem (List.mem_reverse.mp hr), of_decide_eq_true hname⟩
  · rintro ⟨ref, href, hname⟩
    obtain ⟨r, hr, rfl⟩ := List.mem_map.mp href
    exact ⟨r, List.mem_reverse.mpr hr, decide_eq_true hname⟩

theorem filled_iff {refs : List Reference} {format : Option String} {rs : List (Reference × Option String)}
    (hmem : ∀ ref, ref ∈ rs.map Prod.fst ↔ client.Refers refs ref) :
    client.Filled refs format (rs.foldl client.store JsMap.empty) ↔ client.LastInFormat refs format rs := by
  constructor
  · rintro ⟨htexts, -⟩ ref href r hlast
    have htext := htexts ref href
    rw [get?_foldl_store, hlast] at htext
    exact Option.some.inj htext
  · intro hlast
    refine ⟨fun ref href => ?_, fun name hname => ?_⟩
    · have hsome := (lastOf_isSome_iff ref.name rs).mpr ⟨ref, (hmem ref).mpr href, rfl⟩
      obtain ⟨r, hr⟩ := Option.isSome_iff_exists.mp hsome
      rw [get?_foldl_store, hr, Option.map_some, hlast ref href r hr]
    · rw [get?_foldl_store, Option.isSome_map] at hname
      obtain ⟨ref, href, rfl⟩ := (lastOf_isSome_iff name rs).mp hname
      exact ⟨ref, (hmem ref).mp href, rfl⟩

/-- The texts are in the format exactly where the last request for each name is served such a text: one for a
reference of the schema itself asks for the format, and one for a reference of a referenced schema asks for
none. -/
theorem resolveReferences_filled_iff {schema : SchemaInfo} (h : client.Resolvable (schema.references.getD []))
    (format : Option String) : ∃ depth, ∀ fuel ≥ depth, ∃ deps,
      client.resolveReferences fuel schema JsMap.empty format = some (.ok deps) ∧
        (client.Filled (schema.references.getD []) format deps ↔
          client.LastInFormat (schema.references.getD []) format
            (client.requests fuel (schema.references.getD []) format)) := by
  obtain ⟨depth, hdepth⟩ := h.run
  refine ⟨depth, fun fuel hfuel => ?_⟩
  obtain ⟨hrun, hmem⟩ := hdepth fuel hfuel
  exact ⟨_, hrun schema JsMap.empty format rfl, filled_iff (hmem format)⟩

def importing : ReferenceClient where
  getSchemaMetadata subject _ _ format :=
    if subject = "outer" then
      .ok { schema := "outer:" ++ format.getD "", references := some [⟨"inner.proto", "inner", 1⟩] }
    else .ok { schema := "inner:" ++ format.getD "" }

theorem resolvable_importing : importing.Resolvable [⟨"outer.proto", "outer", 1⟩] := by
  have hleaf : importing.Resolvable [⟨"inner.proto", "inner", 1⟩] := by
    refine .intro ?_ ?_
    · simp only [List.mem_singleton, forall_eq]
      exact fun format => ⟨_, rfl, rfl⟩
    · simp only [List.mem_singleton, forall_eq]
      exact .intro (fun ref href => absurd href List.not_mem_nil) fun ref href => absurd href List.not_mem_nil
  refine .intro ?_ ?_
  · simp only [List.mem_singleton, forall_eq]
    exact fun format => ⟨_, rfl, rfl⟩
  · simp only [List.mem_singleton, forall_eq]
    exact hleaf

/-- A schema with the file that imports nothing. -/
theorem resolveReferences_filled_direct : ∃ depth, ∀ fuel ≥ depth, ∃ deps,
    importing.resolveReferences fuel { schema := "", references := some [⟨"inner.proto", "inner", 1⟩] } JsMap.empty
        (some "serialized") = some (.ok deps) ∧
      (importing.Filled [⟨"inner.proto", "inner", 1⟩] (some "serialized") deps ↔
        importing.LastInFormat [⟨"inner.proto", "inner", 1⟩] (some "serialized")
          (importing.requests fuel [⟨"inner.proto", "inner", 1⟩] (some "serialized"))) := by
  have hresolvable : importing.Resolvable [⟨"inner.proto", "inner", 1⟩] := by
    cases resolvable_importing with
    | intro _ hnested => exact hnested _ List.mem_cons_self
  refine resolveReferences_filled_iff ?_ (some "serialized")
  exact hresolvable

/-- The import of an import is served without the format. -/
theorem resolveReferences_import_fails : importing.Resolvable [⟨"outer.proto", "outer", 1⟩] ∧ ∃ deps,
    (∀ fuel ≥ 3, importing.resolveReferences fuel { schema := "", references := some [⟨"outer.proto", "outer", 1⟩] }
      JsMap.empty
      (some "serialized") = some (.ok deps)) ∧
      deps.get? "outer.proto" = some "outer:serialized" ∧ deps.get? "inner.proto" = some "inner:" ∧
      importing.text ⟨"inner.proto", "inner", 1⟩ (some "serialized") = "inner:serialized" ∧
      ¬importing.Filled [⟨"outer.proto", "outer", 1⟩] (some "serialized") deps := by
  refine ⟨resolvable_importing, (JsMap.empty.set "outer.proto" "outer:serialized").set "inner.proto" "inner:",
    fun fuel hfuel => ?_,
    rfl, rfl, rfl, fun hfilled => ?_⟩
  · obtain ⟨n, rfl⟩ : ∃ n, fuel = n + 3 := ⟨fuel - 3, by omega⟩
    rfl
  · have hrefers : importing.Refers [⟨"outer.proto", "outer", 1⟩] ⟨"inner.proto", "inner", 1⟩ :=
      .nested List.mem_cons_self (.direct List.mem_cons_self)
    have htext := hfilled.1 _ hrefers
    exact absurd (Option.some.inj htext) (by decide)

end ReferenceClient

end ConfluentKafka
