import ConfluentKafka.JsonRoundTrip

/-!
# The identity as field transform of JSON schemas

A walk whose field transform returns each value unchanged reads and writes back the properties of the
schema. It returns the message, unless one of them is inherited, so that it becomes a property of the
message, or belongs to a primitive value, which cannot be written to.
-/

namespace ConfluentKafka

namespace Json

open JsValue
open ConfluentKafka.Walk (Orderly Returns Rises)

def identity : FieldTransform JsValue := fun _ v => .ok v

/-! ## What a walk visits -/

def SchemaNode.Combined (n : SchemaNode) : Prop := n.allOf ≠ [] ∨ n.anyOf ≠ [] ∨ n.oneOf ≠ []

def WalksProperties (n : SchemaNode) (v : JsValue) : Prop :=
  (n.Combined ∧ isObject v = true) ∨
    (¬n.Combined ∧ (n.items = none ∨ isArray v = false) ∧ n.ref = none ∧ n.getType = .RECORD)

section

variable (env : Setting)

def Settled (n : SchemaNode) (v : JsValue) : Prop :=
  ∀ t types, n.type = some (.inr (t :: types)) → validateSubtypes env n (t :: types) v = none

inductive SubVisits (n : SchemaNode) (v : JsValue) (i : Nat) : Prop where
  | allOf (hi : i ∈ n.allOf)
  | oneOf (hall : n.allOf = []) (hi : n.oneOf.find? (fun i => validateSubschema env (env.graph i) v) = some i)
  | anyOf (hall : n.allOf = []) (hone : n.oneOf = []) (hi : i ∈ n.anyOf)
      (hacc : validateSubschema env (env.graph i) v = true)

inductive Visits (n : SchemaNode) (v : JsValue) : Nat → JsValue → Prop where
  | subschema {i : Nat} (h : SubVisits env n v i) : Visits n v i v
  | property {name : String} {i : Nat} {w : JsValue} (hwalks : WalksProperties n v)
      (hmem : (name, i) ∈ n.properties.getD []) (hfind : find env v name = .own w ∨ find env v name = .aside w) :
      Visits n v i w
  | item {i : Nat} {elems : List JsValue} {w : JsValue} (hitems : n.items = some i) (hv : v = .array elems)
      (hw : w ∈ elems) : Visits n v i w
  | ref {i : Nat} (hcomb : ¬n.Combined) (hitems : n.items = none ∨ isArray v = false) (hi : n.ref = some i) :
      Visits n v i v

/-- A property that is looked up is inherited or belongs to a primitive value. -/
inductive Disturbed : Schema → JsValue → Prop where
  | narrowed {n : SchemaNode} {v : JsValue} {t : TypeName} {types : List TypeName} {t' : TypeName}
      (hv : isNullish v = false) (htype : n.type = some (.inr (t :: types)))
      (hsub : validateSubtypes env n (t :: types) v = some t')
      (h : Disturbed (.node { n with type := some (.inl t') }) v) : Disturbed (.node n) v
  | lookup {n : SchemaNode} {v : JsValue} {name : String} {i : Nat} (hv : isNullish v = false)
    (hset : Settled env n v)
      (hwalks : WalksProperties n v) (hmem : (name, i) ∈ n.properties.getD [])
      (hfind : ¬Note.Plain (.lookup (find env v name).kind)) : Disturbed (.node n) v
  | part {n : SchemaNode} {v : JsValue} {i : Nat} {w : JsValue} (hv : isNullish v = false) (hset : Settled env n v)
      (hvisit : Visits env n v i w) (h : Disturbed (env.graph i) w) : Disturbed (.node n) v

end

/-! ## The number of properties -/

mutual

def weight : JsValue → Nat
  | .array elems => weightElems elems
  | .object props => weightProps props
  | _ => 0

def weightElems : List JsValue → Nat
  | [] => 0
  | v :: vs => weight v + weightElems vs

def weightProps : List (String × JsValue) → Nat
  | [] => 0
  | (_, v) :: ps => weight v + 1 + weightProps ps

end

def Grown (v r : JsValue) : Prop := 2 ≤ v.depth ∧ weight v < weight r

theorem grown_trans (u v r : JsValue) (h : Grown u v) (h' : Grown v r) : Grown u r := ⟨h.1, h.2.trans h'.2⟩

theorem weightProps_eq (ps : List (String × JsValue)) : weightProps ps = (ps.map fun p => weight p.2 + 1).sum := by
  induction ps with
  | nil => rfl
  | cons p ps ih => simp only [weightProps, List.map_cons, List.sum_cons, ih]

theorem weightProps_updateProp {ps : List (String × JsValue)} {name : String} {w : JsValue} (r : JsValue)
    (h : ps.lookup name = some w) : weightProps (updateProp name (fun _ => r) ps) + weight w = weightProps ps +
      weight r := by
  have hsum := sum_updateProp (fun p => weight p.2 + 1) r h
  simp only at hsum
  rw [weightProps_eq, weightProps_eq]
  omega

theorem weightProps_append (ps qs : List (String × JsValue)) : weightProps (ps ++ qs) = weightProps ps +
    weightProps qs := by
  rw [weightProps_eq, weightProps_eq, weightProps_eq, List.map_append, List.sum_append]

theorem weightElems_modify {vs : List JsValue} {i : Nat} {w : JsValue} (r : JsValue) (h : vs[i]? = some w) :
    weightElems (vs.modify i fun _ => r) + weight w = weightElems vs + weight r := by
  induction vs generalizing i with
  | nil => simp at h
  | cons v vs ih =>
    cases i with
    | zero =>
      simp only [List.getElem?_cons_zero, Option.some.injEq] at h
      subst h
      simp only [List.modify_zero_cons, weightElems]
      omega
    | succ i =>
      have := ih (i := i) (by simpa using h)
      simp only [List.modify_succ_cons, weightElems]
      omega

variable {env : Setting}

theorem weight_setOwn {v w : JsValue} {name : String} (r : JsValue) (h : find env v name = .own w) :
    2 ≤ v.depth ∧ weight (setOwn v name r) + weight w = weight v + weight r := by
  obtain ⟨props, rfl, hlook⟩ | ⟨elems, i, rfl, hi, hget⟩ := find_own h
  · exact ⟨by simp [depth], weightProps_updateProp r hlook⟩
  · refine ⟨by simp [depth], ?_⟩
    simp only [setOwn, hi, Option.map_some, Option.getD_some, weight]
    exact weightElems_modify r hget

theorem setOwn_self {v w : JsValue} {name : String} (h : find env v name = .own w) : setOwn v name w = v := by
  have hself := setOwn_of_own h (fun _ => id) []
  exact hself

theorem find_inherited {v : JsValue} {name : String} (h : find env v name = .inherited) :
    ∃ props, v = .object props := by
  cases v with
  | object props => exact ⟨props, rfl⟩
  | array elems =>
    simp only [find] at h
    split at h
    · rename_i w _
      obtain hw | hw := present_cases w
      · rw [hw] at h
        cases h
      · rw [hw] at h
        cases h
    · split_ifs at h
  | string s =>
    simp only [find] at h
    split_ifs at h
    all_goals
      split at h
      · cases h
      · cases h
  | bool b =>
    simp only [find] at h
    split_ifs at h
  | number n =>
    simp only [find] at h
    split_ifs at h
  | _ => cases h

theorem depth_aside {v w : JsValue} {name : String} (h : find env v name = .aside w) : ¬2 ≤ w.depth := by
  obtain ⟨elems, -, -, rfl⟩ | ⟨-, rfl, -⟩ := find_aside h
  · simp [depth]
  · simp [depth]

/-! ## A walk that ends returns the message or adds to it -/

section Rise

variable (env) in
def FieldDisturbed (v : JsValue) (p : String × Nat) : Prop :=
  ¬Note.Plain (.lookup (find env v p.1).kind) ∨
    ∃ w, (find env v p.1 = .own w ∨ find env v p.1 = .aside w) ∧ Disturbed env (env.graph p.2) w

variable {rule : WalkRule} {walk : Schema → String → JsValue → Walk Note JsValue}

theorem not_fieldDisturbed {v w : JsValue} {p : String × Nat}
    (hfind : find env v p.1 = .own w ∨ find env v p.1 = .aside w) (h : ¬Disturbed env (env.graph p.2) w) :
    ¬FieldDisturbed env v p := by
  rintro (hplain | ⟨w', hfind', hD⟩)
  · obtain hfind | hfind := hfind
    · exact hplain (by rw [hfind]; trivial)
    · exact hplain (by rw [hfind]; trivial)
  · obtain hfind | hfind := hfind
    · obtain hfind' | hfind' := hfind'
      · cases hfind.symm.trans hfind'
        exact h hD
      · cases hfind.symm.trans hfind'
    · obtain hfind' | hfind' := hfind'
      · cases hfind.symm.trans hfind'
      · cases hfind.symm.trans hfind'
        exact h hD

variable (hrule : rule.condition = false)
  (hwalk : ∀ schema path v, Rises Grown (Disturbed env schema v) v (walk schema path v))

include hwalk

theorem rises_transformItems {schema : Schema} (path : String) (elems : List JsValue) :
    Rises (fun vs rs => weightElems vs < weightElems rs) (∃ w ∈ elems, Disturbed env schema w) elems
      (transformItems (walk schema path) elems) := by
  refine Rises.mapEach (fun v r vs rs hgrown hrs => ?_) (fun v vs rs hrs => ?_) (hwalk schema path) elems
  · have := hgrown.2
    simp only [weightElems]
    obtain rfl | hrs := hrs
    · omega
    · omega
  · simp only [weightElems]
    omega

theorem rises_transformArray {i : Nat} (path : String) (v : JsValue) :
    Rises Grown (∃ elems, v = .array elems ∧ ∃ w ∈ elems, Disturbed env (env.graph i) w) v
      (transformArray (walk (env.graph i) path) v) := by
  cases harray : isArray v with
  | false =>
    rw [transformArray_of_not_array harray]
    refine Rises.pure ?_
    rintro ⟨elems, rfl, -⟩
    cases harray
  | true =>
    obtain ⟨elems, rfl⟩ := eq_array_of_isArray harray
    intro s r t hrun
    obtain ⟨rs, t₁, hrs, hpure⟩ := (bind_eq_ok_iff _ _ s t r).mp hrun
    cases hpure
    obtain ⟨rfl, hD⟩ | hgrown := rises_transformItems hwalk path elems s rs t hrs
    · refine .inl ⟨rfl, ?_⟩
      rintro ⟨elems', heq, hD'⟩
      cases heq
      exact hD hD'
    · exact .inr ⟨by simp [depth], hgrown⟩

include hrule

theorem rises_transformField (path : String) (p : String × Nat) (v : JsValue) :
    Rises Grown (FieldDisturbed env v p) v (transformField env rule walk path p.1 v (env.graph p.2)) := by
  have hcond : ¬rule.condition = true := by rw [hrule]; nofun
  refine Rises.inField _ (Rises.after fun _ => ?_)
  cases hfind : find env v p.1 with
  | nothing =>
    refine Rises.pure ?_
    rintro (hplain | ⟨w, hw | hw, -⟩)
    · exact hplain (by rw [hfind]; trivial)
    · cases hfind.symm.trans hw
    · cases hfind.symm.trans hw
  | own w =>
    intro s r t hrun
    obtain ⟨newVal, t₁, hnew, hassign⟩ := (bind_eq_ok_iff _ _ s t r).mp hrun
    rw [if_neg hcond] at hassign
    cases hassign
    obtain ⟨rfl, hD⟩ | hgrown := hwalk _ _ w s newVal t hnew
    · exact .inl ⟨setOwn_self hfind, not_fieldDisturbed (.inl hfind) hD⟩
    · obtain ⟨hdepth, hweight⟩ := weight_setOwn newVal hfind
      have := hgrown.2
      exact .inr ⟨hdepth, by omega⟩
  | aside w =>
    intro s r t hrun
    obtain ⟨newVal, t₁, hnew, hassign⟩ := (bind_eq_ok_iff _ _ s t r).mp hrun
    rw [if_neg hcond] at hassign
    cases hassign
    obtain ⟨rfl, hD⟩ | hgrown := hwalk _ _ w s newVal t hnew
    · exact .inl ⟨rfl, not_fieldDisturbed (.inr hfind) hD⟩
    · exact (depth_aside hfind hgrown.1).elim
  | inherited =>
    intro s r t hrun
    obtain ⟨newVal, t₁, hnew, hassign⟩ := (bind_eq_ok_iff _ _ s t r).mp hrun
    obtain ⟨props, rfl⟩ := find_inherited hfind
    rw [if_neg hcond] at hassign
    cases hassign
    refine .inr ⟨by simp [depth], ?_⟩
    simp only [weight, weightProps_append, weightProps]
    omega
  | primitive w =>
    intro s r t hrun
    obtain ⟨newVal, t₁, hnew, hassign⟩ := (bind_eq_ok_iff _ _ s t r).mp hrun
    rw [if_neg hcond] at hassign
    cases hassign

theorem rises_transformProperties (path : String) (props : List (String × Nat)) (v : JsValue) :
    Rises Grown (∃ p ∈ props, FieldDisturbed env v p) v (transformProperties env rule walk path props v) := by
  induction props generalizing v with
  | nil => exact Rises.pure (by simp)
  | cons p props ih =>
    refine (Rises.bind grown_trans (rises_transformField hrule hwalk path p v) ih).weaken ?_
    rintro ⟨q, hq, hD⟩
    cases List.mem_cons.mp hq with
    | inl h => exact .inl (h ▸ hD)
    | inr h => exact .inr ⟨q, h, hD⟩

omit hrule

theorem rises_transformAllOf (path : String) (subschemas : List Nat) (v : JsValue) :
    Rises Grown (∃ i ∈ subschemas, Disturbed env (env.graph i) v) v
      (transformAllOf env (fun schema => walk schema path) subschemas v) := by
  induction subschemas generalizing v with
  | nil => exact Rises.pure (by simp)
  | cons i subschemas ih =>
    refine (Rises.bind grown_trans (hwalk (env.graph i) path v) ih).weaken ?_
    rintro ⟨j, hj, hD⟩
    cases List.mem_cons.mp hj with
    | inl h => exact .inl (h ▸ hD)
    | inr h => exact .inr ⟨j, h, hD⟩

theorem rises_transformOneOf (path : String) (subschemas : List Nat) (v : JsValue) :
    Rises Grown (∃ i, subschemas.find? (fun i => validateSubschema env (env.graph i) v) = some i ∧
      Disturbed env (env.graph i) v) v (transformOneOf env (fun schema => walk schema path) subschemas v) := by
  induction subschemas with
  | nil => exact Rises.pure (by simp)
  | cons i subschemas ih =>
    refine Rises.after fun _ => ?_
    by_cases hacc : validateSubschema env (env.graph i) v = true
    · rw [if_pos hacc]
      refine (hwalk (env.graph i) path v).weaken ?_
      rintro ⟨j, hj, hD⟩
      simp only [List.find?_cons, hacc] at hj
      cases hj
      exact hD
    · rw [if_neg hacc]
      refine ih.weaken ?_
      rintro ⟨j, hj, hD⟩
      simp only [List.find?_cons, hacc] at hj
      exact ⟨j, hj, hD⟩

theorem rises_transformAnyOf (path : String) (subschemas : List Nat) (v : JsValue) :
    Rises Grown (∃ i ∈ subschemas, validateSubschema env (env.graph i) v = true ∧ Disturbed env (env.graph i) v) v
      (transformAnyOf env (fun schema => walk schema path) subschemas v) := by
  induction subschemas generalizing v with
  | nil => exact Rises.pure (by simp)
  | cons i subschemas ih =>
    refine Rises.after fun _ => ?_
    have hfirst : Rises Grown (validateSubschema env (env.graph i) v = true ∧ Disturbed env (env.graph i) v) v
        (transformIf (validateSubschema env (env.graph i) v) (walk (env.graph i) path) v) := by
      cases validateSubschema env (env.graph i) v with
      | true => exact (hwalk (env.graph i) path v).weaken And.right
      | false => exact Rises.pure nofun
    refine (Rises.bind grown_trans hfirst ih).weaken ?_
    rintro ⟨j, hj, hD⟩
    cases List.mem_cons.mp hj with
    | inl h => exact .inl (h ▸ hD)
    | inr h => exact .inr ⟨j, h, hD⟩

theorem rises_transformSubschemas (n : SchemaNode) (path : String) (v : JsValue) :
    Rises Grown (∃ i, SubVisits env n v i ∧ Disturbed env (env.graph i) v) v
      (transformSubschemas env (fun schema => walk schema path) n v) := by
  unfold transformSubschemas
  by_cases hall : n.allOf ≠ []
  · rw [if_pos hall]
    refine (rises_transformAllOf hwalk path n.allOf v).weaken ?_
    rintro ⟨i, hi | ⟨hnil, -⟩ | ⟨hnil, -, -, -⟩, hD⟩
    · exact ⟨i, hi, hD⟩
    · exact (hall hnil).elim
    · exact (hall hnil).elim
  · rw [if_neg hall]
    have hall' : n.allOf = [] := not_not.mp hall
    by_cases hone : n.oneOf ≠ []
    · rw [if_pos hone]
      refine (rises_transformOneOf hwalk path n.oneOf v).weaken ?_
      rintro ⟨i, hi | ⟨-, hi⟩ | ⟨-, hnil, -, -⟩, hD⟩
      · rw [hall'] at hi
        cases hi
      · exact ⟨i, hi, hD⟩
      · exact (hone hnil).elim
    · rw [if_neg hone]
      refine (rises_transformAnyOf hwalk path n.anyOf v).weaken ?_
      rintro ⟨i, hi | ⟨-, hi⟩ | ⟨-, -, hi, hacc⟩, hD⟩
      · rw [hall'] at hi
        cases hi
      · rw [not_not.mp hone] at hi
        cases hi
      · exact ⟨i, hi, hacc, hD⟩

theorem rises_transformSiblingItems (items : Option Nat) (path : String) (v : JsValue) :
    Rises Grown (∃ i, items = some i ∧ ∃ elems, v = .array elems ∧ ∃ w ∈ elems, Disturbed env (env.graph i) w) v
      (transformSiblingItems env walk items path v) := by
  cases items with
  | none => exact Rises.pure (by simp)
  | some i =>
    refine (rises_transformArray hwalk path v).weaken ?_
    rintro ⟨j, hj, hD⟩
    cases hj
    exact hD

variable (env) in
/-- The walk of a schema that is not narrowed is disturbed. -/
def NodeDisturbed (n : SchemaNode) (v : JsValue) : Prop :=
  (∃ i w, Visits env n v i w ∧ Disturbed env (env.graph i) w) ∨
    (WalksProperties n v ∧ ∃ p ∈ n.properties.getD [], ¬Note.Plain (.lookup (find env v p.1).kind))

omit hwalk in
/-- What disturbs the walk of a schema is a subschema, a property or an item. -/
theorem nodeDisturbed_iff (n : SchemaNode) (v : JsValue) :
    NodeDisturbed env n v ↔
      (∃ i, SubVisits env n v i ∧ Disturbed env (env.graph i) v) ∨
      (WalksProperties n v ∧ ∃ p ∈ n.properties.getD [], FieldDisturbed env v p) ∨
      (∃ i, n.items = some i ∧ ∃ elems, v = .array elems ∧ ∃ w ∈ elems, Disturbed env (env.graph i) w) ∨
      (¬n.Combined ∧ (n.items = none ∨ isArray v = false) ∧ ∃ i, n.ref = some i ∧ Disturbed env
        (env.graph i) v) := by
  constructor
  · rintro (⟨i, w, hvisit, hD⟩ | ⟨hwalks, p, hp, hplain⟩)
    · cases hvisit with
      | subschema h => exact .inl ⟨i, h, hD⟩
      | property hwalks hmem hfind => exact .inr (.inl ⟨hwalks, _, hmem, .inr ⟨w, hfind, hD⟩⟩)
      | item hitems hv hw => exact .inr (.inr (.inl ⟨i, hitems, _, hv, w, hw, hD⟩))
      | ref hcomb hitems hi => exact .inr (.inr (.inr ⟨hcomb, hitems, i, hi, hD⟩))
    · exact .inr (.inl ⟨hwalks, p, hp, .inl hplain⟩)
  · rintro (⟨i, h, hD⟩ | ⟨hwalks, p, hp, hplain | ⟨w, hfind, hD⟩⟩ | ⟨i, hitems, elems, hv, w, hw, hD⟩ |
      ⟨hcomb, hitems, i, hi, hD⟩)
    · exact .inl ⟨i, v, .subschema h, hD⟩
    · exact .inr ⟨hwalks, p, hp, hplain⟩
    · exact .inl ⟨p.2, w, .property hwalks hp hfind, hD⟩
    · exact .inl ⟨i, w, .item hitems hv hw, hD⟩
    · exact .inl ⟨i, v, .ref hcomb hitems hi, hD⟩

omit hwalk in
theorem settled_of_none {n : SchemaNode} {v : JsValue} {t : TypeName} {types : List TypeName}
    (htype : n.type = some (.inr (t :: types))) (hsub : validateSubtypes env n (t :: types) v = none) :
    Settled env n v := by
  intro t' types' htype'
  cases htype.symm.trans htype'
  exact hsub

omit hwalk in
theorem disturbed_of_settled {n : SchemaNode} {v : JsValue} (hv : isNullish v = false) (hset : Settled env n v) :
    Disturbed env (.node n) v ↔ NodeDisturbed env n v := by
  constructor
  · rintro (⟨-, htype, hsub, -⟩ | ⟨-, -, hwalks, hmem, hfind⟩ | ⟨-, -, hvisit, h⟩)
    · cases (hset _ _ htype).symm.trans hsub
    · exact .inr ⟨hwalks, _, hmem, hfind⟩
    · exact .inl ⟨_, _, hvisit, h⟩
  · rintro (⟨i, w, hvisit, h⟩ | ⟨hwalks, p, hp, hfind⟩)
    · exact .part hv hset hvisit h
    · exact .lookup hv hset hwalks hp hfind

omit hwalk in
theorem disturbed_of_narrowed {n : SchemaNode} {v : JsValue} {t t' : TypeName} {types : List TypeName}
    (hv : isNullish v = false) (htype : n.type = some (.inr (t :: types)))
    (hsub : validateSubtypes env n (t :: types) v = some t') :
    Disturbed env (.node n) v ↔ Disturbed env (.node { n with type := some (.inl t') }) v := by
  constructor
  · rintro (⟨-, htype', hsub', h⟩ | ⟨-, hset, -, -, -⟩ | ⟨-, hset, -, -⟩)
    · cases htype.symm.trans htype'
      cases hsub.symm.trans hsub'
      exact h
    · cases (hset _ _ htype).symm.trans hsub
    · cases (hset _ _ htype).symm.trans hsub
  · exact .narrowed hv htype hsub

omit hwalk in
theorem SubVisits.combined {n : SchemaNode} {v : JsValue} {i : Nat} (h : SubVisits env n v i) : n.Combined := by
  cases h with
  | allOf hi => exact .inl (List.ne_nil_of_mem hi)
  | oneOf _ hi => exact .inr (.inr (List.ne_nil_of_mem (List.mem_of_find?_eq_some hi)))
  | anyOf _ _ hi _ => exact .inr (.inl (List.ne_nil_of_mem hi))

omit hwalk in
theorem rises_transformLeaf (v : JsValue) {D : Prop} (hD : ¬D) :
    Rises Grown D v (transformLeaf rule identity v) := by
  refine Rises.after fun c => ?_
  have hsame : Walk.applyRule rule identity c v = .ok v := Walk.applyRule_eq_self fun _ => rfl
  rw [hsame]
  exact Rises.pure hD

include hrule

theorem rises_transformSiblings (n : SchemaNode) (path : String) (v : JsValue) :
    Rises Grown ((isObject v = true ∧ ∃ p ∈ n.properties.getD [], FieldDisturbed env v p) ∨
      ∃ i, n.items = some i ∧ ∃ elems, v = .array elems ∧ ∃ w ∈ elems, Disturbed env (env.graph i) w) v
      (transformSiblings env rule walk n path v) := by
  refine Rises.bind grown_trans ?_ fun w => rises_transformSiblingItems hwalk n.items path w
  cases isObject v with
  | true => exact (rises_transformProperties hrule hwalk path _ v).weaken And.right
  | false => exact Rises.pure nofun

theorem rises_transformPlain {n : SchemaNode} (hcomb : ¬n.Combined) (path : String) (v : JsValue) :
    Rises Grown (NodeDisturbed env n v) v (transformPlain env rule identity walk n path v) := by
  have hsub : ¬∃ i, SubVisits env n v i ∧ Disturbed env (env.graph i) v := fun ⟨i, hi, _⟩ => hcomb hi.combined
  unfold transformPlain
  split
  · rename_i i hitems hv
    have hnot : ¬(n.items = none ∨ isArray v = false) := by simp [hitems, hv]
    refine (rises_transformArray hwalk path v).weaken fun hD => ?_
    obtain hD | ⟨⟨hcomb', -⟩ | ⟨-, h, -⟩, -⟩ | ⟨j, hj, hD⟩ | ⟨-, h, -⟩ := (nodeDisturbed_iff n v).mp hD
    · exact (hsub hD).elim
    · exact (hcomb hcomb').elim
    · exact (hnot h).elim
    · rw [hitems] at hj
      cases hj
      exact hD
    · exact (hnot h).elim
  · rename_i hno
    have hitem : ¬∃ i, n.items = some i ∧ ∃ elems, v = .array elems ∧ ∃ w ∈ elems, Disturbed env
      (env.graph i) w := by
      rintro ⟨i, hi, elems, rfl, -⟩
      exact hno i hi rfl
    split
    · rename_i r hr
      refine (hwalk (env.graph r) path v).weaken fun hD => ?_
      obtain hD | ⟨⟨hcomb', -⟩ | ⟨-, -, href, -⟩, -⟩ | hD | ⟨-, -, i, hi, hD⟩ := (nodeDisturbed_iff n v).mp hD
      · exact (hsub hD).elim
      · exact (hcomb hcomb').elim
      · cases hr.symm.trans href
      · exact (hitem hD).elim
      · cases hr.symm.trans hi
        exact hD
    · rename_i href
      have hD' : NodeDisturbed env n v →
          n.getType = .RECORD ∧ ∃ p ∈ n.properties.getD [], FieldDisturbed env v p := fun hD => by
        obtain hD | ⟨⟨hcomb', -⟩ | ⟨-, -, -, htype⟩, hD⟩ | hD | ⟨-, -, i, hi, -⟩ := (nodeDisturbed_iff n v).mp hD
        · exact (hsub hD).elim
        · exact (hcomb hcomb').elim
        · exact ⟨htype, hD⟩
        · exact (hitem hD).elim
        · cases href.symm.trans hi
      by_cases hrec : n.getType = .RECORD
      · simp only [hrec]
        exact (rises_transformProperties hrule hwalk path _ v).weaken fun hD => (hD' hD).2
      · have hnot : ¬NodeDisturbed env n v := fun hD => hrec (hD' hD).1
        split
        · exact (hrec ‹_›).elim
        all_goals first | exact rises_transformLeaf v hnot | exact Rises.pure hnot

theorem rises_transformNode (n : SchemaNode) (path : String) (v : JsValue) :
    Rises Grown (NodeDisturbed env n v) v (transformNode env rule identity walk n path v) := by
  unfold transformNode
  by_cases hcomb : n.allOf ≠ [] ∨ n.anyOf ≠ [] ∨ n.oneOf ≠ []
  · rw [if_pos hcomb]
    refine (Rises.bind grown_trans (rises_transformSubschemas hwalk n path v) fun w =>
      rises_transformSiblings hrule hwalk n path w).weaken fun hD => ?_
    obtain hD | ⟨⟨-, hv⟩ | ⟨hcomb', -⟩, hD⟩ | hD | ⟨hcomb', -⟩ := (nodeDisturbed_iff n v).mp hD
    · exact .inl hD
    · exact .inr (.inl ⟨hv, hD⟩)
    · exact (hcomb' hcomb).elim
    · exact .inr (.inr hD)
    · exact (hcomb' hcomb).elim
  · rw [if_neg hcomb]
    exact rises_transformPlain hrule hwalk hcomb path v

theorem rises_transformTyped (n : SchemaNode) (path : String) {v : JsValue} (hv : isNullish v = false) :
    Rises Grown (Disturbed env (.node n) v) v (transformTyped env rule identity walk n path v) := by
  have hnode : Rises Grown (NodeDisturbed env n v) v (transformNode env rule identity walk n path v) :=
    rises_transformNode hrule hwalk n path v
  unfold transformTyped
  split
  · rename_i t types htype
    refine Rises.after fun _ => ?_
    cases hsub : validateSubtypes env n (t :: types) v with
    | none => exact hnode.weaken ((disturbed_of_settled hv (settled_of_none htype hsub)).mp)
    | some t' => exact (hwalk _ path v).weaken ((disturbed_of_narrowed hv htype hsub).mp)
  · rename_i hno
    exact hnode.weaken ((disturbed_of_settled hv fun t types htype => (hno t types htype).elim).mp)

omit hwalk in
theorem rises_transform (fuel : Nat) (schema : Schema) (path : String) (v : JsValue) :
    Rises Grown (Disturbed env schema v) v (transform env rule identity fuel schema path v) := by
  induction fuel generalizing schema path v with
  | zero => exact Rises.throw _
  | succ fuel ih =>
    cases schema with
    | bool b => exact Rises.pure nofun
    | node n =>
      simp only [transform]
      cases hv : isNullish v with
      | true =>
        refine Rises.pure ?_
        rintro (⟨hv', -, -, -⟩ | ⟨hv', -, -, -, -⟩ | ⟨hv', -, -, -⟩)
        all_goals exact Bool.noConfusion (hv.symm.trans hv')
      | false => exact Rises.after fun _ => rises_transformTyped hrule ih n path hv

end Rise

/-! ## A walk that is not disturbed returns the message -/

section Return

variable {rule : WalkRule}

theorem Visits.smaller {n : SchemaNode} {v w : JsValue} {i : Nat} (h : Visits env n v i w) :
    (w = v ∧ i ∈ n.subschemas) ∨ w.depth < v.depth := by
  cases h with
  | subschema h =>
    refine .inl ⟨rfl, ?_⟩
    cases h with
    | allOf hi => simp [SchemaNode.subschemas, hi]
    | oneOf _ hi => simp [SchemaNode.subschemas, List.mem_of_find?_eq_some hi]
    | anyOf _ _ hi _ => simp [SchemaNode.subschemas, hi]
  | property _ _ hfind =>
    obtain hfind | hfind := hfind
    · exact .inr (depth_of_own hfind)
    · exact .inr (depth_of_aside hfind)
  | item _ hv hw =>
    subst hv
    have := depth_le_depthElems hw
    simp only [depth]
    omega
  | ref _ _ hi => exact .inl ⟨rfl, by simp [SchemaNode.subschemas, hi]⟩

abbrev SchemaReturns (env : Setting) (rule : WalkRule) (i : Nat) (w : JsValue) : Prop :=
  ∀ path, Returns w fun fuel => transform env rule identity fuel (env.graph i) path w

theorem returns_transformLeaf (v : JsValue) : Returns v fun _ => transformLeaf rule identity v := by
  refine Returns.after (fun s => ⟨_, s, rfl⟩) (fun c => ?_) fun _ _ => Orderly.ofExcept _
  have hsame : Walk.applyRule rule identity c v = .ok v := Walk.applyRule_eq_self fun _ => rfl
  rw [hsame]
  exact Returns.pure v

theorem returns_transformArray (path : String) {v : JsValue} {i : Nat}
    (h : ∀ elems, v = .array elems → ∀ w ∈ elems, SchemaReturns env rule i w) :
    Returns v fun fuel => transformArray (transform env rule identity fuel (env.graph i) path) v := by
  cases harray : isArray v with
  | false =>
    simp only [transformArray_of_not_array harray]
    exact Returns.pure v
  | true =>
    obtain ⟨elems, rfl⟩ := eq_array_of_isArray harray
    refine Returns.bind (Returns.mapEach (fun fuel w => transform_orderly fuel _ path w) fun w hw => ?_)
      (Returns.pure _)
      fun _ _ => Orderly.pure _
    exact h elems rfl w hw path

theorem returns_transformSiblingItems (items : Option Nat) (path : String) {v : JsValue}
    (h : ∀ i elems, items = some i → v = .array elems → ∀ w ∈ elems, SchemaReturns env rule i w) :
    Returns v fun fuel => transformSiblingItems env (transform env rule identity fuel) items path v := by
  cases items with
  | none => exact Returns.pure v
  | some i => exact returns_transformArray path fun elems => h i elems rfl

theorem returns_transformField (hrule : rule.condition = false) (path : String) {v : JsValue} {p : String × Nat}
    (hplain : Note.Plain (.lookup (find env v p.1).kind))
    (h : ∀ w, find env v p.1 = .own w ∨ find env v p.1 = .aside w → SchemaReturns env rule p.2 w) :
    Returns v fun fuel =>
      transformField env rule (transform env rule identity fuel) path p.1 v (env.graph p.2) := by
  have hcond : ¬rule.condition = true := by rw [hrule]; nofun
  refine Returns.inField _ (Returns.note _ ?_ fun fuel => transformFound_orderly
    (transform_orderly fuel _ _) p.1 v _)
  cases hfind : find env v p.1 with
  | nothing => exact Returns.pure v
  | own w =>
    refine Returns.bind (h w (.inl hfind) _) ?_ fun _ _ => ?_
    · simp only [if_neg hcond, assign, setOwn_self hfind]
      exact Returns.pure v
    · rw [if_neg hcond]
      exact Orderly.ofExcept _
  | aside w =>
    refine Returns.bind (h w (.inr hfind) _) ?_ fun _ _ => ?_
    · simp only [if_neg hcond]
      exact Returns.pure v
    · rw [if_neg hcond]
      exact Orderly.ofExcept _
  | inherited =>
    rw [hfind] at hplain
    exact hplain.elim
  | primitive w =>
    rw [hfind] at hplain
    exact hplain.elim

theorem returns_transformProperties (hrule : rule.condition = false) (path : String) {v : JsValue}
    {props : List (String × Nat)} (hplain : ∀ p ∈ props, Note.Plain (.lookup (find env v p.1).kind))
    (h : ∀ p ∈ props, ∀ w, find env v p.1 = .own w ∨ find env v p.1 = .aside w → SchemaReturns env rule p.2 w) :
    Returns v fun fuel => transformProperties env rule (transform env rule identity fuel) path props v := by
  induction props with
  | nil => exact Returns.pure v
  | cons p props ih =>
    refine Returns.bind ?_ (ih (fun q hq => hplain q (List.mem_cons_of_mem p hq)) fun q hq =>
      h q (List.mem_cons_of_mem p hq)) fun fuel => transformProperties_orderly (transform_orderly fuel) path props
    exact returns_transformField hrule path (hplain p List.mem_cons_self) (h p List.mem_cons_self)

theorem returns_transformAllOf (path : String) {v : JsValue} {subschemas : List Nat}
    (h : ∀ i ∈ subschemas, SchemaReturns env rule i v) :
    Returns v fun fuel =>
      transformAllOf env (fun schema => transform env rule identity fuel schema path) subschemas v := by
  induction subschemas with
  | nil => exact Returns.pure v
  | cons i subschemas ih =>
    exact Returns.bind (h i List.mem_cons_self path) (ih fun j hj => h j (List.mem_cons_of_mem i hj)) fun fuel =>
      transformAllOf_orderly (fun schema v => transform_orderly fuel schema path v) subschemas

theorem returns_transformOneOf (path : String) {v : JsValue} {subschemas : List Nat}
    (h : ∀ i, subschemas.find? (fun i => validateSubschema env (env.graph i) v) = some i →
      SchemaReturns env rule i v) :
    Returns v fun fuel =>
      transformOneOf env (fun schema => transform env rule identity fuel schema path) subschemas v := by
  induction subschemas with
  | nil => exact Returns.pure v
  | cons i subschemas ih =>
    refine Returns.note _ ?_ fun fuel => ?_
    · by_cases hacc : validateSubschema env (env.graph i) v = true
      · simp only [if_pos hacc]
        exact h i (by simp only [List.find?_cons, hacc]) path
      · simp only [if_neg hacc]
        exact ih fun j hj => h j (by simpa only [List.find?_cons, hacc] using hj)
    · exact Orderly.ite (fun _ => transform_orderly fuel _ path v) fun _ =>
        transformOneOf_orderly (fun schema v => transform_orderly fuel schema path v) subschemas v

theorem returns_transformAnyOf (path : String) {v : JsValue} {subschemas : List Nat}
    (h : ∀ i ∈ subschemas, validateSubschema env (env.graph i) v = true → SchemaReturns env rule i v) :
    Returns v fun fuel =>
      transformAnyOf env (fun schema => transform env rule identity fuel schema path) subschemas v := by
  induction subschemas with
  | nil => exact Returns.pure v
  | cons i subschemas ih =>
    have hrest : ∀ fuel v, Orderly (transformAnyOf env
        (fun schema => transform env rule identity fuel schema path) subschemas v) := fun fuel =>
      transformAnyOf_orderly (fun schema v => transform_orderly fuel schema path v) subschemas
    refine Returns.note _ (Returns.bind ?_ (ih fun j hj => h j (List.mem_cons_of_mem i hj)) hrest) fun fuel => ?_
    · cases hacc : validateSubschema env (env.graph i) v with
      | true => exact h i List.mem_cons_self hacc path
      | false => exact Returns.pure v
    · exact Orderly.bind (transformIf_orderly (transform_orderly fuel _ path) _ v) (hrest fuel)

theorem returns_transformSubschemas (n : SchemaNode) (path : String) {v : JsValue}
    (h : ∀ i, SubVisits env n v i → SchemaReturns env rule i v) :
    Returns v fun fuel =>
      transformSubschemas env (fun schema => transform env rule identity fuel schema path) n v := by
  unfold transformSubschemas
  by_cases hall : n.allOf ≠ []
  · simp only [if_pos hall]
    exact returns_transformAllOf path fun i hi => h i (.allOf hi)
  · simp only [if_neg hall]
    by_cases hone : n.oneOf ≠ []
    · simp only [if_pos hone]
      exact returns_transformOneOf path fun i hi => h i (.oneOf (not_not.mp hall) hi)
    · simp only [if_neg hone]
      exact returns_transformAnyOf path fun i hi hacc => h i (.anyOf (not_not.mp hall) (not_not.mp hone) hi hacc)

variable {n : SchemaNode} {v : JsValue} (hrule : rule.condition = false)
  (hvisit : ∀ i w, Visits env n v i w → SchemaReturns env rule i w)
  (hplain : WalksProperties n v → ∀ p ∈ n.properties.getD [], Note.Plain (.lookup (find env v p.1).kind))

include hrule hvisit hplain

theorem returns_walkedProperties (hwalks : WalksProperties n v) (path : String) :
    Returns v fun fuel =>
      transformProperties env rule (transform env rule identity fuel) path (n.properties.getD []) v :=
  returns_transformProperties hrule path (hplain hwalks) fun _ hp w hw => hvisit _ w (.property hwalks hp hw)

theorem returns_transformNode (path : String) :
    Returns v fun fuel => transformNode env rule identity (transform env rule identity fuel) n path v := by
  unfold transformNode
  by_cases hcomb : n.allOf ≠ [] ∨ n.anyOf ≠ [] ∨ n.oneOf ≠ []
  · simp only [if_pos hcomb]
    refine Returns.bind (returns_transformSubschemas n path fun i hi => hvisit i v (.subschema hi)) ?_ fun fuel =>
      transformSiblings_orderly (transform_orderly fuel) n path
    refine Returns.bind ?_ (returns_transformSiblingItems n.items path fun i elems hi hv w hw =>
      hvisit i w (.item hi hv hw)) fun fuel => transformSiblingItems_orderly (transform_orderly fuel) n.items path
    cases hv : isObject v with
    | true => exact returns_walkedProperties hrule hvisit hplain (.inl ⟨hcomb, hv⟩) path
    | false => exact Returns.pure v
  · simp only [if_neg hcomb]
    unfold transformPlain
    split
    · rename_i i hitems _
      exact returns_transformArray path fun elems hv w hw => hvisit i w (.item hitems hv hw)
    · rename_i hno
      have hitems : n.items = none ∨ isArray v = false := by
        cases hi : n.items with
        | none => exact .inl rfl
        | some i => exact .inr (Bool.eq_false_iff.mpr (hno i hi))
      split
      · rename_i i hi
        exact hvisit i v (.ref hcomb hitems hi) path
      · rename_i href
        split
        · rename_i htype
          exact returns_walkedProperties hrule hvisit hplain (.inr ⟨hcomb, hitems, href, htype⟩) path
        all_goals first | exact returns_transformLeaf v | exact Returns.pure v

omit hrule hvisit hplain

theorem returns_transform_succ (path : String)
    (h : isNullish v = false →
      Returns v fun fuel => transformTyped env rule identity (transform env rule identity fuel) n path v) :
    Returns v fun fuel => transform env rule identity fuel (.node n) path v := by
  refine Returns.of_succ ?_
  simp only [transform]
  cases hv : isNullish v with
  | true => exact Returns.pure v
  | false =>
    exact Returns.after (fun _ => ⟨(), _, rfl⟩) (fun _ => h hv) fun fuel _ =>
      transformTyped_orderly (transform_orderly fuel) n path v

include hrule

theorem returns_settled (hset : Settled env n v) (hD : ¬Disturbed env (.node n) v)
    (h : ∀ i w, Visits env n v i w → ¬Disturbed env (env.graph i) w → SchemaReturns env rule i w) (path : String) :
    Returns v fun fuel => transform env rule identity fuel (.node n) path v := by
  refine returns_transform_succ path fun hv => ?_
  have hnode : Returns v fun fuel => transformNode env rule identity (transform env rule identity fuel)
    n path v := by
    refine returns_transformNode hrule (fun i w hvisit => ?_) (fun hwalks p hp => ?_) path
    · exact h i w hvisit fun hw => hD (.part hv hset hvisit hw)
    · exact not_not.mp fun hplain => hD (.lookup hv hset hwalks hp hplain)
  unfold transformTyped
  split
  · rename_i t types htype
    refine Returns.note _ ?_ fun fuel => transformNarrowed_orderly (transform_orderly fuel) n path v _
    rw [hset t types htype]
    exact hnode
  · exact hnode

theorem returns_node (hD : ¬Disturbed env (.node n) v)
    (h : ∀ i w, (w = v ∧ i ∈ n.subschemas) ∨ w.depth < v.depth → ¬Disturbed env (env.graph i) w →
      SchemaReturns env rule i w) (path : String) :
    Returns v fun fuel => transform env rule identity fuel (.node n) path v := by
  by_cases hset : Settled env n v
  · exact returns_settled hrule hset hD (fun i w hvisit => h i w hvisit.smaller) path
  · simp only [Settled, not_forall] at hset
    obtain ⟨t, types, htype, hsub⟩ := hset
    obtain ⟨t', ht'⟩ := Option.ne_none_iff_exists'.mp hsub
    refine returns_transform_succ path fun hv => ?_
    simp only [transformTyped, htype]
    refine Returns.note _ ?_ fun fuel => transformNarrowed_orderly (transform_orderly fuel) n path v _
    rw [ht']
    exact returns_settled hrule (fun _ _ h => by cases h) (fun hD' => hD (.narrowed hv htype ht' hD'))
      (fun i w hvisit => h i w hvisit.smaller) path

/-- By induction on the depth of the message, and then on how the schema is grounded. -/
theorem returns_transform (hgraph : Grounded env.graph) {schema : Schema} {v : JsValue}
    (hD : ¬Disturbed env schema v) (path : String) :
    Returns v fun fuel => transform env rule identity fuel schema path v := by
  induction hd : v.depth using Nat.strong_induction_on generalizing schema v path with
  | _ d ih =>
    have hschema : ∀ schema w, w.depth = d → ¬Disturbed env schema w →
        (∀ n i, schema = .node n → i ∈ n.subschemas → ¬Disturbed env (env.graph i) w → SchemaReturns env rule i w) →
        ∀ path, Returns w fun fuel => transform env rule identity fuel schema path w := by
      intro schema w hw hDw hsub path
      cases schema with
      | bool b => exact Returns.of_succ (Returns.pure w)
      | node n =>
        refine returns_node hrule hDw ?_ path
        rintro i u (⟨rfl, hi⟩ | hu) hDu
        · exact hsub n i rfl hi hDu
        · exact fun path => ih u.depth (hw ▸ hu) hDu path rfl
    have hids : ∀ i w, w.depth = d → ¬Disturbed env (env.graph i) w → SchemaReturns env rule i w := by
      intro i
      induction i using hgraph.induction with
      | _ i ihi =>
        intro w hw hDw
        exact hschema _ w hw hDw fun n j hn hj => ihi j ⟨n, hn, hj⟩ w hw
    exact hschema schema v hd hD (fun n i _ _ => hids i v hd) path

end Return

/-- The walk with the identity returns the message, and leaves every field, if and only if it is not disturbed. -/
theorem transform_identity_iff {rule : WalkRule} (hrule : rule.condition = false) (hgraph : Grounded env.graph)
    (schema : Schema) (path : String) (v : JsValue) :
    (∃ n, ∀ fuel ≥ n, ∃ notes, transform env rule identity fuel schema path v ⟨[], []⟩ = .ok v ⟨[], notes⟩) ↔
      ¬Disturbed env schema v := by
  constructor
  · rintro ⟨n, hrun⟩ hD
    obtain ⟨notes, hrun⟩ := hrun n (le_refl n)
    obtain ⟨-, hnot⟩ | hgrown := rises_transform hrule n schema path v _ v _ hrun
    · exact hnot hD
    · exact lt_irrefl _ hgrown.2
  · intro hD
    exact (returns_transform hrule hgraph hD path).outside fun fuel => transform_orderly fuel schema path v

end Json

end ConfluentKafka
