import ConfluentKafka.JsonDescents

/-!
# Walks of JSON schemas that mirror each other

The validation of `json.ts` says that it mirrors the shape of the transform. The walks differ where none of
several types accepts the value, which only the transform goes on with, and in the properties that are not
beside subschemas: the transform looks at the type of the schema for them, and the validation at the value.
-/

namespace ConfluentKafka

namespace Json

open JsValue
open FailFast (forEach orStop unlessLeft)

/-! ## Where the validation stops -/

section

variable {α : Type}

open Classical in
noncomputable def haltIf (p : Prop) : Validation SchemaNode JsValue Unit := if p then throw .outOfFuel else pure ()

open Classical in
noncomputable def leaveIf (p : Prop) :
    Validation SchemaNode JsValue Bool := if p then throw .outOfFuel else pure false

section

variable {p : Prop}

theorem haltIf_of (h : p) : haltIf p = throw .outOfFuel := if_pos h

theorem haltIf_of_not (h : ¬p) : haltIf p = pure () := if_neg h

theorem leaveIf_of (h : p) : leaveIf p = throw .outOfFuel := if_pos h

theorem leaveIf_of_not (h : ¬p) : leaveIf p = pure false := if_neg h

end

theorem haltIf_eq_error_iff (p : Prop) : (∃ s, haltIf p s = .error .outOfFuel) ↔ p := by
  by_cases hp : p
  · rw [haltIf_of hp]
    exact iff_of_true ⟨⟨[], []⟩, rfl⟩ hp
  · rw [haltIf_of_not hp]
    refine iff_of_false ?_ hp
    rintro ⟨s, h⟩
    cases h

theorem unlessLeft_haltIf (p r : Prop) : unlessLeft (leaveIf p) (haltIf r) = haltIf (p ∨ r) := by
  by_cases hp : p
  · rw [leaveIf_of hp, haltIf_of (Or.inl hp : p ∨ r)]
    rfl
  · rw [leaveIf_of_not hp, propext (or_iff_right hp)]
    rfl

theorem orStop_haltIf (p : Prop) : orStop false (haltIf p) = leaveIf p := by
  by_cases hp : p
  · rw [haltIf_of hp, leaveIf_of hp]
    rfl
  · rw [haltIf_of_not hp, leaveIf_of_not hp]
    rfl

theorem forEach_haltIf (p : α → Prop) (as : List α) : forEach false (fun a => haltIf (p a)) as = leaveIf
    (∃ a ∈ as, p a) := by
  induction as with
  | nil => exact (leaveIf_of_not (by simp)).symm
  | cons a as ih =>
    rw [List.exists_mem_cons_iff, forEach, ih]
    by_cases ha : p a
    · rw [haltIf_of ha, leaveIf_of (Or.inl ha : p a ∨ ∃ a ∈ as, p a)]
      rfl
    · rw [haltIf_of_not ha, propext (or_iff_right ha)]
      rfl

theorem pure_eq_haltIf : (pure () : Validation SchemaNode JsValue Unit) = haltIf False :=
  (haltIf_of_not not_false).symm

theorem stop_eq_leaveIf : (FailFast.stop false : Validation SchemaNode JsValue Bool) = leaveIf False :=
  (leaveIf_of_not not_false).symm

end

section

variable {env : Setting} {q : Schema × JsValue}

theorem validateUpTo_eq (schema : Schema) (path : String) (v : JsValue) : validateUpTo q schema path v = haltIf
    ((schema, v) = q) := by
  unfold validateUpTo
  by_cases hq : (schema, v) = q
  · rw [if_pos hq, haltIf_of hq]
  · rw [if_neg hq, haltIf_of_not hq]

theorem validateObject_upTo (hq : isNullish q.2 = false) (n : SchemaNode) (path : String) (v : JsValue) :
    validateObject env false (validateUpTo q) n path v =
      haltIf (isObject v = true ∧ ∃ p ∈ n.properties.getD [], ∃ w, (find env v p.1).value = some w ∧
        (env.graph p.2, w) = q) := by
  unfold validateObject
  cases isObject v with
  | false =>
    rw [if_neg Bool.false_ne_true, pure_eq_haltIf]
    exact congrArg haltIf (propext (iff_of_false id fun h => Bool.false_ne_true h.1))
  | true =>
    rw [if_pos rfl, pure_eq_haltIf]
    simp only [validateUpTo_eq]
    rw [forEach_haltIf, unlessLeft_haltIf, or_false]
    refine congrArg haltIf
      (propext ((iff_of_eq (true_and _)).trans (exists_congr fun p => and_congr_right fun _ => ?_)).symm)
    cases (find env v p.1).value with
    | none =>
      -- the value that is absent is not gone on with
      refine iff_of_false ?_ fun h => ?_
      · rintro ⟨w, hw, -⟩
        cases hw
      rw [← h] at hq
      cases hq
    | some w =>
      constructor
      · rintro ⟨u, hu, h⟩
        cases hu
        exact h
      · exact fun h => ⟨w, rfl, h⟩

theorem validateItems_upTo (items : Schema) (path : String) (elems : List JsValue) :
    validateItems false (validateUpTo q) items path elems = leaveIf (∃ w ∈ elems, (items, w) = q) := by
  unfold validateItems
  simp only [validateUpTo_eq]
  rw [forEach_haltIf]
  refine congrArg leaveIf (propext ⟨?_, ?_⟩)
  · rintro ⟨a, ha, hq⟩
    obtain ⟨i, hi, rfl⟩ := List.mem_mapIdx.mp ha
    exact ⟨elems[i], List.getElem_mem hi, hq⟩
  · rintro ⟨w, hw, hq⟩
    obtain ⟨i, hi, rfl⟩ := List.mem_iff_getElem.mp hw
    exact ⟨(i, elems[i]), List.mem_mapIdx.mpr ⟨i, hi, rfl⟩, hq⟩

theorem validateOneOf_upTo (subschemas : List Nat) (path : String) (v : JsValue) :
    validateOneOf env (validateUpTo q) subschemas path v =
      haltIf (∃ i, subschemas.find? (fun i => validateSubschema env (env.graph i) v) = some i ∧
        (env.graph i, v) = q) := by
  unfold validateOneOf
  cases subschemas.find? fun i => validateSubschema env (env.graph i) v with
  | none =>
    refine pure_eq_haltIf.trans (congrArg haltIf (propext (iff_of_false id ?_)))
    rintro ⟨i, hi, -⟩
    cases hi
  | some i =>
    refine (validateUpTo_eq (env.graph i) path v).trans (congrArg haltIf (propext ⟨fun hq => ⟨i, rfl, hq⟩, ?_⟩))
    rintro ⟨j, hj, hq⟩
    cases hj
    exact hq

theorem validateSubschemas_upTo (n : SchemaNode) (path : String) (v : JsValue) :
    validateSubschemas env false (validateUpTo q) n path v = leaveIf (∃ i, SubVisits env n v i ∧
      (env.graph i, v) = q) := by
  unfold validateSubschemas
  by_cases hall : n.allOf ≠ []
  · rw [if_pos hall]
    unfold validateAllOf
    simp only [validateUpTo_eq]
    rw [forEach_haltIf]
    refine congrArg leaveIf (propext ⟨?_, ?_⟩)
    · rintro ⟨i, hi, hq⟩
      exact ⟨i, .allOf hi, hq⟩
    rintro ⟨i, hi | ⟨hnil, -⟩ | ⟨hnil, -, -, -⟩, hq⟩
    · exact ⟨i, hi, hq⟩
    · exact (hall hnil).elim
    · exact (hall hnil).elim
  · rw [if_neg hall]
    have hall' : n.allOf = [] := not_not.mp hall
    by_cases hone : n.oneOf ≠ []
    · rw [if_pos hone, validateOneOf_upTo]
      refine (orStop_haltIf _).trans (congrArg leaveIf (propext ⟨?_, ?_⟩))
      · rintro ⟨i, hi, hq⟩
        exact ⟨i, .oneOf hall' hi, hq⟩
      rintro ⟨i, hi | ⟨-, hi⟩ | ⟨-, hnil, -, -⟩, hq⟩
      · rw [hall'] at hi
        cases hi
      · exact ⟨i, hi, hq⟩
      · exact (hone hnil).elim
    · rw [if_neg hone]
      have hone' : n.oneOf = [] := not_not.mp hone
      unfold validateAnyOf
      simp only [validateUpTo_eq]
      rw [forEach_haltIf]
      refine congrArg leaveIf (propext ⟨?_, ?_⟩)
      · rintro ⟨i, hi, hq⟩
        obtain ⟨hmem, hacc⟩ := List.mem_filter.mp hi
        exact ⟨i, .anyOf hall' hone' hmem hacc, hq⟩
      · rintro ⟨i, hi | ⟨-, hi⟩ | ⟨-, -, hi, hacc⟩, hq⟩
        · rw [hall'] at hi
          cases hi
        · rw [hone'] at hi
          cases hi
        · exact ⟨i, List.mem_filter.mpr ⟨hi, hacc⟩, hq⟩

theorem validateSiblingItems_upTo (n : SchemaNode) (path : String) (v : JsValue) :
    validateSiblingItems env false (validateUpTo q) n path v =
      haltIf (∃ i, n.items = some i ∧ ∃ elems, v = .array elems ∧ ∃ w ∈ elems, (env.graph i, w) = q) := by
  unfold validateSiblingItems
  split
  · rename_i i elems hitems
    rw [validateItems_upTo, pure_eq_haltIf, unlessLeft_haltIf, or_false]
    refine congrArg haltIf (propext ⟨fun h => ⟨i, hitems, elems, rfl, h⟩, ?_⟩)
    rintro ⟨j, hj, elems', heq, h⟩
    cases hitems.symm.trans hj
    cases heq
    exact h
  · rename_i hno
    refine pure_eq_haltIf.trans (congrArg haltIf (propext (iff_of_false id ?_)))
    rintro ⟨i, hi, elems, hv, -⟩
    exact hno i elems hi hv

theorem validateUntyped_upTo (hq : isNullish q.2 = false) (n : SchemaNode) (path : String) (v : JsValue) :
    validateUntyped env false (validateUpTo q) n path v =
      haltIf (GoesOn env n v q (isObject v = true ∧
        ∃ p ∈ n.properties.getD [], ∃ w, (find env v p.1).value = some w ∧ (env.graph p.2, w) = q)) := by
  unfold validateUntyped
  by_cases hcomb : n.allOf ≠ [] ∨ n.anyOf ≠ [] ∨ n.oneOf ≠ []
  · rw [if_pos hcomb, validateCombined, validateSubschemas_upTo, validateObject_upTo hq, validateSiblingItems_upTo,
      orStop_haltIf,
      unlessLeft_haltIf, stop_eq_leaveIf, unlessLeft_haltIf, unlessLeft_haltIf, false_or]
    exact congrArg haltIf (propext (goesOn_combined hcomb).symm)
  · rw [if_neg hcomb]
    unfold validatePlain
    split
    · rename_i i elems hitems
      rw [validateItems_upTo, pure_eq_haltIf, unlessLeft_haltIf, or_false]
      exact congrArg haltIf (propext (goesOn_items hcomb hitems elems).symm)
    · rename_i v _ _ hno
      have hitems : n.items = none ∨ isArray v = false := by
        cases hi : n.items with
        | none => exact .inl rfl
        | some i =>
          refine .inr (Bool.eq_false_iff.mpr fun harray => ?_)
          obtain ⟨elems, hv⟩ := eq_array_of_isArray harray
          exact hno i elems hi hv
      cases href : n.ref with
      | some i =>
        exact (validateUpTo_eq (env.graph i) path v).trans
          (congrArg haltIf (propext (goesOn_ref hcomb hitems href).symm))
      | none =>
        exact (validateObject_upTo hq n path v).trans
          (congrArg haltIf (propext (goesOn_properties ⟨hcomb, hitems, href⟩).symm))

end

/-! ## Where both walks go on alike -/

section

variable (env : Setting)

/-- Where no type accepts the value, the transform has nothing to go on with. -/
structure NothingBelow (n : SchemaNode) (v : JsValue) : Prop where
  subschemas : ∀ i, ¬SubVisits env n v i
  properties : n.Combined → isObject v = true → FindsNone env n v
  items : ∀ i elems, n.items = some i → v = .array elems → ∀ w ∈ elems, isNullish w = true
  ref : ¬n.Combined → n.items = none ∨ isArray v = false → n.ref = none

def Mirrored (p : Schema × JsValue) : Prop :=
  ∀ n, p.1 = .node n → isNullish p.2 = false →
    (narrowed env n p.2 = none → NothingBelow env n p.2) ∧
      ∀ m, narrowed env n p.2 = some m → m.AtProperties p.2 → (m.getType = .RECORD ↔ isObject p.2 = true) ∨
        FindsNone env m p.2

variable {env} {rule : WalkRule}

theorem validateSchemaBody_upTo {q : Schema × JsValue} (hq : isNullish q.2 = false) (n : SchemaNode) (path : String)
    (v : JsValue) :
    validateSchemaBody env false (validateUpTo q) n path v = haltIf (∃ m, narrowed env n v = some m ∧
      GoesOn env m v q (isObject v = true ∧ ∃ p ∈ m.properties.getD [], ∃ w, (find env v p.1).value = some w ∧
        (env.graph p.2, w) = q)) := by
  unfold validateSchemaBody
  split
  · rename_i t types htype
    rw [narrowed_of_types v htype]
    cases validateSubtypes env n (t :: types) v with
    | none =>
      refine pure_eq_haltIf.trans (congrArg haltIf (propext (iff_of_false id ?_)))
      rintro ⟨m, hm, -⟩
      cases hm
    | some t =>
      refine (validateUntyped_upTo hq _ path v).trans (congrArg haltIf (propext ⟨fun h => ⟨_, rfl, h⟩, ?_⟩))
      rintro ⟨m, hm, h⟩
      cases hm
      exact h
  · rename_i htype
    rw [narrowed_of_untyped v htype]
    refine (validateUntyped_upTo hq n path v).trans (congrArg haltIf (propext ⟨fun h => ⟨n, rfl, h⟩, ?_⟩))
    rintro ⟨m, hm, h⟩
    cases hm
    exact h

theorem validateDescends_iff {n : SchemaNode} {v : JsValue} {q : Schema × JsValue} (hv : isNullish v = false)
    (hq : isNullish q.2 = false) :
    ValidateDescends env (.node n, v) q ↔ ∃ m, narrowed env n v = some m ∧ GoesOn env m v q (isObject v = true ∧
      ∃ p ∈ m.properties.getD [], ∃ w, (find env v p.1).value = some w ∧ (env.graph p.2, w) = q) := by
  constructor
  · rintro ⟨n', hn', -, -, path, s, hstop⟩
    cases hn'
    rw [validateSchemaBody_upTo hq] at hstop
    exact (haltIf_eq_error_iff _).mp ⟨s, hstop⟩
  · intro h
    obtain ⟨s, hstop⟩ := (haltIf_eq_error_iff _).mpr h
    exact ⟨n, rfl, hv, hq, "$", s, by rw [validateSchemaBody_upTo hq, hstop]⟩

theorem transformDescends_iff (hrule : rule.condition = false) (hinherits : InheritsAlike env)
    {n : SchemaNode} {v : JsValue}
    {q : Schema × JsValue} (hv : isNullish v = false) (hq : isNullish q.2 = false) :
    TransformDescends env rule (.node n, v) q ↔ GoesOn env ((narrowed env n v).getD n) v q
      (((narrowed env n v).getD n).getType = .RECORD ∧
      ∃ i w, Reads env v (((narrowed env n v).getD n).properties.getD []) i w ∧ (env.graph i, w) = q) := by
  have hstops := transformNode_stops (q := q) hrule hinherits ((narrowed env n v).getD n)
  constructor
  · rintro ⟨n', hn', -, -, path, s, s', hstop⟩
    cases hn'
    exact (hstops path v s).mp ⟨s', hstop⟩
  · intro h
    obtain ⟨s', hstop⟩ := (hstops "$" v ⟨[], []⟩).mpr h
    exact ⟨n, rfl, hv, hq, "$", ⟨[], []⟩, s', hstop⟩

theorem exists_reads {props : List (String × Nat)} {v : JsValue} (h : ¬∀ p ∈ props, (find env v p.1).value = none) :
    ∃ i w, Reads env v props i w := by
  induction props with
  | nil => exact (h (by simp)).elim
  | cons p props ih =>
    cases hvalue : (find env v p.1).value with
    | some w => exact ⟨p.2, w, .here hvalue⟩
    | none =>
      have hwritable : ∀ u, find env v p.1 ≠ .primitive u := by
        intro u hu
        rw [hu] at hvalue
        cases hvalue
      obtain ⟨i, w, hreads⟩ := ih fun hall => h (List.forall_mem_cons.mpr ⟨hvalue, hall⟩)
      exact ⟨i, w, .there hwritable hreads⟩

theorem Reads.found {props : List (String × Nat)} {v w : JsValue} {i : Nat} (h : Reads env v props i w) :
    ∃ p ∈ props, p.2 = i ∧ (find env v p.1).value = some w := by
  induction h with
  | here h => exact ⟨_, List.mem_cons_self, rfl, h⟩
  | there _ _ ih =>
    obtain ⟨p, hp, hi, hfind⟩ := ih
    exact ⟨p, List.mem_cons_of_mem _ hp, hi, hfind⟩

theorem nothingBelow_iff {n : SchemaNode} {v : JsValue} (hv : isNullish v = false) :
    NothingBelow env n v ↔ ∀ i w, Shared env n v i w → isNullish w = true := by
  constructor
  · intro h i w hshared
    cases hshared with
    | subschema hi => exact (h.subschemas i hi).elim
    | sibling hcomb hobj hmem hfind =>
      rw [h.properties hcomb hobj _ hmem] at hfind
      cases hfind
    | item hi hv hw => exact h.items i _ hi hv w hw
    | ref hcomb hitems hi =>
      rw [h.ref hcomb hitems] at hi
      cases hi
  · intro h
    refine ⟨fun i hi => ?_, fun hcomb hobj p hp => ?_, fun i elems hi hv w hw => h i w (.item hi hv hw),
      fun hcomb hitems => ?_⟩
    · exact Bool.noConfusion (hv.symm.trans (h i v (.subschema hi)))
    · cases hfind : (find env v p.1).value with
      | none => rfl
      | some w =>
        exact Bool.noConfusion ((not_isNullish_of_find hfind).symm.trans (h p.2 w (.sibling hcomb hobj hp hfind)))
    · cases hi : n.ref with
      | none => rfl
      | some i => exact Bool.noConfusion (hv.symm.trans (h i v (.ref hcomb hitems hi)))

theorem getType_of_narrowed {n : SchemaNode} {v : JsValue} (h : narrowed env n v = none) : n.getType ≠ .RECORD := by
  unfold narrowed at h
  split at h
  · rename_i t types htype
    unfold SchemaNode.getType
    rw [htype]
    split_ifs <;> nofun
  · cases h

/-- A schema that no type of accepts the value. -/
theorem descends_iff_of_none (hrule : rule.condition = false) (hinherits : InheritsAlike env)
    {n : SchemaNode} {v : JsValue}
    (hv : isNullish v = false) (hnone : narrowed env n v = none) :
    (∀ q, TransformDescends env rule (.node n, v) q ↔ ValidateDescends env (.node n, v) q) ↔
      NothingBelow env n v := by
  have hvalidate (q : Schema × JsValue) : ¬ValidateDescends env (.node n, v) q := by
    intro h
    have hq : isNullish q.2 = false := by
      obtain ⟨-, -, -, hq, -⟩ := h
      exact hq
    obtain ⟨m, hm, -⟩ := (validateDescends_iff hv hq).mp h
    rw [hnone] at hm
    cases hm
  rw [nothingBelow_iff hv]
  constructor
  · intro h i w hshared
    by_contra hw
    have hw : isNullish w = false := Bool.eq_false_iff.mpr hw
    refine hvalidate (env.graph i, w) ((h _).mp ((transformDescends_iff hrule hinherits hv hw).mpr ?_))
    rw [hnone]
    exact .inl ⟨i, w, hshared, rfl⟩
  · intro h q
    refine iff_of_false (fun hdescends => ?_) (hvalidate q)
    have hq : isNullish q.2 = false := by
      obtain ⟨-, -, -, hq, -⟩ := hdescends
      exact hq
    rw [transformDescends_iff hrule hinherits hv hq, hnone] at hdescends
    obtain ⟨i, w, hshared, rfl⟩ | ⟨-, htype, -⟩ := hdescends
    · exact Bool.noConfusion (hq.symm.trans (h i w hshared))
    · exact getType_of_narrowed hnone htype

theorem descends_iff_of_some (hrule : rule.condition = false) (hinherits : InheritsAlike env)
    {n m : SchemaNode} {v : JsValue}
    (hv : isNullish v = false) (hsome : narrowed env n v = some m) :
    (∀ q, TransformDescends env rule (.node n, v) q ↔ ValidateDescends env (.node n, v) q) ↔
      (m.AtProperties v → (m.getType = .RECORD ↔ isObject v = true) ∨ FindsNone env m v) := by
  have htransform {q : Schema × JsValue} (hq : isNullish q.2 = false) : TransformDescends env rule (.node n, v) q ↔
      GoesOn env m v q (m.getType = .RECORD ∧ ∃ i w, Reads env v (m.properties.getD []) i w ∧
        (env.graph i, w) = q) := by
    rw [transformDescends_iff hrule hinherits hv hq, hsome, Option.getD_some]
  have hvalidate {q : Schema × JsValue} (hq : isNullish q.2 = false) : ValidateDescends env (.node n, v) q ↔
      GoesOn env m v q (isObject v = true ∧
        ∃ p ∈ m.properties.getD [], ∃ w, (find env v p.1).value = some w ∧ (env.graph p.2, w) = q) := by
    rw [validateDescends_iff hv hq, hsome]
    constructor
    · rintro ⟨m', hm', h⟩
      cases hm'
      exact h
    · exact fun h => ⟨m, rfl, h⟩
  constructor
  · intro h hat
    by_contra hnot
    obtain ⟨hdiffer, hfinds⟩ := not_or.mp hnot
    obtain ⟨i, w, hreads⟩ := exists_reads hfinds
    obtain ⟨p, hp, hi, hfind⟩ := hreads.found
    have hw : isNullish w = false := not_isNullish_of_find hfind
    have hboth := (htransform hw).symm.trans ((h (env.graph i, w)).trans (hvalidate hw))
    rw [goesOn_properties hat, goesOn_properties hat] at hboth
    refine hdiffer ⟨fun htype => (hboth.mp ⟨htype, i, w, hreads, rfl⟩).1, fun hobj =>
      (hboth.mpr ⟨hobj, p, hp, w, hfind, ?_⟩).1⟩
    rw [hi]
  · intro h q
    by_cases hq : isNullish q.2 = false
    · rw [htransform hq, hvalidate hq, GoesOn, GoesOn]
      refine or_congr_right (and_congr_right fun hat => ?_)
      obtain hsame | hfinds := h hat
      · rw [hsame]
        refine and_congr_right fun hobj => ?_
        simp only [reads_of_writable (find_ne_primitive (.inl hobj))]
        constructor
        · rintro ⟨i, w, ⟨p, hp, rfl, hfind⟩, hpair⟩
          exact ⟨p, hp, w, hfind, hpair⟩
        · rintro ⟨p, hp, w, hfind, hpair⟩
          exact ⟨p.2, w, ⟨p, hp, rfl, hfind⟩, hpair⟩
      · refine iff_of_false ?_ ?_
        · rintro ⟨-, i, w, hreads, -⟩
          obtain ⟨p, hp, -, hfind⟩ := hreads.found
          rw [hfinds p hp] at hfind
          cases hfind
        · rintro ⟨-, p, hp, w, hfind, -⟩
          rw [hfinds p hp] at hfind
          cases hfind
    · refine iff_of_false ?_ ?_
      · rintro ⟨-, -, -, hq', -⟩
        exact hq hq'
      · rintro ⟨-, -, -, hq', -⟩
        exact hq hq'

/-- The walks go on with the same from a schema and a value, if and only if they do not differ there. -/
theorem descends_iff (hrule : rule.condition = false) (hinherits : InheritsAlike env) (p : Schema × JsValue) :
    (∀ q, TransformDescends env rule p q ↔ ValidateDescends env p q) ↔ Mirrored env p := by
  obtain ⟨schema, v⟩ := p
  have hnowhere (h : ∀ n, schema = .node n → isNullish v = true) :
      (∀ q, TransformDescends env rule (schema, v) q ↔ ValidateDescends env (schema, v) q) ↔ Mirrored env
      (schema, v) := by
    refine iff_of_true (fun q => iff_of_false ?_ ?_) fun n hn hv => Bool.noConfusion (hv.symm.trans (h n hn))
    · rintro ⟨n, hn, hv, -⟩
      exact Bool.noConfusion (hv.symm.trans (h n hn))
    · rintro ⟨n, hn, hv, -⟩
      exact Bool.noConfusion (hv.symm.trans (h n hn))
  cases schema with
  | bool b => exact hnowhere nofun
  | node n =>
    cases hv : isNullish v with
    | true => exact hnowhere fun _ _ => hv
    | false =>
      have hmirrored : Mirrored env (.node n, v) ↔ (narrowed env n v = none → NothingBelow env n v) ∧
          ∀ m, narrowed env n v = some m → m.AtProperties v → (m.getType = .RECORD ↔ isObject v = true) ∨
            FindsNone env m v := by
        constructor
        · exact fun h => h n rfl hv
        · intro h n' hn' _
          cases hn'
          exact h
      rw [hmirrored]
      cases hnarrowed : narrowed env n v with
      | none =>
        rw [descends_iff_of_none hrule hinherits hv hnarrowed]
        exact ⟨fun h => ⟨fun _ => h, nofun⟩, fun h => h.1 rfl⟩
      | some m =>
        rw [descends_iff_of_some hrule hinherits hv hnarrowed]
        refine ⟨fun h => ⟨nofun, fun m' hm' => ?_⟩, fun h => h.2 m rfl⟩
        cases hm'
        exact h

end

/-! ## What both walks reach -/

/-- Relations that do not differ where the first one leads reach the same. -/
theorem reflTransGen_iff {α : Type} {r r' : α → α → Prop} {a : α}
    (h : ∀ b, Relation.ReflTransGen r a b → ∀ c, r b c ↔ r' b c) (b : α) :
    Relation.ReflTransGen r a b ↔ Relation.ReflTransGen r' a b := by
  constructor
  · intro hb
    induction hb with
    | refl => exact .refl
    | tail hreach hstep ih => exact ih.tail ((h _ hreach _).mp hstep)
  · intro hb
    induction hb with
    | refl => exact .refl
    | tail _ hstep ih => exact ih.tail ((h _ ih _).mpr hstep)

/-- The walks go on with the same from a schema and a value, if and only if they do not differ there, and
reach the same if they differ nowhere that the transform reaches. -/
theorem walks_mirrored {env : Setting} {rule : WalkRule} (hrule : rule.condition = false)
    (hinherits : InheritsAlike env) :
    (∀ p, (∀ q, TransformDescends env rule p q ↔ ValidateDescends env p q) ↔ Mirrored env p) ∧
      ∀ p, (∀ q, Relation.ReflTransGen (TransformDescends env rule) p q → Mirrored env q) →
        ∀ q, Relation.ReflTransGen (TransformDescends env rule) p q ↔ Relation.ReflTransGen
          (ValidateDescends env) p q := by
  refine ⟨descends_iff hrule hinherits, fun p h => ?_⟩
  exact reflTransGen_iff fun q hq => (descends_iff hrule hinherits q).mpr (h q hq)

namespace Sample

theorem inheritsAlike : InheritsAlike setting := fun _ _ _ => rfl

def named : Schema := .node { empty with type := some (.inl .object), properties := some [("name", 3)] }

theorem isNullish_of_descends {p q : Schema × JsValue} (h : TransformDescends setting rule p q) :
    isNullish q.2 = false := by
  obtain ⟨-, -, -, hq, -⟩ := h
  exact hq

theorem named_descends {q : Schema × JsValue} (h : TransformDescends setting rule (named, person "x") q) :
    q = (graph 3, .string ['x']) := by
  obtain ⟨i, w, hshared, -⟩ | ⟨-, -, i, w, hreads, rfl⟩ :=
    (transformDescends_iff rfl inheritsAlike rfl (isNullish_of_descends h)).mp h
  · refine (not_shared_of_atProperties ⟨?_, .inl rfl, rfl⟩ hshared).elim
    simp [SchemaNode.Combined, narrowed, empty]
  · obtain ⟨p, hp, rfl, hfind⟩ := hreads.found
    cases List.mem_singleton.mp hp
    cases hfind
    rfl

theorem text_descends (q : Schema × JsValue) : ¬TransformDescends setting rule (graph 3, .string ['x']) q := by
  intro h
  obtain ⟨i, w, hshared, -⟩ | ⟨-, htype, -⟩ :=
    (transformDescends_iff rfl inheritsAlike rfl (isNullish_of_descends h)).mp h
  · refine not_shared_of_atProperties ⟨?_, .inl rfl, rfl⟩ hshared
    simp [SchemaNode.Combined, narrowed, empty]
  · cases htype

/-- The walks reach the record and the text in it. -/
theorem walks_mirrored_named :
    {q | Relation.ReflTransGen (TransformDescends setting rule) (named, person "x") q} =
      {q | Relation.ReflTransGen (ValidateDescends setting) (named, person "x") q} := by
  refine Set.ext ((walks_mirrored rfl inheritsAlike).2 _ fun q hq => ?_)
  have hreach : q = (named, person "x") ∨ q = (graph 3, .string ['x']) := by
    induction hq with
    | refl => exact .inl rfl
    | tail _ hstep ih =>
      obtain rfl | rfl := ih
      · exact .inr (named_descends hstep)
      · exact (text_descends _ hstep).elim
  obtain rfl | rfl := hreach
  · intro n hn _
    cases hn
    refine ⟨nofun, fun m hm _ => .inl ?_⟩
    cases hm
    exact iff_of_true rfl rfl
  · intro n hn _
    cases hn
    refine ⟨nofun, fun m hm _ => .inr ?_⟩
    cases hm
    exact nofun

def coded : Schema := .node { empty with values := true, properties := some [("code", 3)] }

def codedValue : JsValue := .object [("code", .string ['x'])]

/-- The properties of an enumeration are validated and not transformed. -/
theorem walks_not_mirrored :
    ¬∀ q, Relation.ReflTransGen (TransformDescends setting rule) (coded, codedValue) q ↔
      Relation.ReflTransGen (ValidateDescends setting) (coded, codedValue) q := by
  intro h
  have hvalidate : ValidateDescends setting (coded, codedValue) (graph 3, .string ['x']) := by
    refine (validateDescends_iff rfl rfl).mpr ⟨_, rfl, ?_⟩
    refine .inr ⟨⟨?_, .inl rfl, rfl⟩, rfl, ("code", 3), List.mem_cons_self, _, rfl, rfl⟩
    simp [SchemaNode.Combined, empty]
  have htransform (q : Schema × JsValue) : ¬TransformDescends setting rule (coded, codedValue) q := by
    intro hq
    obtain ⟨i, w, hshared, -⟩ | ⟨-, htype, -⟩ :=
      (transformDescends_iff rfl inheritsAlike rfl (isNullish_of_descends hq)).mp hq
    · refine not_shared_of_atProperties ⟨?_, .inl rfl, rfl⟩ hshared
      simp [SchemaNode.Combined, narrowed, empty]
    · cases htype
  obtain heq | ⟨q, hq, -⟩ := Relation.ReflTransGen.cases_head ((h (graph 3, .string ['x'])).mpr (.single hvalidate))
  · cases congrArg Prod.snd heq
  · exact htransform q hq

end Sample

end Json

end ConfluentKafka
