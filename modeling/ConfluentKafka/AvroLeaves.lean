import ConfluentKafka.AvroTransform

/-!
# The values of an Avro message

`Leaves` says that a message is valid for a type, and lists the values in it that are no containers and
no variants, each with the innermost field that leads to it. The walk with the identity returns a valid
message, and every walk calls the field transform on the values of the list whose fields the rule is
for, in this order.
-/

namespace ConfluentKafka

namespace Avro

open ConfluentKafka.Walk (Orderly Returns Settles)

structure Occurrence where
  recordName : String
  field : Field
  leaf : Leaf
  value : Datum

mutual

/-- A message of a type, within a field or outside every field, and its values. A value of a union that is not
wrapped is of the first type that accepts it. -/
inductive Leaves (env : Setting) : Option (String × Field) → AvType → Datum → List Occurrence → Prop where
  | leaf {f : Option (String × Field)} {l : Leaf} {v : Datum} (hv : env.isValid (.leaf l) v = true) :
      Leaves env f (.leaf l) v (f.toList.map fun f => ⟨f.1, f.2, l, v⟩)
  | variant {f : Option (String × Field)} {name : String} {id : Nat} : Leaves env f (.variant name) (.variant id) []
  | array {f : Option (String × Field)} {items : AvType} {elems : List Datum} {os : List Occurrence}
      (h : LeavesElems env f items elems os) : Leaves env f (.array items) (.array elems) os
  | map {f : Option (String × Field)} {values : AvType} {props : List (String × Datum)} {os : List Occurrence}
      (h : LeavesEntries env f values props os) : Leaves env f (.map values) (.object props) os
  | unwrapped {f : Option (String × Field)} {types : List AvType} {t : AvType} {v : Datum} {os : List Occurrence}
      (ht : types.find? (fun t => env.isValid t v) = some t) (h : Leaves env f t v os) :
      Leaves env f (.union false types) v os
  | null {f : Option (String × Field)} {types : List AvType} {t : AvType} {os : List Occurrence}
      (ht : types.find? isNullType = some t) (h : Leaves env f t .null os) : Leaves env f
      (.union true types) .null os
  | wrapped {f : Option (String × Field)} {types : List AvType} {t : AvType} {name : String} {v : Datum}
      {os : List Occurrence} (ht : types.find? (fun t => branchName t = some name) = some t)
      (hnull : isNull v = false)
      (hv : env.isValid t v = true) (h : Leaves env f t v os) : Leaves env f (.union true types)
      (.object [(name, v)]) os
  | record {f : Option (String × Field)} {name : String} {props : List (String × Datum)} {os : List Occurrence}
      (h : LeavesFields env name (env.fields name) props os) : Leaves env f (.record name) (.object props) os

inductive LeavesElems (env : Setting) : Option (String × Field) → AvType → List Datum → List Occurrence → Prop where
  | nil {f : Option (String × Field)} {items : AvType} : LeavesElems env f items [] []
  | cons {f : Option (String × Field)} {items : AvType} {v : Datum} {vs : List Datum} {os os' : List Occurrence}
      (h : Leaves env f items v os) (hs : LeavesElems env f items vs os') : LeavesElems env f items
      (v :: vs) (os ++ os')

inductive LeavesEntries (env : Setting) :
    Option (String × Field) → AvType → List (String × Datum) → List Occurrence → Prop where
  | nil {f : Option (String × Field)} {values : AvType} : LeavesEntries env f values [] []
  | cons {f : Option (String × Field)} {values : AvType} {key : String} {v : Datum} {es : List (String × Datum)}
      {os os' : List Occurrence} (h : Leaves env f values v os) (hs : LeavesEntries env f values es os') :
      LeavesEntries env f values ((key, v) :: es) (os ++ os')

/-- A field may be absent if it has a default value and is not one that every object inherits. -/
inductive LeavesFields (env : Setting) : String → List Field → List (String × Datum) → List Occurrence → Prop where
  | nil {name : String} {props : List (String × Datum)} : LeavesFields env name [] props []
  | absent {name : String} {field : Field} {fields : List Field} {props : List (String × Datum)}
    {os : List Occurrence}
      (hnone : props.lookup field.name = none) (hdefault : field.hasDefault = true)
      (hinherits : env.inherits field.name = false) (h : LeavesFields env name fields props os) :
      LeavesFields env name (field :: fields) props os
  | present {name : String} {field : Field} {fields : List Field} {props : List (String × Datum)} {v : Datum}
      {os os' : List Occurrence} (hlook : props.lookup field.name = some v)
      (h : Leaves env (some (name, field)) field.type v os) (hs : LeavesFields env name fields props os') :
      LeavesFields env name (field :: fields) props (os ++ os')

end

variable {env : Setting} {rule : WalkRule}

/-! ## Unions -/

theorem resolveUnion_unwrapped {types : List AvType} {t : AvType} {v : Datum}
    (ht : types.find? (fun t => env.isValid t v) = some t) : resolveUnion env false types v = .ok
    (some (t, v)) := by
  simp [resolveUnion, ht]

theorem resolveUnion_null {types : List AvType} {t : AvType} (ht : types.find? isNullType = some t) :
    resolveUnion env true types .null = .ok (some (t, .null)) := by
  simp [resolveUnion, isNull, ht]

theorem resolveUnion_wrapped {types : List AvType} {t : AvType} {name : String} {v : Datum}
    (ht : types.find? (fun t => branchName t = some name) = some t) :
    resolveUnion env true types (.object [(name, v)]) = .ok (some (t, v)) := by
  simp [resolveUnion, isNull, isObject, ownEntries, ht]

theorem branchName_of_find {types : List AvType} {t : AvType} {name : String}
    (ht : types.find? (fun t => branchName t = some name) = some t) : branchName t = some name := by
  have hname := List.find?_some ht
  simpa only [decide_eq_true_eq] using hname

theorem wrap_of_find {types : List AvType} {t : AvType} {name : String}
    (ht : types.find? (fun t => branchName t = some name) = some t) (v : Datum) : wrap t v = .object
    [(name, v)] := by
  simp [wrap, branchName_of_find ht]

/-! ## The identity -/

def identity : FieldTransform Datum := fun _ v => .ok v

theorem setProp_self {props : List (String × Datum)} {name : String} {v : Datum} (h : props.lookup name = some v) :
    setProp props name v = props := by
  have hset : setProp props name v = updateProp name (fun _ => v) props := by simp [setProp, h]
  rw [hset, updateProp_self h]

abbrev TypeReturns (env : Setting) (rule : WalkRule) (t : AvType) (v : Datum) : Prop :=
  Returns v fun fuel => transform env rule identity fuel t v

theorem returns_of_transformType {t : AvType} {v : Datum} (h : ∀ fieldCtx, Returns v fun fuel =>
    transformType env rule identity (transform env rule identity fuel) t v fieldCtx) :
      TypeReturns env rule t v := by
  refine Returns.of_succ (Returns.after (fun _ => ⟨(), _, rfl⟩) (fun _ => ?_) fun fuel _ => ?_)
  · exact Returns.after (fun s => ⟨_, s, rfl⟩) (fun c => h c) fun fuel c => transformType_orderly
      (transform_orderly fuel) t v c
  · exact Orderly.bind Orderly.currentField fun c => transformType_orderly (transform_orderly fuel) t v c

theorem returns_transformLeaf (v : Datum) (fieldCtx : Option FieldContext) :
    Returns v fun _ => transformLeaf rule identity v fieldCtx := by
  cases fieldCtx with
  | none => exact Returns.pure v
  | some c =>
    simp only [transformLeaf]
    split_ifs
    · exact Returns.note _ (Returns.pure v) fun _ => Orderly.ofExcept _
    · exact Returns.pure v

theorem returns_transformUnion {wrapped : Bool} {types : List AvType} {t : AvType} {v w : Datum}
    (hresolve : resolveUnion env wrapped types v = .ok (some (t, w))) (h : TypeReturns env rule t w)
    (hback : ∀ fullName, (if wrapped then rewrap env fullName types t w else .ok w) = .ok v) :
    Returns v fun fuel => transformUnion env (transform env rule identity fuel) wrapped types v := by
  unfold transformUnion
  rw [hresolve]
  refine Returns.bind (Returns.pure _) (Returns.bind h ?_ fun fuel _ => rewrapped_orderly wrapped types _ _) ?_
  · refine Returns.after (fun s => ⟨_, s, rfl⟩) (fun fullName => ?_) fun _ _ => Orderly.ofExcept _
    rw [hback fullName]
    exact Returns.pure v
  · intro fuel resolved
    cases resolved with
    | none => exact Orderly.pure v
    | some sub => exact Orderly.bind (transform_orderly fuel _ _) fun _ => rewrapped_orderly wrapped types _ _

theorem rewrap_wrapped {types : List AvType} {t : AvType} {name : String} {v : Datum}
    (ht : types.find? (fun t => branchName t = some name) = some t) (hnull : isNull v = false)
    (hv : env.isValid t v = true) (fullName : String) : rewrap env fullName types t v = .ok
    (.object [(name, v)]) := by
  simp [rewrap, hnull, hv, wrap_of_find ht]

theorem returns_transformField (hrule : rule.condition = false) {recordName : String} {field : Field}
    {props : List (String × Datum)} {v : Datum} (hlook : props.lookup field.name = some v)
    (h : TypeReturns env rule field.type v) :
    Returns props fun fuel =>
      transformField env rule (transform env rule identity fuel) recordName field props v := by
  refine Returns.inField _ (Returns.bind h ?_ fun _ _ => Orderly.ofExcept _)
  simp only [writeBack, hrule, Bool.false_eq_true, if_false, setProp_self hlook]
  exact Returns.pure props

mutual

theorem returns_leaves (hrule : rule.condition = false) {f : Option (String × Field)} {t : AvType} {v : Datum}
    {os : List Occurrence} : Leaves env f t v os → TypeReturns env rule t v
  | .leaf _ => returns_of_transformType fun c => returns_transformLeaf _ c
  | .variant => returns_of_transformType fun _ => Returns.pure _
  | .array h => returns_of_transformType fun _ =>
    Returns.bind (returns_leavesElems hrule h) (Returns.pure _) fun _ _ => Orderly.pure _
  | .map h => returns_of_transformType fun _ =>
    Returns.bind (returns_leavesEntries hrule h) (Returns.pure _) fun _ _ => Orderly.pure _
  | .unwrapped ht h => returns_of_transformType fun _ =>
    returns_transformUnion (resolveUnion_unwrapped ht) (returns_leaves hrule h) fun _ => rfl
  | .null ht h => returns_of_transformType fun _ =>
    returns_transformUnion (resolveUnion_null ht) (returns_leaves hrule h) fun _ => rfl
  | .wrapped ht hnull hv h => returns_of_transformType fun _ =>
    returns_transformUnion (resolveUnion_wrapped ht) (returns_leaves hrule h) fun fullName =>
      rewrap_wrapped ht hnull hv fullName
  | .record h => returns_of_transformType fun _ =>
    Returns.bind (returns_leavesFields hrule h) (Returns.pure _) fun _ _ => Orderly.pure _

theorem returns_leavesElems (hrule : rule.condition = false) {f : Option (String × Field)} {items : AvType}
    {vs : List Datum} {os : List Occurrence} : LeavesElems env f items vs os →
      Returns vs fun fuel => Walk.mapEach (transform env rule identity fuel items) vs
  | .nil => Returns.pure []
  | .cons h hs =>
    Returns.bind (returns_leaves hrule h) (Returns.bind (returns_leavesElems hrule hs) (Returns.pure _) fun _ _ =>
      Orderly.pure _) fun fuel _ => Orderly.bind (Orderly.mapEach (transform_orderly fuel items) _) fun _ =>
        Orderly.pure _

theorem returns_leavesEntries (hrule : rule.condition = false) {f : Option (String × Field)} {values : AvType}
    {es : List (String × Datum)} {os : List Occurrence} : LeavesEntries env f values es os →
      Returns es fun fuel => Walk.mapValues (transform env rule identity fuel values) es
  | .nil => Returns.pure []
  | .cons h hs =>
    Returns.bind (Returns.bind (returns_leaves hrule h) (Returns.pure _) fun _ _ => Orderly.pure _)
      (Returns.bind (returns_leavesEntries hrule hs) (Returns.pure _) fun _ _ => Orderly.pure _) fun fuel _ =>
        Orderly.bind (Orderly.mapValues (transform_orderly fuel values) _) fun _ => Orderly.pure _

theorem returns_leavesFields (hrule : rule.condition = false) {recordName : String} {fields : List Field}
    {props : List (String × Datum)} {os : List Occurrence} : LeavesFields env recordName fields props os →
      Returns props fun fuel => transformFields env rule (transform env rule identity fuel) recordName fields props
  | .nil => Returns.pure props
  | .absent hnone _ hinherits h => by
    simp only [transformFields, readProp, hnone, hinherits]
    exact returns_leavesFields hrule h
  | .present hlook h hs => by
    simp only [transformFields, readProp, hlook]
    exact Returns.bind (returns_transformField hrule hlook (returns_leaves hrule h)) (returns_leavesFields hrule hs)
      fun fuel _ => transformFields_orderly (transform_orderly fuel) recordName _ _

end

theorem transform_identity (hrule : rule.condition = false) {t : AvType} {v : Datum} {os : List Occurrence}
    (h : Leaves env none t v os) :
    ∃ n, ∀ fuel ≥ n, ∃ notes, transform env rule identity fuel t v ⟨[], []⟩ = .ok v ⟨[], notes⟩ :=
  (returns_leaves hrule h).outside fun fuel => transform_orderly fuel t v

end Avro

end ConfluentKafka
