import ConfluentKafka.ProtoTransform
import ConfluentKafka.VisitedSearch
import Mathlib.Data.Fintype.Prod

/-!
# Descriptors that present the same values

`presentsSameValues` of `protobuf.ts`, which compares the descriptor of a registered schema with that of the
caller's message, over all messages that their fields lead to. Each side has finitely many descriptors, with a type
of their own; a recursive type is a descriptor whose fields lead back to it.
-/

namespace ConfluentKafka

namespace SchemaView

open Proto (ScalarType)

structure TypeName where
  text : String
  noNul : '\x00' ∉ text.toList

inductive ElemKind (ι : Type) where
  | scalar (type : ScalarType)
  | enum
  | message (desc : ι)
  deriving DecidableEq

inductive FieldKind (ι : Type) where
  | scalar (type : ScalarType)
  | enum
  | message (desc : ι)
  | list (elem : ElemKind ι)
  | map (key : ScalarType) (elem : ElemKind ι)
  deriving DecidableEq

structure DescField (ι : Type) where
  name : String
  number : Nat
  kind : FieldKind ι

structure DescMessage (ι : Type) where
  typeName : TypeName
  fields : List (DescField ι)

structure DescSet (ι : Type) where
  desc : ι → DescMessage ι
  unique : ∀ i j, (desc i).typeName.text = (desc j).typeName.text → i = j

inductive Tag where
  | scalar | enum | message | list | map
  deriving DecidableEq

section

variable {ι : Type}

def ElemKind.tag : ElemKind ι → Tag
  | .scalar _ => .scalar
  | .enum => .enum
  | .message _ => .message

def FieldKind.fieldKind : FieldKind ι → Tag
  | .scalar _ => .scalar
  | .enum => .enum
  | .message _ => .message
  | .list _ => .list
  | .map _ _ => .map

end

section

variable {σ ρ : Type}

/-- The recursive call, with the pairs that are visited before and after it. -/
abbrev Recursion (σ ρ : Type) := σ → ρ → List String → Option (Bool × List String)

def sameElems (same : Recursion σ ρ) (schemaElem : ElemKind σ) (runtimeElem : ElemKind ρ) (visited : List String) :
    Option (Bool × List String) :=
  match runtimeElem, schemaElem with
  | .scalar t, .scalar t' => some (decide (t' = t), visited)
  | .message r, .message d => same d r visited
  | _, _ => some (true, visited)

def sameKinds (same : Recursion σ ρ) (schemaKind : FieldKind σ) (runtimeKind : FieldKind ρ)
    (visited : List String) :
    Option (Bool × List String) :=
  match runtimeKind with
  | .scalar t =>
    match schemaKind with
    | .scalar t' => some (decide (t' = t), visited)
    | _ => some (false, visited)
  | .message r =>
    match schemaKind with
    | .message d => same d r visited
    | _ => some (false, visited)
  | .list elem =>
    match schemaKind with
    | .list elem' => if elem'.tag ≠ elem.tag then some (false, visited) else sameElems same elem' elem visited
    | _ => some (false, visited)
  | .map key elem =>
    match schemaKind with
    | .map key' elem' =>
      if elem'.tag ≠ elem.tag ∨ key' ≠ key then some (false, visited) else sameElems same elem' elem visited
    | _ => some (false, visited)
  | .enum => some (true, visited)

/-- `descriptor.fields.find((f) => f.number === number)`. -/
def fieldOf {ι : Type} (fields : List (DescField ι)) (number : Nat) : Option (DescField ι) := fields.find? fun f =>
    f.number = number

def sameFields (same : Recursion σ ρ) (schemaFields : List (DescField σ)) : List (DescField ρ) → List String →
    Option (Bool × List String)
  | [], visited => some (true, visited)
  | runtimeFd :: runtimeFields, visited =>
    match fieldOf schemaFields runtimeFd.number with
    | none => sameFields same schemaFields runtimeFields visited
    | some schemaFd =>
      if schemaFd.name ≠ runtimeFd.name ∨ schemaFd.kind.fieldKind ≠ runtimeFd.kind.fieldKind then some
        (false, visited)
      else
        match sameKinds same schemaFd.kind runtimeFd.kind visited with
        | none => none
        | some (false, visited) => some (false, visited)
        | some (true, visited) => sameFields same schemaFields runtimeFields visited

def pairOf (descriptor : DescMessage σ) (runtimeDescriptor : DescMessage ρ) : String :=
  descriptor.typeName.text ++ "\x00" ++ runtimeDescriptor.typeName.text

variable (schema : DescSet σ) (runtime : DescSet ρ)

def presentsSameValues : Nat → Recursion σ ρ
  | 0, _, _, _ => none
  | fuel + 1, d, r, visited =>
    let descriptor := schema.desc d
    let runtimeDescriptor := runtime.desc r
    let pair := pairOf descriptor runtimeDescriptor
    if pair ∈ visited then some (true, visited)
    else if descriptor.fields.any fun schemaFd => (fieldOf runtimeDescriptor.fields schemaFd.number).isNone then
      some (false, pair :: visited)
    else sameFields (presentsSameValues fuel) descriptor.fields runtimeDescriptor.fields (pair :: visited)

/-! ## What the comparison is for -/

section

variable {ι κ : Type}

def ElemKind.map (f : ι → κ) : ElemKind ι → ElemKind κ
  | .scalar t => .scalar t
  | .enum => .enum
  | .message i => .message (f i)

def FieldKind.mapDesc (f : ι → κ) : FieldKind ι → FieldKind κ
  | .scalar t => .scalar t
  | .enum => .enum
  | .message i => .message (f i)
  | .list elem => .list (elem.map f)
  | .map key elem => .map key (elem.map f)

def ElemKind.shape (elem : ElemKind ι) : ElemKind Unit := elem.map fun _ => ()

/-- The kind, with the scalar types, the kind of the elements and the key, but not which message it is. -/
def FieldKind.shape (kind : FieldKind ι) : FieldKind Unit := kind.mapDesc fun _ => ()

def ElemKind.message? : ElemKind ι → Option ι
  | .message i => some i
  | _ => none

/-- The message of a field that has one: its value, the elements of a list or the values of a map. -/
def FieldKind.message? : FieldKind ι → Option ι
  | .message i => some i
  | .list elem => elem.message?
  | .map _ elem => elem.message?
  | _ => none

end

def Paired (d : DescMessage σ) (r : DescMessage ρ) (schemaFd : DescField σ) (runtimeFd : DescField ρ) : Prop :=
  runtimeFd ∈ r.fields ∧ fieldOf d.fields runtimeFd.number = some schemaFd

/-- No field of the schema is missing, and paired fields have the same name and shape. -/
structure LocallyAgrees (d : DescMessage σ) (r : DescMessage ρ) : Prop where
  declared : ∀ schemaFd ∈ d.fields, ∃ runtimeFd ∈ r.fields, runtimeFd.number = schemaFd.number
  name : ∀ schemaFd runtimeFd, Paired d r schemaFd runtimeFd → schemaFd.name = runtimeFd.name
  shape : ∀ schemaFd runtimeFd, Paired d r schemaFd runtimeFd → schemaFd.kind.shape = runtimeFd.kind.shape

/-- From a pair of messages to the pair that two paired fields lead to. -/
def Follows (p q : σ × ρ) : Prop :=
  ∃ schemaFd runtimeFd, Paired (schema.desc p.1) (runtime.desc p.2) schemaFd runtimeFd ∧
    schemaFd.kind.message? = some q.1 ∧ runtimeFd.kind.message? = some q.2

/-! ## The comparison as a search -/

def visits (schemaKind : FieldKind σ) (runtimeKind : FieldKind ρ) : List (VisitedSearch.Step (σ × ρ)) :=
  match schemaKind.message?, runtimeKind.message? with
  | some d, some r => [.visit (d, r)]
  | _, _ => []

def kindSteps (schemaKind : FieldKind σ) (runtimeKind : FieldKind ρ) : List (VisitedSearch.Step (σ × ρ)) :=
  .check (decide (schemaKind.shape = runtimeKind.shape)) :: visits schemaKind runtimeKind

def fieldSteps (schemaFields : List (DescField σ)) (runtimeFd : DescField ρ) : List (VisitedSearch.Step (σ × ρ)) :=
  match fieldOf schemaFields runtimeFd.number with
  | none => []
  | some schemaFd => .check (decide (schemaFd.name = runtimeFd.name)) :: kindSteps schemaFd.kind runtimeFd.kind

def steps (p : σ × ρ) : List (VisitedSearch.Step (σ × ρ)) :=
  .check (!(schema.desc p.1).fields.any fun schemaFd =>
    (fieldOf (runtime.desc p.2).fields schemaFd.number).isNone) ::
    (runtime.desc p.2).fields.flatMap (fieldSteps (schema.desc p.1).fields)

def key (p : σ × ρ) : String := pairOf (schema.desc p.1) (runtime.desc p.2)

variable {schema runtime}

theorem runSteps_visit (run : σ × ρ → List String → Option (Bool × List String)) (p : σ × ρ)
    (visited : List String) :
    VisitedSearch.runSteps run [.visit p] visited = run p visited := by
  rw [VisitedSearch.runSteps]
  split
  · rename_i h
    exact h.symm
  · rename_i h
    exact h.symm
  · rename_i h
    exact h.symm

theorem tag_shape {ι : Type} (elem : ElemKind ι) : elem.shape.tag = elem.tag := by
  cases elem with
  | scalar t => rfl
  | enum => rfl
  | message i => rfl

theorem fieldKind_shape {ι : Type} (kind : FieldKind ι) : kind.shape.fieldKind = kind.fieldKind := by
  cases kind with
  | scalar t => rfl
  | enum => rfl
  | message i => rfl
  | list elem => rfl
  | map key elem => rfl

theorem sameElems_of_shape (same : Recursion σ ρ) {schemaElem : ElemKind σ} {runtimeElem : ElemKind ρ}
    (visited : List String)
    (h : schemaElem.shape = runtimeElem.shape) :
    sameElems same schemaElem runtimeElem visited =
      VisitedSearch.runSteps (fun p => same p.1 p.2) (visits (.list schemaElem) (.list runtimeElem)) visited := by
  cases schemaElem with
  | scalar t' =>
    cases runtimeElem with
    | scalar t =>
      cases h
      rw [sameElems, decide_eq_true rfl]
      rfl
    | enum => rfl
    | message r => cases h
  | enum =>
    cases runtimeElem with
    | message r => cases h
    | _ => rfl
  | message d =>
    cases runtimeElem with
    | message r => exact (runSteps_visit (fun p => same p.1 p.2) (d, r) visited).symm
    | _ => cases h

theorem sameElems_of_not_shape (same : Recursion σ ρ) {schemaElem : ElemKind σ} {runtimeElem : ElemKind ρ}
    (visited : List String)
    (h : schemaElem.shape ≠ runtimeElem.shape) (htag : schemaElem.tag = runtimeElem.tag) :
    sameElems same schemaElem runtimeElem visited = some (false, visited) := by
  cases schemaElem with
  | scalar t' =>
    cases runtimeElem with
    | scalar t =>
      have hne : t' ≠ t := by
        rintro rfl
        exact h rfl
      rw [sameElems, decide_eq_false hne]
    | _ => cases htag
  | enum =>
    cases runtimeElem with
    | enum => exact (h rfl).elim
    | _ => cases htag
  | message d =>
    cases runtimeElem with
    | message r => exact (h rfl).elim
    | _ => cases htag

theorem sameKinds_of_shape (same : Recursion σ ρ) {schemaKind : FieldKind σ} {runtimeKind : FieldKind ρ}
    (visited : List String)
    (h : schemaKind.shape = runtimeKind.shape) :
    sameKinds same schemaKind runtimeKind visited =
      VisitedSearch.runSteps (fun p => same p.1 p.2) (visits schemaKind runtimeKind) visited := by
  have hkind : schemaKind.fieldKind = runtimeKind.fieldKind := by rw [← fieldKind_shape, h, fieldKind_shape]
  cases schemaKind with
  | scalar t' =>
    cases runtimeKind with
    | scalar t =>
      cases h
      rw [sameKinds, decide_eq_true rfl]
      rfl
    | _ => cases hkind
  | enum =>
    cases runtimeKind with
    | enum => rfl
    | _ => cases hkind
  | message d =>
    cases runtimeKind with
    | message r => exact (runSteps_visit (fun p => same p.1 p.2) (d, r) visited).symm
    | _ => cases hkind
  | list elem' =>
    cases runtimeKind with
    | list elem =>
      have helem : elem'.shape = elem.shape := FieldKind.list.inj h
      have htag : ¬elem'.tag ≠ elem.tag := by rw [← tag_shape, helem, tag_shape, not_not]
      rw [sameKinds, if_neg htag]
      exact sameElems_of_shape same visited helem
    | _ => cases hkind
  | map key' elem' =>
    cases runtimeKind with
    | map key elem =>
      obtain ⟨hkey, helem⟩ : key' = key ∧ elem'.shape = elem.shape := FieldKind.map.inj h
      have htag : elem'.tag = elem.tag := by rw [← tag_shape, helem, tag_shape]
      have hno : ¬(elem'.tag ≠ elem.tag ∨ key' ≠ key) := not_or.mpr ⟨not_not.mpr htag, not_not.mpr hkey⟩
      rw [sameKinds, if_neg hno]
      exact sameElems_of_shape same visited helem
    | _ => cases hkind

theorem sameKinds_of_not_shape (same : Recursion σ ρ) {schemaKind : FieldKind σ} {runtimeKind : FieldKind ρ}
    (visited : List String)
    (h : schemaKind.shape ≠ runtimeKind.shape) (hkind : schemaKind.fieldKind = runtimeKind.fieldKind) :
    sameKinds same schemaKind runtimeKind visited = some (false, visited) := by
  cases schemaKind with
  | scalar t' =>
    cases runtimeKind with
    | scalar t =>
      have hne : t' ≠ t := by
        rintro rfl
        exact h rfl
      rw [sameKinds, decide_eq_false hne]
    | _ => cases hkind
  | enum =>
    cases runtimeKind with
    | enum => exact (h rfl).elim
    | _ => cases hkind
  | message d =>
    cases runtimeKind with
    | message r => exact (h rfl).elim
    | _ => cases hkind
  | list elem' =>
    cases runtimeKind with
    | list elem =>
      have helem : elem'.shape ≠ elem.shape := fun helem => h (congrArg FieldKind.list helem)
      rw [sameKinds]
      by_cases htag : elem'.tag = elem.tag
      · rw [if_neg (not_not.mpr htag)]
        exact sameElems_of_not_shape same visited helem htag
      · rw [if_pos htag]
    | _ => cases hkind
  | map key' elem' =>
    cases runtimeKind with
    | map key elem =>
      rw [sameKinds]
      by_cases hno : elem'.tag ≠ elem.tag ∨ key' ≠ key
      · rw [if_pos hno]
      · obtain ⟨htag, hkey⟩ := not_or.mp hno
        have helem : elem'.shape ≠ elem.shape := fun helem => h (congrArg₂ FieldKind.map (not_not.mp hkey) helem)
        rw [if_neg hno]
        exact sameElems_of_not_shape same visited helem (not_not.mp htag)
    | _ => cases hkind

theorem sameKinds_eq (same : Recursion σ ρ) (schemaKind : FieldKind σ) (runtimeKind : FieldKind ρ)
    (visited : List String) :
    (if schemaKind.fieldKind ≠ runtimeKind.fieldKind then some (false, visited) else sameKinds same schemaKind
      runtimeKind visited) =
      VisitedSearch.runSteps (fun p => same p.1 p.2) (kindSteps schemaKind runtimeKind) visited := by
  rw [kindSteps, VisitedSearch.runSteps]
  by_cases hshape : schemaKind.shape = runtimeKind.shape
  · have hkind : schemaKind.fieldKind = runtimeKind.fieldKind := by rw [← fieldKind_shape, hshape, fieldKind_shape]
    rw [if_neg (not_not.mpr hkind), decide_eq_true hshape, if_pos rfl]
    exact sameKinds_of_shape same visited hshape
  · rw [decide_eq_false hshape, if_neg Bool.false_ne_true]
    by_cases hkind : schemaKind.fieldKind = runtimeKind.fieldKind
    · rw [if_neg (not_not.mpr hkind)]
      exact sameKinds_of_not_shape same visited hshape hkind
    · rw [if_pos hkind]

theorem sameFields_eq (same : Recursion σ ρ) (schemaFields : List (DescField σ))
    (runtimeFields : List (DescField ρ))
    (visited : List String) : sameFields same schemaFields runtimeFields visited =
      VisitedSearch.runSteps (fun p => same p.1 p.2) (runtimeFields.flatMap (fieldSteps schemaFields)) visited := by
  induction runtimeFields generalizing visited with
  | nil => rfl
  | cons runtimeFd runtimeFields ih =>
    rw [sameFields, List.flatMap_cons, fieldSteps]
    cases fieldOf schemaFields runtimeFd.number with
    | none => exact ih visited
    | some schemaFd =>
      dsimp only
      by_cases hname : schemaFd.name = runtimeFd.name
      · rw [VisitedSearch.runSteps_append, VisitedSearch.runSteps, decide_eq_true hname, if_pos rfl, ← sameKinds_eq]
        by_cases hkind : schemaFd.kind.fieldKind = runtimeFd.kind.fieldKind
        · have hgo : ¬(schemaFd.name ≠ runtimeFd.name ∨ schemaFd.kind.fieldKind ≠ runtimeFd.kind.fieldKind) :=
            not_or.mpr ⟨not_not.mpr hname, not_not.mpr hkind⟩
          rw [if_neg hgo, if_neg (not_not.mpr hkind)]
          cases sameKinds same schemaFd.kind runtimeFd.kind visited with
          | none => rfl
          | some answer =>
            obtain ⟨sameKind, visited'⟩ := answer
            cases sameKind with
            | false => rfl
            | true => exact ih visited'
        · rw [if_pos (.inr hkind), if_pos hkind]
      · rw [if_pos (.inl hname), List.cons_append, VisitedSearch.runSteps, decide_eq_false hname,
          if_neg Bool.false_ne_true]

theorem presentsSameValues_eq_run (fuel : Nat) (d : σ) (r : ρ) (visited : List String) :
    presentsSameValues schema runtime fuel d r visited =
      VisitedSearch.run (steps schema runtime) (key schema runtime) fuel (d, r) visited := by
  induction fuel generalizing d r visited with
  | zero => rfl
  | succ fuel ih =>
    rw [presentsSameValues, VisitedSearch.run]
    have hrun : presentsSameValues schema runtime fuel = fun d r visited =>
        VisitedSearch.run (steps schema runtime) (key schema runtime) fuel (d, r) visited := by
      funext d r visited
      exact ih d r visited
    rw [hrun, key]
    split
    · rfl
    · rw [steps, VisitedSearch.runSteps]
      cases (schema.desc d).fields.any fun schemaFd => (fieldOf (runtime.desc r).fields schemaFd.number).isNone with
      | true => rfl
      | false => exact sameFields_eq _ _ _ _

theorem key_injective {p q : σ × ρ} (h : key schema runtime p = key schema runtime q) : p = q := by
  have hchars := congrArg String.toList h
  simp only [key, pairOf, String.toList_append] at hchars
  have hnul : "\x00".toList = ['\x00'] := rfl
  rw [hnul, List.append_assoc, List.append_assoc, List.singleton_append, List.singleton_append] at hchars
  obtain ⟨hschema, -, hruntime⟩ := (List.append_cons_inj_of_notMem (schema.desc p.1).typeName.noNul
    (runtime.desc p.2).typeName.noNul).mp hchars
  exact Prod.ext (schema.unique _ _ (String.ext hschema)) (runtime.unique _ _ (String.ext hruntime))

theorem any_isNone_eq_false_iff (d : DescMessage σ) (r : DescMessage ρ) :
    (d.fields.any fun schemaFd => (fieldOf r.fields schemaFd.number).isNone) = false ↔
      ∀ schemaFd ∈ d.fields, ∃ runtimeFd ∈ r.fields, runtimeFd.number = schemaFd.number := by
  rw [List.any_eq_false]
  refine forall_congr' fun schemaFd => imp_congr_right fun _ => ?_
  rw [Option.isNone_iff_eq_none, fieldOf, List.find?_eq_none]
  simp only [decide_eq_true_eq, not_forall, not_not, exists_prop]

theorem mem_fieldSteps {d : DescMessage σ} {r : DescMessage ρ} {step : VisitedSearch.Step (σ × ρ)} :
    step ∈ r.fields.flatMap (fieldSteps d.fields) ↔ ∃ schemaFd runtimeFd, Paired d r schemaFd runtimeFd ∧
      step ∈ VisitedSearch.Step.check (decide (schemaFd.name = runtimeFd.name)) :: kindSteps schemaFd.kind
        runtimeFd.kind := by
  rw [List.mem_flatMap]
  constructor
  · rintro ⟨runtimeFd, hmem, hstep⟩
    rw [fieldSteps] at hstep
    cases hpaired : fieldOf d.fields runtimeFd.number with
    | none =>
      rw [hpaired] at hstep
      cases hstep
    | some schemaFd =>
      rw [hpaired] at hstep
      exact ⟨schemaFd, runtimeFd, ⟨hmem, hpaired⟩, hstep⟩
  · rintro ⟨schemaFd, runtimeFd, ⟨hmem, hpaired⟩, hstep⟩
    refine ⟨runtimeFd, hmem, ?_⟩
    rw [fieldSteps, hpaired]
    exact hstep

theorem mem_visits {schemaKind : FieldKind σ} {runtimeKind : FieldKind ρ} {step : VisitedSearch.Step (σ × ρ)} :
    step ∈ visits schemaKind runtimeKind ↔
      ∃ d r, schemaKind.message? = some d ∧ runtimeKind.message? = some r ∧ step = .visit (d, r) := by
  unfold visits
  split
  · rename_i d r hd hr
    rw [List.mem_singleton]
    constructor
    · exact fun h => ⟨d, r, hd, hr, h⟩
    · rintro ⟨d', r', hd', hr', rfl⟩
      cases hd.symm.trans hd'
      cases hr.symm.trans hr'
      rfl
  · rename_i hno
    refine iff_of_false List.not_mem_nil ?_
    rintro ⟨d, r, hd, hr, -⟩
    exact hno d r hd hr

theorem agrees_iff (p : σ × ρ) :
    VisitedSearch.Agrees (steps schema runtime) p ↔ LocallyAgrees (schema.desc p.1) (runtime.desc p.2) := by
  unfold VisitedSearch.Agrees steps
  constructor
  · intro h
    have hdeclared := h _ List.mem_cons_self
    rw [Bool.not_eq_true', any_isNone_eq_false_iff] at hdeclared
    refine ⟨hdeclared, fun schemaFd runtimeFd hpaired => ?_, fun schemaFd runtimeFd hpaired => ?_⟩
    · exact of_decide_eq_true
        (h _ (List.mem_cons_of_mem _ (mem_fieldSteps.mpr ⟨_, _, hpaired, List.mem_cons_self⟩)))
    · exact of_decide_eq_true (h _ (List.mem_cons_of_mem _ (mem_fieldSteps.mpr
        ⟨_, _, hpaired, List.mem_cons_of_mem _ List.mem_cons_self⟩)))
  · intro h ok hok
    rcases List.mem_cons.mp hok with heq | hok
    · cases heq
      rw [Bool.not_eq_true', any_isNone_eq_false_iff]
      exact h.declared
    · obtain ⟨schemaFd, runtimeFd, hpaired, hstep⟩ := mem_fieldSteps.mp hok
      rcases List.mem_cons.mp hstep with heq | hstep
      · cases heq
        exact decide_eq_true (h.name _ _ hpaired)
      · rcases List.mem_cons.mp hstep with heq | hstep
        · cases heq
          exact decide_eq_true (h.shape _ _ hpaired)
        · obtain ⟨_, _, _, _, heq⟩ := mem_visits.mp hstep
          cases heq

theorem follows_iff (p q : σ × ρ) : VisitedSearch.Follows (steps schema runtime) p q ↔
    Follows schema runtime p q := by
  unfold VisitedSearch.Follows steps Follows
  constructor
  · intro h
    cases h with
    | tail _ h =>
      obtain ⟨schemaFd, runtimeFd, hpaired, hstep⟩ := mem_fieldSteps.mp h
      refine ⟨schemaFd, runtimeFd, hpaired, ?_⟩
      cases hstep with
      | tail _ hstep =>
        cases hstep with
        | tail _ hstep =>
          obtain ⟨d, r, hd, hr, heq⟩ := mem_visits.mp hstep
          cases heq
          exact ⟨hd, hr⟩
  · rintro ⟨schemaFd, runtimeFd, hpaired, hd, hr⟩
    refine List.mem_cons_of_mem _ (mem_fieldSteps.mpr ⟨schemaFd, runtimeFd, hpaired, ?_⟩)
    exact List.mem_cons_of_mem _ (List.mem_cons_of_mem _ (mem_visits.mpr ⟨q.1, q.2, hd, hr, rfl⟩))

/-- With fuel for all pairs, the comparison ends, with the answer whether all pairs that can be reached agree
locally. -/
theorem presentsSameValues_exact [Fintype σ] [Fintype ρ] (schema : DescSet σ) (runtime : DescSet ρ) (d : σ)
    (r : ρ) {fuel : Nat}
    (hfuel : Fintype.card σ * Fintype.card ρ < fuel) :
    ∃ same visited, presentsSameValues schema runtime fuel d r [] = some (same, visited) ∧
      (same = true ↔ ∀ p, Relation.ReflTransGen (Follows schema runtime) (d, r) p →
        LocallyAgrees (schema.desc p.1) (runtime.desc p.2)) := by
  have hsteps : ∀ p q : σ × ρ, key schema runtime p = key schema runtime q → steps schema runtime p =
    steps schema runtime q :=
    fun p q h => congrArg (steps schema runtime) (key_injective h)
  have hcard : Fintype.card (σ × ρ) < fuel := by rwa [Fintype.card_prod]
  obtain ⟨same, visited, hrun, hsame⟩ := VisitedSearch.run_exact hsteps (d, r) hcard
  refine ⟨same, visited, by rw [presentsSameValues_eq_run, hrun], hsame.trans ?_⟩
  have hfollows : VisitedSearch.Follows (steps schema runtime) = Follows schema runtime := by
    funext p q
    exact propext (follows_iff p q)
  simp only [hfollows, agrees_iff]

end

namespace Sample

def treeName : TypeName := ⟨"Tree", by decide⟩

def tree : DescSet Unit where
  desc _ := ⟨treeName, [⟨"children", 1, .list (.message ())⟩, ⟨"label", 2, .scalar .string⟩]⟩
  unique _ _ _ := rfl

def weighted : DescSet Unit where
  desc _ := ⟨treeName, [⟨"children", 1, .list (.message ())⟩, ⟨"label", 2, .scalar .string⟩,
    ⟨"weight", 3, .scalar .double⟩]⟩
  unique _ _ _ := rfl

/-- The types lead back to themselves; what only the caller has does not count. -/
theorem presentsSameValues_tree :
    (∃ same visited, presentsSameValues tree weighted 2 () () [] = some (same, visited) ∧
      (same = true ↔ ∀ p, Relation.ReflTransGen (Follows tree weighted) ((), ()) p →
        LocallyAgrees (tree.desc p.1) (weighted.desc p.2))) ∧
      presentsSameValues tree weighted 2 () () [] = some (true, ["Tree\x00Tree"]) :=
  ⟨presentsSameValues_exact tree weighted () () (by decide), by decide⟩

end Sample

end SchemaView

end ConfluentKafka
