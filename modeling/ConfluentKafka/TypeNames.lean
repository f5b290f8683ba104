import ConfluentKafka.DottedNames
import Mathlib.Data.List.Forall2

/-!
# Type names of file descriptors

`fullyQualifyTypeNames` of `protobuf.ts`, which makes the type names of fields and extensions absolute. The type
names are the only part of a field that it reads or writes.
-/

namespace ConfluentKafka

namespace TypeNames

open DottedNames

/-- The name of a message, which is a scope for what is declared in it. -/
structure Identifier where
  text : Text
  noDot : '.' ∉ text

structure FieldDescriptorProto where
  typeName : Text

inductive DescriptorProto where
  | mk (name : Identifier) (field extension : List FieldDescriptorProto) (nestedType : List DescriptorProto)
    (enumType : List Text)

structure FileDescriptorProto where
  package : Text
  messageType : List DescriptorProto
  enumType : List Text
  extension : List FieldDescriptorProto

mutual

def collectTypes (parentScope : Text) : DescriptorProto → List Text
  | .mk name _ _ nestedType enumType =>
    qualify parentScope name.text :: enumType.map (qualify (qualify parentScope name.text)) ++
      collectEach (qualify parentScope name.text) nestedType

def collectEach (parentScope : Text) : List DescriptorProto → List Text
  | [] => []
  | msg :: msgs => collectTypes parentScope msg ++ collectEach parentScope msgs

end

def isAbsolute (typeName : Text) : Bool := typeName.head? = some '.'

def resolveTypeName (scope : Text) (allTypes : List Text) (field : FieldDescriptorProto) : FieldDescriptorProto :=
  if field.typeName = [] ∨ isAbsolute field.typeName then field
  else
    match lookup (fun candidate => candidate ∈ allTypes) field.typeName scope with
    | some candidate => { field with typeName := candidate }
    | none =>
      if '.' :: field.typeName ∈ allTypes then { field with typeName := '.' :: field.typeName }
      else if '.' ∈ field.typeName then { field with typeName := '.' :: field.typeName }
      else field

mutual

def resolveFieldTypeNames (parentScope : Text) (allTypes : List Text) : DescriptorProto → DescriptorProto
  | .mk name field extension nestedType enumType =>
    .mk name (field.map (resolveTypeName (qualify parentScope name.text) allTypes))
      (extension.map (resolveTypeName (qualify parentScope name.text) allTypes))
      (resolveEach (qualify parentScope name.text) allTypes nestedType) enumType

def resolveEach (parentScope : Text) (allTypes : List Text) : List DescriptorProto → List DescriptorProto
  | [] => []
  | msg :: msgs => resolveFieldTypeNames parentScope allTypes msg :: resolveEach parentScope allTypes msgs

end

def prefixOf (file : FileDescriptorProto) : Text := if file.package = [] then [] else '.' :: file.package

def allTypes (file : FileDescriptorProto) : List Text :=
  file.enumType.map (qualify (prefixOf file)) ++ collectEach (prefixOf file) file.messageType

def fullyQualifyTypeNames (file : FileDescriptorProto) : FileDescriptorProto :=
  { file with
    messageType := resolveEach (prefixOf file) (allTypes file) file.messageType
    extension := file.extension.map (resolveTypeName (prefixOf file) (allTypes file)) }

/-! ## What is declared, and where type names occur -/

/-- The types that a message declares in a scope: itself, its enumerations, and what is declared in it. -/
inductive DeclaredIn : Text → DescriptorProto → Text → Prop where
  | message {scope : Text} {name : Identifier} {field extension : List FieldDescriptorProto}
    {nestedType : List DescriptorProto}
      {enumType : List Text} : DeclaredIn scope (.mk name field extension nestedType enumType)
      (qualify scope name.text)
  | enum {scope : Text} {name : Identifier} {field extension : List FieldDescriptorProto}
    {nestedType : List DescriptorProto}
      {enumType : List Text} {e : Text} (he : e ∈ enumType) :
      DeclaredIn scope (.mk name field extension nestedType enumType) (qualify (qualify scope name.text) e)
  | nested {scope : Text} {name : Identifier} {field extension : List FieldDescriptorProto}
    {nestedType : List DescriptorProto}
      {enumType : List Text} {msg : DescriptorProto} {full : Text} (hmsg : msg ∈ nestedType)
      (h : DeclaredIn (qualify scope name.text) msg full) : DeclaredIn scope
      (.mk name field extension nestedType enumType) full

/-- The scopes of a file: its package and the parts of that, up to the outermost scope. -/
def scopes (file : FileDescriptorProto) : List Text := scopesOf file.package

/-- The absolute name is that of a message or an enumeration of the file. -/
def Declares (file : FileDescriptorProto) (full : Text) : Prop :=
  (∃ e ∈ file.enumType, full = qualify ((scopes file).headD []) e) ∨
    ∃ msg ∈ file.messageType, DeclaredIn ((scopes file).headD []) msg full

/-- A type name, with the scopes that enclose it, the innermost first. -/
structure Occurrence where
  scopes : List Text
  typeName : Text

def occurrence (scopes : List Text) (field : FieldDescriptorProto) : Occurrence := ⟨scopes, field.typeName⟩

mutual

def occurrencesIn (outer : List Text) : DescriptorProto → List Occurrence
  | .mk name field extension nestedType _ =>
    (field ++ extension).map (occurrence (enter outer name.text)) ++ occurrencesInEach
    (enter outer name.text) nestedType

def occurrencesInEach (outer : List Text) : List DescriptorProto → List Occurrence
  | [] => []
  | msg :: msgs => occurrencesIn outer msg ++ occurrencesInEach outer msgs

end

def occurrences (file : FileDescriptorProto) : List Occurrence :=
  occurrencesInEach (scopes file) file.messageType ++ file.extension.map (occurrence (scopes file))

/-- A type name before and after: absolute names stay, and a relative one that is declared from a scope
becomes what it is in the innermost such scope. -/
structure Qualified (file : FileDescriptorProto) (o o' : Occurrence) : Prop where
  scopes : o'.scopes = o.scopes
  absolute : isAbsolute o.typeName = true → o'.typeName = o.typeName
  relative : o.typeName ≠ [] → isAbsolute o.typeName = false → ∀ inner scope outer, o.scopes = inner ++
    scope :: outer →
    (∀ s ∈ inner, ¬Declares file (qualify s o.typeName)) → Declares file (qualify scope o.typeName) →
    o'.typeName = qualify scope o.typeName

/-! ## Messages in messages -/

@[elab_as_elim]
theorem DescriptorProto.induct {P : DescriptorProto → Prop}
    (mk : ∀ name field extension (nestedType : List DescriptorProto) enumType, (∀ msg ∈ nestedType, P msg) →
      P (.mk name field extension nestedType enumType)) : ∀ msg, P msg
  | .mk name field extension nestedType enumType =>
    mk name field extension nestedType enumType fun msg _ => DescriptorProto.induct mk msg
termination_by msg => sizeOf msg
decreasing_by
  · next hmsg =>
    have := List.sizeOf_lt_of_mem hmsg
    rw [DescriptorProto.mk.sizeOf_spec]
    omega

theorem collectEach_eq (scope : Text) (msgs : List DescriptorProto) : collectEach scope msgs = msgs.flatMap
    (collectTypes scope) := by
  induction msgs with
  | nil => rfl
  | cons msg msgs ih => rw [collectEach, ih, List.flatMap_cons]

theorem resolveEach_eq (scope : Text) (types : List Text) (msgs : List DescriptorProto) :
    resolveEach scope types msgs = msgs.map (resolveFieldTypeNames scope types) := by
  induction msgs with
  | nil => rfl
  | cons msg msgs ih => rw [resolveEach, ih, List.map_cons]

theorem occurrencesInEach_eq (outer : List Text) (msgs : List DescriptorProto) :
    occurrencesInEach outer msgs = msgs.flatMap (occurrencesIn outer) := by
  induction msgs with
  | nil => rfl
  | cons msg msgs ih => rw [occurrencesInEach, ih, List.flatMap_cons]

/-! ## The set of all types -/

theorem mem_collectTypes (full : Text) (msg : DescriptorProto) : ∀ scope, full ∈ collectTypes scope msg ↔
    DeclaredIn scope msg full := by
  induction msg using DescriptorProto.induct with
  | mk name field extension nestedType enumType ih =>
    intro scope
    rw [collectTypes, collectEach_eq, List.cons_append, List.mem_cons, List.mem_append, List.mem_map,
      List.mem_flatMap]
    constructor
    · rintro (rfl | ⟨e, he, rfl⟩ | ⟨msg, hmsg, h⟩)
      · exact .message
      · exact .enum he
      · exact .nested hmsg ((ih msg hmsg _).mp h)
    · intro h
      cases h with
      | message => exact .inl rfl
      | enum he => exact .inr (.inl ⟨_, he, rfl⟩)
      | nested hmsg h => exact .inr (.inr ⟨_, hmsg, (ih _ hmsg _).mpr h⟩)

theorem prefixOf_eq (file : FileDescriptorProto) : prefixOf file = (scopes file).headD [] :=
  (headD_scopesOf file.package).symm

theorem mem_allTypes (file : FileDescriptorProto) (full : Text) : full ∈ allTypes file ↔ Declares file full := by
  rw [allTypes, collectEach_eq, List.mem_append, List.mem_map, List.mem_flatMap, Declares, prefixOf_eq]
  refine or_congr ⟨?_, ?_⟩ (exists_congr fun msg => and_congr_right fun _ => mem_collectTypes full msg _)
  · rintro ⟨e, he, rfl⟩
    exact ⟨e, he, rfl⟩
  · rintro ⟨e, he, rfl⟩
    exact ⟨e, he, rfl⟩

/-! ## Type names one by one -/

def resolved (types : List Text) (o : Occurrence) : Occurrence :=
  ⟨o.scopes, (resolveTypeName (o.scopes.headD []) types ⟨o.typeName⟩).typeName⟩

theorem occurrencesIn_resolve (types : List Text) (msg : DescriptorProto) : ∀ outer,
    occurrencesIn outer (resolveFieldTypeNames (outer.headD []) types msg) = (occurrencesIn outer msg).map
      (resolved types) := by
  induction msg using DescriptorProto.induct with
  | mk name field extension nestedType enumType ih =>
    intro outer
    have hfields : (field.map (resolveTypeName (qualify (outer.headD []) name.text) types) ++
        extension.map (resolveTypeName (qualify (outer.headD []) name.text) types)).map
          (occurrence (enter outer name.text)) =
          ((field ++ extension).map (occurrence (enter outer name.text))).map (resolved types) := by
      rw [← List.map_append, List.map_map, List.map_map]
      rfl
    have hnested : (nestedType.map (resolveFieldTypeNames (qualify (outer.headD []) name.text) types)).flatMap
        (occurrencesIn (enter outer name.text)) = (nestedType.flatMap (occurrencesIn (enter outer name.text))).map
        (resolved types) := by
      rw [List.flatMap_map, List.map_flatMap]
      exact List.flatMap_congr fun msg hmsg => ih msg hmsg (enter outer name.text)
    rw [resolveFieldTypeNames, occurrencesIn, occurrencesIn, resolveEach_eq, occurrencesInEach_eq,
      occurrencesInEach_eq, hfields,
      hnested]
    exact List.map_append.symm

theorem enclosing_of_mem (msg : DescriptorProto) : ∀ outer, Enclosing outer → ∀ o ∈ occurrencesIn outer msg,
    Enclosing o.scopes := by
  induction msg using DescriptorProto.induct with
  | mk name field extension nestedType enumType ih =>
    intro outer houter o ho
    have hinner := houter.enter name.noDot
    rw [occurrencesIn, occurrencesInEach_eq, List.mem_append, List.mem_map, List.mem_flatMap] at ho
    obtain ⟨f, -, rfl⟩ | ⟨msg, hmsg, ho⟩ := ho
    · exact hinner
    · exact ih msg hmsg _ hinner o ho

theorem resolveTypeName_of_relative {types : List Text} {name : Text} {scopes : List Text}
    (hscopes : Enclosing scopes)
    (hname : name ≠ []) (hrelative : isAbsolute name = false) {full : Text}
    (h : (scopes.map fun scope => qualify scope name).find? (fun candidate => candidate ∈ types) = some full) :
    (resolveTypeName (scopes.headD []) types ⟨name⟩).typeName = full := by
  have hset : ¬(name = [] ∨ isAbsolute name = true) := by
    rintro (rfl | habs)
    · exact hname rfl
    · exact Bool.noConfusion (hrelative.symm.trans habs)
  rw [← lookup_eq (fun candidate => candidate ∈ types) name hscopes] at h
  rw [resolveTypeName, if_neg hset]
  cases hfound : lookup (fun candidate => candidate ∈ types) name (scopes.headD []) with
  | some candidate =>
    rw [hfound, Option.some_or] at h
    cases h
    rfl
  | none =>
    have hqualify : qualify [] name = '.' :: name := rfl
    rw [hfound, Option.none_or, hqualify] at h
    simp only [decide_eq_true_eq] at h
    dsimp only
    by_cases hroot : '.' :: name ∈ types
    · rw [if_pos hroot] at h ⊢
      exact Option.some.inj h
    · rw [if_neg hroot] at h
      cases h

theorem qualified_resolved (file : FileDescriptorProto) {o : Occurrence} (h : Enclosing o.scopes) :
    Qualified file o (resolved (allTypes file) o) := by
  refine ⟨rfl, fun habs => ?_, fun hname hrelative inner scope outer hsplit hinner hscope => ?_⟩
  · rw [resolved, resolveTypeName, if_pos (.inr habs)]
  · refine resolveTypeName_of_relative h hname hrelative ?_
    have hsome : (qualify scope o.typeName :: outer.map fun s => qualify s o.typeName).find?
        (fun candidate => candidate ∈ allTypes file) = some (qualify scope o.typeName) :=
      List.find?_cons_of_pos (decide_eq_true ((mem_allTypes file _).mpr hscope))
    have hnone : (inner.map fun s => qualify s o.typeName).find? (fun candidate => candidate ∈ allTypes file) =
      none := by
      rw [List.find?_eq_none]
      intro candidate hcandidate hmem
      obtain ⟨s, hs, rfl⟩ := List.mem_map.mp hcandidate
      exact hinner s hs ((mem_allTypes file _).mp (of_decide_eq_true hmem))
    rw [hsplit, List.map_append, List.find?_append, List.map_cons, hnone, hsome, Option.none_or]

/-! ## A second call -/

theorem collectTypes_resolve (types : List Text) (msg : DescriptorProto) : ∀ parentScope scope,
    collectTypes scope (resolveFieldTypeNames parentScope types msg) = collectTypes scope msg := by
  induction msg using DescriptorProto.induct with
  | mk name field extension nestedType enumType ih =>
    intro parentScope scope
    rw [resolveFieldTypeNames, collectTypes, collectTypes, resolveEach_eq, collectEach_eq, collectEach_eq,
      List.flatMap_map]
    refine congrArg₂ (· ++ ·) rfl (List.flatMap_congr fun msg hmsg => ?_)
    exact ih msg hmsg _ _

theorem allTypes_fullyQualifyTypeNames (file : FileDescriptorProto) : allTypes (fullyQualifyTypeNames file) =
    allTypes file := by
  have hcollect : collectEach (prefixOf file) (resolveEach (prefixOf file) (allTypes file) file.messageType) =
      collectEach (prefixOf file) file.messageType := by
    rw [resolveEach_eq, collectEach_eq, collectEach_eq, List.flatMap_map]
    exact List.flatMap_congr fun msg _ => collectTypes_resolve _ msg _ _
  exact congrArg (file.enumType.map (qualify (prefixOf file)) ++ ·) hcollect

/-- An absolute name stays, and one that is not found is not found again. -/
theorem resolveTypeName_resolveTypeName {scope : Text} (hscope : Absolute scope) (types : List Text)
    (field : FieldDescriptorProto) :
    resolveTypeName scope types (resolveTypeName scope types field) = resolveTypeName scope types field := by
  by_cases hset : field.typeName = [] ∨ isAbsolute field.typeName = true
  · have hsame : resolveTypeName scope types field = field := by rw [resolveTypeName, if_pos hset]
    rw [hsame, hsame]
  · have habsolute {name : Text} (hname : name.head? = some '.') : resolveTypeName scope types ⟨name⟩ = ⟨name⟩ := by
      rw [resolveTypeName, if_pos (.inr (decide_eq_true hname))]
    cases hfound : lookup (fun candidate => candidate ∈ types) field.typeName scope with
    | some candidate =>
      have hresolve : resolveTypeName scope types field = ⟨candidate⟩ := by
        rw [resolveTypeName, if_neg hset, hfound]
      rw [hresolve]
      exact habsolute (head?_of_lookup hscope hfound)
    | none =>
      have hroot : resolveTypeName scope types field = ⟨'.' :: field.typeName⟩ ∨
        resolveTypeName scope types field = field := by
        rw [resolveTypeName, if_neg hset, hfound]
        dsimp only
        split_ifs
        · exact .inl rfl
        · exact .inl rfl
        · exact .inr rfl
      obtain hresolve | hresolve := hroot
      · rw [hresolve]
        exact habsolute rfl
      · rw [hresolve, hresolve]

theorem resolveFieldTypeNames_twice (types : List Text) (msg : DescriptorProto) : ∀ parentScope,
    Absolute parentScope →
    resolveFieldTypeNames parentScope types (resolveFieldTypeNames parentScope types msg) =
      resolveFieldTypeNames parentScope types msg := by
  induction msg using DescriptorProto.induct with
  | mk name field extension nestedType enumType ih =>
    intro parentScope hparent
    have hscope := absolute_qualify hparent name.text
    have hfields (fields : List FieldDescriptorProto) :
      (fields.map (resolveTypeName (qualify parentScope name.text) types)).map
        (resolveTypeName (qualify parentScope name.text) types) = fields.map
        (resolveTypeName (qualify parentScope name.text) types) := by
      rw [List.map_map]
      exact List.map_congr_left fun field _ => resolveTypeName_resolveTypeName hscope types field
    have hnested : (nestedType.map (resolveFieldTypeNames (qualify parentScope name.text) types)).map
        (resolveFieldTypeNames (qualify parentScope name.text) types) =
          nestedType.map (resolveFieldTypeNames (qualify parentScope name.text) types) := by
      rw [List.map_map]
      exact List.map_congr_left fun msg hmsg => ih msg hmsg _ hscope
    rw [resolveFieldTypeNames, resolveFieldTypeNames, resolveEach_eq, resolveEach_eq, hfields, hfields, hnested]

theorem absolute_prefixOf (file : FileDescriptorProto) : Absolute (prefixOf file) := by
  unfold prefixOf
  split_ifs
  · exact .inl rfl
  · exact .inr rfl

theorem fullyQualifyTypeNames_twice (file : FileDescriptorProto) :
    fullyQualifyTypeNames (fullyQualifyTypeNames file) = fullyQualifyTypeNames file := by
  have hscope := absolute_prefixOf file
  have hmessages : resolveEach (prefixOf file) (allTypes file)
    (resolveEach (prefixOf file) (allTypes file) file.messageType) =
      resolveEach (prefixOf file) (allTypes file) file.messageType := by
    rw [resolveEach_eq, resolveEach_eq, List.map_map]
    exact List.map_congr_left fun msg _ => resolveFieldTypeNames_twice _ msg _ hscope
  have hextensions : (file.extension.map (resolveTypeName (prefixOf file) (allTypes file))).map
      (resolveTypeName (prefixOf file) (allTypes file)) = file.extension.map
      (resolveTypeName (prefixOf file) (allTypes file)) := by
    rw [List.map_map]
    exact List.map_congr_left fun field _ => resolveTypeName_resolveTypeName hscope _ field
  have hprefix : prefixOf (fullyQualifyTypeNames file) = prefixOf file := rfl
  rw [fullyQualifyTypeNames, allTypes_fullyQualifyTypeNames, hprefix]
  exact congrArg₂ (fun messageType extension => { file with messageType, extension }) hmessages hextensions

theorem occurrences_fullyQualifyTypeNames (file : FileDescriptorProto) :
    occurrences (fullyQualifyTypeNames file) = (occurrences file).map (resolved (allTypes file)) := by
  have hmessages : (file.messageType.map (resolveFieldTypeNames (prefixOf file) (allTypes file))).flatMap
    (occurrencesIn (scopes file)) =
      (file.messageType.flatMap (occurrencesIn (scopes file))).map (resolved (allTypes file)) := by
    rw [List.flatMap_map, List.map_flatMap, prefixOf_eq]
    exact List.flatMap_congr fun msg _ => occurrencesIn_resolve _ msg _
  have hextensions : (file.extension.map (resolveTypeName (prefixOf file) (allTypes file))).map
    (occurrence (scopes file)) =
      (file.extension.map (occurrence (scopes file))).map (resolved (allTypes file)) := by
    rw [List.map_map, List.map_map, prefixOf_eq]
    rfl
  have hscopes : scopes (fullyQualifyTypeNames file) = scopes file := rfl
  rw [occurrences, occurrences, hscopes, occurrencesInEach_eq, occurrencesInEach_eq, List.map_append, ← hmessages,
    ← hextensions,
    ← resolveEach_eq]
  rfl

/-- Every type name of the file is qualified, and a second call changes nothing. -/
theorem fullyQualifyTypeNames_spec (file : FileDescriptorProto) :
    List.Forall₂ (Qualified file) (occurrences file) (occurrences (fullyQualifyTypeNames file)) ∧
      fullyQualifyTypeNames (fullyQualifyTypeNames file) = fullyQualifyTypeNames file := by
  refine ⟨?_, fullyQualifyTypeNames_twice file⟩
  rw [occurrences_fullyQualifyTypeNames, List.forall₂_map_right_iff, List.forall₂_same]
  intro o ho
  refine qualified_resolved file ?_
  rw [occurrences, occurrencesInEach_eq, List.mem_append, List.mem_flatMap, List.mem_map] at ho
  obtain ⟨msg, -, ho⟩ | ⟨field, -, rfl⟩ := ho
  · exact enclosing_of_mem msg _ (enclosing_scopesOf file.package) o ho
  · exact enclosing_scopesOf file.package

end TypeNames

end ConfluentKafka
