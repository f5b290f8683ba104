import ConfluentKafka.CelDatum
import ConfluentKafka.Fuel

/-!
# The branches that the conversions choose

What a branch accepts depends on its type and on the kind of the value, which the conversion to the form
of rules keeps. Where the library considers one branch only and no structure stands before it, both
conversions choose it.
-/

namespace ConfluentKafka

namespace Cel

/-! ## Kinds of values -/

inductive Kind where
  | null | boolean | number
  | string (s : String)
  | buffer | array
  | object (tag : Option String)
  | variant
  deriving DecidableEq

def Value.kind : Value → Kind
  | .null => .null
  | .boolean _ => .boolean
  | .integer _ => .number
  | .fraction _ _ => .number
  | .nonFinite _ => .number
  | .bigint _ => .number
  | .timestamp _ => .number
  | .string s => .string s
  | .bytes _ => .buffer
  | .decimal _ => .buffer
  | .array _ => .array
  | .object props => .object (typeTag (.object props))
  | .variant _ => .variant
  | .variantMessage _ _ => .variant

theorem typeTag_eq_of_kind {v c : Value} (h : c.kind = v.kind) : typeTag c = typeTag v := by
  cases v <;> cases c <;> simp_all [Value.kind, typeTag]

theorem isTagged_eq_of_kind {v c : Value} (h : c.kind = v.kind) : isTagged c = isTagged v := by
  simp only [isTagged, typeTag_eq_of_kind h]

theorem isNull_eq_of_kind {v c : Value} (h : c.kind = v.kind) : c.isNull = v.isNull := by
  cases v <;> cases c <;> first | rfl | cases h

/-! ## What a branch accepts -/

/-- `avroBranchAccepts` of a node that is resolved, for values that are read without an error. -/
def accepts (node : Node) : Value → Bool
  | .null => isNullBranch node
  | .decimal _ =>
    isDecimalLogicalType node.logicalType &&
      (node.typeName = some (.primitive .bytes) || node.typeName = some .fixed)
  | .timestamp _ =>
    (node.typeName = some (.primitive .long) || node.typeName = some (.primitive .int)) &&
      isTemporalLogicalType node.logicalType
  | .variant _ => node.isVariant
  | .variantMessage _ _ => node.isVariant
  | v => acceptsShape node v

def Legible : Value → Prop
  | .variantMessage value metadata => metadata ≠ [] ∧ ∃ u, newVariant value metadata = .ok u
  | _ => True

theorem tryReader_object {props : List (String × Value)} (h : isTagged (.object props) = false) :
    tryReader (.object props) = .ok none := by
  have htag : typeTag (.object props) ≠ some "confluent.type.Variant" := by
    intro heq
    simp [isTagged, heq] at h
  simp only [tryReader, if_neg htag]
  rfl

theorem avroBranchAccepts_eq {named : String → Option Node} {ns : String} {branch : Node} {v : Value}
    (hv : Legible v)
    (htag : isTagged v = false) :
    avroBranchAccepts named ns branch v = .ok (accepts (resolveAvroNode named ns branch) v) := by
  cases v with
  | object props =>
    have hts : isCelTimestamp (.object props) = false := by
      simp only [isTagged, Bool.or_eq_false_iff] at htag
      exact htag.1
    simp only [avroBranchAccepts, Value.isNull, isCelDecimal, hts, tryReader_object htag, accepts]
    rfl
  | variantMessage value metadata =>
    obtain ⟨hne, u, hu⟩ := hv
    simp only [avroBranchAccepts, Value.isNull, isCelDecimal, isCelTimestamp, typeTag, tryReader,
      if_neg hne, hu, accepts]
    rfl
  | _ => rfl

/-! ## The first branch that accepts -/

theorem findBranch_of_first {accepts : Node → Except CelError Bool} {branches : List Node} {i : Nat} {b : Node}
    (hi : branches[i]? = some b) (hb : accepts b = .ok true)
    (hbefore : ∀ j < i, ∀ b', branches[j]? = some b' → accepts b' = .ok false) :
    findBranch accepts branches = .ok (some b) := by
  induction branches generalizing i with
  | nil => cases hi
  | cons b' branches ih =>
    cases i with
    | zero =>
      cases hi
      simp only [findBranch, hb]
      rfl
    | succ i =>
      have hfalse := hbefore 0 (Nat.succ_pos i) b' rfl
      have hrest := ih hi fun j hj b'' hget => hbefore (j + 1) (Nat.succ_lt_succ hj) b'' hget
      simp only [findBranch, hfalse]
      exact hrest

theorem findBranch_of_none {accepts : Node → Except CelError Bool} {branches : List Node}
    (h : ∀ b ∈ branches, accepts b = .ok false) : findBranch accepts branches = .ok none := by
  induction branches with
  | nil => rfl
  | cons b branches ih =>
    simp only [findBranch, h b List.mem_cons_self]
    exact ih fun b' hb' => h b' (List.mem_cons_of_mem _ hb')

section

variable {lib : Library} {ns : String} {branches : List Node} {i : Nat} {b : Node} {v c : Value}

theorem picks_of_first (hv : Legible v) (htag : isTagged v = false) (hnull : v.isNull = false)
    (hi : branches[i]? = some b)
    (hb : accepts (resolved lib ns b) v = true)
    (hbefore : ∀ j < i, ∀ b', branches[j]? = some b' → accepts (resolved lib ns b') v = false) :
    pickAvroUnionBranch lib.types ns branches v = .ok (some b) ∧ pickAvroWriteBranch lib.types ns branches
      v = .ok b := by
  have hfind : findBranch (fun b => avroBranchAccepts lib.types ns b v) branches = .ok (some b) := by
    refine findBranch_of_first hi ?_ fun j hj b' hget => ?_
    · rw [avroBranchAccepts_eq hv htag]
      exact congrArg Except.ok hb
    · rw [avroBranchAccepts_eq hv htag]
      exact congrArg Except.ok (hbefore j hj b' hget)
  constructor
  · simp only [pickAvroUnionBranch, hnull, hfind]
    rfl
  · simp only [pickAvroWriteBranch, hfind]
    rfl

theorem picks_of_none (hv : Legible v) (htag : isTagged v = false) (hnull : v.isNull = false)
    (hnone : ∀ b ∈ branches, accepts (resolved lib ns b) v = false)
    (hfilter : (branches.filter fun b => !isNullBranch b) = [b]) :
    pickAvroUnionBranch lib.types ns branches v = .ok (some b) ∧ pickAvroWriteBranch lib.types ns branches
      v = .ok b := by
  have hfind : findBranch (fun b => avroBranchAccepts lib.types ns b v) branches = .ok none := by
    refine findBranch_of_none fun b hb => ?_
    rw [avroBranchAccepts_eq hv htag]
    exact congrArg Except.ok (hnone b hb)
  have hfirst : branches.find? (fun b => !isNullBranch b) = some b := by
    rw [← List.head?_filter, hfilter]
    rfl
  constructor
  · simp only [pickAvroUnionBranch, hnull, hfind]
    show Except.ok (none.or (branches.find? fun b => !isNullBranch b)) = _
    rw [hfirst]
    rfl
  · simp only [pickAvroWriteBranch, hfind]
    simp only [Except.bind, bind, hfilter]
    rfl

end

/-! ## Branches and the library -/

theorem not_isVariant_of_typeName {node : Node} {t : TypeName} (h : node.typeName = some t) (ht : t ≠ .record) :
    node.isVariant = false := by
  cases node with
  | record =>
    cases h
    exact absurd rfl ht
  | _ => rfl

theorem takes_of_bucket {node : Node} {t : TypeName} {v : Value} (h : node.typeName = some t) (ht : t ≠ .record)
    (hv : v.bucket = some t.bucket) : takes node v = true := by
  simp [takes, not_isVariant_of_typeName h ht, h, hv]

theorem typeName_of_isNullBranch {node : Node} (h : isNullBranch node = true) :
    node.typeName = some (.primitive .null) := by
  unfold isNullBranch at h
  split at h
  · rfl
  · rfl
  · cases h

def Kind.bucket : Kind → Bucket
  | .null => .null
  | .boolean => .boolean
  | .number => .number
  | .string _ => .string
  | .buffer => .buffer
  | .array => .array
  | .object _ => .object
  | .variant => .object

theorem bucket_eq_kind {v : Value} (h : v.bucket.isSome = true) : v.bucket = some v.kind.bucket := by
  cases v <;> first | rfl | cases h

theorem bucket_of_acceptsPrimitive {type : Primitive} {c : Value} (h : acceptsPrimitive type c = true) :
    c.kind.bucket = (TypeName.primitive type).bucket := by
  cases type <;> cases c <;> simp_all [acceptsPrimitive, Value.kind, Kind.bucket, TypeName.bucket]

/-- A shape that is accepted has the bucket of its type, or is a structure. -/
theorem bucket_of_acceptsShape {node : Node} {c : Value} (h : acceptsShape node c = true) :
    (∃ t, node.typeName = some t ∧ t ≠ .record ∧ c.kind.bucket = t.bucket) ∨
      (isStructNode node = true ∧ isCelStruct c = true) := by
  unfold acceptsShape at h
  split at h
  case h_1 type htype => exact .inl ⟨_, htype, nofun, bucket_of_acceptsPrimitive h⟩
  case h_2 htype =>
    cases c with
    | string s => exact .inl ⟨_, htype, nofun, rfl⟩
    | _ => cases h
  case h_3 htype =>
    cases c with
    | bytes bs => exact .inl ⟨_, htype, nofun, rfl⟩
    | _ => cases h
  case h_4 htype =>
    cases c with
    | array elems => exact .inl ⟨_, htype, nofun, rfl⟩
    | _ => cases h
  case h_5 htype => exact .inr ⟨by simp [isStructNode, htype], h⟩
  case h_6 htype => exact .inr ⟨by simp [isStructNode, htype], h⟩
  case h_7 => cases h

theorem takes_or_struct_of_shape {node : Node} {v c : Value} (hkind : c.kind = v.kind) (hv : v.bucket.isSome = true)
    (hstruct : isCelStruct c = true → isCelStruct v = true) (h : acceptsShape node c = true) :
    takes node v = true ∨ (isStructNode node = true ∧ isCelStruct v = true) := by
  obtain ⟨t, ht, hne, hbucket⟩ | ⟨hnode, hc⟩ := bucket_of_acceptsShape h
  · left
    refine takes_of_bucket ht hne ?_
    rw [bucket_eq_kind hv, ← hkind, hbucket]
  · exact .inr ⟨hnode, hstruct hc⟩

/-- A branch that accepts a value, or what a rule sees of it, is one that the library considers, or one for
structures. -/
theorem takes_or_struct {node : Node} {v c : Value} (hkind : c.kind = v.kind) (hv : v.bucket.isSome = true)
    (h : accepts node c = true) : takes node v = true ∨ (isStructNode node = true ∧ isCelStruct v = true) := by
  have hbucket : ∀ {t}, node.typeName = some t → t ≠ .record → c.kind.bucket = t.bucket → takes node v = true := by
    intro t ht hne hc
    refine takes_of_bucket ht hne ?_
    rw [bucket_eq_kind hv, ← hkind, hc]
  cases c with
  | null => exact .inl (hbucket (typeName_of_isNullBranch h) nofun rfl)
  | decimal p =>
    simp only [accepts, Bool.and_eq_true, Bool.or_eq_true, decide_eq_true_eq] at h
    obtain hbytes | hfixed := h.2
    · exact .inl (hbucket hbytes nofun rfl)
    · exact .inl (hbucket hfixed nofun rfl)
  | timestamp ts =>
    simp only [accepts, Bool.and_eq_true, Bool.or_eq_true, decide_eq_true_eq] at h
    obtain hlong | hint := h.1
    · exact .inl (hbucket hlong nofun rfl)
    · exact .inl (hbucket hint nofun rfl)
  | variant u =>
    cases v with
    | variant u' => exact .inl (by simp [takes, show node.isVariant = true from h])
    | variantMessage => cases hv
    | _ => cases hkind
  | variantMessage value metadata =>
    cases v with
    | variant u' => exact .inl (by simp [takes, show node.isVariant = true from h])
    | variantMessage => cases hv
    | _ => cases hkind
  | bytes bs =>
    refine takes_or_struct_of_shape hkind hv (fun _ => ?_) h
    cases v with
    | bytes bs' => rfl
    | decimal => cases hv
    | _ => cases hkind
  | object props =>
    refine takes_or_struct_of_shape hkind hv (fun _ => ?_) h
    cases v with
    | object props' => rfl
    | _ => cases hkind
  | _ => exact takes_or_struct_of_shape hkind hv (fun hstruct => nomatch hstruct) h

end Cel

end ConfluentKafka
