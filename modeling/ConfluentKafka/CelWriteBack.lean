import ConfluentKafka.CelBranches

/-!
# Data come back from rules

A datum that is not disturbed is converted for rules and back to one that stands for the same logical
value.
-/

namespace ConfluentKafka

namespace Cel

variable {lib : Library} {env : Setting}

/-- What a rule sees of a value is of the same kind, and the branch of the value accepts it. -/
structure Alike (lib : Library) (ns : String) (node : Node) (v c : Value) : Prop where
  kind : c.kind = v.kind
  legible : Legible c
  accepted : (resolved lib ns node).typeName.isSome = true → v.isNull = false →
    accepts (resolved lib ns node) c = true

/-- What comes back is considered by no other branch than the value. -/
structure Back (v w : Value) : Prop where
  bucket : w.bucket = v.bucket
  taken : ∀ node, takes node w = true → takes node v = true

theorem Back.refl (v : Value) : Back v v :=
  ⟨rfl, fun _ h => h⟩

def Kept (lib : Library) (env : Setting) (ns : String) (node : Node) (v : Value) (l : Logical) : Prop :=
  ∃ c w, Yields (fun fuel => avroToCel env fuel node ns v) c ∧ Yields (fun fuel => celToAvro env fuel node ns c) w ∧
    Denotes lib ns node w l ∧ Alike lib ns node v c ∧ Back v w

/-! ## Null -/

theorem avroToCel_null (ns : String) (node : Node) : Yields (fun fuel => avroToCel env fuel node ns .null) .null :=
  Yields.of_succ (Yields.of_ok fun _ => rfl)

theorem celToAvro_null (ns : String) (node : Node) : Yields (fun fuel => celToAvro env fuel node ns .null) .null :=
  Yields.of_succ (Yields.of_ok fun _ => rfl)

theorem kept_null {ns : String} {node : Node} {l : Logical} (h : Denotes lib ns node .null l) :
    Kept lib env ns node .null l :=
  ⟨.null, .null, avroToCel_null ns node, celToAvro_null ns node, h, ⟨rfl, trivial, fun _ hnull => nomatch hnull⟩,
    Back.refl _⟩

/-! ## Scalars -/

def IsScalar : Node → Prop
  | .name _ => True
  | .primitive _ _ => True
  | .enum _ _ _ => True
  | .fixed _ _ _ _ => True
  | _ => False

theorem avroToCel_scalar {ns : String} {node : Node} {v : Value}
    (hnode : IsScalar (resolveAvroNode env.named ns node))
    (hnull : v.isNull = false) (fuel : Nat) :
    avroToCel env (fuel + 1) node ns v = avroScalarToCel env (resolveAvroNode env.named ns node) v := by
  simp only [avroToCel, hnull, Bool.false_eq_true, if_false]
  cases hres : resolveAvroNode env.named ns node <;> first | rfl | (rw [hres] at hnode; cases hnode)

theorem celToAvro_scalar {ns : String} {node : Node} {v : Value}
    (hnode : IsScalar (resolveAvroNode env.named ns node))
    (hnull : v.isNull = false) (fuel : Nat) :
    celToAvro env (fuel + 1) node ns v = celScalarToAvro (resolveAvroNode env.named ns node) v := by
  simp only [celToAvro, hnull, Bool.false_eq_true, if_false]
  cases hres : resolveAvroNode env.named ns node <;> first | rfl | (rw [hres] at hnode; cases hnode)

theorem kept_scalar (henv : env.named = lib.types) {ns : String} {node : Node} {v c w : Value} {l : Logical}
    (hnode : IsScalar (resolved lib ns node)) (hnull : v.isNull = false)
    (hc : avroScalarToCel env (resolved lib ns node) v = .ok c)
    (hw : celScalarToAvro (resolved lib ns node) c = .ok w)
    (hkind : c.kind = v.kind) (hlegible : Legible c) (haccepts : accepts (resolved lib ns node) c = true)
    (hback : Back v w) (h : Denotes lib ns node w l) : Kept lib env ns node v l := by
  unfold resolved at hnode hc hw
  rw [← henv] at hnode hc hw
  refine ⟨c, w, Yields.of_succ (Yields.of_ok fun fuel => ?_), Yields.of_succ (Yields.of_ok fun fuel => ?_), h,
    ⟨hkind, hlegible, fun _ _ => haccepts⟩, hback⟩
  · exact (avroToCel_scalar hnode hnull fuel).trans hc
  · exact (celToAvro_scalar hnode ((isNull_eq_of_kind hkind).trans hnull) fuel).trans hw

theorem avroScalarToCel_plain {node : Node} (hts : isTimestampLogicalType node.logicalType = false)
    (hdecimal : isDecimalLogicalType node.logicalType = false) (v : Value) :
    avroScalarToCel env node v = .ok (avroIntegerToCel node.typeName v) := by
  unfold avroScalarToCel
  split
  · rename_i hl
    rw [hl] at hdecimal
    cases hdecimal
  · rename_i hl
    rw [hl] at hts
    cases hts
  · rfl

theorem celScalarToAvro_plain {node : Node} (hts : isTimestampLogicalType node.logicalType = false)
    (hdecimal : isDecimalLogicalType node.logicalType = false) {v : Value}
    (h : isIntegerType node.typeName = true ∨ celIntegerToAvro v = v) :
    celScalarToAvro node v = .ok (celIntegerToAvro v) := by
  unfold celScalarToAvro
  split
  · rename_i hl
    rw [hl] at hdecimal
    cases hdecimal
  · rename_i hl
    rw [hl] at hts
    cases hts
  · split
    · rfl
    · obtain htype | hsame := h
      · rw [if_pos htype]
        rfl
      · rw [hsame, ite_self]
        rfl

theorem avroScalarToCel_decimal {node : Node} {scale : Option Nat} (hl : node.logicalType = some (.decimal scale))
    {v : Value}
    (hv : ∀ bs, v ≠ .bytes bs) : avroScalarToCel env node v = .ok v := by
  simp only [avroScalarToCel, hl]
  cases v with
  | bytes bs => exact absurd rfl (hv bs)
  | _ => rfl

theorem celScalarToAvro_decimal {node : Node} {scale : Option Nat} (hl : node.logicalType = some (.decimal scale))
    {v : Value}
    (hv : ∀ p, v ≠ .decimal p) : celScalarToAvro node v = .ok v := by
  simp only [celScalarToAvro, hl]
  cases v with
  | decimal p => exact absurd rfl (hv p)
  | _ => rfl

theorem exists_scale {t : Option LogicalType} (h : isDecimalLogicalType t = true) :
    ∃ scale, t = some (.decimal scale) := by
  unfold isDecimalLogicalType at h
  split at h
  · exact ⟨_, rfl⟩
  · cases h

/-- A value that is no integer or bytes of a type for them stays as it is. -/
theorem scalar_unchanged (env : Setting) {node : Node} {v : Value}
    (hts : isTimestampLogicalType node.logicalType = false)
    (hdecimal : isDecimalLogicalType node.logicalType = true → ∀ bs, v ≠ .bytes bs)
    (hint : isIntegerType node.typeName = true → ∀ n, v ≠ .integer n) (hv : v.bucket.isSome = true) :
    avroScalarToCel env node v = .ok v ∧ celScalarToAvro node v = .ok v := by
  have hinteger : avroIntegerToCel node.typeName v = v := by
    unfold avroIntegerToCel
    split_ifs with htype
    · cases v with
      | integer n => exact absurd rfl (hint htype n)
      | _ => rfl
    · rfl
  have hback : celIntegerToAvro v = v := by
    cases v with
    | bigint n => cases hv
    | _ => rfl
  cases hl : isDecimalLogicalType node.logicalType with
  | false =>
    constructor
    · rw [avroScalarToCel_plain hts hl, hinteger]
    · rw [celScalarToAvro_plain hts hl (.inr hback), hback]
  | true =>
    obtain ⟨scale, hscale⟩ := exists_scale hl
    refine ⟨avroScalarToCel_decimal hscale (hdecimal hl), celScalarToAvro_decimal hscale ?_⟩
    rintro p rfl
    cases hv

theorem legible_of_bucket {v : Value} (h : v.bucket.isSome = true) : Legible v := by
  cases v with
  | variantMessage => cases h
  | _ => trivial

theorem kept_unchanged (henv : env.named = lib.types) {ns : String} {node : Node} {v : Value} {l : Logical}
    (hnode : IsScalar (resolved lib ns node)) (hnull : v.isNull = false)
    (hts : isTimestampLogicalType (resolved lib ns node).logicalType = false)
    (hdecimal : isDecimalLogicalType (resolved lib ns node).logicalType = true → ∀ bs, v ≠ .bytes bs)
    (hint : isIntegerType (resolved lib ns node).typeName = true → ∀ n, v ≠ .integer n)
    (hv : v.bucket.isSome = true)
    (haccepts : accepts (resolved lib ns node) v = true) (h : Denotes lib ns node v l) :
      Kept lib env ns node v l := by
  have hsame := scalar_unchanged env hts hdecimal hint hv
  exact kept_scalar henv hnode hnull hsame.1 hsame.2 rfl (legible_of_bucket hv) haccepts (Back.refl v) h

theorem not_timestamp {ns : String} {node : Node} {v : Value} (hk : ¬Disturbed lib ns node v)
    (hnull : v.isNull = false)
    (htype : isIntegerType node.typeName = false) : isTimestampLogicalType node.logicalType = false := by
  cases ht : node.logicalType with
  | none => rfl
  | some t =>
    cases t with
    | timestamp unit => exact absurd (.timestampType ht htype hnull) hk
    | _ => rfl

theorem safe_of_fitsInt {n : Int} (h : fitsInt n = true) : -MAX_SAFE_INTEGER ≤ n ∧ n ≤ MAX_SAFE_INTEGER := by
  simp only [fitsInt, decide_eq_true_eq] at h
  simp only [MAX_SAFE_INTEGER]
  omega

/-- An integer is a big integer or a timestamp for a rule, and itself if it is said to be a decimal. -/
theorem kept_integer (henv : env.named = lib.types) {ns : String} {node : Node} {n : Int} {l : Logical}
    (hnode : IsScalar (resolved lib ns node)) (hk : ¬Disturbed lib ns (resolved lib ns node) (.integer n))
    (htype : isIntegerType (resolved lib ns node).typeName = true) (hsafe : -MAX_SAFE_INTEGER ≤ n ∧
      n ≤ MAX_SAFE_INTEGER)
    (hinteger : acceptsShape (resolved lib ns node) (.integer n) = true)
    (hbigint : acceptsShape (resolved lib ns node) (.bigint n) = true) (h : Denotes lib ns node (.integer n) l) :
    Kept lib env ns node (.integer n) l := by
  cases hts : isTimestampLogicalType (resolved lib ns node).logicalType with
  | true =>
    obtain ⟨unit, hunit⟩ : ∃ unit, (resolved lib ns node).logicalType = some (.timestamp unit) := by
      unfold isTimestampLogicalType at hts
      split at hts
      · exact ⟨_, by assumption⟩
      · cases hts
    have hrange : InRange unit n := by
      by_contra hout
      exact hk (.timestampRange hunit hout)
    refine kept_scalar henv hnode rfl (c := .timestamp ⟨n / unit.perSecond, n % unit.perSecond * unit.nanosPerUnit⟩)
      (w := .integer n) ?_ ?_ rfl trivial ?_ (Back.refl _) h
    · simp only [avroScalarToCel, hunit, avroTimestampToCel, wholeOf, fromEpoch_eq hrange]
      rfl
    · simp only [celScalarToAvro, hunit, isCelTimestamp, timestampOf, pure_bind, timestampToEpoch_eq hsafe]
      rfl
    · have hlong : ((resolved lib ns node).typeName = some (.primitive .long) ∨
          (resolved lib ns node).typeName = some (.primitive .int)) := by
        unfold isIntegerType at htype
        split at htype
        · exact .inr (by assumption)
        · exact .inl (by assumption)
        · cases htype
      simp [accepts, hunit, isTemporalLogicalType, hlong]
  | false =>
    cases hl : isDecimalLogicalType (resolved lib ns node).logicalType with
    | false =>
      have hcel : avroIntegerToCel (resolved lib ns node).typeName (.integer n) = .bigint n := by
        simp [avroIntegerToCel, htype]
      refine kept_scalar henv hnode rfl (c := .bigint n) (w := .integer n) ?_ ?_ rfl trivial hbigint (Back.refl _) h
      · rw [avroScalarToCel_plain hts hl, hcel]
      · rw [celScalarToAvro_plain hts hl (.inl htype)]
        rfl
    | true =>
      obtain ⟨scale, hscale⟩ := exists_scale hl
      exact kept_scalar henv hnode rfl (avroScalarToCel_decimal hscale (by simp))
        (celScalarToAvro_decimal hscale (by simp))
        rfl trivial hinteger (Back.refl _) h

theorem kept_decimal (henv : env.named = lib.types) {ns : String} {node : Node} {scale : Option Nat} {bs : Bytes}
    {l : Logical} (hnode : IsScalar (resolved lib ns node))
    (hk : ¬Disturbed lib ns (resolved lib ns node) (.bytes bs))
    (hscale : (resolved lib ns node).logicalType = some (.decimal scale))
    (htype : (resolved lib ns node).typeName = some (.primitive .bytes) ∨
      (resolved lib ns node).typeName = some .fixed)
    (h : Denotes lib ns node (.bytes (bigIntToTwosComplementBytes (bytesToBigIntSigned bs))) l) :
    Kept lib env ns node (.bytes bs) l := by
  have hnarrow : Narrow bs (scale.getD 0) := by
    by_contra hwide
    exact hk (.wide hscale hwide)
  refine kept_scalar henv hnode rfl (c := .decimal ⟨bigIntToTwosComplementBytes (bytesToBigIntSigned bs),
    scale.getD 0⟩)
    (w := .bytes (bigIntToTwosComplementBytes (bytesToBigIntSigned bs))) ?_ ?_ rfl trivial ?_
      ⟨rfl, fun _ h' => h'⟩ h
  · simp only [avroScalarToCel, hscale, decimalFromBytesScale_eq hnarrow]
    rfl
  · simp only [celScalarToAvro, hscale, decimalToAvroBytes_eq hnarrow]
    rfl
  · simp [accepts, hscale, isDecimalLogicalType, htype]

theorem kept_number (henv : env.named = lib.types) {ns : String} {node : Node} {v : Value} {l : Logical}
    (hnode : IsScalar (resolved lib ns node)) (hk : ¬Disturbed lib ns (resolved lib ns node) v)
    (hv : v.isNumber = true) (htype : isIntegerType (resolved lib ns node).typeName = false)
    (hshape : acceptsShape (resolved lib ns node) v = true) (h : Denotes lib ns node v l) :
      Kept lib env ns node v l := by
  have hnot : isIntegerType (resolved lib ns node).typeName = true → ∀ n, v ≠ .integer n := by
    rw [htype]
    exact fun hfalse => nomatch hfalse
  cases v with
  | integer n => exact kept_unchanged henv hnode rfl (not_timestamp hk rfl htype) (fun _ => nofun) hnot rfl hshape h
  | fraction whole id =>
    exact kept_unchanged henv hnode rfl (not_timestamp hk rfl htype) (fun _ => nofun) hnot rfl hshape h
  | nonFinite id =>
    exact kept_unchanged henv hnode rfl (not_timestamp hk rfl htype) (fun _ => nofun) hnot rfl hshape h
  | _ => cases hv

theorem acceptsPrimitive_number {type : Primitive} (htype : type = .float ∨ type = .double) {v : Value}
    (hv : v.isNumber = true) : acceptsPrimitive type v = true := by
  obtain rfl | rfl := htype
  · cases v <;> first | rfl | cases hv
  · cases v <;> first | rfl | cases hv

theorem kept_primitive (henv : env.named = lib.types) {ns : String} {node : Node} {type : Primitive}
    {t : Option LogicalType} {v : Value} {l : Logical} (hnode : IsScalar (resolved lib ns node))
    (htype : (resolved lib ns node).typeName = some (.primitive type)) (ht : (resolved lib ns node).logicalType = t)
    (hk : ¬Disturbed lib ns (resolved lib ns node) v)
    (hd : ∀ {w}, DenotesPrimitive type t w l → Denotes lib ns node w l) (h : DenotesPrimitive type t v l) :
    Kept lib env ns node v l := by
  have hshape : ∀ u, acceptsShape (resolved lib ns node) u = acceptsPrimitive type u := by
    intro u
    simp only [acceptsShape, htype]
  cases h with
  | null => exact kept_null (hd .null)
  | boolean =>
    refine kept_unchanged henv hnode rfl (not_timestamp hk rfl ?_) (fun _ => nofun)
      (fun _ => nofun) rfl ?_ (hd .boolean)
    · rw [htype]
      rfl
    · exact hshape _
  | int hfits =>
    refine kept_integer henv hnode hk ?_ (safe_of_fitsInt hfits) ((hshape _).trans hfits) ((hshape _).trans hfits)
      (hd (.int hfits))
    rw [htype]
    rfl
  | long hsafe =>
    refine kept_integer henv hnode hk ?_ hsafe (hshape _) (hshape _) (hd (.long hsafe))
    rw [htype]
    rfl
  | float hnumber =>
    refine kept_number henv hnode hk hnumber ?_ ((hshape v).trans (acceptsPrimitive_number (.inl rfl) hnumber))
      (hd (.float hnumber))
    rw [htype]
    rfl
  | double hnumber =>
    refine kept_number henv hnode hk hnumber ?_ ((hshape v).trans (acceptsPrimitive_number (.inr rfl) hnumber))
      (hd (.double hnumber))
    rw [htype]
    rfl
  | bytes hdecimal =>
    refine kept_unchanged henv hnode rfl (not_timestamp hk rfl ?_) ?_ (fun _ => nofun) rfl (hshape _)
      (hd (.bytes hdecimal))
    · rw [htype]
      rfl
    · rw [ht, hdecimal]
      exact fun hfalse => nomatch hfalse
  | @decimal scale bs =>
    have hback := @DenotesPrimitive.decimal scale (bigIntToTwosComplementBytes (bytesToBigIntSigned bs))
    rw [bytesToBigIntSigned_bigIntToTwosComplementBytes] at hback
    exact kept_decimal henv hnode hk ht (.inl htype) (hd hback)
  | string =>
    refine kept_unchanged henv hnode rfl (not_timestamp hk rfl ?_) (fun _ => nofun) (fun _ => nofun) rfl
      (hshape _) (hd .string)
    rw [htype]
    rfl

/-! ## Variants -/

/-- The constructor looks at the metadata only. -/
theorem new_eq_of_ok {value metadata : Bytes} {pos : Int} {u : Variant} (h : Variant.new value metadata pos = .ok u)
    (value' : Bytes) : metadata ≠ [] ∧ Variant.new value' metadata 0 = .ok ⟨value', metadata, 0⟩ := by
  refine ⟨?_, ?_⟩
  · rintro rfl
    cases h
  · unfold Variant.new at h ⊢
    cases hcheck : checkIndex 0 metadata.length with
    | error e =>
      rw [hcheck] at h
      cases h
    | ok _ =>
      rw [hcheck] at h
      cases hbyte : byteAt metadata 0 with
      | error e =>
        rw [hbyte] at h
        cases h
      | ok header =>
        rw [hbyte] at h
        by_cases hv : header % 16 ≠ VariantFormat.VERSION
        · simp only [bind, Except.bind, if_pos hv] at h
          cases h
        · simp only [bind, Except.bind, if_neg hv]
          rfl

theorem kept_variant {ns name : String} {nspace : Option String} {fields : List Field} {v u : Variant}
    (hv : Variant.new v.value v.metadata v.pos = .ok u) :
    Kept lib env ns (.record name nspace true fields) (.variant v)
      (.variant (standaloneValueBytes v) v.metadata) := by
  obtain ⟨hne, hnew⟩ := new_eq_of_ok hv (standaloneValueBytes v)
  have hread : newVariant (standaloneValueBytes v) v.metadata = .ok ⟨standaloneValueBytes v, v.metadata, 0⟩ := by
    simp only [newVariant, hnew]
  refine ⟨variantToCel v, .variant ⟨standaloneValueBytes v, v.metadata, 0⟩, Yields.of_succ
    (Yields.of_ok fun fuel => rfl),
    Yields.of_succ (Yields.of_ok fun fuel => ?_), .variant (v := ⟨standaloneValueBytes v, v.metadata, 0⟩) hnew,
    ⟨rfl, ⟨hne, _, hread⟩, fun _ _ => rfl⟩, ⟨rfl, fun _ h => h⟩⟩
  show celVariantToAvro (variantToCel v) = _
  simp only [celVariantToAvro, variantToCel, tryReader, if_neg hne, hread]
  rfl

/-! ## Enums and fixed bytes -/

theorem kept_enum (henv : env.named = lib.types) {ns name s : String} {nspace : Option String}
    {symbols : List String}
    (h : s ∈ symbols) :
    Kept lib env ns (.enum name nspace symbols) (.string s) (.plain (.string s)) := by
  refine kept_unchanged henv trivial rfl rfl (fun _ => nofun) (fun _ => nofun) rfl ?_ (.enum h)
  exact decide_eq_true h

theorem kept_fixed (henv : env.named = lib.types) {ns name : String} {nspace : Option String} {size : Nat}
    {t : Option LogicalType} {bs : Bytes} (hk : ¬Disturbed lib ns (.fixed name nspace size t) (.bytes bs))
    (ht : isDecimalLogicalType t = false) (hsize : bs.length = size) :
    Kept lib env ns (.fixed name nspace size t) (.bytes bs) (.plain (.bytes bs)) := by
  refine kept_unchanged henv trivial rfl (not_timestamp hk rfl rfl) ?_ (fun _ => nofun) rfl ?_ (.fixed ht hsize)
  · intro hdecimal
    exact absurd hdecimal (by simp [resolved, resolveAvroNode, Node.logicalType, ht])
  · simp [accepts, acceptsShape, resolved, resolveAvroNode, Node.typeName, Node.size, hsize]

theorem kept_fixedDecimal (henv : env.named = lib.types) {ns name : String} {nspace : Option String} {size : Nat}
    {scale : Option Nat} {bs : Bytes}
    (hk : ¬Disturbed lib ns (.fixed name nspace size (some (.decimal scale))) (.bytes bs)) :
    Kept lib env ns (.fixed name nspace size (some (.decimal scale))) (.bytes bs)
      (.decimal (bytesToBigIntSigned bs)) := by
  have hlength : (bigIntToTwosComplementBytes (bytesToBigIntSigned bs)).length = size := by
    by_contra hne
    exact hk (.fixedSize hne)
  have hback := @Denotes.fixedDecimal lib ns name nspace size scale _ hlength
  rw [bytesToBigIntSigned_bigIntToTwosComplementBytes] at hback
  exact kept_decimal henv trivial hk rfl (.inr rfl) hback

/-! ## Names -/

/-- The index of the definitions: names of primitive types are not defined in any namespace. -/
structure Registry (types : String → Option Node) : Prop where
  defined : ∀ {s t : String}, types s ≠ some (.name t)
  primitives : ∀ (ns : String) {s : String} {type : Primitive}, TypeName.ofName s = some (.primitive type) →
    types s = none ∧ types (ns ++ "." ++ s) = none

section

variable {ns : String}

theorem resolved_of_qualify {s : String} {node : Node} (hs : lib.types (Avro.qualify ns s) = some node) :
    resolved lib ns (.name s) = node := by
  unfold Avro.qualify at hs
  simp only [resolved, resolveAvroNode]
  split at hs
  · rename_i h
    rw [if_pos h, hs, Option.getD_some]
  · rename_i h
    rw [if_neg h, hs, Option.getD_some]

theorem resolved_of_defined {node : Node} (h : ∀ t, node ≠ .name t) : resolved lib ns node = node := by
  cases node with
  | name t => exact absurd rfl (h t)
  | _ => rfl

theorem Registry.resolved_named (hreg : Registry lib.types) {s : String} {node : Node}
    (hs : lib.types (Avro.qualify ns s) = some node) : resolved lib ns node = node := by
  refine resolved_of_defined fun t heq => ?_
  exact hreg.defined (hs.trans (congrArg some heq))

theorem Registry.resolved_primitive (hreg : Registry lib.types) {s : String} {type : Primitive}
    (hs : TypeName.ofName s = some (.primitive type)) : resolved lib ns (.name s) = .name s := by
  obtain ⟨hplain, hqualified⟩ := hreg.primitives ns hs
  simp only [resolved, resolveAvroNode, hplain, hqualified, Option.getD_none, ite_self]

theorem avroToCel_congr {a b : Node} (h : resolveAvroNode env.named ns a = resolveAvroNode env.named ns b)
    (fuel : Nat)
    (v : Value) : avroToCel env fuel a ns v = avroToCel env fuel b ns v := by
  cases fuel with
  | zero => rfl
  | succ fuel => simp only [avroToCel, h]

theorem celToAvro_congr {a b : Node} (h : resolveAvroNode env.named ns a = resolveAvroNode env.named ns b)
    (fuel : Nat)
    (v : Value) : celToAvro env fuel a ns v = celToAvro env fuel b ns v := by
  cases fuel with
  | zero => rfl
  | succ fuel => simp only [celToAvro, h]

theorem kept_named (hreg : Registry lib.types) (henv : env.named = lib.types) {s : String} {node : Node} {v : Value}
    {l : Logical} (hs : lib.types (Avro.qualify ns s) = some node) (h : Kept lib env ns node v l) :
    Kept lib env ns (.name s) v l := by
  have hres : resolved lib ns (.name s) = resolved lib ns node :=
    (resolved_of_qualify hs).trans (hreg.resolved_named hs).symm
  have henv' : resolveAvroNode env.named ns (.name s) = resolveAvroNode env.named ns node := by
    rw [henv]
    exact hres
  obtain ⟨c, w, hc, hw, hd, ⟨hkind, hlegible, haccepts⟩, hback⟩ := h
  refine ⟨c, w, ?_, ?_, .named hs hd, ⟨hkind, hlegible, ?_⟩, hback⟩
  · simpa only [avroToCel_congr henv'] using hc
  · simpa only [celToAvro_congr henv'] using hw
  · rwa [hres]

end

/-! ## Arrays and maps -/

section

variable {ns : String}

theorem kept_array {items : Node} {elems cs ws : List Value} {ls : List Logical}
    (hc : Yields (fun fuel => elems.mapM (avroToCel env fuel items ns)) cs)
    (hw : Yields (fun fuel => cs.mapM (celToAvro env fuel items ns)) ws) (hd : DenotesElems lib ns items ws ls) :
    Kept lib env ns (.array items) (.array elems) (.array ls) := by
  refine ⟨.array cs, .array ws, Yields.of_succ (Yields.map Value.array hc), Yields.of_succ
    (Yields.map Value.array hw),
    .array hd, ⟨rfl, trivial, fun _ _ => rfl⟩, ⟨rfl, fun _ h => h⟩⟩

def SameKinds (props props' : List (String × Value)) : Prop :=
  ∀ k, (props'.lookup k).map Value.kind = (props.lookup k).map Value.kind

theorem SameKinds.refl (props : List (String × Value)) : SameKinds props props :=
  fun _ => rfl

theorem SameKinds.trans {props props' props'' : List (String × Value)} (h : SameKinds props props')
    (h' : SameKinds props' props'') : SameKinds props props'' :=
  fun k => (h' k).trans (h k)

theorem SameKinds.kind {props props' : List (String × Value)} (h : SameKinds props props') :
    (Value.object props').kind = (Value.object props).kind := by
  have hk := h "$typeName"
  simp only [Value.kind, typeTag]
  cases hv : props.lookup "$typeName" with
  | none =>
    rw [hv, Option.map_none, Option.map_eq_none_iff] at hk
    rw [hk]
  | some v =>
    rw [hv, Option.map_some, Option.map_eq_some_iff] at hk
    obtain ⟨c, hc, hkind⟩ := hk
    rw [hc]
    cases v <;> cases c <;> simp_all [Value.kind]

def PropsBack (props props' : List (String × Value)) : Prop :=
  ∀ k w, props'.lookup k = some w → ∃ v, props.lookup k = some v ∧ Back v w

theorem bytes_of_back {v : Value} {bs : Bytes} (h : Back v (.bytes bs)) : ∃ bs', v = .bytes bs' := by
  have hb := h.bucket
  cases v <;> first | exact ⟨_, rfl⟩ | cases hb

theorem isRawVariant_iff {props : List (String × Value)} :
    isRawVariant props = true ↔
      (∃ bs, props.lookup "metadata" = some (.bytes bs)) ∧ ∃ bs, props.lookup "value" = some (.bytes bs) := by
  unfold isRawVariant
  constructor
  · intro h
    split at h
    · rename_i hm hv
      exact ⟨⟨_, hm⟩, ⟨_, hv⟩⟩
    · cases h
  · rintro ⟨⟨_, hm⟩, ⟨_, hv⟩⟩
    rw [hm, hv]

theorem PropsBack.lookup_bytes {props props' : List (String × Value)} (h : PropsBack props props') {k : String}
    (hk : ∃ bs, props'.lookup k = some (.bytes bs)) : ∃ bs, props.lookup k = some (.bytes bs) := by
  obtain ⟨bs, hbs⟩ := hk
  obtain ⟨v, hv, hback⟩ := h k _ hbs
  obtain ⟨bs', rfl⟩ := bytes_of_back hback
  exact ⟨bs', hv⟩

theorem PropsBack.back {props props' : List (String × Value)} (h : PropsBack props props') :
    Back (.object props) (.object props') := by
  refine ⟨rfl, fun node ht => ?_⟩
  simp only [takes] at ht ⊢
  split at ht
  · rename_i hv
    rw [if_pos hv]
    obtain ⟨hm, hvalue⟩ := isRawVariant_iff.mp ht
    exact isRawVariant_iff.mpr ⟨h.lookup_bytes hm, h.lookup_bytes hvalue⟩
  · rename_i hv
    rwa [if_neg hv]

theorem kept_map {values : Node} {props cs ws : List (String × Value)} {ls : List (String × Logical)}
    (hc : Yields (fun fuel => props.mapM (convertEntry (avroToCel env fuel values ns))) cs)
    (hw : Yields (fun fuel => cs.mapM (convertEntry (celToAvro env fuel values ns))) ws)
    (hd : DenotesEntries lib ns values ws ls) (hkinds : SameKinds props cs) (hback : PropsBack props ws) :
    Kept lib env ns (.map values) (.object props) (.map ls) :=
  ⟨.object cs, .object ws, Yields.of_succ (Yields.map Value.object hc), Yields.of_succ (Yields.map Value.object hw),
    .map hd, ⟨hkinds.kind, trivial, fun _ _ => rfl⟩, hback.back⟩

theorem yields_convertEntry {convert : Nat → Value → Except CelError Value} {k : String} {v c : Value}
    (h : Yields (fun fuel => convert fuel v) c) : Yields (fun fuel => convertEntry (convert fuel) (k, v)) (k, c) :=
  Yields.bind h (Yields.of_ok fun _ => rfl)

theorem SameKinds.cons {props props' : List (String × Value)} {k : String} {v c : Value} (hkind : c.kind = v.kind)
    (h : SameKinds props props') : SameKinds ((k, v) :: props) ((k, c) :: props') := by
  intro j
  simp only [List.lookup_cons]
  split
  · simp [hkind]
  · exact h j

theorem PropsBack.cons {props props' : List (String × Value)} {k : String} {v w : Value} (hback : Back v w)
    (h : PropsBack props props') : PropsBack ((k, v) :: props) ((k, w) :: props') := by
  intro j u hu
  simp only [List.lookup_cons] at hu ⊢
  split at hu
  · cases hu
    exact ⟨v, rfl, hback⟩
  · exact h j u hu

end

/-! ## Records -/

section

variable {ns : String}

theorem denotesFields_congr {fields : List Field} {props props' : List (String × Value)}
    {ls : List (String × Option Logical)} (h : DenotesFields lib ns fields props ls)
    (hsame : ∀ field ∈ fields, props'.lookup field.name = props.lookup field.name) :
    DenotesFields lib ns fields props' ls := by
  induction fields generalizing ls with
  | nil =>
    cases h
    exact .nil
  | cons field fields ih =>
    have hrest : ∀ f ∈ fields, props'.lookup f.name = props.lookup f.name :=
      fun f hf => hsame f (List.mem_cons_of_mem _ hf)
    have hfield := hsame field List.mem_cons_self
    cases h with
    | absent hnone hdefault hs => exact .absent (hfield.trans hnone) hdefault (ih hs hrest)
    | present hlook h hs => exact .present (hfield.trans hlook) h (ih hs hrest)

/-- The fields of a record are converted for rules in a copy, and back from what the copy then holds. -/
def FieldsKept (lib : Library) (env : Setting) (ns : String) (fields : List Field) (props : List (String × Value))
    (ls : List (String × Option Logical)) : Prop :=
  ∀ out : List (String × Value), (∀ field ∈ fields, out.lookup field.name = props.lookup field.name) →
    ∃ cs ws, Yields (fun fuel => celFields (fun type v => avroToCel env fuel type ns v) props fields out) cs ∧
      (∀ k, k ∉ fields.map Field.name → cs.lookup k = out.lookup k) ∧ SameKinds out cs ∧
      Yields (fun fuel => avroFields (fun type v => celToAvro env fuel type ns v) cs fields) ws ∧
      DenotesFields lib ns fields ws ls ∧ PropsBack props ws

theorem fieldsKept_nil {props : List (String × Value)} : FieldsKept lib env ns [] props [] :=
  fun out _ => ⟨out, [], Yields.of_ok fun _ => rfl, fun _ _ => rfl, SameKinds.refl out,
    Yields.of_ok fun _ => rfl, .nil,
    fun _ _ h => nomatch h⟩

theorem fieldsKept_absent {field : Field} {fields : List Field} {props : List (String × Value)}
    {ls : List (String × Option Logical)} (hnone : props.lookup field.name = none)
    (hdefault : field.hasDefault = true)
    (hnodup : field.name ∉ fields.map Field.name) (h : FieldsKept lib env ns fields props ls) :
    FieldsKept lib env ns (field :: fields) props ((field.name, none) :: ls) := by
  intro out hout
  obtain ⟨cs, ws, hc, hother, hkinds, hw, hd, hback⟩ := h out fun f hf => hout f (List.mem_cons_of_mem _ hf)
  have hcs : cs.lookup field.name = none := by
    rw [hother _ hnodup, hout field List.mem_cons_self, hnone]
  have hws : ws.lookup field.name = none := by
    by_contra hsome
    obtain ⟨w, hw⟩ := Option.ne_none_iff_exists'.mp hsome
    obtain ⟨v, hv, -⟩ := hback _ _ hw
    rw [hnone] at hv
    cases hv
  refine ⟨cs, ws, ?_, fun k hk => hother k fun hm => hk (List.mem_cons_of_mem _ hm), hkinds, ?_,
    .absent hws hdefault hd, hback⟩
  · simpa only [celFields, hnone] using hc
  · simpa only [avroFields, hcs] using hw

theorem fieldsKept_present {field : Field} {fields : List Field} {props : List (String × Value)} {v : Value}
    {l : Logical} {ls : List (String × Option Logical)} (hlook : props.lookup field.name = some v)
    (hv : Kept lib env ns field.type v l) (hnodup : field.name ∉ fields.map Field.name)
    (h : FieldsKept lib env ns fields props ls) :
    FieldsKept lib env ns (field :: fields) props ((field.name, some l) :: ls) := by
  intro out hout
  obtain ⟨c, w, hc, hw, hd, halike, hback⟩ := hv
  have hne : ∀ f ∈ fields, f.name ≠ field.name := fun f hf heq => hnodup (heq ▸ List.mem_map_of_mem hf)
  have hupdated : ∀ k, k ≠ field.name → (updateProp field.name (fun _ => c) out).lookup k = out.lookup k := by
    intro k hk
    rw [lookup_updateProp, if_neg hk]
  have hown : (updateProp field.name (fun _ => c) out).lookup field.name = some c := by
    rw [lookup_updateProp, if_pos rfl, hout field List.mem_cons_self, hlook, Option.map_some]
  obtain ⟨cs, ws, hcs, hother, hkinds, hws, hds, hbacks⟩ := h (updateProp field.name (fun _ => c) out) fun f hf =>
    (hupdated f.name (hne f hf)).trans (hout f (List.mem_cons_of_mem _ hf))
  have hread : cs.lookup field.name = some c := (hother _ hnodup).trans hown
  refine ⟨cs, (field.name, w) :: ws, ?_, ?_, SameKinds.trans ?_ hkinds, ?_, .present (by simp) hd ?_, ?_⟩
  · simp only [celFields, hlook]
    exact Yields.bind hc hcs
  · intro k hk
    rw [List.map_cons, List.mem_cons, not_or] at hk
    rw [hother k hk.2, hupdated k hk.1]
  · intro k
    by_cases hk : k = field.name
    · rw [hk, hown, hout field List.mem_cons_self, hlook, Option.map_some, Option.map_some, halike.kind]
    · rw [hupdated k hk]
  · simp only [avroFields, hread]
    exact Yields.bind hw (Yields.bind hws (Yields.of_ok fun _ => rfl))
  · refine denotesFields_congr hds fun f hf => ?_
    rw [List.lookup_cons, beq_eq_false_iff_ne.mpr (hne f hf)]
  · intro k u hu
    rw [List.lookup_cons] at hu
    split at hu
    · rename_i hk
      cases hu
      rw [beq_iff_eq] at hk
      exact ⟨v, hk ▸ hlook, hback⟩
    · exact hbacks k u hu

theorem kept_record {name : String} {nspace : Option String} {fields : List Field} {props : List (String × Value)}
    {ls : List (String × Option Logical)} (hnodup : (fields.map Field.name).Nodup)
    (h : FieldsKept lib env (Avro.namespaceOf name nspace ns) fields props ls) :
    Kept lib env ns (.record name nspace false fields) (.object props) (.record ls) := by
  obtain ⟨cs, ws, hc, -, hkinds, hw, hd, hback⟩ := h props fun _ _ => rfl
  exact ⟨.object cs, .object ws, Yields.of_succ (Yields.map Value.object hc), Yields.of_succ
    (Yields.map Value.object hw),
    .record hnodup hd, ⟨hkinds.kind, trivial, fun _ _ => rfl⟩, hback.back⟩

end

end Cel

end ConfluentKafka
