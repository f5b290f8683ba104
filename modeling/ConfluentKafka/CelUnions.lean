import ConfluentKafka.CelWriteBack

/-!
# Unions come back from rules

Both conversions go to the branch of a datum when no map or record of the union stands before it, and to
a branch that leaves the datum alone where it is not disturbed. With the other nodes this gives, by
induction on a datum, that what comes back stands for the same logical value.
-/

namespace ConfluentKafka

namespace Cel

variable {lib : Library} {env : Setting} {ns : String}

/-! ## A datum and its node -/

theorem bucket_of_denotesPrimitive {type : Primitive} {t : Option LogicalType} {v : Value} {l : Logical}
    (h : DenotesPrimitive type t v l) : v.bucket = some (TypeName.primitive type).bucket := by
  cases h with
  | float hv => cases v <;> first | rfl | cases hv
  | double hv => cases v <;> first | rfl | cases hv
  | _ => rfl

theorem accepts_of_denotesPrimitive {type : Primitive} {t : Option LogicalType} {v : Value}
    {l : Logical} {node : Node}
    (htype : node.typeName = some (.primitive type)) (h : DenotesPrimitive type t v l) (hnull : v.isNull = false) :
    accepts node v = true := by
  have hshape : ∀ u, acceptsShape node u = acceptsPrimitive type u := by
    intro u
    simp only [acceptsShape, htype]
  cases h with
  | null => cases hnull
  | int hfits => exact (hshape _).trans hfits
  | float hv => cases v <;> first | exact hshape _ | cases hv
  | double hv => cases v <;> first | exact hshape _ | cases hv
  | _ => exact hshape _

/-- The library considers the branch of a datum, and the conversions accept it for one that is not null. -/
theorem taken_of_defined {node : Node} {v : Value} {l : Logical} (hname : ∀ s, node ≠ .name s)
    (h : Denotes lib ns node v l) (htype : node.typeName.isSome = true) :
    takes node v = true ∧ (v.isNull = false → accepts node v = true) := by
  cases h with
  | named => exact absurd rfl (hname _)
  | primitiveName => exact absurd rfl (hname _)
  | primitive h =>
    exact ⟨takes_of_bucket rfl nofun (bucket_of_denotesPrimitive h), accepts_of_denotesPrimitive rfl h⟩
  | enum h => exact ⟨rfl, fun _ => decide_eq_true h⟩
  | fixed _ hsize => exact ⟨rfl, fun _ => by simp [accepts, acceptsShape, Node.typeName, Node.size, hsize]⟩
  | fixedDecimal hsize => exact ⟨rfl, fun _ => by simp [accepts, acceptsShape, Node.typeName, Node.size, hsize]⟩
  | array => exact ⟨rfl, fun _ => rfl⟩
  | map => exact ⟨rfl, fun _ => rfl⟩
  | record => exact ⟨rfl, fun _ => rfl⟩
  | variant => exact ⟨rfl, fun _ => rfl⟩
  | unwrapped => cases htype
  | wrappedNull => cases htype
  | wrapped => cases htype

theorem taken_of_denotes (hreg : Registry lib.types) {node : Node} {v : Value} {l : Logical}
    (h : Denotes lib ns node v l) (htype : (resolved lib ns node).typeName.isSome = true) :
    takes (resolved lib ns node) v = true ∧ (v.isNull = false → accepts (resolved lib ns node) v = true) := by
  by_cases hname : ∃ s, node = .name s
  · obtain ⟨s, rfl⟩ := hname
    cases h with
    | named hs h =>
      rw [resolved_of_qualify hs] at htype ⊢
      refine taken_of_defined (fun t heq => ?_) h htype
      exact hreg.defined (hs.trans (congrArg some heq))
    | primitiveName hs h =>
      rw [hreg.resolved_primitive hs]
      exact ⟨takes_of_bucket hs nofun (bucket_of_denotesPrimitive h), accepts_of_denotesPrimitive hs h⟩
  · have hname : ∀ s, node ≠ .name s := fun s heq => hname ⟨s, heq⟩
    rw [resolved_of_defined hname] at htype ⊢
    exact taken_of_defined hname h htype

theorem typeName_of_takes {node : Node} {v : Value} (h : takes node v = true) : node.typeName.isSome = true := by
  unfold takes at h
  split at h
  · rename_i hv
    cases node with
    | record => rfl
    | _ => cases hv
  · simp only [Bool.and_eq_true, decide_eq_true_eq] at h
    rw [← h.1, Option.isSome_map] at h
    exact h.2

theorem bucket_of_takes {node : Node} {v : Value} (h : takes node v = true) : v.bucket.isSome = true := by
  unfold takes at h
  split at h
  · cases v <;> first | rfl | cases h
  · simp only [Bool.and_eq_true] at h
    exact h.2

/-! ## The branch of a datum -/

section

variable {branches : List Node} {b : Node} {v c w : Value} {l : Logical}

theorem avroToCel_union (henv : env.named = lib.types) (hnull : v.isNull = false)
    (hpick : pickAvroUnionBranch lib.types ns branches v = .ok (some b)) (fuel : Nat) :
    avroToCel env (fuel + 1) (.union branches) ns v = avroToCel env fuel b ns v := by
  rw [← henv] at hpick
  simp only [avroToCel, hnull, resolveAvroNode, hpick]
  rfl

theorem celToAvro_union (henv : env.named = lib.types) (hnull : v.isNull = false)
    (hpick : pickAvroWriteBranch lib.types ns branches v = .ok b) (fuel : Nat) :
    celToAvro env (fuel + 1) (.union branches) ns v = celToAvro env fuel b ns v := by
  rw [← henv] at hpick
  simp only [celToAvro, hnull, resolveAvroNode, hpick]
  rfl

theorem kept_union (henv : env.named = lib.types) (hnull : v.isNull = false)
    (hread : pickAvroUnionBranch lib.types ns branches v = .ok (some b))
    (hwrite : pickAvroWriteBranch lib.types ns branches c = .ok b)
    (hc : Yields (fun fuel => avroToCel env fuel b ns v) c) (hw : Yields (fun fuel => celToAvro env fuel b ns c) w)
    (hkind : c.kind = v.kind) (hlegible : Legible c) (hback : Back v w) (h : Denotes lib ns (.union branches) w l) :
    Kept lib env ns (.union branches) v l := by
  refine ⟨c, w, Yields.of_succ ?_, Yields.of_succ ?_, h, ⟨hkind, hlegible, fun htype => nomatch htype⟩, hback⟩
  · simpa only [avroToCel_union henv hnull hread] using hc
  · simpa only [celToAvro_union henv ((isNull_eq_of_kind hkind).trans hnull) hwrite] using hw

theorem kept_branch (hreg : Registry lib.types) (henv : env.named = lib.types) {i : Nat}
    (hwraps : lib.wraps branches = false)
    (hi : branches[i]? = some b) (htakes : takes (resolved lib ns b) v = true)
    (hone : ∀ j b', branches[j]? = some b' → takes (resolved lib ns b') v = true → j = i)
    (hshield : shielded lib ns branches i v = false) (htag : isTagged v = false) (hnull : v.isNull = false)
    (hd : Denotes lib ns b v l) (h : Kept lib env ns b v l) : Kept lib env ns (.union branches) v (.union i l) := by
  have htype := typeName_of_takes htakes
  have hbucket := bucket_of_takes htakes
  -- a branch before would be one that the library considers, or a structure
  have hbefore : ∀ c : Value, c.kind = v.kind →
      ∀ j < i, ∀ b', branches[j]? = some b' → accepts (resolved lib ns b') c = false := by
    intro c hkind j hj b' hb'
    by_contra haccepts
    rw [Bool.not_eq_false] at haccepts
    obtain ht | ⟨hstruct, hv⟩ := takes_or_struct hkind hbucket haccepts
    · exact absurd (hone j b' hb' ht) (Nat.ne_of_lt hj)
    · have hmem : b' ∈ branches.take i :=
        List.mem_of_getElem? ((List.getElem?_take_of_lt hj).trans hb')
      simp only [shielded, hv, Bool.true_and, List.any_eq_false] at hshield
      exact absurd hstruct (by simpa using hshield b' hmem)
  obtain ⟨c, w, hc, hw, hdw, halike, hback⟩ := h
  have hread := picks_of_first (legible_of_bucket hbucket) htag hnull hi
    ((taken_of_denotes hreg hd htype).2 hnull) (hbefore v rfl)
  have hwrite := picks_of_first halike.legible ((isTagged_eq_of_kind halike.kind).trans htag)
    ((isNull_eq_of_kind halike.kind).trans hnull) hi (halike.accepted htype hnull) (hbefore c halike.kind)
  refine kept_union henv hnull hread.1 hwrite.2 hc hw halike.kind halike.legible hback ?_
  exact .unwrapped hwraps hi (taken_of_denotes hreg hdw htype).1
    (fun j b' hb' ht => hone j b' hb' (hback.taken _ ht)) hdw

/-! ## Data that are left alone -/

theorem kept_alone (henv : env.named = lib.types) (hnull : v.isNull = false)
    (hpick : pickAvroUnionBranch lib.types ns branches v = .ok (some b) ∧
      pickAvroWriteBranch lib.types ns branches v = .ok b)
    (hc : ∀ fuel, avroToCel env (fuel + 1) b ns v = .ok v) (hw : ∀ fuel, celToAvro env (fuel + 1) b ns v = .ok v)
    (hbucket : v.bucket.isSome = true) (h : Denotes lib ns (.union branches) v l) :
    Kept lib env ns (.union branches) v l :=
  kept_union henv hnull hpick.1 hpick.2 (Yields.of_succ (Yields.of_ok hc)) (Yields.of_succ (Yields.of_ok hw)) rfl
    (legible_of_bucket hbucket) (Back.refl v) h

theorem exists_of_isVariant {node : Node} (h : node.isVariant = true) :
    ∃ name nspace fields, node = .record name nspace true fields := by
  cases node with
  | record name nspace isVariant fields =>
    cases h
    exact ⟨name, nspace, fields, rfl⟩
  | _ => cases h

/-- A branch of variants leaves a value alone that has not both of the fields of one. -/
theorem variant_alone (henv : env.named = lib.types) (hv : (resolved lib ns b).isVariant = true)
    (hnull : v.isNull = false) (hc : avroVariantToCel v = .ok v) (hw : tryReader v = .ok none) (fuel : Nat) :
    avroToCel env (fuel + 1) b ns v = .ok v ∧ celToAvro env (fuel + 1) b ns v = .ok v := by
  obtain ⟨name, nspace, fields, hres⟩ := exists_of_isVariant hv
  have hres : resolveAvroNode env.named ns b = .record name nspace true fields := by
    rw [henv]
    exact hres
  constructor
  · simp only [avroToCel, hnull, hres]
    exact hc
  · simp only [celToAvro, hnull, hres, celVariantToAvro, hw]
    rfl

theorem avroVariantToCel_object {props : List (String × Value)}
    (h : ((props.lookup "metadata").isSome && (props.lookup "value").isSome) = false) :
    avroVariantToCel (.object props) = .ok (.object props) := by
  simp only [avroVariantToCel, h]
  rfl

theorem acceptsShape_object {node : Node} {props : List (String × Value)} :
    acceptsShape node (.object props) = isStructNode node := by
  unfold acceptsShape isStructNode
  split
  · rename_i type htype
    cases type <;> simp [acceptsPrimitive, htype]
  all_goals
    rename_i htype
    simp [htype, isCelList, isCelStruct]

theorem accepts_struct {node : Node} (hnode : isStructNode node = true) (hv : isCelStruct v = true)
    (hbucket : v.bucket.isSome = true) (hvariant : ∀ u, v ≠ .variant u) : accepts node v = true := by
  have hshape : acceptsShape node v = true := by
    simp only [isStructNode, Bool.or_eq_true, decide_eq_true_eq] at hnode
    rcases hnode with hnode | hnode
    · simp only [acceptsShape, hnode, hv]
    · simp only [acceptsShape, hnode, hv]
  cases v with
  | variant u => exact absurd rfl (hvariant u)
  | object => exact hshape
  | bytes => exact hshape
  | decimal => cases hbucket
  | timestamp => cases hbucket
  | variantMessage => cases hbucket
  | _ => cases hv

theorem first_of_find? {p : Node → Bool} {l : List Node} (h : l.find? p = some b) :
    p b = true ∧ ∃ j : Nat, l[j]? = some b ∧ ∀ k < j, ∀ b', l[k]? = some b' → p b' = false := by
  obtain ⟨hp, j, hj, hget, hbefore⟩ := List.find?_eq_some_iff_getElem.mp h
  refine ⟨hp, j, hget ▸ List.getElem?_eq_getElem hj, fun k hk b' hb' => ?_⟩
  obtain ⟨hk', rfl⟩ := List.getElem?_eq_some_iff.mp hb'
  simpa using hbefore k hk

theorem lt_of_getElem?_take {i j : Nat} {l : List Node} (h : (l.take i)[j]? = some b) : j < i ∧ l[j]? = some b := by
  rw [List.getElem?_take] at h
  split at h
  · rename_i hj
    exact ⟨hj, h⟩
  · cases h

theorem takes_struct {node : Node} (hnode : isStructNode node = true) (hv : v.bucket = some .object)
    (hvariant : node.isVariant = false) : takes node v = true := by
  simp only [isStructNode, Bool.or_eq_true, decide_eq_true_eq] at hnode
  rcases hnode with hnode | hnode
  · simp [takes, hvariant, hv, hnode, TypeName.bucket]
  · simp [takes, hvariant, hv, hnode, TypeName.bucket]

/-- A value behind a map or record: that is one for variants, since the library considers no other branch. -/
theorem kept_shielded (henv : env.named = lib.types) {i : Nat} (htakes : takes (resolved lib ns b) v = true)
    (hone : ∀ j b', branches[j]? = some b' → takes (resolved lib ns b') v = true → j = i)
    (hshield : shielded lib ns branches i v = true)
    (hread : ∀ first, (branches.take i).find? (fun b => isStructNode (resolved lib ns b)) = some first →
      misreads (resolved lib ns first) v = false)
    (htag : isTagged v = false) (hnull : v.isNull = false) (hd : Denotes lib ns (.union branches) v (.union i l)) :
    Kept lib env ns (.union branches) v (.union i l) := by
  have hbucket := bucket_of_takes htakes
  simp only [shielded, Bool.and_eq_true] at hshield
  obtain ⟨hstruct, hany⟩ := hshield
  obtain ⟨first, hfirst⟩ := Option.isSome_iff_exists.mp ((List.find?_isSome).mpr (by simpa using hany))
  obtain ⟨hp, j, hget, hbefore⟩ := first_of_find? hfirst
  obtain ⟨hj, hget⟩ := lt_of_getElem?_take hget
  have hmis := hread first hfirst
  have hother : takes (resolved lib ns first) v = false := by
    by_contra ht
    exact absurd (hone j first hget (by simpa using ht)) (Nat.ne_of_lt hj)
  have hnone : ∀ k < j, ∀ b', branches[k]? = some b' → accepts (resolved lib ns b') v = false := by
    intro k hk b' hb'
    by_contra haccepts
    rw [Bool.not_eq_false] at haccepts
    obtain ht | ⟨hs, -⟩ := takes_or_struct rfl hbucket haccepts
    · exact absurd (hone k b' hb' ht) (Nat.ne_of_lt (Nat.lt_trans hk hj))
    · have hfalse := hbefore k hk b' ((List.getElem?_take_of_lt (Nat.lt_trans hk hj)).trans hb')
      rw [hs] at hfalse
      cases hfalse
  have halone : (resolved lib ns first).isVariant = true → (∀ u, v ≠ .variant u) → avroVariantToCel v = .ok v →
      tryReader v = .ok none → Kept lib env ns (.union branches) v (.union i l) := by
    intro hvariant hne hc hw
    have hpick := picks_of_first (legible_of_bucket hbucket) htag hnull hget
      (accepts_struct hp hstruct hbucket hne) hnone
    exact kept_alone henv hnull hpick (fun fuel => (variant_alone henv hvariant hnull hc hw fuel).1)
      (fun fuel => (variant_alone henv hvariant hnull hc hw fuel).2) hbucket hd
  cases v with
  | bytes bs => exact halone (by simpa [misreads] using hmis) nofun rfl rfl
  | object props =>
    have hvariant : (resolved lib ns first).isVariant = true := by
      by_contra hfalse
      rw [Bool.not_eq_true] at hfalse
      rw [takes_struct hp rfl hfalse] at hother
      cases hother
    refine halone hvariant nofun (avroVariantToCel_object ?_) (tryReader_object htag)
    simpa [misreads, hvariant] using hmis
  | variant u =>
    cases hvariant : (resolved lib ns first).isVariant with
    | true => simp [takes, hvariant] at hother
    | false =>
      rw [takes_struct hp rfl hvariant] at hother
      cases hother
  | decimal => cases hbucket
  | timestamp => cases hbucket
  | variantMessage => cases hbucket
  | _ => cases hstruct

/-! ## Wrapped values -/

theorem scalar_alone (henv : env.named = lib.types) (props : List (String × Value))
    (htype : (resolved lib ns b).typeName.isSome = true) (hnode : isStructNode (resolved lib ns b) = false)
    (hts : isTimestampLogicalType (resolved lib ns b).logicalType = false) (fuel : Nat) :
    avroToCel env (fuel + 1) b ns (.object props) = .ok (.object props) ∧
      celToAvro env (fuel + 1) b ns (.object props) = .ok (.object props) := by
  have hres : resolveAvroNode env.named ns b = resolved lib ns b := by
    rw [henv]
    rfl
  have hscalar : IsScalar (resolved lib ns b) → avroToCel env (fuel + 1) b ns (.object props) = .ok
    (.object props) ∧
      celToAvro env (fuel + 1) b ns (.object props) = .ok (.object props) := by
    intro h
    have hsame := scalar_unchanged env hts (v := .object props) (fun _ => nofun) (fun _ => nofun) rfl
    rw [← hres] at h hsame
    exact ⟨(avroToCel_scalar h rfl fuel).trans hsame.1, (celToAvro_scalar h rfl fuel).trans hsame.2⟩
  cases hb : resolved lib ns b with
  | array items =>
    rw [hb] at hres
    constructor
    · simp only [avroToCel, hres]
      rfl
    · simp only [celToAvro, hres]
      rfl
  | union =>
    rw [hb] at htype
    cases htype
  | map =>
    rw [hb] at hnode
    cases hnode
  | record =>
    rw [hb] at hnode
    cases hnode
  | _ =>
    rw [hb] at hscalar
    exact hscalar trivial

/-- An object of one property passes no branch but those for structures, and is no variant. -/
theorem kept_wrapped (henv : env.named = lib.types) {name : String} {u : Value}
    (hspared : spared lib ns branches = true) (htag : isTagged (.object [(name, u)]) = false)
    (hd : Denotes lib ns (.union branches) (.object [(name, u)]) l) :
    Kept lib env ns (.union branches) (.object [(name, u)]) l := by
  have haccepts : ∀ node, accepts node (.object [(name, u)]) = isStructNode node := fun _ => acceptsShape_object
  unfold spared at hspared
  split at hspared
  · rename_i b hfind
    obtain ⟨hp, j, hget, hbefore⟩ := first_of_find? hfind
    have hpick := picks_of_first (legible_of_bucket rfl) htag rfl hget ((haccepts _).trans hp) fun k hk b' hb' =>
      (haccepts _).trans (hbefore k hk b' hb')
    have hc : avroVariantToCel (.object [(name, u)]) = .ok (.object [(name, u)]) := by
      refine avroVariantToCel_object ?_
      by_cases hname : name = "metadata"
      · simp [hname, List.lookup_cons]
      · simp [List.lookup_cons, beq_eq_false_iff_ne.mpr (Ne.symm hname)]
    exact kept_alone henv rfl hpick (fun fuel => (variant_alone henv hspared rfl hc (tryReader_object htag) fuel).1)
      (fun fuel => (variant_alone henv hspared rfl hc (tryReader_object htag) fuel).2) rfl hd
  · rename_i hfind
    split at hspared
    · rename_i b hfilter
      simp only [Bool.and_eq_true, Bool.not_eq_true'] at hspared
      rw [List.find?_eq_none] at hfind
      have hmem : b ∈ branches := by
        have : b ∈ branches.filter fun b => !isNullBranch b := by rw [hfilter]; exact List.mem_singleton_self b
        exact (List.mem_filter.mp this).1
      have hnone : ∀ b ∈ branches, isStructNode (resolved lib ns b) = false := fun b hb => by simpa using hfind b hb
      have hpick := picks_of_none (legible_of_bucket rfl) htag rfl
        (fun b hb => (haccepts _).trans (hnone b hb)) hfilter
      have halone := scalar_alone henv [(name, u)] hspared.1 (hnone b hmem) hspared.2
      exact kept_alone henv rfl hpick (fun fuel => (halone fuel).1) (fun fuel => (halone fuel).2) rfl hd
    · cases hspared

theorem kept_unwrapped (hreg : Registry lib.types) (henv : env.named = lib.types) {i : Nat}
    (hwraps : lib.wraps branches = false) (hi : branches[i]? = some b) (htakes : takes (resolved lib ns b) v = true)
    (hone : ∀ j b', branches[j]? = some b' → takes (resolved lib ns b') v = true → j = i)
    (hd : Denotes lib ns b v l)
    (hk : ¬Disturbed lib ns (.union branches) v) (h : ¬Disturbed lib ns b v → Kept lib env ns b v l) :
    Kept lib env ns (.union branches) v (.union i l) := by
  have hdenotes : Denotes lib ns (.union branches) v (.union i l) := .unwrapped hwraps hi htakes hone hd
  have htag : isTagged v = false := by
    by_contra hfalse
    exact hk (.tagged (by simpa using hfalse))
  cases hnull : v.isNull with
  | true =>
    cases v with
    | null => exact kept_null hdenotes
    | _ => cases hnull
  | false =>
    cases hshield : shielded lib ns branches i v with
    | false =>
      refine kept_branch hreg henv hwraps hi htakes hone hshield htag hnull hd (h fun hb => ?_)
      exact hk (.branch hwraps hi htakes hshield hb)
    | true =>
      refine kept_shielded henv htakes hone hshield (fun first hfirst => ?_) htag hnull hdenotes
      by_contra hmis
      exact hk (.behind hwraps hi htakes hshield hfirst (by simpa using hmis))

end

/-! ## Every datum -/

mutual

theorem kept_of_denotes (hreg : Registry lib.types) (henv : env.named = lib.types) {ns : String}
    {node : Node} {v : Value}
    {l : Logical} : Denotes lib ns node v l → ¬Disturbed lib ns node v → Kept lib env ns node v l
  | .named hs h, hk => kept_named hreg henv hs (kept_of_denotes hreg henv h fun hd => hk (.named hs hd))
  | .primitiveName (s := s) hs h, hk => by
    have hres : resolved lib ns (.name s) = .name s := hreg.resolved_primitive hs
    refine kept_primitive henv ?_ ?_ ?_ ?_ (fun hw => .primitiveName hs hw) h
    · rw [hres]
      trivial
    · rw [hres]
      exact hs
    · rw [hres]
      rfl
    · rwa [hres]
  | .primitive h, hk => kept_primitive henv trivial rfl rfl hk (fun hw => .primitive hw) h
  | .enum h, _ => kept_enum henv h
  | .fixed ht hsize, hk => kept_fixed henv hk ht hsize
  | .fixedDecimal _, hk => kept_fixedDecimal henv hk
  | .array h, hk => by
    obtain ⟨cs, ws, hc, hw, hd⟩ := kept_elems hreg henv h fun v hv hd => hk (.elem hv hd)
    exact kept_array hc hw hd
  | .map h, hk => by
    obtain ⟨cs, ws, hc, hw, hd, hkinds, hback⟩ := kept_entries hreg henv h fun e he hd => hk (.entry he hd)
    exact kept_map hc hw hd hkinds hback
  | .record hnodup h, hk =>
    kept_record hnodup (kept_fields hreg henv h hnodup fun f hf v hv hd => hk (.field hf hv hd))
  | .variant hv, _ => kept_variant hv
  | .unwrapped hwraps hi htakes hone h, hk =>
    kept_unwrapped hreg henv hwraps hi htakes hone h hk (kept_of_denotes hreg henv h)
  | .wrappedNull hwraps hi hnull, _ => kept_null (.wrappedNull hwraps hi hnull)
  | .wrapped hwraps hi hname hnull h, hk => by
    refine kept_wrapped henv ?_ ?_ (.wrapped hwraps hi hname hnull h)
    · by_contra hspared
      exact hk (.wrapped hwraps rfl (by simpa using hspared))
    · by_contra htag
      exact hk (.tagged (by simpa using htag))

theorem kept_elems (hreg : Registry lib.types) (henv : env.named = lib.types) {ns : String} {items : Node}
    {elems : List Value} {ls : List Logical} : DenotesElems lib ns items elems ls →
      (∀ v ∈ elems, ¬Disturbed lib ns items v) →
      ∃ cs ws, Yields (fun fuel => elems.mapM (avroToCel env fuel items ns)) cs ∧
        Yields (fun fuel => cs.mapM (celToAvro env fuel items ns)) ws ∧ DenotesElems lib ns items ws ls
  | .nil, _ => ⟨[], [], Yields.of_ok fun _ => rfl, Yields.of_ok fun _ => rfl, .nil⟩
  | .cons h hs, hk => by
    obtain ⟨c, w, hc, hw, hd, -, -⟩ := kept_of_denotes hreg henv h (hk _ List.mem_cons_self)
    obtain ⟨cs, ws, hcs, hws, hds⟩ := kept_elems hreg henv hs fun v hv => hk v (List.mem_cons_of_mem _ hv)
    exact ⟨c :: cs, w :: ws, Yields.mapM_cons hc hcs, Yields.mapM_cons hw hws, .cons hd hds⟩

theorem kept_entries (hreg : Registry lib.types) (henv : env.named = lib.types) {ns : String} {values : Node}
    {props : List (String × Value)} {ls : List (String × Logical)} : DenotesEntries lib ns values props ls →
      (∀ e ∈ props, ¬Disturbed lib ns values e.2) →
      ∃ cs ws, Yields (fun fuel => props.mapM (convertEntry (avroToCel env fuel values ns))) cs ∧
        Yields (fun fuel => cs.mapM (convertEntry (celToAvro env fuel values ns))) ws ∧
        DenotesEntries lib ns values ws ls ∧ SameKinds props cs ∧ PropsBack props ws
  | .nil, _ => ⟨[], [], Yields.of_ok fun _ => rfl, Yields.of_ok fun _ => rfl, .nil, SameKinds.refl [],
      fun _ _ h => nomatch h⟩
  | .cons h hs, hk => by
    obtain ⟨c, w, hc, hw, hd, halike, hback⟩ := kept_of_denotes hreg henv h (hk _ List.mem_cons_self)
    obtain ⟨cs, ws, hcs, hws, hds, hkinds, hbacks⟩ := kept_entries hreg henv hs fun e he =>
      hk e (List.mem_cons_of_mem _ he)
    exact ⟨_, _, Yields.mapM_cons (yields_convertEntry hc) hcs, Yields.mapM_cons (yields_convertEntry hw) hws,
      .cons hd hds, hkinds.cons halike.kind, hbacks.cons hback⟩

theorem kept_fields (hreg : Registry lib.types) (henv : env.named = lib.types) {ns : String} {fields : List Field}
    {props : List (String × Value)} {ls : List (String × Option Logical)} : DenotesFields lib ns fields props ls →
      (fields.map Field.name).Nodup →
      (∀ f ∈ fields, ∀ v, props.lookup f.name = some v → ¬Disturbed lib ns f.type v) →
      FieldsKept lib env ns fields props ls
  | .nil, _, _ => fieldsKept_nil
  | .absent hnone hdefault hs, hnodup, hk => by
    rw [List.map_cons, List.nodup_cons] at hnodup
    refine fieldsKept_absent hnone hdefault hnodup.1 (kept_fields hreg henv hs hnodup.2 ?_)
    exact fun f hf => hk f (List.mem_cons_of_mem _ hf)
  | .present hlook h hs, hnodup, hk => by
    rw [List.map_cons, List.nodup_cons] at hnodup
    refine fieldsKept_present hlook (kept_of_denotes hreg henv h (hk _ List.mem_cons_self _ hlook)) hnodup.1
      (kept_fields hreg henv hs hnodup.2 ?_)
    exact fun f hf => hk f (List.mem_cons_of_mem _ hf)

end

end Cel

end ConfluentKafka
