import ConfluentKafka.AvroLeaves

/-!
# The calls of the field transform of Avro messages

However the field transform acts, the walk of a valid message calls it on the values of `Leaves` whose
fields the rule is for, each once and in order, until it throws. It does not throw if the field
transform returns values of the types it is called for.
-/

namespace ConfluentKafka

namespace Avro

open ConfluentKafka.Walk (Orderly Settles)

/-! ## Logs of walks -/

/-- The walk adds a part of the log, and all of it if it ends well. -/
def Logs {α : Type} (m : Walk Call α) (s : WalkState Call) (log : List Call) : Prop :=
  (endState (m s)).notes <+: s.notes ++ log ∧ ∀ a t, m s = .ok a t → t.notes = s.notes ++ log

namespace Logs

variable {α β : Type} {m : Walk Call α} {k : α → Walk Call β} {s : WalkState Call} {log log' : List Call}

theorem pure (a : α) (s : WalkState Call) : Logs (Pure.pure a) s [] := by
  refine ⟨by simp [endState, Pure.pure, EStateM.pure], fun b t h => ?_⟩
  cases h
  exact (List.append_nil _).symm

theorem throw (e : WalkError) (s : WalkState Call) (log : List Call) :
    Logs (MonadExcept.throw e : Walk Call α) s log := ⟨List.prefix_append _ _, nofun⟩

theorem ofExcept (x : Except WalkError α) (s : WalkState Call) : Logs (Walk.ofExcept x) s [] := by
  cases x with
  | ok a => exact pure a s
  | error e => exact throw e s []

theorem bind (hm : Logs m s log) (hk : ∀ a t, m s = .ok a t → Logs (k a) t log') :
    Logs (m >>= k) s (log ++ log') := by
  constructor
  · cases hms : m s with
    | ok a t =>
      rw [Walk.endState_bind_of_ok hms, ← List.append_assoc, ← hm.2 a t hms]
      exact (hk a t hms).1
    | error e t =>
      rw [bind_of_error hms]
      have hend := hm.1
      rw [hms] at hend
      rw [← List.append_assoc]
      exact hend.trans (List.prefix_append _ _)
  · intro b t hrun
    obtain ⟨a, t₁, hms, hka⟩ := (bind_eq_ok_iff m k s t b).mp hrun
    rw [(hk a t₁ hms).2 b t hka, hm.2 a t₁ hms, List.append_assoc]

/-- What comes before or after makes no calls. -/
theorem before (hm : Logs m s []) (hk : ∀ a t, m s = .ok a t → Logs (k a) t log) :
    Logs (m >>= k) s log := bind hm hk

theorem after (hm : Logs m s log) (hk : ∀ a t, m s = .ok a t → Logs (k a) t []) : Logs (m >>= k) s log := by
  have h := bind hm hk
  rwa [List.append_nil] at h

theorem inField (c : FieldContext) (h : Logs m { s with fieldContexts := c :: s.fieldContexts } log) :
    Logs (Walk.inField c m) s log := by
  cases hm : m { s with fieldContexts := c :: s.fieldContexts } with
  | ok a t =>
    have hend := h.2 a t hm
    refine ⟨?_, fun b t' hrun => ?_⟩
    · simp only [Walk.inField, hm, endState, hend]
      exact List.prefix_refl _
    · simp only [Walk.inField, hm] at hrun
      cases hrun
      exact hend
  | error e t =>
    have hend := h.1
    rw [hm] at hend
    refine ⟨?_, fun b t' hrun => ?_⟩
    · simp only [Walk.inField, hm]
      exact hend
    · simp only [Walk.inField, hm] at hrun
      cases hrun

theorem note (n : Call) (s : WalkState Call) : Logs (Walk.note n) s [n] := by
  refine ⟨List.prefix_refl _, fun a t h => ?_⟩
  cases h
  rfl

end Logs

/-! ## The field of a walk -/

section Calls

variable {env : Setting} {rule : WalkRule} {fieldTransform : FieldTransform Datum}

variable (env rule) in
def contextOf (recordName : String) (field : Field) (type : FieldType) : FieldContext :=
  Walk.enterField rule (recordName ++ "." ++ field.name) field.name type
    (env.inlineTags (recordName ++ "." ++ field.name))

variable (env rule) in
def At (f : Option (String × Field)) (s : WalkState Call) : Prop :=
  s.fieldContexts.head?.map FieldContext.untyped = f.map fun f => (contextOf env rule f.1 f.2 .NULL).untyped

theorem At.of_orderly {α : Type} {f : Option (String × Field)} {s t : WalkState Call} {m : Walk Call α} {a : α}
    (h : At env rule f s) (ho : Orderly m) (hrun : m s = .ok a t) : At env rule f t := by
  have hend := (ho.end s).2
  rw [hrun] at hend
  unfold At at h ⊢
  rw [← List.head?_map] at h ⊢
  rw [show t.fieldContexts.map FieldContext.untyped = s.fieldContexts.map FieldContext.untyped from hend]
  exact h

variable (env rule) in
def calls (os : List Occurrence) : List Call :=
  (os.filter fun o => Walk.applies rule (contextOf env rule o.recordName o.field o.leaf.getType)).map fun o =>
    (contextOf env rule o.recordName o.field o.leaf.getType, o.value)

theorem calls_append (os os' : List Occurrence) : calls env rule (os ++ os') = calls env rule os ++
    calls env rule os' := by
  simp only [calls, List.filter_append, List.map_append]

theorem setType_at {f : Option (String × Field)} {s : WalkState Call} (h : At env rule f s) (type : FieldType) :
    ∃ s', Walk.setType type s = .ok () s' ∧ s'.notes = s.notes ∧ At env rule f s' ∧
      s'.fieldContexts.head? = f.map fun f => contextOf env rule f.1 f.2 type := by
  obtain ⟨cs, ns⟩ := s
  cases cs with
  | nil =>
    refine ⟨⟨[], ns⟩, rfl, rfl, h, ?_⟩
    cases f with
    | none => rfl
    | some f => cases h
  | cons c cs =>
    refine ⟨⟨{ c with type } :: cs, ns⟩, rfl, rfl, h, ?_⟩
    cases f with
    | none => cases h
    | some f =>
      have hc : c.untyped = (contextOf env rule f.1 f.2 .NULL).untyped := Option.some.inj h
      have htyped := congrArg (fun c : FieldContext => { c with type }) hc
      exact congrArg some htyped

/-- The context that a value without parts is transformed in has its type. -/
theorem logs_transform_succ {f : Option (String × Field)} {t : AvType} {v : Datum} {log : List Call} (fuel : Nat)
    {s : WalkState Call} (hs : At env rule f s)
    (h : ∀ s', At env rule f s' →
      Logs (transformType env rule fieldTransform (transform env rule fieldTransform fuel) t v
      (f.map fun f => contextOf env rule f.1 f.2 (getType t))) s' log) :
    Logs (transform env rule fieldTransform (fuel + 1) t v) s log := by
  obtain ⟨s', hset, hnotes, hat, hhead⟩ := setType_at hs (getType t)
  have hrun : transform env rule fieldTransform (fuel + 1) t v s =
      transformType env rule fieldTransform (transform env rule fieldTransform fuel) t v
        s'.fieldContexts.head? s' := by
    show (Walk.setType (getType t) >>= _) s = _
    rw [bind_of_ok hset]
    rfl
  have hlog := h s' hat
  rw [← hhead] at hlog
  unfold Logs at hlog ⊢
  rw [hrun, ← hnotes]
  exact hlog

theorem logs_transformLeaf (f : Option (String × Field)) (l : Leaf) (v : Datum) (s : WalkState Call) :
    Logs (transformLeaf rule fieldTransform v (f.map fun f => contextOf env rule f.1 f.2 l.getType)) s
      (calls env rule (f.toList.map fun f => ⟨f.1, f.2, l, v⟩)) := by
  cases f with
  | none => exact Logs.pure v s
  | some f =>
    simp only [transformLeaf, Option.map_some, calls, Option.toList_some, List.map_cons, List.map_nil]
    cases happ : Walk.applies rule (contextOf env rule f.1 f.2 l.getType) with
    | true =>
      simp only [if_true, List.filter_cons, happ, List.filter_nil, List.map_cons, List.map_nil]
      exact (Logs.note _ s).after fun _ t _ => Logs.ofExcept _ t
    | false =>
      simp only [Bool.false_eq_true, if_false, List.filter_cons, happ, List.filter_nil, List.map_nil]
      exact Logs.pure v s

theorem logs_rewrapped (wrapped : Bool) (types : List AvType) (t : AvType) (v : Datum) (s : WalkState Call) :
    Logs (rewrapped env wrapped types t v) s [] := by
  refine Logs.before (Logs.before ?_ fun _ t _ => Logs.pure _ t) fun _ t _ => Logs.ofExcept _ t
  refine ⟨?_, fun a t h => ?_⟩
  · rw [List.append_nil]
    exact List.prefix_refl _
  · cases h
    exact (List.append_nil _).symm

theorem logs_transformUnion {walk : AvType → Datum → Walk Call Datum} {wrapped : Bool}
    {types : List AvType} {t : AvType}
    {v w : Datum} {s : WalkState Call} {log : List Call}
    (hresolve : resolveUnion env wrapped types v = .ok (some (t, w))) (h : Logs (walk t w) s log) :
    Logs (transformUnion env walk wrapped types v) s log := by
  unfold transformUnion
  rw [hresolve]
  refine Logs.before (Logs.ofExcept _ s) fun resolved s' hs' => ?_
  cases hs'
  exact h.after fun r t' _ => logs_rewrapped wrapped types t r t'

theorem lookup_setProp {props : List (String × Datum)} {name name' : String} (h : name' ≠ name) (v : Datum) :
    (setProp props name v).lookup name' = props.lookup name' := by
  unfold setProp
  split_ifs
  · rw [lookup_updateProp, if_neg h]
  · rw [List.lookup_append]
    cases props.lookup name' with
    | none => simp [List.lookup_cons, beq_eq_false_iff_ne.mpr h]
    | some w => rfl

theorem lookup_writeBack {props props' : List (String × Datum)} {name name' : String} {v : Datum} (h : name' ≠ name)
    (hback : writeBack rule props name v = .ok props') : props'.lookup name' = props.lookup name' := by
  unfold writeBack at hback
  split_ifs at hback
  · split at hback
    · cases hback
    · cases hback
      rfl
  · cases hback
    exact lookup_setProp h v

theorem logs_transformField {recordName : String} {field : Field} {v : Datum} {log : List Call} (fuel : Nat)
    (props : List (String × Datum)) (s : WalkState Call)
    (h : ∀ s', At env rule (some (recordName, field)) s' →
      Logs (transform env rule fieldTransform fuel field.type v) s' log) :
    Logs (transformField env rule (transform env rule fieldTransform fuel) recordName field props v) s log := by
  refine Logs.inField _ (Logs.after (h _ ?_) fun _ t _ => Logs.ofExcept _ t)
  rfl

theorem ofExcept_ok {α : Type} {x : Except WalkError α} {s t : WalkState Call} {a : α}
    (h : Walk.ofExcept x s = .ok a t) : x = .ok a := by
  cases x with
  | ok b =>
    cases h
    rfl
  | error e => cases h

theorem writeBack_of_transformField {walk : AvType → Datum → Walk Call Datum} {recordName : String} {field : Field}
    {props props' : List (String × Datum)} {v : Datum} {s t : WalkState Call}
    (h : transformField env rule walk recordName field props v s = .ok props' t) :
    ∃ newVal, writeBack rule props field.name newVal = .ok props' := by
  unfold transformField Walk.inField at h
  split at h
  · rename_i a t₁ hbody
    cases h
    obtain ⟨newVal, t₂, -, hback⟩ := (bind_eq_ok_iff _ _ _ _ _).mp hbody
    exact ⟨newVal, ofExcept_ok hback⟩
  · cases h

mutual

/-- However the field transform acts, its calls are those for the values of the message. -/
theorem logs_leaves (hnodup : ∀ name, ((env.fields name).map Field.name).Nodup) {f : Option (String × Field)}
    {t : AvType} {v : Datum} {os : List Occurrence} : Leaves env f t v os → ∀ fuel s, At env rule f s →
      Logs (transform env rule fieldTransform fuel t v) s (calls env rule os)
  | _, 0, s, _ => Logs.throw _ s _
  | .leaf _, fuel + 1, _, hs => logs_transform_succ fuel hs fun s _ => logs_transformLeaf f _ _ s
  | .variant, fuel + 1, _, hs => logs_transform_succ fuel hs fun s _ => Logs.pure _ s
  | .array h, fuel + 1, _, hs => logs_transform_succ fuel hs fun s hs =>
    (logs_leavesElems hnodup h fuel s hs).after fun _ t _ => Logs.pure _ t
  | .map h, fuel + 1, _, hs => logs_transform_succ fuel hs fun s hs =>
    (logs_leavesEntries hnodup h fuel s hs).after fun _ t _ => Logs.pure _ t
  | .unwrapped ht h, fuel + 1, _, hs => logs_transform_succ fuel hs fun s hs =>
    logs_transformUnion (resolveUnion_unwrapped ht) (logs_leaves hnodup h fuel s hs)
  | .null ht h, fuel + 1, _, hs => logs_transform_succ fuel hs fun s hs =>
    logs_transformUnion (resolveUnion_null ht) (logs_leaves hnodup h fuel s hs)
  | .wrapped ht _ _ h, fuel + 1, _, hs => logs_transform_succ fuel hs fun s hs =>
    logs_transformUnion (resolveUnion_wrapped ht) (logs_leaves hnodup h fuel s hs)
  | .record h, fuel + 1, _, hs => logs_transform_succ fuel hs fun s _ =>
    (logs_leavesFields hnodup (hnodup _) h fuel s _ fun _ _ => rfl).after fun _ t _ => Logs.pure _ t

theorem logs_leavesElems (hnodup : ∀ name, ((env.fields name).map Field.name).Nodup) {f : Option (String × Field)}
    {items : AvType} {vs : List Datum} {os : List Occurrence} : LeavesElems env f items vs os → ∀ fuel s,
      At env rule f s →
      Logs (Walk.mapEach (transform env rule fieldTransform fuel items) vs) s (calls env rule os)
  | .nil, _, s, _ => Logs.pure [] s
  | .cons h hs, fuel, s, hat => by
    rw [calls_append]
    refine Logs.bind (logs_leaves hnodup h fuel s hat) fun r t hrun => ?_
    have hat' := hat.of_orderly (transform_orderly fuel items _) hrun
    exact (logs_leavesElems hnodup hs fuel t hat').after fun _ t' _ => Logs.pure _ t'

theorem logs_leavesEntries (hnodup : ∀ name, ((env.fields name).map Field.name).Nodup) {f : Option (String × Field)}
    {values : AvType} {es : List (String × Datum)} {os : List Occurrence} : LeavesEntries env f values es os →
      ∀ fuel s, At env rule f s →
        Logs (Walk.mapValues (transform env rule fieldTransform fuel values) es) s (calls env rule os)
  | .nil, _, s, _ => Logs.pure [] s
  | .cons h hs, fuel, s, hat => by
    rw [calls_append]
    refine Logs.bind ((logs_leaves hnodup h fuel s hat).after fun _ t _ => Logs.pure _ t) fun r t hrun => ?_
    have hat' := hat.of_orderly (Orderly.mapValue (transform_orderly fuel values) _) hrun
    exact (logs_leavesEntries hnodup hs fuel t hat').after fun _ t' _ => Logs.pure _ t'

/-- The fields that have been written back are not the ones still to come. -/
theorem logs_leavesFields (hnodup : ∀ name, ((env.fields name).map Field.name).Nodup) {recordName : String}
    {fields : List Field} {props : List (String × Datum)} {os : List Occurrence}
    (hfields : (fields.map Field.name).Nodup) :
    LeavesFields env recordName fields props os → ∀ fuel s props',
      (∀ field ∈ fields, props'.lookup field.name = props.lookup field.name) →
      Logs (transformFields env rule (transform env rule fieldTransform fuel) recordName fields props') s
        (calls env rule os)
  | .nil, _, s, props', _ => Logs.pure props' s
  | .absent hnone _ hinherits h, fuel, s, props', hsame => by
    rw [List.map_cons, List.nodup_cons] at hfields
    have hlook := (hsame _ List.mem_cons_self).trans hnone
    simp only [transformFields, readProp, hlook, hinherits]
    exact logs_leavesFields hnodup hfields.2 h fuel s props' fun g hg => hsame g (List.mem_cons_of_mem _ hg)
  | @LeavesFields.present _ _ field _ _ _ _ _ hlook h hs, fuel, s, props', hsame => by
    rw [List.map_cons, List.nodup_cons] at hfields
    have hlook' := (hsame _ List.mem_cons_self).trans hlook
    simp only [transformFields, readProp, hlook', calls_append]
    refine Logs.bind (logs_transformField fuel props' s fun s' hs' => logs_leaves hnodup h fuel s' hs')
      fun props'' t hrun => ?_
    obtain ⟨newVal, hback⟩ := writeBack_of_transformField hrun
    refine logs_leavesFields hnodup hfields.2 hs fuel t props'' fun g hg => ?_
    have hne : g.name ≠ field.name := fun heq => hfields.1 (heq ▸ List.mem_map_of_mem hg)
    exact (lookup_writeBack hne hback).trans (hsame g (List.mem_cons_of_mem _ hg))

end

/-! ## Walks that end -/

structure Lawful (env : Setting) : Prop where
  variant : ∀ name id, env.isValid (.variant name) (.variant id) = true
  array : ∀ items elems, (∀ v ∈ elems, env.isValid items v = true) → env.isValid (.array items)
    (.array elems) = true
  map : ∀ values props, (∀ e ∈ props, env.isValid values e.2 = true) → env.isValid (.map values)
    (.object props) = true
  unwrapped : ∀ types t v, t ∈ types → env.isValid t v = true → env.isValid (.union false types) v = true
  null : ∀ types t, types.find? isNullType = some t → env.isValid (.union true types) .null = true
  wrapped : ∀ types t name v, types.find? (fun t => branchName t = some name) = some t → env.isValid t v = true →
    env.isValid (.union true types) (.object [(name, v)]) = true
  record : ∀ name props, (∀ field ∈ env.fields name,
      (props.lookup field.name = none ∧ field.hasDefault = true ∧ env.inherits field.name = false) ∨
        ∃ v, props.lookup field.name = some v ∧ env.isValid field.type v = true) →
    env.isValid (.record name) (.object props) = true
  null_only : ∀ v, env.isValid (.leaf .null) v = true → v = .null
  only_null : ∀ t, env.isValid t .null = true → isNullType t = true ∨ ∃ wrapped types, t = .union wrapped types

/-- The field transform does not throw and returns values of the types it is called for. -/
def KeepsTypes (env : Setting) (fieldTransform : FieldTransform Datum) : Prop :=
  ∀ c l v, c.type = Leaf.getType l → env.isValid (.leaf l) v = true →
    ∃ w, fieldTransform c v = .ok w ∧ env.isValid (.leaf l) w = true

def Ends (env : Setting) (t : AvType) (m : Nat → Walk Call Datum) : Prop :=
  Settles (fun _ => True) (fun r => env.isValid t r = true) m

theorem transform_succ_run (t : AvType) (v : Datum) (s : WalkState Call) :
    ∃ s' : WalkState Call, (∀ c, s'.fieldContexts.head? = some c → c.type = getType t) ∧
      ∀ fuel, transform env rule fieldTransform (fuel + 1) t v s =
        transformType env rule fieldTransform (transform env rule fieldTransform fuel) t v
          s'.fieldContexts.head? s' := by
  obtain ⟨cs, ns⟩ := s
  cases cs with
  | nil => exact ⟨⟨[], ns⟩, nofun, fun _ => rfl⟩
  | cons c cs =>
    refine ⟨⟨{ c with type := getType t } :: cs, ns⟩, fun c' hc' => ?_, fun _ => rfl⟩
    cases hc'
    rfl

theorem ends_of_transformType {t : AvType} {v : Datum}
    (h : ∀ fieldCtx, (∀ c, fieldCtx = some c → c.type = getType t) → Ends env t fun fuel =>
      transformType env rule fieldTransform (transform env rule fieldTransform fuel) t v fieldCtx) :
    Ends env t fun fuel => transform env rule fieldTransform fuel t v := by
  refine Settles.of_succ fun s => ?_
  obtain ⟨s', htype, hrun⟩ := transform_succ_run t v s
  obtain ⟨n, ⟨a, t', ha, hok⟩ | hbad⟩ := h _ htype s'
  · exact ⟨n, .inl ⟨a, t', ha, fun fuel hfuel => (hrun fuel).trans (hok fuel hfuel)⟩⟩
  · obtain ⟨x, -, hx⟩ := hbad n (le_refl n)
    exact (hx trivial).elim

theorem ends_transformLeaf (hft : KeepsTypes env fieldTransform) {l : Leaf} {v : Datum}
    (hv : env.isValid (.leaf l) v = true) {fieldCtx : Option FieldContext}
    (htype : ∀ c, fieldCtx = some c → c.type = l.getType) :
    Ends env (.leaf l) fun _ => transformLeaf rule fieldTransform v fieldCtx := by
  cases fieldCtx with
  | none => exact Settles.pure hv
  | some c =>
    simp only [transformLeaf]
    split_ifs
    · refine Settles.note (fun _ => ?_) fun _ => Orderly.ofExcept _
      obtain ⟨w, hw, hvalid⟩ := hft c l v (htype c rfl) hv
      rw [hw]
      exact Settles.pure hvalid
    · exact Settles.pure hv

theorem ends_transformUnion {wrapped : Bool} {types : List AvType} {t : AvType} {v w : Datum}
    (hresolve : resolveUnion env wrapped types v = .ok (some (t, w)))
    (h : Ends env t fun fuel => transform env rule fieldTransform fuel t w)
    (hback : ∀ fullName r, env.isValid t r = true →
      ∃ r', (if wrapped then rewrap env fullName types t r else .ok r) = .ok r' ∧
        env.isValid (.union wrapped types) r' = true) :
    Ends env (.union wrapped types) fun fuel =>
      transformUnion env (transform env rule fieldTransform fuel) wrapped types v := by
  unfold transformUnion
  rw [hresolve]
  refine Settles.bind (P := fun resolved => resolved = some (t, w)) (Settles.pure rfl) ?_ ?_
  · rintro _ rfl
    refine Settles.bind h (fun r hr => ?_) fun fuel _ => rewrapped_orderly wrapped types _ _
    refine Settles.bind (P := fun _ => True) (Settles.of_ok fun s => ⟨_, s, trivial, rfl⟩) (fun fullName _ => ?_)
      fun _ _ => Orderly.ofExcept _
    obtain ⟨r', hr', hvalid⟩ := hback fullName r hr
    rw [hr']
    exact Settles.pure hvalid
  · intro fuel resolved
    cases resolved with
    | none => exact Orderly.pure v
    | some sub => exact Orderly.bind (transform_orderly fuel _ _) fun _ => rewrapped_orderly wrapped types _ _

/-- A value of the type of a branch is accepted in that branch, and null as such. -/
theorem rewrap_ok (hlaw : Lawful env) {types : List AvType} {t : AvType} {r : Datum} (ht : t ∈ types)
    (hname : ∃ name, branchName t = some name ∧ types.find? (fun t => branchName t = some name) = some t)
    (hr : env.isValid t r = true) (fullName : String) :
    ∃ r', rewrap env fullName types t r = .ok r' ∧ env.isValid (.union true types) r' = true := by
  obtain ⟨name, hname, hfind⟩ := hname
  cases hnull : isNull r with
  | true =>
    have hr' : r = .null := by
      cases r with
      | null => rfl
      | _ => cases hnull
    subst hr'
    refine ⟨.null, rfl, ?_⟩
    obtain hnt | ⟨wrapped, types', rfl⟩ := hlaw.only_null t hr
    · cases hfirst : types.find? isNullType with
      | none => exact (List.find?_eq_none.mp hfirst t ht hnt).elim
      | some t' => exact hlaw.null types t' hfirst
    · cases hname
  | false =>
    refine ⟨.object [(name, r)], ?_, hlaw.wrapped types t name r hfind hr⟩
    simp [rewrap, hnull, hr, wrap, hname]

theorem null_of_isNullType (hlaw : Lawful env) {t : AvType} {r : Datum} (ht : isNullType t = true)
    (hr : env.isValid t r = true) : r = .null := by
  cases t with
  | leaf l =>
    cases l with
    | null => exact hlaw.null_only r hr
    | _ => cases ht
  | _ => cases ht

variable (env) in
def FieldOk (props : List (String × Datum)) (field : Field) : Prop :=
  (props.lookup field.name = none ∧ field.hasDefault = true ∧ env.inherits field.name = false) ∨
    ∃ v, props.lookup field.name = some v ∧ env.isValid field.type v = true

theorem lookup_setProp_self (props : List (String × Datum)) (name : String) (v : Datum) :
    (setProp props name v).lookup name = some v := by
  unfold setProp
  cases h : props.lookup name with
  | none => simp [List.lookup_append, h]
  | some w => simp [lookup_updateProp, h]

theorem ends_transformField (hrule : rule.condition = false) {recordName : String} {field : Field}
    (props : List (String × Datum)) {v : Datum}
    (h : Ends env field.type fun fuel => transform env rule fieldTransform fuel field.type v) :
    Settles (fun _ => True) (fun props' => ∃ w, env.isValid field.type w = true ∧
      props' = setProp props field.name w)
      fun fuel => transformField env rule (transform env rule fieldTransform fuel) recordName field props v := by
  refine Settles.inField _ (Settles.bind h (fun w hw => ?_) fun _ _ => Orderly.ofExcept _)
  simp only [writeBack, hrule, Bool.false_eq_true, if_false]
  exact Settles.pure ⟨w, hw, rfl⟩

/-- A rule that transforms, and a field transform that keeps the types. -/
structure Smooth (env : Setting) (rule : WalkRule) (fieldTransform : FieldTransform Datum) : Prop where
  transforms : rule.condition = false
  lawful : Lawful env
  keeps : KeepsTypes env fieldTransform
  nodup : ∀ name, ((env.fields name).map Field.name).Nodup

mutual

theorem ends_leaves (hs : Smooth env rule fieldTransform) {f : Option (String × Field)} {t : AvType} {v : Datum}
    {os : List Occurrence} : Leaves env f t v os → Ends env t fun fuel => transform env rule fieldTransform fuel t v
  | .leaf hv => ends_of_transformType fun _ htype => ends_transformLeaf hs.keeps hv htype
  | .variant => ends_of_transformType fun _ _ => Settles.pure (hs.lawful.variant _ _)
  | .array h => ends_of_transformType fun _ _ =>
    Settles.bind (ends_leavesElems hs h) (fun _ hrs => Settles.pure (hs.lawful.array _ _ hrs)) fun _ _ =>
      Orderly.pure _
  | .map h => ends_of_transformType fun _ _ =>
    Settles.bind (ends_leavesEntries hs h) (fun _ hrs => Settles.pure (hs.lawful.map _ _ hrs)) fun _ _ =>
      Orderly.pure _
  | .unwrapped ht h => ends_of_transformType fun _ _ =>
    ends_transformUnion (resolveUnion_unwrapped ht) (ends_leaves hs h) fun _ r hr =>
      ⟨r, rfl, hs.lawful.unwrapped _ _ r (List.mem_of_find?_eq_some ht) hr⟩
  | .null ht h => ends_of_transformType fun _ _ =>
    ends_transformUnion (resolveUnion_null ht) (ends_leaves hs h) fun _ r hr =>
      ⟨.null, by rw [null_of_isNullType hs.lawful (List.find?_some ht) hr]; rfl, hs.lawful.null _ _ ht⟩
  | .wrapped ht _ _ h => ends_of_transformType fun _ _ =>
    ends_transformUnion (resolveUnion_wrapped ht) (ends_leaves hs h) fun fullName r hr =>
      rewrap_ok hs.lawful (List.mem_of_find?_eq_some ht) ⟨_, branchName_of_find ht, ht⟩ hr fullName
  | .record h => ends_of_transformType fun _ _ =>
    Settles.bind (ends_leavesFields hs (hs.nodup _) h _ fun _ _ => rfl)
      (fun _ hprops => Settles.pure (hs.lawful.record _ _ hprops.1)) fun _ _ => Orderly.pure _

theorem ends_leavesElems (hs : Smooth env rule fieldTransform) {f : Option (String × Field)} {items : AvType}
    {vs : List Datum} {os : List Occurrence} : LeavesElems env f items vs os →
    Settles (fun _ => True) (fun rs => ∀ r ∈ rs, env.isValid items r = true) fun fuel =>
      Walk.mapEach (transform env rule fieldTransform fuel items) vs
  | .nil => Settles.pure nofun
  | .cons h hrest => by
    refine Settles.bind (ends_leaves hs h) (fun r hr => ?_) fun fuel _ =>
      Orderly.bind (Orderly.mapEach (transform_orderly fuel items) _) fun _ => Orderly.pure _
    refine Settles.bind (ends_leavesElems hs hrest) (fun rs hrs => ?_) fun _ _ => Orderly.pure _
    exact Settles.pure (List.forall_mem_cons.mpr ⟨hr, hrs⟩)

theorem ends_leavesEntries (hs : Smooth env rule fieldTransform) {f : Option (String × Field)} {values : AvType}
    {es : List (String × Datum)} {os : List Occurrence} : LeavesEntries env f values es os →
      Settles (fun _ => True) (fun rs => ∀ e ∈ rs, env.isValid values e.2 = true) fun fuel =>
        Walk.mapValues (transform env rule fieldTransform fuel values) es
  | .nil => Settles.pure nofun
  | .cons h hrest => by
    refine Settles.bind (P := fun e => env.isValid values e.2 = true) ?_ (fun e he => ?_) fun fuel _ =>
      Orderly.bind (Orderly.mapValues (transform_orderly fuel values) _) fun _ => Orderly.pure _
    · exact Settles.bind (ends_leaves hs h) (fun r hr => Settles.pure hr) fun _ _ => Orderly.pure _
    · refine Settles.bind (ends_leavesEntries hs hrest) (fun rs hrs => ?_) fun _ _ => Orderly.pure _
      exact Settles.pure (List.forall_mem_cons.mpr ⟨he, hrs⟩)

/-- The fields to come are as they were, and the others stay as they are. -/
theorem ends_leavesFields (hs : Smooth env rule fieldTransform) {recordName : String} {fields : List Field}
    {props : List (String × Datum)} {os : List Occurrence} (hfields : (fields.map Field.name).Nodup) :
      LeavesFields env recordName fields props os →
      ∀ props', (∀ field ∈ fields, props'.lookup field.name = props.lookup field.name) →
      Settles (fun _ => True) (fun rs => (∀ field ∈ fields, FieldOk env rs field) ∧
          ∀ name, name ∉ fields.map Field.name → rs.lookup name = props'.lookup name) fun fuel =>
        transformFields env rule (transform env rule fieldTransform fuel) recordName fields props'
  | .nil, _, _ => Settles.pure ⟨nofun, fun _ _ => rfl⟩
  | @LeavesFields.absent _ _ field fields _ _ hnone hdefault hinherits h, props', hsame => by
    rw [List.map_cons, List.nodup_cons] at hfields
    have hlook := (hsame field List.mem_cons_self).trans hnone
    simp only [transformFields, readProp, hlook, hinherits]
    refine (ends_leavesFields hs hfields.2 h props' fun g hg => hsame g (List.mem_cons_of_mem _ hg)).mono ?_
    rintro rs ⟨hok, hrest⟩
    refine ⟨List.forall_mem_cons.mpr ⟨?_, hok⟩, fun name hname => ?_⟩
    · exact .inl ⟨(hrest field.name hfields.1).trans hlook, hdefault, hinherits⟩
    · exact hrest name fun hmem => hname (List.mem_cons_of_mem _ hmem)
  | @LeavesFields.present _ _ field fields _ _ _ _ hlook h hfs, props', hsame => by
    rw [List.map_cons, List.nodup_cons] at hfields
    have hlook' := (hsame field List.mem_cons_self).trans hlook
    simp only [transformFields, readProp, hlook']
    refine Settles.bind (ends_transformField hs.transforms props' (ends_leaves hs h)) ?_ fun fuel _ =>
      transformFields_orderly (transform_orderly fuel) recordName _ _
    rintro _ ⟨w, hw, rfl⟩
    have hne : ∀ g ∈ fields, g.name ≠ field.name := fun g hg heq => hfields.1 (heq ▸ List.mem_map_of_mem hg)
    refine (ends_leavesFields hs hfields.2 hfs (setProp props' field.name w) fun g hg => ?_).mono ?_
    · rw [lookup_setProp (hne g hg)]
      exact hsame g (List.mem_cons_of_mem _ hg)
    · rintro rs ⟨hok, hrest⟩
      refine ⟨List.forall_mem_cons.mpr ⟨?_, hok⟩, fun name hname => ?_⟩
      · exact .inr ⟨w, (hrest field.name hfields.1).trans (lookup_setProp_self props' field.name w), hw⟩
      · rw [hrest name fun hmem => hname (List.mem_cons_of_mem _ hmem)]
        exact lookup_setProp (fun heq => hname (by rw [heq]; exact List.mem_cons_self)) w

end

end Calls

end Avro

end ConfluentKafka
