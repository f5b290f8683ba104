import ConfluentKafka.JsonTransform

/-!
# Two walks with field transforms on strings

A field transform on strings changes texts at places of the message. A walk that makes the same notes
as another one, of a message that differs in its texts only, reaches the same places in the same order.
-/

namespace ConfluentKafka

namespace Json

open JsValue
open ConfluentKafka.Walk (Orderly Follows)

def onStrings (f : FieldContext → List Char → List Char) : FieldTransform JsValue := fun c v =>
    .ok (v.modify (f c) [])

/-- The note is not of a property that the message inherits, or that is read of a primitive value. -/
def Note.Plain : Note → Prop
  | .lookup .inherited => False
  | .lookup .primitive => False
  | _ => True

/-! ## Changes at the same places -/

def Changed (f g : FieldContext → List Char → List Char) (v v' r r' : JsValue) : Prop :=
  ∃ hits, r = v.modifyAll f hits ∧ r' = v'.modifyAll g hits

section Changed

variable {f g : FieldContext → List Char → List Char} {v v' w w' r r' : JsValue}

theorem Changed.refl (v v' : JsValue) : Changed f g v v' v v' := ⟨[], rfl, rfl⟩

theorem Changed.trans (h : Changed f g v v' w w') (h' : Changed f g w w' r r') : Changed f g v v' r r' := by
  obtain ⟨hits, rfl, rfl⟩ := h
  obtain ⟨hits', rfl, rfl⟩ := h'
  exact ⟨hits ++ hits', (modifyAll_append f hits hits' v).symm, (modifyAll_append g hits hits' v').symm⟩

theorem Changed.alike (h : Changed f g v v' r r') (hv : Alike v v') : Alike r r' := by
  obtain ⟨hits, rfl, rfl⟩ := h
  exact hv.modifyAll f g hits

theorem Changed.leaf (c : FieldContext) (v v' : JsValue) :
    Changed f g v v' (v.modify (f c) []) (v'.modify (g c) []) := ⟨[(c, [])], rfl, rfl⟩

theorem Changed.cons {vs vs' rs rs' : List JsValue} (h : Changed f g v v' r r')
    (hs : Changed f g (.array vs) (.array vs') (.array rs) (.array rs')) :
    Changed f g (.array (v :: vs)) (.array (v' :: vs')) (.array (r :: rs)) (.array (r' :: rs')) := by
  obtain ⟨hits, rfl, rfl⟩ := h
  obtain ⟨hits', h₁, h₂⟩ := hs
  refine ⟨within (.index 0) hits ++ hits'.map fun hit => (hit.1, Step.shift hit.2), ?_, ?_⟩
  · rw [modifyAll_append, modifyAll_index]
    exact (modifyAll_shift f hits' _ h₁.symm).symm
  · rw [modifyAll_append, modifyAll_index]
    exact (modifyAll_shift g hits' _ h₂.symm).symm

end Changed

/-! ## Properties of values that are alike -/

theorem isObject_of_alike {v v' : JsValue} (h : Alike v v') : isObject v = isObject v' := by
  obtain rfl | ⟨s, s', rfl, rfl⟩ | ⟨elems, elems', rfl, rfl, -⟩ | ⟨props, props', rfl, rfl, -⟩ := h.cases
  all_goals rfl

theorem isArray_of_alike {v v' : JsValue} (h : Alike v v') : isArray v = isArray v' := by
  obtain rfl | ⟨s, s', rfl, rfl⟩ | ⟨elems, elems', rfl, rfl, -⟩ | ⟨props, props', rfl, rfl, -⟩ := h.cases
  all_goals rfl

theorem eq_array_of_isArray {v : JsValue} (h : isArray v = true) : ∃ elems, v = .array elems := by
  cases v with
  | array elems => exact ⟨elems, rfl⟩
  | _ => cases h

theorem transformArray_of_not_array {walk : JsValue → Walk Note JsValue} {v : JsValue} (h : isArray v = false) :
    transformArray walk v = return v := by
  cases v with
  | array elems => cases h
  | _ => rfl

theorem isNullish_of_alike {v v' : JsValue} (h : Alike v v') : isNullish v = isNullish v' := by
  obtain rfl | ⟨s, s', rfl, rfl⟩ | ⟨elems, elems', rfl, rfl, -⟩ | ⟨props, props', rfl, rfl, -⟩ := h.cases
  all_goals rfl

def place (msg : JsValue) (name : String) : Step :=
  if isArray msg then .index ((JsObject.arrayIndex? name).getD 0) else .key name

variable {env : Setting}

theorem setOwn_of_own {msg v : JsValue} {name : String} (h : find env msg name = .own v)
    (f : FieldContext → List Char → List Char) (hits : List (FieldContext × List Step)) :
    setOwn msg name (v.modifyAll f hits) = msg.modifyAll f (within (place msg name) hits) := by
  obtain ⟨props, rfl, hlook⟩ | ⟨elems, i, rfl, hi, hget⟩ := find_own h
  · show JsValue.object (updateProp name _ props) = _
    rw [show place (.object props) name = .key name from rfl, modifyAll_key]
    congr 1
    refine updateProp_congr fun w hw => ?_
    rw [hlook] at hw
    cases hw
    rfl
  · have hplace : place (.array elems) name = .index i := by simp [place, isArray, hi]
    rw [hplace, modifyAll_index]
    simp only [setOwn, hi, Option.map_some, Option.getD_some]
    congr 1
    refine List.ext_getElem? fun j => ?_
    rw [List.getElem?_modify, List.getElem?_modify]
    by_cases hij : i = j
    · subst hij
      rw [hget]
      rfl
    · simp [hij]

inductive FoundAlike : Found → Found → Prop where
  | nothing : FoundAlike .nothing .nothing
  | own {v v' : JsValue} (h : Alike v v') : FoundAlike (.own v) (.own v')
  | aside {v v' : JsValue} (h : Alike v v') : FoundAlike (.aside v) (.aside v')

theorem alike_of_own {msg msg' v v' : JsValue} {name : String} (h : Alike msg msg')
    (hv : find env msg name = .own v)
    (hv' : find env msg' name = .own v') : Alike v v' := by
  obtain ⟨props, rfl, hlook⟩ | ⟨elems, i, rfl, hi, hget⟩ := find_own hv
  · obtain ⟨props', rfl, hprops⟩ := h.object
    obtain ⟨props', heq, hlook'⟩ | ⟨elems, i, heq, -⟩ := find_own hv'
    · cases heq
      have hblank := lookup_blank hprops name
      rw [hlook, hlook'] at hblank
      exact Option.some.inj hblank
    · cases heq
  · obtain ⟨elems', rfl, helems⟩ := h.array
    obtain ⟨props', heq, -⟩ | ⟨elems', i', heq, hi', hget'⟩ := find_own hv'
    · cases heq
    · cases heq
      rw [hi] at hi'
      cases hi'
      have hblank := congrArg (·[i]?) helems
      simp only [List.getElem?_map, hget, hget', Option.map_some] at hblank
      exact Option.some.inj hblank

theorem alike_of_aside {msg msg' v v' : JsValue} {name : String} (h : Alike msg msg')
    (hv : find env msg name = .aside v) (hv' : find env msg' name = .aside v') : Alike v v' := by
  obtain ⟨elems, rfl, hlen, rfl⟩ | ⟨hlen, rfl, -⟩ := find_aside hv
  · obtain ⟨elems', rfl, helems⟩ := h.array
    obtain ⟨elems', heq, -, rfl⟩ | ⟨hlen', -⟩ := find_aside hv'
    · cases heq
      have hcount : elems.length = elems'.length := by simpa using congrArg List.length helems
      rw [hcount]
      rfl
    · exact (hlen' elems' rfl hlen).elim
  · obtain ⟨elems', rfl, hlen', rfl⟩ | ⟨-, rfl, -⟩ := find_aside hv'
    · obtain ⟨elems, rfl, -⟩ := Alike.array (Eq.symm h)
      exact (hlen elems rfl hlen').elim
    · rfl

theorem find_alike {msg msg' : JsValue} {name : String} (h : Alike msg msg')
    (hplain : Note.Plain (.lookup (find env msg name).kind))
    (hkind : (find env msg name).kind = (find env msg' name).kind) :
    FoundAlike (find env msg name) (find env msg' name) := by
  cases hv : find env msg name with
  | nothing =>
    cases hv' : find env msg' name with
    | nothing => exact .nothing
    | _ => simp only [hv, hv', Found.kind, reduceCtorEq] at hkind
  | own v =>
    cases hv' : find env msg' name with
    | own v' => exact .own (alike_of_own h hv hv')
    | _ => simp only [hv, hv', Found.kind, reduceCtorEq] at hkind
  | aside v =>
    cases hv' : find env msg' name with
    | aside v' => exact .aside (alike_of_aside h hv hv')
    | _ => simp only [hv, hv', Found.kind, reduceCtorEq] at hkind
  | inherited =>
    rw [hv] at hplain
    exact hplain.elim
  | primitive v =>
    rw [hv] at hplain
    exact hplain.elim

/-! ## The walks of two messages that are alike -/

section Pair

variable {rule : WalkRule} {f g : FieldContext → List Char → List Char}
  {walk walk' : Schema → String → JsValue → Walk Note JsValue}

/-- The walks of messages that are alike change them at the same places. -/
def Pairs (f g : FieldContext → List Char → List Char) (walk walk' : JsValue → Walk Note JsValue) : Prop :=
  ∀ msg msg', Alike msg msg' → Follows Note.Plain (Changed f g msg msg') (walk msg) (walk' msg')

theorem Pairs.bind {walk walk' next next' : JsValue → Walk Note JsValue} (h : Pairs f g walk walk')
    (hnext : Pairs f g next next') (ho : ∀ v, Orderly (next v)) (ho' : ∀ v, Orderly (next' v)) :
    Pairs f g (fun v => walk v >>= next) fun v => walk' v >>= next' := by
  intro msg msg' hmsg
  refine Follows.bind (h msg msg' hmsg) (fun r r' hr => ?_) ho ho'
  exact (hnext r r' (hr.alike hmsg)).mono fun a a' ha => hr.trans ha

theorem Pairs.pure : Pairs f g (fun v => return v) fun v => return v :=
  fun msg msg' _ => Follows.pure (Changed.refl msg msg')

theorem pairs_transformFound (hrule : rule.condition = false) {walk walk' : JsValue → Walk Note JsValue}
    (hwalk : Pairs f g walk walk') (propName : String) {msg msg' : JsValue} (hmsg : Alike msg msg')
    (hfound : FoundAlike (find env msg propName) (find env msg' propName)) :
    Follows Note.Plain (Changed f g msg msg') (transformFound rule walk propName msg (find env msg propName))
      (transformFound rule walk' propName msg' (find env msg' propName)) := by
  have hcond : ¬rule.condition = true := by rw [hrule]; nofun
  cases hv : find env msg propName with
  | nothing =>
    cases hv' : find env msg' propName with
    | nothing => exact Follows.pure (Changed.refl msg msg')
    | _ =>
      rw [hv, hv'] at hfound
      cases hfound
  | own v =>
    cases hv' : find env msg' propName with
    | own v' =>
      refine Follows.bind (hwalk v v' (alike_of_own hmsg hv hv')) (fun r r' hr => ?_) (fun a => ?_) fun a => ?_
      · obtain ⟨hits, rfl, rfl⟩ := hr
        rw [if_neg hcond, if_neg hcond]
        refine Follows.pure ⟨within (place msg propName) hits, setOwn_of_own hv f hits, ?_⟩
        rw [show place msg propName = place msg' propName by unfold place; rw [isArray_of_alike hmsg]]
        exact setOwn_of_own hv' g hits
      · rw [if_neg hcond]
        exact Orderly.ofExcept _
      · rw [if_neg hcond]
        exact Orderly.ofExcept _
    | _ =>
      rw [hv, hv'] at hfound
      cases hfound
  | aside v =>
    cases hv' : find env msg' propName with
    | aside v' =>
      refine Follows.bind (hwalk v v' (alike_of_aside hmsg hv hv')) (fun r r' _ => ?_) (fun a => ?_) fun a => ?_
      · rw [if_neg hcond, if_neg hcond]
        exact Follows.pure (Changed.refl msg msg')
      · rw [if_neg hcond]
        exact Orderly.ofExcept _
      · rw [if_neg hcond]
        exact Orderly.ofExcept _
    | _ =>
      rw [hv, hv'] at hfound
      cases hfound
  | inherited =>
    rw [hv] at hfound
    cases hfound
  | primitive v =>
    rw [hv] at hfound
    cases hfound

variable (hrule : rule.condition = false) (hwalk : ∀ schema path, Pairs f g (walk schema path) (walk' schema path))
  (ho : ∀ schema path v, Orderly (walk schema path v)) (ho' : ∀ schema path v, Orderly (walk' schema path v))

include hwalk ho ho'

theorem pairs_transformAllOf (path : String) (subschemas : List Nat) :
    Pairs f g (transformAllOf env (fun schema => walk schema path) subschemas)
      (transformAllOf env (fun schema => walk' schema path) subschemas) := by
  induction subschemas with
  | nil => exact Pairs.pure
  | cons subschema subschemas ih =>
    exact (hwalk (env.graph subschema) path).bind ih
      (transformAllOf_orderly (fun schema v => ho schema path v) subschemas)
      (transformAllOf_orderly (fun schema v => ho' schema path v) subschemas)

theorem pairs_transformOneOf (path : String) (subschemas : List Nat) :
    Pairs f g (transformOneOf env (fun schema => walk schema path) subschemas)
      (transformOneOf env (fun schema => walk' schema path) subschemas) := by
  induction subschemas with
  | nil => exact Pairs.pure
  | cons subschema subschemas ih =>
    intro msg msg' hmsg
    refine Follows.note (fun _ heq => ?_) ?_ ?_
    · rw [← Note.branch.inj heq]
      by_cases hacc : validateSubschema env (env.graph subschema) msg = true
      · rw [if_pos hacc, if_pos hacc]
        exact hwalk _ path msg msg' hmsg
      · rw [if_neg hacc, if_neg hacc]
        exact ih msg msg' hmsg
    · exact Orderly.ite (fun _ => ho _ path msg) fun _ =>
        transformOneOf_orderly (fun schema v => ho schema path v) subschemas msg
    · exact Orderly.ite (fun _ => ho' _ path msg') fun _ =>
        transformOneOf_orderly (fun schema v => ho' schema path v) subschemas msg'

theorem pairs_transformAnyOf (path : String) (subschemas : List Nat) :
    Pairs f g (transformAnyOf env (fun schema => walk schema path) subschemas)
      (transformAnyOf env (fun schema => walk' schema path) subschemas) := by
  induction subschemas with
  | nil => exact Pairs.pure
  | cons subschema subschemas ih =>
    have hrest : ∀ v, Orderly (transformAnyOf env (fun schema => walk schema path) subschemas v) :=
      transformAnyOf_orderly (fun schema v => ho schema path v) subschemas
    have hrest' : ∀ v, Orderly (transformAnyOf env (fun schema => walk' schema path) subschemas v) :=
      transformAnyOf_orderly (fun schema v => ho' schema path v) subschemas
    intro msg msg' hmsg
    refine Follows.note (fun _ heq => ?_) ?_ ?_
    · rw [← Note.branch.inj heq]
      refine Pairs.bind (fun msg msg' hmsg => ?_) ih hrest hrest' msg msg' hmsg
      cases validateSubschema env (env.graph subschema) _ with
      | true => exact hwalk _ path msg msg' hmsg
      | false => exact Follows.pure (Changed.refl msg msg')
    · exact Orderly.bind (transformIf_orderly (ho _ path) _ msg) hrest
    · exact Orderly.bind (transformIf_orderly (ho' _ path) _ msg') hrest'

theorem pairs_transformSubschemas (n : SchemaNode) (path : String) :
    Pairs f g (transformSubschemas env (fun schema => walk schema path) n)
      (transformSubschemas env (fun schema => walk' schema path) n) := by
  intro msg msg' hmsg
  unfold transformSubschemas
  by_cases hall : n.allOf ≠ []
  · rw [if_pos hall, if_pos hall]
    exact pairs_transformAllOf hwalk ho ho' path n.allOf msg msg' hmsg
  · rw [if_neg hall, if_neg hall]
    by_cases hone : n.oneOf ≠ []
    · rw [if_pos hone, if_pos hone]
      exact pairs_transformOneOf hwalk ho ho' path n.oneOf msg msg' hmsg
    · rw [if_neg hone, if_neg hone]
      exact pairs_transformAnyOf hwalk ho ho' path n.anyOf msg msg' hmsg

omit hwalk ho ho' in
theorem follows_transformItems {walk walk' : JsValue → Walk Note JsValue} (hwalk : Pairs f g walk walk')
    (ho : ∀ v, Orderly (walk v)) (ho' : ∀ v, Orderly (walk' v)) {elems elems' : List JsValue}
    (h : elems.map blank = elems'.map blank) :
    Follows Note.Plain (fun rs rs' => Changed f g (.array elems) (.array elems') (.array rs) (.array rs'))
      (transformItems walk elems) (transformItems walk' elems') := by
  induction elems generalizing elems' with
  | nil =>
    cases elems' with
    | nil => exact Follows.pure (Changed.refl _ _)
    | cons v' vs' => simp at h
  | cons v vs ih =>
    cases elems' with
    | nil => simp at h
    | cons v' vs' =>
      simp only [List.map_cons, List.cons.injEq] at h
      refine Follows.bind (hwalk v v' h.1) (fun r r' hr => ?_) (fun _ => ?_) fun _ => ?_
      · refine Follows.bind (ih h.2) (fun rs rs' hrs => Follows.pure (hr.cons hrs)) (fun _ => ?_) fun _ => ?_
        · exact Orderly.pure _
        · exact Orderly.pure _
      · exact Orderly.bind (Orderly.mapEach ho vs) fun _ => Orderly.pure _
      · exact Orderly.bind (Orderly.mapEach ho' vs') fun _ => Orderly.pure _

theorem pairs_transformArray (schema : Schema) (path : String) :
    Pairs f g (transformArray (walk schema path)) (transformArray (walk' schema path)) := by
  intro msg msg' hmsg
  cases harray : isArray msg with
  | false =>
    have harray' : isArray msg' = false := by rw [← isArray_of_alike hmsg, harray]
    rw [transformArray_of_not_array harray, transformArray_of_not_array harray']
    exact Follows.pure (Changed.refl msg msg')
  | true =>
    obtain ⟨elems, rfl⟩ := eq_array_of_isArray harray
    obtain ⟨elems', rfl, helems⟩ := hmsg.array
    refine Follows.bind (follows_transformItems (hwalk schema path) (ho schema path) (ho' schema path) helems)
      (fun rs rs' hrs => Follows.pure hrs) (fun _ => ?_) fun _ => ?_
    · exact Orderly.pure _
    · exact Orderly.pure _

theorem pairs_transformSiblingItems (items : Option Nat) (path : String) :
    Pairs f g (transformSiblingItems env walk items path) (transformSiblingItems env walk' items path) := by
  cases items with
  | none => exact Pairs.pure
  | some items => exact pairs_transformArray hwalk ho ho' (env.graph items) path

include hrule

theorem pairs_transformField (path propName : String) (propSchema : Schema) :
    Pairs f g (fun msg => transformField env rule walk path propName msg propSchema)
      fun msg => transformField env rule walk' path propName msg propSchema := by
  intro msg msg' hmsg
  refine Follows.inField _ (Follows.note (fun hplain hkind => ?_) ?_ ?_)
  · exact pairs_transformFound hrule (hwalk propSchema _) propName hmsg
      (find_alike hmsg hplain (Note.lookup.inj hkind))
  · exact transformFound_orderly (ho _ _) propName msg _
  · exact transformFound_orderly (ho' _ _) propName msg' _

theorem pairs_transformProperties (path : String) (props : List (String × Nat)) :
    Pairs f g (transformProperties env rule walk path props) (transformProperties env rule walk' path props) := by
  induction props with
  | nil => exact Pairs.pure
  | cons p props ih =>
    exact (pairs_transformField hrule hwalk ho ho' path p.1 (env.graph p.2)).bind ih
      (transformProperties_orderly ho path props) (transformProperties_orderly ho' path props)

theorem pairs_transformSiblings (n : SchemaNode) (path : String) :
    Pairs f g (transformSiblings env rule walk n path) (transformSiblings env rule walk' n path) := by
  refine Pairs.bind (fun msg msg' hmsg => ?_) (pairs_transformSiblingItems hwalk ho ho' n.items path)
    (transformSiblingItems_orderly ho n.items path) (transformSiblingItems_orderly ho' n.items path)
  rw [← isObject_of_alike hmsg]
  cases isObject msg with
  | true => exact pairs_transformProperties hrule hwalk ho ho' path _ msg msg' hmsg
  | false => exact Follows.pure (Changed.refl msg msg')

theorem pairs_transformCombined (n : SchemaNode) (path : String) :
    Pairs f g (transformCombined env rule walk n path) (transformCombined env rule walk' n path) :=
  (pairs_transformSubschemas hwalk ho ho' n path).bind (pairs_transformSiblings hrule hwalk ho ho' n path)
    (transformSiblings_orderly ho n path) (transformSiblings_orderly ho' n path)

omit hrule hwalk ho ho' in
theorem pairs_transformLeaf :
    Pairs f g (transformLeaf rule (onStrings f)) (transformLeaf rule (onStrings g)) := by
  intro msg msg' _
  refine Follows.bind (Follows.refl Eq.refl Walk.currentField) (fun c c' hc => ?_)
    (fun _ => Orderly.ofExcept _) fun _ =>
    Orderly.ofExcept _
  subst hc
  cases c with
  | none => exact Follows.pure (Changed.refl msg msg')
  | some c =>
    simp only [Walk.applyRule]
    cases Walk.applies rule c with
    | true => exact Follows.pure (Changed.leaf c msg msg')
    | false => exact Follows.pure (Changed.refl msg msg')

theorem pairs_transformPlain (n : SchemaNode) (path : String) :
    Pairs f g (transformPlain env rule (onStrings f) walk n path)
      (transformPlain env rule (onStrings g) walk' n path) := by
  intro msg msg' hmsg
  unfold transformPlain
  rw [← isArray_of_alike hmsg]
  split
  · exact pairs_transformArray hwalk ho ho' _ path msg msg' hmsg
  · split
    · exact hwalk _ path msg msg' hmsg
    · split
      · exact pairs_transformProperties hrule hwalk ho ho' path _ msg msg' hmsg
      all_goals first | exact pairs_transformLeaf msg msg' hmsg | exact Follows.pure (Changed.refl msg msg')

theorem pairs_transformNode (n : SchemaNode) (path : String) :
    Pairs f g (transformNode env rule (onStrings f) walk n path)
      (transformNode env rule (onStrings g) walk' n path) := by
  intro msg msg' hmsg
  unfold transformNode
  split_ifs
  · exact pairs_transformCombined hrule hwalk ho ho' n path msg msg' hmsg
  · exact pairs_transformPlain hrule hwalk ho ho' n path msg msg' hmsg

theorem pairs_transformTyped (n : SchemaNode) (path : String) :
    Pairs f g (transformTyped env rule (onStrings f) walk n path)
      (transformTyped env rule (onStrings g) walk' n path) := by
  intro msg msg' hmsg
  have hnode : Follows _ (Changed f g msg msg') (transformNode env rule (onStrings f) walk n path msg)
      (transformNode env rule (onStrings g) walk' n path msg') :=
    pairs_transformNode hrule hwalk ho ho' n path msg msg' hmsg
  unfold transformTyped
  split
  · refine Follows.note (fun _ heq => ?_) (transformNarrowed_orderly ho n path msg _)
      (transformNarrowed_orderly ho' n path msg' _)
    rw [← Note.subtype.inj heq]
    cases validateSubtypes env n _ msg with
    | none => exact hnode
    | some t => exact hwalk _ path msg msg' hmsg
  · exact hnode

omit hwalk ho ho' in
theorem pairs_transform (fuel : Nat) (schema : Schema) (path : String) :
    Pairs f g (transform env rule (onStrings f) fuel schema path)
      (transform env rule (onStrings g) fuel schema path) := by
  induction fuel generalizing schema path with
  | zero => exact fun _ _ _ => Follows.throw _ _
  | succ fuel ih =>
    cases schema with
    | bool b => exact Pairs.pure
    | node n =>
      intro msg msg' hmsg
      simp only [transform, ← isNullish_of_alike hmsg]
      cases isNullish msg with
      | true => exact Follows.pure (Changed.refl msg msg')
      | false =>
        refine Follows.bind (Follows.refl Eq.refl (Walk.setType n.getType)) (fun _ _ _ => ?_)
          (fun _ => ?_) fun _ => ?_
        · exact pairs_transformTyped hrule ih (transform_orderly fuel) (transform_orderly fuel) n path msg msg' hmsg
        · exact transformTyped_orderly (transform_orderly fuel) n path msg
        · exact transformTyped_orderly (transform_orderly fuel) n path msg'

end Pair

end Json

end ConfluentKafka
