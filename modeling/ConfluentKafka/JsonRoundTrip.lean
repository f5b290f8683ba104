import ConfluentKafka.JsonPairs

/-!
# Writing and reading with the field transform of JSON schemas

The walk of a message ends if no schema leads back to itself without a step into the message. The
reading walk changes back what the writing walk has changed, where it decides alike.
-/

namespace ConfluentKafka

namespace Json

open JsValue
open ConfluentKafka.Walk (Orderly Settles)

def SchemaNode.subschemas (n : SchemaNode) : List Nat := n.allOf ++ n.anyOf ++ n.oneOf ++ n.ref.toList

/-- No schema leads to itself without a step into the message. -/
def Grounded (graph : Nat → Schema) : Prop :=
  WellFounded fun i j => ∃ n, graph j = .node n ∧ i ∈ n.subschemas

section

variable {env : Setting} {rule : WalkRule} {f : FieldContext → List Char → List Char}

theorem depth_of_own {msg v : JsValue} {name : String} (h : find env msg name = .own v) : v.depth < msg.depth := by
  obtain ⟨props, rfl, hlook⟩ | ⟨elems, i, rfl, -, hget⟩ := find_own h
  · have := depth_le_depthProps hlook
    simp only [depth]
    omega
  · have := depth_le_depthElems (List.mem_of_getElem? hget)
    simp only [depth]
    omega

theorem depth_of_aside {msg v : JsValue} {name : String} (h : find env msg name = .aside v) :
    v.depth < msg.depth := by
  obtain ⟨elems, rfl, -, rfl⟩ | ⟨-, rfl, -⟩ := find_aside h
  · simp only [depth]
    omega
  · cases msg with
    | undefined => cases h
    | null => cases h
    | builtin => cases h
    | _ => simp only [depth]; omega

/-! ## The walk ends -/

section Ends

def Ends (f : FieldContext → List Char → List Char) (msg : JsValue) (m : Nat → Walk Note JsValue) : Prop :=
  Settles Note.Plain (fun r => Changed f f msg msg r r) m

theorem Changed.depth {v r : JsValue} (h : Changed f f v v r r) : r.depth = v.depth := by
  obtain ⟨hits, rfl, -⟩ := h
  exact (alike_modifyAll f hits v).depth

theorem Ends.pure (msg : JsValue) : Ends f msg fun _ => return msg := Settles.pure (Changed.refl msg msg)

theorem Ends.bind {msg : JsValue} {m : Nat → Walk Note JsValue} {k : Nat → JsValue → Walk Note JsValue}
    (hm : Ends f msg m) (hk : ∀ v, v.depth = msg.depth → Ends f v fun fuel => k fuel v)
    (ho : ∀ fuel v, Orderly (k fuel v)) : Ends f msg fun fuel => m fuel >>= k fuel := by
  exact Settles.bind hm (fun v hv => (hk v hv.depth).mono fun _ => hv.trans) ho

variable (hrule : rule.condition = false) {d : Nat}
  (hdeep : ∀ schema path v, v.depth < d → Ends f v fun fuel => transform env rule (onStrings f) fuel schema path v)

include hdeep

theorem ends_transformItems (schema : Schema) (path : String) {elems : List JsValue}
    (h : ∀ v ∈ elems, v.depth < d) :
    Settles Note.Plain (fun rs => Changed f f (.array elems) (.array elems) (.array rs) (.array rs)) fun fuel =>
      transformItems (transform env rule (onStrings f) fuel schema path) elems := by
  induction elems with
  | nil => exact Settles.pure (Changed.refl _ _)
  | cons v vs ih =>
    refine Settles.bind (hdeep schema path v (h v List.mem_cons_self)) (fun r hr => ?_) fun fuel _ => ?_
    · refine Settles.bind (ih fun w hw => h w (List.mem_cons_of_mem v hw)) (fun rs hrs => ?_) fun _ _ =>
        Orderly.pure _
      exact Settles.pure (hr.cons hrs)
    · exact Orderly.bind (Orderly.mapEach (transform_orderly fuel schema path) vs) fun _ => Orderly.pure _

theorem ends_transformArray (schema : Schema) (path : String) {msg : JsValue} (hmsg : msg.depth = d) :
    Ends f msg fun fuel => transformArray (transform env rule (onStrings f) fuel schema path) msg := by
  cases harray : isArray msg with
  | false =>
    simp only [transformArray_of_not_array harray]
    exact Ends.pure msg
  | true =>
    obtain ⟨elems, rfl⟩ := eq_array_of_isArray harray
    have helems : ∀ v ∈ elems, v.depth < d := by
      intro v hv
      have := depth_le_depthElems hv
      simp only [depth] at hmsg
      omega
    exact Settles.bind (ends_transformItems hdeep schema path helems) (fun rs hrs => Settles.pure hrs) fun _ _ =>
      Orderly.pure _

theorem ends_transformSiblingItems (items : Option Nat) (path : String) {msg : JsValue} (hmsg : msg.depth = d) :
    Ends f msg fun fuel => transformSiblingItems env (transform env rule (onStrings f) fuel) items path msg := by
  cases items with
  | none => exact Ends.pure msg
  | some items => exact ends_transformArray hdeep (env.graph items) path hmsg

include hrule

theorem ends_transformField (path propName : String) (propSchema : Schema) {msg : JsValue} (hmsg : msg.depth = d) :
    Ends f msg fun fuel =>
      transformField env rule (transform env rule (onStrings f) fuel) path propName msg propSchema := by
  have hcond : ¬rule.condition = true := by rw [hrule]; nofun
  refine Settles.inField _ (Settles.note (fun hplain => ?_) fun fuel => ?_)
  · cases hv : find env msg propName with
    | nothing => exact Ends.pure msg
    | own v =>
      have hdepth : v.depth < d := hmsg ▸ depth_of_own hv
      refine Settles.bind (hdeep propSchema _ v hdepth) (fun r hr => ?_) fun _ _ => ?_
      · simp only [if_neg hcond]
        obtain ⟨hits, rfl, -⟩ := hr
        exact Settles.pure ⟨_, setOwn_of_own hv f hits, setOwn_of_own hv f hits⟩
      · rw [if_neg hcond]
        exact Orderly.ofExcept _
    | aside v =>
      have hdepth : v.depth < d := hmsg ▸ depth_of_aside hv
      refine Settles.bind (hdeep propSchema _ v hdepth) (fun r _ => ?_) fun _ _ => ?_
      · simp only [if_neg hcond]
        exact Ends.pure msg
      · rw [if_neg hcond]
        exact Orderly.ofExcept _
    | inherited =>
      rw [hv] at hplain
      exact hplain.elim
    | primitive v =>
      rw [hv] at hplain
      exact hplain.elim
  · exact transformFound_orderly (transform_orderly fuel _ _) propName msg _

theorem ends_transformProperties (path : String) (props : List (String × Nat)) {msg : JsValue}
    (hmsg : msg.depth = d) :
    Ends f msg fun fuel =>
      transformProperties env rule (transform env rule (onStrings f) fuel) path props msg := by
  induction props generalizing msg with
  | nil => exact Ends.pure msg
  | cons p props ih =>
    exact (ends_transformField hrule hdeep path p.1 (env.graph p.2) hmsg).bind (fun v hv => ih (hv.trans hmsg))
      fun fuel => transformProperties_orderly (transform_orderly fuel) path props

theorem ends_transformSiblings (n : SchemaNode) (path : String) {msg : JsValue} (hmsg : msg.depth = d) :
    Ends f msg fun fuel => transformSiblings env rule (transform env rule (onStrings f) fuel) n path msg := by
  refine Ends.bind ?_ (fun v hv => ends_transformSiblingItems hdeep n.items path (hv.trans hmsg)) fun fuel =>
    transformSiblingItems_orderly (transform_orderly fuel) n.items path
  cases isObject msg with
  | true => exact ends_transformProperties hrule hdeep path _ hmsg
  | false => exact Ends.pure msg

omit hrule hdeep

/-- The walks of a message of the depth with these subschemas settle. -/
def SubEnds (env : Setting) (rule : WalkRule) (f : FieldContext → List Char → List Char) (d : Nat) (path : String)
    (subschemas : List Nat) : Prop :=
  ∀ i ∈ subschemas, ∀ v, v.depth = d → Ends f v fun fuel => transform env rule (onStrings f) fuel
    (env.graph i) path v

theorem ends_transformAllOf (path : String) {subschemas : List Nat} (h : SubEnds env rule f d path subschemas)
    {msg : JsValue} (hmsg : msg.depth = d) :
    Ends f msg fun fuel =>
      transformAllOf env (fun schema => transform env rule (onStrings f) fuel schema path) subschemas msg := by
  induction subschemas generalizing msg with
  | nil => exact Ends.pure msg
  | cons i subschemas ih =>
    exact (h i List.mem_cons_self msg hmsg).bind
      (fun v hv => ih (fun j hj => h j (List.mem_cons_of_mem i hj)) (hv.trans hmsg)) fun fuel =>
      transformAllOf_orderly (fun schema v => transform_orderly fuel schema path v) subschemas

theorem ends_transformOneOf (path : String) {subschemas : List Nat} (h : SubEnds env rule f d path subschemas)
    {msg : JsValue} (hmsg : msg.depth = d) :
    Ends f msg fun fuel =>
      transformOneOf env (fun schema => transform env rule (onStrings f) fuel schema path) subschemas msg := by
  induction subschemas with
  | nil => exact Ends.pure msg
  | cons i subschemas ih =>
    refine Settles.note (fun _ => ?_) fun fuel => ?_
    · by_cases hacc : validateSubschema env (env.graph i) msg = true
      · simp only [if_pos hacc]
        exact h i List.mem_cons_self msg hmsg
      · simp only [if_neg hacc]
        exact ih fun j hj => h j (List.mem_cons_of_mem i hj)
    · exact Orderly.ite (fun _ => transform_orderly fuel _ path msg) fun _ =>
        transformOneOf_orderly (fun schema v => transform_orderly fuel schema path v) subschemas msg

theorem ends_transformAnyOf (path : String) {subschemas : List Nat} (h : SubEnds env rule f d path subschemas)
    {msg : JsValue} (hmsg : msg.depth = d) :
    Ends f msg fun fuel =>
      transformAnyOf env (fun schema => transform env rule (onStrings f) fuel schema path) subschemas msg := by
  induction subschemas generalizing msg with
  | nil => exact Ends.pure msg
  | cons i subschemas ih =>
    have hrest : ∀ fuel v, Orderly (transformAnyOf env
        (fun schema => transform env rule (onStrings f) fuel schema path) subschemas v) := fun fuel =>
      transformAnyOf_orderly (fun schema v => transform_orderly fuel schema path v) subschemas
    refine Settles.note (fun _ => ?_) fun fuel => ?_
    · refine Ends.bind ?_ (fun v hv => ih (fun j hj => h j (List.mem_cons_of_mem i hj)) (hv.trans hmsg)) hrest
      cases validateSubschema env (env.graph i) msg with
      | true => exact h i List.mem_cons_self msg hmsg
      | false => exact Ends.pure msg
    · exact Orderly.bind (transformIf_orderly (transform_orderly fuel _ path) _ msg) (hrest fuel)

theorem SubEnds.mono {path : String} {is js : List Nat} (h : SubEnds env rule f d path js) (hsub : is ⊆ js) :
    SubEnds env rule f d path is := fun i hi => h i (hsub hi)

theorem ends_transformSubschemas (n : SchemaNode) (path : String) (h : SubEnds env rule f d path n.subschemas)
    {msg : JsValue} (hmsg : msg.depth = d) :
    Ends f msg fun fuel =>
      transformSubschemas env (fun schema => transform env rule (onStrings f) fuel schema path) n msg := by
  unfold transformSubschemas
  by_cases hall : n.allOf ≠ []
  · simp only [if_pos hall]
    exact ends_transformAllOf path (h.mono fun i hi => by simp [SchemaNode.subschemas, hi]) hmsg
  · simp only [if_neg hall]
    by_cases hone : n.oneOf ≠ []
    · simp only [if_pos hone]
      exact ends_transformOneOf path (h.mono fun i hi => by simp [SchemaNode.subschemas, hi]) hmsg
    · simp only [if_neg hone]
      exact ends_transformAnyOf path (h.mono fun i hi => by simp [SchemaNode.subschemas, hi]) hmsg

theorem ends_transformLeaf (msg : JsValue) : Ends f msg fun _ => transformLeaf rule (onStrings f) msg := by
  refine Settles.bind (P := fun _ => True) (Settles.of_ok fun s => ⟨_, s, trivial, rfl⟩) (fun c _ => ?_) fun _ _ =>
    Orderly.ofExcept _
  cases c with
  | none => exact Ends.pure msg
  | some c =>
    simp only [Walk.applyRule]
    cases Walk.applies rule c with
    | true => exact Settles.pure (Changed.leaf c msg msg)
    | false => exact Ends.pure msg

include hrule hdeep

theorem ends_transformNode (n : SchemaNode) (path : String) (h : SubEnds env rule f d path n.subschemas)
    {msg : JsValue} (hmsg : msg.depth = d) :
    Ends f msg fun fuel => transformNode env rule (onStrings f) (transform env rule (onStrings f) fuel) n
      path msg := by
  unfold transformNode
  split_ifs
  · exact (ends_transformSubschemas n path h hmsg).bind
      (fun v hv => ends_transformSiblings hrule hdeep n path (hv.trans hmsg)) fun fuel =>
      transformSiblings_orderly (transform_orderly fuel) n path
  · unfold transformPlain
    split
    · exact ends_transformArray hdeep _ path hmsg
    · split
      · rename_i r hr
        exact h r (by simp [SchemaNode.subschemas, hr]) msg hmsg
      · split
        · exact ends_transformProperties hrule hdeep path _ hmsg
        all_goals first | exact ends_transformLeaf msg | exact Ends.pure msg

omit hrule hdeep in
theorem ends_transform_succ (n : SchemaNode) (path : String) {msg : JsValue}
    (h : Ends f msg fun fuel => transformTyped env rule (onStrings f)
      (transform env rule (onStrings f) fuel) n path msg) :
    Ends f msg fun fuel => transform env rule (onStrings f) fuel (.node n) path msg := by
  refine Settles.of_succ ?_
  simp only [transform]
  cases isNullish msg with
  | true => exact Ends.pure msg
  | false =>
    refine Settles.bind (P := fun _ => True) (Settles.of_ok fun s => ⟨_, _, trivial, rfl⟩)
      (fun _ _ => h) fun fuel _ =>
      transformTyped_orderly (transform_orderly fuel) n path msg

theorem ends_transform_node (n : SchemaNode) (path : String) (h : SubEnds env rule f d path n.subschemas)
    {msg : JsValue} (hmsg : msg.depth = d) :
    Ends f msg fun fuel => transform env rule (onStrings f) fuel (.node n) path msg := by
  refine ends_transform_succ n path ?_
  have hnode := ends_transformNode hrule hdeep n path h hmsg
  unfold transformTyped
  split
  · refine Settles.note (fun _ => ?_) fun fuel => transformNarrowed_orderly (transform_orderly fuel) n path msg _
    cases validateSubtypes env n _ msg with
    | none => exact hnode
    | some t =>
      exact ends_transform_succ _ path (ends_transformNode hrule hdeep { n with type := some (.inl t) } path h hmsg)
  · exact hnode

omit hdeep in
/-- By induction on the depth of the message, and then on how the schema is grounded. -/
theorem ends_transform (hgraph : Grounded env.graph) (schema : Schema) (path : String) (msg : JsValue) :
    Ends f msg fun fuel => transform env rule (onStrings f) fuel schema path msg := by
  induction hd : msg.depth using Nat.strong_induction_on generalizing schema path msg with
  | _ d ih =>
    have hdeep : ∀ schema path v, v.depth < d →
        Ends f v fun fuel => transform env rule (onStrings f) fuel schema path v :=
      fun schema path v hv => ih v.depth hv schema path v rfl
    have hschema : ∀ schema path msg, msg.depth = d →
        (∀ n, schema = .node n → SubEnds env rule f d path n.subschemas) →
        Ends f msg fun fuel => transform env rule (onStrings f) fuel schema path msg := by
      intro schema path msg hmsg hsub
      cases schema with
      | bool b => exact Settles.of_succ (Ends.pure msg)
      | node n => exact ends_transform_node hrule hdeep n path (hsub n rfl) hmsg
    have hids : ∀ i path msg, msg.depth = d →
        Ends f msg fun fuel => transform env rule (onStrings f) fuel (env.graph i) path msg := by
      intro i
      induction i using hgraph.induction with
      | _ i ihi =>
        intro path msg hmsg
        exact hschema _ path msg hmsg fun n hn j hj v hv => ihi j ⟨n, hn, hj⟩ path v hv
    exact hschema schema path msg hd fun n _ j _ v hv => hids j path v hv

end Ends

/-! ## The round trip -/

/-- The walk that reads returns the message that has been written, if it makes the decisions of the walk that
wrote it and none of these was about a property that the message itself does not have. -/
theorem read_of_write {g : FieldContext → List Char → List Char} (hrule : rule.condition = false)
    (hgraph : Grounded env.graph) (hinv : ∀ c s, g c (f c s) = s) (hcomm : ∀ c c' s, f c (f c' s) = f c' (f c s))
    (schema : Schema) (path : String) (msg : JsValue) :
    ∃ n, ∀ fuel ≥ n,
      (∀ x ∈ (endState (transform env rule (onStrings f) fuel schema path msg ⟨[], []⟩)).notes, x.Plain) →
      ∃ written notes, transform env rule (onStrings f) fuel schema path msg ⟨[], []⟩ = .ok written ⟨[], notes⟩ ∧
        ((endState (transform env rule (onStrings g) fuel schema path written ⟨[], []⟩)).notes = notes →
          transform env rule (onStrings g) fuel schema path written ⟨[], []⟩ = .ok msg ⟨[], notes⟩) := by
  obtain ⟨n, ⟨written, t, hchanged, hrun⟩ | hbad⟩ := ends_transform (f := f) hrule hgraph schema path msg ⟨[], []⟩
  · replace hrun : ∀ fuel ≥ n, transform env rule (onStrings f) fuel schema path msg ⟨[], []⟩ = .ok written t :=
      hrun
    have hout : t.fieldContexts = [] := by
      have horderly : Orderly (transform env rule (onStrings f) n schema path msg) :=
        transform_orderly n schema path msg
      have hend := horderly.outside (s := ⟨[], []⟩) rfl
      rwa [hrun n (le_refl n)] at hend
    have ht : t = ⟨[], t.notes⟩ := by rw [← hout]
    refine ⟨n, fun fuel hfuel hplain => ⟨written, t.notes, (hrun fuel hfuel).trans (by rw [← ht]),
      fun hnotes => ?_⟩⟩
    rw [hrun fuel hfuel] at hplain
    have halike : Alike msg written := by
      obtain ⟨hits, rfl, -⟩ := hchanged
      exact (alike_modifyAll f hits msg).symm
    obtain ⟨back, hback, hits, hwritten, rfl⟩ := pairs_transform (g := g) hrule fuel schema path msg written halike
      ⟨[], []⟩ written t (hrun fuel hfuel) hplain (.inl (by rw [hnotes]))
    rw [hback, ← ht, hwritten, modifyAll_modifyAll hinv hcomm]
  · refine ⟨n, fun fuel hfuel hplain => ?_⟩
    obtain ⟨x, hx, hnot⟩ := hbad fuel hfuel
    exact (hnot (hplain x hx)).elim

end

/-! ## Decisions that differ -/

namespace Sample

def empty : SchemaNode := ⟨none, false, none, none, [], [], [], none, [], 0⟩

/-- The names 0 and 4 are of records with a name: a text of at most one character or any text, or a text that
is one of an enumeration. -/
def graph : Nat → Schema
  | 0 => .node { empty with type := some (.inl .object), properties := some [("name", 1)] }
  | 1 => .node { empty with anyOf := [2, 3], tags := ["PII"] }
  | 2 => .node { empty with type := some (.inl .string), constraints := 1 }
  | 3 => .node { empty with type := some (.inl .string) }
  | 4 => .node { empty with type := some (.inl .object), properties := some [("name", 5)] }
  | 5 => .node { empty with allOf := [3, 6], tags := ["PII"] }
  | 6 => .node { empty with values := true }
  | _ => .bool true

def typeAccepts : Option (TypeName ⊕ List TypeName) → JsValue → Bool
  | none, _ => true
  | some (.inl .object), .object _ => true
  | some (.inl .string), .string _ => true
  | _, _ => false

/-- The constraint is `maxLength`, where it is not 0, and the enumeration has one text. -/
def textAccepts (n : SchemaNode) : JsValue → Bool
  | .string s => (n.constraints = 0 ∨ s.length ≤ n.constraints) ∧ (n.values → s = ['a'])
  | _ => !n.values

def accepts : Nat → Schema → JsValue → Bool
  | 0, _, _ => false
  | _ + 1, .bool b, _ => b
  | fuel + 1, .node n, v =>
    typeAccepts n.type v && textAccepts n v &&
      ((n.properties.getD []).all fun p =>
        match v with
        | .object props => ((props.lookup p.1).map (accepts fuel (graph p.2))).getD true
        | _ => true) &&
      (n.allOf.all fun i => accepts fuel (graph i) v) &&
      (n.anyOf.isEmpty || n.anyOf.any fun i => accepts fuel (graph i) v)

def setting : Setting where
  graph := graph
  validateJSON n v := accepts 3 (.node n) v
  inherits _ name := name ∈ ["constructor", "hasOwnProperty", "isPrototypeOf", "propertyIsEnumerable",
    "toLocaleString", "toString", "valueOf", "__defineGetter__", "__defineSetter__", "__lookupGetter__",
    "__lookupSetter__"]

def rule : WalkRule := ⟨"mark", ["PII"], false, fun _ => []⟩

def person (name : String) : JsValue := .object [("name", .string name.toList)]

/-- Puts a mark before the text, one for enumerations and another one else. -/
def mark (c : FieldContext) (s : List Char) : List Char := (if c.type = .ENUM then '#' else '*') :: s

def unmark (c : FieldContext) : List Char → List Char
  | [] => []
  | x :: s => if x = (if c.type = .ENUM then '#' else '*') then s else x :: s

theorem unmark_mark (c : FieldContext) (s : List Char) : unmark c (mark c s) = s := by
  simp only [mark, unmark, if_true]

theorem grounded_graph : Grounded graph := by
  refine Subrelation.wf (r := InvImage (· < ·) fun i => if i = 1 ∨ i = 5 then 1 else 0) ?_
    (InvImage.wf _ Nat.lt_wfRel.wf)
  rintro i j ⟨n, hn, hi⟩
  unfold graph at hn
  split at hn <;> cases hn <;>
    simp only [SchemaNode.subschemas, empty, List.nil_append, List.append_nil, Option.toList_none, List.not_mem_nil,
      List.mem_cons, or_false] at hi
  · obtain rfl | rfl := hi
    · exact Nat.zero_lt_one
    · exact Nat.zero_lt_one
  · obtain rfl | rfl := hi
    · exact Nat.zero_lt_one
    · exact Nat.zero_lt_one

end Sample

open Sample in
/-- A text that has become too long for a branch is read with the other branch only, and marks that do not
commute are taken off in the wrong order. -/
theorem read_differs :
    accepts 3 (graph 0) (person "a") = true ∧ accepts 3 (graph 4) (person "a") = true ∧
      (∀ c s, unmark c (mark c s) = s) ∧
      (∃ t t', transform setting rule (onStrings mark) 9 (graph 0) "$" (person "a") ⟨[], []⟩ = .ok
        (person "**a") t ∧
        transform setting rule (onStrings unmark) 9 (graph 0) "$" (person "**a") ⟨[], []⟩ = .ok (person "*a") t') ∧
      ∃ t t', transform setting rule (onStrings mark) 9 (graph 4) "$" (person "a") ⟨[], []⟩ = .ok (person "#*a") t ∧
        transform setting rule (onStrings unmark) 9 (graph 4) "$" (person "#*a") ⟨[], []⟩ = .ok (person "*a") t' ∧
        person "*a" ≠ person "a" :=
  ⟨by decide, by decide, unmark_mark, ⟨_, _, rfl, rfl⟩, ⟨_, _, rfl, rfl, by simp [person]⟩⟩

open Sample in
theorem read_of_write_long :
    (transform setting rule (onStrings fun _ s => '*' :: s) 9 (graph 0) "$" (person "ab") ⟨[], []⟩ =
        .ok (person "*ab") ⟨[], [.lookup .own, .branch false, .branch true]⟩ ∧
      transform setting rule (onStrings fun _ => List.tail) 9 (graph 0) "$" (person "*ab") ⟨[], []⟩ =
        .ok (person "ab") ⟨[], [.lookup .own, .branch false, .branch true]⟩) ∧
      ∃ n, ∀ fuel ≥ n,
        (∀ x ∈ (endState (transform setting rule (onStrings fun _ s => '*' :: s) fuel (graph 0) "$" (person "ab")
          ⟨[], []⟩)).notes, x.Plain) →
        ∃ written notes, transform setting rule (onStrings fun _ s => '*' :: s) fuel (graph 0) "$" (person "ab")
            ⟨[], []⟩ = .ok written ⟨[], notes⟩ ∧
          ((endState (transform setting rule (onStrings fun _ => List.tail) fuel (graph 0) "$" written
              ⟨[], []⟩)).notes = notes →
            transform setting rule (onStrings fun _ => List.tail) fuel (graph 0) "$" written ⟨[], []⟩ =
              .ok (person "ab") ⟨[], notes⟩) :=
  ⟨⟨rfl, rfl⟩, read_of_write rfl grounded_graph (fun _ _ => rfl) (fun _ _ _ => rfl) (graph 0) "$" (person "ab")⟩

end Json

end ConfluentKafka
