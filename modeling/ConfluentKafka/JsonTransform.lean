import ConfluentKafka.JsObject
import ConfluentKafka.JsValue
import ConfluentKafka.WalkRules

/-!
# The field transform of JSON schemas

`transform` of `json.ts` with the functions it calls. A dereferenced schema may contain itself, so
that schemas are the nodes of a graph; the validator is a parameter. Messages are written to in
place, which the walk models by returning the message.
-/

namespace ConfluentKafka

namespace Json

inductive TypeName where
  | object | array | string | integer | number | boolean | null | other
  deriving DecidableEq

/-- An object schema. `values` tells whether it has `const` or `enum`; `constraints` stands for what only the
validator reads. An absent list of subschemas is like an empty one. -/
structure SchemaNode where
  type : Option (TypeName ⊕ List TypeName)
  values : Bool
  properties : Option (List (String × Nat))
  items : Option Nat
  allOf : List Nat
  anyOf : List Nat
  oneOf : List Nat
  ref : Option Nat
  tags : List String
  constraints : Nat
  deriving DecidableEq

inductive Schema where
  | bool (b : Bool)
  | node (n : SchemaNode)
  deriving DecidableEq

def SchemaNode.getType (n : SchemaNode) : FieldType :=
  if n.values then .ENUM
  else
    match n.type with
    | none => if n.properties.getD [] ≠ [] then .RECORD else .NULL
    | some (.inr _) => .COMBINED
    | some (.inl t) =>
      match t with
      | .object => if n.properties.getD [] = [] then .MAP else .RECORD
      | .array => .ARRAY
      | .string => .STRING
      | .integer => .INT
      | .number => .DOUBLE
      | .boolean => .BOOLEAN
      | .null => .NULL
      | .other => .NULL

def getType : Schema → FieldType
  | .bool _ => .NULL
  | .node n => n.getType

def getInlineTags : Schema → List String
  | .bool _ => []
  | .node n => n.tags

/-! ## Properties of a message -/

/-- What reading a property finds. A value that is `aside` is not part of the message, and writing the same
value back changes nothing: the prototype, the length of an array and what an array inherits. -/
inductive Found where
  | nothing
  | own (v : JsValue)
  | aside (v : JsValue)
  | inherited
  | primitive (v : JsValue)

inductive Lookup where
  | nothing | own | aside | inherited | primitive
  deriving DecidableEq

def Found.kind : Found → Lookup
  | .nothing => .nothing
  | .own _ => .own
  | .aside _ => .aside
  | .inherited => .inherited
  | .primitive _ => .primitive

def Found.value : Found → Option JsValue
  | .nothing => none
  | .own v => some v
  | .aside v => some v
  | .inherited => some .builtin
  | .primitive v => some v

/-- The parameters of a walk: the schemas by their numbers, the validator, and the names, but for `__proto__`,
that a value inherits from its prototype. -/
structure Setting where
  graph : Nat → Schema
  validateJSON : SchemaNode → JsValue → Bool
  inherits : JsValue → String → Bool

section Walk

variable (env : Setting)

def present : JsValue → Found
  | .undefined => .nothing
  | .null => .nothing
  | v => .own v

def find (msg : JsValue) (name : String) : Found :=
  match msg with
  | .object props =>
    match props.lookup name with
    | some v => present v
    | none =>
      if name = "__proto__" then .aside .builtin
      else if env.inherits msg name then .inherited
      else .nothing
  | .array elems =>
    match (JsObject.arrayIndex? name).bind fun i => elems[i]? with
    | some v => present v
    | none =>
      if name = "length" then .aside (.number elems.length)
      else if name = "__proto__" ∨ env.inherits msg name then .aside .builtin
      else .nothing
  | .string s =>
    if name = "__proto__" then .aside .builtin
    else if name = "length" then .primitive (.number s.length)
    else
      match (JsObject.arrayIndex? name).bind fun i => s[i]? with
      | some c => .primitive (.string [c])
      | none => if env.inherits msg name then .primitive .builtin else .nothing
  | .bool _ | .number _ =>
    if name = "__proto__" then .aside .builtin
    else if env.inherits msg name then .primitive .builtin
    else .nothing
  | _ => .nothing

def setOwn (msg : JsValue) (name : String) (newVal : JsValue) : JsValue :=
  match msg with
  | .object props => .object (updateProp name (fun _ => newVal) props)
  | .array elems => .array (((JsObject.arrayIndex? name).map fun i => elems.modify i fun _ => newVal).getD elems)
  | v => v

/-- `msg[name] = newVal`, in strict mode. -/
def assign (msg : JsValue) (name : String) (newVal : JsValue) : Found → Except WalkError JsValue
  | .nothing => .ok msg
  | .own _ => .ok (setOwn msg name newVal)
  | .aside _ => .ok msg
  | .inherited =>
    match msg with
    | .object props => .ok (.object (props ++ [(name, newVal)]))
    | v => .ok v
  | .primitive _ => .error .typeError

theorem present_own {v w : JsValue} (h : present v = .own w) : w = v := by
  cases v with
  | undefined => cases h
  | null => cases h
  | _ =>
    cases h
    rfl

theorem present_cases (v : JsValue) : present v = .nothing ∨ present v = .own v := by
  cases v with
  | undefined => exact .inl rfl
  | null => exact .inl rfl
  | _ => exact .inr rfl

variable {env}

theorem find_own {msg v : JsValue} {name : String} (h : find env msg name = .own v) :
    (∃ props, msg = .object props ∧ props.lookup name = some v) ∨
      ∃ elems i, msg = .array elems ∧ JsObject.arrayIndex? name = some i ∧ elems[i]? = some v := by
  cases msg with
  | object props =>
    left
    refine ⟨props, rfl, ?_⟩
    simp only [find] at h
    split at h
    · rename_i w hw
      rw [hw, present_own h]
    · split_ifs at h
  | array elems =>
    right
    simp only [find] at h
    split at h
    · rename_i w hw
      obtain ⟨i, hi, hget⟩ := Option.bind_eq_some_iff.mp hw
      exact ⟨elems, i, rfl, hi, by rw [hget, present_own h]⟩
    · split_ifs at h
  | string s =>
    simp only [find] at h
    split_ifs at h
    all_goals
      split at h
      · cases h
      · cases h
  | bool b =>
    simp only [find] at h
    split_ifs at h
  | number n =>
    simp only [find] at h
    split_ifs at h
  | _ => cases h

theorem find_aside {msg v : JsValue} {name : String} (h : find env msg name = .aside v) :
    (∃ elems, msg = .array elems ∧ name = "length" ∧ v = .number elems.length) ∨
      ((∀ elems, msg = .array elems → name ≠ "length") ∧ v = .builtin ∧ msg ≠ .builtin) := by
  cases msg with
  | object props =>
    refine .inr ⟨nofun, ?_, nofun⟩
    simp only [find] at h
    split at h
    · rename_i w hw
      obtain hv | hv := present_cases w
      · rw [hv] at h
        cases h
      · rw [hv] at h
        cases h
    · split_ifs at h
      cases h
      rfl
  | array elems =>
    simp only [find] at h
    split at h
    · rename_i w hw
      obtain hv | hv := present_cases w
      · rw [hv] at h
        cases h
      · rw [hv] at h
        cases h
    · split_ifs at h with hlen
      · cases h
        exact .inl ⟨elems, rfl, hlen, rfl⟩
      · cases h
        exact .inr ⟨fun _ _ => hlen, rfl, nofun⟩
  | string s =>
    refine .inr ⟨nofun, ?_, nofun⟩
    simp only [find] at h
    split_ifs at h
    · cases h
      rfl
    all_goals
      split at h
      · cases h
      · cases h
  | bool b =>
    refine .inr ⟨nofun, ?_, nofun⟩
    simp only [find] at h
    split_ifs at h
    cases h
    rfl
  | number n =>
    refine .inr ⟨nofun, ?_, nofun⟩
    simp only [find] at h
    split_ifs at h
    cases h
    rfl
  | _ => cases h

variable (env)

/-! ## The walk -/

/-- What a walk decides: the type it takes of several, whether a subschema accepts the message, what a
property is. -/
inductive Note where
  | subtype (t : Option TypeName)
  | branch (accepted : Bool)
  | lookup (l : Lookup)
  deriving DecidableEq

def validateSubtypes (n : SchemaNode) (types : List TypeName) (msg : JsValue) : Option TypeName :=
  types.find? fun t => env.validateJSON { n with type := some (.inl t) } msg

def validateSubschema (schema : Schema) (msg : JsValue) : Bool :=
  match schema with
  | .bool b => b
  | .node n => env.validateJSON n msg

variable (rule : WalkRule) (fieldTransform : FieldTransform JsValue)

def transformFound (walk : JsValue → Walk Note JsValue) (propName : String) (msg : JsValue) (found : Found) :
    Walk Note JsValue :=
  match found.value with
  | none => return msg
  | some value => do
    let newVal ← walk value
    if rule.condition then
      match newVal with
      | .bool false => throw .ruleConditionError
      | _ => return msg
    else Walk.ofExcept (assign msg propName newVal found)

def transformField (walk : Schema → String → JsValue → Walk Note JsValue) (path propName : String) (msg : JsValue)
    (propSchema : Schema) : Walk Note JsValue :=
  let fullName := path ++ "." ++ propName
  Walk.inField (Walk.enterField rule fullName propName (getType propSchema) (getInlineTags propSchema)) do
    Walk.note (.lookup (find env msg propName).kind)
    transformFound rule (walk propSchema fullName) propName msg (find env msg propName)

def transformProperties (walk : Schema → String → JsValue → Walk Note JsValue) (path : String) :
    List (String × Nat) → JsValue → Walk Note JsValue
  | [], msg => return msg
  | (propName, propSchema) :: props, msg => do
    let msg ← transformField env rule walk path propName msg (env.graph propSchema)
    transformProperties walk path props msg

def transformItems (walk : JsValue → Walk Note JsValue) (elems : List JsValue) : Walk Note (List JsValue) :=
  Walk.mapEach walk elems

def transformIf (accepted : Bool) (walk : JsValue → Walk Note JsValue) (msg : JsValue) : Walk Note JsValue :=
  if accepted then walk msg else return msg

def transformAllOf (walk : Schema → JsValue → Walk Note JsValue) : List Nat → JsValue → Walk Note JsValue
  | [], msg => return msg
  | subschema :: subschemas, msg => do
    let msg ← walk (env.graph subschema) msg
    transformAllOf walk subschemas msg

def transformOneOf (walk : Schema → JsValue → Walk Note JsValue) : List Nat → JsValue → Walk Note JsValue
  | [], msg => return msg
  | subschema :: subschemas, msg => do
    Walk.note (.branch (validateSubschema env (env.graph subschema) msg))
    if validateSubschema env (env.graph subschema) msg then walk (env.graph subschema) msg
    else transformOneOf walk subschemas msg

def transformAnyOf (walk : Schema → JsValue → Walk Note JsValue) : List Nat → JsValue → Walk Note JsValue
  | [], msg => return msg
  | subschema :: subschemas, msg => do
    Walk.note (.branch (validateSubschema env (env.graph subschema) msg))
    let msg ← transformIf (validateSubschema env (env.graph subschema) msg) (walk (env.graph subschema)) msg
    transformAnyOf walk subschemas msg

def transformArray (walk : JsValue → Walk Note JsValue) (msg : JsValue) : Walk Note JsValue :=
  match msg with
  | .array elems => do
    let newVals ← transformItems walk elems
    return .array newVals
  | v => return v

def isObject : JsValue → Bool
  | .object _ => true
  | _ => false

def isArray : JsValue → Bool
  | .array _ => true
  | _ => false

def transformLeaf (msg : JsValue) : Walk Note JsValue := do
  let fieldCtx ← Walk.currentField
  Walk.ofExcept (Walk.applyRule rule fieldTransform fieldCtx msg)

def transformSubschemas (walk : Schema → JsValue → Walk Note JsValue) (n : SchemaNode) (msg : JsValue) :
    Walk Note JsValue :=
  if n.allOf ≠ [] then transformAllOf env walk n.allOf msg
  else if n.oneOf ≠ [] then transformOneOf env walk n.oneOf msg
  else transformAnyOf env walk n.anyOf msg

def transformSiblingItems (walk : Schema → String → JsValue → Walk Note JsValue) (items : Option Nat)
    (path : String)
    (msg : JsValue) : Walk Note JsValue :=
  match items with
  | some items => transformArray (walk (env.graph items) path) msg
  | none => return msg

def transformSiblings (walk : Schema → String → JsValue → Walk Note JsValue) (n : SchemaNode) (path : String)
    (msg : JsValue) : Walk Note JsValue := do
  let msg ← transformIf (isObject msg) (transformProperties env rule walk path (n.properties.getD [])) msg
  transformSiblingItems env walk n.items path msg

def transformCombined (walk : Schema → String → JsValue → Walk Note JsValue) (n : SchemaNode) (path : String)
    (msg : JsValue) : Walk Note JsValue := do
  let msg ← transformSubschemas env (fun schema => walk schema path) n msg
  transformSiblings env rule walk n path msg

def transformPlain (walk : Schema → String → JsValue → Walk Note JsValue) (n : SchemaNode) (path : String)
    (msg : JsValue) : Walk Note JsValue :=
  match n.items, isArray msg with
  | some items, true => transformArray (walk (env.graph items) path) msg
  | _, _ =>
    match n.ref with
    | some r => walk (env.graph r) path msg
    | none =>
      match n.getType with
      | .RECORD => transformProperties env rule walk path (n.properties.getD []) msg
      | .ENUM | .STRING | .INT | .DOUBLE | .BOOLEAN => transformLeaf rule fieldTransform msg
      | _ => return msg

def transformNode (walk : Schema → String → JsValue → Walk Note JsValue) (n : SchemaNode) (path : String)
    (msg : JsValue) : Walk Note JsValue :=
  if n.allOf ≠ [] ∨ n.anyOf ≠ [] ∨ n.oneOf ≠ [] then transformCombined env rule walk n path msg
  else transformPlain env rule fieldTransform walk n path msg

/-- A schema with several types is narrowed to the first one that accepts the message, if one does. -/
def transformNarrowed (walk : Schema → String → JsValue → Walk Note JsValue) (n : SchemaNode) (path : String)
    (msg : JsValue) (subtype : Option TypeName) : Walk Note JsValue :=
  match subtype with
  | some t => walk (.node { n with type := some (.inl t) }) path msg
  | none => transformNode env rule fieldTransform walk n path msg

def transformTyped (walk : Schema → String → JsValue → Walk Note JsValue) (n : SchemaNode) (path : String)
    (msg : JsValue) : Walk Note JsValue :=
  match n.type with
  | some (.inr (t :: types)) => do
    Walk.note (.subtype (validateSubtypes env n (t :: types) msg))
    transformNarrowed env rule fieldTransform walk n path msg (validateSubtypes env n (t :: types) msg)
  | _ => transformNode env rule fieldTransform walk n path msg

def isNullish : JsValue → Bool
  | .undefined => true
  | .null => true
  | _ => false

def transform : Nat → Schema → String → JsValue → Walk Note JsValue
  | 0, _, _, _ => throw .outOfFuel
  | fuel + 1, schema, path, msg =>
    match schema with
    | .bool _ => return msg
    | .node n =>
      if isNullish msg then return msg
      else do
        Walk.setType n.getType
        transformTyped env rule fieldTransform (transform fuel) n path msg

/-! ## The walk is orderly -/

open ConfluentKafka.Walk (Orderly)

variable {env rule fieldTransform} {walk : Schema → String → JsValue → Walk Note JsValue}

theorem transformFound_orderly {walk : JsValue → Walk Note JsValue} (hwalk : ∀ v, Orderly (walk v))
    (propName : String)
    (msg : JsValue) (found : Found) : Orderly (transformFound rule walk propName msg found) := by
  unfold transformFound
  split
  · exact Orderly.pure msg
  · refine Orderly.bind (hwalk _) fun newVal => Orderly.ite (fun _ => ?_) fun _ => Orderly.ofExcept _
    split
    · exact Orderly.throw _
    · exact Orderly.pure msg

theorem transformField_orderly (hwalk : ∀ schema path v, Orderly (walk schema path v)) (path propName : String)
    (msg : JsValue) (propSchema : Schema) : Orderly (transformField env rule walk path propName msg propSchema) :=
  Orderly.inField _ (Orderly.bind (Orderly.note _) fun _ => transformFound_orderly (hwalk _ _) propName msg _)

theorem transformProperties_orderly (hwalk : ∀ schema path v, Orderly (walk schema path v)) (path : String)
    (props : List (String × Nat)) (msg : JsValue) : Orderly (transformProperties env rule walk path props msg) := by
  induction props generalizing msg with
  | nil => exact Orderly.pure msg
  | cons p props ih => exact Orderly.bind (transformField_orderly hwalk path p.1 msg _) ih

theorem transformArray_orderly {walk : JsValue → Walk Note JsValue} (hwalk : ∀ v, Orderly (walk v))
    (msg : JsValue) :
    Orderly (transformArray walk msg) := by
  cases msg with
  | array elems => exact Orderly.bind (Orderly.mapEach hwalk elems) fun _ => Orderly.pure _
  | _ => exact Orderly.pure _

theorem transformIf_orderly {walk : JsValue → Walk Note JsValue} (hwalk : ∀ v, Orderly (walk v)) (accepted : Bool)
    (msg : JsValue) : Orderly (transformIf accepted walk msg) :=
  Orderly.ite (fun _ => hwalk msg) fun _ => Orderly.pure msg

theorem transformAllOf_orderly {walk : Schema → JsValue → Walk Note JsValue}
    (hwalk : ∀ schema v, Orderly (walk schema v)) (subschemas : List Nat) (msg : JsValue) :
    Orderly (transformAllOf env walk subschemas msg) := by
  induction subschemas generalizing msg with
  | nil => exact Orderly.pure msg
  | cons subschema subschemas ih => exact Orderly.bind (hwalk _ msg) ih

theorem transformOneOf_orderly {walk : Schema → JsValue → Walk Note JsValue}
    (hwalk : ∀ schema v, Orderly (walk schema v)) (subschemas : List Nat) (msg : JsValue) :
    Orderly (transformOneOf env walk subschemas msg) := by
  induction subschemas generalizing msg with
  | nil => exact Orderly.pure msg
  | cons subschema subschemas ih =>
    exact Orderly.bind (Orderly.note _) fun _ => Orderly.ite (fun _ => hwalk _ msg) fun _ => ih msg

theorem transformAnyOf_orderly {walk : Schema → JsValue → Walk Note JsValue}
    (hwalk : ∀ schema v, Orderly (walk schema v)) (subschemas : List Nat) (msg : JsValue) :
    Orderly (transformAnyOf env walk subschemas msg) := by
  induction subschemas generalizing msg with
  | nil => exact Orderly.pure msg
  | cons subschema subschemas ih =>
    exact Orderly.bind (Orderly.note _) fun _ => Orderly.bind (transformIf_orderly (hwalk _) _ msg) ih

theorem transformSubschemas_orderly {walk : Schema → JsValue → Walk Note JsValue}
    (hwalk : ∀ schema v, Orderly (walk schema v)) (n : SchemaNode) (msg : JsValue) :
    Orderly (transformSubschemas env walk n msg) := by
  refine Orderly.ite (fun _ => ?_) fun _ => Orderly.ite (fun _ => ?_) fun _ => ?_
  · exact transformAllOf_orderly hwalk _ msg
  · exact transformOneOf_orderly hwalk _ msg
  · exact transformAnyOf_orderly hwalk _ msg

theorem transformSiblingItems_orderly (hwalk : ∀ schema path v, Orderly (walk schema path v)) (items : Option Nat)
    (path : String) (msg : JsValue) : Orderly (transformSiblingItems env walk items path msg) := by
  cases items with
  | none => exact Orderly.pure msg
  | some items => exact transformArray_orderly (hwalk (env.graph items) path) msg

theorem transformSiblings_orderly (hwalk : ∀ schema path v, Orderly (walk schema path v)) (n : SchemaNode)
    (path : String) (msg : JsValue) : Orderly (transformSiblings env rule walk n path msg) :=
  Orderly.bind (transformIf_orderly (transformProperties_orderly hwalk path _) _ msg) fun v =>
    transformSiblingItems_orderly hwalk n.items path v

theorem transformLeaf_orderly (msg : JsValue) : Orderly (transformLeaf rule fieldTransform msg) :=
  Orderly.bind Orderly.currentField fun _ => Orderly.ofExcept _

theorem transformNode_orderly (hwalk : ∀ schema path v, Orderly (walk schema path v)) (n : SchemaNode)
    (path : String)
    (msg : JsValue) : Orderly (transformNode env rule fieldTransform walk n path msg) := by
  refine Orderly.ite (fun _ => ?_) fun _ => ?_
  · exact Orderly.bind (transformSubschemas_orderly (fun schema v => hwalk schema path v) n msg) fun v =>
      transformSiblings_orderly hwalk n path v
  · unfold transformPlain
    split
    · exact transformArray_orderly (hwalk _ path) msg
    · split
      · exact hwalk _ path msg
      · split
        · exact transformProperties_orderly hwalk path _ msg
        all_goals first | exact transformLeaf_orderly msg | exact Orderly.pure msg

theorem transformNarrowed_orderly (hwalk : ∀ schema path v, Orderly (walk schema path v)) (n : SchemaNode)
    (path : String) (msg : JsValue) (subtype : Option TypeName) :
    Orderly (transformNarrowed env rule fieldTransform walk n path msg subtype) := by
  cases subtype with
  | none => exact transformNode_orderly hwalk n path msg
  | some t => exact hwalk _ path msg

theorem transformTyped_orderly (hwalk : ∀ schema path v, Orderly (walk schema path v)) (n : SchemaNode)
    (path : String)
    (msg : JsValue) : Orderly (transformTyped env rule fieldTransform walk n path msg) := by
  unfold transformTyped
  split
  · exact Orderly.bind (Orderly.note _) fun _ => transformNarrowed_orderly hwalk n path msg _
  · exact transformNode_orderly hwalk n path msg

theorem transform_orderly (fuel : Nat) (schema : Schema) (path : String) (msg : JsValue) :
    Orderly (transform env rule fieldTransform fuel schema path msg) := by
  induction fuel generalizing schema path msg with
  | zero => exact Orderly.throw _
  | succ fuel ih =>
    cases schema with
    | bool b => exact Orderly.pure msg
    | node n =>
      exact Orderly.ite (fun _ => Orderly.pure msg) fun _ => Orderly.bind (Orderly.setType _) fun _ =>
        transformTyped_orderly ih n path msg

end Walk

end Json

end ConfluentKafka
