import ConfluentKafka.Encryption
import ConfluentKafka.EState

/-!
# Walks over the fields of a message

The stack of field contexts of `RuleContext` in `serde.ts`, the innermost field first, and what the
walks of the three formats do with it. The notes of a walk only record what it does.
-/

namespace ConfluentKafka

structure FieldContext where
  fullName : String
  name : String
  type : FieldType
  tags : List String
  deriving DecidableEq

/-- What a walk reads of its rule, whose tags are empty if it has none, and of the metadata of the schema. -/
structure WalkRule where
  name : String
  tags : List String
  condition : Bool
  getTags : String → List String

inductive WalkError where
  | ruleConditionError
  | ruleError (message : String)
  | error (message : String)
  | typeError
  | outOfFuel
  deriving DecidableEq

structure WalkState (ν : Type) where
  fieldContexts : List FieldContext
  notes : List ν

abbrev Walk (ν α : Type) := EStateM WalkError (WalkState ν) α

abbrev FieldTransform (β : Type) := FieldContext → β → Except WalkError β

def disjoint (tags1 tags2 : List String) : Bool := tags1.all fun tag => tag ∉ tags2

namespace Walk

variable {ν α β : Type}

def note (n : ν) : Walk ν Unit := modify fun s => { s with notes := s.notes ++ [n] }

def currentField : Walk ν (Option FieldContext) := do
  return (← get).fieldContexts.head?

/-- `fieldCtx.type = type`, if there is a current field. -/
def setType (type : FieldType) : Walk ν Unit := modify fun s =>
  match s.fieldContexts with
  | [] => s
  | c :: cs => { s with fieldContexts := { c with type } :: cs }

def inField (c : FieldContext) (body : Walk ν α) : Walk ν α := fun s =>
  match body { s with fieldContexts := c :: s.fieldContexts } with
  | .ok a s' => .ok a { s' with fieldContexts := s'.fieldContexts.tail }
  | .error e s' => .error e { s' with fieldContexts := s'.fieldContexts.tail }

def enterField (rule : WalkRule) (fullName name : String) (type : FieldType) (tags : List String) : FieldContext :=
  ⟨fullName, name, type, tags ++ rule.getTags fullName⟩

def applies (rule : WalkRule) (c : FieldContext) : Bool := rule.tags = [] ∨ !disjoint rule.tags c.tags

/-- The field transform of a value that is no container, if its field is one of the rule. -/
def applyRule (rule : WalkRule) (fieldTransform : FieldTransform β) (c : Option FieldContext) (v : β) :
    Except WalkError β :=
  match c with
  | none => .ok v
  | some c => if applies rule c then fieldTransform c v else .ok v

def mapEach (walk : α → Walk ν β) : List α → Walk ν (List β)
  | [] => return []
  | v :: vs => do
    let newVal ← walk v
    let newVals ← mapEach walk vs
    return newVal :: newVals

def mapValue (walk : α → Walk ν β) (entry : String × α) : Walk ν (String × β) := do
  let newVal ← walk entry.2
  return (entry.1, newVal)

def mapValues (walk : α → Walk ν β) (entries : List (String × α)) : Walk ν (List (String × β)) :=
  mapEach (mapValue walk) entries

def ofExcept (x : Except WalkError α) : Walk ν α := fun s =>
  match x with
  | .ok a => .ok a s
  | .error e => .error e s

end Walk

end ConfluentKafka
