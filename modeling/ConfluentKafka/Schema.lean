import Mathlib.Data.List.Basic

/-!
# Schemas, rules and rule sets

The records of `schemaregistry-client.ts` that the registry client, the rule engine and
the migrations read. An object used as a map is the list of its entries, in insertion
order; an optional field is an `Option`.
-/

namespace ConfluentKafka

inductive RulePhase where
  | migration
  | domain
  | encoding
deriving DecidableEq, Repr

inductive RuleMode where
  | upgrade
  | downgrade
  | updown
  | write
  | read
  | writeread
deriving DecidableEq, Repr

/-- The rule engine tells two kinds apart; the field is a plain optional string. -/
inductive RuleKind where
  | condition
  | transform
  | other (kind : Option String)
deriving DecidableEq, Repr

structure Rule where
  name : String
  doc : Option String := none
  kind : RuleKind := .other none
  mode : Option RuleMode := none
  type : String
  tags : Option (List String) := none
  params : Option (List (String × String)) := none
  expr : Option String := none
  onSuccess : Option String := none
  onFailure : Option String := none
  disabled : Option Bool := none
deriving DecidableEq, Repr

structure RuleSet where
  migrationRules : Option (List Rule) := none
  domainRules : Option (List Rule) := none
  encodingRules : Option (List Rule) := none
  enableAt : Option String := none
deriving DecidableEq, Repr

structure Reference where
  name : String
  subject : String
  version : Int
deriving DecidableEq, Repr

structure Metadata where
  tags : Option (List (String × List String)) := none
  properties : Option (List (String × String)) := none
  sensitive : Option (List String) := none
deriving DecidableEq, Repr

structure SchemaInfo where
  schema : String
  schemaType : Option String := none
  references : Option (List Reference) := none
  metadata : Option Metadata := none
  ruleSet : Option RuleSet := none
deriving DecidableEq, Repr

/-- A `SchemaInfo` as the registry answers it. Callers also pass one where a `SchemaInfo` is asked for. -/
structure SchemaMetadata extends SchemaInfo where
  id : Option Int := none
  guid : Option String := none
  subject : Option String := none
  version : Option Int := none
deriving DecidableEq, Repr

def minimize (info : SchemaMetadata) : SchemaInfo := info.toSchemaInfo

end ConfluentKafka
