import ConfluentKafka.Rules
import ConfluentKafka.Utf16
import Mathlib.Data.List.Infix
import Mathlib.Data.List.TakeWhile

/-!
# The CEL rule executor

`CelExecutor.execute` of `cel-executor.ts`, with its program cache and its environments. The CEL library
and what writes a result back into a format are parameters. An expression that reaches `executeRule` is
recorded, so that a run says which texts were evaluated.
-/

namespace ConfluentKafka

namespace CelRules

/-- The key of the program cache; `env` is none for the empty identity. -/
structure RuleWithArgs where
  rule : String
  scriptType : Option String
  schema : String
  env : Option Nat
deriving DecidableEq, Repr

/-- The variables of a rule. Those other than `now` are bound by the caller. -/
structure Args (V : Type) where
  bindings : List (String × V)
  now : Option V := none

inductive Result (V : Type) where
  | value (v : V)
  | celError (message : String)

abbrev Program (V : Type) := Args V → Except Thrown (Result V)

/-- The CEL library: values, parsed expressions and environments. Registries are told apart by a number;
`celEnv` makes the environment for one. -/
structure Library where
  V : Type
  Expr : Type
  Env : Type
  ofBool : Bool → V
  isTrue : V → Bool
  parse : String → Except Thrown Expr
  celEnv : Option Nat → Env
  plan : Env → Expr → Except Thrown (Program V)

structure CelContext extends RuleContext where
  registry : Option Nat := none
  depSchemas : List String := []
  currentField : Option String := none

structure Formats (V : Type) where
  unwrapAvroFieldFromCel : V → String → String → List String → Except Thrown V
  unwrapAvroFromCel : V → String → List String → Except Thrown V
  typeName : V → Option String
  hasMessage : Nat → String → Bool
  convertProtobufResult : V → Nat → String → Except Thrown V
  timestampNow : Nat → V

/-- The fields of the executor that change, and how often the clock was read. -/
structure CelExecutor (V : Type) where
  cache : List (RuleWithArgs × Program V) := []
  protoEnvs : List (Nat × Nat) := []
  nextProtoEnvId : Nat := 1
  ticks : Nat := 0

def CACHE_MAX : Nat := 1000

/-- A call of `execute` or `executeRule`: what it returns or throws, the expressions it evaluated, in
order, and what it leaves behind. -/
structure Execution (V α : Type) where
  outcome : Except Thrown α
  evaluated : List String
  executor : CelExecutor V
  args : Args V

variable (lib : Library) (formats : Formats lib.V)

def writeBack (ctx : CelContext) (msg result : lib.V) : Except Thrown lib.V :=
  if ctx.rule.kind = .condition then .ok result
  else if ctx.target.schemaType = some "AVRO" ∧ ctx.target.schema ≠ "" then
    match ctx.currentField with
    | some fullName => formats.unwrapAvroFieldFromCel result fullName ctx.target.schema ctx.depSchemas
    | none => formats.unwrapAvroFromCel result ctx.target.schema ctx.depSchemas
  else if ctx.currentField.isSome then .ok result
  else
    match formats.typeName msg, ctx.registry with
    | some typeName, some registry =>
      if formats.hasMessage registry typeName then formats.convertProtobufResult result registry typeName
      else .ok result
    | _, _ => .ok result

def envFor {V : Type} (ex : CelExecutor V) (registry : Option Nat) : Option Nat × CelExecutor V :=
  match registry with
  | none => (none, ex)
  | some r =>
    match ex.protoEnvs.lookup r with
    | some id => (some id, ex)
    | none =>
      (some ex.nextProtoEnvId,
        { ex with protoEnvs := (r, ex.nextProtoEnvId) :: ex.protoEnvs, nextProtoEnvId := ex.nextProtoEnvId + 1 })

def ruleKey (ctx : CelContext) (expr : String) (env : Option Nat) : RuleWithArgs :=
  { rule := expr, scriptType := ctx.target.schemaType, schema := ctx.target.schema, env := env }

def compile (registry : Option Nat) (expr : String) : Except Thrown (Program lib.V) := do
  let parsedExpr ← lib.parse expr
  lib.plan (lib.celEnv registry) parsedExpr

/-- A hit moves the entry to the front; what falls off the end was used least recently. -/
def touch {V : Type} (ex : CelExecutor V) (key : RuleWithArgs) (program : Program V) : CelExecutor V :=
  { ex with cache := ((key, program) :: ex.cache.filter (·.1 ≠ key)).take CACHE_MAX }

def programFor (ex : CelExecutor lib.V) (ctx : CelContext) (expr : String) :
    Except Thrown (Program lib.V) × CelExecutor lib.V :=
  let (id, ex) := envFor ex ctx.registry
  let key := ruleKey ctx expr id
  match ex.cache.lookup key with
  | some program => (.ok program, touch ex key program)
  | none =>
    match compile lib ctx.registry expr with
    | .error error => (.error error, ex)
    | .ok program => (.ok program, touch ex key program)

def mentionsNow (expr : String) : Bool := "now".toList <:+: expr.toList

def ruleName (rule : Rule) : String := if rule.name = "" then "unnamed" else rule.name

/-- What `executeRule` makes of a program's result. -/
def unwrap {V : Type} (rule : Rule) (result : Except Thrown (Result V)) : Except Thrown V :=
  match result with
  | .error error => .error error
  | .ok (.celError message) => .error (.error ("Could not execute rule '" ++ ruleName rule ++ "': " ++ message))
  | .ok (.value v) => .ok v

/-- `now` is bound once for a rule, the first time an expression mentions it. -/
def bindNow {V : Type} (timestampNow : Nat → V) (ticks : Nat) (expr : String) (args : Args V) : Args V × Nat :=
  if mentionsNow expr && args.now.isNone then ({ args with now := some (timestampNow ticks) }, ticks + 1)
  else (args, ticks)

def executeRule (ex : CelExecutor lib.V) (ctx : CelContext) (expr : String) (args : Args lib.V) :
    Execution lib.V lib.V :=
  match programFor lib ex ctx expr with
  | (.error error, ex) => ⟨.error error, [expr], ex, args⟩
  | (.ok program, ex) =>
    let (args, ticks) := bindNow formats.timestampNow ex.ticks expr args
    ⟨unwrap ctx.rule (program args), [expr], { ex with ticks := ticks }, args⟩

def executeBody (ex : CelExecutor lib.V) (ctx : CelContext) (msg : lib.V) (expr : String) (args : Args lib.V) :
    Execution lib.V lib.V :=
  let run := executeRule lib formats ex ctx expr args
  { run with outcome := run.outcome.bind (writeBack lib formats ctx msg) }

def execute (ex : CelExecutor lib.V) (ctx : CelContext) (msg : lib.V) (args : Args lib.V) : Execution lib.V lib.V :=
  match ctx.rule.expr with
  | none => ⟨.ok msg, [], ex, args⟩
  | some expr =>
    if ';' ∈ expr.toList then
      let guard := String.ofList (expr.toList.takeWhile (· ≠ ';'))
      let rest := String.ofList (expr.toList.dropWhile (· ≠ ';')).tail
      -- A guard of nothing but white space is no guard.
      if guard.toList.all (Utf16.isWhiteSpace ·.toNat) then executeBody lib formats ex ctx msg rest args
      else
        let run := executeRule lib formats ex ctx guard args
        -- A guard that throws is taken for one that is not true.
        if run.outcome.toOption.any lib.isTrue then
          let body := executeBody lib formats run.executor ctx msg rest run.args
          { body with evaluated := run.evaluated ++ body.evaluated }
        else if ctx.rule.kind = .condition then { run with outcome := .ok (lib.ofBool true) }
        else { run with outcome := .ok msg }
    else executeBody lib formats ex ctx msg expr args

/-! ## The cache holds what its keys compile to -/

variable {lib formats}

inductive Names (protoEnvs : List (Nat × Nat)) : Option Nat → Option Nat → Prop where
  | bare : Names protoEnvs none none
  | registry {r id : Nat} (h : (r, id) ∈ protoEnvs) : Names protoEnvs (some r) (some id)

structure Sound (lib : Library) (ex : CelExecutor lib.V) : Prop where
  id_lt : ∀ p ∈ ex.protoEnvs, p.2 < ex.nextProtoEnvId
  id_inj : ∀ p ∈ ex.protoEnvs, ∀ q ∈ ex.protoEnvs, p.2 = q.2 → p.1 = q.1
  compiled : ∀ e ∈ ex.cache, ∃ registry, Names ex.protoEnvs registry e.1.env ∧
    compile lib registry e.1.rule = .ok e.2

theorem sound_init (lib : Library) : Sound lib {} := by
  constructor <;> simp

theorem mem_of_lookup {α β : Type} [BEq α] [LawfulBEq α] {l : List (α × β)} {k : α} {v : β}
    (h : l.lookup k = some v) :
    (k, v) ∈ l := by
  obtain ⟨l₁, l₂, rfl, -⟩ := List.lookup_eq_some_iff.mp h
  simp

theorem Names.mono {envs envs' : List (Nat × Nat)} (h : ∀ p ∈ envs, p ∈ envs') {registry id : Option Nat}
    (hn : Names envs registry id) : Names envs' registry id := by
  cases hn with
  | bare => exact .bare
  | registry hm => exact .registry (h _ hm)

theorem Names.inj {ex : CelExecutor lib.V} (hs : Sound lib ex) {registry registry' id : Option Nat}
    (h : Names ex.protoEnvs registry id)
    (h' : Names ex.protoEnvs registry' id) : registry = registry' := by
  cases h with
  | bare =>
    cases h' with
    | bare => rfl
  | registry hm =>
    cases h' with
    | registry hm' => exact congrArg some (hs.id_inj _ hm _ hm' rfl)

theorem envFor_sound {ex : CelExecutor lib.V} (hs : Sound lib ex) (registry : Option Nat) :
    Sound lib (envFor ex registry).2 ∧ Names (envFor ex registry).2.protoEnvs registry (envFor ex registry).1 := by
  unfold envFor
  split
  · exact ⟨hs, .bare⟩
  · next r =>
    split
    · next id hid => exact ⟨hs, .registry (mem_of_lookup hid)⟩
    · next hnone =>
      refine ⟨⟨?_, ?_, ?_⟩, .registry List.mem_cons_self⟩
      · intro p hp
        simp only [List.mem_cons] at hp
        rcases hp with rfl | hp
        · exact Nat.lt_succ_self _
        · exact Nat.lt_succ_of_lt (hs.id_lt p hp)
      · intro p hp q hq he
        simp only [List.mem_cons] at hp hq
        rcases hp with rfl | hp
        · rcases hq with rfl | hq
          · rfl
          · exact absurd he.symm (Nat.ne_of_lt (hs.id_lt q hq))
        · rcases hq with rfl | hq
          · exact absurd he (Nat.ne_of_lt (hs.id_lt p hp))
          · exact hs.id_inj p hp q hq he
      · intro e he
        obtain ⟨registry, hn, hc⟩ := hs.compiled e he
        exact ⟨registry, hn.mono fun p hp => List.mem_cons_of_mem _ hp, hc⟩

theorem touch_sound {ex : CelExecutor lib.V} (hs : Sound lib ex) {registry : Option Nat} {key : RuleWithArgs}
    {program : Program lib.V} (hn : Names ex.protoEnvs registry key.env)
    (hc : compile lib registry key.rule = .ok program) :
    Sound lib (touch ex key program) := by
  refine ⟨hs.id_lt, hs.id_inj, fun e he => ?_⟩
  have he := List.mem_of_mem_take he
  simp only [List.mem_cons, List.mem_filter] at he
  rcases he with rfl | ⟨he, -⟩
  · exact ⟨registry, hn, hc⟩
  · obtain ⟨registry, hn, hc⟩ := hs.compiled e he
    exact ⟨registry, hn, hc⟩

/-- A cached program is the one that compiling the expression would give. -/
theorem programFor_spec {ex : CelExecutor lib.V} (hs : Sound lib ex) (ctx : CelContext) (expr : String) :
    (programFor lib ex ctx expr).1 = compile lib ctx.registry expr ∧ Sound lib (programFor lib ex ctx expr).2 := by
  obtain ⟨hs, hn⟩ := envFor_sound hs ctx.registry
  unfold programFor
  generalize hid : envFor ex ctx.registry = named at hs hn
  obtain ⟨id, ex'⟩ := named
  simp only at hs hn ⊢
  split
  · next program hprogram =>
    have hmem := mem_of_lookup hprogram
    obtain ⟨registry, hn', hc⟩ := hs.compiled _ hmem
    rw [← Names.inj hs hn hn'] at hc
    exact ⟨hc.symm, touch_sound hs hn hc⟩
  · split
    · next error hc => exact ⟨hc.symm, hs⟩
    · next program hc => exact ⟨hc.symm, touch_sound hs hn hc⟩

/-! ## Evaluating an expression -/

variable (lib formats)

def evaluate (ctx : CelContext) (expr : String) (args : Args lib.V) (ticks : Nat) : Except Thrown lib.V := do
  let program ← compile lib ctx.registry expr
  unwrap ctx.rule (program (bindNow formats.timestampNow ticks expr args).1)

variable {lib formats}

theorem programFor_ticks (ex : CelExecutor lib.V) (ctx : CelContext) (expr : String) :
    (programFor lib ex ctx expr).2.ticks = ex.ticks := by
  have hticks : (envFor ex ctx.registry).2.ticks = ex.ticks := by
    unfold envFor
    split
    · rfl
    · split <;> rfl
  unfold programFor
  generalize envFor ex ctx.registry = named at hticks
  obtain ⟨id, ex'⟩ := named
  simp only at hticks ⊢
  split
  · exact hticks
  · split <;> exact hticks

theorem executeRule_spec (formats : Formats lib.V) {ex : CelExecutor lib.V} (hs : Sound lib ex) (ctx : CelContext)
    (expr : String) (args : Args lib.V) :
    (executeRule lib formats ex ctx expr args).outcome = evaluate lib formats ctx expr args ex.ticks ∧
      (executeRule lib formats ex ctx expr args).evaluated = [expr] ∧
      Sound lib (executeRule lib formats ex ctx expr args).executor := by
  obtain ⟨hp, hs'⟩ := programFor_spec hs ctx expr
  have hticks := programFor_ticks ex ctx expr
  unfold executeRule evaluate
  generalize programFor lib ex ctx expr = found at hp hs' hticks
  obtain ⟨program, ex'⟩ := found
  simp only at hp hs' hticks
  subst hp
  cases hc : compile lib ctx.registry expr with
  | error error => exact ⟨rfl, rfl, hs'⟩
  | ok program =>
    refine ⟨?_, rfl, ⟨hs'.id_lt, hs'.id_inj, hs'.compiled⟩⟩
    simp only [hticks]
    rfl

theorem executeBody_sound {ex : CelExecutor lib.V} (hs : Sound lib ex) (ctx : CelContext) (msg : lib.V)
    (expr : String)
    (args : Args lib.V) : Sound lib (executeBody lib formats ex ctx msg expr args).executor :=
  (executeRule_spec formats hs ctx expr args).2.2

theorem execute_sound {ex : CelExecutor lib.V} (hs : Sound lib ex) (ctx : CelContext) (msg : lib.V)
    (args : Args lib.V) :
    Sound lib (execute lib formats ex ctx msg args).executor := by
  unfold execute
  split
  · exact hs
  · next expr _ =>
    split
    · generalize String.ofList (expr.toList.takeWhile (· ≠ ';')) = guard
      have hguard := (executeRule_spec formats hs ctx guard args).2.2
      simp only
      split
      · exact executeBody_sound hs ctx msg _ args
      · split
        · exact executeBody_sound hguard ctx msg _ _
        · split
          · exact hguard
          · exact hguard
    · exact executeBody_sound hs ctx msg expr args

structure Call (V : Type) where
  ctx : CelContext
  msg : V
  args : Args V

variable (lib formats)

def after (calls : List (Call lib.V)) : CelExecutor lib.V :=
  calls.foldl (fun ex call => (execute lib formats ex call.ctx call.msg call.args).executor) {}

variable {lib formats}

theorem after_sound (formats : Formats lib.V) (calls : List (Call lib.V)) :
    Sound lib (after lib formats calls) := by
  unfold after
  generalize hex : ({} : CelExecutor lib.V) = ex
  have hs : Sound lib ex := hex ▸ sound_init lib
  clear hex
  induction calls generalizing ex with
  | nil => exact hs
  | cons call rest ih => exact ih _ (execute_sound hs call.ctx call.msg call.args)

/-! ## The guard -/

variable (lib formats)

/-- The rule's expression is evaluated once, as a whole, and its result is what the rule answers. -/
structure EvaluatesWhole (ex : CelExecutor lib.V) (ctx : CelContext) (msg : lib.V) (args : Args lib.V)
    (e : String) :
    Prop where
  once : (execute lib formats ex ctx msg args).evaluated = [e]
  result : (execute lib formats ex ctx msg args).outcome =
    (evaluate lib formats ctx e args ex.ticks).bind (writeBack lib formats ctx msg)

variable {lib formats}

/-- What stands before the first semicolon has none. -/
theorem guard_ne {e : String} (he : ';' ∈ e.toList) : String.ofList (e.toList.takeWhile (· ≠ ';')) ≠ e := by
  intro h
  rw [← h, String.toList_ofList] at he
  simpa using List.mem_takeWhile_imp he

theorem rest_ne {e : String} (he : ';' ∈ e.toList) : String.ofList (e.toList.dropWhile (· ≠ ';')).tail ≠ e := by
  intro h
  have hlen := congrArg (fun s : String => s.toList.length) h
  have hle := (List.dropWhile_suffix (fun c => decide (c ≠ ';')) (l := e.toList)).length_le
  have hpos := List.length_pos_of_mem he
  simp only [String.toList_ofList, List.length_tail] at hlen
  omega

theorem executeBody_evaluated (ex : CelExecutor lib.V) (hs : Sound lib ex) (ctx : CelContext) (msg : lib.V)
    (expr : String)
    (args : Args lib.V) : (executeBody lib formats ex ctx msg expr args).evaluated = [expr] :=
  (executeRule_spec formats hs ctx expr args).2.1

theorem not_once_of_semicolon {ex : CelExecutor lib.V} (hs : Sound lib ex) {ctx : CelContext} (msg : lib.V)
    (args : Args lib.V) {e : String} (he : ctx.rule.expr = some e) (hsemi : ';' ∈ e.toList) :
    (execute lib formats ex ctx msg args).evaluated ≠ [e] := by
  have hg := guard_ne hsemi
  have hr := rest_ne hsemi
  unfold execute
  rw [he]
  simp only
  rw [if_pos hsemi]
  generalize String.ofList (e.toList.takeWhile (· ≠ ';')) = guard at hg
  generalize String.ofList (e.toList.dropWhile (· ≠ ';')).tail = rest at hr
  obtain ⟨-, hev, hs'⟩ := executeRule_spec formats hs ctx guard args
  split
  · rw [executeBody_evaluated ex hs]
    simpa using hr
  · split
    · simp [hev, executeBody_evaluated _ hs']
    · split
      · simpa [hev] using hg
      · simpa [hev] using hg

theorem evaluatesWhole_of_no_semicolon {ex : CelExecutor lib.V} (hs : Sound lib ex) {ctx : CelContext} (msg : lib.V)
    (args : Args lib.V) {e : String} (he : ctx.rule.expr = some e) (hsemi : ';' ∉ e.toList) :
    EvaluatesWhole lib formats ex ctx msg args e := by
  obtain ⟨hout, hev, -⟩ := executeRule_spec formats hs ctx e args
  have hex : execute lib formats ex ctx msg args = executeBody lib formats ex ctx msg e args := by
    simp [execute, he, hsemi]
  constructor
  · rw [hex, executeBody_evaluated ex hs]
  · rw [hex, ← hout]
    rfl

/-- After any calls, the whole expression of a rule is evaluated just when it has no semicolon, not even
in a string literal. -/
theorem evaluatesWhole_iff (lib : Library) (formats : Formats lib.V) (calls : List (Call lib.V)) (ctx : CelContext)
    (msg : lib.V) (args : Args lib.V) (e : String) (he : ctx.rule.expr = some e) :
    EvaluatesWhole lib formats (after lib formats calls) ctx msg args e ↔ ';' ∉ e.toList := by
  have hs := after_sound formats calls
  constructor
  · intro h hsemi
    exact not_once_of_semicolon hs msg args he hsemi h.once
  · exact evaluatesWhole_of_no_semicolon hs msg args he

/-- A library for comparisons of the message's name with a literal; a quote that is not closed does not parse. -/
abbrev comparisons : Library where
  V := String ⊕ Bool
  Expr := List Char
  Env := Unit
  ofBool := .inr
  isTrue := fun v => v = .inr true
  parse := fun expr =>
    if expr.toList.count '"' = 2 then .ok ((expr.toList.dropWhile (· ≠ '"')).tail.takeWhile (· ≠ '"'))
    else .error (.error "unterminated string literal")
  celEnv := fun _ => ()
  plan := fun _ literal =>
    .ok fun args => .ok (.value (.inr (args.bindings.lookup "message.name" = some (.inl (String.ofList literal)))))

def plainFormats : Formats (String ⊕ Bool) where
  unwrapAvroFieldFromCel := fun v _ _ _ => .ok v
  unwrapAvroFromCel := fun v _ _ => .ok v
  typeName := fun _ => none
  hasMessage := fun _ _ => false
  convertProtobufResult := fun v _ _ => .ok v
  timestampNow := fun _ => .inl ""

def condition (expr : String) : CelContext where
  enabledEnv := none
  source := none
  target := { schema := "", schemaType := some "JSON" }
  subject := "s"
  topic := "t"
  isKey := false
  ruleMode := .write
  rule := { name := "r", kind := .condition, type := "CEL", expr := some expr }
  index := 0
  rules := []

def namedC : Args (String ⊕ Bool) := { bindings := [("message.name", .inl "c")] }

theorem evaluatesWhole_plain :
    EvaluatesWhole comparisons plainFormats (after comparisons plainFormats []) (condition "message.name == \"ab\"")
      (.inl "") namedC "message.name == \"ab\"" ↔ ';' ∉ "message.name == \"ab\"".toList :=
  evaluatesWhole_iff comparisons plainFormats [] (condition "message.name == \"ab\"") (.inl "") namedC _ rfl

/-- The message is not named `a;b`, and yet the condition passes: what stands before the semicolon of the
literal is taken for a guard, does not parse, and counts as not applicable. -/
theorem evaluatesWhole_fails :
    let e := "message.name == \"a;b\""
    (execute comparisons plainFormats {} (condition e) (.inl "") namedC).outcome.toOption = some (.inr true) ∧
      (evaluate comparisons plainFormats (condition e) e namedC 0).toOption = some (.inr false) ∧
      ¬EvaluatesWhole comparisons plainFormats {} (condition e) (.inl "") namedC e := by
  refine ⟨by decide +kernel, by decide +kernel, fun h => ?_⟩
  exact not_once_of_semicolon (sound_init comparisons) _ _ rfl (by decide) h.once

end CelRules

end ConfluentKafka
