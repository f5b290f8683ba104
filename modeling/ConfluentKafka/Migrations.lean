import ConfluentKafka.RuleSymmetry

/-!
# Migrations between schema versions

`getMigrations` and `executeMigrations` of `serde.ts`. The client is a parameter; the results
are about a subject whose versions it serves. Between a writer's version and a target version
the code walks the adjacent pairs, takes the rules of the newer version of each, and reverses
both the pairs and each rule list on the way down.
-/

namespace ConfluentKafka

structure MigrationClient where
  getVersion : String → SchemaInfo → Bool → Bool → Except Thrown Int
  getSchemaMetadata : String → Int → Bool → Option String → Except Thrown SchemaMetadata

structure Migration where
  ruleMode : RuleMode
  source : SchemaMetadata
  target : SchemaMetadata

def checkRules (rules : Option (List Rule)) (filter : RuleMode → Bool) : Bool :=
  match rules with
  | none => false
  | some rules => rules.any fun rule => rule.mode.any filter

def hasRules (ruleSet : RuleSet) (phase : RulePhase) (mode : RuleMode) : Bool :=
  let rules := match phase with
    | .migration => ruleSet.migrationRules
    | .domain => ruleSet.domainRules
    | .encoding => ruleSet.encodingRules
  match mode with
  | .upgrade | .downgrade => checkRules rules fun ruleMode => ruleMode = mode ∨ ruleMode = .updown
  | .updown => checkRules rules fun ruleMode => ruleMode = mode
  | .write | .read => checkRules rules fun ruleMode => ruleMode = mode ∨ ruleMode = .writeread
  | .writeread => checkRules rules fun ruleMode => ruleMode = mode

def getSchemasBetween (client : MigrationClient) (subject : String) (first last : SchemaMetadata)
    (format : Option String) : Except Thrown (List SchemaMetadata) := do
  let version1 := first.version.getD 0
  let version2 := last.version.getD 0
  if version2 - version1 ≤ 1 then return [first, last]
  let between ← (List.range (version2 - version1 - 1).toNat).mapM fun i : Nat =>
    client.getSchemaMetadata subject (version1 + 1 + (i : Int)) true format
  return [first] ++ between ++ [last]

def Migration.between (ruleMode : RuleMode) (previous version : SchemaMetadata) : Migration :=
  if ruleMode = .upgrade then ⟨ruleMode, previous, version⟩ else ⟨ruleMode, version, previous⟩

def migrationsAfter (ruleMode : RuleMode) : SchemaMetadata → List SchemaMetadata → List Migration
  | _, [] => []
  | previous, version :: versions =>
    if version.ruleSet.any (hasRules · .migration ruleMode) then
      .between ruleMode previous version :: migrationsAfter ruleMode version versions
    else migrationsAfter ruleMode version versions

def migrationsOf (ruleMode : RuleMode) : List SchemaMetadata → List Migration
  | [] => []
  | first :: versions => migrationsAfter ruleMode first versions

def sourceOf (sourceInfo : SchemaInfo) (version : Int) : SchemaMetadata :=
  { schema := sourceInfo.schema, references := sourceInfo.references, metadata := sourceInfo.metadata,
    ruleSet := sourceInfo.ruleSet, id := some 0, guid := some "", version := some version }

def getMigrations (client : MigrationClient) (subject : String) (sourceInfo : SchemaInfo) (target : SchemaMetadata)
    (format : Option String) : Except Thrown (List Migration) := do
  let version ← client.getVersion subject sourceInfo false true
  let source := sourceOf sourceInfo version
  match target.version with
  | none => return []
  | some targetVersion =>
    if version < targetVersion then
      return migrationsOf .upgrade (← getSchemasBetween client subject source target format)
    else if version > targetVersion then
      return (migrationsOf .downgrade (← getSchemasBetween client subject target source format)).reverse
    else return []

def Migration.call (migration : Migration) (subject topic : String) : RuleCall where
  subject := subject
  topic := topic
  rulePhase := .migration
  ruleMode := migration.ruleMode
  source := some migration.source.toSchemaInfo
  target := some migration.target.toSchemaInfo

def Serde.executeMigrations {μ : Type} (s : Serde μ) (subject topic : String) :
    List Migration → Option μ → Except Thrown (Option μ)
  | [], msg => .ok msg
  | migration :: migrations, msg => do
    let msg ← (s.executeRulesWithPhase (migration.call subject topic) msg).result
    executeMigrations s subject topic migrations msg

/-! ## Which pairs, in which order -/

def Applicable (ruleMode : RuleMode) (info : SchemaInfo) : Prop :=
  ∃ ruleSet ∈ info.ruleSet, ∃ rules ∈ ruleSet.migrationRules, ∃ rule ∈ rules,
    rule.mode = some ruleMode ∨ rule.mode = some .updown

/-- The versions `i` whose pair `(i - 1, i)` lies between `w` and `v`, in the order of application. -/
def stepsBetween (w v : Nat) : List Nat :=
  if w < v then List.range' (w + 1) (v - w) else (List.range' (v + 1) (w - v)).reverse

def direction (w v : Nat) : RuleMode := if w < v then .upgrade else .downgrade

/-- The subject's versions `1..n` are what the client serves. -/
structure Serves (client : MigrationClient) (subject : String) (format : Option String) (n : Nat)
    (schemas : Nat → SchemaMetadata) : Prop where
  version : ∀ i, 1 ≤ i → i ≤ n → (schemas i).version = some (i : Int)
  stored : ∀ i, 1 ≤ i → i ≤ n → client.getSchemaMetadata subject i true format = .ok (schemas i)

def recordAt (schemas : Nat → SchemaMetadata) (w i : Nat) : SchemaMetadata :=
  if i = w then sourceOf (schemas w).toSchemaInfo w else schemas i

theorem mode_any_iff {mode : Option RuleMode} {a b : RuleMode} :
    (mode.any fun x => decide (x = a) || decide (x = b)) = true ↔ mode = some a ∨ mode = some b := by
  cases mode <;> simp

theorem hasRules_iff {ruleMode : RuleMode} (hm : ruleMode = .upgrade ∨ ruleMode = .downgrade) (info : SchemaInfo) :
    info.ruleSet.any (hasRules · .migration ruleMode) = true ↔ Applicable ruleMode info := by
  cases hset : info.ruleSet with
  | none => simp [Applicable, hset]
  | some ruleSet =>
    cases hrules : ruleSet.migrationRules with
    | none => rcases hm with rfl | rfl <;> simp [Applicable, hset, hasRules, checkRules, hrules]
    | some rules =>
      rcases hm with rfl | rfl <;> simp [Applicable, hset, hasRules, checkRules, hrules, mode_any_iff]

instance (ruleMode : RuleMode) (info : SchemaInfo) : Decidable (Applicable ruleMode info) :=
  inferInstanceAs (Decidable (∃ ruleSet ∈ info.ruleSet, ∃ rules ∈ ruleSet.migrationRules, ∃ rule ∈ rules,
    rule.mode = some ruleMode ∨ rule.mode = some .updown))

theorem mapM_ok {α β : Type} {f : α → Except Thrown β} {g : α → β} : ∀ {xs : List α},
    (∀ x ∈ xs, f x = .ok (g x)) → xs.mapM f = .ok (xs.map g)
  | [], _ => rfl
  | x :: xs, h => by
    have hx := h x List.mem_cons_self
    have hxs := mapM_ok fun y hy => h y (List.mem_cons_of_mem _ hy)
    rw [List.mapM_cons, hx, hxs]
    rfl

section
variable {client : MigrationClient} {subject : String} {format : Option String} {n : Nat}
variable {schemas : Nat → SchemaMetadata}

@[simp] theorem recordAt_ruleSet (w i : Nat) : (recordAt schemas w i).ruleSet = (schemas i).ruleSet := by
  unfold recordAt
  by_cases h : i = w
  · rw [if_pos h, h]
    rfl
  · rw [if_neg h]

theorem applicable_recordAt {ruleMode : RuleMode} {w i : Nat} :
    Applicable ruleMode (recordAt schemas w i).toSchemaInfo ↔ Applicable ruleMode (schemas i).toSchemaInfo := by
  simp [Applicable]

theorem recordAt_version (hs : Serves client subject format n schemas) {w i : Nat} (hi : 1 ≤ i) (hn : i ≤ n) :
    (recordAt schemas w i).version = some (i : Int) := by
  unfold recordAt
  by_cases h : i = w
  · rw [if_pos h, h]
    rfl
  · rw [if_neg h]
    exact hs.version i hi hn

/-- The versions from `a` to `a + k + 1`, for records that agree with the registry strictly between. -/
theorem getSchemasBetween_eq (hs : Serves client subject format n schemas) {record : Nat → SchemaMetadata}
    {a k : Nat} (ha : 1 ≤ a) (hn : a + k + 1 ≤ n) (hfirst : (record a).version = some (a : Int))
    (hlast : (record (a + k + 1)).version = some ((a + k + 1 : Nat) : Int))
    (hrec : ∀ i, a < i → i < a + k + 1 → record i = schemas i) :
    getSchemasBetween client subject (record a) (record (a + k + 1)) format =
      .ok ((List.range' a (k + 2)).map record) := by
  unfold getSchemasBetween
  simp only [hfirst, hlast, Option.getD_some]
  by_cases hk : k = 0
  · subst hk
    rw [if_pos (by push_cast; omega)]
    simp [List.range'_succ, pure, Except.pure]
  · rw [if_neg (by push_cast; omega)]
    have hlen : (((a + k + 1 : Nat) : Int) - (a : Int) - 1).toNat = k := by push_cast; omega
    have hfetch : (List.range k).mapM (fun i : Nat =>
        client.getSchemaMetadata subject ((a : Int) + 1 + (i : Int)) true format) =
        .ok ((List.range k).map fun i => record (a + 1 + i)) := by
      apply mapM_ok
      intro i hi
      have hi := List.mem_range.mp hi
      have hst := hs.stored (a + 1 + i) (by omega) (by omega)
      rw [hrec (a + 1 + i) (by omega) (by omega), ← hst]
      push_cast
      rfl
    rw [hlen, hfetch]
    have hrange : List.range' a (k + 2) = a :: (List.range' (a + 1) k ++ [a + k + 1]) := by
      rw [List.range'_succ, List.range'_concat]
      simp; omega
    rw [hrange, List.range'_eq_map_range]
    simp [bind, Except.bind, pure, Except.pure, Function.comp_def]

/-- The loop keeps the pairs whose newer version has an applicable rule. -/
theorem migrationsAfter_eq {ruleMode : RuleMode} (hm : ruleMode = .upgrade ∨ ruleMode = .downgrade)
    (record : Nat → SchemaMetadata) : ∀ (k a : Nat),
    migrationsAfter ruleMode (record a) ((List.range' (a + 1) k).map record) =
      ((List.range' (a + 1) k).filter fun i => decide (Applicable ruleMode (record i).toSchemaInfo)).map
        fun i => .between ruleMode (record (i - 1)) (record i)
  | 0, a => rfl
  | k + 1, a => by
    have ih := migrationsAfter_eq hm record k (a + 1)
    rw [List.range'_succ, List.map_cons, migrationsAfter]
    by_cases h : Applicable ruleMode (record (a + 1)).toSchemaInfo
    · rw [if_pos ((hasRules_iff hm _).mpr h), ih, List.filter_cons_of_pos (by simpa using h)]
      simp
    · rw [if_neg (mt (hasRules_iff hm _).mp h), ih, List.filter_cons_of_neg (by simpa using h)]

theorem recordAt_self (w : Nat) : recordAt schemas w w = sourceOf (schemas w).toSchemaInfo w := if_pos rfl

theorem recordAt_ne {w i : Nat} (h : i ≠ w) : recordAt schemas w i = schemas i := if_neg h

theorem migrationsOf_range {ruleMode : RuleMode} (hm : ruleMode = .upgrade ∨ ruleMode = .downgrade) (w a k : Nat) :
    migrationsOf ruleMode ((List.range' a (k + 1)).map (recordAt schemas w)) =
      ((List.range' (a + 1) k).filter fun i => decide (Applicable ruleMode (schemas i).toSchemaInfo)).map
        fun i => .between ruleMode (recordAt schemas w (i - 1)) (recordAt schemas w i) := by
  rw [List.range'_succ, List.map_cons, migrationsOf, migrationsAfter_eq hm (recordAt schemas w) k a]
  simp only [applicable_recordAt]

def wayThere (schemas : Nat → SchemaMetadata) (w v i : Nat) : Migration :=
  .between (direction w v) (recordAt schemas w (i - 1)) (recordAt schemas w i)

/-- The adjacent pairs between the two versions that have a rule to run, in the order of application. -/
def migrationsBetween (schemas : Nat → SchemaMetadata) (w v : Nat) : List Migration :=
  ((stepsBetween w v).filter fun i => decide (Applicable (direction w v) (schemas i).toSchemaInfo)).map
    (wayThere schemas w v)

theorem getMigrations_eq (hs : Serves client subject format n schemas) {w v : Nat} (hw : 1 ≤ w) (hwn : w ≤ n)
    (hv : 1 ≤ v) (hvn : v ≤ n) (hver : client.getVersion subject (schemas w).toSchemaInfo false true =
      .ok (w : Int)) :
    getMigrations client subject (schemas w).toSchemaInfo (schemas v) format = .ok
      (migrationsBetween schemas w v) := by
  unfold getMigrations migrationsBetween wayThere stepsBetween direction
  rw [hver]
  simp only [hs.version v hv hvn, bind, Except.bind, pure, Except.pure]
  rcases Nat.lt_trichotomy w v with hlt | rfl | hgt
  · obtain ⟨k, rfl⟩ : ∃ k, v = w + k + 1 := ⟨v - w - 1, by omega⟩
    have hb := getSchemasBetween_eq hs hw hvn (recordAt_version hs (w := w) hw hwn) (recordAt_version hs hv hvn)
      fun i h₁ _ => recordAt_ne (by omega)
    rw [recordAt_self, recordAt_ne (by omega)] at hb
    have hlt' : (w : Int) < ((w + k + 1 : Nat) : Int) := by exact_mod_cast hlt
    have hk : w + k + 1 - w = k + 1 := by omega
    simp only [if_pos hlt, if_pos hlt', hb, hk, migrationsOf_range (.inl rfl)]
  · simp
  · obtain ⟨k, rfl⟩ : ∃ k, w = v + k + 1 := ⟨w - v - 1, by omega⟩
    have hb := getSchemasBetween_eq hs hv hwn (recordAt_version hs (w := v + k + 1) hv hvn)
      (recordAt_version hs hw hwn)
      fun i _ h₂ => recordAt_ne (by omega)
    rw [recordAt_self, recordAt_ne (by omega)] at hb
    have hgt' : ((v + k + 1 : Nat) : Int) > (v : Int) := by exact_mod_cast hgt
    have hk : v + k + 1 - v = k + 1 := by omega
    simp only [if_neg (Nat.not_lt.mpr (Nat.le_of_lt hgt)), if_neg (Int.not_lt.mpr (Int.le_of_lt hgt')),
      if_pos hgt', hb,
      hk, migrationsOf_range (.inr rfl), List.filter_reverse, List.map_reverse]

/-! ## There and back -/

variable {μ : Type} (s : Serde μ)

/-- An enabled `UPDOWN` transform, in the contexts it runs in on the way there and on the way back. -/
structure ReversibleRule (c d : RuleContext) : Prop where
  transform : c.rule.kind = .transform
  updown : c.rule.mode = some .updown
  enabled : s.isDisabled c c.rule = false
  inverts : s.Inverts c d
  succeeds : s.Succeeds c ∧ s.Succeeds d

def ReversibleMigrations (subject topic : String) (schemas : Nat → SchemaMetadata) (w v : Nat) : Prop :=
  ∀ i ∈ stepsBetween w v, ∀ there back, there = wayThere schemas w v i → back = wayThere schemas v w i →
    ∀ rules, Serde.rulesOf (there.call subject topic) there.target.toSchemaInfo = some rules →
      ∀ k (hk : k < rules.length),
        ReversibleRule s (s.context (there.call subject topic) there.target.toSchemaInfo rules k rules[k])
          (s.context (back.call subject topic) back.target.toSchemaInfo rules.reverse
            (rules.length - 1 - k) rules[k])

def Migrates (subject topic : String) (migration : Migration) (m m' : μ) : Prop :=
  (s.executeRulesWithPhase (migration.call subject topic) (some m)).result = .ok (some m')

variable {s} {topic : String}

theorem executeMigrations_of_chain {ms : List Migration} {m m' : μ}
    (h : Chain (Migrates s subject topic) ms m m') :
    s.executeMigrations subject topic ms (some m) = .ok (some m') := by
  induction h with
  | nil => rfl
  | cons hm _ ih =>
    rw [Serde.executeMigrations, hm]
    exact ih

theorem executeMigrations_none (ms : List Migration) : s.executeMigrations subject topic ms none = .ok none := by
  induction ms with
  | nil => rfl
  | cons m ms ih =>
    rw [Serde.executeMigrations, Serde.executeRulesWithPhase]
    exact ih

/-- Both directions run the rules of the newer version, the way down from the last to the first. -/
theorem rulesOf_between (subject topic : String) {ruleMode : RuleMode}
    (hm : ruleMode = .upgrade ∨ ruleMode = .downgrade) (older newer : SchemaMetadata) :
    Serde.rulesOf ((Migration.between ruleMode older newer).call subject topic)
        (Migration.between ruleMode older newer).target.toSchemaInfo =
      if ruleMode = .upgrade then newer.ruleSet.bind RuleSet.migrationRules
      else (newer.ruleSet.bind RuleSet.migrationRules).map List.reverse := by
  rcases hm with rfl | rfl <;> rfl

theorem enabledEnv_between (subject topic : String) {ruleMode : RuleMode}
    (hm : ruleMode = .upgrade ∨ ruleMode = .downgrade) (older newer : SchemaMetadata) :
    Serde.enabledEnv ((Migration.between ruleMode older newer).call subject topic)
        (Migration.between ruleMode older newer).target.toSchemaInfo = newer.ruleSet.bind RuleSet.enableAt := by
  rcases hm with rfl | rfl <;> rfl

theorem ReversibleRule.undoes {c d : RuleContext} (h : ReversibleRule s c d) (hrule : d.rule = c.rule)
    (henv : d.enabledEnv = c.enabledEnv) (hc : c.ruleMode = .upgrade ∨ c.ruleMode = .downgrade)
    (hd : d.ruleMode = .upgrade ∨ d.ruleMode = .downgrade) : Undoes s.Carries s.Carries c d := by
  have hmode : ∀ ruleMode : RuleMode, ruleMode = .upgrade ∨ ruleMode = .downgrade →
      Serde.modeApplies c.rule.mode ruleMode = true := by
    intro ruleMode hm
    simpa [Serde.modeApplies, h.updown] using hm
  have hk : s.skips c = false := by simp [Serde.skips, h.enabled, hmode _ hc]
  have hk' : s.skips d = false := by
    rw [Serde.skips_eq hrule henv (by rw [hmode _ hc, hmode _ hd]), hk]
  exact h.inverts.undoes hrule h.transform hk hk' h.succeeds.1 h.succeeds.2

theorem Migration.between_mode (ruleMode : RuleMode) (older newer : SchemaMetadata) :
    (Migration.between ruleMode older newer).ruleMode = ruleMode := by
  unfold Migration.between
  by_cases h : ruleMode = .upgrade <;> simp [h]

theorem direction_mem (w v : Nat) : direction w v = .upgrade ∨ direction w v = .downgrade := by
  unfold direction
  by_cases h : w < v <;> simp [h]

theorem direction_swap {w v : Nat} (h : w ≠ v) : direction v w = .upgrade ↔ direction w v ≠ .upgrade := by
  unfold direction
  by_cases h₁ : w < v
  · simp [h₁, Nat.not_lt.mpr (Nat.le_of_lt h₁)]
  · have h₂ : v < w := by omega
    simp [h₁, h₂]

theorem stepsBetween_swap (w v : Nat) : stepsBetween v w = (stepsBetween w v).reverse := by
  unfold stepsBetween
  rcases Nat.lt_trichotomy w v with h | rfl | h
  · simp [h, Nat.not_lt.mpr (Nat.le_of_lt h)]
  · simp
  · simp [h, Nat.not_lt.mpr (Nat.le_of_lt h)]

theorem ne_of_mem_steps {w v i : Nat} (h : i ∈ stepsBetween w v) : w ≠ v := by
  rintro rfl
  simp [stepsBetween] at h

theorem rulesOf_wayBack (subject topic : String) (schemas : Nat → SchemaMetadata) {w v : Nat}
    (hne : w ≠ v) (i : Nat) :
    Serde.rulesOf ((wayThere schemas v w i).call subject topic) (wayThere schemas v w i).target.toSchemaInfo =
      (Serde.rulesOf ((wayThere schemas w v i).call subject topic) (wayThere schemas w v i).target.toSchemaInfo).map
        List.reverse := by
  unfold wayThere
  rw [rulesOf_between subject topic (direction_mem w v), rulesOf_between subject topic (direction_mem v w),
    recordAt_ruleSet, recordAt_ruleSet]
  by_cases hd : direction w v = .upgrade
  · have hd' : direction v w ≠ .upgrade := fun h => (direction_swap hne).mp h hd
    rw [if_pos hd, if_neg hd']
  · rw [if_neg hd, if_pos ((direction_swap hne).mpr hd)]
    cases (schemas i).ruleSet with
    | none => rfl
    | some ruleSet => simp

section
variable {w v : Nat} (hrev : ReversibleMigrations s subject topic schemas w v)
include hrev

theorem migrates_undo {i : Nat} (hi : i ∈ stepsBetween w v) :
    Undoes (Migrates s subject topic) (Migrates s subject topic) (wayThere schemas w v i)
      (wayThere schemas v w i) := by
  have hback := rulesOf_wayBack subject topic schemas (ne_of_mem_steps hi) i
  intro m
  cases hr : Serde.rulesOf ((wayThere schemas w v i).call subject topic)
    (wayThere schemas w v i).target.toSchemaInfo with
  | none =>
    rw [hr] at hback
    refine ⟨m, ?_, ?_⟩
    · rw [Migrates, Serde.execute_none rfl hr]
    · rw [Migrates, Serde.execute_none rfl hback]
  | some rules =>
    rw [hr] at hback
    have hu : ∀ k (hk : k < rules.length), Undoes s.Carries s.Carries
        (s.context ((wayThere schemas w v i).call subject topic)
          (wayThere schemas w v i).target.toSchemaInfo rules k
          rules[k])
        (s.context ((wayThere schemas v w i).call subject topic) (wayThere schemas v w i).target.toSchemaInfo
          rules.reverse (rules.length - 1 - k) rules[k]) := by
      intro k hk
      apply (hrev i hi _ _ rfl rfl rules hr k hk).undoes rfl
      · simp only [Serde.context, wayThere, enabledEnv_between subject topic (direction_mem _ _), recordAt_ruleSet]
      · simpa [Serde.context, wayThere, Migration.call, Migration.between_mode] using direction_mem w v
      · simpa [Serde.context, wayThere, Migration.call, Migration.between_mode] using direction_mem v w
    obtain ⟨m', h₁, h₂⟩ := Serde.runRules_undo hu m
    refine ⟨m', ?_, ?_⟩
    · rw [Migrates, Serde.execute_some rfl hr]
      exact h₁
    · rw [Migrates, Serde.execute_some rfl hback]
      exact h₂

/-- Under reversible rules both directions run the same pairs. -/
theorem applicable_swap {i : Nat} (hi : i ∈ stepsBetween w v) :
    Applicable (direction w v) (schemas i).toSchemaInfo ↔ Applicable (direction v w) (schemas i).toSchemaInfo := by
  have hupdown : ∀ ruleSet ∈ (schemas i).ruleSet, ∀ rules ∈ ruleSet.migrationRules, ∀ rule ∈ rules,
      rule.mode = some .updown := by
    intro ruleSet hset rules hrules rule hrule
    have hr := rulesOf_between subject topic (direction_mem w v) (recordAt schemas w (i - 1)) (recordAt schemas w i)
    rw [recordAt_ruleSet, hset, Option.bind_some, hrules] at hr
    by_cases hd : direction w v = .upgrade
    · rw [if_pos hd] at hr
      obtain ⟨k, hk, rfl⟩ := List.getElem_of_mem hrule
      exact (hrev i hi _ _ rfl rfl rules hr k hk).updown
    · rw [if_neg hd] at hr
      obtain ⟨k, hk, rfl⟩ := List.getElem_of_mem (List.mem_reverse.mpr hrule)
      exact (hrev i hi _ _ rfl rfl rules.reverse hr k hk).updown
  constructor
  · rintro ⟨ruleSet, hset, rules, hrules, rule, hrule, _⟩
    exact ⟨ruleSet, hset, rules, hrules, rule, hrule, .inr (hupdown ruleSet hset rules hrules rule hrule)⟩
  · rintro ⟨ruleSet, hset, rules, hrules, rule, hrule, _⟩
    exact ⟨ruleSet, hset, rules, hrules, rule, hrule, .inr (hupdown ruleSet hset rules hrules rule hrule)⟩

theorem migrationsBetween_undo (m : μ) :
    ∃ m', Chain (Migrates s subject topic) (migrationsBetween schemas w v) m m' ∧
      Chain (Migrates s subject topic) (migrationsBetween schemas v w) m' m := by
  have hback : migrationsBetween schemas v w = (((stepsBetween w v).filter fun i =>
      decide (Applicable (direction w v) (schemas i).toSchemaInfo)).map (wayThere schemas v w)).reverse := by
    unfold migrationsBetween
    rw [stepsBetween_swap w v, List.filter_reverse, List.map_reverse]
    congr 2
    apply List.filter_congr
    intro i hi
    simpa using (applicable_swap hrev hi).symm
  rw [hback]
  apply chain_undo
  unfold migrationsBetween
  rw [List.forall₂_map_left_iff, List.forall₂_map_right_iff, List.forall₂_same]
  intro i hi
  exact migrates_undo hrev (List.mem_of_mem_filter hi)

end

/-- The migrations between two versions are the adjacent pairs with a rule to run, in the order of
application; when the rules can be undone, migrating back gives the original message. -/
theorem migrations_correct (hs : Serves client subject format n schemas) {w v : Nat} (hw : 1 ≤ w ∧ w ≤ n)
    (hv : 1 ≤ v ∧ v ≤ n) (hvw : client.getVersion subject (schemas w).toSchemaInfo false true = .ok (w : Int))
    (hvv : client.getVersion subject (schemas v).toSchemaInfo false true = .ok (v : Int)) :
    getMigrations client subject (schemas w).toSchemaInfo (schemas v) format = .ok (migrationsBetween schemas w v) ∧
      ∀ (s : Serde μ) (topic : String), ReversibleMigrations s subject topic schemas w v → ∀ msg : Option μ,
        ∃ there back moved, getMigrations client subject (schemas w).toSchemaInfo (schemas v) format = .ok there ∧
          getMigrations client subject (schemas v).toSchemaInfo (schemas w) format = .ok back ∧
          s.executeMigrations subject topic there msg = .ok moved ∧
          s.executeMigrations subject topic back moved = .ok msg := by
  have hthere := getMigrations_eq hs hw.1 hw.2 hv.1 hv.2 hvw
  have hback := getMigrations_eq hs hv.1 hv.2 hw.1 hw.2 hvv
  refine ⟨hthere, fun s topic hrev msg => ?_⟩
  cases msg with
  | none => exact ⟨_, _, none, hthere, hback, executeMigrations_none _, executeMigrations_none _⟩
  | some m =>
    obtain ⟨m', h₁, h₂⟩ := migrationsBetween_undo hrev m
    exact ⟨_, _, some m', hthere, hback, executeMigrations_of_chain h₁, executeMigrations_of_chain h₂⟩

end

/-- A transform that takes a message to `up` of it on the way up and to `down` of it on the way down. -/
def moving (up down : Int → Int) : Serde Int where
  isKey := false
  isFalse := fun _ => false
  getExecutor := fun _ => some fun ctx msg =>
    .ok (msg.map fun m => if ctx.ruleMode = .upgrade then up m else down m)
  getAction := fun _ => none
  getOverride := fun _ => none

def stepping : Serde Int := moving (· + 1) (· - 1)

/-- Going down undoes going up, and going up does not undo going down: an odd message loses its last bit. -/
def halving : Serde Int := moving (· * 2) (· / 2)

def stepRule : Rule := { name := "step", kind := .transform, mode := some .updown, type := "STEP" }

def stepSchemas : Nat → SchemaMetadata
  | 2 => { schema := "long", version := some 2, ruleSet := some { migrationRules := some [stepRule] } }
  | 3 => { schema := "double", version := some 3, ruleSet := some { migrationRules := some [stepRule, stepRule] } }
  | i => { schema := "int", version := some i }

def stepClient : MigrationClient where
  getVersion := fun _ info _ _ =>
    if info = (stepSchemas 1).toSchemaInfo then .ok 1 else if info = (stepSchemas 3).toSchemaInfo then .ok 3
    else .error (.error "schema not found")
  getSchemaMetadata := fun _ version _ _ => .ok (stepSchemas version.toNat)

theorem serves_stepClient : Serves stepClient "orders-value" none 3 stepSchemas := by
  refine ⟨fun i h₁ h₂ => ?_, fun i _ _ => rfl⟩
  match i, h₁, h₂ with
  | 1, _, _ => rfl
  | 2, _, _ => rfl
  | 3, _, _ => rfl

section
variable {up down : Int → Int}

theorem moving_reversibleRule (hinv : ∀ m, down (up m) = m) {c d : RuleContext} (hc : c.rule = stepRule)
    (henv : c.enabledEnv = none) (hup : c.ruleMode = .upgrade) (hd : d.rule = stepRule)
    (hdown : d.ruleMode = .downgrade) : ReversibleRule (moving up down) c d := by
  refine ⟨by rw [hc]; rfl, by rw [hc]; rfl, ?_, ⟨_, rfl, fun m => ⟨up m, ?_, ?_⟩⟩, fun m => ?_, fun m => ?_⟩
  · simp [Serde.isDisabled, moving, hc, henv, stepRule]
  · simp [hup]
  · simp [hdown, hinv m]
  · simp [Serde.runAction, Serde.getOnSuccess, moving, hc, stepRule, getRuleActionName,
      Serde.getRuleAction, NoneAction]
  · simp [Serde.runAction, Serde.getOnSuccess, moving, hd, stepRule, getRuleActionName,
      Serde.getRuleAction, NoneAction]

/-- Where `down` undoes `up`, the rules of the three versions are reversible from the first to the third. -/
theorem moving_reversible (hinv : ∀ m, down (up m) = m) :
    ReversibleMigrations (moving up down) "orders-value" "orders" stepSchemas 1 3 := by
  intro i hi there back hthere hback rules hrules k hk
  subst hthere hback
  have hi : 2 ≤ i ∧ i < 4 := by simpa [stepsBetween] using hi
  have hi : i = 2 ∨ i = 3 := by omega
  have hall : ∀ rule ∈ rules, rule = stepRule := by
    rcases hi with rfl | rfl
    · obtain rfl := Option.some.inj hrules
      simp
    · obtain rfl := Option.some.inj hrules
      simp
  have hk' := hall _ (List.getElem_mem hk)
  rcases hi with rfl | rfl
  · exact moving_reversibleRule hinv hk' rfl rfl hk' rfl
  · exact moving_reversibleRule hinv hk' rfl rfl hk' rfl

end

theorem migrations_correct_steps : Serves stepClient "orders-value" none 3 stepSchemas ∧
    ReversibleMigrations stepping "orders-value" "orders" stepSchemas 1 3 ∧
    ∃ there back moved,
      getMigrations stepClient "orders-value" (stepSchemas 1).toSchemaInfo (stepSchemas 3) none = .ok there ∧
      getMigrations stepClient "orders-value" (stepSchemas 3).toSchemaInfo (stepSchemas 1) none = .ok back ∧
      stepping.executeMigrations "orders-value" "orders" there (some 7) = .ok moved ∧
      stepping.executeMigrations "orders-value" "orders" back moved = .ok (some 7) := by
  have hrev : ReversibleMigrations stepping "orders-value" "orders" stepSchemas 1 3 := moving_reversible (by simp)
  have h := migrations_correct (μ := Int) serves_stepClient (w := 1) (v := 3) (by decide) (by decide) rfl rfl
  exact ⟨serves_stepClient, hrev, h.2 stepping "orders" hrev (some 7)⟩

/-- Every rule's downgrade inverts its upgrade, but a message of the newer version is downgraded first: on the way
    from the third version to the first and back, 7 becomes 3, 1, 0 and stays 0. -/
theorem migrations_halving_fails : ¬ ∀ (s : Serde Int) (w v : Nat), (1 ≤ w ∧ w ≤ 3) → (1 ≤ v ∧ v ≤ 3) →
    ReversibleMigrations s "orders-value" "orders" stepSchemas (min w v) (max w v) → ∀ msg, ∃ there back moved,
      getMigrations stepClient "orders-value" (stepSchemas w).toSchemaInfo (stepSchemas v) none = .ok there ∧
      getMigrations stepClient "orders-value" (stepSchemas v).toSchemaInfo (stepSchemas w) none = .ok back ∧
      s.executeMigrations "orders-value" "orders" there msg = .ok moved ∧
      s.executeMigrations "orders-value" "orders" back moved = .ok msg := by
  intro h
  have hrev : ReversibleMigrations halving "orders-value" "orders" stepSchemas 1 3 :=
    moving_reversible fun m => by omega
  obtain ⟨there, back, moved, hthere, hback, hdown, hup⟩ := h halving 3 1 (by decide) (by decide) hrev (some 7)
  rw [getMigrations_eq serves_stepClient (w := 3) (v := 1) (by decide) (by decide) (by decide)
    (by decide) rfl] at hthere
  rw [getMigrations_eq serves_stepClient (w := 1) (v := 3) (by decide) (by decide) (by decide)
    (by decide) rfl] at hback
  obtain rfl := Except.ok.inj hthere
  obtain rfl := Except.ok.inj hback
  have hlow : halving.executeMigrations "orders-value" "orders" (migrationsBetween stepSchemas 3 1) (some 7) =
      .ok (some 0) := rfl
  obtain rfl : some 0 = moved := Except.ok.inj (hlow.symm.trans hdown)
  have hzero : halving.executeMigrations "orders-value" "orders" (migrationsBetween stepSchemas 1 3) (some 0) =
      .ok (some 0) := rfl
  have hseven : some 0 = some (7 : Int) := Except.ok.inj (hzero.symm.trans hup)
  simp at hseven

end ConfluentKafka
