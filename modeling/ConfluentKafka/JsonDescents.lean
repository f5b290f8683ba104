import ConfluentKafka.JsonIdentity
import ConfluentKafka.JsonValidation
import Mathlib.Logic.Relation

/-!
# Where the walks of JSON schemas go on

The field transform and the validation of `json.ts` each call themselves with a schema and a value. A walk
that stops at one of these pairs tells whether it gets there. The transform goes on with subschemas, items and
references, and with the properties, up to the first that cannot be written back.
-/

namespace ConfluentKafka

namespace Json

open JsValue

section

variable (env : Setting)

/-! ## Descents -/

/-- The schema of the first type that accepts the value, if it has several. -/
def narrowed (n : SchemaNode) (v : JsValue) : Option SchemaNode :=
  match n.type with
  | some (.inr (t :: types)) =>
    (validateSubtypes env n (t :: types) v).map fun t => { n with type := some (.inl t) }
  | _ => some n

open Classical in
/-- A walk that stops at the schema with the value, and otherwise returns what it is given. -/
noncomputable def transformUpTo (q : Schema × JsValue) : Schema → String → JsValue → Walk Note JsValue :=
  fun schema _ msg =>
  if (schema, msg) = q then throw .outOfFuel else return msg

open Classical in
noncomputable def validateUpTo (q : Schema × JsValue) : WalkType := fun schema _ msg =>
  if (schema, msg) = q then throw .outOfFuel else pure ()

/-- The field transform with the identity goes on with the schema and the value. -/
def TransformDescends (rule : WalkRule) (p q : Schema × JsValue) : Prop :=
  ∃ n, p.1 = .node n ∧ isNullish p.2 = false ∧ isNullish q.2 = false ∧
    ∃ path s s', transformNode env rule identity (transformUpTo q) ((narrowed env n p.2).getD n) path p.2 s =
      .error .outOfFuel s'

def ValidateDescends (p q : Schema × JsValue) : Prop :=
  ∃ n, p.1 = .node n ∧ isNullish p.2 = false ∧ isNullish q.2 = false ∧
    ∃ path s, validateSchemaBody env false (validateUpTo q) n path p.2 s = .error .outOfFuel

variable {env}

theorem narrowed_of_types {n : SchemaNode} {t : TypeName} {types : List TypeName} (v : JsValue)
    (h : n.type = some (.inr (t :: types))) :
    narrowed env n v = (validateSubtypes env n (t :: types) v).map fun t => { n with type := some (.inl t) } := by
  rw [narrowed, h]

theorem narrowed_of_untyped {n : SchemaNode} (v : JsValue) (h : ∀ t types, n.type ≠ some (.inr (t :: types))) :
    narrowed env n v = some n := by
  unfold narrowed
  split
  · exact (h _ _ ‹_›).elim
  · rfl

end

/-! ## What a walk that stops does -/

section

variable {σ α β : Type}

/-- The call stops, if `p`, and otherwise ends with a value for which `Q` holds. -/
def Halts (p : Prop) (Q : α → Prop) (m : EStateM WalkError σ α) : Prop :=
  ∀ s, (p → ∃ s', m s = .error .outOfFuel s') ∧ (¬p → ∃ a s', m s = .ok a s' ∧ Q a)

/-- The call stops if and only if `p`; it may throw another error. -/
def Stops (p : Prop) (m : EStateM WalkError σ α) : Prop := ∀ s, (∃ s', m s = .error .outOfFuel s') ↔ p

variable {p r : Prop} {Q : α → Prop} {R : β → Prop} {m : EStateM WalkError σ α} {k : α → EStateM WalkError σ β}

theorem Halts.stops (h : Halts p Q m) : Stops p m := by
  intro s
  refine ⟨fun hstop => not_not.mp fun hp => ?_, (h s).1⟩
  obtain ⟨s', hstop⟩ := hstop
  obtain ⟨a, t, hok, -⟩ := (h s).2 hp
  rw [hok] at hstop
  cases hstop

theorem Stops.mono (h : Stops p m) (hp : p ↔ r) : Stops r m := fun s => (h s).trans hp

theorem Halts.pure {a : α} (h : Q a) : Halts False Q (Pure.pure a : EStateM WalkError σ α) := fun s =>
    ⟨nofun, fun _ => ⟨a, s, rfl, h⟩⟩

theorem Halts.mono {Q' : α → Prop} (h : Halts p Q m) (hp : p ↔ r) (hQ : ∀ a, Q a → Q' a) : Halts r Q' m := by
  intro s
  refine ⟨fun hp' => (h s).1 (hp.mpr hp'), fun hp' => ?_⟩
  obtain ⟨a, t, hok, ha⟩ := (h s).2 fun hp'' => hp' (hp.mp hp'')
  exact ⟨a, t, hok, hQ a ha⟩

theorem Halts.bind (h : Halts p Q m) (hk : ∀ a, Q a → Halts r R (k a)) : Halts (p ∨ r) R (m >>= k) := by
  intro s
  by_cases hp : p
  · obtain ⟨t, herror⟩ := (h s).1 hp
    exact ⟨fun _ => ⟨t, bind_of_error herror⟩, fun hnot => (hnot (.inl hp)).elim⟩
  · obtain ⟨a, t, hok, ha⟩ := (h s).2 hp
    rw [bind_of_ok hok]
    exact ⟨fun hor => (hk a ha t).1 (hor.resolve_left hp), fun hnot => (hk a ha t).2 fun hp' => hnot (.inr hp')⟩

theorem Halts.bind_stops (h : Halts p Q m) (hk : ∀ a, Q a → Stops r (k a)) : Stops (p ∨ r) (m >>= k) := by
  intro s
  by_cases hp : p
  · obtain ⟨t, herror⟩ := (h s).1 hp
    rw [bind_of_error herror]
    exact ⟨fun _ => .inl hp, fun _ => ⟨t, rfl⟩⟩
  · obtain ⟨a, t, hok, ha⟩ := (h s).2 hp
    rw [bind_of_ok hok, hk a ha t]
    exact ⟨.inr, fun hor => hor.resolve_left hp⟩

theorem Halts.after {m : EStateM WalkError σ α} (hm : ∀ s, ∃ a t, m s = .ok a t) (hk : ∀ a, Halts p R (k a)) :
    Halts p R (m >>= k) := by
  intro s
  obtain ⟨a, t, hok⟩ := hm s
  rw [bind_of_ok hok]
  exact hk a t

end

theorem Halts.inField {α : Type} {p : Prop} {Q : α → Prop} (c : FieldContext) {m : Walk Note α} (h : Halts p Q m) :
    Halts p Q (Walk.inField c m) := by
  intro s
  have hs := h { s with fieldContexts := c :: s.fieldContexts }
  refine ⟨fun hp => ?_, fun hp => ?_⟩
  · obtain ⟨t, herror⟩ := hs.1 hp
    refine ⟨{ t with fieldContexts := t.fieldContexts.tail }, ?_⟩
    unfold Walk.inField
    rw [herror]
  · obtain ⟨a, t, hok, ha⟩ := hs.2 hp
    refine ⟨a, { t with fieldContexts := t.fieldContexts.tail }, ?_, ha⟩
    unfold Walk.inField
    rw [hok]

theorem transformUpTo_halts (q : Schema × JsValue) (schema : Schema) (path : String) (v : JsValue) :
    Halts ((schema, v) = q) (· = v) (transformUpTo q schema path v) := by
  unfold transformUpTo
  by_cases hq : (schema, v) = q
  · rw [if_pos hq]
    exact fun s => ⟨fun _ => ⟨s, rfl⟩, fun hnot => (hnot hq).elim⟩
  · rw [if_neg hq]
    exact (Halts.pure (Q := (· = v)) rfl).mono (iff_of_false id hq) fun _ h => h

/-! ## Where the transform stops -/

/-- An object inherits what its prototype has, whatever its own properties are. -/
def InheritsAlike (env : Setting) : Prop := ∀ ps qs name, env.inherits (.object ps) name = env.inherits
    (.object qs) name

section

variable (env : Setting)

def FindsNone (n : SchemaNode) (v : JsValue) : Prop := ∀ p ∈ n.properties.getD [], (find env v p.1).value = none

/-- The properties that are read, up to the first that cannot be written back. -/
inductive Reads (v : JsValue) : List (String × Nat) → Nat → JsValue → Prop where
  | here {name : String} {i : Nat} {props : List (String × Nat)} {w : JsValue}
    (h : (find env v name).value = some w) :
      Reads v ((name, i) :: props) i w
  | there {name : String} {i j : Nat} {props : List (String × Nat)} {w : JsValue}
    (hwritable : ∀ u, find env v name ≠ .primitive u)
      (h : Reads v props i w) : Reads v ((name, j) :: props) i w

/-- What both walks go on with: subschemas, the properties beside them, items and references. -/
inductive Shared (n : SchemaNode) (v : JsValue) : Nat → JsValue → Prop where
  | subschema {i : Nat} (h : SubVisits env n v i) : Shared n v i v
  | sibling {name : String} {i : Nat} {w : JsValue} (hcomb : n.Combined) (hobj : isObject v = true)
      (hmem : (name, i) ∈ n.properties.getD []) (hfind : (find env v name).value = some w) : Shared n v i w
  | item {i : Nat} {elems : List JsValue} {w : JsValue} (hitems : n.items = some i) (hv : v = .array elems)
    (hw : w ∈ elems) :
      Shared n v i w
  | ref {i : Nat} (hcomb : ¬n.Combined) (hitems : n.items = none ∨ isArray v = false) (hi : n.ref = some i) :
    Shared n v i v

def SchemaNode.AtProperties (n : SchemaNode) (v : JsValue) : Prop := ¬n.Combined ∧
    (n.items = none ∨ isArray v = false) ∧ n.ref = none

/-- The pair is one of those, or the walk is at the properties and goes on with it there. -/
def GoesOn (n : SchemaNode) (v : JsValue) (q : Schema × JsValue) (atProperties : Prop) : Prop :=
  (∃ i w, Shared env n v i w ∧ (env.graph i, w) = q) ∨ (n.AtProperties v ∧ atProperties)

/-- The message itself, or the object with properties that it had inherited. -/
def SameFinds (v r : JsValue) : Prop :=
  r = v ∨ ∃ ps qs, v = .object ps ∧ r = .object qs ∧ ∀ name, (find env r name).value = (find env v name).value

variable {env}

theorem SameFinds.value {v r : JsValue} (h : SameFinds env v r) (name : String) : (find env r name).value =
    (find env v name).value := by
  obtain rfl | ⟨-, -, -, -, h⟩ := h
  · rfl
  · exact h name

theorem SameFinds.trans {u v r : JsValue} (h : SameFinds env u v) (h' : SameFinds env v r) : SameFinds env u r := by
  obtain rfl | ⟨ps, qs, rfl, rfl, hvalue⟩ := h
  · exact h'
  · obtain rfl | ⟨-, qs', -, rfl, hvalue'⟩ := h'
    · exact .inr ⟨ps, qs, rfl, rfl, hvalue⟩
    · exact .inr ⟨ps, qs', rfl, rfl, fun name => (hvalue' name).trans (hvalue name)⟩

theorem not_isNullish_of_own {v w : JsValue} {name : String} (h : find env v name = .own w) :
    isNullish w = false := by
  have hpresent : present w = .own w := by
    obtain ⟨props, rfl, hlook⟩ | ⟨elems, i, rfl, hi, hget⟩ := find_own h
    · simpa only [find, hlook] using h
    · simpa only [find, hi, Option.bind_some, hget] using h
  cases w with
  | undefined => cases hpresent
  | null => cases hpresent
  | _ => rfl

theorem find_ne_primitive {v : JsValue} (hv : isObject v = true ∨ isArray v = true) (name : String) (u : JsValue) :
    find env v name ≠ .primitive u := by
  intro h
  cases v with
  | object props =>
    simp only [find] at h
    split at h
    · rename_i w _
      obtain hw | hw := present_cases w
      · rw [hw] at h
        cases h
      · rw [hw] at h
        cases h
    · split_ifs at h
  | array elems =>
    simp only [find] at h
    split at h
    · rename_i w _
      obtain hw | hw := present_cases w
      · rw [hw] at h
        cases h
      · rw [hw] at h
        cases h
    · split_ifs at h
  | _ => simp [isObject, isArray] at hv

theorem not_isNullish_of_primitive {v w : JsValue} {name : String} (h : find env v name = .primitive w) :
    isNullish w = false := by
  cases v with
  | object props => exact (find_ne_primitive (.inl rfl) name w h).elim
  | array elems => exact (find_ne_primitive (.inr rfl) name w h).elim
  | string s =>
    simp only [find] at h
    split_ifs at h
    · cases h
      rfl
    all_goals
      split at h
      · cases h
        rfl
      · cases h
        try rfl
  | bool b =>
    simp only [find] at h
    split_ifs at h
    cases h
    rfl
  | number n =>
    simp only [find] at h
    split_ifs at h
    cases h
    rfl
  | _ => cases h

theorem not_isNullish_of_find {v w : JsValue} {name : String} (h : (find env v name).value = some w) :
    isNullish w = false := by
  cases hfind : find env v name with
  | nothing =>
    rw [hfind] at h
    cases h
  | own u =>
    rw [hfind] at h
    cases h
    exact not_isNullish_of_own hfind
  | aside u =>
    rw [hfind] at h
    cases h
    obtain ⟨-, -, -, rfl⟩ | ⟨-, rfl, -⟩ := find_aside hfind
    · rfl
    · rfl
  | inherited =>
    rw [hfind] at h
    cases h
    rfl
  | primitive u =>
    rw [hfind] at h
    cases h
    exact not_isNullish_of_primitive hfind

theorem sameFinds_inherited (hinherits : InheritsAlike env) {ps : List (String × JsValue)} {name : String}
    (h : find env (.object ps) name = .inherited) : SameFinds env (.object ps)
    (.object (ps ++ [(name, .builtin)])) := by
  refine .inr ⟨ps, _, rfl, rfl, fun name' => ?_⟩
  have hnone : ps.lookup name = none := by
    cases hlook : ps.lookup name with
    | none => rfl
    | some v =>
      simp only [find, hlook] at h
      obtain hv | hv := present_cases v
      · rw [hv] at h
        cases h
      · rw [hv] at h
        cases h
  by_cases hname : name' = name
  · subst hname
    have hlook : (ps ++ [(name', JsValue.builtin)]).lookup name' = some .builtin := by
      rw [List.lookup_append, hnone, List.lookup_cons_self]
      rfl
    rw [h]
    simp only [find, hlook]
    rfl
  · have hlook : (ps ++ [(name, JsValue.builtin)]).lookup name' = ps.lookup name' := by
      rw [List.lookup_append, List.lookup_cons, beq_eq_false_iff_ne.mpr hname, List.lookup_nil, Option.or_none]
    simp only [find, hlook, hinherits (ps ++ [(name, JsValue.builtin)]) ps]

variable {rule : WalkRule} {q : Schema × JsValue}

theorem transformFound_halts (hrule : rule.condition = false) (schema : Schema) (path name : String)
    {v w r : JsValue} {found : Found}
    (hvalue : found.value = some w) (hassign : assign v name w found = .ok r) (hr : SameFinds env v r) :
    Halts ((schema, w) = q) (SameFinds env v) (transformFound rule (transformUpTo q schema path) name v found) := by
  have hcond : ¬rule.condition = true := by rw [hrule]; nofun
  unfold transformFound
  rw [hvalue]
  refine ((transformUpTo_halts q schema path w).bind fun newVal hnew => ?_).mono (or_false _).to_iff fun _ h => h
  rw [if_neg hcond, hnew, hassign]
  exact Halts.pure hr

theorem transformField_halts (hrule : rule.condition = false) (hinherits : InheritsAlike env) (path : String)
    (p : String × Nat)
    {v : JsValue} (hwritable : ∀ u, find env v p.1 ≠ .primitive u) :
    Halts (∃ w, (find env v p.1).value = some w ∧ (env.graph p.2, w) = q) (SameFinds env v)
      (transformField env rule (transformUpTo q) path p.1 v (env.graph p.2)) := by
  refine Halts.inField _ (Halts.after (fun s => ⟨_, _, rfl⟩) fun _ => ?_)
  have hfound {w r : JsValue} (hvalue : (find env v p.1).value = some w)
    (hassign : assign v p.1 w (find env v p.1) = .ok r)
      (hr : SameFinds env v r) : Halts (∃ w, (find env v p.1).value = some w ∧ (env.graph p.2, w) = q)
      (SameFinds env v)
        (transformFound rule (transformUpTo q (env.graph p.2) (path ++ "." ++ p.1)) p.1 v (find env v p.1)) := by
    refine (transformFound_halts hrule _ _ p.1 hvalue hassign hr).mono ⟨fun h => ⟨w, hvalue, h⟩, ?_⟩ fun _ h => h
    rintro ⟨u, hu, hq⟩
    cases hu.symm.trans hvalue
    exact hq
  cases hfind : find env v p.1 with
  | nothing =>
    refine (Halts.pure (.inl rfl)).mono (iff_of_false id ?_) fun _ h => h
    rintro ⟨w, hw, -⟩
    cases hw
  | own w =>
    rw [hfind] at hfound
    exact hfound rfl rfl (.inl (setOwn_self hfind))
  | aside w =>
    rw [hfind] at hfound
    exact hfound rfl rfl (.inl rfl)
  | inherited =>
    obtain ⟨ps, rfl⟩ := find_inherited hfind
    rw [hfind] at hfound
    exact hfound rfl rfl (sameFinds_inherited hinherits hfind)
  | primitive w => exact (hwritable w hfind).elim

theorem transformProperties_halts (hrule : rule.condition = false) (hinherits : InheritsAlike env) (path : String)
    (props : List (String × Nat)) {v : JsValue} (hv : isObject v = true ∨ isArray v = true) :
    Halts (∃ p ∈ props, ∃ w, (find env v p.1).value = some w ∧ (env.graph p.2, w) = q) (SameFinds env v)
      (transformProperties env rule (transformUpTo q) path props v) := by
  induction props generalizing v with
  | nil => exact (Halts.pure (.inl rfl)).mono (by simp) fun _ h => h
  | cons p props ih =>
    have hrest (r : JsValue) (hr : SameFinds env v r) :
        Halts (∃ p ∈ props, ∃ w, (find env v p.1).value = some w ∧ (env.graph p.2, w) = q) (SameFinds env v)
          (transformProperties env rule (transformUpTo q) path props r) := by
      have hr' : isObject r = true ∨ isArray r = true := by
        obtain rfl | ⟨-, qs, -, rfl, -⟩ := hr
        · exact hv
        · exact .inl rfl
      refine (ih hr').mono ?_ fun _ => hr.trans
      simp only [hr.value]
    rw [List.exists_mem_cons_iff]
    exact Halts.bind (transformField_halts hrule hinherits path p (find_ne_primitive hv p.1)) hrest

theorem reads_of_writable {props : List (String × Nat)} {v w : JsValue} {i : Nat}
    (hwritable : ∀ name u, find env v name ≠ .primitive u) :
    Reads env v props i w ↔ ∃ p ∈ props, p.2 = i ∧ (find env v p.1).value = some w := by
  induction props with
  | nil =>
    refine iff_of_false nofun ?_
    rintro ⟨p, hp, -⟩
    cases hp
  | cons p props ih =>
    rw [List.exists_mem_cons_iff, ← ih]
    constructor
    · rintro (hfind | ⟨-, h⟩)
      · exact .inl ⟨rfl, hfind⟩
      · exact .inr h
    · rintro (⟨rfl, hfind⟩ | h)
      · exact .here hfind
      · exact .there (hwritable p.1) h

theorem transformField_primitive (hrule : rule.condition = false) (path : String) (p : String × Nat) {v u : JsValue}
    (hfind : find env v p.1 = .primitive u) (s : WalkState Note) :
    ∃ e s', transformField env rule (transformUpTo q) path p.1 v (env.graph p.2) s = .error e s' ∧
      (e = .outOfFuel ↔ (env.graph p.2, u) = q) := by
  have hcond : ¬rule.condition = true := by rw [hrule]; nofun
  have hbody (s : WalkState Note) : ∃ e s', transformFound rule
    (transformUpTo q (env.graph p.2) (path ++ "." ++ p.1)) p.1 v
      (.primitive u) s = .error e s' ∧ (e = .outOfFuel ↔ (env.graph p.2, u) = q) := by
    by_cases hq : (env.graph p.2, u) = q
    · obtain ⟨s', hstop⟩ := (transformUpTo_halts q (env.graph p.2) (path ++ "." ++ p.1) u s).1 hq
      exact ⟨.outOfFuel, s', bind_of_error hstop, iff_of_true rfl hq⟩
    · obtain ⟨newVal, s', hok, -⟩ := (transformUpTo_halts q (env.graph p.2) (path ++ "." ++ p.1) u s).2 hq
      refine ⟨.typeError, s', ?_, iff_of_false nofun hq⟩
      refine (bind_of_ok hok).trans ?_
      rw [if_neg hcond]
      rfl
  unfold transformField Walk.inField
  rw [hfind]
  obtain ⟨e, s', herror, he⟩ := hbody ⟨Walk.enterField rule (path ++ "." ++ p.1) p.1 (getType (env.graph p.2))
    (getInlineTags (env.graph p.2)) :: s.fieldContexts, s.notes ++ [.lookup .primitive]⟩
  refine ⟨e, { s' with fieldContexts := s'.fieldContexts.tail }, ?_, he⟩
  have hnote : (Walk.note (.lookup .primitive) >>= fun _ =>
      transformFound rule (transformUpTo q (env.graph p.2) (path ++ "." ++ p.1)) p.1 v (.primitive u))
        ⟨Walk.enterField rule (path ++ "." ++ p.1) p.1 (getType (env.graph p.2)) (getInlineTags (env.graph p.2)) ::
          s.fieldContexts, s.notes⟩ = .error e s' := herror
  dsimp only [Found.kind]
  rw [hnote]

/-- The properties of any value, where the first that cannot be written back is the last. -/
theorem transformProperties_stops (hrule : rule.condition = false) (hinherits : InheritsAlike env) (path : String)
    (props : List (String × Nat)) (v : JsValue) :
    Stops (∃ i w, Reads env v props i w ∧ (env.graph i, w) = q)
      (transformProperties env rule (transformUpTo q) path props v) := by
  by_cases hv : isObject v = true ∨ isArray v = true
  · refine Halts.stops ((transformProperties_halts hrule hinherits path props hv).mono ?_ fun _ h => h)
    simp only [reads_of_writable (find_ne_primitive hv)]
    constructor
    · rintro ⟨p, hp, w, hfind, hq⟩
      exact ⟨p.2, w, ⟨p, hp, rfl, hfind⟩, hq⟩
    · rintro ⟨i, w, ⟨p, hp, rfl, hfind⟩, hq⟩
      exact ⟨p, hp, w, hfind, hq⟩
  · induction props with
    | nil =>
      refine Halts.stops ((Halts.pure (Q := fun _ => True) trivial).mono (iff_of_false id ?_) fun _ h => h)
      rintro ⟨i, w, h, -⟩
      cases h
    | cons p props ih =>
      obtain ⟨name, i⟩ := p
      by_cases hwritable : ∀ u, find env v name ≠ .primitive u
      · have hrest (r : JsValue) (hr : SameFinds env v r) : Stops (∃ i w, Reads env v props i w ∧
          (env.graph i, w) = q)
            (transformProperties env rule (transformUpTo q) path props r) := by
          obtain rfl | ⟨ps, -, rfl, -, -⟩ := hr
          · exact ih
          · exact (hv (.inl rfl)).elim
        have hstops := Halts.bind_stops (transformField_halts (q := q) hrule hinherits path
          (name, i) hwritable) hrest
        refine hstops.mono ⟨?_, ?_⟩
        · rintro (⟨w, hfind, hq⟩ | ⟨j, w, h, hq⟩)
          · exact ⟨i, w, .here hfind, hq⟩
          · exact ⟨j, w, .there hwritable h, hq⟩
        · rintro ⟨j, w, hfind | ⟨-, h⟩, hq⟩
          · exact .inl ⟨w, hfind, hq⟩
          · exact .inr ⟨j, w, h, hq⟩
      · obtain ⟨u, hu⟩ := not_forall.mp hwritable
        have hfind : find env v name = .primitive u := not_not.mp hu
        have honly : (∃ j w, Reads env v ((name, i) :: props) j w ∧ (env.graph j, w) = q) ↔
          (env.graph i, u) = q := by
          constructor
          · rintro ⟨j, w, hw | ⟨hnot, -⟩, hq⟩
            · rw [hfind] at hw
              cases hw
              exact hq
            · exact (hnot u hfind).elim
          · exact fun hq => ⟨i, u, .here (by rw [hfind]; rfl), hq⟩
        intro s
        obtain ⟨e, s', herror, he⟩ := transformField_primitive (q := q) hrule path (name, i) hfind s
        have hrun : transformProperties env rule (transformUpTo q) path ((name, i) :: props) v s = .error e s' :=
          bind_of_error herror
        rw [hrun, honly, ← he]
        constructor
        · rintro ⟨t, h⟩
          cases h
          rfl
        · rintro rfl
          exact ⟨s', rfl⟩

theorem transformItems_halts (path : String) (schema : Schema) (elems : List JsValue) :
    Halts (∃ w ∈ elems, (schema, w) = q) (· = elems) (transformItems (transformUpTo q schema path) elems) := by
  induction elems with
  | nil => exact (Halts.pure (Q := (· = [])) rfl).mono (by simp) fun _ h => h
  | cons w elems ih =>
    rw [List.exists_mem_cons_iff]
    refine Halts.bind (transformUpTo_halts q schema path w) fun newVal hnew => ?_
    refine (ih.bind (r := False) (R := (· = w :: elems)) fun newVals hnews => ?_).mono
      (or_false _).to_iff fun _ h => h
    rw [hnew, hnews]
    exact Halts.pure rfl

theorem transformArray_halts (path : String) (schema : Schema) (v : JsValue) :
    Halts (∃ elems, v = .array elems ∧ ∃ w ∈ elems, (schema, w) = q) (· = v)
      (transformArray (transformUpTo q schema path) v) := by
  cases harray : isArray v with
  | false =>
    rw [transformArray_of_not_array harray]
    refine (Halts.pure (Q := (· = v)) rfl).mono (iff_of_false id ?_) fun _ h => h
    rintro ⟨elems, rfl, -⟩
    cases harray
  | true =>
    obtain ⟨elems, rfl⟩ := eq_array_of_isArray harray
    have hitems := (transformItems_halts (q := q) path schema elems).bind (r := False) (R := (· = .array elems))
      (k := fun newVals => Pure.pure (JsValue.array newVals)) fun newVals hnews => by
        rw [hnews]; exact Halts.pure rfl
    refine hitems.mono ?_ fun _ h => h
    rw [or_false]
    constructor
    · exact fun h => ⟨elems, rfl, h⟩
    · rintro ⟨elems', heq, h⟩
      cases heq
      exact h

theorem transformAllOf_halts (path : String) (subschemas : List Nat) (v : JsValue) :
    Halts (∃ i ∈ subschemas, (env.graph i, v) = q) (· = v)
      (transformAllOf env (fun schema => transformUpTo q schema path) subschemas v) := by
  induction subschemas with
  | nil => exact (Halts.pure (Q := (· = v)) rfl).mono (by simp) fun _ h => h
  | cons i subschemas ih =>
    rw [List.exists_mem_cons_iff]
    refine Halts.bind (transformUpTo_halts q (env.graph i) path v) fun r hr => ?_
    rw [hr]
    exact ih

theorem transformOneOf_halts (path : String) (subschemas : List Nat) (v : JsValue) :
    Halts (∃ i, subschemas.find? (fun i => validateSubschema env (env.graph i) v) = some i ∧ (env.graph i, v) = q)
      (· = v)
      (transformOneOf env (fun schema => transformUpTo q schema path) subschemas v) := by
  induction subschemas with
  | nil => exact (Halts.pure (Q := (· = v)) rfl).mono (by simp) fun _ h => h
  | cons i subschemas ih =>
    refine Halts.after (fun s => ⟨_, _, rfl⟩) fun _ => ?_
    rw [List.find?_cons]
    cases hacc : validateSubschema env (env.graph i) v with
    | true =>
      rw [if_pos rfl]
      refine (transformUpTo_halts q (env.graph i) path v).mono ⟨fun h => ⟨i, rfl, h⟩, ?_⟩ fun _ h => h
      rintro ⟨j, hj, h⟩
      cases hj
      exact h
    | false =>
      rw [if_neg Bool.false_ne_true]
      exact ih

theorem transformAnyOf_halts (path : String) (subschemas : List Nat) (v : JsValue) :
    Halts (∃ i ∈ subschemas, validateSubschema env (env.graph i) v = true ∧ (env.graph i, v) = q) (· = v)
      (transformAnyOf env (fun schema => transformUpTo q schema path) subschemas v) := by
  induction subschemas with
  | nil => exact (Halts.pure (Q := (· = v)) rfl).mono (by simp) fun _ h => h
  | cons i subschemas ih =>
    rw [List.exists_mem_cons_iff]
    refine Halts.after (fun s => ⟨_, _, rfl⟩) fun _ => Halts.bind (Q := (· = v)) ?_ fun r hr => ?_
    · cases validateSubschema env (env.graph i) v with
      | true => exact (transformUpTo_halts q (env.graph i) path v).mono ⟨fun h => ⟨rfl, h⟩, And.right⟩ fun _ h => h
      | false =>
        exact (Halts.pure (Q := (· = v)) rfl).mono (iff_of_false id fun h => Bool.false_ne_true h.1) fun _ h => h
    · rw [hr]
      exact ih

theorem transformSubschemas_halts (n : SchemaNode) (path : String) (v : JsValue) :
    Halts (∃ i, SubVisits env n v i ∧ (env.graph i, v) = q) (· = v)
      (transformSubschemas env (fun schema => transformUpTo q schema path) n v) := by
  unfold transformSubschemas
  by_cases hall : n.allOf ≠ []
  · rw [if_pos hall]
    refine (transformAllOf_halts path n.allOf v).mono ⟨?_, ?_⟩ fun _ h => h
    · rintro ⟨i, hi, hq⟩
      exact ⟨i, .allOf hi, hq⟩
    rintro ⟨i, hi | ⟨hnil, -⟩ | ⟨hnil, -, -, -⟩, hq⟩
    · exact ⟨i, hi, hq⟩
    · exact (hall hnil).elim
    · exact (hall hnil).elim
  · rw [if_neg hall]
    have hall' : n.allOf = [] := not_not.mp hall
    by_cases hone : n.oneOf ≠ []
    · rw [if_pos hone]
      refine (transformOneOf_halts path n.oneOf v).mono ⟨?_, ?_⟩ fun _ h => h
      · rintro ⟨i, hi, hq⟩
        exact ⟨i, .oneOf hall' hi, hq⟩
      rintro ⟨i, hi | ⟨-, hi⟩ | ⟨-, hnil, -, -⟩, hq⟩
      · rw [hall'] at hi
        cases hi
      · exact ⟨i, hi, hq⟩
      · exact (hone hnil).elim
    · rw [if_neg hone]
      have hone' : n.oneOf = [] := not_not.mp hone
      refine (transformAnyOf_halts path n.anyOf v).mono ⟨?_, ?_⟩ fun _ h => h
      · rintro ⟨i, hi, hacc, hq⟩
        exact ⟨i, .anyOf hall' hone' hi hacc, hq⟩
      rintro ⟨i, hi | ⟨-, hi⟩ | ⟨-, -, hi, hacc⟩, hq⟩
      · rw [hall'] at hi
        cases hi
      · rw [hone'] at hi
        cases hi
      · exact ⟨i, hi, hacc, hq⟩

theorem transformSiblings_halts (hrule : rule.condition = false) (hinherits : InheritsAlike env) (n : SchemaNode)
    (path : String)
    (v : JsValue) :
    Halts ((isObject v = true ∧ ∃ p ∈ n.properties.getD [], ∃ w, (find env v p.1).value = some w ∧
      (env.graph p.2, w) = q) ∨
        ∃ i, n.items = some i ∧ ∃ elems, v = .array elems ∧ ∃ w ∈ elems, (env.graph i, w) = q) (fun _ => True)
      (transformSiblings env rule (transformUpTo q) n path v) := by
  refine Halts.bind (Q := SameFinds env v) ?_ fun r hr => ?_
  · cases hv : isObject v with
    | true =>
      exact (transformProperties_halts hrule hinherits path _ (.inl hv)).mono
        ⟨fun h => ⟨rfl, h⟩, And.right⟩ fun _ h => h
    | false => exact (Halts.pure (.inl rfl)).mono (iff_of_false id fun h => Bool.false_ne_true h.1) fun _ h => h
  · have hr' : ∀ elems, v = .array elems ↔ r = .array elems := by
      obtain rfl | ⟨ps, qs, rfl, rfl, -⟩ := hr
      · exact fun _ => Iff.rfl
      · exact fun _ => iff_of_false nofun nofun
    simp only [hr']
    unfold transformSiblingItems
    cases n.items with
    | none =>
      refine (Halts.pure (Q := fun _ => True) trivial).mono (iff_of_false id ?_) fun _ h => h
      rintro ⟨i, hi, -⟩
      cases hi
    | some i =>
      refine (transformArray_halts path (env.graph i) r).mono ⟨fun h => ⟨i, rfl, h⟩, ?_⟩ fun _ _ => trivial
      rintro ⟨j, hj, h⟩
      cases hj
      exact h

/-- A schema without subschemas has one thing to go on with. -/
theorem shared_cases {n : SchemaNode} (hcomb : ¬n.Combined) {v w : JsValue} {i : Nat} (h : Shared env n v i w) :
    (n.items = some i ∧ ∃ elems, v = .array elems ∧ w ∈ elems) ∨
      ((n.items = none ∨ isArray v = false) ∧ n.ref = some i ∧ w = v) := by
  cases h with
  | subschema hi =>
    refine (hcomb ?_).elim
    cases hi with
    | allOf hi => exact .inl (List.ne_nil_of_mem hi)
    | oneOf _ hi => exact .inr (.inr (List.ne_nil_of_mem (List.mem_of_find?_eq_some hi)))
    | anyOf _ _ hi _ => exact .inr (.inl (List.ne_nil_of_mem hi))
  | sibling h => exact (hcomb h).elim
  | item hi hv hw => exact .inl ⟨hi, _, hv, hw⟩
  | ref _ hitems hi => exact .inr ⟨hitems, hi, rfl⟩

theorem not_shared_of_atProperties {n : SchemaNode} {v w : JsValue} {i : Nat} (h : n.AtProperties v) :
    ¬Shared env n v i w := by
  intro hshared
  obtain ⟨hi, elems, rfl, -⟩ | ⟨-, hi, -⟩ := shared_cases h.1 hshared
  · obtain hnone | harray := h.2.1
    · rw [hi] at hnone
      cases hnone
    · cases harray
  · rw [h.2.2] at hi
    cases hi

section

variable {n : SchemaNode} {v : JsValue} {x : Prop}

theorem goesOn_combined (hcomb : n.Combined) :
    GoesOn env n v q x ↔ (∃ i, SubVisits env n v i ∧ (env.graph i, v) = q) ∨
      (isObject v = true ∧ ∃ p ∈ n.properties.getD [], ∃ w, (find env v p.1).value = some w ∧
        (env.graph p.2, w) = q) ∨
        ∃ i, n.items = some i ∧ ∃ elems, v = .array elems ∧ ∃ w ∈ elems, (env.graph i, w) = q := by
  constructor
  · rintro (⟨i, w, h, hq⟩ | ⟨hat, -⟩)
    · cases h with
      | subschema hi => exact .inl ⟨i, hi, hq⟩
      | sibling _ hobj hmem hfind => exact .inr (.inl ⟨hobj, _, hmem, w, hfind, hq⟩)
      | item hi hv hw => exact .inr (.inr ⟨i, hi, _, hv, w, hw, hq⟩)
      | ref hnot => exact (hnot hcomb).elim
    · exact (hat.1 hcomb).elim
  · rintro (⟨i, hi, hq⟩ | ⟨hobj, p, hp, w, hfind, hq⟩ | ⟨i, hi, elems, hv, w, hw, hq⟩)
    · exact .inl ⟨i, v, .subschema hi, hq⟩
    · exact .inl ⟨p.2, w, .sibling hcomb hobj hp hfind, hq⟩
    · exact .inl ⟨i, w, .item hi hv hw, hq⟩

theorem goesOn_items (hcomb : ¬n.Combined) {i : Nat} (hitems : n.items = some i) (elems : List JsValue) :
    GoesOn env n (.array elems) q x ↔ ∃ w ∈ elems, (env.graph i, w) = q := by
  have hwalked : ¬(n.items = none ∨ isArray (.array elems) = false) := by
    rintro (hnone | hnot)
    · rw [hitems] at hnone
      cases hnone
    · cases hnot
  constructor
  · rintro (⟨j, w, h, hq⟩ | ⟨⟨-, hno, -⟩, -⟩)
    · obtain ⟨hj, elems', heq, hw⟩ | ⟨hno, -⟩ := shared_cases hcomb h
      · cases hitems.symm.trans hj
        cases heq
        exact ⟨w, hw, hq⟩
      · exact (hwalked hno).elim
    · exact (hwalked hno).elim
  · rintro ⟨w, hw, hq⟩
    exact .inl ⟨i, w, .item hitems rfl hw, hq⟩

theorem goesOn_ref (hcomb : ¬n.Combined) (hitems : n.items = none ∨ isArray v = false) {i : Nat}
    (hi : n.ref = some i) :
    GoesOn env n v q x ↔ (env.graph i, v) = q := by
  constructor
  · rintro (⟨j, w, h, hq⟩ | ⟨⟨-, -, hnone⟩, -⟩)
    · obtain ⟨hj, elems, rfl, -⟩ | ⟨-, hj, rfl⟩ := shared_cases hcomb h
      · obtain hnone | hnot := hitems
        · rw [hj] at hnone
          cases hnone
        · cases hnot
      · cases hi.symm.trans hj
        exact hq
    · rw [hi] at hnone
      cases hnone
  · exact fun hq => .inl ⟨i, v, .ref hcomb hitems hi, hq⟩

theorem goesOn_properties (hat : n.AtProperties v) : GoesOn env n v q x ↔ x := by
  constructor
  · rintro (⟨i, w, h, -⟩ | ⟨-, hx⟩)
    · exact (not_shared_of_atProperties hat h).elim
    · exact hx
  · exact fun hx => .inr ⟨hat, hx⟩

end

theorem transformCombined_halts (hrule : rule.condition = false) (hinherits : InheritsAlike env) {n : SchemaNode}
    (hcomb : n.Combined)
    (path : String) (v : JsValue) {x : Prop} :
    Halts (GoesOn env n v q x) (fun _ => True) (transformCombined env rule (transformUpTo q) n path v) := by
  have hsiblings := transformSiblings_halts (q := q) hrule hinherits n path v
  refine (Halts.bind (transformSubschemas_halts n path v) ?_).mono (goesOn_combined hcomb).symm fun _ h => h
  rintro r rfl
  exact hsiblings

theorem transformPlain_stops (hrule : rule.condition = false) (hinherits : InheritsAlike env) {n : SchemaNode}
    (hcomb : ¬n.Combined)
    (path : String) (v : JsValue) :
    Stops (GoesOn env n v q (n.getType = .RECORD ∧ ∃ i w, Reads env v (n.properties.getD []) i w ∧
      (env.graph i, w) = q))
      (transformPlain env rule identity (transformUpTo q) n path v) := by
  unfold transformPlain
  split
  · rename_i i hitems harray
    obtain ⟨elems, rfl⟩ := eq_array_of_isArray harray
    refine (transformArray_halts path (env.graph i) (.array elems)).stops.mono ?_
    rw [goesOn_items hcomb hitems]
    constructor
    · rintro ⟨elems', heq, h⟩
      cases heq
      exact h
    · exact fun h => ⟨elems, rfl, h⟩
  · rename_i hno
    have hitems : n.items = none ∨ isArray v = false := by
      cases hi : n.items with
      | none => exact .inl rfl
      | some i => exact .inr (Bool.eq_false_iff.mpr (hno i hi))
    split
    · rename_i i hi
      exact (transformUpTo_halts q (env.graph i) path v).stops.mono (goesOn_ref hcomb hitems hi).symm
    · rename_i href
      rw [goesOn_properties ⟨hcomb, hitems, href⟩]
      have hleaf {m : Walk Note JsValue} {x : Prop} (hm : Halts False (fun _ => True) m)
        (htype : n.getType ≠ .RECORD) :
          Stops (n.getType = .RECORD ∧ x) m := hm.stops.mono (iff_of_false id fun h => htype h.1)
      have hidentity : Halts False (fun _ => True) (transformLeaf rule identity v) := by
        refine Halts.after (fun s => ⟨_, s, rfl⟩) fun c => ?_
        have hsame : Walk.applyRule rule identity c v = .ok v := Walk.applyRule_eq_self fun _ => rfl
        rw [hsame]
        exact Halts.pure trivial
      split
      · rename_i htype
        exact (transformProperties_stops hrule hinherits path (n.properties.getD []) v).mono
          ⟨fun h => ⟨htype, h⟩, And.right⟩
      all_goals first | exact hleaf hidentity (by simp [*]) | exact hleaf (Halts.pure trivial) ‹_›

theorem transformNode_stops (hrule : rule.condition = false) (hinherits : InheritsAlike env) (n : SchemaNode)
    (path : String) (v : JsValue) :
    Stops (GoesOn env n v q (n.getType = .RECORD ∧ ∃ i w, Reads env v (n.properties.getD []) i w ∧
      (env.graph i, w) = q))
      (transformNode env rule identity (transformUpTo q) n path v) := by
  unfold transformNode
  by_cases hcomb : n.allOf ≠ [] ∨ n.anyOf ≠ [] ∨ n.oneOf ≠ []
  · rw [if_pos hcomb]
    exact (transformCombined_halts hrule hinherits hcomb path v).stops
  · rw [if_neg hcomb]
    exact transformPlain_stops hrule hinherits hcomb path v

end

end Json

end ConfluentKafka
