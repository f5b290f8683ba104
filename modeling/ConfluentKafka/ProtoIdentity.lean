import ConfluentKafka.ProtoTransform

/-!
# The identity as field transform of Protobuf messages

A walk whose field transform returns each value unchanged reads and writes back the fields of the message. It
returns the message, unless a field that is not set reads an inherited value, which is then set, or a
map of messages has the key that names the prototype.
-/

namespace ConfluentKafka

namespace Proto

open ConfluentKafka.Walk (Orderly Returns Rises)

def identity : FieldTransform Value := fun _ v => .ok v

/-! ## What a walk visits -/

inductive Part (fd : DescField) : Value → Nat → Value → Prop where
  | single {value : Value} {i : Nat} (hkind : fd.kind = .single (.message i)) : Part fd value i value
  | elem {elems : List Value} {i : Nat} {w : Value} (hkind : fd.kind = .list (.message i)) (hw : w ∈ elems) :
      Part fd (.list elems) i w
  | entry {entries : List (String × Value)} {i : Nat} {key : String} {w : Value}
      (hkind : fd.kind = .map (.message i)) (hw : (key, w) ∈ entries) : Part fd (.map entries) i w

def Unset (env : Setting) (typeName : String) (props : List (String × Value)) (fd : DescField) : Prop :=
  fd.oneof = none ∧ props.lookup fd.localName = none ∧ env.inherits typeName fd.localName ≠ none

def HasProto (fd : DescField) (value : Value) : Prop :=
  ∃ i entries w, fd.kind = .map (.message i) ∧ value = .map entries ∧ ("__proto__", w) ∈ entries

/-- A field that is not set reads an inherited value, or a map has a key that names the prototype. -/
inductive Disturbed (env : Setting) : DescMessage → Option DescMessage → Value → Prop where
  | unset {d : DescMessage} {r : Option DescMessage} {typeName : String} {props : List (String × Value)}
      {fd runtimeFd : DescField} (hleaf : isCelLeafMessage typeName = false) (hmem : runtimeFd ∈ (r.getD d).fields)
      (hfd : schemaFieldFor d r runtimeFd = some fd) (h : Unset env typeName props runtimeFd) :
      Disturbed env d r (.message typeName props)
  | proto {d : DescMessage} {r : Option DescMessage} {typeName : String} {props : List (String × Value)}
      {fd runtimeFd : DescField} {value : Value} (hleaf : isCelLeafMessage typeName = false)
      (hmem : runtimeFd ∈ (r.getD d).fields) (hfd : schemaFieldFor d r runtimeFd = some fd)
      (hvalue : ownValue props runtimeFd = some value) (h : HasProto fd value) :
      Disturbed env d r (.message typeName props)
  | part {d : DescMessage} {r : Option DescMessage} {typeName : String} {props : List (String × Value)}
      {fd runtimeFd : DescField} {value : Value} {i : Nat} {w : Value} (hleaf : isCelLeafMessage typeName = false)
      (hmem : runtimeFd ∈ (r.getD d).fields) (hfd : schemaFieldFor d r runtimeFd = some fd)
      (hvalue : ownValue props runtimeFd = some value) (hpart : Part fd value i w)
      (h : Disturbed env (env.descs i) (messageOf env runtimeFd) w) : Disturbed env d r (.message typeName props)

/-! ## What a walk drops and adds -/

mutual

def hidden : Value → Nat
  | .list elems => hiddenElems elems
  | .map entries => hiddenEntries entries
  | .message _ props => hiddenProps props
  | .oneof _ value => hidden value
  | .reflect message => hidden message + 1
  | _ => 0

def hiddenElems : List Value → Nat
  | [] => 0
  | v :: vs => hidden v + hiddenElems vs

def hiddenEntries : List (String × Value) → Nat
  | [] => 0
  | (key, v) :: es => (if key = "__proto__" then 1 else 0) + hidden v + hiddenEntries es

def hiddenProps : List (String × Value) → Nat
  | [] => 0
  | (_, v) :: ps => hidden v + hiddenProps ps

end

mutual

def weight : Value → Nat
  | .list elems => weightElems elems
  | .map entries => weightEntries entries
  | .message _ props => weightProps props
  | .oneof _ value => weight value
  | .reflect message => weight message
  | _ => 0

def weightElems : List Value → Nat
  | [] => 0
  | v :: vs => weight v + weightElems vs

def weightEntries : List (String × Value) → Nat
  | [] => 0
  | (_, v) :: es => weight v + weightEntries es

def weightProps : List (String × Value) → Nat
  | [] => 0
  | (_, v) :: ps => weight v + 1 + weightProps ps

end

/-- Less is hidden than before, or as much and there are more properties. -/
def GrownBy (hidden hidden' weight weight' : Nat) : Prop := hidden' < hidden ∨ (hidden' = hidden ∧ weight < weight')

def Grown (v r : Value) : Prop := GrownBy (hidden v) (hidden r) (weight v) (weight r)

def GrownProps (ps qs : List (String × Value)) : Prop :=
  GrownBy (hiddenProps ps) (hiddenProps qs) (weightProps ps) (weightProps qs)

theorem grownProps_trans (ps qs rs : List (String × Value)) (h : GrownProps ps qs) (h' : GrownProps qs rs) :
    GrownProps ps rs := by
  unfold GrownProps GrownBy at *
  omega

theorem hiddenProps_eq (ps : List (String × Value)) : hiddenProps ps = (ps.map fun p => hidden p.2).sum := by
  induction ps with
  | nil => rfl
  | cons p ps ih => simp only [hiddenProps, List.map_cons, List.sum_cons, ih]

theorem weightProps_eq (ps : List (String × Value)) : weightProps ps = (ps.map fun p => weight p.2 + 1).sum := by
  induction ps with
  | nil => rfl
  | cons p ps ih => simp only [weightProps, List.map_cons, List.sum_cons, ih]

theorem grownProps_setProp {ps : List (String × Value)} {name : String} {v r : Value} (hv : ps.lookup name = some v)
    (h : Grown v r) : GrownProps ps (setProp ps name r) := by
  have hset : setProp ps name r = updateProp name (fun _ => r) ps := by simp [setProp, hv]
  have hhidden := sum_updateProp (fun p => hidden p.2) r hv
  have hweight := sum_updateProp (fun p => weight p.2 + 1) r hv
  simp only at hhidden hweight
  rw [hset]
  unfold GrownProps Grown GrownBy at *
  rw [hiddenProps_eq, hiddenProps_eq, weightProps_eq, weightProps_eq]
  omega

/-- A property that is not there is added, and nothing is hidden in it. -/
theorem grownProps_append {ps : List (String × Value)} {name : String} {r : Value} (hnone : ps.lookup name = none)
    (h : hidden r = 0) : GrownProps ps (setProp ps name r) := by
  have hset : setProp ps name r = ps ++ [(name, r)] := by simp [setProp, hnone]
  rw [hset]
  unfold GrownProps GrownBy
  rw [hiddenProps_eq, hiddenProps_eq, weightProps_eq, weightProps_eq]
  simp only [List.map_append, List.sum_append, List.map_cons, List.map_nil, List.sum_cons, List.sum_nil, h]
  omega

theorem setProp_self {ps : List (String × Value)} {name : String} {v : Value} (hv : ps.lookup name = some v) :
    setProp ps name v = ps := by
  have hset : setProp ps name v = updateProp name (fun _ => v) ps := by simp [setProp, hv]
  rw [hset, updateProp_self hv]

theorem hidden_plain {v : Value} (h : v.isPlain = true) : hidden v = 0 := by
  cases v with
  | bool b => rfl
  | scalar t i => rfl
  | _ => cases h

/-! ## A walk that ends returns the message, drops from it or adds to it -/

section Rise

variable {env : Setting} {rule : WalkRule}

/-- A message that is rebuilt is the same one, or has been unwrapped. -/
theorem rebuildValueType_ok {fd : DescField} {expected : String} {v r : Value}
    (h : rebuildValueType rule fd expected v = .ok r) : r = v ∨ v = .reflect r := by
  cases v with
  | undefined => cases h
  | null => cases h
  | message typeName props =>
    simp only [rebuildValueType, unwrap] at h
    split_ifs at h
    cases h
    exact .inl rfl
  | reflect message =>
    cases message with
    | message typeName props =>
      simp only [rebuildValueType, unwrap] at h
      split_ifs at h
      cases h
      exact .inr rfl
    | _ => simp only [rebuildValueType, unwrap, reduceCtorEq] at h
  | _ => simp only [rebuildValueType, unwrap, reduceCtorEq] at h

theorem mapM_ok {α ε : Type} {f : α → Except ε α} {size : α → Nat}
    (hf : ∀ v r, f v = .ok r → r = v ∨ size r < size v) {vs rs : List α} (h : vs.mapM f = .ok rs) :
    rs = vs ∨ (rs.map size).sum < (vs.map size).sum := by
  induction vs generalizing rs with
  | nil =>
    cases h
    exact .inl rfl
  | cons v vs ih =>
    rw [List.mapM_cons] at h
    cases hv : f v with
    | error e =>
      rw [hv] at h
      cases h
    | ok r =>
      cases hvs : vs.mapM f with
      | error e =>
        rw [hv, hvs] at h
        cases h
      | ok rs' =>
        rw [hv, hvs] at h
        cases h
        obtain rfl | hr := hf v r hv
        · obtain rfl | hrs := ih hvs
          · exact .inl rfl
          · simp only [List.map_cons, List.sum_cons]
            omega
        · obtain rfl | hrs := ih hvs
          · simp only [List.map_cons, List.sum_cons]
            omega
          · simp only [List.map_cons, List.sum_cons]
            omega

theorem hiddenElems_eq (vs : List Value) : hiddenElems vs = (vs.map hidden).sum := by
  induction vs with
  | nil => rfl
  | cons v vs ih => simp only [hiddenElems, List.map_cons, List.sum_cons, ih]

def hiddenEntry (entry : String × Value) : Nat := (if entry.1 = "__proto__" then 1 else 0) + hidden entry.2

theorem hiddenEntries_eq (entries : List (String × Value)) : hiddenEntries entries =
    (entries.map hiddenEntry).sum := by
  induction entries with
  | nil => rfl
  | cons e es ih => simp only [hiddenEntries, hiddenEntry, List.map_cons, List.sum_cons, ih]

theorem rebuild_ok {fd : DescField} {expected : String} {v r : Value} (h : rebuild rule fd expected v = .ok r) :
    r = v ∨ hidden r < hidden v := by
  have hone : ∀ v r, rebuildValueType rule fd expected v = .ok r → r = v ∨ hidden r < hidden v := by
    intro v r h
    obtain rfl | rfl := rebuildValueType_ok h
    · exact .inl rfl
    · exact .inr (Nat.lt_succ_self _)
  have hentry : ∀ e r, rebuildEntry rule fd expected e = .ok r → r = e ∨ hiddenEntry r < hiddenEntry e := by
    intro e r h
    unfold rebuildEntry at h
    cases hv : rebuildValueType rule fd expected e.2 with
    | error err =>
      rw [hv] at h
      cases h
    | ok w =>
      rw [hv] at h
      cases h
      obtain rfl | hlt := hone e.2 w hv
      · exact .inl rfl
      · exact .inr (Nat.add_lt_add_left hlt _)
  unfold rebuild at h
  split at h
  · rename_i elems _
    cases hrs : elems.mapM (rebuildValueType rule fd expected) with
    | error e =>
      rw [hrs] at h
      cases h
    | ok rs =>
      rw [hrs] at h
      cases h
      obtain rfl | hlt := mapM_ok hone hrs
      · exact .inl rfl
      · simp only [hidden, hiddenElems_eq]
        exact .inr hlt
  · rename_i entries _
    cases hrs : entries.mapM (rebuildEntry rule fd expected) with
    | error e =>
      rw [hrs] at h
      cases h
    | ok rs =>
      rw [hrs] at h
      cases h
      obtain rfl | hlt := mapM_ok hentry hrs
      · exact .inl rfl
      · simp only [hidden, hiddenEntries_eq]
        exact .inr hlt
  · exact hone _ r h

theorem rebuilt_ok {runtimeFd : DescField} {v r : Value} (h : rebuilt env rule runtimeFd v = .ok r) :
    r = v ∨ Grown v r := by
  unfold rebuilt at h
  split at h
  · split_ifs at h
    · exact (rebuild_ok h).imp_right .inl
    · cases h
      exact .inl rfl
  · cases h
    exact .inl rfl

variable (env) in
def ValueDisturbed (fd runtimeFd : DescField) (value : Value) : Prop :=
  HasProto fd value ∨ ∃ i w, Part fd value i w ∧ Disturbed env (env.descs i) (messageOf env runtimeFd) w

theorem rises_transformLeaf {D : Prop} (hD : ¬D) (v : Value) : Rises Grown D v (transformLeaf rule identity v) := by
  refine Rises.after fun c => ?_
  have hsame : Walk.applyRule rule identity c v = .ok v := Walk.applyRule_eq_self fun _ => rfl
  rw [hsame]
  exact Rises.pure hD

variable {walk : DescMessage → Option DescMessage → Value → Walk Empty Value}
  (hwalk : ∀ d r v, Rises Grown (Disturbed env d r v) v (walk d r v))

include hwalk

theorem rises_transformElem (r : Option DescMessage) (elem : ElemKind) (v : Value) :
    Rises Grown (∃ i, elem = .message i ∧ Disturbed env (env.descs i) r v) v
      (transformElem env rule identity walk r elem v) := by
  cases elem with
  | message i =>
    refine (hwalk (env.descs i) r v).weaken ?_
    rintro ⟨j, hj, hD⟩
    cases hj
    exact hD
  | _ =>
    refine rises_transformLeaf ?_ v
    rintro ⟨i, hi, -⟩
    cases hi

theorem rises_mapElems (r : Option DescMessage) (elem : ElemKind) (elems : List Value) :
    Rises (fun vs rs => Grown (.list vs) (.list rs)) (∃ v ∈ elems, ∃ i, elem = .message i ∧
      Disturbed env (env.descs i) r v) elems
        (Walk.mapEach (transformElem env rule identity walk r elem) elems) := by
  refine Rises.mapEach (fun v r vs rs hgrown hrs => ?_) (fun v vs rs hrs => ?_)
    (rises_transformElem hwalk r elem) elems
  · simp only [Grown, GrownBy, hidden, weight, hiddenElems, weightElems] at *
    obtain rfl | hrs := hrs
    · omega
    · omega
  · simp only [Grown, GrownBy, hidden, weight, hiddenElems, weightElems] at *
    omega

theorem rises_mapValue (d : DescMessage) (r : Option DescMessage) (entry : String × Value) :
    Rises (fun e f => e.1 = f.1 ∧ Grown e.2 f.2) (Disturbed env d r entry.2) entry
      (Walk.mapValue (walk d r) entry) := by
  intro s e t hrun
  obtain ⟨v, t₁, hv, hpure⟩ := (bind_eq_ok_iff _ _ s t e).mp hrun
  cases hpure
  obtain ⟨hv', hD⟩ | hgrown := hwalk d r entry.2 s v t hv
  · subst hv'
    exact .inl ⟨rfl, hD⟩
  · exact .inr ⟨rfl, hgrown⟩

theorem rises_mapValues (d : DescMessage) (r : Option DescMessage) (entries : List (String × Value)) :
    Rises (fun vs rs => Grown (.map vs) (.map rs)) (∃ e ∈ entries, Disturbed env d r e.2) entries
      (Walk.mapValues (walk d r) entries) := by
  refine Rises.mapEach (fun e f es fs hgrown hfs => ?_) (fun e es fs hfs => ?_) (rises_mapValue hwalk d r) entries
  · obtain ⟨hkey, hgrown⟩ := hgrown
    simp only [Grown, GrownBy, hidden, weight, hiddenEntries, weightEntries, hkey] at *
    obtain rfl | hfs := hfs
    · omega
    · omega
  · simp only [Grown, GrownBy, hidden, weight, hiddenEntries, weightEntries] at *
    omega

omit hwalk

theorem plainObject_eq {entries : List (String × Value)} (h : ∀ w, ("__proto__", w) ∉ entries) :
    plainObject entries = entries := by
  refine List.filter_eq_self.mpr fun e he => ?_
  simp only [decide_eq_true_eq]
  intro heq
  exact h e.2 (heq ▸ he)

theorem hidden_plainObject (entries : List (String × Value)) :
    hiddenEntries (plainObject entries) ≤ hiddenEntries entries ∧
      ((∃ w, ("__proto__", w) ∈ entries) → hiddenEntries (plainObject entries) < hiddenEntries entries) := by
  induction entries with
  | nil => exact ⟨le_refl _, by simp⟩
  | cons e es ih =>
    obtain ⟨key, v⟩ := e
    obtain ⟨hle, hlt⟩ := ih
    by_cases hkey : key = "__proto__"
    · have hdrop : plainObject ((key, v) :: es) = plainObject es := by simp [plainObject, hkey]
      rw [hdrop]
      simp only [hiddenEntries, if_pos hkey]
      exact ⟨by omega, fun _ => by omega⟩
    · have hkeep : plainObject ((key, v) :: es) = (key, v) :: plainObject es := by simp [plainObject, hkey]
      rw [hkeep]
      simp only [hiddenEntries, if_neg hkey]
      refine ⟨by omega, ?_⟩
      rintro ⟨w, hw⟩
      cases List.mem_cons.mp hw with
      | inl h =>
        cases h
        exact (hkey rfl).elim
      | inr h =>
        have := hlt ⟨w, h⟩
        omega

theorem grown_of_proto {es : List (String × Value)} (h : ∃ w, ("__proto__", w) ∈ es) :
    Grown (.map es) (.map (plainObject es)) := .inl ((hidden_plainObject es).2 h)

theorem Grown.plainObject {es fs : List (String × Value)} (h : Grown (.map es) (.map fs)) :
    Grown (.map es) (.map (plainObject fs)) := by
  by_cases hproto : ∃ w, ("__proto__", w) ∈ fs
  · have hlt := (hidden_plainObject fs).2 hproto
    simp only [Grown, GrownBy, hidden] at *
    omega
  · rw [plainObject_eq fun w hw => hproto ⟨w, hw⟩]
    exact h

theorem valueDisturbed_single {fd runtimeFd : DescField} {v : Value} {elem : ElemKind}
    (hkind : fd.kind = .single elem)
    (h : ValueDisturbed env fd runtimeFd v) :
    ∃ i, elem = .message i ∧ Disturbed env (env.descs i) (messageOf env runtimeFd) v := by
  obtain ⟨i, entries, w, hkind', -⟩ | ⟨i, w, hpart, hD⟩ := h
  · cases hkind.symm.trans hkind'
  · cases hpart with
    | single hkind' =>
      cases hkind.symm.trans hkind'
      exact ⟨i, rfl, hD⟩
    | elem hkind' _ => cases hkind.symm.trans hkind'
    | entry hkind' _ => cases hkind.symm.trans hkind'

theorem valueDisturbed_list {fd runtimeFd : DescField} {v : Value} {elem : ElemKind} (hkind : fd.kind = .list elem)
    (h : ValueDisturbed env fd runtimeFd v) :
    ∃ elems, v = .list elems ∧
      ∃ w ∈ elems, ∃ i, elem = .message i ∧ Disturbed env (env.descs i) (messageOf env runtimeFd) w := by
  obtain ⟨i, entries, w, hkind', -⟩ | ⟨i, w, hpart, hD⟩ := h
  · cases hkind.symm.trans hkind'
  · cases hpart with
    | single hkind' => cases hkind.symm.trans hkind'
    | elem hkind' hw =>
      cases hkind.symm.trans hkind'
      exact ⟨_, rfl, w, hw, i, rfl, hD⟩
    | entry hkind' _ => cases hkind.symm.trans hkind'

theorem valueDisturbed_map {fd runtimeFd : DescField} {v : Value} {elem : ElemKind} (hkind : fd.kind = .map elem)
    (h : ValueDisturbed env fd runtimeFd v) :
    ∃ i entries, elem = .message i ∧ v = .map entries ∧ ((∃ w, ("__proto__", w) ∈ entries) ∨
      ∃ e ∈ entries, Disturbed env (env.descs i) (messageOf env runtimeFd) e.2) := by
  obtain ⟨i, entries, w, hkind', hv, hw⟩ | ⟨i, w, hpart, hD⟩ := h
  · cases hkind.symm.trans hkind'
    exact ⟨i, entries, rfl, hv, .inl ⟨w, hw⟩⟩
  · cases hpart with
    | single hkind' => cases hkind.symm.trans hkind'
    | elem hkind' _ => cases hkind.symm.trans hkind'
    | entry hkind' hw =>
      cases hkind.symm.trans hkind'
      exact ⟨i, _, rfl, rfl, .inr ⟨_, hw, hD⟩⟩

theorem not_valueDisturbed_nullish {fd runtimeFd : DescField} {v : Value} (hv : v = .undefined ∨ v = .null) :
    ¬ValueDisturbed env fd runtimeFd v := by
  intro h
  cases hkind : fd.kind with
  | single elem =>
    obtain ⟨i, -, hD⟩ := valueDisturbed_single hkind h
    obtain rfl | rfl := hv
    · cases hD
    · cases hD
  | list elem =>
    obtain ⟨elems, rfl, -⟩ := valueDisturbed_list hkind h
    simp at hv
  | map elem =>
    obtain ⟨i, entries, -, rfl, -⟩ := valueDisturbed_map hkind h
    simp at hv

include hwalk

theorem rises_transformList {fd : DescField} (runtimeFd : DescField) {elem : ElemKind}
    (hkind : fd.kind = .list elem)
    (elems : List Value) :
    Rises Grown (ValueDisturbed env fd runtimeFd (.list elems)) (.list elems) (do
      return .list
        (← Walk.mapEach (transformElem env rule identity walk (messageOf env runtimeFd) elem) elems)) := by
  intro s r t hrun
  obtain ⟨rs, t₁, hrs, hpure⟩ := (bind_eq_ok_iff _ _ s t r).mp hrun
  cases hpure
  obtain ⟨rfl, hD⟩ | hgrown := rises_mapElems hwalk _ elem elems s rs t hrs
  · refine .inl ⟨rfl, fun h => hD ?_⟩
    obtain ⟨elems', heq, hw⟩ := valueDisturbed_list hkind h
    cases heq
    exact hw
  · exact .inr hgrown

theorem rises_transformMap {fd : DescField} (runtimeFd : DescField) {i : Nat} (hkind : fd.kind = .map (.message i))
    (entries : List (String × Value)) :
    Rises Grown (ValueDisturbed env fd runtimeFd (.map entries)) (.map entries) (do
      return .map (plainObject (← Walk.mapValues (walk (env.descs i) (messageOf env runtimeFd)) entries))) := by
  intro s r t hrun
  obtain ⟨fs, t₁, hfs, hpure⟩ := (bind_eq_ok_iff _ _ s t r).mp hrun
  cases hpure
  obtain ⟨rfl, hD⟩ | hgrown := rises_mapValues hwalk (env.descs i) (messageOf env runtimeFd) entries s fs t hfs
  · by_cases hproto : ∃ w, ("__proto__", w) ∈ fs
    · exact .inr (grown_of_proto hproto)
    · refine .inl ⟨by rw [plainObject_eq fun w hw => hproto ⟨w, hw⟩], fun h => ?_⟩
      obtain ⟨j, entries', helem, hv, h⟩ := valueDisturbed_map hkind h
      cases helem
      cases hv
      exact h.elim hproto hD
  · exact .inr hgrown.plainObject

theorem rises_transformFieldValue (fd runtimeFd : DescField) (v : Value) :
    Rises Grown (ValueDisturbed env fd runtimeFd v) v
      (transformFieldValue env rule identity walk fd runtimeFd v) := by
  unfold transformFieldValue
  split
  · exact Rises.pure (not_valueDisturbed_nullish (.inl rfl))
  · exact Rises.pure (not_valueDisturbed_nullish (.inr rfl))
  · split
    · rename_i hkind
      exact (rises_transformElem hwalk _ _ v).weaken (valueDisturbed_single hkind)
    · rename_i hkind
      split
      · exact rises_transformList hwalk runtimeFd hkind _
      · rename_i hno
        refine Rises.pure fun h => ?_
        obtain ⟨elems, rfl, -⟩ := valueDisturbed_list hkind h
        exact hno elems rfl
    · rename_i hkind
      split
      · exact rises_transformMap hwalk runtimeFd hkind _
      · rename_i hno
        refine Rises.pure fun h => ?_
        obtain ⟨i, entries, -, rfl, -⟩ := valueDisturbed_map hkind h
        exact hno entries rfl
    · rename_i hno hkind
      refine Rises.pure fun h => ?_
      obtain ⟨i, entries, helem, -⟩ := valueDisturbed_map hkind h
      exact hno i helem

omit hwalk

variable (env) in
def FieldDisturbed (typeName : String) (props : List (String × Value)) (fd runtimeFd : DescField) : Prop :=
  Unset env typeName props runtimeFd ∨
    ∃ value, ownValue props runtimeFd = some value ∧ ValueDisturbed env fd runtimeFd value

/-- A value that is read belongs to the message, or is one that it inherits where the field is not set. -/
theorem fieldValue_some {typeName : String} {props : List (String × Value)} {fd : DescField} {value : Value}
    (h : fieldValue env typeName props fd = some value) :
    ownValue props fd = some value ∨
      (Unset env typeName props fd ∧ env.inherits typeName fd.localName = some value) := by
  unfold fieldValue at h
  obtain ⟨h, -⟩ := Option.filter_eq_some_iff.mp h
  cases hown : ownValue props fd with
  | some w =>
    rw [hown] at h
    exact .inl h
  | none =>
    rw [hown, Option.none_or] at h
    split_ifs at h with honeof
    have hlook : props.lookup fd.localName = none := by simpa only [ownValue, honeof] using hown
    exact .inr ⟨⟨honeof, hlook, by rw [h]; nofun⟩, h⟩

theorem fieldValue_none {typeName : String} {props : List (String × Value)} {fd runtimeFd : DescField}
    (h : fieldValue env typeName props runtimeFd = none) : ¬FieldDisturbed env typeName props fd runtimeFd := by
  unfold fieldValue at h
  rintro (⟨honeof, hlook, hinh⟩ | ⟨value, hown, hD⟩)
  · obtain ⟨w, hw⟩ := Option.ne_none_iff_exists'.mp hinh
    have hown : ownValue props runtimeFd = none := by simpa only [ownValue, honeof] using hlook
    have hplain := env.plain _ _ _ hw
    rw [hown, Option.none_or, if_pos honeof, hw] at h
    cases w with
    | bool b => cases h
    | scalar t i => cases h
    | _ => cases hplain
  · rw [hown, Option.some_or] at h
    cases value with
    | undefined => exact not_valueDisturbed_nullish (.inl rfl) hD
    | _ => cases h

theorem not_unset_of_own {typeName : String} {props : List (String × Value)} {fd : DescField} {value : Value}
    (h : ownValue props fd = some value) : ¬Unset env typeName props fd := by
  rintro ⟨honeof, hlook, -⟩
  simp only [ownValue, honeof, hlook, reduceCtorEq] at h

theorem lookup_of_own {props : List (String × Value)} {fd : DescField} {value : Value}
    (h : ownValue props fd = some value) :
    (∃ oneof, fd.oneof = some oneof ∧ props.lookup oneof = some (.oneof (some fd.localName) value)) ∨
      (fd.oneof = none ∧ props.lookup fd.localName = some value) := by
  unfold ownValue at h
  split at h
  · rename_i oneof honeof
    split at h
    · rename_i caseName w hlook
      split_ifs at h with hcase
      cases h
      exact .inl ⟨oneof, honeof, by rw [hlook, hcase]⟩
    · cases h
  · exact .inr ⟨‹_›, h⟩

theorem assign_self {props : List (String × Value)} {fd : DescField} {value : Value}
    (h : ownValue props fd = some value) : assign props fd value = props := by
  obtain ⟨oneof, honeof, hlook⟩ | ⟨honeof, hlook⟩ := lookup_of_own h
  · simp only [assign, honeof]
    exact setProp_self hlook
  · simp only [assign, honeof]
    exact setProp_self hlook

theorem grownProps_assign {props : List (String × Value)} {fd : DescField} {value newValue : Value}
    (h : ownValue props fd = some value) (hgrown : Grown value newValue) : GrownProps props
    (assign props fd newValue) := by
  obtain ⟨oneof, honeof, hlook⟩ | ⟨honeof, hlook⟩ := lookup_of_own h
  · simp only [assign, honeof]
    exact grownProps_setProp hlook hgrown
  · simp only [assign, honeof]
    exact grownProps_setProp hlook hgrown

theorem grown_trans {u v r : Value} (h : Grown u v) (h' : Grown v r) : Grown u r := by
  unfold Grown GrownBy at *
  omega

variable (hrule : rule.condition = false)

include hwalk hrule

theorem rises_transformField (fd runtimeFd : DescField) (desc : DescMessage) (typeName : String)
    (props : List (String × Value)) :
    Rises GrownProps (FieldDisturbed env typeName props fd runtimeFd) props
      (transformField env rule identity walk fd runtimeFd desc typeName props) := by
  refine Rises.inField _ ?_
  cases hvalue : fieldValue env typeName props runtimeFd with
  | none => exact Rises.pure (fieldValue_none hvalue)
  | some value =>
    intro s r t hrun
    obtain ⟨newValue, t₁, hnew, hrun⟩ := (bind_eq_ok_iff _ _ s t r).mp hrun
    obtain ⟨back, t₂, hback, hrun⟩ := (bind_eq_ok_iff _ _ t₁ t r).mp hrun
    have hrebuilt : rebuilt env rule runtimeFd newValue = .ok back := by
      cases hb : rebuilt env rule runtimeFd newValue with
      | error e =>
        rw [hb] at hback
        cases hback
      | ok b =>
        rw [hb] at hback
        cases hback
        rfl
    have hr : r = assign props runtimeFd back := by
      simp only [writeBack, hrule, Bool.false_eq_true, if_false] at hrun
      cases hrun
      rfl
    subst hr
    have hrises := rises_transformFieldValue hwalk fd runtimeFd value s newValue t₁ hnew
    obtain hown | ⟨hunset, hinh⟩ := fieldValue_some hvalue
    · obtain ⟨rfl, hD⟩ | hgrown := hrises
      · obtain rfl | hgrown := rebuilt_ok hrebuilt
        · refine .inl ⟨assign_self hown, ?_⟩
          rintro (hunset | ⟨value, hown', hD'⟩)
          · exact not_unset_of_own hown hunset
          · cases hown.symm.trans hown'
            exact hD hD'
        · exact .inr (grownProps_assign hown hgrown)
      · obtain rfl | hgrown' := rebuilt_ok hrebuilt
        · exact .inr (grownProps_assign hown hgrown)
        · exact .inr (grownProps_assign hown (grown_trans hgrown hgrown'))
    · -- nothing is hidden in an inherited value, and so nothing in what is set
      have hplain := hidden_plain (env.plain _ _ _ hinh)
      have hnewValue : hidden newValue = 0 := by
        obtain ⟨rfl, -⟩ | hgrown := hrises
        · exact hplain
        · simp only [Grown, GrownBy] at hgrown
          omega
      have hbackValue : hidden back = 0 := by
        obtain rfl | hgrown := rebuilt_ok hrebuilt
        · exact hnewValue
        · simp only [Grown, GrownBy] at hgrown
          omega
      simp only [assign, hunset.1]
      exact .inr (grownProps_append hunset.2.1 hbackValue)

theorem rises_transformFields (d : DescMessage) (r : Option DescMessage) (typeName : String) (fds : List DescField)
    (props : List (String × Value)) :
    Rises GrownProps (∃ runtimeFd ∈ fds, ∃ fd, schemaFieldFor d r runtimeFd = some fd ∧
        FieldDisturbed env typeName props fd runtimeFd) props
      (transformFields env rule identity walk d r typeName fds props) := by
  induction fds generalizing props with
  | nil => exact Rises.pure (by simp)
  | cons runtimeFd fds ih =>
    unfold transformFields
    split
    · rename_i hnone
      refine (ih props).weaken ?_
      rintro ⟨f, hf, fd, hfd, hD⟩
      cases List.mem_cons.mp hf with
      | inl h =>
        subst h
        cases hnone.symm.trans hfd
      | inr h => exact ⟨f, h, fd, hfd, hD⟩
    · rename_i fd' hfd'
      refine (Rises.bind grownProps_trans (rises_transformField hwalk hrule fd' runtimeFd d typeName props)
        ih).weaken ?_
      rintro ⟨f, hf, fd, hfd, hD⟩
      cases List.mem_cons.mp hf with
      | inl h =>
        subst h
        cases hfd'.symm.trans hfd
        exact .inl hD
      | inr h => exact .inr ⟨f, h, fd, hfd, hD⟩

omit hwalk hrule in
theorem disturbed_message {d : DescMessage} {r : Option DescMessage} {typeName : String}
    {props : List (String × Value)}
    (h : Disturbed env d r (.message typeName props)) :
    isCelLeafMessage typeName = false ∧ ∃ runtimeFd ∈ (r.getD d).fields, ∃ fd,
      schemaFieldFor d r runtimeFd = some fd ∧
      FieldDisturbed env typeName props fd runtimeFd := by
  cases h with
  | unset hleaf hmem hfd h => exact ⟨hleaf, _, hmem, _, hfd, .inl h⟩
  | proto hleaf hmem hfd hvalue h => exact ⟨hleaf, _, hmem, _, hfd, .inr ⟨_, hvalue, .inl h⟩⟩
  | part hleaf hmem hfd hvalue hpart h => exact ⟨hleaf, _, hmem, _, hfd, .inr ⟨_, hvalue, .inr ⟨_, _, hpart, h⟩⟩⟩

omit hwalk in
theorem rises_transform (fuel : Nat) (d : DescMessage) (r : Option DescMessage) (v : Value) :
    Rises Grown (Disturbed env d r v) v (transform env rule identity fuel d r v) := by
  induction fuel generalizing d r v with
  | zero => exact Rises.throw _
  | succ fuel ih =>
    unfold transform
    split
    · exact Rises.pure nofun
    · exact Rises.pure nofun
    · rename_i typeName props
      cases hleaf : isCelLeafMessage typeName with
      | true =>
        rw [if_pos rfl]
        refine rises_transformLeaf (fun hD => ?_) _
        cases hleaf.symm.trans (disturbed_message hD).1
      | false =>
        rw [if_neg nofun]
        intro s v t hrun
        obtain ⟨props', t₁, hprops, hpure⟩ := (bind_eq_ok_iff _ _ s t v).mp hrun
        cases hpure
        obtain ⟨rfl, hD⟩ | hgrown := rises_transformFields ih hrule d r typeName _ props s props' t hprops
        · exact .inl ⟨rfl, fun h => hD (disturbed_message h).2⟩
        · exact .inr hgrown
    · rename_i hmsg
      refine rises_transformLeaf (fun hD => ?_) _
      cases hD with
      | _ => exact hmsg _ _ rfl

end Rise

/-! ## Valid messages -/

def ElemKind.isMessage : ElemKind → Bool
  | .message _ => true
  | _ => false

/-- The value is one for the field of the message and for that of the schema, but for the messages in it. -/
inductive FieldShape (fd runtimeFd : DescField) : Value → Prop where
  | undefined : FieldShape fd runtimeFd .undefined
  | single {e e' : ElemKind} {v : Value} (hkind : fd.kind = .single e) (hkind' : runtimeFd.kind = .single e')
      (hsame : e.isMessage = e'.isMessage) (hplain : e.isMessage = false → v.isPlain = true) :
        FieldShape fd runtimeFd v
  | list {e e' : ElemKind} {elems : List Value} (hkind : fd.kind = .list e) (hkind' : runtimeFd.kind = .list e')
      (hsame : e.isMessage = e'.isMessage) (hplain : e.isMessage = false → ∀ v ∈ elems, v.isPlain = true) :
      FieldShape fd runtimeFd (.list elems)
  | map {e e' : ElemKind} {entries : List (String × Value)} (hkind : fd.kind = .map e)
    (hkind' : runtimeFd.kind = .map e')
      (hsame : e.isMessage = e'.isMessage) (hplain : e.isMessage = false → ∀ entry ∈ entries,
        entry.2.isPlain = true) :
      FieldShape fd runtimeFd (.map entries)

/-- A message of the type of the message, whose fields have values for the schema. Messages of some types,
such as the wrappers of scalars, are unwrapped. -/
inductive Valid (env : Setting) : DescMessage → Option DescMessage → Value → Prop where
  | unwrapped {d : DescMessage} {r : Option DescMessage} {v : Value}
      (hleaf : isCelLeafMessage (r.getD d).typeName = false) (hv : v.isPlain = true) : Valid env d r v
  | message {d : DescMessage} {r : Option DescMessage} {props : List (String × Value)}
      (hshape : ∀ runtimeFd ∈ (r.getD d).fields, ∀ fd, schemaFieldFor d r runtimeFd = some fd →
        ∀ value, ownValue props runtimeFd = some value → FieldShape fd runtimeFd value)
      (hparts : ∀ runtimeFd ∈ (r.getD d).fields, ∀ fd, schemaFieldFor d r runtimeFd = some fd →
        ∀ value, ownValue props runtimeFd = some value → ∀ i w, Part fd value i w →
          Valid env (env.descs i) (messageOf env runtimeFd) w) :
      Valid env d r (.message (r.getD d).typeName props)

mutual

def depth : Value → Nat
  | .list elems => depthElems elems + 1
  | .map entries => depthProps entries + 1
  | .message _ props => depthProps props + 1
  | .oneof _ value => depth value + 1
  | .reflect message => depth message + 1
  | _ => 0

def depthElems : List Value → Nat
  | [] => 0
  | v :: vs => max (depth v) (depthElems vs)

def depthProps : List (String × Value) → Nat
  | [] => 0
  | (_, v) :: ps => max (depth v) (depthProps ps)

end

theorem depth_le_depthElems {vs : List Value} {v : Value} (h : v ∈ vs) : depth v ≤ depthElems vs := by
  induction vs with
  | nil => cases h
  | cons w ws ih =>
    cases List.mem_cons.mp h with
    | inl h =>
      rw [h]
      exact le_max_left _ _
    | inr h => exact le_trans (ih h) (le_max_right _ _)

theorem depth_le_depthProps {ps : List (String × Value)} {name : String} {v : Value} (h : (name, v) ∈ ps) :
    depth v ≤ depthProps ps := by
  induction ps with
  | nil => cases h
  | cons p ps ih =>
    cases List.mem_cons.mp h with
    | inl h =>
      rw [← h]
      exact le_max_left _ _
    | inr h => exact le_trans (ih h) (le_max_right _ _)

theorem depth_of_part {fd runtimeFd : DescField} {typeName : String} {props : List (String × Value)}
    {value w : Value}
    {i : Nat} (hown : ownValue props runtimeFd = some value) (hpart : Part fd value i w) :
    depth w < depth (.message typeName props) := by
  have hvalue : depth value ≤ depthProps props := by
    obtain ⟨oneof, -, hlook⟩ | ⟨-, hlook⟩ := lookup_of_own hown
    · have := depth_le_depthProps (mem_of_lookup hlook)
      simp only [depth] at this
      omega
    · exact depth_le_depthProps (mem_of_lookup hlook)
  have hw : depth w ≤ depth value := by
    cases hpart with
    | single _ => exact le_refl _
    | elem _ hw =>
      have := depth_le_depthElems hw
      simp only [depth]
      omega
    | entry _ hw =>
      have := depth_le_depthProps hw
      simp only [depth]
      omega
  simp only [depth]
  omega

/-! ## A walk of a valid message that is not disturbed returns it -/

section Return

variable {env : Setting} {rule : WalkRule}

theorem returns_transformLeaf (v : Value) : Returns v fun _ => transformLeaf rule identity v := by
  refine Returns.after (fun s => ⟨_, s, rfl⟩) (fun c => ?_) fun _ _ => Orderly.ofExcept _
  have hsame : Walk.applyRule rule identity c v = .ok v := Walk.applyRule_eq_self fun _ => rfl
  rw [hsame]
  exact Returns.pure v

abbrev MessageReturns (env : Setting) (rule : WalkRule) (d : DescMessage) (r : Option DescMessage) (v : Value) :
    Prop :=
  Returns v fun fuel => transform env rule identity fuel d r v

theorem returns_transformElem {r : Option DescMessage} {elem : ElemKind} {v : Value}
    (h : ∀ i, elem = .message i → MessageReturns env rule (env.descs i) r v) :
    Returns v fun fuel => transformElem env rule identity (transform env rule identity fuel) r elem v := by
  cases elem with
  | message i => exact h i rfl
  | _ => exact returns_transformLeaf v

theorem returns_transformFieldValue {fd runtimeFd : DescField} {value : Value} (hproto : ¬HasProto fd value)
    (h : ∀ i w, Part fd value i w → MessageReturns env rule (env.descs i) (messageOf env runtimeFd) w) :
    Returns value fun fuel =>
      transformFieldValue env rule identity (transform env rule identity fuel) fd runtimeFd value := by
  have ho : ∀ fuel elem v, Orderly (transformElem env rule identity (transform env rule identity fuel)
      (messageOf env runtimeFd) elem v) := fun fuel elem => transformElem_orderly (transform_orderly fuel) _ elem
  unfold transformFieldValue
  split
  · exact Returns.pure _
  · exact Returns.pure _
  · split
    · rename_i elem hkind
      refine returns_transformElem fun i hi => h i value (.single ?_)
      rw [hkind, hi]
    · rename_i elem hkind
      split
      · refine Returns.bind (Returns.mapEach (fun fuel v => ho fuel elem v) fun v hv => ?_)
          (Returns.pure _) fun _ _ =>
          Orderly.pure _
        refine returns_transformElem fun i hi => h i v (.elem ?_ hv)
        rw [hkind, hi]
      · exact Returns.pure _
    · rename_i i hkind
      split
      · refine Returns.bind (Returns.mapValues (fun fuel v => transform_orderly fuel _ _ v) fun e he =>
          ?_) ?_ fun _ _ =>
          Orderly.pure _
        · exact h i e.2 (.entry hkind he)
        · rw [plainObject_eq fun w hw => hproto ⟨i, _, w, hkind, rfl, hw⟩]
          exact Returns.pure _
      · exact Returns.pure _
    · exact Returns.pure _

/-- A valid value of a type that is a single value to rules is a message of the type. -/
theorem Valid.rebuildValueType {d : DescMessage} {r : Option DescMessage} {v : Value} (h : Valid env d r v)
    (hleaf : isCelLeafMessage (r.getD d).typeName = true) (fd : DescField) :
    rebuildValueType rule fd (r.getD d).typeName v = .ok v := by
  cases h with
  | unwrapped hleaf' _ => cases hleaf.symm.trans hleaf'
  | message _ _ => simp [Proto.rebuildValueType, unwrap]

theorem mapM_self {α ε : Type} {f : α → Except ε α} {vs : List α} (h : ∀ v ∈ vs, f v = .ok v) :
    vs.mapM f = .ok vs := by
  induction vs with
  | nil => rfl
  | cons v vs ih =>
    rw [List.mapM_cons, h v List.mem_cons_self, ih fun w hw => h w (List.mem_cons_of_mem v hw)]
    rfl

theorem isMessage_of_messageOf {fd : DescField} {desc : DescMessage} (h : messageOf env fd = some desc) :
    fd.kind.elem.isMessage = true := by
  unfold messageOf at h
  split at h
  · rename_i i hi
    rw [hi]
    rfl
  · cases h

theorem eq_message_of_isMessage {e : ElemKind} (h : e.isMessage = true) : ∃ i, e = .message i := by
  cases e with
  | message i => exact ⟨i, rfl⟩
  | _ => cases h

theorem rebuilt_self {fd runtimeFd : DescField} {value : Value} (hshape : FieldShape fd runtimeFd value)
    (hdef : isUndefined value = false)
    (hparts : ∀ i w, Part fd value i w → Valid env (env.descs i) (messageOf env runtimeFd) w) :
    rebuilt env rule runtimeFd value = .ok value := by
  unfold rebuilt
  split
  · rename_i desc hdesc
    split_ifs with hleaf
    · have hmessage := isMessage_of_messageOf hdesc
      have hpart : ∀ i w, Part fd value i w → rebuildValueType rule runtimeFd desc.typeName w = .ok w := by
        intro i w hw
        have hvalid := hparts i w hw
        rw [hdesc] at hvalid
        exact hvalid.rebuildValueType hleaf.2 runtimeFd
      cases hshape with
      | undefined => cases hdef
      | single hkind hkind' hsame _ =>
        rw [hkind'] at hmessage
        obtain ⟨i, rfl⟩ := eq_message_of_isMessage (hsame.trans hmessage)
        simp only [rebuild, hkind']
        exact hpart i value (.single hkind)
      | list hkind hkind' hsame _ =>
        rw [hkind'] at hmessage
        obtain ⟨i, rfl⟩ := eq_message_of_isMessage (hsame.trans hmessage)
        simp only [rebuild, hkind']
        rw [mapM_self fun w hw => hpart i w (.elem hkind hw)]
        rfl
      | @map _ _ entries hkind hkind' hsame _ =>
        rw [hkind'] at hmessage
        obtain ⟨i, rfl⟩ := eq_message_of_isMessage (hsame.trans hmessage)
        have hentry : ∀ e ∈ entries, rebuildEntry rule runtimeFd desc.typeName e = .ok e := by
          intro e he
          unfold rebuildEntry
          rw [hpart i e.2 (.entry hkind he)]
          rfl
        simp only [rebuild, hkind']
        rw [mapM_self hentry]
        rfl
    · rfl
  · rfl

variable (hrule : rule.condition = false)

include hrule

theorem returns_transformField {fd runtimeFd : DescField} (desc : DescMessage) {typeName : String}
    {props : List (String × Value)} (hD : ¬FieldDisturbed env typeName props fd runtimeFd)
    (hshape : ∀ value, ownValue props runtimeFd = some value → FieldShape fd runtimeFd value)
    (hparts : ∀ value, ownValue props runtimeFd = some value → ∀ i w, Part fd value i w →
      Valid env (env.descs i) (messageOf env runtimeFd) w)
    (h : ∀ value, ownValue props runtimeFd = some value → ∀ i w, Part fd value i w →
      MessageReturns env rule (env.descs i) (messageOf env runtimeFd) w) :
    Returns props fun fuel =>
      transformField env rule identity (transform env rule identity fuel) fd runtimeFd desc typeName props := by
  refine Returns.inField _ ?_
  cases hvalue : fieldValue env typeName props runtimeFd with
  | none => exact Returns.pure props
  | some value =>
    obtain hown | ⟨hunset, -⟩ := fieldValue_some hvalue
    · have hdef : isUndefined value = false := by
        have hfilter := (Option.filter_eq_some_iff.mp hvalue).2
        simpa using hfilter
      refine Returns.bind (returns_transformFieldValue (fun hproto => hD (.inr ⟨value, hown, .inl hproto⟩))
        (h value hown)) ?_ fun _ _ => ?_
      · rw [rebuilt_self (hshape value hown) hdef (hparts value hown)]
        have hback : writeBack rule props runtimeFd value = .ok props := by
          simp only [writeBack, hrule, Bool.false_eq_true, if_false, assign_self hown]
        refine Returns.bind (Returns.pure value) ?_ fun _ _ => Orderly.ofExcept _
        rw [hback]
        exact Returns.pure props
      · exact Orderly.bind (Orderly.ofExcept _) fun _ => Orderly.ofExcept _
    · exact (hD (.inl hunset)).elim

omit hrule in
theorem returns_transformFields {d : DescMessage} {r : Option DescMessage} {typeName : String}
    {props : List (String × Value)} {fds : List DescField}
    (h : ∀ runtimeFd ∈ fds, ∀ fd, schemaFieldFor d r runtimeFd = some fd → Returns props fun fuel =>
      transformField env rule identity (transform env rule identity fuel) fd runtimeFd d typeName props) :
    Returns props fun fuel =>
      transformFields env rule identity (transform env rule identity fuel) d r typeName fds props := by
  induction fds with
  | nil => exact Returns.pure props
  | cons runtimeFd fds ih =>
    have hrest := ih fun f hf => h f (List.mem_cons_of_mem runtimeFd hf)
    unfold transformFields
    split
    · exact hrest
    · rename_i fd hfd
      exact Returns.bind (h runtimeFd List.mem_cons_self fd hfd) hrest fun fuel =>
        transformFields_orderly (transform_orderly fuel) d r typeName fds

theorem returns_transform {d : DescMessage} {r : Option DescMessage} {v : Value} (hvalid : Valid env d r v)
    (hD : ¬Disturbed env d r v) : MessageReturns env rule d r v := by
  induction hd : depth v using Nat.strong_induction_on generalizing d r v with
  | _ n ih =>
    refine Returns.of_succ ?_
    simp only [transform]
    cases hvalid with
    | unwrapped _ hv =>
      cases v with
      | bool b => exact returns_transformLeaf _
      | scalar t i => exact returns_transformLeaf _
      | _ => cases hv
    | message hshape hparts =>
      rename_i props
      cases hleaf : isCelLeafMessage (r.getD d).typeName with
      | true =>
        simp only [hleaf, if_true]
        exact returns_transformLeaf _
      | false =>
        simp only [hleaf, Bool.false_eq_true, if_false]
        refine Returns.bind (returns_transformFields fun runtimeFd hmem fd hfd => ?_) (Returns.pure _) fun _ _ =>
          Orderly.pure _
        refine returns_transformField hrule d ?_ (hshape runtimeFd hmem fd hfd) (hparts runtimeFd hmem fd hfd) ?_
        · rintro (hunset | ⟨value, hown, hproto | ⟨i, w, hpart, hw⟩⟩)
          · exact hD (.unset hleaf hmem hfd hunset)
          · exact hD (.proto hleaf hmem hfd hown hproto)
          · exact hD (.part hleaf hmem hfd hown hpart hw)
        · intro value hown i w hpart
          refine ih (depth w) (hd ▸ depth_of_part hown hpart)
            (hparts runtimeFd hmem fd hfd value hown i w hpart) ?_ rfl
          exact fun hw => hD (.part hleaf hmem hfd hown hpart hw)

/-- The walk of a valid message with the identity returns it, and leaves every field, if and only if it is not
disturbed. -/
theorem transform_identity_iff {d : DescMessage} {r : Option DescMessage} {v : Value} (hvalid : Valid env d r v) :
    (∃ n, ∀ fuel ≥ n, ∃ notes, transform env rule identity fuel d r v ⟨[], []⟩ = .ok v ⟨[], notes⟩) ↔
      ¬Disturbed env d r v := by
  constructor
  · rintro ⟨n, hrun⟩ hD
    obtain ⟨notes, hrun⟩ := hrun n (le_refl n)
    obtain ⟨-, hnot⟩ | hgrown := rises_transform hrule n d r v _ v _ hrun
    · exact hnot hD
    · simp only [Grown, GrownBy, lt_self_iff_false, and_false, or_self] at hgrown
  · intro hD
    exact (returns_transform hrule hvalid hD).outside fun fuel => transform_orderly fuel d r v

end Return

end Proto

end ConfluentKafka
