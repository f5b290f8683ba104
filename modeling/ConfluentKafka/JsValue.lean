import Mathlib.Data.Rat.Defs
import Mathlib.Algebra.GroupWithZero.Nat

/-!
# Values of the language

What `JSON.parse` makes, and the functions that values inherit, without their own properties. An
object is the list of its properties. A path leads to a place in a value, and `modify` changes the
text there; two such changes with one function can be swapped.
-/

namespace ConfluentKafka

inductive JsValue where
  | undefined
  | null
  | bool (b : Bool)
  | number (n : ℚ)
  | string (s : List Char)
  | builtin
  | array (elems : List JsValue)
  | object (props : List (String × JsValue))

theorem JsValue.induct {P : JsValue → Prop} (undefined : P .undefined) (null : P .null) (bool : ∀ b, P (.bool b))
    (number : ∀ n, P (.number n)) (string : ∀ s, P (.string s)) (builtin : P .builtin)
    (array : ∀ elems, (∀ v ∈ elems, P v) → P (.array elems))
    (object : ∀ props, (∀ p ∈ props, P p.2) → P (.object props)) : ∀ v, P v
  | .undefined => undefined
  | .null => null
  | .bool b => bool b
  | .number n => number n
  | .string s => string s
  | .builtin => builtin
  | .array elems => array elems fun v _ => JsValue.induct undefined null bool number string builtin array object v
  | .object props => object props fun p hp =>
    have : sizeOf p.2 < 1 + sizeOf props := by
      have hmem := List.sizeOf_lt_of_mem hp
      obtain ⟨k, v⟩ := p
      simp only [Prod.mk.sizeOf_spec] at hmem ⊢
      omega
    JsValue.induct undefined null bool number string builtin array object p.2
  termination_by v => sizeOf v

/-! ## Properties -/

section Props

variable {α : Type}

def updateProp (name : String) (f : α → α) : List (String × α) → List (String × α)
  | [] => []
  | p :: ps => if p.1 = name then (p.1, f p.2) :: ps else p :: updateProp name f ps

theorem lookup_updateProp (name : String) (f : α → α) (ps : List (String × α)) (name' : String) :
    (updateProp name f ps).lookup name' = if name' = name then (ps.lookup name').map f else ps.lookup name' := by
  induction ps with
  | nil => simp [updateProp]
  | cons p ps ih =>
    obtain ⟨k, v⟩ := p
    by_cases hk : k = name
    · subst hk
      simp only [updateProp, if_pos]
      by_cases hn : name' = k
      · simp [hn]
      · simp [hn, List.lookup_cons, beq_eq_false_iff_ne.mpr hn]
    · simp only [updateProp, if_neg hk]
      by_cases hn : name' = k
      · subst hn
        simp [hk]
      · simp only [List.lookup_cons, beq_eq_false_iff_ne.mpr hn, ih]

theorem updateProp_id (name : String) (ps : List (String × α)) : updateProp name id ps = ps := by
  induction ps with
  | nil => rfl
  | cons p ps ih =>
    unfold updateProp
    split
    · rfl
    · rw [ih]

theorem updateProp_updateProp (name : String) (f g : α → α) (ps : List (String × α)) :
    updateProp name f (updateProp name g ps) = updateProp name (f ∘ g) ps := by
  induction ps with
  | nil => rfl
  | cons p ps ih =>
    by_cases hp : p.1 = name
    · simp [updateProp, hp]
    · simp [updateProp, hp, ih]

theorem updateProp_comm {name name' : String} (h : name ≠ name') (f g : α → α) (ps : List (String × α)) :
    updateProp name f (updateProp name' g ps) = updateProp name' g (updateProp name f ps) := by
  induction ps with
  | nil => rfl
  | cons p ps ih =>
    by_cases hp : p.1 = name
    · have hp' : p.1 ≠ name' := fun e => h (hp.symm.trans e)
      simp [updateProp, hp, h]
    · by_cases hp' : p.1 = name'
      · simp [updateProp, hp', Ne.symm h]
      · simp [updateProp, hp, hp', ih]

theorem updateProp_congr {name : String} {f g : α → α} {ps : List (String × α)}
    (h : ∀ v, ps.lookup name = some v → f v = g v) : updateProp name f ps = updateProp name g ps := by
  induction ps with
  | nil => rfl
  | cons p ps ih =>
    by_cases hp : p.1 = name
    · subst hp
      obtain ⟨k, v⟩ := p
      simp [updateProp, h v (by simp)]
    · simp only [updateProp, if_neg hp]
      rw [ih fun v hv => h v (by rw [List.lookup_cons, beq_eq_false_iff_ne.mpr (Ne.symm hp)]; exact hv)]

theorem updateProp_self {name : String} {v : α} {ps : List (String × α)} (h : ps.lookup name = some v) :
    updateProp name (fun _ => v) ps = ps := by
  have hcongr : updateProp name (fun _ => v) ps = updateProp name id ps := by
    refine updateProp_congr fun w hw => ?_
    rw [h] at hw
    cases hw
    rfl
  rw [hcongr, updateProp_id]

theorem mem_of_lookup {name : String} {v : α} {ps : List (String × α)} (h : ps.lookup name = some v) :
    (name, v) ∈ ps := by
  induction ps with
  | nil => cases h
  | cons p ps ih =>
    rw [List.lookup_cons] at h
    cases hp : name == p.1 with
    | true =>
      rw [hp] at h
      cases h
      rw [beq_iff_eq.mp hp]
      exact List.mem_cons_self
    | false =>
      rw [hp] at h
      exact List.mem_cons_of_mem p (ih h)

theorem sum_updateProp (f : String × α → Nat) {name : String} {v : α} (r : α) {ps : List (String × α)}
    (h : ps.lookup name = some v) :
    ((updateProp name (fun _ => r) ps).map f).sum + f (name, v) = (ps.map f).sum + f (name, r) := by
  induction ps with
  | nil => cases h
  | cons p ps ih =>
    obtain ⟨k, w⟩ := p
    by_cases hk : k = name
    · subst hk
      simp only [List.lookup_cons, beq_self_eq_true, Option.some.injEq] at h
      subst h
      simp only [updateProp, if_true, List.map_cons, List.sum_cons]
      omega
    · have hk' : (name == k) = false := beq_eq_false_iff_ne.mpr (Ne.symm hk)
      simp only [List.lookup_cons, hk'] at h
      have := ih h
      simp only [updateProp, if_neg hk, List.map_cons, List.sum_cons]
      omega

end Props

/-! ## Places -/

inductive Step where
  | key (name : String)
  | index (i : Nat)
  deriving DecidableEq

namespace JsValue

def modify (f : List Char → List Char) : List Step → JsValue → JsValue
  | [], .string s => .string (f s)
  | [], v => v
  | .key name :: path, .object props => .object (updateProp name (modify f path) props)
  | .key _ :: _, v => v
  | .index i :: path, .array elems => .array (elems.modify i (modify f path))
  | .index _ :: _, v => v

/-- Changes the texts at the places, one after the other, each in the way of its index. -/
def modifyAll {ι : Type} (f : ι → List Char → List Char) (hits : List (ι × List Step)) (v : JsValue) : JsValue :=
  hits.foldl (fun v hit => v.modify (f hit.1) hit.2) v

theorem modify_comm {f g : List Char → List Char} (h : ∀ s, f (g s) = g (f s)) (p q : List Step) (v : JsValue) :
    (v.modify g q).modify f p = (v.modify f p).modify g q := by
  induction p generalizing q v with
  | nil =>
    cases v with
    | string s =>
      cases q with
      | nil => simp only [modify, h]
      | cons step q => cases step <;> rfl
    | _ =>
      cases q with
      | nil => rfl
      | cons step q => cases step <;> rfl
  | cons step p ih =>
    cases q with
    | nil =>
      cases v with
      | _ => cases step <;> rfl
    | cons step' q =>
      cases step with
      | key name =>
        cases step' with
        | index i => cases v <;> rfl
        | key name' =>
          cases v with
          | object props =>
            simp only [modify]
            by_cases hn : name = name'
            · subst hn
              rw [updateProp_updateProp, updateProp_updateProp]
              congr 2
              funext v
              exact ih q v
            · rw [updateProp_comm hn]
          | _ => rfl
      | index i =>
        cases step' with
        | key name => cases v <;> rfl
        | index j =>
          cases v with
          | array elems =>
            simp only [modify]
            by_cases hij : i = j
            · subst hij
              rw [List.modify_modify_eq, List.modify_modify_eq]
              congr 2
              funext v
              exact ih q v
            · rw [List.modify_modify_ne _ _ _ hij]
          | _ => rfl

theorem modify_modify {f g : List Char → List Char} (h : ∀ s, g (f s) = s) (p : List Step) (v : JsValue) :
    (v.modify f p).modify g p = v := by
  induction p generalizing v with
  | nil =>
    cases v with
    | string s => simp only [modify, h]
    | _ => rfl
  | cons step p ih =>
    have hid : modify g p ∘ modify f p = id := funext ih
    cases step with
    | key name =>
      cases v with
      | object props => simp only [modify, updateProp_updateProp, hid, updateProp_id]
      | _ => rfl
    | index i =>
      cases v with
      | array elems => simp only [modify, List.modify_modify_eq, hid, List.modify_id]
      | _ => rfl

section Hits

variable {ι : Type} {f g : ι → List Char → List Char}

theorem modify_modifyAll (h : ∀ i j s, f i (f j s) = f j (f i s)) (i : ι) (p : List Step)
    (hits : List (ι × List Step)) (v : JsValue) :
    (v.modify (f i) p).modifyAll f hits = (v.modifyAll f hits).modify (f i) p := by
  induction hits generalizing v with
  | nil => rfl
  | cons hit hits ih =>
    show ((v.modify (f i) p).modify (f hit.1) hit.2).modifyAll f hits = _
    rw [modify_comm (h hit.1 i), ih]
    rfl

/-- What is changed at some places, as often as they are listed, is changed back there in the same order. -/
theorem modifyAll_modifyAll (hinv : ∀ i s, g i (f i s) = s) (hcomm : ∀ i j s, f i (f j s) = f j (f i s))
    (hits : List (ι × List Step)) (v : JsValue) : (v.modifyAll f hits).modifyAll g hits = v := by
  induction hits generalizing v with
  | nil => rfl
  | cons hit hits ih =>
    show (((v.modify (f hit.1) hit.2).modifyAll f hits).modify (g hit.1) hit.2).modifyAll g hits = v
    rw [modify_modifyAll hcomm, modify_modify (hinv hit.1), ih]

theorem modifyAll_append (f : ι → List Char → List Char) (hits hits' : List (ι × List Step)) (v : JsValue) :
    v.modifyAll f (hits ++ hits') = (v.modifyAll f hits).modifyAll f hits' := List.foldl_append

end Hits

/-! ## Values that differ in their texts only -/

mutual

def blank : JsValue → JsValue
  | .string _ => .string []
  | .array elems => .array (blankElems elems)
  | .object props => .object (blankProps props)
  | v => v

def blankElems : List JsValue → List JsValue
  | [] => []
  | v :: vs => v.blank :: blankElems vs

def blankProps : List (String × JsValue) → List (String × JsValue)
  | [] => []
  | (name, v) :: ps => (name, v.blank) :: blankProps ps

end

theorem blankElems_eq (vs : List JsValue) : blankElems vs = vs.map blank := by
  induction vs with
  | nil => rfl
  | cons v vs ih => simp only [blankElems, List.map_cons, ih]

theorem blankProps_eq (ps : List (String × JsValue)) : blankProps ps = ps.map fun p => (p.1, p.2.blank) := by
  induction ps with
  | nil => rfl
  | cons p ps ih => simp only [blankProps, List.map_cons, ih]

def Alike (v v' : JsValue) : Prop := v.blank = v'.blank

theorem blank_modify (f : List Char → List Char) (p : List Step) (v : JsValue) :
    (v.modify f p).blank = v.blank := by
  induction p generalizing v with
  | nil => cases v <;> rfl
  | cons step p ih =>
    cases step with
    | key name =>
      cases v with
      | object props =>
        simp only [modify, blank, blankProps_eq]
        congr 1
        induction props with
        | nil => rfl
        | cons q props ihp =>
          unfold updateProp
          split
          · simp only [List.map_cons, ih]
          · simp only [List.map_cons, ihp]
      | _ => rfl
    | index i =>
      cases v with
      | array elems =>
        simp only [modify, blank, blankElems_eq]
        congr 1
        refine List.ext_getElem? fun j => ?_
        rw [List.getElem?_map, List.getElem?_modify, List.getElem?_map]
        cases elems[j]? with
        | none => rfl
        | some v =>
          by_cases hij : i = j
          · simp [hij, ih]
          · simp [hij]
      | _ => rfl

theorem alike_modifyAll {ι : Type} (f : ι → List Char → List Char) (hits : List (ι × List Step)) (v : JsValue) :
    Alike (v.modifyAll f hits) v := by
  induction hits generalizing v with
  | nil => rfl
  | cons hit hits ih => exact (ih (v.modify (f hit.1) hit.2)).trans (blank_modify (f hit.1) hit.2 v)

theorem Alike.modifyAll {ι : Type} {v v' : JsValue} (h : Alike v v') (f g : ι → List Char → List Char)
    (hits : List (ι × List Step)) : Alike (v.modifyAll f hits) (v'.modifyAll g hits) :=
  (alike_modifyAll f hits v).trans (h.trans (alike_modifyAll g hits v').symm)

theorem Alike.array {elems : List JsValue} {v' : JsValue} (h : Alike (.array elems) v') :
    ∃ elems', v' = .array elems' ∧ elems.map blank = elems'.map blank := by
  cases v' with
  | array elems' =>
    refine ⟨elems', rfl, ?_⟩
    simpa only [Alike, blank, blankElems_eq, JsValue.array.injEq] using h
  | _ => simp only [Alike, blank, reduceCtorEq] at h

theorem Alike.object {props : List (String × JsValue)} {v' : JsValue} (h : Alike (.object props) v') :
    ∃ props', v' = .object props' ∧ (props.map fun p => (p.1, p.2.blank)) = props'.map fun p =>
      (p.1, p.2.blank) := by
  cases v' with
  | object props' =>
    refine ⟨props', rfl, ?_⟩
    simpa only [Alike, blank, blankProps_eq, JsValue.object.injEq] using h
  | _ => simp only [Alike, blank, reduceCtorEq] at h

theorem Alike.cases {v v' : JsValue} (h : Alike v v') :
    v = v' ∨ (∃ s s', v = .string s ∧ v' = .string s') ∨
      (∃ elems elems', v = .array elems ∧ v' = .array elems' ∧ elems.map blank = elems'.map blank) ∨
      ∃ props props', v = .object props ∧ v' = .object props' ∧
        (props.map fun p => (p.1, p.2.blank)) = props'.map fun p => (p.1, p.2.blank) := by
  cases v with
  | array elems =>
    obtain ⟨elems', rfl, helems⟩ := h.array
    exact .inr (.inr (.inl ⟨elems, elems', rfl, rfl, helems⟩))
  | object props =>
    obtain ⟨props', rfl, hprops⟩ := h.object
    exact .inr (.inr (.inr ⟨props, props', rfl, rfl, hprops⟩))
  | string s =>
    cases v' with
    | string s' => exact .inr (.inl ⟨s, s', rfl, rfl⟩)
    | _ => simp only [Alike, blank, reduceCtorEq] at h
  | _ =>
    left
    cases v' with
    | _ => first | exact h | simp only [Alike, blank, reduceCtorEq] at h

theorem lookup_blank {props props' : List (String × JsValue)}
    (h : (props.map fun p => (p.1, p.2.blank)) = props'.map fun p => (p.1, p.2.blank)) (name : String) :
    (props.lookup name).map blank = (props'.lookup name).map blank := by
  have hmap : ∀ ps : List (String × JsValue), (ps.map fun p => (p.1, p.2.blank)).lookup name =
      (ps.lookup name).map blank := by
    intro ps
    induction ps with
    | nil => rfl
    | cons p ps ih =>
      obtain ⟨k, v⟩ := p
      simp only [List.map_cons, List.lookup_cons, ih]
      cases name == k with
      | true => rfl
      | false => rfl
  rw [← hmap, h, hmap]

/-! ## The depth of a value -/

mutual

/-- A function has no parts, and a container is deeper than its parts and than its length. -/
def depth : JsValue → Nat
  | .array elems => depthElems elems + 2
  | .object props => depthProps props + 2
  | .string _ => 1
  | .bool _ => 1
  | .number _ => 1
  | _ => 0

def depthElems : List JsValue → Nat
  | [] => 0
  | v :: vs => max v.depth (depthElems vs)

def depthProps : List (String × JsValue) → Nat
  | [] => 0
  | (_, v) :: ps => max v.depth (depthProps ps)

end

theorem depth_le_depthElems {elems : List JsValue} {v : JsValue} (h : v ∈ elems) : v.depth ≤ depthElems elems := by
  induction elems with
  | nil => cases h
  | cons w ws ih =>
    cases List.mem_cons.mp h with
    | inl h =>
      rw [h]
      exact le_max_left _ _
    | inr h => exact le_trans (ih h) (le_max_right _ _)

theorem depth_le_depthProps {props : List (String × JsValue)} {name : String} {v : JsValue}
    (h : props.lookup name = some v) : v.depth ≤ depthProps props := by
  induction props with
  | nil => cases h
  | cons p ps ih =>
    obtain ⟨k, w⟩ := p
    rw [List.lookup_cons] at h
    cases hk : name == k with
    | true =>
      rw [hk] at h
      cases h
      exact le_max_left _ _
    | false =>
      rw [hk] at h
      exact le_trans (ih h) (le_max_right _ _)

theorem depth_blank (v : JsValue) : v.blank.depth = v.depth := by
  induction v using JsValue.induct with
  | array elems ih =>
    simp only [blank, depth, blankElems_eq]
    congr 1
    induction elems with
    | nil => rfl
    | cons v vs ihs =>
      simp only [List.map_cons, depthElems]
      rw [ih v List.mem_cons_self, ihs fun w hw => ih w (List.mem_cons_of_mem v hw)]
  | object props ih =>
    simp only [blank, depth, blankProps_eq]
    congr 1
    induction props with
    | nil => rfl
    | cons p ps ihs =>
      simp only [List.map_cons, depthProps]
      rw [ih p List.mem_cons_self, ihs fun q hq => ih q (List.mem_cons_of_mem p hq)]
  | _ => rfl

theorem Alike.depth {v v' : JsValue} (h : Alike v v') : v.depth = v'.depth := by
  rw [← depth_blank v, ← depth_blank v', h]

/-! ## Changes within a part -/

section Parts

variable {ι : Type} (f : ι → List Char → List Char)

def within (step : Step) (hits : List (ι × List Step)) : List (ι × List Step) :=
  hits.map fun hit => (hit.1, step :: hit.2)

theorem modifyAll_key (name : String) (hits : List (ι × List Step)) (props : List (String × JsValue)) :
    (JsValue.object props).modifyAll f (within (.key name) hits) =
      .object (updateProp name (fun v => v.modifyAll f hits) props) := by
  induction hits generalizing props with
  | nil => exact congrArg JsValue.object (updateProp_id name props).symm
  | cons hit hits ih =>
    show (JsValue.object (updateProp name (modify (f hit.1) hit.2) props)).modifyAll f (within (.key name) hits) = _
    rw [ih, updateProp_updateProp]
    rfl

theorem modifyAll_index (i : Nat) (hits : List (ι × List Step)) (elems : List JsValue) :
    (JsValue.array elems).modifyAll f (within (.index i) hits) =
      .array (elems.modify i fun v => v.modifyAll f hits) := by
  induction hits generalizing elems with
  | nil => exact congrArg JsValue.array (List.modify_id i elems).symm
  | cons hit hits ih =>
    show (JsValue.array (elems.modify i (modify (f hit.1) hit.2))).modifyAll f (within (.index i) hits) = _
    rw [ih, List.modify_modify_eq]
    rfl

def Step.shift : List Step → List Step
  | .index i :: path => .index (i + 1) :: path
  | path => path

theorem modify_shift (f : List Char → List Char) (path : List Step) (v : JsValue) (elems : List JsValue) :
    ∃ elems', (JsValue.array elems).modify f path = .array elems' ∧
      (JsValue.array (v :: elems)).modify f (Step.shift path) = .array (v :: elems') := by
  cases path with
  | nil => exact ⟨elems, rfl, rfl⟩
  | cons step path =>
    cases step with
    | key name => exact ⟨elems, rfl, rfl⟩
    | index i => exact ⟨elems.modify i (modify f path), rfl, rfl⟩

theorem modifyAll_shift (hits : List (ι × List Step)) (v : JsValue) {elems elems' : List JsValue}
    (h : (JsValue.array elems).modifyAll f hits = .array elems') :
    (JsValue.array (v :: elems)).modifyAll f (hits.map fun hit => (hit.1, Step.shift hit.2)) = .array
    (v :: elems') := by
  induction hits generalizing elems with
  | nil =>
    cases h
    rfl
  | cons hit hits ih =>
    obtain ⟨next, hnext, hshift⟩ := modify_shift (f hit.1) hit.2 v elems
    show (((JsValue.array (v :: elems)).modify (f hit.1) (Step.shift hit.2)).modifyAll f _) = _
    rw [hshift]
    refine ih ?_
    rw [← hnext]
    exact h

end Parts

end JsValue

end ConfluentKafka
