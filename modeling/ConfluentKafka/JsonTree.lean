import ConfluentKafka.Utf16
import Mathlib.Algebra.GroupWithZero.Nat
import Mathlib.Data.List.Sort
import Mathlib.Data.List.Perm.Basic

/-!
# JSON values

Trees of JSON, over the type of their numbers. A text may name a key of an object more than once: the
object that is made of it keeps the last value, in the place of the first, and its keys that are array
indices come before the others, in ascending order.
-/

namespace ConfluentKafka

inductive JsonTree (ν : Type) where
  | null
  | boolean (b : Bool)
  | number (x : ν)
  | string (s : JsString)
  | array (elements : List (JsonTree ν))
  | object (fields : List (JsString × JsonTree ν))

namespace JsonTree

variable {ν μ ξ : Type}

@[elab_as_elim]
theorem induct_mem {P : JsonTree ν → Prop} (null : P .null) (boolean : ∀ b, P (.boolean b))
    (number : ∀ x, P (.number x))
    (string : ∀ s, P (.string s)) (array : ∀ ts : List (JsonTree ν), (∀ t ∈ ts, P t) → P (.array ts))
    (object : ∀ fs : List (JsString × JsonTree ν), (∀ f ∈ fs, P f.2) → P (.object fs)) : ∀ t, P t
  | .null => null
  | .boolean b => boolean b
  | .number x => number x
  | .string s => string s
  | .array ts => array ts fun t _ => induct_mem null boolean number string array object t
  | .object fs => object fs fun f _ => induct_mem null boolean number string array object f.2
termination_by t => sizeOf t
decreasing_by
  · next ht =>
    have := List.sizeOf_lt_of_mem ht
    rw [JsonTree.array.sizeOf_spec]
    omega
  · next hf =>
    have hlt := List.sizeOf_lt_of_mem hf
    obtain ⟨key, t⟩ := f
    rw [Prod.mk.sizeOf_spec] at hlt
    rw [JsonTree.object.sizeOf_spec]
    dsimp only
    omega

/-! ## Trees for numbers -/

mutual

def bind (f : ν → JsonTree μ) : JsonTree ν → JsonTree μ
  | .null => .null
  | .boolean b => .boolean b
  | .number x => f x
  | .string s => .string s
  | .array ts => .array (bindElements f ts)
  | .object fs => .object (bindFields f fs)

def bindElements (f : ν → JsonTree μ) : List (JsonTree ν) → List (JsonTree μ)
  | [] => []
  | t :: ts => t.bind f :: bindElements f ts

def bindFields (f : ν → JsonTree μ) : List (JsString × JsonTree ν) → List (JsString × JsonTree μ)
  | [] => []
  | (key, t) :: fs => (key, t.bind f) :: bindFields f fs

end

theorem bindElements_eq (f : ν → JsonTree μ) (ts : List (JsonTree ν)) : bindElements f ts = ts.map (bind f) := by
  induction ts with
  | nil => rfl
  | cons t ts ih => rw [bindElements, ih, List.map_cons]

theorem bindFields_eq (f : ν → JsonTree μ) (fs : List (JsString × JsonTree ν)) :
    bindFields f fs = fs.map fun p => (p.1, p.2.bind f) := by
  induction fs with
  | nil => rfl
  | cons p fs ih => rw [bindFields, ih, List.map_cons]

theorem bind_bind (f : ν → JsonTree μ) (g : μ → JsonTree ξ) (t : JsonTree ν) :
    (t.bind f).bind g = t.bind fun x => (f x).bind g := by
  induction t using induct_mem with
  | null => simp only [bind]
  | boolean b => simp only [bind]
  | number x => simp only [bind]
  | string s => simp only [bind]
  | array ts ih =>
    simp only [bind, bindElements_eq, List.map_map]
    exact congrArg array (List.map_congr_left ih)
  | object fs ih =>
    simp only [bind, bindFields_eq, List.map_map]
    refine congrArg object (List.map_congr_left fun p hp => ?_)
    exact congrArg (Prod.mk p.1) (ih p hp)

mutual

def weight (w : ν → Nat) : JsonTree ν → Nat
  | .number x => w x
  | .array ts => weightElements w ts
  | .object fs => weightFields w fs
  | _ => 0

def weightElements (w : ν → Nat) : List (JsonTree ν) → Nat
  | [] => 0
  | t :: ts => t.weight w + weightElements w ts

def weightFields (w : ν → Nat) : List (JsString × JsonTree ν) → Nat
  | [] => 0
  | (_, t) :: fs => t.weight w + weightFields w fs

end

theorem weightElements_eq (w : ν → Nat) (ts : List (JsonTree ν)) :
    weightElements w ts = (ts.map (weight w)).sum := by
  induction ts with
  | nil => rfl
  | cons t ts ih => rw [weightElements, ih, List.map_cons, List.sum_cons]

theorem weightFields_eq (w : ν → Nat) (fs : List (JsString × JsonTree ν)) :
    weightFields w fs = (fs.map fun p => p.2.weight w).sum := by
  induction fs with
  | nil => rfl
  | cons p fs ih => rw [weightFields, ih, List.map_cons, List.sum_cons]

theorem bind_of_weight {f : ν → JsonTree ν} {w : ν → Nat} (hf : ∀ x, w x = 0 → f x = .number x) {t : JsonTree ν}
    (h : t.weight w = 0) : t.bind f = t := by
  induction t using induct_mem with
  | null => rw [bind]
  | boolean b => rw [bind]
  | number x => rw [bind, hf x h]
  | string s => rw [bind]
  | array ts ih =>
    rw [weight, weightElements_eq, List.sum_eq_zero_iff_forall_eq_nat] at h
    rw [bind, bindElements_eq]
    refine congrArg array ((List.map_congr_left fun t ht => ?_).trans (List.map_id' ts))
    exact ih t ht (h _ (List.mem_map_of_mem ht))
  | object fs ih =>
    rw [weight, weightFields_eq, List.sum_eq_zero_iff_forall_eq_nat] at h
    rw [bind, bindFields_eq]
    refine congrArg object ((List.map_congr_left fun p hp => ?_).trans (List.map_id' fs))
    exact congrArg (Prod.mk p.1) (ih p hp (h _ (List.mem_map_of_mem hp)))

/-! ## Properties -/

/-- The number that a key is the decimal text of, without leading zeros, if that is an array index. -/
def arrayIndex? (key : JsString) : Option Nat :=
  let n := key.foldl (fun n c => n * 10 + (c.toNat - 48)) 0
  if key ≠ [] ∧ (key.all fun c => 48 ≤ c.toNat ∧ c.toNat ≤ 57) ∧ (key.head? = some 48 → key = [48]) ∧
    n < 2 ^ 32 - 1 then
    some n
  else none

section

variable {α β : Type}

def setProperty (fs : List (JsString × α)) (key : JsString) (x : α) : List (JsString × α) :=
  if key ∈ fs.map Prod.fst then fs.map fun p => if p.1 = key then (key, x) else p
  else fs ++ [(key, x)]

def properties (fs : List (JsString × α)) : List (JsString × α) := fs.foldl (fun ps p => setProperty ps p.1 p.2) []

def indexLe (p q : JsString × α) : Prop := (arrayIndex? p.1).getD 0 ≤ (arrayIndex? q.1).getD 0

instance : DecidableRel (indexLe (α := α)) := fun _ _ => inferInstanceAs (Decidable (_ ≤ _))

def entries (ps : List (JsString × α)) : List (JsString × α) :=
  (ps.filter fun p => (arrayIndex? p.1).isSome).insertionSort indexLe ++ ps.filter fun p =>
    !(arrayIndex? p.1).isSome

def onValue (f : α → β) (p : JsString × α) : JsString × β := (p.1, f p.2)

variable (f : α → β)

theorem map_setProperty (fs : List (JsString × α)) (key : JsString) (x : α) :
    (setProperty fs key x).map (onValue f) = setProperty (fs.map (onValue f)) key (f x) := by
  have hkeys : (fs.map (onValue f)).map Prod.fst = fs.map Prod.fst := by
    rw [List.map_map]
    rfl
  unfold setProperty
  rw [hkeys]
  by_cases hk : key ∈ fs.map Prod.fst
  · rw [if_pos hk, if_pos hk, List.map_map, List.map_map]
    refine List.map_congr_left fun p _ => ?_
    show onValue f (if p.1 = key then (key, x) else p) = if p.1 = key then (key, f x) else onValue f p
    by_cases hp : p.1 = key
    · rw [if_pos hp, if_pos hp]
      rfl
    · rw [if_neg hp, if_neg hp]
  · rw [if_neg hk, if_neg hk, List.map_append]
    rfl

theorem map_properties (fs : List (JsString × α)) : (properties fs).map (onValue f) = properties
    (fs.map (onValue f)) := by
  have hfold : ∀ (fs : List (JsString × α)) (ps : List (JsString × α)),
      (fs.foldl (fun ps p => setProperty ps p.1 p.2) ps).map (onValue f) =
        (fs.map (onValue f)).foldl (fun ps p => setProperty ps p.1 p.2) (ps.map (onValue f)) := by
    intro fs
    induction fs with
    | nil => exact fun ps => rfl
    | cons p fs ih =>
      intro ps
      rw [List.foldl_cons, ih, map_setProperty, List.map_cons, List.foldl_cons]
      rfl
  exact hfold fs []

theorem map_entries (ps : List (JsString × α)) : (entries ps).map (onValue f) = entries (ps.map (onValue f)) := by
  unfold entries
  rw [List.map_append, List.map_insertionSort indexLe indexLe (onValue f) _ fun _ _ _ _ => Iff.rfl, List.filter_map,
    List.filter_map]
  rfl

theorem entries_perm (ps : List (JsString × α)) : (entries ps).Perm ps :=
  ((List.perm_insertionSort indexLe _).append_right _).trans (List.filter_append_perm _ _)

theorem properties_of_nodup {fs : List (JsString × α)} (h : (fs.map Prod.fst).Nodup) : properties fs = fs := by
  have hfold : ∀ (fs ps : List (JsString × α)), ((ps ++ fs).map Prod.fst).Nodup →
      fs.foldl (fun ps p => setProperty ps p.1 p.2) ps = ps ++ fs := by
    intro fs
    induction fs with
    | nil => exact fun ps _ => (List.append_nil ps).symm
    | cons p fs ih =>
      intro ps hnodup
      have hnew : p.1 ∉ ps.map Prod.fst := by
        intro hmem
        rw [List.map_append, List.map_cons, List.nodup_append] at hnodup
        exact hnodup.2.2 _ hmem _ List.mem_cons_self rfl
      have hset : setProperty ps p.1 p.2 = ps ++ [p] := by
        rw [setProperty, if_neg hnew]
      rw [List.foldl_cons, hset, ih, List.append_assoc, List.singleton_append]
      rw [List.append_assoc, List.singleton_append]
      exact hnodup
  exact hfold fs [] h

def InEntryOrder (fs : List (JsString × α)) : Prop :=
  fs.Pairwise fun p q => (arrayIndex? q.1).isSome → (arrayIndex? p.1).isSome ∧ indexLe p q

instance : Std.Total (indexLe (α := α)) := ⟨fun _ _ => Nat.le_total _ _⟩

instance : IsTrans (JsString × α) indexLe := ⟨fun _ _ _ => Nat.le_trans⟩

theorem inEntryOrder_entries (ps : List (JsString × α)) : InEntryOrder (entries ps) := by
  rw [InEntryOrder, entries, List.pairwise_append]
  refine ⟨?_, ?_, ?_⟩
  · refine (List.pairwise_insertionSort indexLe _).imp_of_mem fun {p q} hp _ hle _ => ⟨?_, hle⟩
    rw [List.mem_insertionSort] at hp
    exact (List.mem_filter.mp hp).2
  · refine List.pairwise_of_forall_mem_list fun p _ q hq hindex => ?_
    have hnone := (List.mem_filter.mp hq).2
    simp [hindex] at hnone
  · intro p _ q hq hindex
    have hnone := (List.mem_filter.mp hq).2
    simp [hindex] at hnone

theorem filter_append_filter_not {f : α → Bool} {xs : List α} (h : xs.Pairwise fun a b => f b = true → f a = true) :
    xs.filter f ++ xs.filter (fun a => !f a) = xs := by
  induction xs with
  | nil => rfl
  | cons a xs ih =>
    obtain ⟨hfirst, hrest⟩ := List.pairwise_cons.mp h
    by_cases ha : f a = true
    · rw [List.filter_cons_of_pos ha, List.filter_cons_of_neg (by simp [ha]), List.cons_append, ih hrest]
    · -- behind one for which it does not hold there is none
      have hempty : xs.filter f = [] := List.filter_eq_nil_iff.mpr fun b hb hf => ha (hfirst b hb hf)
      have hall : xs.filter (fun b => !f b) = xs := by
        refine List.filter_eq_self.mpr fun b hb => ?_
        rw [Bool.not_eq_true']
        exact Bool.eq_false_iff.mpr fun hf => ha (hfirst b hb hf)
      rw [List.filter_cons_of_neg ha, List.filter_cons_of_pos (by simp [ha]), hempty, hall, List.nil_append]

theorem entries_of_inEntryOrder {fs : List (JsString × α)} (h : InEntryOrder fs) : entries fs = fs := by
  rw [InEntryOrder] at h
  have hsorted : (fs.filter fun p => (arrayIndex? p.1).isSome).insertionSort indexLe =
      fs.filter fun p => (arrayIndex? p.1).isSome := by
    refine List.Pairwise.insertionSort_eq ((h.filter _).imp_of_mem fun {p q} _ hq himp => ?_)
    exact (himp (List.mem_filter.mp hq).2).2
  rw [entries, hsorted]
  exact filter_append_filter_not (h.imp fun himp hq => (himp hq).1)

theorem properties_subset (fs : List (JsString × α)) : properties fs ⊆ fs := by
  have hset : ∀ (ps : List (JsString × α)) (p : JsString × α), setProperty ps p.1 p.2 ⊆ ps ++ [p] := by
    intro ps p q hq
    unfold setProperty at hq
    by_cases hmem : p.1 ∈ ps.map Prod.fst
    · rw [if_pos hmem] at hq
      obtain ⟨p', hp', rfl⟩ := List.mem_map.mp hq
      by_cases hkey : p'.1 = p.1
      · simp [hkey]
      · simp [hkey, hp']
    · rwa [if_neg hmem] at hq
  have hfold : ∀ fs ps : List (JsString × α), fs.foldl (fun ps p => setProperty ps p.1 p.2) ps ⊆ ps ++ fs := by
    intro fs
    induction fs with
    | nil => simp
    | cons p fs ih =>
      intro ps q hq
      rcases List.mem_append.mp (ih _ hq) with hq | hq
      · rcases List.mem_append.mp (hset ps p hq) with hq | hq
        · exact List.mem_append_left _ hq
        · exact List.mem_append_right _ (List.mem_cons.mpr (.inl (List.mem_singleton.mp hq)))
      · exact List.mem_append_right _ (List.mem_cons_of_mem _ hq)
  exact hfold fs []

end

/-! ## The value of a text -/

mutual

/-- The tree as the language holds it: one value a key, in the order of `Object.entries`. -/
def kept : JsonTree ν → JsonTree ν
  | .null => .null
  | .boolean b => .boolean b
  | .number x => .number x
  | .string s => .string s
  | .array ts => .array (keptElements ts)
  | .object fs => .object (entries (properties (keptFields fs)))

def keptElements : List (JsonTree ν) → List (JsonTree ν)
  | [] => []
  | t :: ts => t.kept :: keptElements ts

def keptFields : List (JsString × JsonTree ν) → List (JsString × JsonTree ν)
  | [] => []
  | (key, t) :: fs => (key, t.kept) :: keptFields fs

end

theorem keptElements_eq (ts : List (JsonTree ν)) : keptElements ts = ts.map kept := by
  induction ts with
  | nil => rfl
  | cons t ts ih => rw [keptElements, ih, List.map_cons]

theorem keptFields_eq (fs : List (JsString × JsonTree ν)) : keptFields fs = fs.map (onValue kept) := by
  induction fs with
  | nil => rfl
  | cons p fs ih =>
    rw [keptFields, ih, List.map_cons]
    rfl

/-- Numbers may be replaced before or after the values are kept, by trees that are kept themselves. -/
theorem kept_bind {f : ν → JsonTree μ} (hf : ∀ x, (f x).kept = f x) (t : JsonTree ν) :
    (t.bind f).kept = t.kept.bind f := by
  induction t using induct_mem with
  | null => simp only [bind, kept]
  | boolean b => simp only [bind, kept]
  | number x => simp only [bind, kept, hf]
  | string s => simp only [bind, kept]
  | array ts ih =>
    simp only [bind, kept, bindElements_eq, keptElements_eq, List.map_map]
    exact congrArg array (List.map_congr_left ih)
  | object fs ih =>
    have hbind : ∀ ps : List (JsString × JsonTree ν), bindFields f ps = ps.map (onValue (bind f)) := bindFields_eq f
    simp only [bind, kept, hbind, keptFields_eq]
    rw [map_entries, map_properties, List.map_map, List.map_map]
    have hmap : fs.map (onValue kept ∘ onValue (bind f)) = fs.map (onValue (bind f) ∘ onValue kept) :=
      List.map_congr_left fun p hp => congrArg (Prod.mk p.1) (ih p hp)
    rw [hmap]

theorem weight_kept_eq_zero {w : ν → Nat} {t : JsonTree ν} (h : t.weight w = 0) : t.kept.weight w = 0 := by
  induction t using induct_mem with
  | null => simp only [kept, weight]
  | boolean b => simp only [kept, weight]
  | number x => rwa [kept]
  | string s => simp only [kept, weight]
  | array ts ih =>
    rw [weight, weightElements_eq, List.sum_eq_zero_iff_forall_eq_nat] at h
    rw [kept, keptElements_eq, weight, weightElements_eq, List.sum_eq_zero_iff_forall_eq_nat, List.map_map]
    intro n hn
    obtain ⟨t, ht, rfl⟩ := List.mem_map.mp hn
    exact ih t ht (h _ (List.mem_map_of_mem ht))
  | object fs ih =>
    rw [weight, weightFields_eq, List.sum_eq_zero_iff_forall_eq_nat] at h
    rw [kept, keptFields_eq, weight, weightFields_eq, List.sum_eq_zero_iff_forall_eq_nat]
    intro n hn
    obtain ⟨p, hp, rfl⟩ := List.mem_map.mp hn
    obtain ⟨q, hq, rfl⟩ := List.mem_map.mp (properties_subset _ ((entries_perm _).mem_iff.mp hp))
    exact ih q hq (h _ (List.mem_map_of_mem hq))

mutual

def NoDuplicates : JsonTree ν → Prop
  | .array ts => noDuplicatesElements ts
  | .object fs => (fs.map Prod.fst).Nodup ∧ noDuplicatesFields fs
  | _ => True

def noDuplicatesElements : List (JsonTree ν) → Prop
  | [] => True
  | t :: ts => t.NoDuplicates ∧ noDuplicatesElements ts

def noDuplicatesFields : List (JsString × JsonTree ν) → Prop
  | [] => True
  | (_, t) :: fs => t.NoDuplicates ∧ noDuplicatesFields fs

end

theorem noDuplicatesElements_iff (ts : List (JsonTree ν)) : noDuplicatesElements ts ↔ ∀ t ∈ ts, t.NoDuplicates := by
  induction ts with
  | nil => simp [noDuplicatesElements]
  | cons t ts ih => rw [noDuplicatesElements, ih, List.forall_mem_cons]

theorem noDuplicatesFields_iff (fs : List (JsString × JsonTree ν)) : noDuplicatesFields fs ↔ ∀ f ∈ fs,
    f.2.NoDuplicates := by
  induction fs with
  | nil => simp [noDuplicatesFields]
  | cons f fs ih => rw [noDuplicatesFields, ih, List.forall_mem_cons]

theorem noDuplicates_bind (f : ν → μ) (t : JsonTree ν) : (t.bind fun x => .number (f x)).NoDuplicates ↔
    t.NoDuplicates := by
  induction t using induct_mem with
  | null => rfl
  | boolean b => rfl
  | number x => rfl
  | string s => rfl
  | array ts ih =>
    rw [bind, bindElements_eq, NoDuplicates, noDuplicatesElements_iff, List.forall_mem_map, NoDuplicates,
      noDuplicatesElements_iff]
    exact forall₂_congr ih
  | object fs ih =>
    rw [bind, bindFields_eq, NoDuplicates, noDuplicatesFields_iff, List.forall_mem_map, List.map_map, NoDuplicates,
      noDuplicatesFields_iff]
    exact and_congr Iff.rfl (forall₂_congr ih)

mutual

def EntryOrder : JsonTree ν → Prop
  | .array ts => entryOrderElements ts
  | .object fs => InEntryOrder fs ∧ entryOrderFields fs
  | _ => True

def entryOrderElements : List (JsonTree ν) → Prop
  | [] => True
  | t :: ts => t.EntryOrder ∧ entryOrderElements ts

def entryOrderFields : List (JsString × JsonTree ν) → Prop
  | [] => True
  | (_, t) :: fs => t.EntryOrder ∧ entryOrderFields fs

end

theorem entryOrderElements_iff (ts : List (JsonTree ν)) : entryOrderElements ts ↔ ∀ t ∈ ts, t.EntryOrder := by
  induction ts with
  | nil => simp [entryOrderElements]
  | cons t ts ih => rw [entryOrderElements, ih, List.forall_mem_cons]

theorem entryOrderFields_iff (fs : List (JsString × JsonTree ν)) : entryOrderFields fs ↔ ∀ f ∈ fs,
    f.2.EntryOrder := by
  induction fs with
  | nil => simp [entryOrderFields]
  | cons f fs ih => rw [entryOrderFields, ih, List.forall_mem_cons]

theorem kept_of_entryOrder {t : JsonTree ν} (hnodup : t.NoDuplicates) (horder : t.EntryOrder) : t.kept = t := by
  induction t using induct_mem with
  | null => rw [kept]
  | boolean b => rw [kept]
  | number x => rw [kept]
  | string s => rw [kept]
  | array ts ih =>
    rw [NoDuplicates, noDuplicatesElements_iff] at hnodup
    rw [EntryOrder, entryOrderElements_iff] at horder
    rw [kept, keptElements_eq]
    exact congrArg array ((List.map_congr_left fun t ht => ih t ht (hnodup t ht) (horder t ht)).trans
      (List.map_id' ts))
  | object fs ih =>
    rw [NoDuplicates, noDuplicatesFields_iff] at hnodup
    rw [EntryOrder, entryOrderFields_iff] at horder
    have hfields : fs.map (onValue kept) = fs := by
      refine (List.map_congr_left fun p hp => ?_).trans (List.map_id' fs)
      exact congrArg (Prod.mk p.1) (ih p hp (hnodup.2 p hp) (horder.2 p hp))
    rw [kept, keptFields_eq, hfields, properties_of_nodup hnodup.1, entries_of_inEntryOrder horder.1]

theorem weight_kept (w : ν → Nat) {t : JsonTree ν} (h : t.NoDuplicates) : t.kept.weight w = t.weight w := by
  induction t using induct_mem with
  | null => simp only [kept]
  | boolean b => simp only [kept]
  | number x => simp only [kept]
  | string s => simp only [kept]
  | array ts ih =>
    rw [NoDuplicates, noDuplicatesElements_iff] at h
    simp only [kept, weight, keptElements_eq, weightElements_eq, List.map_map]
    exact congrArg List.sum (List.map_congr_left fun t ht => ih t ht (h t ht))
  | object fs ih =>
    rw [NoDuplicates, noDuplicatesFields_iff] at h
    have hkeys : ((fs.map (onValue kept)).map Prod.fst).Nodup := by
      rw [List.map_map]
      exact h.1
    simp only [kept, weight, keptFields_eq, weightFields_eq]
    rw [properties_of_nodup hkeys, ((entries_perm _).map _).sum_nat, List.map_map]
    exact congrArg List.sum (List.map_congr_left fun p hp => ih p hp (h.2 p hp))

end JsonTree

end ConfluentKafka
