import Mathlib.Data.List.Basic
import Mathlib.Data.List.Nodup
import Mathlib.Data.List.Perm.Subperm

/-!
# The doubly linked list of `_linked-list.js`

Nodes are objects shared between lists, so they live in a heap and are named
by their address; a list is its `head`, its `tail` and its `count`. `Repr`
says which nodes a list links, in order. Every operation is first described
pointwise on the heap (`insertInBetween_get`, `remove_get`), and what it does
to the represented sequence, and to every other list of the heap, follows.
-/

namespace ConfluentKafka

structure LinkedListNode (α : Type) where
  value : α
  removed : Bool
  prev : Option Nat
  next : Option Nat
  deriving Repr

abbrev NodeHeap (α : Type) := List (LinkedListNode α)

structure LinkedList where
  head : Option Nat
  tail : Option Nat
  count : Int
  deriving Repr, DecidableEq

namespace LinkedList

variable {α : Type}

def empty : LinkedList := ⟨none, none, 0⟩

/-- `new LinkedListNode(value)`: the heap with the node, and its address. -/
def newNode (h : NodeHeap α) (value : α) : NodeHeap α × Nat :=
  (h ++ [⟨value, false, none, none⟩], h.length)

def insertInBetween (h : NodeHeap α) (l : LinkedList) (node : Nat) (prev next : Option Nat) :
    NodeHeap α × LinkedList :=
  let h := h.modify node fun n => { n with next := next, prev := prev }
  let (h, l) : NodeHeap α × LinkedList :=
    match prev with
    | some p => (h.modify p fun n => { n with next := some node }, l)
    | none => (h, { l with head := some node })
  let (h, l) : NodeHeap α × LinkedList :=
    match next with
    | some q => (h.modify q fun n => { n with prev := some node }, l)
    | none => (h, { l with tail := some node })
  (h, { l with count := l.count + 1 })

def remove (h : NodeHeap α) (l : LinkedList) (node : Nat) : NodeHeap α × LinkedList :=
  match h[node]? with
  | none => (h, l)
  | some nd =>
    if nd.removed then (h, l) else
      let (h, l) : NodeHeap α × LinkedList :=
        match nd.prev with
        | some p => (h.modify p fun n => { n with next := nd.next }, l)
        | none => (h, { l with head := nd.next })
      let (h, l) : NodeHeap α × LinkedList :=
        match nd.next with
        | some q => (h.modify q fun n => { n with prev := nd.prev }, l)
        | none => (h, { l with tail := nd.prev })
      (h.modify node fun n => { n with next := none, prev := none, removed := true },
        { l with count := l.count - 1 })

def valueAt (h : NodeHeap α) (node : Nat) : Option α := h[node]?.map (·.value)

def removeFirst (h : NodeHeap α) (l : LinkedList) : NodeHeap α × LinkedList × Option α :=
  match l.head with
  | none => (h, l, none)
  | some node => ((remove h l node).1, (remove h l node).2, valueAt h node)

def addFirst (h : NodeHeap α) (l : LinkedList) (value : α) : NodeHeap α × LinkedList × Nat :=
  let (h, node) := newNode h value
  let (h, l') := insertInBetween h l node none l.head
  (h, l', node)

def addLast (h : NodeHeap α) (l : LinkedList) (value : α) : NodeHeap α × LinkedList × Nat :=
  let (h, node) := newNode h value
  let (h, l') := insertInBetween h l node l.tail none
  (h, l', node)

/-- The iterator, following `next` for at most `fuel` nodes. -/
def iterFrom (h : NodeHeap α) : Nat → Option Nat → List α
  | 0, _ => []
  | _, none => []
  | fuel + 1, some i =>
    match h[i]? with
    | none => []
    | some n => n.value :: iterFrom h fuel n.next

/-- Forward iteration. A list links each node of its heap at most once, so the
size of the heap bounds its length. -/
def toList (h : NodeHeap α) (l : LinkedList) : List α := iterFrom h h.length l.head

/-! ## The represented sequence -/

structure Repr (h : NodeHeap α) (l : LinkedList) (ids : List Nat) : Prop where
  nodup : ids.Nodup
  head : l.head = ids.head?
  tail : l.tail = ids.getLast?
  count : l.count = ids.length
  node : ∀ a i b, ids = a ++ i :: b →
    ∃ n, h[i]? = some n ∧ n.removed = false ∧ n.prev = a.getLast? ∧ n.next = b.head?

theorem repr_empty (h : NodeHeap α) : Repr h empty [] where
  nodup := List.nodup_nil
  head := rfl
  tail := rfl
  count := rfl
  node a i b hab := by simp at hab

theorem Repr.get_of_mem {h : NodeHeap α} {l : LinkedList} {ids : List Nat} (hr : Repr h l ids) {i : Nat}
    (hi : i ∈ ids) : ∃ n, h[i]? = some n ∧ n.removed = false := by
  obtain ⟨a, b, hab⟩ := List.append_of_mem hi
  obtain ⟨n, hn, hrm, _, _⟩ := hr.node a i b hab
  exact ⟨n, hn, hrm⟩

theorem Repr.lt_length {h : NodeHeap α} {l : LinkedList} {ids : List Nat} (hr : Repr h l ids) {i : Nat}
    (hi : i ∈ ids) : i < h.length := by
  obtain ⟨n, hn, _⟩ := hr.get_of_mem hi
  exact (List.getElem?_eq_some_iff.mp hn).1

theorem Repr.congr {h h' : NodeHeap α} {l : LinkedList} {ids : List Nat} (hr : Repr h l ids)
    (heq : ∀ i ∈ ids, h'[i]? = h[i]?) : Repr h' l ids where
  nodup := hr.nodup
  head := hr.head
  tail := hr.tail
  count := hr.count
  node a i b hab := by
    rw [heq i (by simp [hab])]
    exact hr.node a i b hab

theorem iterFrom_none (h : NodeHeap α) (fuel : Nat) : iterFrom h fuel none = [] := by
  cases fuel <;> rfl

theorem iterFrom_suffix {h : NodeHeap α} {l : LinkedList} {ids : List Nat} (hr : Repr h l ids) :
    ∀ (b : List Nat) (a : List Nat) (fuel : Nat), ids = a ++ b → b.length ≤ fuel →
      iterFrom h fuel b.head? = b.filterMap (valueAt h)
  | [], _, fuel, _, _ => by simp [iterFrom_none]
  | i :: b, a, 0, _, hf => by simp at hf
  | i :: b, a, fuel + 1, hab, hf => by
    obtain ⟨n, hn, _, _, hnext⟩ := hr.node a i b hab
    have ih := iterFrom_suffix hr b (a ++ [i]) fuel (by simp [hab]) (by simpa using hf)
    simp [iterFrom, hn, hnext, ih, valueAt]

theorem Repr.length_le {h : NodeHeap α} {l : LinkedList} {ids : List Nat} (hr : Repr h l ids) :
    ids.length ≤ h.length := by
  have hs : ids ⊆ List.range h.length := fun i hi => List.mem_range.mpr (hr.lt_length hi)
  simpa using (List.subperm_of_subset hr.nodup hs).length_le

theorem Repr.toList_eq {h : NodeHeap α} {l : LinkedList} {ids : List Nat} (hr : Repr h l ids) :
    toList h l = ids.filterMap (valueAt h) := by
  unfold toList
  rw [hr.head]
  exact iterFrom_suffix hr ids [] h.length rfl hr.length_le

theorem Repr.filterMap_length {h : NodeHeap α} {l : LinkedList} {ids : List Nat} (hr : Repr h l ids) :
    (ids.filterMap (valueAt h)).length = ids.length := by
  have : ∀ ids' : List Nat, (∀ i ∈ ids', ∃ n, h[i]? = some n ∧ n.removed = false) →
      (ids'.filterMap (valueAt h)).length = ids'.length := by
    intro ids'
    induction ids' with
    | nil => intro _; rfl
    | cons i ids' ih =>
      intro hall
      obtain ⟨n, hn, _⟩ := hall i (by simp)
      simp [valueAt, hn, ih fun j hj => hall j (by simp [hj])]
  exact this ids fun i hi => hr.get_of_mem hi

theorem Repr.count_eq {h : NodeHeap α} {l : LinkedList} {ids : List Nat} (hr : Repr h l ids) :
    l.count = (toList h l).length := by
  rw [hr.toList_eq, hr.filterMap_length, hr.count]

/-! ## Insertion -/

theorem modify_get (h : NodeHeap α) (k : Nat) (f : LinkedListNode α → LinkedListNode α) (j : Nat) :
    (h.modify k f)[j]? = h[j]?.map fun n => if j = k then f n else n := by
  rw [List.getElem?_modify]
  by_cases hk : k = j
  · simp [hk]
  · simp [hk, Ne.symm hk]

theorem insertInBetween_get (h : NodeHeap α) (l : LinkedList) (i : Nat) (prev next : Option Nat)
    (hp : prev ≠ some i) (hn : next ≠ some i) (j : Nat) :
    (insertInBetween h l i prev next).1[j]? = h[j]?.map fun n =>
      { n with
        prev := if j = i then prev else if next = some j then some i else n.prev
        next := if j = i then next else if prev = some j then some i else n.next } := by
  rcases prev with _ | p <;> rcases next with _ | q <;>
    simp only [insertInBetween, modify_get, Option.map_map] <;> congr 1 <;> funext n <;>
    by_cases hj : j = i <;> simp_all [eq_comm] <;> split_ifs <;> simp_all

theorem insertInBetween_list (h : NodeHeap α) (l : LinkedList) (i : Nat) (prev next : Option Nat) :
    (insertInBetween h l i prev next).2 =
      ⟨if prev = none then some i else l.head, if next = none then some i else l.tail, l.count + 1⟩ := by
  cases prev <;> cases next <;> rfl

/-- A node that is not linked yet is linked between the nodes `a` and `b`. -/
theorem Repr.insert {h : NodeHeap α} {l : LinkedList} {a b : List Nat} (hr : Repr h l (a ++ b)) {i : Nat}
    (hi : i ∉ a ++ b) {n : LinkedListNode α} (hn : h[i]? = some n) (hrm : n.removed = false) :
    Repr (insertInBetween h l i a.getLast? b.head?).1 (insertInBetween h l i a.getLast? b.head?).2
      (a ++ i :: b) := by
  simp only [List.mem_append, not_or] at hi
  have hp : a.getLast? ≠ some i := fun e => hi.1 (List.mem_of_getLast? e)
  have hq : b.head? ≠ some i := fun e => hi.2 (List.mem_of_head? e)
  refine ⟨?_, ?_, ?_, ?_, ?_⟩
  · rw [List.nodup_middle]
    exact List.nodup_cons.mpr ⟨by simpa using hi, hr.nodup⟩
  · rw [insertInBetween_list, hr.head]
    cases a <;> simp
  · rw [insertInBetween_list, hr.tail]
    cases b with
    | nil => simp
    | cons y b => simp [List.getLast?_append, List.getLast?_cons]
  · rw [insertInBetween_list, hr.count]
    simp only [List.length_append, List.length_cons]
    omega
  · intro a' j b' hab
    rw [insertInBetween_get h l i _ _ hp hq j]
    have hnd := hr.nodup
    rcases List.append_eq_append_iff.mp hab with ⟨c, rfl, hc⟩ | ⟨c, rfl, hc⟩
    · cases c with
      | nil =>
        obtain ⟨rfl, rfl⟩ : i = j ∧ b = b' := by simpa using hc
        rw [hn]
        exact ⟨_, rfl, hrm, by simp, by simp⟩
      | cons k c =>
        obtain ⟨rfl, rfl⟩ : i = k ∧ b = c ++ j :: b' := by simpa using hc
        obtain ⟨m, hm, hmr, hmp, hmn⟩ := hr.node (a ++ c) j b' (by simp)
        have hji : j ≠ i := fun e => hi.2 (by simp [e])
        have hja : a.getLast? ≠ some j := fun e =>
          (List.nodup_append.mp hnd).2.2 j (List.mem_of_getLast? e) j (by simp) rfl
        rw [hm]
        refine ⟨_, rfl, hmr, ?_, by simp [hji, hja, hmn]⟩
        simp only [hji, if_false, hmp]
        cases c with
        | nil => simp
        | cons k' c =>
          have : k' ≠ j := by
            intro e; subst e
            simp [List.nodup_append] at hnd
          simp [this, List.getLast?_append, List.getLast?_cons]
    · cases c with
      | nil =>
        obtain ⟨rfl, rfl⟩ : j = i ∧ b' = b := by simpa using hc
        rw [hn]
        exact ⟨_, rfl, hrm, by simp, by simp⟩
      | cons k c =>
        obtain ⟨rfl, rfl⟩ : j = k ∧ b' = c ++ i :: b := by simpa using hc
        obtain ⟨m, hm, hmr, hmp, hmn⟩ := hr.node a' j (c ++ b) (by simp)
        have hji : j ≠ i := fun e => hi.1 (by simp [e])
        have hjb : b.head? ≠ some j := fun e =>
          (List.nodup_append.mp hnd).2.2 j (by simp) j (List.mem_of_head? e) rfl
        rw [hm]
        refine ⟨_, rfl, hmr, by simp [hji, hjb, hmp], ?_⟩
        simp only [hji, if_false, hmn]
        cases c with
        | nil => simp
        | cons k' c =>
          have hjk : j ∉ k' :: c := by
            intro hm
            rw [List.append_assoc, List.nodup_append] at hnd
            exact (List.nodup_cons.mp hnd.2.1).1 (List.mem_append_left _ hm)
          have hne : (k' :: c).getLast? ≠ some j := fun e => hjk (List.mem_of_getLast? e)
          simp [hne]

theorem newNode_valueAt (h : NodeHeap α) (v : α) (j : Nat) :
    valueAt (newNode h v).1 j = if j = h.length then some v else valueAt h j := by
  unfold valueAt newNode
  rcases Nat.lt_trichotomy j h.length with hj | rfl | hj
  · simp [List.getElem?_append_left hj, Nat.ne_of_lt hj]
  · simp
  · rw [List.getElem?_eq_none (by simpa using Nat.succ_le_of_lt hj), List.getElem?_eq_none (Nat.le_of_lt hj)]
    simp [Nat.ne_of_gt hj]

theorem insertInBetween_valueAt (h : NodeHeap α) (l : LinkedList) (i : Nat) (prev next : Option Nat)
    (hp : prev ≠ some i) (hn : next ≠ some i) (j : Nat) :
    valueAt (insertInBetween h l i prev next).1 j = valueAt h j := by
  unfold valueAt
  rw [insertInBetween_get h l i prev next hp hn, Option.map_map]
  rfl

section
variable {h : NodeHeap α} {l : LinkedList} {ids : List Nat} (hr : Repr h l ids) (v : α)
include hr

theorem Repr.newNode : Repr (newNode h v).1 l ids :=
  hr.congr fun _ hi => List.getElem?_append_left (hr.lt_length hi)

theorem Repr.fresh : h.length ∉ ids := fun hm => Nat.lt_irrefl _ (hr.lt_length hm)

theorem Repr.addLast : Repr (addLast h l v).1 (addLast h l v).2.1 (ids ++ [h.length]) := by
  have hn : (LinkedList.newNode h v).1[h.length]? = some ⟨v, false, none, none⟩ := by
    simp [LinkedList.newNode]
  have := Repr.insert (a := ids) (b := []) (by simpa using hr.newNode v) (by simpa using hr.fresh) hn rfl
  rwa [← hr.tail] at this

theorem Repr.addFirst : Repr (addFirst h l v).1 (addFirst h l v).2.1 (h.length :: ids) := by
  have hn : (LinkedList.newNode h v).1[h.length]? = some ⟨v, false, none, none⟩ := by
    simp [LinkedList.newNode]
  have := Repr.insert (a := []) (b := ids) (by simpa using hr.newNode v) (by simpa using hr.fresh) hn rfl
  rwa [← hr.head] at this

theorem Repr.addLast_valueAt (j : Nat) :
    valueAt (LinkedList.addLast h l v).1 j = if j = h.length then some v else valueAt h j := by
  have hp : l.tail ≠ some h.length := fun e => hr.fresh (List.mem_of_getLast? (hr.tail ▸ e))
  show valueAt (insertInBetween (LinkedList.newNode h v).1 l h.length l.tail none).1 j = _
  rw [insertInBetween_valueAt _ _ _ _ _ hp (by simp)]
  exact newNode_valueAt h v j

theorem Repr.addFirst_valueAt (j : Nat) :
    valueAt (LinkedList.addFirst h l v).1 j = if j = h.length then some v else valueAt h j := by
  have hp : l.head ≠ some h.length := fun e => hr.fresh (List.mem_of_head? (hr.head ▸ e))
  show valueAt (insertInBetween (LinkedList.newNode h v).1 l h.length none l.head).1 j = _
  rw [insertInBetween_valueAt _ _ _ _ _ (by simp) hp]
  exact newNode_valueAt h v j

/-- Adding a node leaves every node of the other lists alone. -/
theorem Repr.addLast_frame {j : Nat} (hj : j ∉ ids) (hl : j < h.length) :
    (LinkedList.addLast h l v).1[j]? = h[j]? := by
  have hp : l.tail ≠ some h.length := fun e => hr.fresh (List.mem_of_getLast? (hr.tail ▸ e))
  have hpj : l.tail ≠ some j := fun e => hj (List.mem_of_getLast? (hr.tail ▸ e))
  show (insertInBetween (LinkedList.newNode h v).1 l h.length l.tail none).1[j]? = _
  rw [insertInBetween_get _ _ _ _ _ hp (by simp)]
  simp [LinkedList.newNode, List.getElem?_append_left hl, Nat.ne_of_lt hl, hpj]

theorem Repr.addFirst_frame {j : Nat} (hj : j ∉ ids) (hl : j < h.length) :
    (LinkedList.addFirst h l v).1[j]? = h[j]? := by
  have hp : l.head ≠ some h.length := fun e => hr.fresh (List.mem_of_head? (hr.head ▸ e))
  have hpj : l.head ≠ some j := fun e => hj (List.mem_of_head? (hr.head ▸ e))
  show (insertInBetween (LinkedList.newNode h v).1 l h.length none l.head).1[j]? = _
  rw [insertInBetween_get _ _ _ _ _ (by simp) hp]
  simp [LinkedList.newNode, List.getElem?_append_left hl, Nat.ne_of_lt hl, hpj]

end

/-! ## Removal -/

section
variable {h : NodeHeap α} {i : Nat} {nd : LinkedListNode α} (hi : h[i]? = some nd) (hrm : nd.removed = false)
include hi hrm

theorem remove_get (l : LinkedList) (hp : nd.prev ≠ some i) (hn : nd.next ≠ some i) (j : Nat) :
    (remove h l i).1[j]? = h[j]?.map fun n =>
      { n with
        removed := if j = i then true else n.removed
        prev := if j = i then none else if nd.next = some j then nd.prev else n.prev
        next := if j = i then none else if nd.prev = some j then nd.next else n.next } := by
  obtain ⟨v, r, prev, next⟩ := nd
  simp only at hrm hp hn
  subst hrm
  rcases prev with _ | p <;> rcases next with _ | q <;>
    simp only [remove, hi, Bool.false_eq_true, if_false, modify_get, Option.map_map] <;> congr 1 <;> funext n <;>
    by_cases hj : j = i <;> simp_all [eq_comm] <;> (try split_ifs) <;> simp_all

theorem remove_list (l : LinkedList) :
    (remove h l i).2 =
      ⟨if nd.prev = none then nd.next else l.head, if nd.next = none then nd.prev else l.tail, l.count - 1⟩ := by
  obtain ⟨v, r, prev, next⟩ := nd
  simp only at hrm
  subst hrm
  rcases prev with _ | p <;> rcases next with _ | q <;> simp [remove, hi]

end

section
variable {h : NodeHeap α} {l : LinkedList} {a b : List Nat} {i : Nat} (hr : Repr h l (a ++ i :: b))
include hr

theorem Repr.remove_get (j : Nat) :
    (remove h l i).1[j]? = h[j]?.map fun n =>
      { n with
        removed := if j = i then true else n.removed
        prev := if j = i then none else if b.head? = some j then a.getLast? else n.prev
        next := if j = i then none else if a.getLast? = some j then b.head? else n.next } := by
  obtain ⟨nd, hi, hrm, hp, hn⟩ := hr.node a i b rfl
  have hnd := hr.nodup
  rw [List.nodup_middle, List.nodup_cons, List.mem_append, not_or] at hnd
  rw [LinkedList.remove_get hi hrm l, hp, hn]
  · rw [hp]; exact fun e => hnd.1.1 (List.mem_of_getLast? e)
  · rw [hn]; exact fun e => hnd.1.2 (List.mem_of_head? e)

theorem Repr.remove : Repr (remove h l i).1 (remove h l i).2 (a ++ b) := by
  obtain ⟨nd, hi, hrm, hp, hn⟩ := hr.node a i b rfl
  have hnd := hr.nodup
  rw [List.nodup_middle, List.nodup_cons, List.mem_append, not_or] at hnd
  have hl := remove_list hi hrm l
  rw [hp, hn] at hl
  refine ⟨hnd.2, ?_, ?_, ?_, ?_⟩
  · rw [hl, hr.head]
    cases a <;> simp
  · rw [hl, hr.tail]
    cases b with
    | nil => simp
    | cons y b => simp [List.getLast?_append, List.getLast?_cons]
  · rw [hl, hr.count]
    simp only [List.length_append, List.length_cons]
    omega
  · intro a' j b' hab
    rw [hr.remove_get j]
    have hji : j ≠ i := by
      rintro rfl
      have : j ∈ a ++ b := by simp [hab]
      exact (not_or.mpr hnd.1) (List.mem_append.mp this)
    have hj2 := hnd.2
    rcases List.append_eq_append_iff.mp hab with ⟨c, rfl, rfl⟩ | ⟨c, rfl, hc⟩
    · obtain ⟨m, hm, hmr, hmp, hmn⟩ := hr.node (a ++ i :: c) j b' (by simp)
      have hja : a.getLast? ≠ some j := fun e =>
        (List.nodup_append.mp hj2).2.2 j (List.mem_of_getLast? e) j (by simp) rfl
      rw [hm]
      refine ⟨_, rfl, by simp [hmr, hji], ?_, by simp [hji, hja, hmn]⟩
      simp only [hji, if_false, hmp]
      cases c with
      | nil => simp
      | cons k' c =>
        have : k' ≠ j := by
          rintro rfl
          simp [List.nodup_append] at hj2
        simp [this, List.getLast?_append, List.getLast?_cons]
    · cases c with
      | nil =>
        obtain rfl : j :: b' = b := by simpa using hc
        obtain ⟨m, hm, hmr, hmp, hmn⟩ := hr.node (a' ++ [i]) j b' (by simp)
        have hja : a'.getLast? ≠ some j := fun e =>
          (List.nodup_append.mp hj2).2.2 j (by simpa using List.mem_of_getLast? e) j (by simp) rfl
        rw [hm]
        exact ⟨_, rfl, by simp [hmr, hji], by simp [hji], by simp [hji, hja, hmn]⟩
      | cons k c =>
        obtain ⟨rfl, rfl⟩ : j = k ∧ b' = c ++ b := by simpa using hc
        obtain ⟨m, hm, hmr, hmp, hmn⟩ := hr.node a' j (c ++ i :: b) (by simp)
        have hjb : b.head? ≠ some j := fun e =>
          (List.nodup_append.mp hj2).2.2 j (by simp) j (List.mem_of_head? e) rfl
        rw [hm]
        refine ⟨_, rfl, by simp [hmr, hji], by simp [hji, hjb, hmp], ?_⟩
        simp only [hji, if_false, hmn]
        cases c with
        | nil => simp
        | cons k' c =>
          have hjk : j ∉ k' :: c := by
            intro hm
            rw [List.append_assoc, List.nodup_append] at hj2
            exact (List.nodup_cons.mp hj2.2.1).1 (List.mem_append_left _ hm)
          have hne : (k' :: c).getLast? ≠ some j := fun e => hjk (List.mem_of_getLast? e)
          simp [hne]

theorem Repr.remove_valueAt (j : Nat) : valueAt (LinkedList.remove h l i).1 j = valueAt h j := by
  unfold valueAt
  rw [hr.remove_get, Option.map_map]
  rfl

theorem Repr.remove_frame {j : Nat} (hj : j ∉ a ++ i :: b) : (LinkedList.remove h l i).1[j]? = h[j]? := by
  have hja : a.getLast? ≠ some j := fun e => hj (by simp [List.mem_of_getLast? e])
  have hjb : b.head? ≠ some j := fun e => hj (by simp [List.mem_of_head? e])
  have hji : j ≠ i := fun e => hj (by simp [e])
  rw [hr.remove_get]
  simp [hja, hjb, hji]

end

theorem Repr.removeFirst_cons {h : NodeHeap α} {l : LinkedList} {i : Nat} {b : List Nat}
    (hr : Repr h l (i :: b)) :
    removeFirst h l = ((LinkedList.remove h l i).1, (LinkedList.remove h l i).2, valueAt h i) := by
  simp [removeFirst, hr.head]

theorem Repr.removeFirst_nil {h : NodeHeap α} {l : LinkedList} (hr : Repr h l []) :
    removeFirst h l = (h, l, none) := by
  simp [removeFirst, hr.head]

end LinkedList

end ConfluentKafka
