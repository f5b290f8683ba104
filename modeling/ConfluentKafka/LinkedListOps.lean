import ConfluentKafka.LinkedList
import Mathlib.Data.List.Induction

/-!
# The other operations of `_linked-list.js`

Insertion next to a node, removal of the last node and the way back through the links. Each insertion links
the new node between the two parts of a represented sequence. `concat` is here for two lists that are not one.
-/

namespace ConfluentKafka

namespace LinkedList

variable {α : Type}

def removeLast (h : NodeHeap α) (l : LinkedList) : NodeHeap α × LinkedList × Option α :=
  match l.tail with
  | none => (h, l, none)
  | some node => ((remove h l node).1, (remove h l node).2, valueAt h node)

def addBefore (h : NodeHeap α) (l : LinkedList) (node : Nat) (value : α) :
    Except String (NodeHeap α × LinkedList × Nat) :=
  match h[node]? with
  | none => .error "Cannot read properties of undefined (reading '_removed')"
  | some nd =>
    if nd.removed then .error "Node was removed" else
      let (h, new) := newNode h value
      let (h, l) := insertInBetween h l new nd.prev (some node)
      .ok (h, l, new)

def addAfter (h : NodeHeap α) (l : LinkedList) (node : Nat) (value : α) :
    Except String (NodeHeap α × LinkedList × Nat) :=
  match h[node]? with
  | none => .error "Cannot read properties of undefined (reading '_removed')"
  | some nd =>
    if nd.removed then .error "Node was removed" else
      let (h, new) := newNode h value
      let (h, l) := insertInBetween h l new (some node) nd.next
      .ok (h, l, new)

/-- The values from a node on, following `prev` for at most `fuel` nodes. -/
def iterBackFrom (h : NodeHeap α) : Nat → Option Nat → List α
  | 0, _ => []
  | _, none => []
  | fuel + 1, some i =>
    match h[i]? with
    | none => []
    | some n => n.value :: iterBackFrom h fuel n.prev

theorem iterBackFrom_none (h : NodeHeap α) (fuel : Nat) : iterBackFrom h fuel none = [] := by
  cases fuel <;> rfl

/-! ## Both ways through the links -/

theorem Repr.iterFrom {h : NodeHeap α} {l : LinkedList} {ids : List Nat} (hr : Repr h l ids) {fuel : Nat}
    (hfuel : ids.length ≤ fuel) :
    iterFrom h fuel l.head = ids.filterMap (valueAt h) := by
  rw [hr.head]
  exact iterFrom_suffix hr ids [] fuel rfl hfuel

theorem iterBackFrom_front {h : NodeHeap α} {l : LinkedList} {ids : List Nat} (hr : Repr h l ids) (a : List Nat) :
    ∀ (b : List Nat) (fuel : Nat), ids = a ++ b → a.length ≤ fuel →
      iterBackFrom h fuel a.getLast? = a.reverse.filterMap (valueAt h) := by
  induction a using List.reverseRecOn with
  | nil => exact fun _ fuel _ _ => iterBackFrom_none h fuel
  | append_singleton a i ih =>
    intro b fuel hab hf
    rw [List.length_append, List.length_singleton] at hf
    obtain ⟨fuel, rfl⟩ : ∃ fuel', fuel = fuel' + 1 := ⟨fuel - 1, by omega⟩
    obtain ⟨n, hn, _, hprev, _⟩ := hr.node a i b (by rw [hab, List.append_assoc]; rfl)
    have hrest := ih (i :: b) fuel (by rw [hab, List.append_assoc]; rfl) (by omega)
    rw [List.getLast?_concat, iterBackFrom, hn]
    simp only [hprev, hrest, List.reverse_append, List.reverse_cons, List.reverse_nil, List.nil_append,
      List.singleton_append]
    rw [List.filterMap_cons, valueAt, hn]
    rfl

theorem Repr.iterBackFrom {h : NodeHeap α} {l : LinkedList} {ids : List Nat} (hr : Repr h l ids) {fuel : Nat}
    (hfuel : ids.length ≤ fuel) : iterBackFrom h fuel l.tail = ids.reverse.filterMap (valueAt h) := by
  rw [hr.tail]
  exact iterBackFrom_front hr ids [] fuel (List.append_nil ids).symm hfuel

/-! ## Insertion of a new node -/

def insertNew (h : NodeHeap α) (l : LinkedList) (value : α) (prev next : Option Nat) : NodeHeap α × LinkedList :=
  insertInBetween (newNode h value).1 l h.length prev next

section
variable {h : NodeHeap α} {l : LinkedList} {a b : List Nat} (hr : Repr h l (a ++ b)) (v : α)
include hr

theorem Repr.last_ne : a.getLast? ≠ some h.length := fun e =>
    hr.fresh (List.mem_append_left b (List.mem_of_getLast? e))

theorem Repr.head_ne : b.head? ≠ some h.length := fun e => hr.fresh (List.mem_append_right a (List.mem_of_head? e))

theorem Repr.insertNew :
    Repr (insertNew h l v a.getLast? b.head?).1 (insertNew h l v a.getLast? b.head?).2 (a ++ h.length :: b) := by
  have hn : (LinkedList.newNode h v).1[h.length]? = some ⟨v, false, none, none⟩ := by
    simp [LinkedList.newNode]
  exact Repr.insert (hr.newNode v) hr.fresh hn rfl

theorem Repr.insertNew_valueAt (j : Nat) :
    valueAt (LinkedList.insertNew h l v a.getLast? b.head?).1 j = if j = h.length then some v else valueAt h j := by
  rw [LinkedList.insertNew, insertInBetween_valueAt _ _ _ _ _ hr.last_ne hr.head_ne]
  exact newNode_valueAt h v j

theorem Repr.insertNew_frame {j : Nat} (hj : j ∉ a ++ b) (hl : j < h.length) :
    (LinkedList.insertNew h l v a.getLast? b.head?).1[j]? = h[j]? := by
  have hp : a.getLast? ≠ some j := fun e => hj (List.mem_append_left b (List.mem_of_getLast? e))
  have hn : b.head? ≠ some j := fun e => hj (List.mem_append_right a (List.mem_of_head? e))
  rw [LinkedList.insertNew, insertInBetween_get _ _ _ _ _ hr.last_ne hr.head_ne, LinkedList.newNode]
  dsimp only
  rw [List.getElem?_append_left hl]
  simp [Nat.ne_of_lt hl, hp, hn]

end

theorem insertNew_length (h : NodeHeap α) (l : LinkedList) (v : α) (prev next : Option Nat) :
    (insertNew h l v prev next).1.length = h.length + 1 := by
  cases prev <;> cases next <;> simp [insertNew, insertInBetween, newNode]

theorem remove_length (h : NodeHeap α) (l : LinkedList) (i : Nat) : (remove h l i).1.length = h.length := by
  unfold remove
  split
  · rfl
  · next nd _ =>
    split_ifs
    · rfl
    · obtain ⟨_, _, prev, next⟩ := nd
      cases prev <;> cases next <;> simp

/-! ## `concat` of two lists -/

/-- The links that `concat` sets. -/
def joinLinks (h : NodeHeap α) (last head : Option Nat) : NodeHeap α :=
  let h : NodeHeap α :=
    match last with
    | some t => h.modify t fun n => { n with next := head }
    | none => h
  match head with
  | some i => h.modify i fun n => { n with prev := last }
  | none => h

theorem joinLinks_get (h : NodeHeap α) (last head : Option Nat) (j : Nat) :
    (joinLinks h last head)[j]? = h[j]?.map fun n =>
      { n with
        prev := if head = some j then last else n.prev
        next := if last = some j then head else n.next } := by
  rcases last with _ | t <;> rcases head with _ | i <;> simp only [joinLinks, modify_get, Option.map_map]
  · simp
  all_goals
    congr 1
    funext n
    simp only [Function.comp, Option.some.injEq, reduceCtorEq, if_false, eq_comm (b := j)]
    split_ifs <;> rfl

theorem joinLinks_length (h : NodeHeap α) (last head : Option Nat) : (joinLinks h last head).length = h.length := by
  cases last <;> cases head <;> simp [joinLinks]

theorem joinLinks_valueAt (h : NodeHeap α) (last head : Option Nat) (j : Nat) :
    valueAt (joinLinks h last head) j = valueAt h j := by
  unfold valueAt
  rw [joinLinks_get, Option.map_map]
  rfl

/-- The second list is linked behind the first, which has a node. -/
theorem Repr.join {h : NodeHeap α} {l other : LinkedList} {a b : List Nat} (hr : Repr h l a) (ho : Repr h other b)
    (ha : a ≠ [])
    (hb : b ≠ []) (hdisjoint : a.Disjoint b) :
    Repr (joinLinks h l.tail other.head) ⟨l.head, other.tail, l.count + other.count⟩ (a ++ b) where
  nodup := hr.nodup.append ho.nodup hdisjoint
  head := by
    obtain ⟨i, a, rfl⟩ := List.exists_cons_of_ne_nil ha
    exact hr.head
  tail := by
    rw [List.getLast?_append_of_ne_nil a hb]
    exact ho.tail
  count := by
    rw [List.length_append, hr.count, ho.count]
    rfl
  node := by
    intro c j d hcd
    rw [joinLinks_get, hr.tail, ho.head]
    rcases List.append_eq_append_iff.mp hcd with ⟨e, rfl, hb'⟩ | ⟨e, rfl, hd⟩
    · obtain ⟨n, hn, hrm, hprev, hnext⟩ := ho.node e j d hb'
      have hj : j ∈ b := by
        rw [hb']
        exact List.mem_append_right e (List.mem_cons_self ..)
      have hlast : a.getLast? ≠ some j := fun h => hdisjoint (List.mem_of_getLast? h) hj
      rw [hn]
      refine ⟨_, rfl, hrm, ?_, by simp only [hlast, if_false, hnext]⟩
      cases e with
      | nil => simp [hb']
      | cons k e =>
        have hk : k ≠ j := by
          rintro rfl
          have := ho.nodup
          simp [hb'] at this
        rw [List.getLast?_append_of_ne_nil a (List.cons_ne_nil k e), ← hprev]
        simp [hb', hk]
    · cases e with
      | nil =>
        obtain ⟨rfl⟩ : b = j :: d := by simpa using hd.symm
        obtain ⟨n, hn, hrm, hprev, hnext⟩ := ho.node [] j d rfl
        have hlast : c.getLast? ≠ some j := fun h => hdisjoint (by simpa using List.mem_of_getLast? h)
          (List.mem_cons_self ..)
        rw [hn]
        refine ⟨_, rfl, hrm, by simp, by simp [hlast, hnext]⟩
      | cons k e =>
        obtain ⟨rfl, rfl⟩ : j = k ∧ d = e ++ b := by simpa using hd
        obtain ⟨n, hn, hrm, hprev, hnext⟩ := hr.node c j e rfl
        have hhead : b.head? ≠ some j := fun h => hdisjoint (List.mem_append_right c (List.mem_cons_self ..))
          (List.mem_of_head? h)
        rw [hn]
        refine ⟨_, rfl, hrm, by simp [hhead, hprev], ?_⟩
        rcases List.eq_nil_or_concat' e with rfl | ⟨e, x, rfl⟩
        · simp
        · have hx : x ≠ j := by
            rintro rfl
            have := hr.nodup
            simp [List.nodup_append] at this
          have hlast : (c ++ j :: (e ++ [x])).getLast? = some x := by
            rw [← List.cons_append, ← List.append_assoc, List.getLast?_concat]
          simp only [hlast, Option.some.injEq, hx, if_false, hnext]
          simp [List.head?_append]

theorem joinLinks_frame {h : NodeHeap α} {last head : Option Nat} {j : Nat} (hlast : last ≠ some j)
    (hhead : head ≠ some j) :
    (joinLinks h last head)[j]? = h[j]? := by
  rw [joinLinks_get]
  simp [hlast, hhead]

end LinkedList

end ConfluentKafka
