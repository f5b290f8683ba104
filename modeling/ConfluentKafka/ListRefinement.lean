import ConfluentKafka.LinkedListOps

/-!
# Linked lists as sequences

Any number of lists over one heap of nodes, against as many sequences of nodes with their values. A node is
handed to a list that holds it, or it was removed before. `concat` onto a list without nodes leaves its head
alone; everything else that a list shows is what its sequence says.
-/

namespace ConfluentKafka

inductive ListOp (α : Type) where
  | create
  | addFirst (list : Nat) (value : α)
  | addLast (list : Nat) (value : α)
  | addBefore (list node : Nat) (value : α)
  | addAfter (list node : Nat) (value : α)
  | remove (list node : Nat)
  | removeFirst (list : Nat)
  | removeLast (list : Nat)
  | concat (this list : Nat)

inductive ListResult (α : Type) where
  | undefined
  | node (i : Nat)
  | value (v : Option α)
  | error (text : String)
  deriving DecidableEq

variable {α σ : Type}

def runOps (step : σ → ListOp α → σ × ListResult α) : σ → List (ListOp α) → σ × List (ListResult α)
  | s, [] => (s, [])
  | s, op :: ops => ((runOps step (step s op).1 ops).1, (step s op).2 :: (runOps step (step s op).1 ops).2)

/-! ## The lists -/

structure ListWorld (α : Type) where
  heap : NodeHeap α
  lists : List LinkedList

namespace ListWorld

open LinkedList (newNode insertInBetween insertNew joinLinks valueAt iterFrom iterBackFrom Repr)

def empty : ListWorld α := ⟨[], []⟩

def list (w : ListWorld α) (k : Nat) : LinkedList := w.lists.getD k .empty

def setList (w : ListWorld α) (k : Nat) (l : LinkedList) : ListWorld α := { w with lists := w.lists.set k l }

def concat (w : ListWorld α) (this list : Nat) : ListWorld α :=
  if (w.list list).count = 0 then w else
    let w : ListWorld α := { w with heap := joinLinks w.heap (w.list this).tail (w.list list).head }
    let w := w.setList this { w.list this with tail := (w.list list).tail }
    let w := w.setList this { w.list this with count := (w.list this).count + (w.list list).count }
    let w := w.setList list { w.list list with count := 0 }
    let w := w.setList list { w.list list with head := none }
    w.setList list { w.list list with tail := none }

def step (w : ListWorld α) : ListOp α → ListWorld α × ListResult α
  | .create => ({ w with lists := w.lists ++ [.empty] }, .undefined)
  | .addFirst k v =>
    let (h, l, node) := LinkedList.addFirst w.heap (w.list k) v
    (⟨h, w.lists.set k l⟩, .node node)
  | .addLast k v =>
    let (h, l, node) := LinkedList.addLast w.heap (w.list k) v
    (⟨h, w.lists.set k l⟩, .node node)
  | .addBefore k node v =>
    match LinkedList.addBefore w.heap (w.list k) node v with
    | .ok (h, l, new) => (⟨h, w.lists.set k l⟩, .node new)
    | .error text => (w, .error text)
  | .addAfter k node v =>
    match LinkedList.addAfter w.heap (w.list k) node v with
    | .ok (h, l, new) => (⟨h, w.lists.set k l⟩, .node new)
    | .error text => (w, .error text)
  | .remove k node =>
    let (h, l) := LinkedList.remove w.heap (w.list k) node
    (⟨h, w.lists.set k l⟩, .undefined)
  | .removeFirst k =>
    let (h, l, v) := LinkedList.removeFirst w.heap (w.list k)
    (⟨h, w.lists.set k l⟩, .value v)
  | .removeLast k =>
    let (h, l, v) := LinkedList.removeLast w.heap (w.list k)
    (⟨h, w.lists.set k l⟩, .value v)
  | .concat this list => (w.concat this list, .undefined)

end ListWorld

/-! ## The sequences -/

/-- How many nodes there were, those that were removed, and the nodes of each list with their values. -/
structure Sequences (α : Type) where
  created : Nat
  removed : List Nat
  lists : List (List (Nat × α))

namespace Sequences

def empty : Sequences α := ⟨0, [], []⟩

def seq (s : Sequences α) (k : Nat) : List (Nat × α) := s.lists.getD k []

def ids (s : Sequences α) (k : Nat) : List Nat := (s.seq k).map Prod.fst

def add (s : Sequences α) (k : Nat) (seq : List (Nat × α)) : Sequences α × ListResult α :=
  ({ s with created := s.created + 1, lists := s.lists.set k seq }, .node s.created)

def take (s : Sequences α) (k node : Nat) (rest : List (Nat × α)) : Sequences α :=
  { s with removed := node :: s.removed, lists := s.lists.set k rest }

def step (s : Sequences α) : ListOp α → Sequences α × ListResult α
  | .create => ({ s with lists := s.lists ++ [[]] }, .undefined)
  | .addFirst k v => s.add k ((s.created, v) :: s.seq k)
  | .addLast k v => s.add k (s.seq k ++ [(s.created, v)])
  | .addBefore k node v =>
    if node ∈ s.removed then (s, .error "Node was removed")
    else s.add k ((s.seq k).flatMap fun p => if p.1 = node then [(s.created, v), p] else [p])
  | .addAfter k node v =>
    if node ∈ s.removed then (s, .error "Node was removed")
    else s.add k ((s.seq k).flatMap fun p => if p.1 = node then [p, (s.created, v)] else [p])
  | .remove k node =>
    if node ∈ s.removed then (s, .undefined) else (s.take k node ((s.seq k).filter fun p => p.1 ≠ node), .undefined)
  | .removeFirst k =>
    match (s.seq k).head? with
    | none => (s, .value none)
    | some p => (s.take k p.1 (s.seq k).tail, .value (some p.2))
  | .removeLast k =>
    match (s.seq k).getLast? with
    | none => (s, .value none)
    | some p => (s.take k p.1 (s.seq k).dropLast, .value (some p.2))
  | .concat this list => ({ s with lists := (s.lists.set this (s.seq this ++ s.seq list)).set list [] }, .undefined)

/-- The lists exist, and a node is used with the list that holds it, or was removed. -/
def Admissible (s : Sequences α) : ListOp α → Prop
  | .create => True
  | .addFirst k _ | .addLast k _ | .removeFirst k | .removeLast k => k < s.lists.length
  | .addBefore k node _ | .addAfter k node _ | .remove k node =>
      k < s.lists.length ∧ (node ∈ s.removed ∨ node ∈ s.ids k)
  | .concat this list => this < s.lists.length ∧ list < s.lists.length

def KeepsHead (s : Sequences α) : ListOp α → Prop
  | .concat this list => s.ids list = [] ∨ s.ids this ≠ []
  | _ => True

def Fits (ok : Sequences α → ListOp α → Prop) : Sequences α → List (ListOp α) → Prop
  | _, [] => True
  | s, op :: ops => ok s op ∧ Fits ok (s.step op).1 ops

end Sequences

/-- What the lists show is what the sequences say: more rounds than a list has nodes change nothing. -/
structure ListWorld.Agrees (w : ListWorld α) (s : Sequences α) : Prop where
  lists : w.lists.length = s.lists.length
  length : ∀ k, (w.list k).count = (s.seq k).length
  first : ∀ k, (w.list k).head = (s.seq k).head?.map Prod.fst
  last : ∀ k, (w.list k).tail = (s.seq k).getLast?.map Prod.fst
  forward : ∀ k fuel, (s.seq k).length ≤ fuel →
    LinkedList.iterFrom w.heap fuel (w.list k).head = (s.seq k).map Prod.snd
  backward : ∀ k fuel, (s.seq k).length ≤ fuel →
    LinkedList.iterBackFrom w.heap fuel (w.list k).tail = ((s.seq k).map Prod.snd).reverse

/-! ## The invariant -/

namespace ListWorld

open LinkedList (newNode insertInBetween insertNew joinLinks valueAt iterFrom iterBackFrom Repr)

/-- Each list links the nodes of its sequence, which no other list holds, and the removed nodes are marked. -/
structure Linked (w : ListWorld α) (s : Sequences α) : Prop where
  created : s.created = w.heap.length
  lists : w.lists.length = s.lists.length
  repr : ∀ k, Repr w.heap (w.list k) (s.ids k)
  value : ∀ k, ∀ p ∈ s.seq k, valueAt w.heap p.1 = some p.2
  disjoint : ∀ k k', k ≠ k' → (s.ids k).Disjoint (s.ids k')
  removed : ∀ i ∈ s.removed, ∃ n, w.heap[i]? = some n ∧ n.removed = true

theorem filterMap_valueAt {h : NodeHeap α} {seq : List (Nat × α)} (hvalue : ∀ p ∈ seq, valueAt h p.1 = some p.2) :
    (seq.map Prod.fst).filterMap (valueAt h) = seq.map Prod.snd := by
  induction seq with
  | nil => rfl
  | cons p seq ih =>
    have hp := hvalue p (List.mem_cons_self ..)
    have hrest := ih fun q hq => hvalue q (List.mem_cons_of_mem p hq)
    rw [List.map_cons, List.filterMap_cons, hp, hrest, List.map_cons]

theorem Linked.agrees {w : ListWorld α} {s : Sequences α} (hl : w.Linked s) : w.Agrees s where
  lists := hl.lists
  length k := by
    rw [(hl.repr k).count, Sequences.ids, List.length_map]
  first k := by
    rw [(hl.repr k).head, Sequences.ids, List.head?_map]
  last k := by
    rw [(hl.repr k).tail, Sequences.ids, List.getLast?_map]
  forward k fuel hfuel := by
    rw [(hl.repr k).iterFrom (by rwa [Sequences.ids, List.length_map])]
    exact filterMap_valueAt (hl.value k)
  backward k fuel hfuel := by
    rw [(hl.repr k).iterBackFrom (by rwa [Sequences.ids, List.length_map]), List.filterMap_reverse]
    exact congrArg List.reverse (filterMap_valueAt (hl.value k))

theorem linked_empty : (empty : ListWorld α).Linked Sequences.empty where
  created := rfl
  lists := rfl
  repr _ := LinkedList.repr_empty _
  value _ _ hp := nomatch hp
  disjoint _ _ _ := List.disjoint_nil_left _
  removed _ hi := nomatch hi

theorem list_set {w : ListWorld α} {k : Nat} (hk : k < w.lists.length) (h : NodeHeap α) (l : LinkedList) (m : Nat) :
    (⟨h, w.lists.set k l⟩ : ListWorld α).list m = if m = k then l else w.list m := by
  unfold list
  rw [List.getD_eq_getElem?_getD, List.getElem?_set, List.getD_eq_getElem?_getD]
  split_ifs with h₁ h₂ h₂
  · rfl
  · exact absurd h₁.symm h₂
  · exact absurd h₂.symm h₁
  · rfl

theorem set_list {w : ListWorld α} {k : Nat} (hk : k < w.lists.length) : w.lists.set k (w.list k) = w.lists := by
  rw [list, List.getD_eq_getElem?_getD, List.getElem?_eq_getElem hk, Option.getD_some, List.set_getElem_self]

end ListWorld

theorem Sequences.seq_set {s : Sequences α} {k : Nat} (hk : k < s.lists.length) (created : Nat) (removed : List Nat)
    (seq : List (Nat × α)) (m : Nat) :
    (⟨created, removed, s.lists.set k seq⟩ : Sequences α).seq m = if m = k then seq else s.seq m := by
  unfold Sequences.seq
  rw [List.getD_eq_getElem?_getD, List.getElem?_set, List.getD_eq_getElem?_getD]
  split_ifs with h₁ h₂ h₂
  · rfl
  · exact absurd h₁.symm h₂
  · exact absurd h₂.symm h₁
  · rfl

theorem Sequences.set_seq {s : Sequences α} {k : Nat} (hk : k < s.lists.length) :
    s.lists.set k (s.seq k) = s.lists := by
  rw [Sequences.seq, List.getD_eq_getElem?_getD, List.getElem?_eq_getElem hk, Option.getD_some,
    List.set_getElem_self]

theorem fst_ne_of_nodup {a b : List (Nat × α)} {p : Nat × α} (hnodup : ((a ++ p :: b).map Prod.fst).Nodup) :
    (∀ q ∈ a, q.1 ≠ p.1) ∧ ∀ q ∈ b, q.1 ≠ p.1 := by
  rw [List.map_append, List.map_cons, List.nodup_middle, List.nodup_cons, List.mem_append, not_or] at hnodup
  exact ⟨fun q hq he => hnodup.1.1 (he ▸ List.mem_map_of_mem hq),
    fun q hq he => hnodup.1.2 (he ▸ List.mem_map_of_mem hq)⟩

theorem flatMap_of_ne {node : Nat} {f : Nat × α → List (Nat × α)} {a : List (Nat × α)} (h : ∀ q ∈ a, q.1 ≠ node) :
    (a.flatMap fun q => if q.1 = node then f q else [q]) = a := by
  induction a with
  | nil => rfl
  | cons q a ih =>
    have hrest := ih fun r hr => h r (List.mem_cons_of_mem q hr)
    rw [List.flatMap_cons, hrest, if_neg (h q (List.mem_cons_self ..))]
    rfl

theorem flatMap_at {a b : List (Nat × α)} {p : Nat × α} (hnodup : ((a ++ p :: b).map Prod.fst).Nodup)
    (f : Nat × α → List (Nat × α)) :
    ((a ++ p :: b).flatMap fun q => if q.1 = p.1 then f q else [q]) = a ++ f p ++ b := by
  obtain ⟨ha, hb⟩ := fst_ne_of_nodup hnodup
  rw [List.flatMap_append, List.flatMap_cons, flatMap_of_ne ha, flatMap_of_ne hb, if_pos rfl, List.append_assoc]

theorem filter_at {a b : List (Nat × α)} {p : Nat × α} (hnodup : ((a ++ p :: b).map Prod.fst).Nodup) :
    ((a ++ p :: b).filter fun q => q.1 ≠ p.1) = a ++ b := by
  obtain ⟨ha, hb⟩ := fst_ne_of_nodup hnodup
  rw [List.filter_append, List.filter_cons_of_neg (by simp),
    List.filter_eq_self.mpr fun q hq => decide_eq_true (ha q hq),
    List.filter_eq_self.mpr fun q hq => decide_eq_true (hb q hq)]

namespace ListWorld

open LinkedList (newNode insertInBetween insertNew joinLinks valueAt iterFrom iterBackFrom Repr)

section
variable {w : ListWorld α} {s : Sequences α} (hl : w.Linked s)
include hl

theorem Linked.lt_length {k i : Nat} (hi : i ∈ s.ids k) : i < w.heap.length := (hl.repr k).lt_length hi

theorem Linked.removed_lt {i : Nat} (hi : i ∈ s.removed) : i < w.heap.length := by
  obtain ⟨n, hn, _⟩ := hl.removed i hi
  exact (List.getElem?_eq_some_iff.mp hn).1

theorem Linked.not_removed {k i : Nat} (hi : i ∈ s.ids k) : i ∉ s.removed := by
  intro hremoved
  obtain ⟨n, hn, hflag⟩ := hl.removed i hremoved
  obtain ⟨m, hm, hnot⟩ := (hl.repr k).get_of_mem hi
  obtain rfl : n = m := by simpa using hn.symm.trans hm
  rw [hflag] at hnot
  cases hnot

/-- An operation on one list, which touches nodes of its own or new ones. -/
theorem Linked.update {k : Nat} (hk : k < s.lists.length) (removed : List Nat) {h : NodeHeap α} {l : LinkedList}
    {seq : List (Nat × α)} (hrepr : Repr h l (seq.map Prod.fst)) (hvalue : ∀ p ∈ seq, valueAt h p.1 = some p.2)
    (hframe : ∀ j, j ∉ s.ids k → j < w.heap.length → h[j]? = w.heap[j]?)
    (hmem : ∀ i ∈ seq.map Prod.fst, i ∈ s.ids k ∨ w.heap.length ≤ i)
    (hremoved : ∀ i ∈ removed, i ∈ s.removed ∨ ∃ n, h[i]? = some n ∧ n.removed = true) :
    Linked ⟨h, w.lists.set k l⟩ ⟨h.length, removed, s.lists.set k seq⟩ := by
  have hk' : k < w.lists.length := hl.lists ▸ hk
  have hother {m : Nat} (hm : m ≠ k) {i : Nat} (hi : i ∈ s.ids m) : i ∉ s.ids k := hl.disjoint m k hm hi
  have hids (m : Nat) : Sequences.ids ⟨h.length, removed, s.lists.set k seq⟩ m =
      if m = k then seq.map Prod.fst else s.ids m := by
    unfold Sequences.ids
    rw [Sequences.seq_set hk]
    split_ifs <;> rfl
  have hapart {m : Nat} (hm : m ≠ k) : (s.ids m).Disjoint (seq.map Prod.fst) := by
    intro i hi hseq
    rcases hmem i hseq with hin | hnew
    · exact hother hm hi hin
    · exact absurd (hl.lt_length hi) (Nat.not_lt.mpr hnew)
  refine ⟨rfl, ?_, ?_, ?_, ?_, ?_⟩
  · rw [List.length_set, List.length_set, hl.lists]
  · intro m
    rw [list_set hk', hids]
    split_ifs with hm
    · exact hrepr
    · exact (hl.repr m).congr fun i hi => hframe i (hother hm hi) (hl.lt_length hi)
  · intro m p hp
    rw [Sequences.seq_set hk] at hp
    split_ifs at hp with hm
    · exact hvalue p hp
    · have hi : p.1 ∈ s.ids m := List.mem_map_of_mem hp
      rw [valueAt, hframe p.1 (hother hm hi) (hl.lt_length hi)]
      exact hl.value m p hp
  · intro m m' hne
    rw [hids, hids]
    split_ifs with hm hm' hm'
    · exact absurd (hm.trans hm'.symm) hne
    · exact fun _ hseq hi => hapart hm' hi hseq
    · exact hapart hm
    · exact hl.disjoint m m' hne
  · intro i hi
    rcases hremoved i hi with hold | hnew
    · rw [hframe i (fun hin => hl.not_removed hin hold) (hl.removed_lt hold)]
      exact hl.removed i hold
    · exact hnew

/-! ## One operation -/

theorem Linked.insert {k : Nat} (hk : k < s.lists.length) {a b : List (Nat × α)} (hseq : s.seq k = a ++ b) (v : α) :
    Linked ⟨(insertNew w.heap (w.list k) v (a.map Prod.fst).getLast? (b.map Prod.fst).head?).1,
      w.lists.set k (insertNew w.heap (w.list k) v (a.map Prod.fst).getLast? (b.map Prod.fst).head?).2⟩
      (s.add k (a ++ (s.created, v) :: b)).1 := by
  have hids : s.ids k = a.map Prod.fst ++ b.map Prod.fst := by rw [Sequences.ids, hseq, List.map_append]
  have hr : Repr w.heap (w.list k) (a.map Prod.fst ++ b.map Prod.fst) := hids ▸ hl.repr k
  have hnew : (a ++ (s.created, v) :: b).map Prod.fst = a.map Prod.fst ++ w.heap.length :: b.map Prod.fst := by
    rw [List.map_append, List.map_cons, hl.created]
  have h := hl.update hk s.removed (hnew ▸ hr.insertNew v) ?_ ?_ ?_ fun i hi => Or.inl hi
  · rwa [LinkedList.insertNew_length, ← hl.created] at h
  · intro p hp
    rw [hr.insertNew_valueAt]
    rcases List.mem_append.mp hp with ha | hb
    · have hin : p ∈ s.seq k := hseq ▸ List.mem_append_left b ha
      rw [if_neg (Nat.ne_of_lt (hl.lt_length (List.mem_map_of_mem hin))), hl.value k p hin]
    · rcases List.mem_cons.mp hb with rfl | hb
      · rw [if_pos hl.created]
      · have hin : p ∈ s.seq k := hseq ▸ List.mem_append_right a hb
        rw [if_neg (Nat.ne_of_lt (hl.lt_length (List.mem_map_of_mem hin))), hl.value k p hin]
  · exact fun j hj hlt => hr.insertNew_frame v (hids ▸ hj) hlt
  · intro i hi
    rw [hnew, List.mem_append, List.mem_cons] at hi
    rw [hids, List.mem_append]
    rcases hi with ha | rfl | hb
    · exact Or.inl (Or.inl ha)
    · exact Or.inr (Nat.le_refl _)
    · exact Or.inl (Or.inr hb)

theorem Linked.remove {k : Nat} (hk : k < s.lists.length) {a b : List (Nat × α)} {p : Nat × α}
    (hseq : s.seq k = a ++ p :: b) :
    Linked ⟨(LinkedList.remove w.heap (w.list k) p.1).1, w.lists.set k (LinkedList.remove w.heap (w.list k) p.1).2⟩
      (s.take k p.1 (a ++ b)) := by
  have hids : s.ids k = a.map Prod.fst ++ p.1 :: b.map Prod.fst := by
    rw [Sequences.ids, hseq, List.map_append, List.map_cons]
  have hr : Repr w.heap (w.list k) (a.map Prod.fst ++ p.1 :: b.map Prod.fst) := hids ▸ hl.repr k
  have hrest : (a ++ b).map Prod.fst = a.map Prod.fst ++ b.map Prod.fst := List.map_append
  have h := hl.update hk (p.1 :: s.removed) (hrest ▸ hr.remove) ?_ ?_ ?_ ?_
  · rwa [LinkedList.remove_length, ← hl.created] at h
  · intro q hq
    rw [hr.remove_valueAt]
    refine hl.value k q (hseq ▸ ?_)
    rcases List.mem_append.mp hq with ha | hb
    · exact List.mem_append_left _ ha
    · exact List.mem_append_right a (List.mem_cons_of_mem p hb)
  · exact fun j hj _ => hr.remove_frame (hids ▸ hj)
  · intro i hi
    rw [hrest, List.mem_append] at hi
    rw [hids, List.mem_append, List.mem_cons]
    rcases hi with ha | hb
    · exact Or.inl (Or.inl ha)
    · exact Or.inl (Or.inr (Or.inr hb))
  · intro i hi
    rcases List.mem_cons.mp hi with rfl | hi
    · obtain ⟨n, hn, _⟩ := hr.node _ _ _ rfl
      refine Or.inr ⟨_, by rw [hr.remove_get, hn]; rfl, if_pos rfl⟩
    · exact Or.inl hi

theorem Linked.nodup {k : Nat} {a b : List (Nat × α)} (hseq : s.seq k = a ++ b) :
    ((a ++ b).map Prod.fst).Nodup := by
  rw [← hseq]
  exact (hl.repr k).nodup

theorem Linked.node {k node : Nat} (hnode : node ∈ s.ids k) : ∃ a p b nd, s.seq k = a ++ p :: b ∧ p.1 = node ∧
    w.heap[node]? = some nd ∧ nd.removed = false ∧ nd.prev = (a.map Prod.fst).getLast? ∧
      nd.next = (b.map Prod.fst).head? := by
  obtain ⟨p, hp, rfl⟩ := List.mem_map.mp hnode
  obtain ⟨a, b, hseq⟩ := List.append_of_mem hp
  have hids : s.ids k = a.map Prod.fst ++ p.1 :: b.map Prod.fst := by
    rw [Sequences.ids, hseq, List.map_append, List.map_cons]
  obtain ⟨nd, hnd⟩ := (hl.repr k).node _ _ _ hids
  exact ⟨a, p, b, nd, hseq, rfl, hnd⟩

theorem Linked.create : Linked { w with lists := w.lists ++ [.empty] } { s with lists := s.lists ++ [[]] } := by
  have hlist (m : Nat) : ListWorld.list ⟨w.heap, w.lists ++ [.empty]⟩ m = w.list m := by
    unfold ListWorld.list
    rw [List.getD_eq_getElem?_getD, List.getD_eq_getElem?_getD, List.getElem?_append]
    split_ifs with hm
    · rfl
    · rw [List.getElem?_eq_none (Nat.le_of_not_lt hm)]
      cases m - w.lists.length <;> rfl
  have hseq (m : Nat) : Sequences.seq ⟨s.created, s.removed, s.lists ++ [[]]⟩ m = s.seq m := by
    unfold Sequences.seq
    rw [List.getD_eq_getElem?_getD, List.getD_eq_getElem?_getD, List.getElem?_append]
    split_ifs with hm
    · rfl
    · rw [List.getElem?_eq_none (Nat.le_of_not_lt hm)]
      cases m - s.lists.length <;> rfl
  have hids (m : Nat) : Sequences.ids ⟨s.created, s.removed, s.lists ++ [[]]⟩ m = s.ids m := by
    rw [Sequences.ids, hseq, Sequences.ids]
  refine ⟨hl.created, ?_, ?_, ?_, ?_, hl.removed⟩
  · rw [List.length_append, List.length_append, hl.lists]
    rfl
  · intro m
    rw [hlist, hids]
    exact hl.repr m
  · intro m p hp
    rw [hseq] at hp
    exact hl.value m p hp
  · intro m m' hne
    rw [hids, hids]
    exact hl.disjoint m m' hne

end

/-! ## `concat` -/

theorem setList_setList (w : ListWorld α) (k : Nat) (l l' : LinkedList) :
    (w.setList k l).setList k l' = w.setList k l' := by
  unfold setList
  rw [List.set_set]

theorem list_setList {w : ListWorld α} {k : Nat} (hk : k < w.lists.length) (l : LinkedList) :
    (w.setList k l).list k = l := by
  rw [setList, list_set hk, if_pos rfl]

theorem list_setList_of_ne {w : ListWorld α} {k m : Nat} (hk : k < w.lists.length) (hm : m ≠ k) (l : LinkedList) :
    (w.setList k l).list m = w.list m := by
  rw [setList, list_set hk, if_neg hm]

theorem lists_length_setList (w : ListWorld α) (k : Nat) (l : LinkedList) :
    (w.setList k l).lists.length = w.lists.length :=
  List.length_set

theorem concat_self {w : ListWorld α} {k : Nat} (hk : k < w.lists.length) (hcount : (w.list k).count ≠ 0) :
    w.concat k k = setList ⟨joinLinks w.heap (w.list k).tail (w.list k).head, w.lists⟩ k .empty := by
  unfold concat
  rw [if_neg hcount]
  simp only [setList_setList, list_setList (w := ⟨joinLinks w.heap (w.list k).tail (w.list k).head, w.lists⟩) hk]
  rfl

theorem concat_of_ne {w : ListWorld α} {this list : Nat} (hthis : this < w.lists.length)
    (hlist : list < w.lists.length)
    (hne : this ≠ list) (hcount : (w.list list).count ≠ 0) :
    w.concat this list = setList (setList ⟨joinLinks w.heap (w.list this).tail (w.list list).head, w.lists⟩ this
      ⟨(w.list this).head, (w.list list).tail, (w.list this).count + (w.list list).count⟩) list .empty := by
  unfold concat
  rw [if_neg hcount]
  have hother (l : LinkedList) :
    (setList ⟨joinLinks w.heap (w.list this).tail (w.list list).head, w.lists⟩ this l).list list =
      w.list list := list_setList_of_ne (w := ⟨_, w.lists⟩) hthis hne.symm l
  have hown (l : LinkedList) :
      (setList ⟨joinLinks w.heap (w.list this).tail (w.list list).head, w.lists⟩ this l).list this = l :=
    list_setList (w := ⟨_, w.lists⟩) hthis l
  have hlast (l l' : LinkedList) :
    (setList (setList ⟨joinLinks w.heap (w.list this).tail (w.list list).head, w.lists⟩ this l)
      list l').list list = l' := list_setList ((lists_length_setList _ _ _).symm ▸ hlist) l'
  simp only [setList_setList, hother, hown, hlast]
  rfl

section
variable {w : ListWorld α} {s : Sequences α} (hl : w.Linked s)
include hl

theorem Linked.count_eq_zero {k : Nat} : (w.list k).count = 0 ↔ s.ids k = [] := by
  rw [(hl.repr k).count, Int.natCast_eq_zero, List.length_eq_zero_iff]

theorem Linked.joinLinks_frame {this list j : Nat} (hthis : j ∉ s.ids this) (hlist : j ∉ s.ids list) :
    (joinLinks w.heap (w.list this).tail (w.list list).head)[j]? = w.heap[j]? := by
  refine LinkedList.joinLinks_frame (fun hlast => hthis ?_) fun hhead => hlist ?_
  · exact List.mem_of_getLast? ((hl.repr this).tail ▸ hlast)
  · exact List.mem_of_head? ((hl.repr list).head ▸ hhead)

theorem Linked.concat_self {k : Nat} (hk : k < s.lists.length) (hcount : (w.list k).count ≠ 0) :
    Linked (w.concat k k) { s with lists := s.lists.set k [] } := by
  have h : Linked ⟨joinLinks w.heap (w.list k).tail (w.list k).head, w.lists.set k .empty⟩
      ⟨(joinLinks w.heap (w.list k).tail (w.list k).head).length, s.removed, s.lists.set k []⟩ :=
    hl.update hk s.removed (LinkedList.repr_empty _) (fun _ hp => nomatch hp)
      (fun _ hj _ => hl.joinLinks_frame hj hj)
      (fun _ hi => nomatch hi) fun _ hi => Or.inl hi
  rw [LinkedList.joinLinks_length, ← hl.created] at h
  rw [ListWorld.concat_self (hl.lists ▸ hk) hcount]
  exact h

theorem Linked.concat_of_ne {this list : Nat} (hthis : this < s.lists.length) (hlist : list < s.lists.length)
    (hne : this ≠ list)
    (hnonempty : s.ids list ≠ []) (hkeeps : s.ids this ≠ []) :
    Linked (w.concat this list) { s with lists := (s.lists.set this (s.seq this ++ s.seq list)).set list [] } := by
  have hthis' : this < w.lists.length := hl.lists ▸ hthis
  have hlist' : list < w.lists.length := hl.lists ▸ hlist
  have hafter := ListWorld.concat_of_ne hthis' hlist' hne (mt hl.count_eq_zero.mp hnonempty)
  have hw (m : Nat) : (w.concat this list).list m = if m = list then .empty else if m = this then
      ⟨(w.list this).head, (w.list list).tail, (w.list this).count + (w.list list).count⟩ else w.list m := by
    rw [hafter, setList, list_set (by rwa [lists_length_setList]), setList, list_set hthis']
  have hheap : (w.concat this list).heap = joinLinks w.heap (w.list this).tail (w.list list).head := by
    rw [hafter]
    rfl
  have hs (m : Nat) : Sequences.seq ⟨s.created, s.removed,
    (s.lists.set this (s.seq this ++ s.seq list)).set list []⟩ m =
      if m = list then [] else if m = this then s.seq this ++ s.seq list else s.seq m := by
    have hseq := Sequences.seq_set hthis s.created s.removed (s.seq this ++ s.seq list) m
    have hset :=
      Sequences.seq_set (s := ⟨s.created, s.removed, s.lists.set this (s.seq this ++ s.seq list)⟩) (k := list)
      (by rwa [List.length_set]) s.created s.removed [] m
    rw [hset, hseq]
  have hids (m : Nat) : Sequences.ids ⟨s.created, s.removed,
    (s.lists.set this (s.seq this ++ s.seq list)).set list []⟩ m =
      if m = list then [] else if m = this then s.ids this ++ s.ids list else s.ids m := by
    unfold Sequences.ids
    rw [hs]
    split_ifs
    · rfl
    · exact List.map_append
    · rfl
  have happend {m : Nat} (hm : m ≠ this) (hm' : m ≠ list) : (s.ids m).Disjoint (s.ids this ++ s.ids list) := by
    intro i hi hin
    rcases List.mem_append.mp hin with h | h
    · exact hl.disjoint m this hm hi h
    · exact hl.disjoint m list hm' hi h
  refine ⟨?_, ?_, ?_, ?_, ?_, ?_⟩
  · rw [hheap, LinkedList.joinLinks_length]
    exact hl.created
  · rw [hafter, lists_length_setList, lists_length_setList, List.length_set, List.length_set]
    exact hl.lists
  · intro m
    rw [hw, hids, hheap]
    split_ifs with hm hm'
    · exact LinkedList.repr_empty _
    · exact (hl.repr this).join (hl.repr list) hkeeps hnonempty (hl.disjoint this list hne)
    · exact (hl.repr m).congr fun i hi => hl.joinLinks_frame (hl.disjoint m this hm' hi) (hl.disjoint m list hm hi)
  · intro m p hp
    rw [hheap, LinkedList.joinLinks_valueAt]
    rw [hs] at hp
    split_ifs at hp with hm hm'
    · cases hp
    · rcases List.mem_append.mp hp with h | h
      · exact hl.value this p h
      · exact hl.value list p h
    · exact hl.value m p hp
  · intro m m' hmm
    rw [hids, hids]
    by_cases hm : m = list
    · rw [if_pos hm]
      exact List.disjoint_nil_left _
    by_cases hm' : m' = list
    · rw [if_pos hm']
      exact List.disjoint_nil_right _
    rw [if_neg hm, if_neg hm']
    split_ifs with hn hn' hn'
    · exact absurd (hn.trans hn'.symm) hmm
    · exact fun _ hin hi => happend hn' hm' hi hin
    · exact happend hn hm
    · exact hl.disjoint m m' hmm
  · intro i hi
    rw [hheap, hl.joinLinks_frame (fun h => hl.not_removed h hi) fun h => hl.not_removed h hi]
    exact hl.removed i hi

theorem Linked.concat {this list : Nat} (hthis : this < s.lists.length) (hlist : list < s.lists.length)
    (hkeeps : s.ids list = [] ∨ s.ids this ≠ []) :
    Linked (w.concat this list) { s with lists := (s.lists.set this (s.seq this ++ s.seq list)).set list [] } := by
  by_cases hempty : s.ids list = []
  · have hseq : s.seq list = [] := List.map_eq_nil_iff.mp hempty
    have hown : s.lists.set this (s.seq this) = s.lists := Sequences.set_seq hthis
    have hother : s.lists.set list (s.seq list) = s.lists := Sequences.set_seq hlist
    rw [hseq] at hother
    rw [ListWorld.concat, if_pos (hl.count_eq_zero.mpr hempty), hseq, List.append_nil, hown, hother]
    exact hl
  · by_cases hne : this = list
    · subst hne
      rw [List.set_set]
      exact hl.concat_self hthis (mt hl.count_eq_zero.mp hempty)
    · exact hl.concat_of_ne hthis hlist hne hempty (hkeeps.resolve_left hempty)

/-! ## Runs -/

theorem Linked.step_insert {k : Nat} (hk : k < s.lists.length) {op : ListOp α} {a b : List (Nat × α)}
    (hseq : s.seq k = a ++ b) {v : α}
    (hw : w.step op = (⟨(insertNew w.heap (w.list k) v (a.map Prod.fst).getLast? (b.map Prod.fst).head?).1,
      w.lists.set k (insertNew w.heap (w.list k) v (a.map Prod.fst).getLast? (b.map Prod.fst).head?).2⟩,
        .node w.heap.length))
    (hs : s.step op = s.add k (a ++ (s.created, v) :: b)) :
    Linked (w.step op).1 (s.step op).1 ∧ (w.step op).2 = (s.step op).2 := by
  rw [hw, hs]
  exact ⟨hl.insert hk hseq v, congrArg ListResult.node hl.created.symm⟩

theorem Linked.step {op : ListOp α} (hadmissible : s.Admissible op) (hkeeps : s.KeepsHead op) :
    Linked (w.step op).1 (s.step op).1 ∧ (w.step op).2 = (s.step op).2 := by
  cases op with
  | create => exact ⟨hl.create, rfl⟩
  | addFirst k v =>
    refine hl.step_insert hadmissible (List.nil_append (s.seq k)).symm (v := v) ?_ rfl
    have hhead : ((s.seq k).map Prod.fst).head? = (w.list k).head := (hl.repr k).head.symm
    rw [hhead]
    rfl
  | addLast k v =>
    refine hl.step_insert hadmissible (List.append_nil (s.seq k)).symm (v := v) ?_ rfl
    have hlast : ((s.seq k).map Prod.fst).getLast? = (w.list k).tail := (hl.repr k).tail.symm
    rw [hlast]
    rfl
  | addBefore k node v =>
    obtain ⟨hk, hremoved | hnode⟩ := hadmissible
    · obtain ⟨n, hn, hflag⟩ := hl.removed node hremoved
      simp only [ListWorld.step, LinkedList.addBefore, hn, hflag, if_true, Sequences.step, hremoved, and_true]
      exact hl
    · obtain ⟨a, p, b, nd, hseq, rfl, hnd, hflag, hprev, _⟩ := hl.node hnode
      refine hl.step_insert hk hseq (v := v) ?_ ?_
      · simp only [ListWorld.step, LinkedList.addBefore, hnd, hflag, hprev]
        rfl
      · have hplace := flatMap_at (hl.nodup hseq) fun q => [(s.created, v), q]
        rw [Sequences.step, if_neg (hl.not_removed hnode), hseq, hplace, List.append_assoc]
        rfl
  | addAfter k node v =>
    obtain ⟨hk, hremoved | hnode⟩ := hadmissible
    · obtain ⟨n, hn, hflag⟩ := hl.removed node hremoved
      simp only [ListWorld.step, LinkedList.addAfter, hn, hflag, if_true, Sequences.step, hremoved, and_true]
      exact hl
    · obtain ⟨a, p, b, nd, hseq, rfl, hnd, hflag, _, hnext⟩ := hl.node hnode
      refine hl.step_insert hk (a := a ++ [p]) (b := b) (by rw [hseq, List.append_assoc]; rfl) (v := v) ?_ ?_
      · simp only [ListWorld.step, LinkedList.addAfter, hnd, hflag, hnext, List.map_append,
          List.map_cons, List.map_nil,
          List.getLast?_concat]
        rfl
      · have hplace := flatMap_at (hl.nodup hseq) fun q => [q, (s.created, v)]
        rw [Sequences.step, if_neg (hl.not_removed hnode), hseq, hplace, List.append_assoc, List.append_assoc]
        rfl
  | remove k node =>
    obtain ⟨hk, hremoved | hnode⟩ := hadmissible
    · obtain ⟨n, hn, hflag⟩ := hl.removed node hremoved
      simp only [ListWorld.step, LinkedList.remove, hn, hflag, if_true, Sequences.step, hremoved,
        set_list (hl.lists ▸ hk), and_true]
      exact hl
    · obtain ⟨a, p, b, nd, hseq, rfl, _⟩ := hl.node hnode
      have hrest := filter_at (hl.nodup hseq)
      rw [Sequences.step, if_neg (hl.not_removed hnode), hseq, hrest]
      exact ⟨hl.remove hk hseq, rfl⟩
  | removeFirst k =>
    have hk : k < s.lists.length := hadmissible
    rcases hseq : s.seq k with _ | ⟨p, b⟩
    · have hhead : (w.list k).head = none := by rw [(hl.repr k).head, Sequences.ids, hseq]; rfl
      simp only [ListWorld.step, LinkedList.removeFirst, hhead, Sequences.step, hseq, List.head?_nil,
        set_list (hl.lists ▸ hk),
        and_true]
      exact hl
    · have hhead : (w.list k).head = some p.1 := by rw [(hl.repr k).head, Sequences.ids, hseq]; rfl
      have hvalue : valueAt w.heap p.1 = some p.2 := hl.value k p (hseq ▸ List.mem_cons_self ..)
      have h := hl.remove hk (a := []) hseq
      simp only [ListWorld.step, LinkedList.removeFirst, hhead, Sequences.step, hseq, List.head?_cons,
        hvalue, and_true]
      exact h
  | removeLast k =>
    have hk : k < s.lists.length := hadmissible
    rcases List.eq_nil_or_concat' (s.seq k) with hseq | ⟨a, p, hseq⟩
    · have hlast : (w.list k).tail = none := by rw [(hl.repr k).tail, Sequences.ids, hseq]; rfl
      simp only [ListWorld.step, LinkedList.removeLast, hlast, Sequences.step, hseq, List.getLast?_nil,
        set_list (hl.lists ▸ hk),
        and_true]
      exact hl
    · have hlast : (w.list k).tail = some p.1 := by
        rw [(hl.repr k).tail, Sequences.ids, hseq, List.map_append]
        exact List.getLast?_concat
      have hvalue : valueAt w.heap p.1 = some p.2 :=
        hl.value k p (hseq ▸ List.mem_append_right a (List.mem_cons_self ..))
      have h := hl.remove hk (b := []) hseq
      simp only [ListWorld.step, LinkedList.removeLast, hlast, Sequences.step, hseq, List.getLast?_concat,
        List.dropLast_concat, hvalue,
        and_true]
      rwa [List.append_nil] at h
  | concat this list => exact ⟨hl.concat hadmissible.1 hadmissible.2 hkeeps, rfl⟩

/-- After `concat` onto a list without nodes its head is still null. -/
theorem Linked.head_concat {this list : Nat} (hthis : this < s.lists.length) (hlist : list < s.lists.length)
    (hempty : s.ids this = []) (hnonempty : s.ids list ≠ []) : ((w.concat this list).list this).head = none := by
  have hne : this ≠ list := by
    rintro rfl
    exact hnonempty hempty
  rw [ListWorld.concat_of_ne (hl.lists ▸ hthis) (hl.lists ▸ hlist) hne (mt hl.count_eq_zero.mp hnonempty),
    list_setList_of_ne (by rw [lists_length_setList]; exact hl.lists ▸ hlist) hne, list_setList (hl.lists ▸ hthis),
      (hl.repr this).head,
    hempty]
  rfl

theorem Linked.agrees_step_iff {op : ListOp α} (hadmissible : s.Admissible op) :
    Agrees (w.step op).1 (s.step op).1 ↔ s.KeepsHead op := by
  constructor
  · intro hagrees
    cases op with
    | concat this list =>
      by_contra hkeeps
      rw [Sequences.KeepsHead, not_or, not_not] at hkeeps
      obtain ⟨hthis, hlist⟩ := hadmissible
      have hne : this ≠ list := by
        rintro rfl
        exact hkeeps.1 hkeeps.2
      have hfirst := hagrees.first this
      have hset :=
        Sequences.seq_set (s := ⟨s.created, s.removed, s.lists.set this (s.seq this ++ s.seq list)⟩) (k := list)
        (by rwa [List.length_set]) s.created s.removed [] this
      rw [ListWorld.step, Sequences.step, hl.head_concat hthis hlist hkeeps.2 hkeeps.1, hset, if_neg hne,
        Sequences.seq_set hthis, if_pos rfl, List.map_eq_nil_iff.mp hkeeps.2, List.nil_append,
          ← List.head?_map] at hfirst
      exact hkeeps.1 (List.head?_eq_none_iff.mp hfirst.symm)
    | _ => trivial
  · exact fun hkeeps => (hl.step hadmissible hkeeps).1.agrees

end

theorem Linked.run (ops : List (ListOp α)) : ∀ {w : ListWorld α} {s : Sequences α}, w.Linked s →
    s.Fits (fun s op => s.Admissible op ∧ s.KeepsHead op) ops →
    Linked (runOps ListWorld.step w ops).1 (runOps Sequences.step s ops).1 ∧
      (runOps ListWorld.step w ops).2 = (runOps Sequences.step s ops).2 := by
  induction ops with
  | nil => exact fun hl _ => ⟨hl, rfl⟩
  | cons op ops ih =>
    intro w s hl hfits
    obtain ⟨⟨hadmissible, hkeeps⟩, hrest⟩ := hfits
    obtain ⟨hnext, hresult⟩ := hl.step hadmissible hkeeps
    obtain ⟨hlast, hresults⟩ := ih hnext hrest
    exact ⟨hlast, by rw [runOps, runOps, hresult, hresults]⟩

/-- In every run that puts no list with nodes behind one without, the lists are their sequences; and after
such a run one more operation keeps them so exactly if it does not either. -/
theorem run_agrees (ops : List (ListOp α))
    (hfits : Sequences.empty.Fits (fun s op => s.Admissible op ∧ s.KeepsHead op) ops) :
    Agrees (runOps ListWorld.step empty ops).1 (runOps Sequences.step Sequences.empty ops).1 ∧
    (runOps ListWorld.step empty ops).2 = (runOps Sequences.step Sequences.empty ops).2 ∧
    ∀ op, (runOps Sequences.step Sequences.empty ops).1.Admissible op →
      (Agrees ((runOps ListWorld.step empty ops).1.step op).1
        ((runOps Sequences.step Sequences.empty ops).1.step op).1 ↔
        (runOps Sequences.step Sequences.empty ops).1.KeepsHead op) := by
  obtain ⟨hl, hresults⟩ := Linked.run ops linked_empty hfits
  exact ⟨hl.agrees, hresults, fun op hadmissible => hl.agrees_step_iff hadmissible⟩

/-- A node is removed twice, and the second list is put behind the first. -/
theorem run_agrees_removed_twice : Agrees
    (runOps ListWorld.step empty [.create, .create, .addLast 0 'a', .addAfter 0 0 'b', .remove 0 0, .remove 0 0,
      .addFirst 1 'c',
      .concat 0 1]).1 ⟨3, [0], [[(1, 'b'), (2, 'c')], []]⟩ :=
  (run_agrees [.create, .create, .addLast 0 'a', .addAfter 0 0 'b', .remove 0 0, .remove 0 0, .addFirst 1 'c',
    .concat 0 1]
    (by simp [Sequences.Fits, Sequences.Admissible, Sequences.KeepsHead, Sequences.step, Sequences.empty,
      Sequences.seq, Sequences.ids,
      Sequences.add, Sequences.take])).1

/-- A list with one node is put behind a new list, which then has a last node and no first. -/
theorem not_run_agrees_concat_onto_empty : ¬∀ ops : List (ListOp Char),
    Sequences.empty.Fits Sequences.Admissible ops →
    Agrees (runOps ListWorld.step empty ops).1 (runOps Sequences.step Sequences.empty ops).1 := by
  intro h
  have hfits : Sequences.empty.Fits Sequences.Admissible [.create, .create, .addLast 1 'a', ListOp.concat 0 1] := by
    simp [Sequences.Fits, Sequences.Admissible, Sequences.step, Sequences.empty, Sequences.add]
  have hfirst := (h _ hfits).first 0
  revert hfirst
  decide

end ListWorld

end ConfluentKafka
