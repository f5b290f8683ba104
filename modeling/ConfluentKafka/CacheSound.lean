import ConfluentKafka.Cache
import ConfluentKafka.Leases

/-!
# The message cache refines leased queues

The cache stores one fact four times: the map, the two lists, the flag of each
PPC and the counters. `Sim` ties a cache to the leased queues it stands for,
through the node `nd p` that links the PPC `p` and the nodes `mi p` of its
messages, and every operation keeps it.
-/

namespace ConfluentKafka

open LinkedList

/-! ## Two lists over one heap -/

/-- `l₁` links the objects `xs` and `l₂` the objects `ys`, each through its own node `nd`. -/
structure Linked (h : NodeHeap Nat) (l₁ l₂ : LinkedList) (nd : Nat → Nat) (xs ys : List Nat) : Prop where
  left : LinkedList.Repr h l₁ (xs.map nd)
  right : LinkedList.Repr h l₂ (ys.map nd)
  disj : ∀ x ∈ xs, ∀ y ∈ ys, nd x ≠ nd y
  value : ∀ x, x ∈ xs ∨ x ∈ ys → valueAt h (nd x) = some x

namespace Linked

theorem empty (h : NodeHeap Nat) (nd : Nat → Nat) : Linked h .empty .empty nd [] [] where
  left := repr_empty h
  right := repr_empty h
  disj x hx := by simp at hx
  value x hx := by simp at hx

variable {h : NodeHeap Nat} {l₁ l₂ : LinkedList} {nd : Nat → Nat} {xs ys : List Nat}

theorem symm (hl : Linked h l₁ l₂ nd xs ys) : Linked h l₂ l₁ nd ys xs where
  left := hl.right
  right := hl.left
  disj x hx y hy := Ne.symm (hl.disj y hy x hx)
  value x hx := hl.value x hx.symm

theorem not_mem (hl : Linked h l₁ l₂ nd xs ys) {x : Nat} (hx : x ∈ xs) : x ∉ ys :=
  fun hy => hl.disj x hx x hy rfl

theorem nodup (hl : Linked h l₁ l₂ nd xs ys) : xs.Nodup := hl.left.nodup.of_map nd

theorem map_update {p v : Nat} (hp : p ∉ xs) : xs.map (Function.update nd p v) = xs.map nd :=
  List.map_congr_left fun _ hx => Function.update_of_ne (ne_of_mem_of_not_mem hx hp) _ _

theorem lt_length (hl : Linked h l₁ l₂ nd xs ys) {x : Nat} (hx : x ∈ xs ∨ x ∈ ys) : nd x < h.length := by
  rcases hx with hx | hx
  · exact hl.left.lt_length (List.mem_map_of_mem hx)
  · exact hl.right.lt_length (List.mem_map_of_mem hx)

theorem addLast (hl : Linked h l₁ l₂ nd xs ys) {p : Nat} (hx : p ∉ xs) (hy : p ∉ ys) :
    Linked (LinkedList.addLast h l₁ p).1 (LinkedList.addLast h l₁ p).2.1 l₂
      (Function.update nd p h.length) (xs ++ [p]) ys where
  left := by
    simpa [map_update hx] using hl.left.addLast p
  right := by
    rw [map_update hy]
    refine hl.right.congr fun i hi => hl.left.addLast_frame p ?_ (hl.right.lt_length hi)
    intro hm
    obtain ⟨x, hxm, hxi⟩ := List.mem_map.mp hm
    obtain ⟨y, hym, hyi⟩ := List.mem_map.mp hi
    exact hl.disj x hxm y hym (hxi.trans hyi.symm)
  disj x hxm y hym := by
    have hyp : y ≠ p := fun e => hy (e ▸ hym)
    rw [Function.update_of_ne hyp]
    rcases List.mem_append.mp hxm with hxm | hxm
    · have hxp : x ≠ p := fun e => hx (e ▸ hxm)
      rw [Function.update_of_ne hxp]
      exact hl.disj x hxm y hym
    · obtain rfl := List.mem_singleton.mp hxm
      rw [Function.update_self]
      exact Nat.ne_of_gt (hl.lt_length (.inr hym))
  value x hxm := by
    rw [hl.left.addLast_valueAt]
    by_cases hxp : x = p
    · subst hxp; simp
    · have hm : x ∈ xs ∨ x ∈ ys := by simpa [hxp] using hxm
      rw [Function.update_of_ne hxp, if_neg (Nat.ne_of_lt (hl.lt_length hm))]
      exact hl.value x hm

theorem remove {us vs : List Nat} {p : Nat} (hl : Linked h l₁ l₂ nd (us ++ p :: vs) ys) :
    Linked (LinkedList.remove h l₁ (nd p)).1 (LinkedList.remove h l₁ (nd p)).2 l₂ nd (us ++ vs) ys := by
  have hr : LinkedList.Repr h l₁ (us.map nd ++ nd p :: vs.map nd) := by simpa using hl.left
  refine ⟨by simpa using hr.remove, ?_, ?_, ?_⟩
  · refine hl.right.congr fun i hi => hr.remove_frame ?_
    intro hm
    obtain ⟨y, hym, rfl⟩ := List.mem_map.mp hi
    obtain ⟨x, hxm, hxi⟩ := List.mem_map.mp (show nd y ∈ (us ++ p :: vs).map nd by simpa using hm)
    exact hl.disj x hxm y hym hxi
  · intro x hx y hy
    exact hl.disj x (by simp at hx ⊢; tauto) y hy
  · intro x hx
    rw [hr.remove_valueAt]
    exact hl.value x (by simp at hx ⊢; tauto)

theorem remove_erase {p : Nat} (hl : Linked h l₁ l₂ nd xs ys) (hp : p ∈ xs) :
    Linked (LinkedList.remove h l₁ (nd p)).1 (LinkedList.remove h l₁ (nd p)).2 l₂ nd (xs.erase p) ys := by
  obtain ⟨us, vs, rfl⟩ := List.append_of_mem hp
  have hnd := hl.nodup
  have hpu : p ∉ us := by
    rw [List.nodup_middle, List.nodup_cons] at hnd
    exact fun hm => hnd.1 (List.mem_append_left _ hm)
  rw [List.erase_append_right _ hpu, List.erase_cons_head]
  exact hl.remove

end Linked

/-! ## The simulation -/

namespace MessageCache

variable {μ : Type}

def view (c : MessageCache μ) : Leases String μ where
  available := toList c.listNodes c.availablePartitions
  assigned := toList c.listNodes c.assignedPartitions
  key p := (c.ppcs[p]?.map (·.key)).getD ""
  queue p := (c.ppcs[p]?.map fun q => toList c.msgNodes q.cache).getD []
  fresh := c.ppcs.length

structure Sim (c : MessageCache μ) (a : Leases String μ) (nd : Nat → Nat) (mi : Nat → List Nat) : Prop where
  links : Linked c.listNodes c.availablePartitions c.assignedPartitions nd a.available a.assigned
  fresh : a.fresh = c.ppcs.length
  key : ∀ p P, c.ppcs[p]? = some P → a.key p = P.key
  msgs : ∀ p P, c.ppcs[p]? = some P → LinkedList.Repr c.msgNodes P.cache (mi p)
  queue : ∀ p P, c.ppcs[p]? = some P → (mi p).filterMap (valueAt c.msgNodes) = a.queue p
  flag : ∀ p P, c.ppcs[p]? = some P → (P.assigned = true ↔ p ∈ a.assigned)
  node : ∀ p ∈ a.live, ∃ P, c.ppcs[p]? = some P ∧ P.node = some (nd p)
  disj : ∀ p q, p < c.ppcs.length → q < c.ppcs.length → p ≠ q → ∀ i ∈ mi p, i ∉ mi q
  map : ∀ k p, c.tpToPpc.get? k = some p ↔ p ∈ a.live ∧ a.key p = k
  out : ∀ p, c.ppcs.length ≤ p → a.key p = "" ∧ a.queue p = []

theorem sim_new : Sim (new : MessageCache μ) ⟨[], [], fun _ => "", fun _ => [], 0⟩ id fun _ => [] where
  links := Linked.empty _ _
  fresh := rfl
  key p P h := by simp [new] at h
  msgs p P h := by simp [new] at h
  queue p P h := by simp [new] at h
  flag p P h := by simp [new] at h
  node p h := by simp [Leases.live] at h
  disj p q h := by simp [new] at h
  map k p := by simp [new, Leases.live]
  out p _ := ⟨rfl, rfl⟩

namespace Sim

variable {c : MessageCache μ} {a : Leases String μ} {nd : Nat → Nat} {mi : Nat → List Nat}

theorem toList_eq {l₁ l₂ : LinkedList} {h : NodeHeap Nat} {xs ys : List Nat} (hl : Linked h l₁ l₂ nd xs ys) :
    toList h l₁ = xs := by
  rw [hl.left.toList_eq, List.filterMap_map]
  exact (List.filterMap_congr fun x hx => hl.value x (.inl hx)).trans (List.filterMap_some ..)

theorem view_eq (hs : Sim c a nd mi) : c.view = a := by
  have hk : c.view.key = a.key := by
    funext p
    simp only [view]
    cases hp : c.ppcs[p]? with
    | none => simp [(hs.out p (by simpa using hp)).1]
    | some P => simp [hs.key p P hp]
  have hq : c.view.queue = a.queue := by
    funext p
    simp only [view]
    cases hp : c.ppcs[p]? with
    | none => simp [(hs.out p (by simpa using hp)).2]
    | some P => simp [← hs.queue p P hp, (hs.msgs p P hp).toList_eq]
  have ha : c.view.available = a.available := toList_eq hs.links
  have hb : c.view.assigned = a.assigned := toList_eq hs.links.symm
  have hf : c.view.fresh = a.fresh := hs.fresh.symm
  cases a
  cases hc : c.view
  simp_all

theorem get (hs : Sim c a nd mi) {p : Nat} (hp : p ∈ a.live) :
    ∃ P, c.ppcs[p]? = some P ∧ P.node = some (nd p) ∧ P.key = a.key p ∧ (P.assigned = true ↔ p ∈ a.assigned) := by
  obtain ⟨P, hP, hn⟩ := hs.node p hp
  exact ⟨P, hP, hn, (hs.key p P hP).symm, hs.flag p P hP⟩

theorem lt_fresh (hs : Sim c a nd mi) {p : Nat} (hp : p ∈ a.live) : p < c.ppcs.length := by
  obtain ⟨P, hP, _⟩ := hs.node p hp
  exact (List.getElem?_eq_some_iff.mp hP).1

theorem live_nodup (hs : Sim c a nd mi) : a.live.Nodup :=
  List.nodup_append.mpr ⟨hs.links.nodup, hs.links.symm.nodup,
    fun _ hx _ hy e => hs.links.not_mem hx (e ▸ hy)⟩

theorem key_inj (hs : Sim c a nd mi) {p q : Nat} (hp : p ∈ a.live) (hq : q ∈ a.live) (e : a.key p = a.key q) :
    p = q := by
  have h₁ := (hs.map (a.key q) p).mpr ⟨hp, e⟩
  rw [(hs.map (a.key q) q).mpr ⟨hq, rfl⟩] at h₁
  exact (Option.some.inj h₁).symm

theorem valid (hs : Sim c a nd mi) : a.Valid where
  nodup := hs.live_nodup
  lt_fresh _ hp := hs.fresh ▸ hs.lt_fresh hp
  unused p hp := (hs.out p (hs.fresh ▸ hp)).2
  key_inj _ hp _ hq e := hs.key_inj hp hq e

theorem find_eq (hs : Sim c a nd mi) (k : String) : a.find k = c.tpToPpc.get? k :=
  Option.ext fun p => hs.valid.find_eq_some.trans (hs.map k p).symm

theorem ppcAssigned_eq (hs : Sim c a nd mi) (p : Nat) : c.ppcAssigned p = decide (p ∈ a.assigned) := by
  unfold ppcAssigned
  cases hp : c.ppcs[p]? with
  | none =>
    have : p ∉ a.assigned := by
      intro hm
      obtain ⟨P, hP, _⟩ := hs.node p (List.mem_append_right _ hm)
      rw [hp] at hP; cases hP
    simp [this]
  | some P =>
    have := hs.flag p P hp
    cases hb : P.assigned <;> simp_all

theorem ppcSize_eq (hs : Sim c a nd mi) (p : Nat) : c.ppcSize p = (a.queue p).length := by
  unfold ppcSize
  cases hp : c.ppcs[p]? with
  | none => simp [(hs.out p (by simpa using hp)).2]
  | some P =>
    have hr := hs.msgs p P hp
    rw [← hs.queue p P hp, hr.filterMap_length]
    exact hr.count

/-! ## Messages of one PPC -/

/-- The message list of `p` is replaced; the nodes of the other PPCs are left alone. -/
theorem updateCache (hs : Sim c a nd mi) {p : Nat} {P : Ppc} (hP : c.ppcs[p]? = some P) {h' : NodeHeap μ}
    {l' : LinkedList} {ids' : List Nat} (hr : LinkedList.Repr h' l' ids')
    (hframe : ∀ i, i ∉ mi p → i < c.msgNodes.length → h'[i]? = c.msgNodes[i]?)
    (hids : ∀ i ∈ ids', i ∈ mi p ∨ c.msgNodes.length ≤ i) :
    Sim { c.modifyPpc p fun q => { q with cache := l' } with msgNodes := h' }
      (a.setQueue p (ids'.filterMap (valueAt h'))) nd (Function.update mi p ids') := by
  have hget : ∀ q Q, (c.ppcs.modify p fun q => { q with cache := l' })[q]? = some Q →
      ∃ Q₀, c.ppcs[q]? = some Q₀ ∧ Q = if q = p then { Q₀ with cache := l' } else Q₀ := by
    intro q Q hQ
    rw [List.getElem?_modify] at hQ
    cases hq : c.ppcs[q]? with
    | none => simp [hq] at hQ
    | some Q₀ =>
      refine ⟨Q₀, rfl, ?_⟩
      simp only [hq, Option.map_eq_map, Option.map_some, Option.some.injEq] at hQ
      by_cases hqp : q = p
      · subst hqp; simpa using hQ.symm
      · simpa [hqp, Ne.symm hqp] using hQ.symm
  have hsame : ∀ q, q ≠ p → q < c.ppcs.length → ∀ i ∈ mi q, h'[i]? = c.msgNodes[i]? := by
    intro q hqp hq i hi
    have hpl : p < c.ppcs.length := (List.getElem?_eq_some_iff.mp hP).1
    have hlt : i < c.msgNodes.length :=
      (hs.msgs q _ (List.getElem?_eq_getElem hq)).lt_length hi
    exact hframe i (hs.disj q p hq hpl hqp i hi) hlt
  refine ⟨hs.links, by simp [modifyPpc, hs.fresh, Leases.setQueue], ?_, ?_, ?_, ?_, ?_, ?_, hs.map, ?_⟩
  · intro q Q hQ
    obtain ⟨Q₀, hQ₀, rfl⟩ := hget q Q hQ
    have := hs.key q Q₀ hQ₀
    split_ifs <;> exact this
  · intro q Q hQ
    obtain ⟨Q₀, hQ₀, rfl⟩ := hget q Q hQ
    by_cases hqp : q = p
    · subst hqp; simpa using hr
    · simp only [hqp, if_false, Function.update_of_ne hqp]
      exact (hs.msgs q Q₀ hQ₀).congr (hsame q hqp (List.getElem?_eq_some_iff.mp hQ₀).1)
  · intro q Q hQ
    obtain ⟨Q₀, hQ₀, rfl⟩ := hget q Q hQ
    by_cases hqp : q = p
    · subst hqp; simp [Leases.setQueue]
    · simp only [Leases.setQueue, Function.update_of_ne hqp]
      rw [← hs.queue q Q₀ hQ₀]
      refine List.filterMap_congr fun i hi => ?_
      unfold valueAt
      rw [hsame q hqp (List.getElem?_eq_some_iff.mp hQ₀).1 i hi]
  · intro q Q hQ
    obtain ⟨Q₀, hQ₀, rfl⟩ := hget q Q hQ
    have := hs.flag q Q₀ hQ₀
    split_ifs <;> exact this
  · intro q hq
    obtain ⟨Q₀, hQ₀, hn⟩ := hs.node q hq
    refine ⟨if p = q then { Q₀ with cache := l' } else Q₀, ?_, by split_ifs <;> exact hn⟩
    show (c.ppcs.modify p _)[q]? = _
    rw [List.getElem?_modify, hQ₀]
    rfl
  · intro q r hq hrl hqr i hi
    simp only [modifyPpc, List.length_modify] at hq hrl
    have hbound : ∀ x, x < c.ppcs.length → ∀ j ∈ mi x, j < c.msgNodes.length := fun x hx j hj =>
      (hs.msgs x _ (List.getElem?_eq_getElem hx)).lt_length hj
    have hpl : p < c.ppcs.length := (List.getElem?_eq_some_iff.mp hP).1
    by_cases hqp : q = p
    · subst hqp
      rw [Function.update_self] at hi
      rw [Function.update_of_ne (Ne.symm hqr)]
      rcases hids i hi with hm | hge
      · exact hs.disj q r hq hrl hqr i hm
      · exact fun hm => absurd (hbound r hrl i hm) (Nat.not_lt.mpr hge)
    · rw [Function.update_of_ne hqp] at hi
      by_cases hrp : r = p
      · subst hrp
        rw [Function.update_self]
        intro hm
        rcases hids i hm with hm' | hge
        · exact hs.disj q r hq hrl hqr i hi hm'
        · exact absurd (hbound q hq i hi) (Nat.not_lt.mpr hge)
      · rw [Function.update_of_ne hrp]
        exact hs.disj q r hq hrl hqr i hi
  · intro q hq
    simp only [modifyPpc, List.length_modify] at hq
    have hqp : q ≠ p := fun e => absurd (List.getElem?_eq_some_iff.mp hP).1 (Nat.not_lt.mpr (e ▸ hq))
    obtain ⟨hk, he⟩ := hs.out q hq
    exact ⟨hk, by simp [Leases.setQueue, Function.update_of_ne hqp, he]⟩

theorem ppcAddLast (hs : Sim c a nd mi) {p : Nat} (hp : p < c.ppcs.length) (m : μ) :
    ∃ mi', Sim (c.ppcAddLast p m) (a.setQueue p (a.queue p ++ [m])) nd mi' := by
  have hP := List.getElem?_eq_getElem hp
  have hr := hs.msgs p _ hP
  have := hs.updateCache hP (hr.addLast m) (fun i hi hl => hr.addLast_frame m hi hl) (by
    intro i hi
    rcases List.mem_append.mp hi with h | h
    · exact .inl h
    · exact .inr (by simp at h; omega))
  have hq : (mi p ++ [c.msgNodes.length]).filterMap (valueAt (LinkedList.addLast c.msgNodes c.ppcs[p].cache m).1) =
      a.queue p ++ [m] := by
    rw [List.filterMap_append, ← hs.queue p _ hP]
    congr 1
    · refine List.filterMap_congr fun i hi => ?_
      rw [hr.addLast_valueAt, if_neg (Nat.ne_of_lt (hr.lt_length hi))]
    · simp [hr.addLast_valueAt]
  rw [hq] at this
  exact ⟨_, by simpa only [MessageCache.ppcAddLast, hP] using this⟩

theorem ppcAddFirst (hs : Sim c a nd mi) {p : Nat} (hp : p < c.ppcs.length) (m : μ) :
    ∃ mi', Sim (c.ppcAddFirst p m) (a.setQueue p (m :: a.queue p)) nd mi' := by
  have hP := List.getElem?_eq_getElem hp
  have hr := hs.msgs p _ hP
  have := hs.updateCache hP (hr.addFirst m) (fun i hi hl => hr.addFirst_frame m hi hl) (by
    intro i hi
    rcases List.mem_cons.mp hi with h | h
    · exact .inr (by omega)
    · exact .inl h)
  have hq : (c.msgNodes.length :: mi p).filterMap (valueAt (LinkedList.addFirst c.msgNodes c.ppcs[p].cache m).1) =
      m :: a.queue p := by
    rw [List.filterMap_cons, ← hs.queue p _ hP, hr.addFirst_valueAt]
    simp only [if_true]
    congr 1
    refine List.filterMap_congr fun i hi => ?_
    rw [hr.addFirst_valueAt, if_neg (Nat.ne_of_lt (hr.lt_length hi))]
  rw [hq] at this
  exact ⟨_, by simpa only [MessageCache.ppcAddFirst, hP] using this⟩

/-- `_next` takes the first message of the PPC, if there is one. -/
theorem ppcNext (hs : Sim c a nd mi) {p : Nat} (hp : p < c.ppcs.length) :
    (c.ppcNext p).2 = (a.queue p).head? ∧ (c.ppcNext p).1.size = c.size ∧
      ∃ mi', Sim (c.ppcNext p).1 (a.setQueue p (a.queue p).tail) nd mi' := by
  have hP := List.getElem?_eq_getElem hp
  have hr := hs.msgs p _ hP
  have hq := hs.queue p _ hP
  cases hmi : mi p with
  | nil =>
    rw [hmi] at hr hq
    have hnil : a.queue p = [] := by simpa using hq.symm
    have hself : a.setQueue p (a.queue p).tail = a := by
      rw [hnil, List.tail_nil, ← hnil]
      simp [Leases.setQueue]
    have hc : c.ppcNext p = (c, none) := by
      simp only [MessageCache.ppcNext, hP, hr.removeFirst_nil]
      congr 1
      have : (c.ppcs.modify p fun q => { q with cache := c.ppcs[p].cache }) = c.ppcs := by
        apply List.ext_getElem?
        intro i
        rw [List.getElem?_modify]
        by_cases hi : p = i
        · subst hi; simp [hP]
        · simp [hi]
      simp [modifyPpc, this]
    rw [hc, hself]
    exact ⟨by simp [hnil], rfl, mi, hs⟩
  | cons i b =>
    rw [hmi] at hr
    obtain ⟨n, hn, _⟩ := hr.get_of_mem (List.mem_cons_self ..)
    have hv : valueAt c.msgNodes i = some n.value := by simp [valueAt, hn]
    have hq' : a.queue p = n.value :: b.filterMap (valueAt c.msgNodes) := by
      rw [← hq, hmi, List.filterMap_cons, hv]
    have hrem := LinkedList.Repr.remove (a := []) hr
    have hc : c.ppcNext p = ({ c.modifyPpc p fun q => { q with
        cache := (LinkedList.remove c.msgNodes c.ppcs[p].cache i).2 } with
        msgNodes := (LinkedList.remove c.msgNodes c.ppcs[p].cache i).1 }, some n.value) := by
      simp only [MessageCache.ppcNext, hP, hr.removeFirst_cons, hv]
    have hsim := hs.updateCache hP hrem
      (fun j hj _ => LinkedList.Repr.remove_frame (a := []) hr (by simpa [hmi] using hj))
      (fun j hj => .inl (by rw [hmi]; exact List.mem_cons_of_mem _ (by simpa using hj)))
    have hb : ([] ++ b).filterMap (valueAt (LinkedList.remove c.msgNodes c.ppcs[p].cache i).1) =
        (a.queue p).tail := by
      rw [hq', List.tail_cons, List.nil_append]
      exact List.filterMap_congr fun j _ => LinkedList.Repr.remove_valueAt (a := []) hr j
    rw [hb] at hsim
    rw [hc]
    exact ⟨by simp [hq'], rfl, _, hsim⟩

/-! ## Moving a PPC between the lists -/

/-- Only the PPC `p` is relinked; the others keep their list, node and flag. -/
theorem relink (hs : Sim c a nd mi) {p : Nat} {P : Ppc} (hP : c.ppcs[p]? = some P) {f : Ppc → Ppc}
    (hk : (f P).key = P.key) (hc : (f P).cache = P.cache) {h' : NodeHeap Nat} {l₁ l₂ : LinkedList}
    {nd' : Nat → Nat} {xs ys : List Nat} {m' : JsMap String Nat} (hl : Linked h' l₁ l₂ nd' xs ys)
    (hflag : (f P).assigned = true ↔ p ∈ ys) (hnode : p ∈ xs ∨ p ∈ ys → (f P).node = some (nd' p))
    (hflags : ∀ q, q ≠ p → (q ∈ ys ↔ q ∈ a.assigned))
    (hnodes : ∀ q, q ≠ p → q ∈ xs ∨ q ∈ ys → q ∈ a.live ∧ nd' q = nd q)
    (hmap : ∀ k q, m'.get? k = some q ↔ (q ∈ xs ∨ q ∈ ys) ∧ a.key q = k) {n : Int} {g : Nat} :
    Sim ⟨n, m', l₁, l₂, g, c.ppcs.modify p f, h', c.msgNodes⟩
      { a with available := xs, assigned := ys } nd' mi := by
  have hget : ∀ q Q, (c.ppcs.modify p f)[q]? = some Q →
      ∃ Q₀, c.ppcs[q]? = some Q₀ ∧ Q.key = Q₀.key ∧ Q.cache = Q₀.cache ∧ Q = if q = p then f P else Q₀ := by
    intro q Q hQ
    rw [List.getElem?_modify] at hQ
    by_cases hqp : q = p
    · subst hqp
      simp only [if_true, hP, Option.map_eq_map, Option.map_some, Option.some.injEq] at hQ
      subst hQ
      exact ⟨P, hP, hk, hc, by simp⟩
    · simp only [Ne.symm hqp, if_false, Option.map_eq_map, Option.map_id_fun', id_eq] at hQ
      exact ⟨Q, hQ, rfl, rfl, by simp [hqp]⟩
  refine ⟨hl, by simp [hs.fresh], ?_, ?_, ?_, ?_, ?_, ?_, ?_, ?_⟩
  · intro q Q hQ
    obtain ⟨Q₀, hQ₀, hk', _, _⟩ := hget q Q hQ
    exact (hs.key q Q₀ hQ₀).trans hk'.symm
  · intro q Q hQ
    obtain ⟨Q₀, hQ₀, _, hc', _⟩ := hget q Q hQ
    show LinkedList.Repr c.msgNodes Q.cache (mi q)
    rw [hc']
    exact hs.msgs q Q₀ hQ₀
  · intro q Q hQ
    obtain ⟨Q₀, hQ₀, _, _, _⟩ := hget q Q hQ
    exact hs.queue q Q₀ hQ₀
  · intro q Q hQ
    obtain ⟨Q₀, hQ₀, _, _, rfl⟩ := hget q Q hQ
    by_cases hqp : q = p
    · subst hqp; simpa using hflag
    · simp only [hqp, if_false]
      exact (hs.flag q Q₀ hQ₀).trans (hflags q hqp).symm
  · intro q hq
    have hq' : q ∈ xs ∨ q ∈ ys := List.mem_append.mp hq
    by_cases hqp : q = p
    · subst hqp
      exact ⟨f P, by simp [hP], hnode hq'⟩
    · obtain ⟨hlive, hnd⟩ := hnodes q hqp hq'
      obtain ⟨Q, hQ, hn⟩ := hs.node q hlive
      exact ⟨Q, by simp [Ne.symm hqp, hQ], by rw [hn, hnd]⟩
  · simpa using hs.disj
  · intro k q
    rw [hmap k q]
    simp [Leases.live]
  · simpa using hs.out

theorem mem_live {p : Nat} : p ∈ a.live ↔ p ∈ a.available ∨ p ∈ a.assigned := List.mem_append

theorem assignNewPartition_cons (hs : Sim c a nd mi) {p : Nat} {ps : List Nat} (ha : a.available = p :: ps) :
    c.assignNewPartition.2 = some p ∧ c.assignNewPartition.1.size = c.size ∧
      ∃ nd', Sim c.assignNewPartition.1 { a with available := ps, assigned := a.assigned ++ [p] } nd' mi := by
  have hpl : p ∈ a.live := by simp [mem_live, ha]
  obtain ⟨P, hP, hn, _, _⟩ := hs.get hpl
  have hl := hs.links
  rw [ha] at hl
  have hpys : p ∉ a.assigned := hl.not_mem (by simp)
  have hpps : p ∉ ps := (List.nodup_cons.mp hl.nodup).1
  have hrm : Linked (LinkedList.remove c.listNodes c.availablePartitions (nd p)).1
      (LinkedList.remove c.listNodes c.availablePartitions (nd p)).2 c.assignedPartitions nd
      ([] ++ ps) a.assigned :=
    Linked.remove hl
  have hadd := hrm.symm.addLast hpys hpps
  have hfst : LinkedList.removeFirst c.listNodes c.availablePartitions =
      ((LinkedList.remove c.listNodes c.availablePartitions (nd p)).1,
        (LinkedList.remove c.listNodes c.availablePartitions (nd p)).2, some p) := by
    have hr : LinkedList.Repr c.listNodes c.availablePartitions (nd p :: ps.map nd) := hl.left
    rw [hr.removeFirst_cons, hl.value p (by simp)]
  unfold assignNewPartition
  rw [hfst]
  refine ⟨rfl, rfl, Function.update nd p (LinkedList.remove c.listNodes c.availablePartitions (nd p)).1.length, ?_⟩
  refine hs.relink hP rfl rfl hadd.symm (by simp) ?_ ?_ ?_ ?_
  · intro _
    rw [Function.update_self]
    rfl
  · intro q hqp; simp [hqp]
  · intro q hqp hq
    exact ⟨by simp [mem_live, ha] at hq ⊢; tauto, Function.update_of_ne hqp _ _⟩
  · intro k q
    rw [hs.map k q, mem_live, ha]
    simp only [List.mem_cons, List.mem_append]
    tauto

theorem assignNewPartition_nil (hs : Sim c a nd mi) (ha : a.available = []) : c.assignNewPartition = (c, none) := by
  have hr : LinkedList.Repr c.listNodes c.availablePartitions [] := by simpa [ha] using hs.links.left
  unfold assignNewPartition
  rw [hr.removeFirst_nil]

theorem map_delete (hs : Sim c a nd mi) {p : Nat} (hp : p ∈ a.live) {xs ys : List Nat}
    (hmem : ∀ q, q ∈ xs ∨ q ∈ ys ↔ q ∈ a.live ∧ q ≠ p) (k : String) (q : Nat) :
    (c.tpToPpc.delete (a.key p)).get? k = some q ↔ (q ∈ xs ∨ q ∈ ys) ∧ a.key q = k := by
  rw [JsMap.get?_delete, hmem]
  by_cases hk : k = a.key p
  · subst hk
    simp only [if_true, reduceCtorEq, false_iff]
    rintro ⟨⟨hq, hne⟩, he⟩
    exact hne (hs.key_inj hq hp he)
  · simp only [hk, if_false, hs.map k q]
    constructor
    · rintro ⟨hq, he⟩; exact ⟨⟨hq, fun e => hk (by rw [← he, e])⟩, he⟩
    · rintro ⟨⟨hq, _⟩, he⟩; exact ⟨hq, he⟩

theorem removeEmptyPartition (hs : Sim c a nd mi) {p : Nat} (hp : p ∈ a.assigned) :
    (c.removeEmptyPartition p).size = c.size ∧
      ∃ nd', Sim (c.removeEmptyPartition p) { a with assigned := a.assigned.erase p } nd' mi := by
  have hpl : p ∈ a.live := by simp [mem_live, hp]
  obtain ⟨P, hP, hn, hkey, _⟩ := hs.get hpl
  have hl := hs.links.symm.remove_erase hp
  have hnd := hs.links.symm.nodup
  have hpa : p ∉ a.available := hs.links.symm.not_mem hp
  have hpe : p ∉ a.assigned.erase p := hnd.not_mem_erase
  unfold MessageCache.removeEmptyPartition
  simp only [hP, hn]
  refine ⟨trivial, nd, ?_⟩
  have hmem : ∀ q, q ∈ a.available ∨ q ∈ a.assigned.erase p ↔ q ∈ a.live ∧ q ≠ p := by
    intro q
    by_cases hqp : q = p
    · subst hqp; simp [hpa, hpe]
    · simp [mem_live, List.mem_erase_of_ne hqp, hqp]
  refine hs.relink hP rfl rfl hl.symm (by simp [hpe]) (by simp [hpa, hpe]) ?_ ?_ ?_
  · intro q hqp; exact List.mem_erase_of_ne hqp
  · intro q _ hq; exact ⟨((hmem q).mp hq).1, rfl⟩
  · rw [hkey]
    exact hs.map_delete hpl hmem

theorem giveBack (hs : Sim c a nd mi) (p : Nat) :
    (c.giveBack p).size = c.size ∧ ∃ nd', Sim (c.giveBack p) (a.release p) nd' mi := by
  by_cases hp : p ∈ a.assigned
  · have hpl : p ∈ a.live := by simp [mem_live, hp]
    obtain ⟨P, hP, hn, _, hflag⟩ := hs.get hpl
    have hpa : p ∉ a.available := hs.links.symm.not_mem hp
    have hpe : p ∉ a.assigned.erase p := hs.links.symm.nodup.not_mem_erase
    have hl := (hs.links.symm.remove_erase hp).symm.addLast hpa hpe
    unfold MessageCache.giveBack Leases.release
    simp only [hP, hflag.mpr hp, hn, hp, if_true, Bool.not_true, Bool.false_eq_true, if_false]
    refine ⟨rfl, Function.update nd p (LinkedList.remove c.listNodes c.assignedPartitions (nd p)).1.length, ?_⟩
    refine hs.relink hP rfl rfl hl (by simp [hpe]) ?_ ?_ ?_ ?_
    · intro _
      rw [Function.update_self]
      rfl
    · intro q hqp; exact List.mem_erase_of_ne hqp
    · intro q hqp hq
      refine ⟨?_, Function.update_of_ne hqp _ _⟩
      rw [List.mem_erase_of_ne hqp] at hq
      simp [mem_live, hqp] at hq ⊢
      exact hq
    · intro k q
      rw [hs.map k q, mem_live]
      by_cases hqp : q = p
      · subst hqp; simp [hp]
      · simp [List.mem_erase_of_ne hqp, hqp]
  · have hc : c.giveBack p = c := by
      unfold MessageCache.giveBack
      cases hP : c.ppcs[p]? with
      | none => rfl
      | some P =>
        have : P.assigned = false := by
          cases hb : P.assigned with
          | false => rfl
          | true => exact absurd ((hs.flag p P hP).mp hb) hp
        simp [this]
    rw [hc, Leases.release, if_neg hp]
    exact ⟨rfl, nd, hs⟩

/-- `markStale` of one partition takes its PPC off its list and the map. -/
theorem markStaleKey (hs : Sim c a nd mi) (k : String) :
    (c.markStaleKey k).size + a.total = c.size + (a.discard k).total ∧
      ∃ nd', Sim (c.markStaleKey k) (a.discard k) nd' mi := by
  unfold MessageCache.markStaleKey Leases.discard
  rw [hs.find_eq]
  cases hg : c.tpToPpc.get? k with
  | none => exact ⟨rfl, nd, hs⟩
  | some p =>
    obtain ⟨hpl, rfl⟩ := (hs.map k p).mp hg
    obtain ⟨P, hP, hn, hkey, hflag⟩ := hs.get hpl
    have hmem : ∀ q, q ∈ a.available.erase p ∨ q ∈ a.assigned.erase p ↔ q ∈ a.live ∧ q ≠ p := by
      intro q
      by_cases hqp : q = p
      · subst hqp
        simp [hs.links.nodup.not_mem_erase, hs.links.symm.nodup.not_mem_erase]
      · simp [mem_live, List.mem_erase_of_ne hqp, hqp]
    have hno : p ∉ a.available.erase p ∧ p ∉ a.assigned.erase p := by
      have := (hmem p).not.mpr (by simp)
      simpa using this
    have htot := hs.valid.total_erase hpl
    simp only [hP, hn, Option.getD_some, hs.ppcSize_eq]
    by_cases hb : P.assigned = true
    · have hpa := hflag.mp hb
      have hl := (hs.links.symm.remove_erase hpa).symm
      rw [← hs.valid.erase_available hpa] at hl
      simp only [hb, if_true]
      refine ⟨by omega, nd, ?_⟩
      refine hs.relink hP rfl rfl hl (by simp [hno]) (by simp [hno]) ?_ ?_ (hs.map_delete hpl hmem)
      · intro q hqp; exact List.mem_erase_of_ne hqp
      · intro q _ hq; exact ⟨((hmem q).mp hq).1, rfl⟩
    · have hpa : p ∈ a.available := by
        rcases mem_live.mp hpl with h | h
        · exact h
        · exact absurd (hflag.mpr h) hb
      have hl := hs.links.remove_erase hpa
      rw [← hs.valid.erase_assigned hpa] at hl
      simp only [hb, Bool.false_eq_true, if_false]
      refine ⟨by omega, nd, ?_⟩
      refine hs.relink hP rfl rfl hl (by simp [hno]) (by simp [hno]) ?_ ?_ (hs.map_delete hpl hmem)
      · intro q hqp; exact List.mem_erase_of_ne hqp
      · intro q _ hq; exact ⟨((hmem q).mp hq).1, rfl⟩

/-- The PPC of a message is the one of its key, made available first when there is none. -/
theorem ppcFor [Toppar μ] (hs : Sim c a nd mi) (m : μ) :
    (c.ppcFor m).2 = (a.ensure (partitionKey m)).2 ∧ (c.ppcFor m).2 < (c.ppcFor m).1.ppcs.length ∧
      (c.ppcFor m).1.size = c.size ∧
      ∃ nd' mi', Sim (c.ppcFor m).1 (a.ensure (partitionKey m)).1 nd' mi' := by
  unfold MessageCache.ppcFor Leases.ensure
  simp only [hs.find_eq]
  cases hg : c.tpToPpc.get? (partitionKey m) with
  | some p => exact ⟨rfl, hs.lt_fresh ((hs.map _ p).mp hg).1, rfl, nd, mi, hs⟩
  | none =>
    have hnl : ∀ q ∈ a.live, q ≠ c.ppcs.length := fun q hq => Nat.ne_of_lt (hs.lt_fresh hq)
    have hna : c.ppcs.length ∉ a.available := fun h => hnl _ (mem_live.mpr (.inl h)) rfl
    have hnb : c.ppcs.length ∉ a.assigned := fun h => hnl _ (mem_live.mpr (.inr h)) rfl
    have hget : ∀ (q : Nat) (Q : Ppc),
      (c.ppcs ++ [(⟨.empty, partitionKey m, false, some c.listNodes.length⟩ : Ppc)])[q]? =
        some Q → c.ppcs[q]? = some Q ∧ q ≠ c.ppcs.length ∨
          q = c.ppcs.length ∧ Q = ⟨.empty, partitionKey m, false, some c.listNodes.length⟩ := by
      intro q Q hQ
      rcases Nat.lt_trichotomy q c.ppcs.length with hq | hq | hq
      · rw [List.getElem?_append_left hq] at hQ
        exact .inl ⟨hQ, Nat.ne_of_lt hq⟩
      · subst hq
        simp only [List.getElem?_concat_length, Option.some.injEq] at hQ
        exact .inr ⟨rfl, hQ.symm⟩
      · rw [List.getElem?_eq_none (by simp; omega)] at hQ
        cases hQ
    refine ⟨hs.fresh.symm, by simp [notifyAvailablePartitions], rfl,
      Function.update nd c.ppcs.length c.listNodes.length, Function.update mi c.ppcs.length [], ?_⟩
    rw [hs.fresh]
    refine ⟨hs.links.addLast hna hnb, by simp [notifyAvailablePartitions], ?_, ?_, ?_, ?_, ?_, ?_, ?_, ?_⟩
    · intro q Q hQ
      rcases hget q Q hQ with ⟨hQ', hq⟩ | ⟨rfl, rfl⟩
      · simp only [Function.update_of_ne hq]; exact hs.key q Q hQ'
      · simp
    · intro q Q hQ
      rcases hget q Q hQ with ⟨hQ', hq⟩ | ⟨rfl, rfl⟩
      · simp only [Function.update_of_ne hq]; exact hs.msgs q Q hQ'
      · simp only [Function.update_self]; exact repr_empty _
    · intro q Q hQ
      rcases hget q Q hQ with ⟨hQ', hq⟩ | ⟨rfl, rfl⟩
      · simp only [Function.update_of_ne hq]; exact hs.queue q Q hQ'
      · simp [(hs.out c.ppcs.length (Nat.le_refl _)).2]
    · intro q Q hQ
      rcases hget q Q hQ with ⟨hQ', hq⟩ | ⟨rfl, rfl⟩
      · exact hs.flag q Q hQ'
      · simp [hnb]
    · intro q hq
      by_cases hqn : q = c.ppcs.length
      · subst hqn
        exact ⟨_, List.getElem?_concat_length .., by simp; rfl⟩
      · have hq' : q ∈ a.live := by
          simp [Leases.live, hqn] at hq ⊢
          exact hq
        obtain ⟨Q, hQ, hn⟩ := hs.node q hq'
        refine ⟨Q, ?_, by simp [Function.update_of_ne hqn, hn]⟩
        show (c.ppcs ++ _)[q]? = some Q
        rw [List.getElem?_append_left (hs.lt_fresh hq'), hQ]
    · intro q r hq hr hqr i hi
      simp only [notifyAvailablePartitions, List.length_append, List.length_singleton] at hq hr
      by_cases hqn : q = c.ppcs.length
      · subst hqn; simp at hi
      · rw [Function.update_of_ne hqn] at hi
        by_cases hrn : r = c.ppcs.length
        · subst hrn; simp
        · rw [Function.update_of_ne hrn]
          exact hs.disj q r (by omega) (by omega) hqr i hi
    · intro k q
      have hnone := hs.map (partitionKey m)
      simp only [notifyAvailablePartitions, JsMap.get?_set]
      by_cases hqn : q = c.ppcs.length
      · subst hqn
        have hno : c.tpToPpc.get? k ≠ some c.ppcs.length := fun h => hnl _ ((hs.map _ _).mp h).1 rfl
        by_cases hk : k = partitionKey m
        · simp [hk, Leases.live]
        · simp [hk, hno, Leases.live, Ne.symm hk]
      · have hlive : q ∈ { a with
            available := a.available ++ [c.ppcs.length]
            key := Function.update a.key c.ppcs.length (partitionKey m)
            fresh := c.ppcs.length + 1 }.live ↔ q ∈ a.live := by
          simp [Leases.live, hqn]
        rw [hlive]
        simp only [Function.update_of_ne hqn]
        by_cases hk : k = partitionKey m
        · subst hk
          rw [← hnone q, hg]
          simp [Ne.symm hqn]
        · simp only [hk, if_false]
          exact hs.map k q
    · intro q hq
      simp only [notifyAvailablePartitions, List.length_append, List.length_singleton] at hq
      have hqn : q ≠ c.ppcs.length := by omega
      simp only [Function.update_of_ne hqn]
      exact hs.out q (by omega)

theorem add [Toppar μ] (hs : Sim c a nd mi) (m : μ) (front : Bool) :
    (c.add m front).size = c.size ∧ ∃ nd' mi', Sim (c.add m front) (a.push (partitionKey m) m front) nd' mi' := by
  obtain ⟨hp, hlt, hsz, nd', mi', hs'⟩ := hs.ppcFor m
  unfold MessageCache.add Leases.push
  simp only
  rw [← hp]
  cases front with
  | true =>
    obtain ⟨mi'', h⟩ := hs'.ppcAddFirst hlt m
    refine ⟨?_, nd', mi'', h⟩
    simp [MessageCache.ppcAddFirst, List.getElem?_eq_getElem hlt, modifyPpc, hsz]
  | false =>
    obtain ⟨mi'', h⟩ := hs'.ppcAddLast hlt m
    refine ⟨?_, nd', mi'', h⟩
    simp [MessageCache.ppcAddLast, List.getElem?_eq_getElem hlt, modifyPpc, hsz]

theorem clear_get (ps : List Ppc) (p : Nat) : ∀ l : List Nat,
    (l.foldl (fun ps p => ps.modify p fun q => { q with assigned := false }) ps)[p]? =
      ps[p]?.map fun q => if p ∈ l then { q with assigned := false } else q := by
  intro l
  induction l generalizing ps with
  | nil => simp
  | cons x l ih =>
    rw [List.foldl_cons, ih, List.getElem?_modify]
    cases ps[p]? with
    | none => rfl
    | some q =>
      by_cases hx : x = p
      · subst hx; by_cases hl : x ∈ l <;> simp [hl]
      · simp [hx, Ne.symm hx]

theorem clear_length : ∀ (l : List Nat) (ps : List Ppc),
    (l.foldl (fun ps p => ps.modify p fun q => { q with assigned := false }) ps).length = ps.length
  | [], _ => rfl
  | x :: l, ps => by rw [List.foldl_cons, clear_length l]; simp

theorem clear (hs : Sim c a nd mi) : Sim c.clear a.clear nd mi := by
  have hget : ∀ (q : Nat) (Q : Ppc), c.clear.ppcs[q]? = some Q → ∃ Q₀ : Ppc, c.ppcs[q]? = some Q₀ ∧ Q.key = Q₀.key ∧
      Q.cache = Q₀.cache ∧ Q.assigned = false := by
    intro q Q hQ
    simp only [MessageCache.clear, clear_get] at hQ
    cases hq : c.ppcs[q]? with
    | none => simp [hq] at hQ
    | some Q₀ =>
      refine ⟨Q₀, rfl, ?_⟩
      simp only [hq, Option.map_some, Option.some.injEq] at hQ
      subst hQ
      by_cases hm : q ∈ c.tpToPpc.values
      · simp [hm]
      · have hna : q ∉ a.assigned := by
          intro ha
          exact hm (JsMap.mem_values.mpr ⟨a.key q, (hs.map _ q).mpr ⟨mem_live.mpr (.inr ha), rfl⟩⟩)
        have : Q₀.assigned = false := by
          cases hb : Q₀.assigned with
          | false => rfl
          | true => exact absurd ((hs.flag q Q₀ hq).mp hb) hna
        simp [hm, this]
  have hlen : c.clear.ppcs.length = c.ppcs.length := clear_length _ c.ppcs
  refine ⟨Linked.empty _ _, by rw [hlen]; exact hs.fresh, ?_, ?_, ?_, ?_, ?_, ?_, ?_, ?_⟩
  · intro q Q hQ
    obtain ⟨Q₀, hQ₀, hk, _, _⟩ := hget q Q hQ
    exact (hs.key q Q₀ hQ₀).trans hk.symm
  · intro q Q hQ
    obtain ⟨Q₀, hQ₀, _, hc, _⟩ := hget q Q hQ
    rw [hc]
    exact hs.msgs q Q₀ hQ₀
  · intro q Q hQ
    obtain ⟨Q₀, hQ₀, _, _, _⟩ := hget q Q hQ
    exact hs.queue q Q₀ hQ₀
  · intro q Q hQ
    obtain ⟨_, _, _, _, hf⟩ := hget q Q hQ
    simp [hf, Leases.clear]
  · intro q hq; simp [Leases.clear, Leases.live] at hq
  · rw [hlen]; exact hs.disj
  · intro k q; simp [MessageCache.clear, Leases.clear, Leases.live]
  · rw [hlen]; exact hs.out

/-! ## Handing out messages -/

/-- The most messages `nextN(ppc, n)` hands out: all of them for a negative `n`. -/
def limitOf (n : Int) : Option Nat := if n < 0 then none else some n.toNat

theorem limitOf_ne_zero {n : Int} (hn : n ≠ 0) : limitOf n ≠ some 0 := by
  unfold limitOf
  split_ifs
  · simp
  · simp; omega

theorem ppcTake (hs : Sim c a nd mi) {p : Nat} (hp : p < c.ppcs.length) (k : Nat) :
    (c.ppcTake p k).2 = (a.queue p).take k ∧ (c.ppcTake p k).1.size = c.size ∧
      ∃ mi', Sim (c.ppcTake p k).1 (a.setQueue p ((a.queue p).drop k)) nd mi' := by
  induction k generalizing c a mi with
  | zero =>
    exact ⟨by simp [MessageCache.ppcTake], rfl, mi, by simpa [MessageCache.ppcTake, Leases.setQueue_self] using hs⟩
  | succ k ih =>
    obtain ⟨hv, hsz, mi', hs'⟩ := hs.ppcNext hp
    unfold MessageCache.ppcTake
    cases hq : a.queue p with
    | nil =>
      rw [hq] at hv hs'
      have hc : c.ppcNext p = ((c.ppcNext p).1, none) := Prod.ext rfl hv
      rw [hc]
      exact ⟨by simp, hsz, mi', by simpa using hs'⟩
    | cons m ms =>
      rw [hq] at hv hs'
      have hc : c.ppcNext p = ((c.ppcNext p).1, some m) := Prod.ext rfl hv
      have hlt : p < (c.ppcNext p).1.ppcs.length := by
        rw [← hs'.fresh]
        exact hs.fresh ▸ hp
      obtain ⟨h₁, h₂, mi'', h₃⟩ := ih hs' hlt
      rw [hc]
      refine ⟨?_, h₂.trans hsz, mi'', ?_⟩
      · simp [h₁, Leases.setQueue]
      · simpa [Leases.setQueue] using h₃

/-- What `next` and `nextN` rely on: `pull` takes the first messages of the PPC, `limit` at most. -/
def PullSpec (pull : MessageCache μ → Nat → MessageCache μ × List μ) (limit : Option Nat) : Prop :=
  ∀ (c : MessageCache μ) (a : Leases String μ) (nd : Nat → Nat) (mi : Nat → List Nat) (p : Nat),
    Sim c a nd mi → p < c.ppcs.length →
      (pull c p).2 = Leases.taken limit (a.queue p) ∧ (pull c p).1.size = c.size ∧
        ∃ mi', Sim (pull c p).1 (a.setQueue p (Leases.rest limit (a.queue p))) nd mi'

theorem ppcNext_pull : PullSpec (fun c p => (((c : MessageCache μ).ppcNext p).1, (c.ppcNext p).2.toList))
    (some 1) := by
  intro c a nd mi p hs hp
  obtain ⟨hv, hsz, mi', hs'⟩ := hs.ppcNext hp
  refine ⟨?_, hsz, mi', ?_⟩
  · simp only [hv, Leases.taken, Option.elim_some]
    cases a.queue p <;> simp
  · simpa [Leases.rest] using hs'

theorem ppcNextN_pull (n : Int) : PullSpec (fun c p => (c : MessageCache μ).ppcNextN p n) (limitOf n) := by
  intro c a nd mi p hs hp
  have h := fun k => hs.ppcTake hp k
  simp only [MessageCache.ppcNextN, hs.ppcSize_eq]
  unfold limitOf
  by_cases hn : n < 0
  · obtain ⟨h₁, h₂, mi', h₃⟩ := h (a.queue p).length
    simp only [hn, true_or, if_true, Int.toNat_natCast, Leases.taken, Leases.rest, Option.elim_none]
    exact ⟨by simpa using h₁, h₂, mi', by simpa using h₃⟩
  · simp only [hn, false_or, if_false, Leases.taken, Leases.rest, Option.elim_some]
    split_ifs with hlt
    · obtain ⟨h₁, h₂, mi', h₃⟩ := h (a.queue p).length
      have hle : (a.queue p).length ≤ n.toNat := by omega
      rw [List.take_of_length_le hle, List.drop_eq_nil_of_le hle]
      exact ⟨by simpa using h₁, h₂, mi', by simpa using h₃⟩
    · exact h n.toNat

theorem nextWith_none {pull : MessageCache μ → Nat → MessageCache μ × List μ} {limit : Option Nat}
    (hpull : PullSpec pull limit) : ∀ (fuel : Nat) {c : MessageCache μ} {a : Leases String μ} {nd : Nat → Nat}
      {mi : Nat → List Nat}, Sim c a nd mi → a.available.length < fuel →
      (nextWith pull fuel c none).2 = (Leases.nextNew limit a a.available).2 ∧
      (nextWith pull fuel c none).1.size =
        c.size - ((Leases.nextNew limit a a.available).2.map fun r => r.1.length).getD 0 ∧
      ∃ nd' mi', Sim (nextWith pull fuel c none).1 (Leases.nextNew limit a a.available).1 nd' mi'
  | 0, _, _, _, _, _, hf => by simp at hf
  | fuel + 1, c, a, nd, mi, hs, hf => by
    unfold nextWith
    cases ha : a.available with
    | nil =>
      rw [hs.assignNewPartition_nil ha]
      refine ⟨rfl, by simp [Leases.nextNew], nd, mi, ?_⟩
      rw [Leases.nextNew, ← ha]
      exact hs
    | cons p ps =>
      obtain ⟨h₁, hsz₁, nd₁, hs₁⟩ := hs.assignNewPartition_cons ha
      have hc₁ : c.assignNewPartition = (c.assignNewPartition.1, some p) := Prod.ext rfl h₁
      have hp₁ : p < c.assignNewPartition.1.ppcs.length := hs₁.lt_fresh (by simp [mem_live])
      obtain ⟨h₂, hsz₂, mi₂, hs₂⟩ := hpull _ _ _ _ p hs₁ hp₁
      rw [hc₁]
      simp only [Leases.nextNew]
      cases ht : Leases.taken limit (a.queue p) with
      | nil =>
        simp only [ht, Leases.rest_of_taken_nil ht] at h₂ hs₂
        have hself := Leases.setQueue_self { a with available := ps, assigned := a.assigned ++ [p] } p
        simp only at hself
        rw [hself] at hs₂
        have hc₂ : pull c.assignNewPartition.1 p = ((pull c.assignNewPartition.1 p).1, []) :=
          Prod.ext rfl h₂
        obtain ⟨hsz₃, nd₃, hs₃⟩ := hs₂.removeEmptyPartition (p := p) (by simp)
        have hpn : p ∉ a.assigned := hs.links.not_mem (by simp [ha])
        have hx : (a.assigned ++ [p]).erase p = a.assigned := by
          rw [List.erase_append_right _ hpn]; simp
        simp only [hx] at hs₃
        rw [hc₂]
        obtain ⟨h₄, hsz₄, nd₄, mi₄, hs₄⟩ := nextWith_none hpull fuel hs₃ (by simp [ha] at hf ⊢; omega)
        simp only [Leases.nextNew_available] at h₄ hsz₄ hs₄
        exact ⟨h₄, by rw [hsz₄, hsz₃, hsz₂, hsz₁], nd₄, mi₄, hs₄⟩
      | cons m ms =>
        have hc₂ : pull c.assignNewPartition.1 p = ((pull c.assignNewPartition.1 p).1, m :: ms) :=
          Prod.ext rfl (h₂.trans ht)
        rw [hc₂]
        refine ⟨rfl, by simp [hsz₂, hsz₁], nd₁, mi₂, ?_⟩
        exact ⟨hs₂.links, hs₂.fresh, hs₂.key, hs₂.msgs, hs₂.queue, hs₂.flag, hs₂.node, hs₂.disj, hs₂.map, hs₂.out⟩

/-- With a try for each available PPC and one for the given one, `nextWith` is `Leases.next`. -/
theorem nextWith {pull : MessageCache μ → Nat → MessageCache μ × List μ} {limit : Option Nat}
    (hpull : PullSpec pull limit) (fuel : Nat) (hs : Sim c a nd mi) (hf : a.available.length + 1 < fuel)
    (h : Option Nat) :
    (MessageCache.nextWith pull fuel c h).2 = (a.next limit h).2 ∧
      (MessageCache.nextWith pull fuel c h).1.size = c.size - ((a.next limit h).2.map fun r => r.1.length).getD 0 ∧
      ∃ nd' mi', Sim (MessageCache.nextWith pull fuel c h).1 (a.next limit h).1 nd' mi' := by
  obtain ⟨fuel, rfl⟩ : ∃ k, fuel = k + 1 := ⟨fuel - 1, by omega⟩
  have hnone := nextWith_none hpull (fuel + 1) hs (by omega)
  cases h with
  | none => exact hnone
  | some p =>
    by_cases hp : p ∈ a.assigned
    · have hlt : p < c.ppcs.length := hs.lt_fresh (mem_live.mpr (.inr hp))
      obtain ⟨h₂, hsz₂, mi₂, hs₂⟩ := hpull _ _ _ _ p hs hlt
      unfold MessageCache.nextWith
      simp only [Leases.next, hp, if_true, hs.ppcAssigned_eq, decide_true]
      cases ht : Leases.taken limit (a.queue p) with
      | nil =>
        simp only [ht, Leases.rest_of_taken_nil ht, Leases.setQueue_self] at h₂ hs₂
        have hc₂ : pull c p = ((pull c p).1, []) := Prod.ext rfl h₂
        obtain ⟨hsz₃, nd₃, hs₃⟩ := hs₂.removeEmptyPartition hp
        rw [hc₂]
        obtain ⟨h₄, hsz₄, nd₄, mi₄, hs₄⟩ := nextWith_none hpull fuel hs₃ (by simp only; omega)
        exact ⟨h₄, by rw [hsz₄, hsz₃, hsz₂], nd₄, mi₄, hs₄⟩
      | cons m ms =>
        have hc₂ : pull c p = ((pull c p).1, m :: ms) := Prod.ext rfl (h₂.trans ht)
        rw [hc₂]
        refine ⟨rfl, by simp [hsz₂], nd, mi₂, ?_⟩
        exact ⟨hs₂.links, hs₂.fresh, hs₂.key, hs₂.msgs, hs₂.queue, hs₂.flag, hs₂.node, hs₂.disj, hs₂.map, hs₂.out⟩
    · have hc : MessageCache.nextWith pull (fuel + 1) c (some p) = MessageCache.nextWith pull
        (fuel + 1) c none := by
        simp [MessageCache.nextWith, hs.ppcAssigned_eq, hp]
      have ha : a.next limit (some p) = a.next limit none := by simp [Leases.next, hp]
      rw [hc, ha]
      exact hnone

end Sim

end MessageCache

end ConfluentKafka
