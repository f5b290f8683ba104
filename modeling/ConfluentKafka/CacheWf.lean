import ConfluentKafka.CacheSound

/-!
# Well-formed caches

`Wf` is the invariant of the cache: it stands for its `view`, and its size is
the number of messages there. `Cache` carries it, so that the code above the
cache never meets another one, and each operation is one on the view.
-/

namespace ConfluentKafka

open LinkedList

namespace MessageCache

variable {μ : Type}

structure Wf (c : MessageCache μ) : Prop where
  sim : ∃ nd mi, Sim c c.view nd mi
  size : c.size = c.view.total

section
variable {c : MessageCache μ}

theorem Wf.of_sim {a : Leases String μ} {nd : Nat → Nat} {mi : Nat → List Nat} (hs : Sim c a nd mi)
    (hsz : c.size = a.total) : Wf c ∧ c.view = a := by
  have hv := hs.view_eq
  refine ⟨⟨⟨nd, mi, ?_⟩, ?_⟩, hv⟩
  · rw [hv]; exact hs
  · rw [hv]; exact hsz

theorem wf_new : Wf (new : MessageCache μ) := (Wf.of_sim sim_new rfl).1

theorem sim_addAll [Toppar μ] : ∀ (ms : List μ) {c : MessageCache μ} {a : Leases String μ} {nd : Nat → Nat}
    {mi : Nat → List Nat}, Sim c a nd mi → ∃ nd' mi',
      Sim (ms.foldl (fun c m => c.add m false) c) (a.pushAll partitionKey ms) nd' mi' ∧
      (ms.foldl (fun c m => c.add m false) c).size = c.size ∧
      (a.pushAll partitionKey ms).total = a.total + ms.length
  | [], c, a, nd, mi, hs => ⟨nd, mi, hs, rfl, rfl⟩
  | m :: ms, c, a, nd, mi, hs => by
    obtain ⟨hsz, nd₁, mi₁, hs₁⟩ := hs.add m false
    obtain ⟨nd₂, mi₂, hs₂, hsz₂, ht₂⟩ := sim_addAll ms hs₁
    refine ⟨nd₂, mi₂, hs₂, hsz₂.trans hsz, ?_⟩
    show ((a.push (partitionKey m) m false).pushAll partitionKey ms).total = _
    rw [ht₂, hs.valid.total_push, List.length_cons]
    omega

theorem sim_returnAll [Toppar μ] {a : Leases String μ} {nd : Nat → Nat} {mi : Nat → List Nat} (hs : Sim c a nd mi) :
    ∀ ms : List μ, ∃ nd' mi',
      Sim (ms.foldr (fun m c => c.add m true) c) (a.putBack partitionKey ms) nd' mi' ∧
      (ms.foldr (fun m c => c.add m true) c).size = c.size ∧
      (a.putBack partitionKey ms).total = a.total + ms.length
  | [] => ⟨nd, mi, hs, rfl, rfl⟩
  | m :: ms => by
    obtain ⟨nd₁, mi₁, hs₁, hsz₁, ht₁⟩ := sim_returnAll hs ms
    obtain ⟨hsz₂, nd₂, mi₂, hs₂⟩ := hs₁.add m true
    refine ⟨nd₂, mi₂, hs₂, hsz₂.trans hsz₁, ?_⟩
    show ((a.putBack partitionKey ms).push (partitionKey m) m true).total = _
    rw [hs₁.valid.total_push, ht₁, List.length_cons]
    omega

variable (hw : Wf c)
include hw

theorem Wf.addMessages [Toppar μ] (ms : List μ) :
    Wf (c.addMessages ms) ∧ (c.addMessages ms).view = c.view.pushAll partitionKey ms := by
  obtain ⟨nd, mi, hs⟩ := hw.sim
  obtain ⟨nd', mi', hs', hsz, ht⟩ := sim_addAll ms hs
  refine Wf.of_sim ⟨hs'.links, hs'.fresh, hs'.key, hs'.msgs, hs'.queue, hs'.flag, hs'.node, hs'.disj,
    hs'.map, hs'.out⟩ ?_
  simp only [MessageCache.addMessages, hsz, hw.size, ht]
  omega

theorem Wf.returnMessages [Toppar μ] (ms : List μ) :
    Wf (c.returnMessages ms) ∧ (c.returnMessages ms).view = c.view.putBack partitionKey ms := by
  obtain ⟨nd, mi, hs⟩ := hw.sim
  obtain ⟨nd', mi', hs', hsz, ht⟩ := sim_returnAll hs ms
  refine Wf.of_sim ⟨hs'.links, hs'.fresh, hs'.key, hs'.msgs, hs'.queue, hs'.flag, hs'.node, hs'.disj,
    hs'.map, hs'.out⟩ ?_
  simp only [MessageCache.returnMessages, hsz, hw.size, ht]
  omega

theorem Wf.markStaleKey (k : String) : Wf (c.markStaleKey k) ∧ (c.markStaleKey k).view = c.view.discard k := by
  obtain ⟨nd, mi, hs⟩ := hw.sim
  obtain ⟨hsz, nd', hs'⟩ := hs.markStaleKey k
  exact Wf.of_sim hs' (by have := hw.size; omega)

theorem Wf.markStale {τ : Type} [Toppar τ] (tps : List τ) :
    Wf (c.markStale tps) ∧ (c.markStale tps).view = tps.foldl (fun a tp => a.discard (partitionKey tp)) c.view := by
  induction tps generalizing c with
  | nil => exact ⟨hw, rfl⟩
  | cons tp tps ih =>
    obtain ⟨hw₁, hv₁⟩ := hw.markStaleKey (partitionKey tp)
    obtain ⟨hw₂, hv₂⟩ := ih hw₁
    rw [hv₁] at hv₂
    exact ⟨hw₂, hv₂⟩

theorem Wf.giveBack (p : Nat) : Wf (c.giveBack p) ∧ (c.giveBack p).view = c.view.release p := by
  obtain ⟨nd, mi, hs⟩ := hw.sim
  obtain ⟨hsz, nd', hs'⟩ := hs.giveBack p
  exact Wf.of_sim hs' (by rw [hsz, hw.size, Leases.total_release])

theorem Wf.clear : Wf c.clear ∧ c.clear.view = c.view.clear := by
  obtain ⟨nd, mi, hs⟩ := hw.sim
  exact Wf.of_sim hs.clear rfl

theorem Wf.nextWith {pull : MessageCache μ → Nat → MessageCache μ × List μ} {limit : Option Nat}
    (hpull : Sim.PullSpec pull limit) (hl : limit ≠ some 0) (h : Option Nat) :
    Wf (MessageCache.nextWith pull (c.listNodes.length + 2) c h).1 ∧
      (MessageCache.nextWith pull (c.listNodes.length + 2) c h).1.view = (c.view.next limit h).1 ∧
      (MessageCache.nextWith pull (c.listNodes.length + 2) c h).2 = (c.view.next limit h).2 := by
  obtain ⟨nd, mi, hs⟩ := hw.sim
  have hle : c.view.available.length ≤ c.listNodes.length := by simpa using hs.links.left.length_le
  obtain ⟨h₁, hsz, nd', mi', hs'⟩ := hs.nextWith hpull (c.listNodes.length + 2) (by omega) h
  have ht := hs.valid.total_next hl h
  obtain ⟨hw', hv'⟩ := Wf.of_sim hs' (by have := hw.size; omega)
  exact ⟨hw', hv', h₁⟩

theorem Wf.nextN (h : Option Nat) {n : Int} (hn : n ≠ 0) :
    Wf (c.nextN h n).1 ∧ (c.nextN h n).1.view = (c.view.next (Sim.limitOf n) h).1 ∧
      (c.nextN h n).2 = (c.view.next (Sim.limitOf n) h).2 :=
  hw.nextWith (Sim.ppcNextN_pull n) (Sim.limitOf_ne_zero hn) h

theorem Wf.next (h : Option Nat) :
    Wf (c.next h).1 ∧ (c.next h).1.view = (c.view.next (some 1) h).1 ∧
      (c.next h).2 = (c.view.next (some 1) h).2.bind fun r => r.1.head?.map (·, r.2) := by
  obtain ⟨hw', hv', hr⟩ := hw.nextWith Sim.ppcNext_pull (by simp) h
  exact ⟨hw', hv', by simp only [MessageCache.next, hr]⟩

theorem Wf.assignedSize : c.assignedSize = c.view.assigned.length := by
  obtain ⟨nd, mi, hs⟩ := hw.sim
  exact hs.links.right.count_eq

theorem Wf.availableSize : c.availableSize = c.view.available.length := by
  obtain ⟨nd, mi, hs⟩ := hw.sim
  exact hs.links.left.count_eq

end

/-! ## The four records of one fact agree -/

inductive CacheOp (μ : Type) where
  | addMessages (messages : List μ)
  | returnMessages (messages : List μ)
  | next (ppc : Option Nat)
  | nextN (ppc : Option Nat) (n : Int) (hn : n ≠ 0)
  | giveBack (ppc : Nat)
  | markStale (topicPartitions : List TopicPartition)
  | clear

def CacheOp.run [Toppar μ] (c : MessageCache μ) : CacheOp μ → MessageCache μ
  | .addMessages ms => c.addMessages ms
  | .returnMessages ms => c.returnMessages ms
  | .next ppc => (c.next ppc).1
  | .nextN ppc n _ => (c.nextN ppc n).1
  | .giveBack ppc => c.giveBack ppc
  | .markStale tps => c.markStale tps
  | .clear => c.clear

def availableList (c : MessageCache μ) : List Nat := toList c.listNodes c.availablePartitions

def assignedList (c : MessageCache μ) : List Nat := toList c.listNodes c.assignedPartitions

structure Consistent (c : MessageCache μ) : Prop where
  size : c.size = (c.tpToPpc.values.map c.ppcSize).sum
  ppcSize : ∀ p P, c.ppcs[p]? = some P → c.ppcSize p = (toList c.msgNodes P.cache).length
  one_list : ∀ p ∈ c.tpToPpc.values,
    p ∈ c.availableList ∧ p ∉ c.assignedList ∨ p ∉ c.availableList ∧ p ∈ c.assignedList
  once : c.availableList.Nodup ∧ c.assignedList.Nodup
  flag : ∀ p ∈ c.tpToPpc.values, c.ppcAssigned p = true ↔ p ∈ c.assignedList
  gone : ∀ p, p ∉ c.tpToPpc.values → p ∉ c.availableList ∧ p ∉ c.assignedList ∧ c.ppcAssigned p = false
  availableSize : c.availableSize = c.availableList.length
  assignedSize : c.assignedSize = c.assignedList.length

theorem Wf.run [Toppar μ] {c : MessageCache μ} (hw : Wf c) (op : CacheOp μ) : Wf (op.run c) := by
  cases op with
  | addMessages ms => exact (hw.addMessages ms).1
  | returnMessages ms => exact (hw.returnMessages ms).1
  | next ppc => exact (hw.next ppc).1
  | nextN ppc n hn => exact (hw.nextN ppc hn).1
  | giveBack ppc => exact (hw.giveBack ppc).1
  | markStale tps => exact (hw.markStale tps).1
  | clear => exact hw.clear.1

theorem Wf.runAll [Toppar μ] (ops : List (CacheOp μ)) : ∀ {c : MessageCache μ}, Wf c →
    Wf (ops.foldl CacheOp.run c) := by
  induction ops with
  | nil => exact id
  | cons op ops ih => intro c hw; exact ih (hw.run op)

theorem Sim.values_perm {c : MessageCache μ} {a : Leases String μ} {nd : Nat → Nat} {mi : Nat → List Nat}
    (hs : Sim c a nd mi) : c.tpToPpc.values.Perm a.live := by
  have hnd : c.tpToPpc.values.Nodup := by
    refine List.Nodup.map_on ?_ (List.Nodup.of_map _ c.tpToPpc.nodup)
    rintro ⟨k, p⟩ hx ⟨k', p'⟩ hy rfl
    have h₁ := (hs.map k p).mp (JsMap.get?_eq_some.mpr hx)
    have h₂ := (hs.map k' p).mp (JsMap.get?_eq_some.mpr hy)
    rw [← h₁.2, ← h₂.2]
  refine (List.perm_ext_iff_of_nodup hnd hs.live_nodup).mpr fun p => ?_
  rw [JsMap.mem_values]
  constructor
  · rintro ⟨k, hk⟩; exact ((hs.map k p).mp hk).1
  · intro hp; exact ⟨a.key p, (hs.map _ p).mpr ⟨hp, rfl⟩⟩

theorem Wf.consistent {c : MessageCache μ} (hw : Wf c) : Consistent c := by
  obtain ⟨nd, mi, hs⟩ := hw.sim
  have hmem : ∀ p, p ∈ c.tpToPpc.values ↔ p ∈ c.availableList ∨ p ∈ c.assignedList := fun p => by
    rw [hs.values_perm.mem_iff]
    exact List.mem_append
  have hdis : ∀ p, p ∈ c.availableList → p ∉ c.assignedList := fun p => hs.links.not_mem
  have hflag : ∀ p, c.ppcAssigned p = true ↔ p ∈ c.assignedList := fun p => by
    rw [hs.ppcAssigned_eq, decide_eq_true_eq]
    rfl
  refine ⟨?_, ?_, ?_, ⟨hs.links.nodup, hs.links.symm.nodup⟩, fun p _ => hflag p, ?_, hw.availableSize,
    hw.assignedSize⟩
  · rw [hw.size, (hs.values_perm.map _).sum_eq, Leases.total]
    have : ∀ l : List Nat, (((l.map fun p => (c.view.queue p).length).sum : Nat) : Int) =
      (l.map c.ppcSize).sum := by
      intro l
      induction l with
      | nil => rfl
      | cons p l ih => simp only [List.map_cons, List.sum_cons, hs.ppcSize_eq, ← ih]; push_cast; rfl
    exact this _
  · intro p P hP
    rw [hs.ppcSize_eq, ← hs.queue p P hP, (hs.msgs p P hP).toList_eq]
  · intro p hp
    rcases (hmem p).mp hp with h | h
    · exact .inl ⟨h, hdis p h⟩
    · exact .inr ⟨fun h' => hdis p h' h, h⟩
  · intro p hp
    have h := not_or.mp (fun h => hp ((hmem p).mpr h))
    refine ⟨h.1, h.2, ?_⟩
    cases hb : c.ppcAssigned p with
    | false => rfl
    | true => exact absurd ((hflag p).mp hb) h.2

/-- Whatever the operations and whichever handles they are given, live, stale or never handed out,
the map, the lists, the flags and the counters of the cache agree. -/
theorem cache_consistent [Toppar μ] (ops : List (CacheOp μ)) : Consistent (ops.foldl CacheOp.run new) :=
  (wf_new.runAll ops).consistent

end MessageCache

/-! ## The promise of available partitions is only ever replaced -/

namespace MessageCache

section
variable {μ : Type}

theorem ppcNext_gen (c : MessageCache μ) (p : Nat) : (c.ppcNext p).1.availableGen = c.availableGen := by
  unfold ppcNext
  cases c.ppcs[p]? <;> rfl

theorem ppcTake_gen (p : Nat) : ∀ (n : Nat) (c : MessageCache μ), (c.ppcTake p n).1.availableGen = c.availableGen
  | 0, c => rfl
  | n + 1, c => by
    have h := c.ppcNext_gen p
    unfold ppcTake
    split
    · rename_i c' he; rw [he] at h; exact h
    · rename_i c' m he
      rw [he] at h
      exact (ppcTake_gen p n c').trans h

theorem assignNewPartition_gen (c : MessageCache μ) : c.assignNewPartition.1.availableGen = c.availableGen := by
  unfold assignNewPartition
  split <;> rfl

theorem removeEmptyPartition_gen (c : MessageCache μ) (p : Nat) :
    (c.removeEmptyPartition p).availableGen = c.availableGen := by
  unfold removeEmptyPartition
  cases c.ppcs[p]? <;> rfl

/-- What `nextWith` does once it has a partition, where the calls it makes keep the count. -/
theorem pulled_gen {pull : MessageCache μ → Nat → MessageCache μ × List μ} {c : MessageCache μ} {fuel : Nat}
    (hp : ∀ c p, (pull c p).1.availableGen = c.availableGen)
    (ih : ∀ (c : MessageCache μ) (h : Option Nat), (nextWith pull fuel c h).1.availableGen = c.availableGen)
    (x : MessageCache μ × Option Nat) (hx : x.1.availableGen = c.availableGen) :
    (match x.2 with
      | none => (x.1, none)
      | some p =>
        match pull x.1 p with
        | (c, []) => nextWith pull fuel (c.removeEmptyPartition p) none
        | (c, m :: ms) => ({ c with size := c.size - (m :: ms).length }, some (m :: ms, p))).1.availableGen =
      c.availableGen := by
  obtain ⟨c', q⟩ := x
  cases q with
  | none => exact hx
  | some p =>
    have hpull := hp c' p
    simp only
    split
    · rename_i c'' he
      rw [he] at hpull
      rw [ih, removeEmptyPartition_gen]
      exact hpull.trans hx
    · rename_i c'' m ms he
      rw [he] at hpull
      exact hpull.trans hx

theorem nextWith_gen (pull : MessageCache μ → Nat → MessageCache μ × List μ)
    (hp : ∀ c p, (pull c p).1.availableGen = c.availableGen) : ∀ (fuel : Nat) (c : MessageCache μ) (h : Option Nat),
    (nextWith pull fuel c h).1.availableGen = c.availableGen
  | 0, c, h => rfl
  | fuel + 1, c, h => by
    have hnew : ∀ (b : Bool) (q : Nat), (if b then (c, some q) else c.assignNewPartition).1.availableGen =
      c.availableGen := by
      intro b q
      cases b
      · exact c.assignNewPartition_gen
      · rfl
    unfold nextWith
    cases h with
    | none => exact pulled_gen hp (nextWith_gen pull hp fuel) _ c.assignNewPartition_gen
    | some q => exact pulled_gen hp (nextWith_gen pull hp fuel) _ (hnew _ q)

theorem nextN_gen (c : MessageCache μ) (h : Option Nat) (n : Int) : (c.nextN h n).1.availableGen = c.availableGen :=
  nextWith_gen _ (fun c p => ppcTake_gen p _ c) _ c h

theorem next_gen (c : MessageCache μ) (h : Option Nat) : (c.next h).1.availableGen = c.availableGen :=
  nextWith_gen (fun c p => ((c.ppcNext p).1, (c.ppcNext p).2.toList)) (fun c p => c.ppcNext_gen p)
    (c.listNodes.length + 2) c h

theorem add_gen [Toppar μ] (c : MessageCache μ) (m : μ) (head : Bool) :
    c.availableGen ≤ (c.add m head).availableGen := by
  have h : c.availableGen ≤ (c.ppcFor m).1.availableGen := by
    unfold ppcFor
    simp only
    split
    · exact Nat.le_refl _
    · exact Nat.le_succ _
  have h' : ∀ c : MessageCache μ, ∀ p, (if head then c.ppcAddFirst p m else c.ppcAddLast p m).availableGen =
      c.availableGen := fun c p => by
    unfold ppcAddFirst ppcAddLast
    cases head <;> cases c.ppcs[p]? <;> rfl
  unfold add
  exact h.trans_eq (h' _ _).symm

theorem addMessages_gen [Toppar μ] (c : MessageCache μ) (ms : List μ) :
    c.availableGen ≤ (c.addMessages ms).availableGen := by
  show c.availableGen ≤ (ms.foldl (fun c m => c.add m false) c).availableGen
  induction ms generalizing c with
  | nil => exact Nat.le_refl _
  | cons m ms ih => exact Nat.le_trans (c.add_gen m false) (ih _)

theorem returnMessages_gen [Toppar μ] (c : MessageCache μ) (ms : List μ) :
    c.availableGen ≤ (c.returnMessages ms).availableGen := by
  show c.availableGen ≤ (ms.foldr (fun m c => c.add m true) c).availableGen
  induction ms with
  | nil => exact Nat.le_refl _
  | cons m ms ih => exact Nat.le_trans ih (add_gen _ m true)

theorem giveBack_gen (c : MessageCache μ) (p : Nat) : c.availableGen ≤ (c.giveBack p).availableGen := by
  unfold giveBack
  split
  · exact Nat.le_refl _
  · split_ifs
    · exact Nat.le_refl _
    · split
      · exact Nat.le_refl _
      · exact Nat.le_succ _

theorem markStaleKey_gen (c : MessageCache μ) (k : String) : (c.markStaleKey k).availableGen = c.availableGen := by
  unfold markStaleKey
  split
  · rfl
  · split
    · rfl
    · simp only; split_ifs <;> rfl

theorem markStale_gen {τ : Type} [Toppar τ] (tps : List τ) : ∀ c : MessageCache μ,
    (c.markStale tps).availableGen = c.availableGen := by
  induction tps with
  | nil => intro c; rfl
  | cons tp tps ih => intro c; exact (ih _).trans (c.markStaleKey_gen _)

end

end MessageCache

/-! ## The cache with its invariant -/

structure Cache (μ : Type) where
  raw : MessageCache μ
  wf : raw.Wf

namespace Cache

variable {μ : Type}

def new : Cache μ := ⟨.new, MessageCache.wf_new⟩

def view (c : Cache μ) : Leases String μ := c.raw.view

def addMessages [Toppar μ] (c : Cache μ) (ms : List μ) : Cache μ := ⟨c.raw.addMessages ms, (c.wf.addMessages ms).1⟩

def returnMessages [Toppar μ] (c : Cache μ) (ms : List μ) : Cache μ :=
  ⟨c.raw.returnMessages ms, (c.wf.returnMessages ms).1⟩

def markStale {τ : Type} [Toppar τ] (c : Cache μ) (tps : List τ) : Cache μ :=
  ⟨c.raw.markStale tps, (c.wf.markStale tps).1⟩

def giveBack (c : Cache μ) (p : Nat) : Cache μ := ⟨c.raw.giveBack p, (c.wf.giveBack p).1⟩

def clear (c : Cache μ) : Cache μ := ⟨c.raw.clear, c.wf.clear.1⟩

theorem wf_notify {c : MessageCache μ} (hw : c.Wf) : c.notifyAvailablePartitions.Wf := by
  obtain ⟨nd, mi, hs⟩ := hw.sim
  have hs' : MessageCache.Sim c.notifyAvailablePartitions c.view nd mi :=
    ⟨hs.links, hs.fresh, hs.key, hs.msgs, hs.queue, hs.flag, hs.node, hs.disj, hs.map, hs.out⟩
  exact (MessageCache.Wf.of_sim hs' hw.size).1

def notifyAvailablePartitions (c : Cache μ) : Cache μ := ⟨c.raw.notifyAvailablePartitions, wf_notify c.wf⟩

def next (c : Cache μ) (ppc : Option Nat) : Cache μ × Option (μ × Nat) :=
  (⟨(c.raw.next ppc).1, (c.wf.next ppc).1⟩, (c.raw.next ppc).2)

def nextN (c : Cache μ) (ppc : Option Nat) (n : Int) (hn : n ≠ 0) : Cache μ × Option (List μ × Nat) :=
  (⟨(c.raw.nextN ppc n).1, (c.wf.nextN ppc hn).1⟩, (c.raw.nextN ppc n).2)

def cached (c : Cache μ) (key : String) : List μ :=
  ((c.raw.tpToPpc.get? key).bind fun p => c.raw.ppcs[p]?).elim [] fun ppc => toList c.raw.msgNodes ppc.cache

section
variable (c : Cache μ)

theorem view_new : (new : Cache μ).view = ⟨[], [], fun _ => "", fun _ => [], 0⟩ := MessageCache.sim_new.view_eq

theorem valid : c.view.Valid := by
  obtain ⟨nd, mi, hs⟩ := c.wf.sim
  exact hs.valid

@[simp] theorem view_addMessages [Toppar μ] (ms : List μ) :
    (c.addMessages ms).view = c.view.pushAll partitionKey ms :=
  (c.wf.addMessages ms).2

@[simp] theorem view_returnMessages [Toppar μ] (ms : List μ) :
    (c.returnMessages ms).view = c.view.putBack partitionKey ms := (c.wf.returnMessages ms).2

@[simp] theorem view_markStale {τ : Type} [Toppar τ] (tps : List τ) :
    (c.markStale tps).view = tps.foldl (fun a tp => a.discard (partitionKey tp)) c.view := (c.wf.markStale tps).2

@[simp] theorem view_giveBack (p : Nat) : (c.giveBack p).view = c.view.release p := (c.wf.giveBack p).2

@[simp] theorem view_clear : c.clear.view = c.view.clear := c.wf.clear.2

@[simp] theorem view_notifyAvailablePartitions : c.notifyAvailablePartitions.view = c.view := rfl

theorem markStale_discarded {τ : Type} [Toppar τ] (tps : List τ) :
    c.view.Discarded (c.markStale tps).view fun k => ∃ tp ∈ tps, partitionKey tp = k := by
  rw [view_markStale]
  exact c.valid.discardAll partitionKey tps

theorem clear_discarded : c.view.Discarded c.clear.view fun _ => True := by
  rw [view_clear]
  exact c.valid.clear

theorem addMessages_grown [Toppar μ] (ms : List μ) : c.view.Grown (c.addMessages ms).view := by
  rw [view_addMessages]
  exact c.valid.pushAll_grown ms

theorem returnMessages_grown [Toppar μ] (ms : List μ) : c.view.Grown (c.returnMessages ms).view := by
  rw [view_returnMessages]
  exact c.valid.putBack_grown ms

theorem next_handed (ppc : Option Nat) :
    c.view.Handed (c.next ppc).1.view ppc ((c.next ppc).2.map fun r => ([r.1], r.2)) := by
  have h : c.view.Handed (c.view.next (some 1) ppc).1 ppc (c.view.next (some 1) ppc).2 :=
    c.valid.next (by simp) ppc
  obtain ⟨_, hv, hr⟩ := c.wf.next ppc
  show c.view.Handed (c.raw.next ppc).1.view ppc ((c.raw.next ppc).2.map fun r => ([r.1], r.2))
  have hone : ((c.view.next (some 1) ppc).2.bind fun r => r.1.head?.map (·, r.2)).map (fun r => ([r.1], r.2)) =
      (c.view.next (some 1) ppc).2 := by
    cases hx : (c.view.next (some 1) ppc).2 with
    | none => rfl
    | some x =>
      obtain ⟨ms, p⟩ := x
      have hle : ms.length ≤ 1 := Leases.next_length hx
      have hne := (h.handed ms p hx).1
      obtain ⟨m, rfl⟩ := List.length_eq_one_iff.mp (Nat.le_antisymm hle (List.length_pos_iff.mpr hne))
      rfl
  rw [hv, hr, ← view, hone]
  exact h

theorem cached_eq (key : String) : c.cached key = c.view.queueOf key := by
  obtain ⟨nd, mi, hs⟩ := c.wf.sim
  unfold cached Leases.queueOf
  rw [view, hs.find_eq]
  cases hk : c.raw.tpToPpc.get? key with
  | none => rfl
  | some p =>
    obtain ⟨P, hP, _⟩ := hs.get ((hs.map key p).mp hk).1
    simp only [Option.bind_some, hP, Option.elim_some, Option.map_some, Option.getD_some]
    rw [(hs.msgs p P hP).toList_eq, ← hs.queue p P hP]

theorem nextN_handed (ppc : Option Nat) (n : Int) (hn : n ≠ 0) :
    c.view.Handed (c.nextN ppc n hn).1.view ppc (c.nextN ppc n hn).2 := by
  obtain ⟨_, hv, hr⟩ := c.wf.nextN ppc hn
  have h := c.valid.next (MessageCache.Sim.limitOf_ne_zero hn) ppc
  show c.view.Handed (c.raw.nextN ppc n).1.view ppc (c.raw.nextN ppc n).2
  rw [hv, hr]
  exact h

end

end Cache

end ConfluentKafka
