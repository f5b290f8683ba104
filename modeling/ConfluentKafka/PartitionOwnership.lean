import ConfluentKafka.Commit
import ConfluentKafka.Heap
import ConfluentKafka.Lts
import Mathlib.Data.List.Infix

/-!
# Who owns the topic partitions of `kafka-consumer.cc`

`m_partitions` holds pointers to objects on the heap, which `Assign`, `Unassign`
and their incremental variants pass on, replace and destroy, as librdkafka
answers. A step is a call of the binding; `none` is a call that frees or reads
an object that is gone.

`assignment` is librdkafka's own list. `counted` and `lost` are read by nobody:
whether `m_partition_cnt`, which the constructor leaves as it is, was assigned,
and the objects that no vector points to any more.
-/

namespace ConfluentKafka

namespace KafkaConsumer

open Commit (ERR_NO_ERROR ERR__STATE)

structure TopicPartition where
  topic : String
  partition : Int
  offset : Int
  deriving DecidableEq, Repr

def TopicPartition.toppar (tp : TopicPartition) : String × Int := (tp.topic, tp.partition)

structure State where
  heap : Heap TopicPartition
  partitions : List Nat
  partitionCnt : BitVec 32
  client : Bool
  closing : Bool
  assignment : List (String × Int)
  counted : Bool
  lost : List Nat
  deriving DecidableEq, Repr

namespace State

def isConnected (s : State) : Bool := !s.closing && s.client

def isClosing (s : State) : Bool := s.client && s.closing

/-! ## The calls that take over a vector of partitions -/

def assign (s : State) (partitions : List Nat) (err : Int) : Option (State × Int) :=
  if !s.isConnected then some ({ s with lost := s.lost ++ partitions }, ERR__STATE)
  else
    (s.heap.read partitions).bind fun tps =>
      if err = ERR_NO_ERROR then
        -- the vectors are swapped, so that the old one is destroyed
        (s.heap.freeAll s.partitions).map fun heap =>
          ({ s with
            heap, partitions
            partitionCnt := .ofNat 32 partitions.length
            assignment := tps.map TopicPartition.toppar
            counted := true }, err)
      else (s.heap.freeAll partitions).map fun heap => ({ s with heap }, err)

def unassign (s : State) (err : Int) : Option (State × Int) :=
  if !s.isClosing && !s.isConnected then some (s, ERR__STATE)
  else if err ≠ ERR_NO_ERROR then some (s, err)
  else
    (s.heap.freeAll s.partitions).map fun heap =>
      ({ s with heap, partitions := [], partitionCnt := 0, assignment := [], counted := true }, err)

def incrementalAssign (s : State) (partitions : List Nat) (err : Int) : Option (State × Int) :=
  if !s.isConnected then some ({ s with lost := s.lost ++ partitions }, ERR__STATE)
  else
    (s.heap.read partitions).bind fun tps =>
      if err = ERR_NO_ERROR then
        some ({ s with
          partitions := s.partitions ++ partitions
          partitionCnt := s.partitionCnt + .ofNat 32 partitions.length
          assignment := s.assignment ++ tps.map TopicPartition.toppar }, err)
      else (s.heap.freeAll partitions).map fun heap => ({ s with heap }, err)

/-- The inner loop of `IncrementalUnassign`: the first partition that equals the one at `p`, and the others. -/
def eraseSame (heap : Heap TopicPartition) (p : Nat) : List Nat → Option (Option Nat × List Nat)
  | [] => some (none, [])
  | q :: qs =>
    (heap.get? p).bind fun a =>
      (heap.get? q).bind fun b =>
        if a.partition = b.partition ∧ a.topic = b.topic then some (some q, qs)
        else (eraseSame heap p qs).map fun r => (r.1, q :: r.2)

/-- Its outer loop, with `delete_partitions`. -/
def eraseAll (heap : Heap TopicPartition) : List Nat → List Nat × BitVec 32 × List Nat →
    Option (List Nat × BitVec 32 × List Nat)
  | [], r => some r
  | p :: ps, (partitions, cnt, deleted) =>
    (eraseSame heap p partitions).bind fun
      | (some q, rest) => eraseAll heap ps (rest, cnt - 1, deleted ++ [q])
      | (none, rest) => eraseAll heap ps (rest, cnt, deleted)

def incrementalUnassign (s : State) (partitions : List Nat) (err : Int) : Option (State × Int) :=
  if !s.isClosing && !s.isConnected then some ({ s with lost := s.lost ++ partitions }, ERR__STATE)
  else
    (s.heap.read partitions).bind fun tps =>
      if err = ERR_NO_ERROR then
        (eraseAll s.heap partitions (s.partitions, s.partitionCnt, [])).bind fun (rest, cnt, deleted) =>
          (s.heap.freeAll deleted).bind fun heap =>
            (heap.freeAll partitions).map fun heap =>
              ({ s with
                heap
                partitions := rest
                partitionCnt := cnt
                assignment := s.assignment.filter (· ∉ tps.map TopicPartition.toppar) }, err)
      else (s.heap.freeAll partitions).map fun heap => ({ s with heap }, err)

/-- `list` is what librdkafka fills a new vector with. -/
def refreshAssignments (s : State) (err : Int) (list : List TopicPartition) : Option (State × Int) :=
  if !s.isConnected then some (s, ERR__STATE)
  else if err ≠ ERR_NO_ERROR then some (s, err)
  else
    let (heap, partitions) := s.heap.allocAll list
    (heap.freeAll s.partitions).map fun heap =>
      ({ s with heap, partitions, partitionCnt := .ofNat 32 partitions.length, counted := true }, err)

end State

/-! ## The methods of the binding -/

def PARTITION_UA : Int := -1
def OFFSET_INVALID : Int := -1001

/-- What is read of an element of the array: a topic that is missing is empty, and a partition `-1`. -/
structure PartitionObject where
  topic : String
  partition : Int
  offset : Option Int
  deriving DecidableEq, Repr

/-- The partition is narrowed to 32 bits. Elements without a topic are left out. -/
def PartitionObject.create? (o : PartitionObject) : Option TopicPartition :=
  if o.topic = "" then none
  else
    some ⟨o.topic, if o.partition < 0 then PARTITION_UA else (BitVec.ofInt 32 o.partition).toInt,
      o.offset.getD OFFSET_INVALID⟩

def State.handOver (s : State) (call : State → List Nat → Int → Option (State × Int))
    (objects : List PartitionObject)
    (err : Int) : Option State :=
  let (heap, partitions) := s.heap.allocAll (objects.filterMap PartitionObject.create?)
  (call { s with heap } partitions err).map Prod.fst

/-- `err` is the answer of librdkafka. `connect` tells whether a client is made, and `endClose` is the moment when
`Disconnect` has it closed and deleted. -/
inductive Ev where
  | connect (created : Bool)
  | beginClose
  | endClose
  | assign (partitions : List PartitionObject) (err : Int)
  | unassign (err : Int)
  | incrementalAssign (partitions : List PartitionObject) (err : Int)
  | incrementalUnassign (partitions : List PartitionObject) (err : Int)
  | assignments (err : Int) (list : List TopicPartition)
  deriving DecidableEq, Repr

def step (s : State) : Ev → Option State
  | .connect created =>
    -- a client that is being closed holds the lock
    if s.isConnected || s.isClosing then some s
    else if !created then some s
    else if s.partitions = [] then some { s with client := true }
    else (s.heap.read s.partitions).map fun _ => { s with client := true }
  | .beginClose => some { s with closing := s.isConnected }
  | .endClose => some (if s.client then { s with client := false, closing := false, assignment := [] } else s)
  | .assign objects err => s.handOver State.assign objects err
  | .unassign err => (s.unassign err).map Prod.fst
  | .incrementalAssign objects err => s.handOver State.incrementalAssign objects err
  | .incrementalUnassign objects err => s.handOver State.incrementalUnassign objects err
  | .assignments err list =>
    (s.refreshAssignments err list).bind fun (s, err) =>
      if err = ERR_NO_ERROR then (s.heap.read s.partitions).map fun _ => s else some s

/-- `cnt` is what `m_partition_cnt` happens to be in a new object. -/
def lts (cnt : BitVec 32) : Lts State Ev where
  init := ⟨.empty, [], cnt, false, false, [], false, []⟩
  step := step

/-! ## Every object has one owner -/

/-- `m_partitions` points to `bs`. The count is off by what it was at first until it is assigned. -/
structure Lists (cnt : BitVec 32) (s : State) (bs : List TopicPartition) : Prop where
  read : s.heap.read s.partitions = some bs
  count : s.partitionCnt = .ofNat 32 s.partitions.length + if s.counted then 0 else cnt

structure Tracks (cnt : BitVec 32) (s : State) (bs : List TopicPartition) : Prop extends Lists cnt s bs where
  owns : s.heap.Owns (s.partitions ++ s.lost)

/-- How a call ends: nothing has changed but perhaps the heap, or `m_partitions` and librdkafka's assignment
have. An object is lost only where the call comes without a client. -/
structure Ends (s : State) (bs : List TopicPartition) (called : Bool) (t : State) (bs' : List TopicPartition)
    (changed : Prop) : Prop where
  client : t.client = s.client
  closing : t.closing = s.closing
  lost : called = true → t.lost = s.lost
  result : (bs' = bs ∧ t.assignment = s.assignment) ∨ changed

namespace State

variable {s t : State} {cnt : BitVec 32} {ps : List Nat} {as bs : List TopicPartition}

theorem eraseSame_spec {heap : Heap TopicPartition} {p : Nat} {a : TopicPartition} (ha : heap.get? p = some a) :
    ∀ {qs : List Nat} {bs : List TopicPartition}, heap.read qs = some bs →
      ∃ d rest bs', eraseSame heap p qs = some (d, rest) ∧ (d.toList ++ rest).Perm qs ∧ heap.read rest = some bs' ∧
        bs'.map TopicPartition.toppar = (bs.map TopicPartition.toppar).erase a.toppar := by
  intro qs
  induction qs with
  | nil =>
    intro bs h
    obtain rfl : [] = bs := Option.some.inj h
    exact ⟨none, [], [], rfl, .refl _, rfl, rfl⟩
  | cons q qs ih =>
    intro bs h
    unfold Heap.read at h
    rw [List.mapM_cons] at h
    obtain ⟨b, hb, h⟩ := Option.bind_eq_some_iff.mp h
    obtain ⟨bs, hbs, h⟩ := Option.bind_eq_some_iff.mp h
    obtain rfl := Option.some.inj h
    have hsame : (a.partition = b.partition ∧ a.topic = b.topic) ↔ b.toppar = a.toppar := by
      unfold TopicPartition.toppar
      rw [Prod.mk.injEq]
      exact ⟨fun h => ⟨h.2.symm, h.1.symm⟩, fun h => ⟨h.2.symm, h.1.symm⟩⟩
    unfold eraseSame
    rw [ha, hb, Option.bind_some, Option.bind_some, List.map_cons]
    by_cases he : a.partition = b.partition ∧ a.topic = b.topic
    · rw [if_pos he, hsame.mp he, List.erase_cons_head]
      exact ⟨some q, qs, bs, rfl, .refl _, hbs, rfl⟩
    · obtain ⟨d, rest, bs', hr, hperm, hread, hmap⟩ := ih hbs
      rw [if_neg he, hr]
      refine ⟨d, q :: rest, b :: bs', rfl, List.perm_middle.trans (hperm.cons q), ?_, ?_⟩
      · unfold Heap.read at hread ⊢
        rw [List.mapM_cons, hb, hread]
        rfl
      · rw [List.map_cons, hmap, List.erase_cons_tail]
        simpa using fun h => he (hsame.mpr h)

theorem eraseAll_spec {heap : Heap TopicPartition} : ∀ {ps : List Nat} {as : List TopicPartition},
    heap.read ps = some as → ∀ {qs : List Nat} {bs : List TopicPartition} (deleted : List Nat) (cnt : BitVec 32),
      heap.read qs = some bs →
        ∃ rest cnt' deleted' bs', eraseAll heap ps (qs, cnt, deleted) = some (rest, cnt', deleted') ∧
          (deleted' ++ rest).Perm (deleted ++ qs) ∧ heap.read rest = some bs' ∧
            bs'.map TopicPartition.toppar = (bs.map TopicPartition.toppar).diff (as.map TopicPartition.toppar) ∧
              cnt' + .ofNat 32 qs.length = cnt + .ofNat 32 rest.length := by
  intro ps
  induction ps with
  | nil =>
    intro as has qs bs deleted cnt hbs
    obtain rfl : [] = as := Option.some.inj has
    exact ⟨qs, cnt, deleted, bs, rfl, .refl _, hbs, rfl, rfl⟩
  | cons p ps ih =>
    intro as has qs bs deleted cnt hbs
    unfold Heap.read at has
    rw [List.mapM_cons] at has
    obtain ⟨a, ha, has⟩ := Option.bind_eq_some_iff.mp has
    obtain ⟨as, has', has⟩ := Option.bind_eq_some_iff.mp has
    obtain rfl := Option.some.inj has
    obtain ⟨d, rest, bs₁, he, hperm, hread, hmap⟩ := eraseSame_spec ha hbs
    have hlen : d.toList.length + rest.length = qs.length := by
      rw [← List.length_append]
      exact hperm.length_eq
    rw [eraseAll, he, Option.bind_some, List.map_cons, List.diff_cons, ← hmap]
    cases d with
    | none =>
      obtain ⟨rest', cnt', deleted', bs', hall, hperm', hread', hmap', hcnt⟩ := ih has' deleted cnt hread
      refine ⟨rest', cnt', deleted', bs', hall, hperm'.trans (hperm.append_left deleted), hread', hmap', ?_⟩
      rwa [← hlen, Option.toList_none, List.length_nil, Nat.zero_add]
    | some q =>
      obtain ⟨rest', cnt', deleted', bs', hall, hperm', hread', hmap', hcnt⟩ :=
        ih has' (deleted ++ [q]) (cnt - 1) hread
      refine ⟨rest', cnt', deleted', bs', hall, hperm'.trans ?_, hread', hmap', ?_⟩
      · rw [List.append_assoc]
        exact hperm.append_left deleted
      · rw [← hlen, Option.toList_some, List.length_singleton, Nat.add_comm, BitVec.ofNat_add,
          ← BitVec.add_assoc, hcnt]
        bv_omega

theorem assign_spec (hs : Lists cnt s bs) (hown : s.heap.Owns (ps ++ (s.partitions ++ s.lost)))
    (has : s.heap.read ps = some as) (err : Int) :
    ∃ t code bs', s.assign ps err = some (t, code) ∧ Tracks cnt t bs' ∧ Ends s bs s.isConnected t bs'
      (err = ERR_NO_ERROR ∧ bs' = as ∧ t.assignment = as.map TopicPartition.toppar) := by
  unfold assign
  split_ifs with hc he
  · refine ⟨_, _, bs, rfl, ⟨⟨hs.read, hs.count⟩, ?_⟩, ⟨rfl, rfl, fun h => ?_, .inl ⟨rfl, rfl⟩⟩⟩
    · exact hown.perm ((List.perm_append_comm).trans (.of_eq (List.append_assoc ..)))
    · rw [h] at hc; cases hc
  · have hperm : (ps ++ (s.partitions ++ s.lost)).Perm (s.partitions ++ (ps ++ s.lost)) :=
      List.perm_iff_count.mpr fun x => by simp only [List.count_append]; omega
    obtain ⟨heap, hf, ho, hk⟩ := Heap.Owns.freeAll s.partitions (hown.perm hperm)
    rw [has, Option.bind_some, hf]
    refine ⟨_, _, as, rfl, ⟨⟨?_, ?_⟩, ho⟩, ⟨rfl, rfl, fun _ => rfl, .inr ⟨he, rfl, rfl⟩⟩⟩
    · rw [Heap.read_congr fun p hp => hk p (List.mem_append_left _ hp)]
      exact has
    · simp
  · obtain ⟨heap, hf, ho, hk⟩ := Heap.Owns.freeAll ps hown
    rw [has, Option.bind_some, hf]
    refine ⟨_, _, bs, rfl, ⟨⟨?_, hs.count⟩, ho⟩, ⟨rfl, rfl, fun _ => rfl, .inl ⟨rfl, rfl⟩⟩⟩
    rw [Heap.read_congr fun p hp => hk p (List.mem_append_left _ hp)]
    exact hs.read

theorem unassign_spec (hs : Tracks cnt s bs) (err : Int) :
    ∃ t code bs', s.unassign err = some (t, code) ∧ Tracks cnt t bs' ∧ Ends s bs true t bs'
      (err = ERR_NO_ERROR ∧ bs' = [] ∧ t.assignment = []) := by
  unfold unassign
  split_ifs with hc he
  · exact ⟨_, _, bs, rfl, hs, ⟨rfl, rfl, fun _ => rfl, .inl ⟨rfl, rfl⟩⟩⟩
  · exact ⟨_, _, bs, rfl, hs, ⟨rfl, rfl, fun _ => rfl, .inl ⟨rfl, rfl⟩⟩⟩
  · obtain ⟨heap, hf, ho, _⟩ := hs.owns.freeAll s.partitions
    rw [hf]
    exact ⟨_, _, [], rfl, ⟨⟨rfl, by simp⟩, ho⟩, ⟨rfl, rfl, fun _ => rfl, .inr ⟨not_not.mp he, rfl, rfl⟩⟩⟩

theorem incrementalAssign_spec (hs : Lists cnt s bs) (hown : s.heap.Owns (ps ++ (s.partitions ++ s.lost)))
    (has : s.heap.read ps = some as) (err : Int) :
    ∃ t code bs', s.incrementalAssign ps err = some (t, code) ∧ Tracks cnt t bs' ∧ Ends s bs s.isConnected t bs'
      (err = ERR_NO_ERROR ∧ bs' = bs ++ as ∧ t.assignment = s.assignment ++ as.map TopicPartition.toppar) := by
  have hperm : (ps ++ (s.partitions ++ s.lost)).Perm (s.partitions ++ (s.lost ++ ps)) :=
    List.perm_iff_count.mpr fun x => by simp only [List.count_append]; omega
  unfold incrementalAssign
  split_ifs with hc he
  · refine ⟨_, _, bs, rfl, ⟨⟨hs.read, hs.count⟩, hown.perm hperm⟩, ⟨rfl, rfl, fun h => ?_, .inl ⟨rfl, rfl⟩⟩⟩
    rw [h] at hc; cases hc
  · rw [has, Option.bind_some]
    refine ⟨_, _, bs ++ as, rfl, ⟨⟨Heap.read_append hs.read has, ?_⟩, ?_⟩,
      ⟨rfl, rfl, fun _ => rfl, .inr ⟨he, rfl, rfl⟩⟩⟩
    · show s.partitionCnt + _ = .ofNat 32 (s.partitions ++ ps).length + _
      rw [hs.count, List.length_append, BitVec.ofNat_add, BitVec.add_assoc, BitVec.add_assoc]
      congr 1
      exact BitVec.add_comm _ _
    · refine hown.perm (hperm.trans ?_)
      exact List.perm_iff_count.mpr fun x => by simp only [List.count_append]; omega
  · obtain ⟨heap, hf, ho, hk⟩ := Heap.Owns.freeAll ps hown
    rw [has, Option.bind_some, hf]
    refine ⟨_, _, bs, rfl, ⟨⟨?_, hs.count⟩, ho⟩, ⟨rfl, rfl, fun _ => rfl, .inl ⟨rfl, rfl⟩⟩⟩
    rw [Heap.read_congr fun p hp => hk p (List.mem_append_left _ hp)]
    exact hs.read

theorem incrementalUnassign_spec (hs : Lists cnt s bs) (hown : s.heap.Owns (ps ++ (s.partitions ++ s.lost)))
    (has : s.heap.read ps = some as) (err : Int) :
    ∃ t code bs', s.incrementalUnassign ps err = some (t, code) ∧ Tracks cnt t bs' ∧ Ends s bs s.client t bs'
      (err = ERR_NO_ERROR ∧
        bs'.map TopicPartition.toppar = (bs.map TopicPartition.toppar).diff (as.map TopicPartition.toppar) ∧
          t.assignment = s.assignment.filter (· ∉ as.map TopicPartition.toppar)) := by
  unfold incrementalUnassign
  split_ifs with hc he
  · refine ⟨_, _, bs, rfl, ⟨⟨hs.read, hs.count⟩, ?_⟩, ⟨rfl, rfl, fun h => ?_, .inl ⟨rfl, rfl⟩⟩⟩
    · exact hown.perm (List.perm_iff_count.mpr fun x => by simp only [List.count_append]; omega)
    · simp only [isClosing, isConnected, h] at hc
      revert hc
      cases s.closing <;> simp
  · obtain ⟨rest, cnt', deleted, bs', hall, hperm, hread, hmap, hcnt⟩ :=
      eraseAll_spec has [] s.partitionCnt hs.read
    have hperm' : (ps ++ (s.partitions ++ s.lost)).Perm (deleted ++ (ps ++ (rest ++ s.lost))) := by
      refine List.perm_iff_count.mpr fun x => ?_
      have := List.perm_iff_count.mp hperm x
      simp only [List.count_append, List.count_nil] at this ⊢
      omega
    obtain ⟨heap, hf, ho, hk⟩ := Heap.Owns.freeAll deleted (hown.perm hperm')
    obtain ⟨heap', hf', ho', hk'⟩ := Heap.Owns.freeAll ps ho
    rw [has, Option.bind_some, hall, Option.bind_some]
    simp only [hf, Option.bind_some, hf']
    refine ⟨_, _, bs', rfl, ⟨⟨?_, ?_⟩, ho'⟩, ⟨rfl, rfl, fun _ => rfl, .inr ⟨he, hmap, rfl⟩⟩⟩
    · rw [Heap.read_congr fun p hp => (hk' p (List.mem_append_left _ hp)).trans
        (hk p (List.mem_append_right _ (List.mem_append_left _ hp)))]
      exact hread
    · show cnt' = .ofNat 32 rest.length + _
      rw [hs.count] at hcnt
      bv_omega
  · obtain ⟨heap, hf, ho, hk⟩ := Heap.Owns.freeAll ps hown
    rw [has, Option.bind_some, hf]
    refine ⟨_, _, bs, rfl, ⟨⟨?_, hs.count⟩, ho⟩, ⟨rfl, rfl, fun _ => rfl, .inl ⟨rfl, rfl⟩⟩⟩
    rw [Heap.read_congr fun p hp => hk p (List.mem_append_left _ hp)]
    exact hs.read

theorem refreshAssignments_spec (hs : Tracks cnt s bs) (err : Int) (list : List TopicPartition) :
    ∃ t code bs', s.refreshAssignments err list = some (t, code) ∧ Tracks cnt t bs' ∧ Ends s bs true t bs'
      (err = ERR_NO_ERROR ∧ bs' = list ∧ t.assignment = s.assignment) := by
  unfold refreshAssignments
  split_ifs with hc he
  · exact ⟨_, _, bs, rfl, hs, ⟨rfl, rfl, fun _ => rfl, .inl ⟨rfl, rfl⟩⟩⟩
  · exact ⟨_, _, bs, rfl, hs, ⟨rfl, rfl, fun _ => rfl, .inl ⟨rfl, rfl⟩⟩⟩
  · obtain ⟨ho, _, hread⟩ := hs.owns.allocAll list
    have hperm : ((s.heap.allocAll list).2 ++ (s.partitions ++ s.lost)).Perm
        (s.partitions ++ ((s.heap.allocAll list).2 ++ s.lost)) :=
      List.perm_iff_count.mpr fun x => by simp only [List.count_append]; omega
    obtain ⟨heap, hf, ho', hk⟩ := Heap.Owns.freeAll s.partitions (ho.perm hperm)
    simp only [hf, Option.map_some]
    refine ⟨_, _, list, rfl, ⟨⟨?_, by simp⟩, ho'⟩, ⟨rfl, rfl, fun _ => rfl, .inr ⟨not_not.mp he, rfl, rfl⟩⟩⟩
    rw [Heap.read_congr fun p hp => hk p (List.mem_append_left _ hp)]
    exact hread

end State

/-! ## The runs -/

section

variable {cnt : BitVec 32} {s t : State} {bs : List TopicPartition}

def created (objects : List PartitionObject) : List TopicPartition := objects.filterMap PartitionObject.create?

theorem handOver_spec (hs : Tracks cnt s bs) (call : State → List Nat → Int → Option (State × Int)) (called : Bool)
    (objects : List PartitionObject) (err : Int) (changed : State → List TopicPartition → Prop)
    (hcall : ∀ {ps : List Nat} {heap : Heap TopicPartition}, Lists cnt { s with heap } bs →
      heap.Owns (ps ++ (s.partitions ++ s.lost)) → heap.read ps = some (created objects) →
        ∃ t code bs', call { s with heap } ps err = some (t, code) ∧ Tracks cnt t bs' ∧
          Ends { s with heap } bs called t bs' (changed t bs')) :
    ∃ t bs', s.handOver call objects err = some t ∧ Tracks cnt t bs' ∧ Ends s bs called t bs' (changed t bs') := by
  obtain ⟨ho, hk, hread⟩ := hs.owns.allocAll (created objects)
  have hlists : Lists cnt { s with heap := (s.heap.allocAll (created objects)).1 } bs := by
    refine ⟨?_, hs.count⟩
    rw [← hs.read]
    exact Heap.read_congr fun p hp => hk p (List.mem_append_left _ hp)
  obtain ⟨t, code, bs', he, ht, hends⟩ := hcall hlists ho hread
  refine ⟨t, bs', ?_, ht, ⟨hends.client, hends.closing, hends.lost, hends.result⟩⟩
  unfold State.handOver
  exact Option.map_eq_some_iff.mpr ⟨(t, code), he, rfl⟩

def called (s : State) : Ev → Bool
  | .assign _ _ | .incrementalAssign _ _ => s.isConnected
  | .incrementalUnassign _ _ => s.client
  | _ => true

/-- What a step that succeeds does to what `m_partitions` points to and to librdkafka's assignment. -/
def Changes (s : State) (bs : List TopicPartition) (t : State) (bs' : List TopicPartition) : Ev → Prop
  | .connect _ | .beginClose => False
  | .endClose => bs' = bs ∧ t.assignment = []
  | .assign objects err =>
    err = ERR_NO_ERROR ∧ bs' = created objects ∧ t.assignment = (created objects).map TopicPartition.toppar
  | .unassign err => err = ERR_NO_ERROR ∧ bs' = [] ∧ t.assignment = []
  | .incrementalAssign objects err =>
    err = ERR_NO_ERROR ∧ bs' = bs ++ created objects ∧
      t.assignment = s.assignment ++ (created objects).map TopicPartition.toppar
  | .incrementalUnassign objects err =>
    err = ERR_NO_ERROR ∧
      bs'.map TopicPartition.toppar = (bs.map TopicPartition.toppar).diff
        ((created objects).map TopicPartition.toppar) ∧
        t.assignment = s.assignment.filter (· ∉ (created objects).map TopicPartition.toppar)
  | .assignments err list => err = ERR_NO_ERROR ∧ bs' = list ∧ t.assignment = s.assignment

theorem step_spec (hs : Tracks cnt s bs) (e : Ev) : ∃ t bs', step s e = some t ∧ Tracks cnt t bs' ∧
    (called s e = true → t.lost = s.lost) ∧ ((bs' = bs ∧ t.assignment = s.assignment) ∨ Changes s bs t bs' e) := by
  have hsame : ∀ {t : State}, t.heap = s.heap → t.partitions = s.partitions → t.partitionCnt = s.partitionCnt →
      t.counted = s.counted → t.lost = s.lost → Tracks cnt t bs := by
    intro t hh hp hc hn hl
    exact ⟨⟨by rw [hh, hp]; exact hs.read, by rw [hc, hp, hn]; exact hs.count⟩, by rw [hh, hp, hl]; exact hs.owns⟩
  cases e with
  | connect made =>
    simp only [step]
    split_ifs
    · exact ⟨s, bs, rfl, hs, fun _ => rfl, .inl ⟨rfl, rfl⟩⟩
    · exact ⟨s, bs, rfl, hs, fun _ => rfl, .inl ⟨rfl, rfl⟩⟩
    · exact ⟨_, bs, rfl, hsame rfl rfl rfl rfl rfl, fun _ => rfl, .inl ⟨rfl, rfl⟩⟩
    · rw [hs.read]
      exact ⟨_, bs, rfl, hsame rfl rfl rfl rfl rfl, fun _ => rfl, .inl ⟨rfl, rfl⟩⟩
  | beginClose => exact ⟨_, bs, rfl, hsame rfl rfl rfl rfl rfl, fun _ => rfl, .inl ⟨rfl, rfl⟩⟩
  | endClose =>
    simp only [step]
    split_ifs
    · exact ⟨_, bs, rfl, hsame rfl rfl rfl rfl rfl, fun _ => rfl, .inr ⟨rfl, rfl⟩⟩
    · exact ⟨s, bs, rfl, hs, fun _ => rfl, .inl ⟨rfl, rfl⟩⟩
  | assign objects err =>
    obtain ⟨t, bs', he, ht, hends⟩ := handOver_spec hs State.assign s.isConnected objects err
      (Changes s bs · · (.assign objects err)) fun hl ho hr => State.assign_spec hl ho hr err
    exact ⟨t, bs', he, ht, hends.lost, hends.result⟩
  | unassign err =>
    obtain ⟨t, code, bs', he, ht, hends⟩ := State.unassign_spec hs err
    exact ⟨t, bs', Option.map_eq_some_iff.mpr ⟨_, he, rfl⟩, ht, hends.lost, hends.result⟩
  | incrementalAssign objects err =>
    obtain ⟨t, bs', he, ht, hends⟩ := handOver_spec hs State.incrementalAssign s.isConnected objects err
      (Changes s bs · · (.incrementalAssign objects err)) fun hl ho hr => State.incrementalAssign_spec hl ho hr err
    exact ⟨t, bs', he, ht, hends.lost, hends.result⟩
  | incrementalUnassign objects err =>
    obtain ⟨t, bs', he, ht, hends⟩ := handOver_spec hs State.incrementalUnassign s.client objects err
      (Changes s bs · · (.incrementalUnassign objects err)) fun hl ho hr =>
        State.incrementalUnassign_spec hl ho hr err
    exact ⟨t, bs', he, ht, hends.lost, hends.result⟩
  | assignments err list =>
    obtain ⟨t, code, bs', he, ht, hends⟩ := State.refreshAssignments_spec hs err list
    refine ⟨t, bs', ?_, ht, hends.lost, hends.result⟩
    show (s.refreshAssignments err list).bind _ = _
    rw [he, Option.bind_some]
    simp only
    split_ifs
    · rw [ht.read]; rfl
    · rfl

theorem tracks_run {es : List Ev} (hr : (lts cnt).Run es s) : ∃ bs, Tracks cnt s bs := by
  refine Lts.RunWhere.inv (I := fun s => ∃ bs, Tracks cnt s bs) ⟨[], ⟨rfl, ?_⟩, Heap.owns_empty⟩
    (fun s e t ⟨bs, hs⟩ _ h => ?_) hr
  · show cnt = .ofNat 32 0 + cnt
    bv_omega
  · obtain ⟨t', bs', he, ht, _⟩ := step_spec hs e
    obtain rfl := Option.some.inj (h.symm.trans he)
    exact ⟨bs', ht⟩

/-- No step frees or reads an object that is gone. Each object on the heap is in `m_partitions` or lost, and only
there and once, and none is lost by calls that come while there is a client that takes them. -/
theorem partitions_owned {es : List Ev} (hr : (lts cnt).Run es s) :
    s.heap.Owns (s.partitions ++ s.lost) ∧ (∀ e, ∃ t, step s e = some t) ∧
      ((lts cnt).RunWhere (fun s e => called s e = true) es s → s.heap.Owns s.partitions) := by
  obtain ⟨bs, hs⟩ := tracks_run hr
  refine ⟨hs.owns, fun e => ?_, fun hc => ?_⟩
  · obtain ⟨t, _, he, _⟩ := step_spec hs e
    exact ⟨t, he⟩
  · have hlost : (∃ bs, Tracks cnt s bs) ∧ s.lost = [] := by
      refine Lts.RunWhere.inv (I := fun s => (∃ bs, Tracks cnt s bs) ∧ s.lost = [])
        ⟨tracks_run .nil, rfl⟩ (fun s e t ⟨⟨bs, hs⟩, hl⟩ hcalled h => ?_) hc
      obtain ⟨t', bs', he, ht, hlost, _⟩ := step_spec hs e
      obtain rfl := Option.some.inj (h.symm.trans he)
      exact ⟨⟨bs', ht⟩, (hlost hcalled).trans hl⟩
    have := hs.owns
    rwa [hlost.2, List.append_nil] at this

/-- Of three partitions one is unassigned, and what is assigned after the consumer was closed is lost. -/
def assignedAndClosed : List Ev :=
  [.connect true, .assign [⟨"t", 0, none⟩, ⟨"t", 1, some 5⟩] 0, .incrementalAssign [⟨"t", 2, none⟩] 0,
    .incrementalUnassign [⟨"t", 1, none⟩] 0, .beginClose, .unassign 0, .endClose, .assign [⟨"t", 1, none⟩] 0]

theorem partitions_owned_closed : ∃ s, (lts 7).Run assignedAndClosed s ∧ s.lost = [4] ∧
    s.heap.Owns (s.partitions ++ s.lost) ∧ ∃ t, step s (.connect true) = some t := by
  have hs : ((lts 7).exec (fun _ _ => true) (lts 7).init assignedAndClosed).map State.lost = some [4] := by
    decide +kernel
  obtain ⟨s, hs, hl⟩ := Option.map_eq_some_iff.mp hs
  obtain ⟨howns, hstep, _⟩ := partitions_owned (Lts.Run.of_exec hs)
  exact ⟨s, Lts.Run.of_exec hs, hl, howns, hstep _⟩

/-! ## The assignment is librdkafka's -/

/-- What librdkafka keeps to: it assigns no partition twice, and it lists what is assigned. What it still has
assigned when it is closed it gives up without a word to the binding, so that a consumer is closed after it
was unassigned. -/
def honest (s : State) : Ev → Bool
  | .assign objects err => err = ERR_NO_ERROR → ((created objects).map TopicPartition.toppar).Nodup
  | .incrementalAssign objects err =>
    err = ERR_NO_ERROR → (s.assignment ++ (created objects).map TopicPartition.toppar).Nodup
  | .assignments err list => err = ERR_NO_ERROR → (list.map TopicPartition.toppar).Perm s.assignment
  | .endClose => s.assignment = []
  | _ => true

structure Agrees (s : State) (bs : List TopicPartition) : Prop where
  same : (bs.map TopicPartition.toppar).Perm s.assignment
  nodup : s.assignment.Nodup

theorem Agrees.step (ha : Agrees s bs) {e : Ev} (hh : honest s e = true) {bs' : List TopicPartition}
    (h : (bs' = bs ∧ t.assignment = s.assignment) ∨ Changes s bs t bs' e) : Agrees t bs' := by
  rcases h with ⟨rfl, h⟩ | h
  · exact ⟨by rw [h]; exact ha.same, by rw [h]; exact ha.nodup⟩
  cases e with
  | connect _ => exact h.elim
  | beginClose => exact h.elim
  | endClose =>
    obtain ⟨rfl, h⟩ := h
    have hnil : s.assignment = [] := by simpa [honest] using hh
    exact ⟨by rw [h, ← hnil]; exact ha.same, by rw [h]; exact List.nodup_nil⟩
  | assign objects err =>
    obtain ⟨he, rfl, h⟩ := h
    exact ⟨by rw [h], by rw [h]; simpa [honest, he] using hh⟩
  | unassign err =>
    obtain ⟨_, rfl, h⟩ := h
    exact ⟨by rw [h]; rfl, by rw [h]; exact List.nodup_nil⟩
  | incrementalAssign objects err =>
    obtain ⟨he, rfl, h⟩ := h
    refine ⟨?_, ?_⟩
    · rw [h, List.map_append]
      exact ha.same.append_right _
    · rw [h]
      unfold honest at hh
      exact (of_decide_eq_true hh) he
  | incrementalUnassign objects err =>
    obtain ⟨_, hb, h⟩ := h
    refine ⟨?_, by rw [h]; exact ha.nodup.filter _⟩
    rw [hb, h, ← ha.nodup.sdiff_eq_filter]
    exact ha.same.diff_right _
  | assignments err list =>
    obtain ⟨he, rfl, h⟩ := h
    refine ⟨?_, by rw [h]; exact ha.nodup⟩
    rw [h]
    unfold honest at hh
    exact (of_decide_eq_true hh) he

/-- While librdkafka answers as it promises to, `m_partitions` points to the partitions that it has assigned, and
`m_partition_cnt` is their number once it has been assigned. -/
theorem partitions_agree {es : List Ev} (hr : (lts cnt).RunWhere (fun s e => honest s e = true) es s) :
    ∃ bs, s.heap.read s.partitions = some bs ∧ (bs.map TopicPartition.toppar).Perm s.assignment ∧
      (s.counted = true → s.partitionCnt = .ofNat 32 s.assignment.length) := by
  obtain ⟨bs, hs, ha⟩ : ∃ bs, Tracks cnt s bs ∧ Agrees s bs := by
    refine Lts.RunWhere.inv (I := fun s => ∃ bs, Tracks cnt s bs ∧ Agrees s bs) ?_
      (fun s e t ⟨bs, hs, ha⟩ hh h => ?_) hr
    · obtain ⟨bs, hs⟩ := tracks_run (s := (lts cnt).init) .nil
      obtain rfl : [] = bs := Option.some.inj hs.read
      exact ⟨[], hs, .refl _, List.nodup_nil⟩
    · obtain ⟨t', bs', he, ht, _, hres⟩ := step_spec hs e
      obtain rfl := Option.some.inj (h.symm.trans he)
      exact ⟨bs', ht, ha.step hh hres⟩
  refine ⟨bs, hs.read, ha.same, fun hc => ?_⟩
  have hlen : s.partitions.length = s.assignment.length := by
    rw [← ha.same.length_eq, List.length_map]
    exact (Heap.length_read hs.read).symm
  rw [hs.count, hc, if_pos rfl, hlen]
  exact BitVec.add_zero _

theorem partitions_agree_assigned : ∃ s, (lts 7).RunWhere (fun s e => honest s e = true)
    (assignedAndClosed.take 4) s ∧
    s.partitionCnt = 2 ∧ ∃ bs, s.heap.read s.partitions = some bs ∧
      (bs.map TopicPartition.toppar).Perm s.assignment := by
  have hs : ((lts 7).exec honest (lts 7).init (assignedAndClosed.take 4)).map
      (fun s => (s.counted, s.assignment.length)) = some (true, 2) := by decide +kernel
  obtain ⟨s, hs, hx⟩ := Option.map_eq_some_iff.mp hs
  obtain ⟨hc, hlen⟩ := Prod.mk.inj hx
  have hr := Lts.RunWhere.of_exec .nil hs
  obtain ⟨bs, hread, hperm, hcnt⟩ := partitions_agree hr
  refine ⟨s, hr, ?_, bs, hread, hperm⟩
  rw [hcnt hc, hlen]
  rfl

end

end KafkaConsumer

end ConfluentKafka
