import ConfluentKafka.JsMap
import ConfluentKafka.LinkedList

/-!
# The message cache of `_consumer_cache.js`

A `PerPartitionMessageCache` (PPC) is an object a worker keeps a handle of
while the cache may already have dropped it, so the PPCs live in a heap too
and a handle is an address. `listNodes` are the nodes of the two lists of PPCs,
`msgNodes` those of the message lists of all PPCs.

`#availablePartitionsPromise` is resolved and replaced in one go, so the
promise in place is the `availableGen`-th and every earlier one is resolved.
-/

namespace ConfluentKafka

class Toppar (τ : Type) where
  topic : τ → String
  partition : τ → Int

def partitionKey {τ : Type} [Toppar τ] (tp : τ) : String :=
  Toppar.topic tp ++ "|" ++ toString (Toppar.partition tp)

structure TopicPartition where
  topic : String
  partition : Int
  deriving DecidableEq, Repr

instance : Toppar TopicPartition := ⟨TopicPartition.topic, TopicPartition.partition⟩

structure Message where
  topic : String
  partition : Int
  offset : Int
  leaderEpoch : Int
  deriving DecidableEq, Repr

instance : Toppar Message := ⟨Message.topic, Message.partition⟩

structure Ppc where
  cache : LinkedList
  key : String
  assigned : Bool
  node : Option Nat

structure MessageCache (μ : Type) where
  size : Int
  tpToPpc : JsMap String Nat
  availablePartitions : LinkedList
  assignedPartitions : LinkedList
  availableGen : Nat
  ppcs : List Ppc
  listNodes : NodeHeap Nat
  msgNodes : NodeHeap μ

namespace MessageCache

variable {μ : Type}

def new : MessageCache μ := ⟨0, .empty, .empty, .empty, 0, [], [], []⟩

def availableSize (c : MessageCache μ) : Int := c.availablePartitions.count

def assignedSize (c : MessageCache μ) : Int := c.assignedPartitions.count

def ppcAssigned (c : MessageCache μ) (p : Nat) : Bool := (c.ppcs[p]?.map (·.assigned)).getD false

def ppcSize (c : MessageCache μ) (p : Nat) : Int := (c.ppcs[p]?.map (·.cache.count)).getD 0

def notifyAvailablePartitions (c : MessageCache μ) : MessageCache μ :=
  { c with availableGen := c.availableGen + 1 }

def modifyPpc (c : MessageCache μ) (p : Nat) (f : Ppc → Ppc) : MessageCache μ :=
  { c with ppcs := c.ppcs.modify p f }

/-! ## One PPC -/

def ppcAddLast (c : MessageCache μ) (p : Nat) (message : μ) : MessageCache μ :=
  match c.ppcs[p]? with
  | none => c
  | some ppc =>
    let (h, l, _) := LinkedList.addLast c.msgNodes ppc.cache message
    { c.modifyPpc p fun q => { q with cache := l } with msgNodes := h }

def ppcAddFirst (c : MessageCache μ) (p : Nat) (message : μ) : MessageCache μ :=
  match c.ppcs[p]? with
  | none => c
  | some ppc =>
    let (h, l, _) := LinkedList.addFirst c.msgNodes ppc.cache message
    { c.modifyPpc p fun q => { q with cache := l } with msgNodes := h }

def ppcNext (c : MessageCache μ) (p : Nat) : MessageCache μ × Option μ :=
  match c.ppcs[p]? with
  | none => (c, none)
  | some ppc =>
    let (h, l, v) := LinkedList.removeFirst c.msgNodes ppc.cache
    ({ c.modifyPpc p fun q => { q with cache := l } with msgNodes := h }, v)

/-- The loop of `_nextN`: `n` times `removeFirst`. -/
def ppcTake (c : MessageCache μ) (p : Nat) : Nat → MessageCache μ × List μ
  | 0 => (c, [])
  | n + 1 =>
    match c.ppcNext p with
    | (c, none) => (c, [])
    | (c, some m) => ((c.ppcTake p n).1, m :: (c.ppcTake p n).2)

def ppcNextN (c : MessageCache μ) (p : Nat) (n : Int) : MessageCache μ × List μ :=
  let len := c.ppcSize p
  let n := if n < 0 ∨ len < n then len else n
  c.ppcTake p n.toNat

/-! ## The cache -/

def assignNewPartition (c : MessageCache μ) : MessageCache μ × Option Nat :=
  match LinkedList.removeFirst c.listNodes c.availablePartitions with
  | (h, l, none) => ({ c with listNodes := h, availablePartitions := l }, none)
  | (h, l, some p) =>
    let (h, l', node) := LinkedList.addLast h c.assignedPartitions p
    ({ c with
        listNodes := h
        availablePartitions := l
        assignedPartitions := l'
        ppcs := c.ppcs.modify p fun q => { q with node := some node, assigned := true } }, some p)

def removeEmptyPartition (c : MessageCache μ) (p : Nat) : MessageCache μ :=
  match c.ppcs[p]? with
  | none => c
  | some ppc =>
    let (h, l) :=
      match ppc.node with
      | some node => LinkedList.remove c.listNodes c.assignedPartitions node
      | none => (c.listNodes, c.assignedPartitions)
    { c with
      listNodes := h
      assignedPartitions := l
      ppcs := c.ppcs.modify p fun q => { q with assigned := false, node := none }
      tpToPpc := c.tpToPpc.delete ppc.key }

section
variable [Toppar μ]

def ppcFor (c : MessageCache μ) (message : μ) : MessageCache μ × Nat :=
  let key := partitionKey message
  match c.tpToPpc.get? key with
  | some p => (c, p)
  | none =>
    let p := c.ppcs.length
    let (h, l, node) := LinkedList.addLast c.listNodes c.availablePartitions p
    ({ c with
        ppcs := c.ppcs ++ [(⟨.empty, key, false, some node⟩ : Ppc)]
        tpToPpc := c.tpToPpc.set key p
        listNodes := h
        availablePartitions := l }.notifyAvailablePartitions, p)

def add (c : MessageCache μ) (message : μ) (head : Bool) : MessageCache μ :=
  let (c, p) := c.ppcFor message
  if head then c.ppcAddFirst p message else c.ppcAddLast p message

def addMessages (c : MessageCache μ) (messages : List μ) : MessageCache μ :=
  let c := messages.foldl (fun c m => c.add m false) c
  { c with size := c.size + messages.length }

def returnMessages (c : MessageCache μ) (messages : List μ) : MessageCache μ :=
  let c := messages.foldr (fun m c => c.add m true) c
  { c with size := c.size + messages.length }

end

def markStaleKey (c : MessageCache μ) (key : String) : MessageCache μ :=
  match c.tpToPpc.get? key with
  | none => c
  | some p =>
    match c.ppcs[p]? with
    | none => c
    | some ppc =>
      let node := ppc.node.getD c.listNodes.length
      let c := { c with size := c.size - c.ppcSize p }
      let c :=
        if ppc.assigned then
          let (h, l) := LinkedList.remove c.listNodes c.assignedPartitions node
          { c with listNodes := h, assignedPartitions := l }
        else
          let (h, l) := LinkedList.remove c.listNodes c.availablePartitions node
          { c with listNodes := h, availablePartitions := l }
      { c with
        tpToPpc := c.tpToPpc.delete key
        ppcs := c.ppcs.modify p fun q => { q with assigned := false } }

def markStale {τ : Type} [Toppar τ] (c : MessageCache μ) (topicPartitions : List τ) : MessageCache μ :=
  topicPartitions.foldl (fun c tp => c.markStaleKey (partitionKey tp)) c

def giveBack (c : MessageCache μ) (p : Nat) : MessageCache μ :=
  match c.ppcs[p]? with
  | none => c
  | some ppc =>
    if !ppc.assigned then c else
    match ppc.node with
    | none => c
    | some node =>
      let (h, l) := LinkedList.remove c.listNodes c.assignedPartitions node
      let (h, l', node') := LinkedList.addLast h c.availablePartitions p
      { c with
        listNodes := h
        assignedPartitions := l
        availablePartitions := l'
        ppcs := c.ppcs.modify p fun q => { q with node := some node', assigned := false }
      }.notifyAvailablePartitions

/-- What `next` and `nextN` share: `pull` takes messages off the given PPC if
it is assigned, else off a newly assigned one; an exhausted PPC is removed and
the next available one is tried. Each try takes a PPC off a list, so the nodes
of the lists bound the tries. -/
def nextWith (pull : MessageCache μ → Nat → MessageCache μ × List μ) :
    Nat → MessageCache μ → Option Nat → MessageCache μ × Option (List μ × Nat)
  | 0, c, _ => (c, none)
  | fuel + 1, c, ppc =>
    let (c, ppc) : MessageCache μ × Option Nat :=
      match ppc with
      | some p => if c.ppcAssigned p then (c, some p) else c.assignNewPartition
      | none => c.assignNewPartition
    match ppc with
    | none => (c, none)
    | some p =>
      match pull c p with
      | (c, []) => nextWith pull fuel (c.removeEmptyPartition p) none
      | (c, m :: ms) => ({ c with size := c.size - (m :: ms).length }, some (m :: ms, p))

def nextN (c : MessageCache μ) (ppc : Option Nat) (n : Int) : MessageCache μ × Option (List μ × Nat) :=
  nextWith (fun c p => c.ppcNextN p n) (c.listNodes.length + 2) c ppc

def next (c : MessageCache μ) (ppc : Option Nat) : MessageCache μ × Option (μ × Nat) :=
  let (c, r) := nextWith (fun c p => ((c.ppcNext p).1, (c.ppcNext p).2.toList)) (c.listNodes.length + 2) c ppc
  (c, r.bind fun (ms, p) => ms.head?.map (·, p))

def clear (c : MessageCache μ) : MessageCache μ :=
  { c with
    ppcs := c.tpToPpc.values.foldl (fun ps p => ps.modify p fun q => { q with assigned := false }) c.ppcs
    tpToPpc := .empty
    availablePartitions := .empty
    assignedPartitions := .empty
    size := 0 }

end MessageCache

end ConfluentKafka
