import ConfluentKafka.Grouping

/-!
# `fetchOffsets` of `_admin.js`

The offsets of a group come as one list of partitions and are returned by topic.
Where the application names topics, the offsets of all partitions are asked for
and those of other topics are dropped. Errors of the client are codes, and
offsets are of any type that has a text.
-/

namespace ConfluentKafka

namespace Admin

inductive Topics where
  | names (topics : List String)
  | partitions (topics : List (String × List Int))
  deriving DecidableEq, Repr

structure FetchOptions where
  groupId : String
  topics : Option Topics
  resolveOffsets : Bool
  deriving DecidableEq, Repr

inductive FetchError where
  | notConnected
  | notImplemented
  | groupIdRequired
  | invalidTopics
  | unexpectedGroups
  | client (code : Int)
  deriving DecidableEq, Repr

structure PartitionResult (ω : Type) where
  topic : String
  partition : Int
  offset : ω
  leaderEpoch : Option Int
  metadata : Option String
  error : Option Int
  deriving DecidableEq, Repr

structure GroupResult (ω : Type) where
  error : Option Int
  partitions : List (PartitionResult ω)
  deriving DecidableEq, Repr

structure FetchOffsetsPartition where
  partition : Int
  offset : String
  metadata : Option String
  leaderEpoch : Option Int
  error : Option Int
  deriving DecidableEq, Repr

structure TopicOffsets where
  topic : String
  partitions : List FetchOffsetsPartition
  deriving DecidableEq, Repr

/-- What is asked of librdkafka: the offsets of these partitions, or of all; and what is kept of them. -/
structure OffsetsRequest where
  partitions : Option (List (String × Int))
  originalTopics : Option (List String)
  deriving DecidableEq, Repr

def request (connected : Bool) (o : FetchOptions) : Except FetchError OffsetsRequest :=
  if !connected then .error .notConnected
  else if o.resolveOffsets then .error .notImplemented
  else if o.groupId = "" then .error .groupIdRequired
  else
    match o.topics with
    | none => .ok ⟨none, none⟩
    | some (.names []) => .error .invalidTopics
    | some (.names topics) => .ok ⟨none, some topics⟩
    | some (.partitions []) => .error .invalidTopics
    | some (.partitions topics) => .ok ⟨some (topics.flatMap fun t => t.2.map fun p => (t.1, p)), none⟩

def convert {ω : Type} (text : ω → String) (p : PartitionResult ω) : FetchOffsetsPartition where
  partition := p.partition
  offset := text p.offset
  metadata := if p.metadata = some "" then none else p.metadata
  leaderEpoch := if p.leaderEpoch = some 0 then none else p.leaderEpoch
  error := p.error

def addPartition {ω : Type} (text : ω → String) (m : JsMap String (List FetchOffsetsPartition))
    (p : PartitionResult ω) :
    JsMap String (List FetchOffsetsPartition) :=
  let m := if m.has p.topic then m else m.set p.topic []
  m.set p.topic ((m.get? p.topic).getD [] ++ [convert text p])

def respond {ω : Type} (text : ω → String) (originalTopics : Option (List String)) :
    Except Int (List (GroupResult ω)) → Except FetchError (List TopicOffsets)
  | .error code => .error (.client code)
  | .ok [groupResult] =>
    match groupResult.error with
    | some code => .error (.client code)
    | none =>
      let topicPartitionMap := groupResult.partitions.foldl (addPartition text) .empty
      let convertedOffsets := topicPartitionMap.entries.map fun e => (⟨e.1, e.2⟩ : TopicOffsets)
      .ok <| match originalTopics with
        | some topics => convertedOffsets.filter fun o => o.topic ∈ topics
        | none => convertedOffsets
  | .ok _ => .error .unexpectedGroups

/-- `answer` is what librdkafka answers to a request. -/
def fetchOffsets {ω : Type} (text : ω → String) (connected : Bool)
    (answer : String → Option (List (String × Int)) → Except Int (List (GroupResult ω))) (o : FetchOptions) :
    Except FetchError (List TopicOffsets) :=
  (request connected o).bind fun r => respond text r.originalTopics (answer o.groupId r.partitions)

/-! ## Nothing is lost by the grouping -/

section

variable {ω : Type} {text : ω → String}

theorem addPartition_eq (m : JsMap String (List FetchOffsetsPartition)) (p : PartitionResult ω) :
    addPartition text m p = m.set p.topic ((m.get? p.topic).getD [] ++ [convert text p]) := by
  unfold addPartition JsMap.has
  cases h : m.get? p.topic with
  | some ps => simp [h]
  | none =>
    simp only [Option.isSome_none, Bool.false_eq_true, if_false, JsMap.get?_set, if_true, Option.getD_some,
      Option.getD_none]
    exact JsMap.set_set m p.topic _ _

theorem grouped_eq (ps : List (PartitionResult ω)) : ps.foldl (addPartition text) .empty =
    JsMap.group PartitionResult.topic (fun a p => a.getD [] ++ [convert text p]) ps := by
  unfold JsMap.group
  refine congrArg (fun f => List.foldl f _ ps) ?_
  funext m p
  exact addPartition_eq m p

variable (text) in
theorem foldl_pushed (ps : List (PartitionResult ω)) :
    (ps.foldl (fun a p => some (a.getD [] ++ [convert text p])) none).getD [] = ps.map (convert text) := by
  have hfold : ∀ (ps : List (PartitionResult ω)) (a : Option (List FetchOffsetsPartition)),
      (ps.foldl (fun a p => some (a.getD [] ++ [convert text p])) a).getD [] = a.getD [] ++ ps.map
      (convert text) := by
    intro ps
    induction ps with
    | nil => simp
    | cons p ps ih =>
      intro a
      rw [List.foldl_cons, ih, List.map_cons]
      simp
  simpa using hfold ps none

/-- When `fetchOffsets` resolves, each topic that was asked for and has an offset comes once, in the order of
the answer, with all its partitions in that order. -/
theorem fetchOffsets_spec {connected : Bool}
    {answer : String → Option (List (String × Int)) → Except Int (List (GroupResult ω))} {o : FetchOptions}
    {result : List TopicOffsets} (h : fetchOffsets text connected answer o = .ok result) :
    ∃ r g, request connected o = .ok r ∧ answer o.groupId r.partitions = .ok [g] ∧ g.error = none ∧
      result = ((g.partitions.map PartitionResult.topic).eraseDups.filter fun topic =>
        r.originalTopics.all fun topics => topic ∈ topics).map fun topic =>
          ⟨topic, (g.partitions.filter fun p => p.topic = topic).map (convert text)⟩ := by
  obtain ⟨r, hr, h⟩ : ∃ r, request connected o = .ok r ∧
      respond text r.originalTopics (answer o.groupId r.partitions) = .ok result := by
    unfold fetchOffsets at h
    cases hr : request connected o with
    | error e => rw [hr] at h; cases h
    | ok r => rw [hr] at h; exact ⟨r, rfl, h⟩
  unfold respond at h
  split at h
  · cases h
  · rename_i g hg
    split at h
    · cases h
    · rename_i he
      refine ⟨r, g, hr, hg, he, ?_⟩
      have hentries : (g.partitions.foldl (addPartition text) .empty).entries.map
        (fun e => (⟨e.1, e.2⟩ : TopicOffsets)) =
          (g.partitions.map PartitionResult.topic).eraseDups.map fun topic =>
            ⟨topic, (g.partitions.filter fun p => p.topic = topic).map (convert text)⟩ := by
        rw [grouped_eq, ← JsMap.keys_group, List.map_map]
        refine List.map_congr_left fun e he => ?_
        have hget := JsMap.get?_eq_some.mpr he
        rw [JsMap.get?_group] at hget
        have hpushed := foldl_pushed text (g.partitions.filter fun p => p.topic = e.1)
        rw [hget] at hpushed
        show (⟨e.1, e.2⟩ : TopicOffsets) = ⟨e.1, _⟩
        rw [← hpushed]
        rfl
      have h := Except.ok.inj h
      rw [hentries] at h
      rw [← h]
      cases r.originalTopics with
      | none => simp
      | some topics =>
        simp only [List.filter_map, Option.all_some]
        rfl
  · cases h

def storedOffsets (_ : String) (_ : Option (List (String × Int))) : Except Int (List (GroupResult Int)) :=
  .ok [⟨none, [⟨"t", 1, 5, some 0, some "", none⟩, ⟨"u", 0, 7, none, none, none⟩, ⟨"t", 0, 9, some 2, none, none⟩]⟩]

theorem fetchOffsets_spec_names : ∃ r g,
    request true ⟨"g", some (.names ["t"]), false⟩ = .ok r ∧ storedOffsets "g" r.partitions = .ok [g] ∧
      g.error = none ∧
      [⟨"t", [⟨1, "5", none, none, none⟩, ⟨0, "9", none, some 2, none⟩]⟩] =
        ((g.partitions.map PartitionResult.topic).eraseDups.filter fun topic =>
          r.originalTopics.all fun topics => topic ∈ topics).map fun topic =>
            (⟨topic, (g.partitions.filter fun p => p.topic = topic).map (convert toString)⟩ : TopicOffsets) :=
  have h : fetchOffsets toString true storedOffsets ⟨"g", some (.names ["t"]), false⟩ =
      .ok [⟨"t", [⟨1, "5", none, none, none⟩, ⟨0, "9", none, some 2, none⟩]⟩] := by decide +kernel
  fetchOffsets_spec h

end

end Admin

end ConfluentKafka
