import ConfluentKafka.Bytes
import ConfluentKafka.Headers
import Mathlib.Data.Rat.Defs
import Mathlib.Logic.Function.Iterate

/-!
# `send` of the producer

`send` of `_producer.js` without serializers. Messages are objects of the application that `send`
writes the normalised partition, timestamp and headers into, so they are addresses of a heap, and
one message may stand in the list more than once. What a call hands to `produce` does not depend on
how the earlier ones ended.
-/

namespace ConfluentKafka

namespace Producer

/-! ## Messages -/

inductive JsNumber where
  | nan
  | infinity (negative : Bool)
  | finite (q : ℚ)
  deriving DecidableEq

inductive Field (α : Type) where
  | absent
  | undefined
  | null
  | value (a : α)
  deriving DecidableEq

/-- What a key, a value or a header of a message may be. `other` is what the checks refuse. -/
inductive Datum where
  | buffer (data : Bytes)
  | string (s : List Char)
  | other
  deriving DecidableEq

inductive Timestamp where
  | number (n : JsNumber)
  | string (s : List Char)
  deriving DecidableEq

/-- What stands in a header object: a value of the application, or a header object. -/
inductive HeaderValue where
  | undefined
  | datum (d : Datum)
  | object (own : List (String × HeaderValue))

/-- The property `headers`: a map of the application, or the list that `send` has written. -/
inductive MsgHeaders where
  | absent
  | null
  | map (o : JsObject (OneOrMany HeaderValue))
  | list (hs : List (JsObject HeaderValue))

structure Msg where
  key : Field Datum
  value : Field Datum
  partition : Field Int
  timestamp : Field Timestamp
  headers : MsgHeaders

abbrev Heap := Nat → Msg

structure SendOptions where
  topic : List Char
  acks : Bool
  timeout : Bool
  compression : Bool
  messages : List Nat

/-- The errors of code `ERR__STATE` and `ERR__INVALID_ARG` that `send` throws. -/
inductive SendError where
  | notConnected
  | acks
  | timeout
  | compression
  | topic
  | key
  | value
  deriving DecidableEq

/-! ## Normalisation -/

/-- `Object.entries` of an array. -/
def indexed {α : Type} (xs : List α) : List (String × α) := xs.zipIdx.map fun x => (toString x.2, x.1)

def MsgHeaders.convert : MsgHeaders → Option (List (JsObject HeaderValue))
  | .absent => none
  | .null => none
  | .map o => convertToRdKafkaHeaders (some o)
  | .list hs => some (convertEntries (indexed (hs.map fun h => .one (.object h.own.entries))))

/-- The property after the list, or `null`, was written into it. -/
def MsgHeaders.ofRdKafka : Option (List (JsObject HeaderValue)) → MsgHeaders
  | none => .null
  | some hs => .list hs

def JsNumber.truthy (n : JsNumber) : Bool := n ≠ .nan ∧ n ≠ .finite 0

def normalisePartition : Field Int → Field Int
  | .absent => .value (-1)
  | .null => .value (-1)
  | p => p

section

-- `Number` of a string
variable (number : List Char → JsNumber)

def normaliseTimestamp : Field Timestamp → JsNumber
  | .value (.number n) => if n.truthy then n else .finite 0
  | .value (.string s) => if s ≠ [] then number s else .finite 0
  | _ => .finite 0

def nullish : Field Datum → Option Datum
  | .value d => some d
  | _ => none

def bufferFrom : Datum → Datum
  | .string s => .buffer (s.flatMap String.utf8EncodeChar)
  | d => d

structure Prepared where
  msg : Nat
  key : Option Datum
  value : Option Datum
  headers : MsgHeaders

def prepare (heap : Heap) (msg : Nat) : Except SendError Prepared :=
  let key := nullish (heap msg).key
  let value := (nullish (heap msg).value).map bufferFrom
  if key = some .other then .error .key
  else if value = some .other then .error .value
  else .ok ⟨msg, key, value, (heap msg).headers⟩

/-- The arguments of `produce`, but for the topic and the callbacks. -/
structure Produced where
  partition : Field Int
  value : Option Datum
  key : Option Datum
  timestamp : JsNumber
  headers : Option (List (JsObject HeaderValue))

def normalise (headers : MsgHeaders) (m : Msg) : Msg :=
  { m with
    partition := normalisePartition m.partition
    timestamp := .value (.number (normaliseTimestamp number m.timestamp))
    headers := .ofRdKafka headers.convert }

def produceAll : Heap → List Prepared → Heap × List Produced
  | heap, [] => (heap, [])
  | heap, p :: ps =>
    let m := heap p.msg
    let call : Produced :=
      ⟨normalisePartition m.partition, p.value, p.key, normaliseTimestamp number m.timestamp, p.headers.convert⟩
    let (heap, calls) := produceAll (Function.update heap p.msg (normalise number p.headers m)) ps
    (heap, call :: calls)

def send (connected : Bool) (heap : Heap) (o : SendOptions) : Except SendError (Heap × List Produced) := do
  if !connected then throw .notConnected
  if o.acks then throw .acks
  if o.timeout then throw .timeout
  if o.compression then throw .compression
  if o.topic = [] then throw .topic
  let prepared ← o.messages.mapM (prepare heap)
  return produceAll number heap prepared

end

/-! ## Sending again -/

def MsgHeaders.Free : MsgHeaders → Prop
  | .absent => True
  | .null => True
  | .map o => ∀ key x, o.get? key = some x → x.values = []
  | .list hs => hs = []

/-- The message has no header, and its timestamp is not a text that `Number` cannot read. -/
structure Msg.Resendable (number : List Char → JsNumber) (m : Msg) : Prop where
  headers : m.headers.Free
  timestamp : ∀ s, m.timestamp = .value (.string s) → s ≠ [] → number s ≠ .nan

theorem convertEntries_eq_nil_iff {α : Type} (es : List (String × OneOrMany α)) :
    convertEntries es = [] ↔ ∀ e ∈ es, e.2.values = [] := by
  rw [convertEntries_eq, List.flatMap_eq_nil_iff]
  simp

theorem convert_list_eq_nil_iff (hs : List (JsObject HeaderValue)) :
    convertEntries (indexed (hs.map fun h => OneOrMany.one (HeaderValue.object h.own.entries))) = [] ↔ hs = [] := by
  rw [convertEntries_eq_nil_iff]
  cases hs with
  | nil => simp [indexed]
  | cons h hs => simp [indexed, OneOrMany.values]

/-- An object does not hold itself, so a list of header objects is not converted to itself. -/
theorem convert_list_eq_self_iff (hs : List (JsObject HeaderValue)) : (MsgHeaders.list hs).convert =
    some hs ↔ hs = [] := by
  constructor
  · intro heq
    cases hs with
    | nil => rfl
    | cons h hs =>
      have hhead : header (toString 0) (HeaderValue.object h.own.entries) = h := by
        simp only [MsgHeaders.convert, indexed, List.map_cons, List.zipIdx_cons, convertEntries, List.flatMap_cons,
          List.singleton_append, Option.some.injEq, List.cons.injEq] at heq
        exact heq.1
      have hown : h.own.entries = [(toString 0, HeaderValue.object h.own.entries)] :=
        congrArg (fun o => o.own.entries) hhead.symm
      have hsize := congrArg sizeOf hown
      simp at hsize
      omega
  · rintro rfl
    rfl

/-- The second conversion gives objects of objects, so it gives the same only where there are none. -/
theorem convert_again_iff (headers : MsgHeaders) :
    (MsgHeaders.ofRdKafka headers.convert).convert = headers.convert ↔ headers.Free := by
  cases headers with
  | absent => exact iff_of_true rfl trivial
  | null => exact iff_of_true rfl trivial
  | map o =>
    refine (convert_list_eq_self_iff _).trans ?_
    rw [convertEntries_eq_nil_iff]
    constructor
    · intro h key x hx
      exact h (key, x) (JsObject.mem_entries.mpr hx)
    · intro h e he
      exact h e.1 e.2 (JsObject.mem_entries.mp he)
  | list hs => exact (convert_list_eq_self_iff _).trans (convert_list_eq_nil_iff hs)

section

variable (number : List Char → JsNumber)

theorem normalisePartition_idem (p : Field Int) : normalisePartition (normalisePartition p) =
    normalisePartition p := by
  cases p <;> rfl

/-- A number that was written is read as it is, but for the one that is not a number. -/
theorem normaliseTimestamp_number (n : JsNumber) :
    normaliseTimestamp number (.value (.number n)) = if n = .nan then .finite 0 else n := by
  by_cases hn : n = .nan
  · simp [normaliseTimestamp, JsNumber.truthy, hn]
  · by_cases h0 : n = .finite 0
    · simp [normaliseTimestamp, JsNumber.truthy, h0]
    · simp [normaliseTimestamp, JsNumber.truthy, hn, h0]

theorem normaliseTimestamp_eq_nan_iff (t : Field Timestamp) :
    normaliseTimestamp number t = .nan ↔ ∃ s, t = .value (.string s) ∧ s ≠ [] ∧ number s = .nan := by
  cases t with
  | value t =>
    cases t with
    | number n =>
      rw [normaliseTimestamp_number]
      by_cases hn : n = .nan <;> simp [hn]
    | string s =>
      by_cases hs : s = [] <;> simp [normaliseTimestamp, hs]
  | _ => simp [normaliseTimestamp]

theorem Msg.resendable_iff (m : Msg) : m.Resendable number ↔
    (MsgHeaders.ofRdKafka m.headers.convert).convert = m.headers.convert ∧
      normaliseTimestamp number m.timestamp ≠ .nan := by
  rw [convert_again_iff, Ne, normaliseTimestamp_eq_nan_iff]
  constructor
  · rintro ⟨h₁, h₂⟩
    exact ⟨h₁, fun ⟨s, hs, hne, hnan⟩ => h₂ s hs hne hnan⟩
  · rintro ⟨h₁, h₂⟩
    exact ⟨h₁, fun s hs hne hnan => h₂ ⟨s, hs, hne, hnan⟩⟩

def taken (heap : Heap) (msg : Nat) : Prepared :=
  ⟨msg, nullish (heap msg).key, (nullish (heap msg).value).map bufferFrom, (heap msg).headers⟩

def Accepted (m : Msg) : Prop := nullish m.key ≠ some .other ∧ (nullish m.value).map bufferFrom ≠ some .other

theorem prepare_eq_ok_iff (heap : Heap) (msg : Nat) (p : Prepared) :
    prepare heap msg = .ok p ↔ Accepted (heap msg) ∧ p = taken heap msg := by
  unfold prepare Accepted taken
  dsimp only
  split
  · next h => simp [h]
  split
  · next h => simp [h]
  · next h₁ h₂ => simp [h₁, h₂, eq_comm]

theorem mapM_prepare_eq_ok_iff (heap : Heap) (msgs : List Nat) (ps : List Prepared) :
    msgs.mapM (prepare heap) = .ok ps ↔ (∀ a ∈ msgs, Accepted (heap a)) ∧ ps = msgs.map (taken heap) := by
  induction msgs generalizing ps with
  | nil =>
    rw [List.mapM_nil]
    exact ⟨fun h => by cases h; simp, fun h => by rw [h.2]; rfl⟩
  | cons a msgs ih =>
    rw [List.mapM_cons, List.forall_mem_cons, List.map_cons]
    cases hp : prepare heap a with
    | error e =>
      have hno : ¬Accepted (heap a) := fun h => by
        rw [(prepare_eq_ok_iff heap a _).mpr ⟨h, rfl⟩] at hp
        cases hp
      exact ⟨fun h => (by cases h), fun h => absurd h.1.1 hno⟩
    | ok p =>
      obtain ⟨hacc, rfl⟩ := (prepare_eq_ok_iff heap a p).mp hp
      cases hm : msgs.mapM (prepare heap) with
      | error e =>
        have hno : ¬∀ b ∈ msgs, Accepted (heap b) := fun h => by
          rw [(ih _).mpr ⟨h, rfl⟩] at hm
          cases hm
        exact ⟨fun h => (by cases h), fun h => absurd h.1.2 hno⟩
      | ok qs =>
        obtain ⟨hall, rfl⟩ := (ih qs).mp hm
        constructor
        · intro h
          cases h
          exact ⟨⟨hacc, hall⟩, rfl⟩
        · rintro ⟨-, rfl⟩
          rfl

def callOf (p : Prepared) (m : Msg) : Produced :=
  ⟨normalisePartition m.partition, p.value, p.key, normaliseTimestamp number m.timestamp, p.headers.convert⟩

theorem produceAll_cons (heap : Heap) (p : Prepared) (ps : List Prepared) :
    produceAll number heap (p :: ps) =
      ((produceAll number (Function.update heap p.msg (normalise number p.headers (heap p.msg))) ps).1,
        callOf number p (heap p.msg) ::
          (produceAll number (Function.update heap p.msg (normalise number p.headers (heap p.msg))) ps).2) := rfl

theorem produceAll_append (heap : Heap) (ps qs : List Prepared) :
    produceAll number heap (ps ++ qs) =
      ((produceAll number (produceAll number heap ps).1 qs).1,
        (produceAll number heap ps).2 ++ (produceAll number (produceAll number heap ps).1 qs).2) := by
  induction ps generalizing heap with
  | nil => rfl
  | cons p ps ih => rw [List.cons_append, produceAll_cons, ih, produceAll_cons, List.cons_append]

theorem length_produceAll (heap : Heap) (ps : List Prepared) : (produceAll number heap ps).2.length =
    ps.length := by
  induction ps generalizing heap with
  | nil => rfl
  | cons p ps ih => rw [produceAll_cons, List.length_cons, List.length_cons, ih]

/-- Messages that are not in the list are not written to. -/
theorem produceAll_of_not_mem {heap : Heap} {ps : List Prepared} {a : Nat} (h : a ∉ ps.map Prepared.msg) :
    (produceAll number heap ps).1 a = heap a := by
  induction ps generalizing heap with
  | nil => rfl
  | cons p ps ih =>
    rw [List.map_cons, List.mem_cons, not_or] at h
    rw [produceAll_cons, ih h.2, Function.update_of_ne h.1]

/-- What a message that was produced holds: the conversion of the headers taken, and a number. -/
structure Written (p : Prepared) (m : Msg) : Prop where
  headers : m.headers = .ofRdKafka p.headers.convert
  timestamp : ∃ n, m.timestamp = .value (.number n)

theorem written_produceAll {captured : Heap} {a : Nat} {msgs : List Nat} {heap : Heap}
    (h : a ∈ msgs ∨ Written (taken captured a) (heap a)) :
    Written (taken captured a) ((produceAll number heap (msgs.map (taken captured))).1 a) := by
  induction msgs generalizing heap with
  | nil => exact h.resolve_left (by simp)
  | cons b msgs ih =>
    rw [List.map_cons, produceAll_cons]
    refine ih ?_
    by_cases hab : a = b
    · subst hab
      right
      show Written _ (Function.update heap a _ a)
      rw [Function.update_self]
      exact ⟨rfl, _, rfl⟩
    · rcases h with h | h
      · exact .inl ((List.mem_cons.mp h).resolve_left hab)
      · right
        show Written _ (Function.update heap b _ a)
        rw [Function.update_of_ne hab]
        exact h

theorem keys_produceAll (heap : Heap) (ps : List Prepared) (a : Nat) :
    ((produceAll number heap ps).1 a).key = (heap a).key ∧ ((produceAll number heap ps).1 a).value =
    (heap a).value := by
  induction ps generalizing heap with
  | nil => exact ⟨rfl, rfl⟩
  | cons p ps ih =>
    rw [produceAll_cons]
    refine ⟨(ih _).1.trans ?_, (ih _).2.trans ?_⟩
    · by_cases h : a = p.msg
      · subst h
        rw [Function.update_self]
        rfl
      · rw [Function.update_of_ne h]
    · by_cases h : a = p.msg
      · subst h
        rw [Function.update_self]
        rfl
      · rw [Function.update_of_ne h]

/-- Normalising the message gives what normalising the other one gives. -/
structure SameNormal (m m' : Msg) : Prop where
  partition : normalisePartition m.partition = normalisePartition m'.partition
  timestamp : normaliseTimestamp number m.timestamp = normaliseTimestamp number m'.timestamp

theorem SameNormal.normalise {m m' : Msg} (h : SameNormal number m m')
    (hnan : normaliseTimestamp number m'.timestamp ≠ .nan) (headers : MsgHeaders) :
    SameNormal number (normalise number headers m) m' where
  partition := by
    rw [← h.partition]
    exact normalisePartition_idem _
  timestamp := by
    rw [← h.timestamp] at hnan ⊢
    show normaliseTimestamp number (.value (.number _)) = _
    rw [normaliseTimestamp_number, if_neg hnan]

/-- Where no timestamp is lost, each call is made of the message as it was at first. -/
theorem produceAll_of_sameNormal (captured first : Heap) {msgs : List Nat} {heap : Heap}
    (hnan : ∀ a ∈ msgs, normaliseTimestamp number (first a).timestamp ≠ .nan)
    (h : ∀ a ∈ msgs, SameNormal number (heap a) (first a)) :
    (produceAll number heap (msgs.map (taken captured))).2 =
        msgs.map (fun a => callOf number (taken captured a) (first a)) ∧
      ∀ a, SameNormal number (heap a) (first a) → normaliseTimestamp number (first a).timestamp ≠ .nan →
        SameNormal number ((produceAll number heap (msgs.map (taken captured))).1 a) (first a) := by
  induction msgs generalizing heap with
  | nil => exact ⟨rfl, fun a ha _ => ha⟩
  | cons b msgs ih =>
    rw [List.forall_mem_cons] at hnan h
    have hstep : ∀ a, SameNormal number (heap a) (first a) → normaliseTimestamp number (first a).timestamp ≠ .nan →
        SameNormal number (Function.update heap b (Producer.normalise number (captured b).headers (heap b)) a)
          (first a) := by
      intro a ha hna
      by_cases hab : a = b
      · subst hab
        rw [Function.update_self]
        exact ha.normalise number hna _
      · rw [Function.update_of_ne hab]
        exact ha
    obtain ⟨hcalls, hheap⟩ := ih hnan.2 fun a ha => hstep a (h.2 a ha) (hnan.2 a ha)
    rw [List.map_cons, produceAll_cons, List.map_cons]
    refine ⟨?_, fun a ha hna => hheap a (hstep a ha hna) hna⟩
    refine congrArg₂ List.cons ?_ hcalls
    exact congrArg₂ (fun p t => (⟨p, _, _, t, _⟩ : Produced)) h.1.partition h.1.timestamp

/-- The options and the state of the producer that `send` takes. -/
def SendOptions.Valid (o : SendOptions) (connected : Bool) : Prop :=
  connected ∧ ¬o.acks ∧ ¬o.timeout ∧ ¬o.compression ∧ o.topic ≠ []

theorem send_eq_ok_iff (connected : Bool) (heap : Heap) (o : SendOptions) (r : Heap × List Produced) :
    send number connected heap o = .ok r ↔ o.Valid connected ∧ (∀ a ∈ o.messages, Accepted (heap a)) ∧
      r = produceAll number heap (o.messages.map (taken heap)) := by
  unfold send SendOptions.Valid
  cases connected with
  | false => exact ⟨fun h => (by cases h), fun h => absurd h.1.1 (by decide)⟩
  | true =>
    cases o.acks with
    | true => exact ⟨fun h => (by cases h), fun h => absurd rfl h.1.2.1⟩
    | false =>
      cases o.timeout with
      | true => exact ⟨fun h => (by cases h), fun h => absurd rfl h.1.2.2.1⟩
      | false =>
        cases o.compression with
        | true => exact ⟨fun h => (by cases h), fun h => absurd rfl h.1.2.2.2.1⟩
        | false =>
          by_cases ht : o.topic = []
          · rw [if_pos ht]
            exact ⟨fun h => (by cases h), fun h => absurd ht h.1.2.2.2.2⟩
          · rw [if_neg ht]
            cases hm : o.messages.mapM (prepare heap) with
            | error e =>
              refine ⟨fun h => (by cases h), fun h => ?_⟩
              rw [(mapM_prepare_eq_ok_iff heap _ _).mpr ⟨h.2.1, rfl⟩] at hm
              cases hm
            | ok ps =>
              obtain ⟨hacc, rfl⟩ := (mapM_prepare_eq_ok_iff heap _ _).mp hm
              constructor
              · intro h
                cases h
                exact ⟨⟨rfl, by decide, by decide, by decide, ht⟩, hacc, rfl⟩
              · rintro ⟨-, -, rfl⟩
                rfl

/-- The first call for a message is made of the message as it is in the heap. -/
theorem produceAll_first (captured heap : Heap) {as : List Nat} (bs : List Nat) {a : Nat} (h : a ∉ as) :
    (produceAll number heap ((as ++ a :: bs).map (taken captured))).2[as.length]? =
      some (callOf number (taken captured a) (heap a)) := by
  have hlen : (produceAll number heap (as.map (taken captured))).2.length = as.length := by
    rw [length_produceAll, List.length_map]
  have hmsg : a ∉ (as.map (taken captured)).map Prepared.msg := by
    rw [List.map_map]
    simpa [Function.comp_def, taken] using h
  rw [List.map_append, produceAll_append, List.getElem?_append_right (by omega), hlen, Nat.sub_self, List.map_cons,
    produceAll_cons, List.getElem?_cons_zero]
  exact congrArg (fun m => some (callOf number (taken captured a) m)) (produceAll_of_not_mem number hmsg)

/-- A second `send` of the same messages is accepted as the first was, and hands the same to `produce` exactly
where no message has a header and no timestamp is a text that is not a number. -/
theorem resend_same_iff {connected : Bool} {heap heap₁ : Heap} {o : SendOptions} {calls₁ : List Produced}
    (h : send number connected heap o = .ok (heap₁, calls₁)) :
    ∃ heap₂ calls₂, send number connected heap₁ o = .ok (heap₂, calls₂) ∧
      (calls₂ = calls₁ ↔ ∀ a ∈ o.messages, (heap a).Resendable number) := by
  obtain ⟨hvalid, hacc, hrun⟩ := (send_eq_ok_iff number connected heap o _).mp h
  obtain ⟨hheap, hcalls⟩ := Prod.mk.inj hrun
  have hkeys : ∀ a, (heap₁ a).key = (heap a).key ∧ (heap₁ a).value = (heap a).value := by
    rw [hheap]
    exact keys_produceAll number heap _
  have hwritten : ∀ a ∈ o.messages, Written (taken heap a) (heap₁ a) := by
    rw [hheap]
    exact fun a ha => written_produceAll number (.inl ha)
  have hacc₁ : ∀ a ∈ o.messages, Accepted (heap₁ a) := by
    intro a ha
    unfold Accepted
    rw [(hkeys a).1, (hkeys a).2]
    exact hacc a ha
  refine ⟨_, _, (send_eq_ok_iff number connected heap₁ o _).mpr ⟨hvalid, hacc₁, rfl⟩, ?_⟩
  constructor
  · -- the first call for the message tells whether its headers and its timestamp came back
    intro heq a ha
    obtain ⟨as, bs, hsplit, hnot⟩ := List.eq_append_cons_of_mem ha
    have h₁ := produceAll_first number heap heap bs hnot
    have h₂ := produceAll_first number heap₁ heap₁ bs hnot
    rw [← hsplit] at h₁ h₂
    rw [← hcalls, ← heq, h₂, Option.some.injEq] at h₁
    have hheaders : (heap₁ a).headers.convert = (heap a).headers.convert := congrArg Produced.headers h₁
    have htime : normaliseTimestamp number (heap₁ a).timestamp = normaliseTimestamp number (heap a).timestamp :=
      congrArg Produced.timestamp h₁
    obtain ⟨hw, n, hn⟩ := hwritten a ha
    rw [Msg.resendable_iff]
    refine ⟨?_, ?_⟩
    · rw [hw] at hheaders
      exact hheaders
    · rw [← htime, hn, normaliseTimestamp_number]
      split
      · exact fun h => by cases h
      · assumption
  · intro hres
    have hres' := fun a ha => (Msg.resendable_iff number (heap a)).mp (hres a ha)
    have hnan := fun a ha => (hres' a ha).2
    have hrefl : ∀ a ∈ o.messages, SameNormal number (heap a) (heap a) := fun _ _ => ⟨rfl, rfl⟩
    obtain ⟨hfirst, hsame⟩ := produceAll_of_sameNormal number heap heap hnan hrefl
    have hsame₁ : ∀ a ∈ o.messages, SameNormal number (heap₁ a) (heap a) := by
      intro a ha
      rw [hheap]
      exact hsame a ⟨rfl, rfl⟩ (hnan a ha)
    obtain ⟨hsecond, -⟩ := produceAll_of_sameNormal number heap₁ heap hnan hsame₁
    rw [hcalls, hfirst, hsecond]
    refine List.map_congr_left fun a ha => ?_
    have hheaders : (taken heap₁ a).headers.convert = (taken heap a).headers.convert := by
      show (heap₁ a).headers.convert = _
      rw [(hwritten a ha).headers]
      exact (hres' a ha).1
    unfold callOf
    rw [hheaders]
    unfold taken
    rw [(hkeys a).1, (hkeys a).2]

end

def sampleRecord : SendOptions := ⟨['t'], false, false, false, [0]⟩

def sampleMsg (headers : MsgHeaders) : Msg :=
  ⟨.value (.string ['k']), .value (.string ['v']), .absent, .value (.string ['7']), headers⟩

def digitNumber : List Char → JsNumber
  | [c] => if c.isDigit then .finite (c.toNat - 48) else .nan
  | _ => .nan

theorem resend_without_headers :
    ∃ heap₁ calls heap₂, send digitNumber true (fun _ => sampleMsg .absent) sampleRecord = .ok (heap₁, calls) ∧
      send digitNumber true heap₁ sampleRecord = .ok (heap₂, calls) := by
  have hacc : ∀ a ∈ sampleRecord.messages, Accepted (sampleMsg .absent) := by
    intro a _
    exact ⟨by decide, by decide⟩
  have hfirst := (send_eq_ok_iff digitNumber true (fun _ => sampleMsg .absent) sampleRecord _).mpr
    ⟨⟨rfl, by decide, by decide, by decide, by decide⟩, hacc, rfl⟩
  obtain ⟨heap₂, calls₂, hsecond, hiff⟩ := resend_same_iff digitNumber hfirst
  have hsame := hiff.mpr fun a _ => by
    refine ⟨trivial, fun s hs _ hnan => ?_⟩
    cases hs
    exact absurd hnan (by decide)
  rw [hsame] at hsecond
  exact ⟨_, _, heap₂, hfirst, hsecond⟩

/-- With one header, the second call hands over an object in its place. -/
theorem resend_with_header :
    ∃ heap₁ heap₂ call₁ call₂,
      send digitNumber true (fun _ => sampleMsg (.map (header "a" (.one (.datum (.string ['x'])))))) sampleRecord =
        .ok (heap₁, [call₁]) ∧
      send digitNumber true heap₁ sampleRecord = .ok (heap₂, [call₂]) ∧
      call₁.headers = some [header "a" (.datum (.string ['x']))] ∧
      call₂.headers = some [header "0" (.object [("a", .datum (.string ['x']))])] ∧ call₂ ≠ call₁ := by
  refine ⟨_, _, _, _, rfl, rfl, rfl, rfl, fun h => ?_⟩
  have hheaders := congrArg Produced.headers h
  have hkeys := congrArg (fun hs => hs.map fun l : List (JsObject HeaderValue) => l.map fun o =>
    o.own.entries.map Prod.fst)
    hheaders
  exact absurd hkeys (by decide)

end Producer

end ConfluentKafka
