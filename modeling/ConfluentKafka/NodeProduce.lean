import ConfluentKafka.Send
import ConfluentKafka.Utf8

/-!
# `produce` down to librdkafka

`Producer.prototype.produce` and the native `NodeProduce`. A native
`ThrowError` only leaves an exception behind: where the code does not return
after it, the message goes on to librdkafka and the exception is thrown when
`NodeProduce` returns. A conversion that fails inside `ToLocalChecked` or
`FromJust` ends the process.
-/

namespace ConfluentKafka
namespace NodeProduce

open Producer (JsNumber)

/-- An argument. Objects are their own enumerable properties, in order; the other primitives are told apart by
a number. -/
inductive Value where
  | undefined
  | null
  | number (n : JsNumber)
  | string (s : String)
  | buffer (data : Bytes)
  | object (own : List (String × Value))
  | primitive (id : Nat)

structure Args where
  topic : Value
  partition : Value
  message : Value
  key : Value
  timestamp : Value
  msgOpaque : Value
  /-- none is `undefined` -/
  headers : Option (List Value)

/-- What the call meets: the state of the producer, the answer of librdkafka, and the conversions of the
language. -/
structure Env where
  isConnected : Bool
  defaultPartition : Value
  nativeConnected : Bool
  answer : Int
  /-- `To<int32_t>`; none when the conversion throws -/
  int32 : Value → Option Int
  int64 : JsNumber → Int
  /-- `To<v8::String>` of what is no string -/
  text : Value → Option String
  /-- `Buffer::Data` of an empty buffer is `NULL` -/
  emptyIsNull : Bool

structure Record where
  topic : Bytes
  partition : Int
  value : Option Bytes
  key : Option Bytes
  timestamp : Int
  msgOpaque : Option Value
  headers : List (Bytes × Option Bytes)

inductive Stop where
  | thrown (message : String)
  | aborted
  deriving DecidableEq, Repr

def utf8 (s : String) : Bytes :=
  Utf8.encode s.toList

/-- `std::string(*utf8)`: the bytes up to the first zero. -/
def cString (bs : Bytes) : Bytes :=
  bs.takeWhile (· ≠ 0)

section

variable (env : Env)

/-! ## The native method -/

def partitionUA : Int := -1

def partitionOf : Value → Except Stop Int
  | .undefined => .ok partitionUA
  | .null => .ok partitionUA
  | v =>
    match env.int32 v with
    | some p => .ok (if p < 0 then partitionUA else p)
    | none => .error .aborted

/-- An empty buffer without data is replaced by one with data, so that it is not null. -/
def messageBuffer : Value → Except Stop (Option Bytes)
  | .null => .ok none
  | .buffer data => .ok (some data)
  | _ => .error (.thrown "Message must be a buffer or null")

def keyBuffer : Value → Except Stop (Option Bytes)
  | .null => .ok none
  | .undefined => .ok none
  | .buffer data => .ok (some data)
  | .string s => .ok (some (cString (utf8 s)))
  | v =>
    match env.text v with
    | some s => .ok (some (cString (utf8 s)))
    | none => .error .aborted

def timestampOf : Value → Except Stop Int
  | .undefined => .ok 0
  | .null => .ok 0
  | .number n => .ok (env.int64 n)
  | _ => .error (.thrown "Timestamp must be a number")

/-- The first code unit of a text; a lone surrogate is written as the replacement character. -/
def firstUnit (c : Char) : Char :=
  if c.toNat < 0x10000 then c else Utf8.replacement

/-- The first own property of `ToObject` of a value, none when there is no such object. -/
def firstProperty : Value → Option (Option (String × Value))
  | .undefined => none
  | .null => none
  | .object own => some own.head?
  | .string s => some (s.toList.head?.map fun c => ("0", .string (String.singleton (firstUnit c))))
  | .buffer data => some (data.head?.map fun b => ("0", .number (.finite b.toNat)))
  | .number _ => some none
  | .primitive _ => some none

def headerProperty (v : Value) : Option (String × Value) :=
  (firstProperty v).map fun p => p.getD ("undefined", .undefined)

def headerData (data : Bytes) : Option Bytes :=
  if data = [] ∧ env.emptyIsNull then none else some data

def headerErr : String := "Header value must be a string or buffer"

/-- The loop over the headers: what is collected, and the exception that is left pending. -/
def headersOf (pending : Option String) :
    List Value → Except Stop (List (Bytes × Option Bytes) × Option String)
  | [] => .ok ([], pending)
  | v :: rest =>
    match headerProperty v with
    | none => .error .aborted
    | some (key, .buffer data) => do
      let (headers, pending') ← headersOf pending rest
      return ((cString (utf8 key), headerData env data) :: headers, pending')
    | some (key, .string s) => do
      let (headers, pending') ← headersOf pending rest
      return ((cString (utf8 key), some (cString (utf8 s))) :: headers, pending')
    -- there is no `return` after this `ThrowError`
    | some (_, _) => headersOf (some headerErr) rest

def opaqueOf : Value → Option Value
  | .undefined => none
  | v => some v

def errState : Int := -172

def nativeProduce : Int :=
  if env.nativeConnected then env.answer else errState

/-- The record with its error code, and the exception that is pending when the method returns. -/
def nodeProduce (topic : String) (partition : Value) (args : Args) :
    Except Stop (Record × Int × Option String) := do
  let partition ← partitionOf env partition
  let value ← messageBuffer args.message
  let key ← keyBuffer env args.key
  let timestamp ← timestampOf env args.timestamp
  let (headers, pending) ← headersOf env none (args.headers.getD [])
  return (⟨cString (utf8 topic), partition, value, key, timestamp, opaqueOf args.msgOpaque, headers⟩,
    nativeProduce env, pending)

/-! ## The JavaScript method -/

inductive Exit where
  | returned
  | threw
  | aborted
  deriving DecidableEq, Repr

structure Outcome where
  exit : Exit
  enqueued : Option Record

/-- `_errorWrap` of the code, unless an exception came out of the native method. -/
def finish (record : Record) (errorCode : Int) (pending : Option String) : Outcome :=
  { exit := if pending.isSome ∨ errorCode ≠ 0 then .threw else .returned
    enqueued := if errorCode = 0 then some record else none }

def givenPartition (args : Args) : Value :=
  match args.partition with
  | .null => env.defaultPartition
  | v => v

def produce (args : Args) : Outcome :=
  if ¬ env.isConnected then ⟨.threw, none⟩
  else
    match args.topic with
    | .string topic =>
      if topic = "" then ⟨.threw, none⟩
      else
        match nodeProduce env topic (givenPartition env args) args with
        | .ok (record, errorCode, pending) => finish record errorCode pending
        | .error (.thrown _) => ⟨.threw, none⟩
        | .error .aborted => ⟨.aborted, none⟩
    | _ => ⟨.threw, none⟩

/-! ## All or nothing -/

/-- The call returns normally just when librdkafka accepted the message; a call that throws enqueued nothing. -/
def AllOrNothing (o : Outcome) : Prop :=
  o.enqueued.isSome = true ↔ o.exit = .returned

def headerOk (v : Value) : Bool :=
  match headerProperty v with
  | some (_, .buffer _) => true
  | some (_, .string _) => true
  | _ => false

def isTopic : Value → Bool
  | .string topic => topic ≠ ""
  | _ => false

/-- Nothing but the header values can be refused: the message gets as far as librdkafka. -/
structure Passes (args : Args) : Prop where
  connected : env.isConnected = true
  topic : isTopic args.topic = true
  partition : (partitionOf env (givenPartition env args)).isOk = true
  message : (messageBuffer args.message).isOk = true
  key : (keyBuffer env args.key).isOk = true
  timestamp : (timestampOf env args.timestamp).isOk = true
  headers : ∀ v ∈ args.headers.getD [], (headerProperty v).isSome = true

variable {env}

theorem headersOf_aborted {vs : List Value} (h : ∃ v ∈ vs, headerProperty v = none) :
    ∀ pending, headersOf env pending vs = .error .aborted := by
  induction vs with
  | nil => obtain ⟨v, hv, _⟩ := h; cases hv
  | cons v vs ih =>
    intro pending
    unfold headersOf
    cases hp : headerProperty v with
    | none => rfl
    | some p =>
      have hvs : ∃ v ∈ vs, headerProperty v = none := by
        obtain ⟨v', hv', hn⟩ := h
        rcases List.mem_cons.mp hv' with rfl | hv'
        · rw [hp] at hn
          cases hn
        · exact ⟨v', hv', hn⟩
      obtain ⟨key, value⟩ := p
      cases value with
      | buffer data => simp only [ih hvs]; rfl
      | string t => simp only [ih hvs]; rfl
      | _ => exact ih hvs _

theorem headersOf_ok (env : Env) {vs : List Value} (h : ∀ v ∈ vs, (headerProperty v).isSome = true) :
    ∀ pending, ∃ headers pending', headersOf env pending vs = .ok (headers, pending') ∧
      (pending'.isSome = true ↔ pending.isSome = true ∨ ∃ v ∈ vs, headerOk v = false) := by
  induction vs with
  | nil => intro pending; exact ⟨[], pending, rfl, by simp⟩
  | cons v vs ih =>
    intro pending
    have ih' := ih fun v' h' => h v' (List.mem_cons_of_mem _ h')
    obtain ⟨⟨key, value⟩, hp⟩ := Option.isSome_iff_exists.mp (h v (List.mem_cons_self ..))
    unfold headersOf
    simp only [hp]
    cases value with
    | buffer data =>
      obtain ⟨headers, pending', he, hi⟩ := ih' pending
      refine ⟨(cString (utf8 key), headerData env data) :: headers, pending', by simp only [he]; rfl, ?_⟩
      simp [hi, headerOk, hp]
    | string t =>
      obtain ⟨headers, pending', he, hi⟩ := ih' pending
      refine ⟨(cString (utf8 key), some (cString (utf8 t))) :: headers, pending', by simp only [he]; rfl, ?_⟩
      simp [hi, headerOk, hp]
    | _ =>
      obtain ⟨headers, pending', he, hi⟩ := ih' (some headerErr)
      exact ⟨headers, pending', he, by simp [hi, headerOk, hp]⟩

theorem bind_eq_ok {ε α β : Type} {x : Except ε α} {f : α → Except ε β} {b : β} (h : x >>= f = .ok b) :
    ∃ a, x = .ok a ∧ f a = .ok b := by
  cases x with
  | ok a => exact ⟨a, rfl, h⟩
  | error e => cases h

theorem isOk_iff {ε α : Type} {x : Except ε α} : x.isOk = true ↔ ∃ a, x = .ok a := by
  cases x with
  | ok a => exact ⟨fun _ => ⟨a, rfl⟩, fun _ => rfl⟩
  | error e => exact ⟨fun h => (nomatch h), fun ⟨_, h⟩ => (nomatch h)⟩

theorem finish_allOrNothing (record : Record) (errorCode : Int) (pending : Option String) :
    AllOrNothing (finish record errorCode pending) ↔ ¬ (errorCode = 0 ∧ pending.isSome = true) := by
  unfold AllOrNothing finish
  by_cases hc : errorCode = 0 <;> cases pending <;> simp [hc]

theorem nativeProduce_eq_zero : nativeProduce env = 0 ↔ env.nativeConnected = true ∧ env.answer = 0 := by
  unfold nativeProduce
  split
  · rename_i h
    simp [h]
  · rename_i h
    simp [h, errState]

theorem nodeProduce_eq {topic : String} {v : Value} {args : Args} {partition timestamp : Int}
    {value key : Option Bytes}
    {headers : List (Bytes × Option Bytes)} {pending : Option String} (hp : partitionOf env v = .ok partition)
    (hm : messageBuffer args.message = .ok value) (hk : keyBuffer env args.key = .ok key)
    (ht : timestampOf env args.timestamp = .ok timestamp)
    (hh : headersOf env none (args.headers.getD []) = .ok (headers, pending)) :
    nodeProduce env topic v args =
      .ok (⟨cString (utf8 topic), partition, value, key, timestamp, opaqueOf args.msgOpaque, headers⟩,
        nativeProduce env, pending) := by
  simp only [nodeProduce, hp, hm, hk, ht, hh]
  rfl

theorem produce_of_passes {args : Args} (h : Passes env args) :
    ∃ record pending, produce env args = finish record (nativeProduce env) pending ∧
      (pending.isSome = true ↔ ∃ v ∈ args.headers.getD [], headerOk v = false) ∧
      messageBuffer args.message = .ok record.value ∧ keyBuffer env args.key = .ok record.key ∧
      headersOf env none (args.headers.getD []) = .ok (record.headers, pending) := by
  obtain ⟨hc, ht, hp, hm, hk, hts, hh⟩ := h
  obtain ⟨partition, hp⟩ := isOk_iff.mp hp
  obtain ⟨value, hm⟩ := isOk_iff.mp hm
  obtain ⟨key, hk⟩ := isOk_iff.mp hk
  obtain ⟨timestamp, hts⟩ := isOk_iff.mp hts
  obtain ⟨headers, pending, he, hi⟩ := headersOf_ok env hh none
  cases htop : args.topic with
  | string topic =>
    have hne : topic ≠ "" := by simpa [isTopic, htop] using ht
    have hn : nodeProduce env topic (givenPartition env args) args = _ := nodeProduce_eq hp hm hk hts he
    refine ⟨⟨cString (utf8 topic), partition, value, key, timestamp, opaqueOf args.msgOpaque, headers⟩, pending, ?_,
      by simpa using hi, hm, hk, he⟩
    simp only [produce, hc, not_true, if_false, htop, hne, hn]
  | _ => simp [isTopic, htop] at ht

theorem passes_of_ok {args : Args} {topic : String} {x : Record × Int × Option String} (hc : env.isConnected = true)
    (htop : args.topic = .string topic) (hne : topic ≠ "")
    (h : nodeProduce env topic (givenPartition env args) args = .ok x) : Passes env args := by
  obtain ⟨partition, hp, h⟩ := bind_eq_ok h
  obtain ⟨value, hm, h⟩ := bind_eq_ok h
  obtain ⟨key, hk, h⟩ := bind_eq_ok h
  obtain ⟨timestamp, hts, h⟩ := bind_eq_ok h
  obtain ⟨⟨headers, pending⟩, hh, h⟩ := bind_eq_ok h
  refine ⟨hc, by simpa [isTopic, htop] using hne, isOk_iff.mpr ⟨_, hp⟩, isOk_iff.mpr ⟨_, hm⟩, isOk_iff.mpr ⟨_, hk⟩,
    isOk_iff.mpr ⟨_, hts⟩, ?_⟩
  intro v hv
  by_contra hno
  rw [headersOf_aborted ⟨v, hv, by simpa using hno⟩] at hh
  cases hh

theorem not_passes {args : Args} (h : ¬ Passes env args) :
    (produce env args).enqueued = none ∧ (produce env args).exit ≠ .returned := by
  unfold produce
  split
  · exact ⟨rfl, by decide⟩
  · rename_i hc
    split
    · rename_i topic htop
      split
      · exact ⟨rfl, by decide⟩
      · rename_i hne
        split
        · rename_i record code pending he
          exact absurd (passes_of_ok (by simpa using hc) htop hne he) h
        · exact ⟨rfl, by decide⟩
        · exact ⟨rfl, by decide⟩
    · exact ⟨rfl, by decide⟩

/-- A call is all or nothing just when it does not get as far as being accepted by librdkafka, or every header has a
string or a buffer for its value. -/
theorem produce_allOrNothing_iff (env : Env) (args : Args) :
    AllOrNothing (produce env args) ↔
      ¬ (Passes env args ∧ env.nativeConnected = true ∧ env.answer = 0) ∨
        ∀ v ∈ args.headers.getD [], headerOk v = true := by
  by_cases h : Passes env args
  · obtain ⟨record, pending, he, hi, -⟩ := produce_of_passes h
    rw [he, finish_allOrNothing, nativeProduce_eq_zero, hi]
    simp only [h, true_and]
    rw [not_and_or]
    refine or_congr Iff.rfl ?_
    simp
  · obtain ⟨h1, h2⟩ := not_passes h
    simp [AllOrNothing, h1, h2, h]

def accepting : Env where
  isConnected := true
  defaultPartition := .null
  nativeConnected := true
  answer := 0
  int32 := fun _ => none
  int64 := fun _ => 0
  text := fun _ => none
  emptyIsNull := false

def numberHeader : Args where
  topic := .string "orders"
  partition := .null
  message := .buffer [1, 2]
  key := .null
  timestamp := .undefined
  msgOpaque := .undefined
  headers := some [.object [("attempt", .number (.finite 1))]]

/-- A header whose value is a number: the call throws, and the message is on its way. -/
theorem produce_number_header : ¬ ∀ (env : Env) (args : Args), AllOrNothing (produce env args) := by
  intro h
  have := (h accepting numberHeader).mp rfl
  exact absurd this (by decide)

end

end NodeProduce
end ConfluentKafka
