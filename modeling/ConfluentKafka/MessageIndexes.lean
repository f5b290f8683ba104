import ConfluentKafka.DoubleOps
import ConfluentKafka.Rules

/-!
# Message indexes

The paths of `protobuf.ts` to the messages of a file: the serializer goes up from a message to its file, the
deserializer down from the file. An index is a number as the payload has it, and the element under a number
that is no index of the array is undefined.
-/

namespace ConfluentKafka

/-- The messages of files, told apart by identity. A message is in the list of its parent, or of its file
where it has none, and no message is inside itself. -/
structure Descriptors (φ α : Type) where
  messages : φ → List α
  file : α → φ
  parent : α → Option α
  nestedMessages : α → List α
  mem_messages : ∀ m fd, m ∈ messages fd ↔ parent m = none ∧ file m = fd
  mem_nestedMessages : ∀ m p, m ∈ nestedMessages p ↔ parent m = some p
  file_parent : ∀ {m p}, parent m = some p → file m = file p
  acyclic : WellFounded fun p m => parent m = some p

namespace Descriptors

variable {φ α : Type} (d : Descriptors φ α)

/-! ## Upward -/

section

variable [DecidableEq α]

def toIndex (messageDesc : α) : Except Thrown Nat :=
  let siblings := match d.parent messageDesc with
    | none => d.messages (d.file messageDesc)
    | some parent => d.nestedMessages parent
  match siblings.findIdx? fun m => m = messageDesc with
  | some i => .ok i
  | none => .error (.serialization "message descriptor not found in file descriptor")

def toMessageIndexes (messageDesc : α) (count : Nat) : Except Thrown (List Double) := do
  let index ← d.toIndex messageDesc
  match h : d.parent messageDesc with
  | none => return [.finite index]
  | some parent =>
    let msgIndexes ← toMessageIndexes parent (count + 1)
    return msgIndexes ++ [.finite index]
termination_by d.acyclic.wrap messageDesc
decreasing_by exact h

def toMessageIndexArray (messageDesc : α) : Except Thrown (List Double) := d.toMessageIndexes messageDesc 0

end

/-! ## Downward -/

/-- `xs[index]`, which is undefined unless the number is an index of the array. -/
def element (xs : List α) (index : Double) : Option α :=
  match index.integer? with
  | some (.ofNat i) => xs[i]?
  | _ => none

def undefinedMessages : Thrown := .error "Cannot read properties of undefined (reading 'nestedMessages')"

def outOfRange (xs : List α) (index : Double) : Bool := index.lt (.finite 0) || (Double.finite xs.length).le index

def rangeError (text : Double → String) (index : Double) (schema : String) (length : Nat) (kind : String) :
    Thrown :=
  .serialization ("message index " ++ text index ++ " out of range, " ++ schema ++ " has " ++
    toString length ++ kind)

variable (text : Double → String)

def toNestedMessageDesc : Option α → List Double → Except Thrown (Option α)
  | none, _ => .error undefinedMessages
  | some _, [] => .error undefinedMessages
  | some parent, index :: indexes =>
    if outOfRange (d.nestedMessages parent) index then
      .error (rangeError text index "message" (d.nestedMessages parent).length " nested message(s)")
    else if indexes = [] then .ok (element (d.nestedMessages parent) index)
    else toNestedMessageDesc (element (d.nestedMessages parent) index) indexes

def toMessageDescFromIndexes (fd : φ) : List Double → Except Thrown (Option α)
  | [] => .error undefinedMessages
  | index :: indexes =>
    if outOfRange (d.messages fd) index then
      .error (rangeError text index "schema" (d.messages fd).length " top-level message(s)")
    else if indexes = [] then .ok (element (d.messages fd) index)
    else d.toNestedMessageDesc text (element (d.messages fd) index) indexes

/-! ## Paths -/

/-- The message at the end of a path of indexes, the first of which is into `ms`. -/
inductive Path (d : Descriptors φ α) : List α → List Double → α → Prop
  | last {ms : List α} {i : Nat} {m : α} (h : ms[i]? = some m) : Path d ms [.finite i] m
  | nested {ms : List α} {i : Nat} {p m : α} {indexes : List Double} (h : ms[i]? = some p)
      (hrest : Path d (d.nestedMessages p) indexes m) : Path d ms (.finite i :: indexes) m

def Denotes (fd : φ) (indexes : List Double) : Prop := ∃ m, Path d (d.messages fd) indexes m

/-- The last index is behind a path, and passes for one of the range although it is no integer. -/
inductive Between (d : Descriptors φ α) : List α → List Double → Prop
  | last {ms : List α} {index : Double} (hint : ∀ i : Nat, index ≠ .finite i)
    (hrange : outOfRange ms index = false) : Between d ms [index]
  | nested {ms : List α} {i : Nat} {p : α} {indexes : List Double} (h : ms[i]? = some p)
      (hrest : Between d (d.nestedMessages p) indexes) : Between d ms (.finite i :: indexes)

/-! ## One element -/

theorem element_natCast (ms : List α) (i : Nat) : element ms (.finite i) = ms[i]? := by
  have hint : (Double.finite (i : ℚ)).integer? = some (.ofNat i) := by
    rw [Double.integer?, if_pos (Rat.den_natCast i), Rat.num_natCast]
    rfl
  rw [element, hint]

theorem element_none (ms : List α) {index : Double} (h : ∀ i : Nat, index ≠ .finite i) :
    element ms index = none := by
  rw [element]
  split
  · rename_i i hi
    cases index with
    | finite x =>
      rw [Double.integer?] at hi
      split_ifs at hi with hden
      have hnum : x.num = i := Option.some.inj hi
      have hx : x = i := by rw [← Rat.coe_int_num_of_den_eq_one hden, hnum, Int.cast_natCast]
      exact absurd (congrArg _ hx) (h i)
    | infinite => cases hi
    | nan => cases hi
  · rfl

theorem not_outOfRange {ms : List α} {i : Nat} {m : α} (h : ms[i]? = some m) :
    outOfRange ms (.finite i) = false := by
  have hlt : i < ms.length := (List.getElem?_eq_some_iff.mp h).1
  have hlow : ¬(i : ℚ) < 0 := not_lt.mpr (Nat.cast_nonneg i)
  have hhigh : ¬(ms.length : ℚ) ≤ i := not_le.mpr (Nat.cast_lt.mpr hlt)
  rw [outOfRange, Double.lt, Double.le, decide_eq_false hlow, decide_eq_false hhigh]
  rfl

/-- An index is one of the array, out of its range, or neither. -/
theorem index_cases (ms : List α) (index : Double) : (∃ (i : Nat) (m : α), index = .finite i ∧ ms[i]? = some m) ∨
    outOfRange ms index = true ∨ (∀ i : Nat, index ≠ .finite i) ∧ outOfRange ms index = false := by
  by_cases hint : ∃ i : Nat, index = .finite i
  · obtain ⟨i, rfl⟩ := hint
    cases hi : ms[i]? with
    | some m => exact .inl ⟨i, m, rfl, hi⟩
    | none =>
      have hle : (ms.length : ℚ) ≤ i := Nat.cast_le.mpr (List.getElem?_eq_none_iff.mp hi)
      refine .inr (.inl ?_)
      rw [outOfRange, Double.le, decide_eq_true hle, Bool.or_true]
  · have hnot : ∀ i : Nat, index ≠ .finite i := fun i hi => hint ⟨i, hi⟩
    cases hrange : outOfRange ms index with
    | true => exact .inr (.inl rfl)
    | false => exact .inr (.inr ⟨hnot, rfl⟩)

/-! ## The way down -/

section

variable {d : Descriptors φ α} {text : Double → String}

theorem Path.ne_nil {ms : List α} {indexes : List Double} {m : α} (h : Path d ms indexes m) : indexes ≠ [] := by
  cases h with
  | last => exact List.cons_ne_nil _ _
  | nested => exact List.cons_ne_nil _ _

theorem Between.ne_nil {ms : List α} {indexes : List Double} (h : Between d ms indexes) : indexes ≠ [] := by
  cases h with
  | last => exact List.cons_ne_nil _ _
  | nested => exact List.cons_ne_nil _ _

theorem toNestedMessageDesc_path {indexes : List Double} : ∀ {p m : α}, Path d (d.nestedMessages p) indexes m →
    d.toNestedMessageDesc text (some p) indexes = .ok (some m) := by
  induction indexes with
  | nil => exact fun h => absurd rfl h.ne_nil
  | cons index indexes ih =>
    intro p m h
    rw [toNestedMessageDesc]
    cases h with
    | last hi => rw [not_outOfRange hi, if_neg Bool.false_ne_true, if_pos rfl, element_natCast, hi]
    | nested hi hrest =>
      rw [not_outOfRange hi, if_neg Bool.false_ne_true, if_neg hrest.ne_nil, element_natCast, hi, ih hrest]

theorem toNestedMessageDesc_between {indexes : List Double} : ∀ {p : α}, Between d (d.nestedMessages p) indexes →
    d.toNestedMessageDesc text (some p) indexes = .ok none := by
  induction indexes with
  | nil => exact fun h => absurd rfl h.ne_nil
  | cons index indexes ih =>
    intro p h
    rw [toNestedMessageDesc]
    cases h with
    | last hint hrange => rw [hrange, if_neg Bool.false_ne_true, if_pos rfl, element_none _ hint]
    | nested hi hrest =>
      rw [not_outOfRange hi, if_neg Bool.false_ne_true, if_neg hrest.ne_nil, element_natCast, hi, ih hrest]

theorem toMessageDescFromIndexes_path {fd : φ} {indexes : List Double} {m : α}
    (h : Path d (d.messages fd) indexes m) :
    d.toMessageDescFromIndexes text fd indexes = .ok (some m) := by
  cases h with
  | last hi =>
    rw [toMessageDescFromIndexes, not_outOfRange hi, if_neg Bool.false_ne_true, if_pos rfl, element_natCast, hi]
  | nested hi hrest =>
    rw [toMessageDescFromIndexes, not_outOfRange hi, if_neg Bool.false_ne_true, if_neg hrest.ne_nil,
      element_natCast, hi, toNestedMessageDesc_path hrest]

theorem toMessageDescFromIndexes_between {fd : φ} {indexes : List Double} (h : Between d (d.messages fd) indexes) :
    d.toMessageDescFromIndexes text fd indexes = .ok none := by
  cases h with
  | last hint hrange =>
    rw [toMessageDescFromIndexes, hrange, if_neg Bool.false_ne_true, if_pos rfl, element_none _ hint]
  | nested hi hrest =>
    rw [toMessageDescFromIndexes, not_outOfRange hi, if_neg Bool.false_ne_true, if_neg hrest.ne_nil,
      element_natCast, hi,
      toNestedMessageDesc_between hrest]

/-- Behind a number that is no index there is nothing to go on from. -/
theorem toNestedMessageDesc_cases {indexes : List Double} : ∀ (p : α), indexes ≠ [] →
    (∃ m, Path d (d.nestedMessages p) indexes m) ∨ Between d (d.nestedMessages p) indexes ∨
      ∃ e, d.toNestedMessageDesc text (some p) indexes = .error e := by
  induction indexes with
  | nil => exact fun _ hne => absurd rfl hne
  | cons index indexes ih =>
    intro p _
    rw [toNestedMessageDesc]
    rcases index_cases (d.nestedMessages p) index with ⟨i, m, rfl, hi⟩ | hrange | ⟨hint, hrange⟩
    · by_cases hlast : indexes = []
      · exact .inl ⟨m, hlast ▸ .last hi⟩
      · rw [not_outOfRange hi, if_neg Bool.false_ne_true, if_neg hlast, element_natCast, hi]
        rcases ih m hlast with ⟨m', hpath⟩ | hbetween | herror
        · exact .inl ⟨m', .nested hi hpath⟩
        · exact .inr (.inl (.nested hi hbetween))
        · exact .inr (.inr herror)
    · exact .inr (.inr ⟨_, if_pos hrange⟩)
    · by_cases hlast : indexes = []
      · exact .inr (.inl (hlast ▸ .last hint hrange))
      · rw [hrange, if_neg Bool.false_ne_true, if_neg hlast, element_none _ hint]
        exact .inr (.inr ⟨undefinedMessages, by rw [toNestedMessageDesc]⟩)

theorem toMessageDescFromIndexes_cases (fd : φ) {indexes : List Double} (hne : indexes ≠ []) :
    Denotes d fd indexes ∨ Between d (d.messages fd) indexes ∨ ∃ e, d.toMessageDescFromIndexes text fd indexes =
      .error e := by
  cases indexes with
  | nil => exact absurd rfl hne
  | cons index indexes =>
    rw [toMessageDescFromIndexes]
    rcases index_cases (d.messages fd) index with ⟨i, m, rfl, hi⟩ | hrange | ⟨hint, hrange⟩
    · by_cases hlast : indexes = []
      · exact .inl ⟨m, hlast ▸ .last hi⟩
      · rw [not_outOfRange hi, if_neg Bool.false_ne_true, if_neg hlast, element_natCast, hi]
        rcases toNestedMessageDesc_cases m hlast with ⟨m', hpath⟩ | hbetween | herror
        · exact .inl ⟨m', .nested hi hpath⟩
        · exact .inr (.inl (.nested hi hbetween))
        · exact .inr (.inr herror)
    · exact .inr (.inr ⟨_, if_pos hrange⟩)
    · by_cases hlast : indexes = []
      · exact .inr (.inl (hlast ▸ .last hint hrange))
      · rw [hrange, if_neg Bool.false_ne_true, if_neg hlast, element_none _ hint]
        exact .inr (.inr ⟨undefinedMessages, by rw [toNestedMessageDesc]⟩)

/-! ## The way up -/

theorem Path.append {indexes : List Double} : ∀ {ms : List α} {p m : α} {i : Nat}, Path d ms indexes p →
    (d.nestedMessages p)[i]? = some m → Path d ms (indexes ++ [.finite i]) m := by
  induction indexes with
  | nil => exact fun h => absurd rfl h.ne_nil
  | cons index indexes ih =>
    intro ms p m i h hi
    cases h with
    | last h => exact .nested h (.last hi)
    | nested h hrest => exact .nested h (ih hrest hi)

variable [DecidableEq α]

theorem getElem?_findIdx? {xs : List α} {m : α} (h : m ∈ xs) :
    ∃ i, (xs.findIdx? fun x => x = m) = some i ∧ xs[i]? = some m := by
  cases hfind : xs.findIdx? fun x => x = m with
  | none => exact absurd (List.findIdx?_eq_none_iff.mp hfind m h) (by simp)
  | some i =>
    obtain ⟨hlt, hi, -⟩ := List.findIdx?_eq_some_iff_getElem.mp hfind
    exact ⟨i, rfl, List.getElem?_eq_some_iff.mpr ⟨hlt, of_decide_eq_true hi⟩⟩

theorem toIndex_top {m : α} (h : d.parent m = none) : ∃ i, d.toIndex m = .ok i ∧
    (d.messages (d.file m))[i]? = some m := by
  obtain ⟨i, hfind, hi⟩ := getElem?_findIdx? ((d.mem_messages m (d.file m)).mpr ⟨h, rfl⟩)
  refine ⟨i, ?_, hi⟩
  rw [toIndex, h]
  dsimp only
  rw [hfind]

theorem toIndex_nested {m p : α} (h : d.parent m = some p) : ∃ i, d.toIndex m = .ok i ∧
    (d.nestedMessages p)[i]? = some m := by
  obtain ⟨i, hfind, hi⟩ := getElem?_findIdx? ((d.mem_nestedMessages m p).mpr h)
  refine ⟨i, ?_, hi⟩
  rw [toIndex, h]
  dsimp only
  rw [hfind]

theorem toMessageIndexes_top {m : α} {i : Nat} (h : d.parent m = none) (hi : d.toIndex m = .ok i) (count : Nat) :
    d.toMessageIndexes m count = .ok [.finite i] := by
  rw [toMessageIndexes, hi]
  dsimp only [bind, Except.bind]
  split
  · rfl
  · rename_i hp
    rw [h] at hp
    cases hp

theorem toMessageIndexes_nested {m p : α} {i : Nat} {indexes : List Double} (h : d.parent m = some p)
    (hi : d.toIndex m = .ok i)
    {count : Nat} (hp : d.toMessageIndexes p (count + 1) = .ok indexes) :
    d.toMessageIndexes m count = .ok (indexes ++ [.finite i]) := by
  rw [toMessageIndexes, hi]
  dsimp only [bind, Except.bind]
  split
  · rename_i hm
    rw [h] at hm
    cases hm
  · rename_i parent hm
    rw [h] at hm
    cases hm
    rw [hp]
    rfl

/-- Up to the file and back: the indexes are a path to the message. -/
theorem toMessageIndexes_path (m : α) : ∀ count, ∃ indexes, d.toMessageIndexes m count = .ok indexes ∧
    Path d (d.messages (d.file m)) indexes m := by
  induction m using d.acyclic.induction with
  | _ m ih =>
    intro count
    cases hparent : d.parent m with
    | none =>
      obtain ⟨i, hi, hm⟩ := toIndex_top hparent
      exact ⟨_, toMessageIndexes_top hparent hi count, .last hm⟩
    | some p =>
      obtain ⟨i, hi, hm⟩ := toIndex_nested hparent
      obtain ⟨indexes, hindexes, hpath⟩ := ih p hparent (count + 1)
      refine ⟨_, toMessageIndexes_nested hparent hi hindexes, ?_⟩
      rw [d.file_parent hparent]
      exact hpath.append hm

theorem toMessageDescFromIndexes_toMessageIndexArray (m : α) : ∃ indexes, d.toMessageIndexArray m = .ok indexes ∧
    d.toMessageDescFromIndexes text (d.file m) indexes = .ok (some m) := by
  obtain ⟨indexes, hindexes, hpath⟩ := toMessageIndexes_path (d := d) m 0
  exact ⟨indexes, hindexes, toMessageDescFromIndexes_path hpath⟩

theorem toMessageIndexArray_injective {m m' : α} (hfile : d.file m = d.file m')
    (h : d.toMessageIndexArray m = d.toMessageIndexArray m') : m = m' := by
  obtain ⟨indexes, hindexes, hpath⟩ := toMessageIndexes_path (d := d) m 0
  obtain ⟨indexes', hindexes', hpath'⟩ := toMessageIndexes_path (d := d) m' 0
  rw [toMessageIndexArray, toMessageIndexArray, hindexes, hindexes'] at h
  rw [Except.ok.inj h, hfile] at hpath
  have hread : d.toMessageDescFromIndexes (fun _ => "") (d.file m') indexes' = .ok (some m) :=
    toMessageDescFromIndexes_path hpath
  rw [toMessageDescFromIndexes_path hpath'] at hread
  exact (Option.some.inj (Except.ok.inj hread)).symm

end

/-! ## Both ways -/

/-- Paths lead back to their messages and differ, and indexes that denote no message are refused. -/
def PathsFit [DecidableEq α] (text : Double → String) (fd : φ) (indexes : List Double) : Prop :=
  (∀ m, d.file m = fd → ∃ path, d.toMessageIndexArray m = .ok path ∧ d.toMessageDescFromIndexes text fd path =
    .ok (some m)) ∧
    (∀ m m', d.file m = fd → d.file m' = fd → m ≠ m' → d.toMessageIndexArray m ≠ d.toMessageIndexArray m') ∧
    (indexes ≠ [] → ¬Denotes d fd indexes → ∃ e, d.toMessageDescFromIndexes text fd indexes = .error e)

theorem pathsFit_iff [DecidableEq α] (text : Double → String) (fd : φ) (indexes : List Double) :
    PathsFit d text fd indexes ↔ ¬Between d (d.messages fd) indexes := by
  refine ⟨?_, fun h => ⟨?_, ?_, fun hne hnot => ?_⟩⟩
  · rintro ⟨-, -, herror⟩ hbetween
    have hnone : d.toMessageDescFromIndexes text fd indexes = .ok none := toMessageDescFromIndexes_between hbetween
    have hnot : ¬Denotes d fd indexes := by
      rintro ⟨m, hpath⟩
      have hsome : d.toMessageDescFromIndexes text fd indexes = .ok (some m) := toMessageDescFromIndexes_path hpath
      rw [hnone] at hsome
      cases hsome
    obtain ⟨e, he⟩ := herror hbetween.ne_nil hnot
    rw [hnone] at he
    cases he
  · rintro m rfl
    exact toMessageDescFromIndexes_toMessageIndexArray m
  · intro m m' hm hm' hne heq
    exact hne (toMessageIndexArray_injective (hm.trans hm'.symm) heq)
  · have hcases : Denotes d fd indexes ∨ Between d (d.messages fd) indexes ∨
        ∃ e, d.toMessageDescFromIndexes text fd indexes = .error e := toMessageDescFromIndexes_cases fd hne
    rcases hcases with hdenotes | hbetween | herror
    · exact absurd hdenotes hnot
    · exact absurd hbetween h
    · exact herror

def single : Descriptors Unit Unit where
  messages _ := [()]
  file _ := ()
  parent _ := none
  nestedMessages _ := []
  mem_messages := by simp
  mem_nestedMessages := by simp
  file_parent := by simp
  acyclic := ⟨fun _ => ⟨_, fun _ h => by cases h⟩⟩

/-- NaN is no index, and the message under it is undefined. -/
theorem not_pathsFit_nan : ¬PathsFit single (fun _ => "NaN") () [.nan] := by
  rintro ⟨-, -, herror⟩
  have hnot : ¬Denotes single () [.nan] := by
    rintro ⟨m, hpath⟩
    cases hpath
  obtain ⟨e, he⟩ := herror (List.cons_ne_nil _ _) hnot
  cases he

end Descriptors

end ConfluentKafka
