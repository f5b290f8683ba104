import ConfluentKafka.Doubles
import Mathlib.Data.Nat.Digits.Defs

/-!
# Offsets between the application and the native client

The converters of `_common.js`, `TopicPartition` of `topic-partition.js` and the conversions of
`common.cc`. An offset of the application is a number or a decimal text, the native client takes and
gives 64-bit integers, and a number of the language between them is a double.
-/

namespace ConfluentKafka

namespace Offsets

structure DecimalText where
  chars : List Char
  ne_nil : chars ≠ []
  digits : ∀ c ∈ chars, c.isDigit

inductive OffsetArg where
  | undefined
  | null
  | number (i : Int)
  | text (s : DecimalText)

inductive OffsetNumber where
  | nan
  | infinity
  | int (i : Int)
  deriving DecidableEq

structure TopicPartitionOffset (ω : Type) where
  topic : String
  partition : Int
  offset : ω
  metadata : Option String
  leaderEpoch : Option Int

def toDouble (n : Nat) : OffsetNumber := if roundNat n < 2 ^ 1024 then .int (roundNat n) else .infinity

def number : OffsetArg → OffsetNumber
  | .undefined => .nan
  | .null => .int 0
  | .number i => .int i
  | .text s => toDouble (Nat.ofDigitChars 10 s.chars 0)

def OffsetArg.truthy : OffsetArg → Bool
  | .undefined => false
  | .null => false
  | .number i => i ≠ 0
  | .text s => s.chars ≠ []

def intToString (i : Int) : List Char := if i < 0 then '-' :: numberToString i.natAbs else numberToString i.natAbs

/-! ## Converters -/

def topicPartitionOffsetToRdKafka (tpo : TopicPartitionOffset OffsetArg) : TopicPartitionOffset OffsetNumber :=
  { tpo with offset := number tpo.offset, metadata := none }

def topicPartitionOffsetMetadataToRdKafka (tpo : TopicPartitionOffset OffsetArg) :
    TopicPartitionOffset (Option OffsetNumber) :=
  { tpo with offset := if tpo.offset.truthy then some (number tpo.offset) else none }

/-- The offset is `undefined` or a number that is an integer. -/
def topicPartitionOffsetMetadataToKafkaJS (tpo : TopicPartitionOffset (Option Int)) :
    TopicPartitionOffset (Option (List Char)) :=
  { tpo with offset := tpo.offset.bind fun i => if i ≠ 0 then some (intToString i) else none }

/-! ## The native client -/

def OFFSET_INVALID : Int := -1001

def toInt64 : OffsetNumber → Int
  | .nan => 0
  | .infinity => 2 ^ 63 - 1
  | .int i => max (-2 ^ 63) (min i (2 ^ 63 - 1))

/-- `GetParameter<int64_t>` of the offset. -/
def getOffsetParameter (offset : Option OffsetNumber) (dflt : Int) : Int :=
  match offset with
  | some x => toInt64 x
  | none => dflt

def fromV8Object (tpo : TopicPartitionOffset (Option OffsetNumber)) : Int := getOffsetParameter tpo.offset 0

structure NativePartition where
  topic : String
  partition : Int
  err : Bool
  offset : Int
  metadata : Option String
  leaderEpoch : Int

def toV8 (p : NativePartition) : Option (TopicPartitionOffset (Option Int)) :=
  if p.err then none
  else
    some ⟨p.topic, p.partition, if p.offset ≠ OFFSET_INVALID then
        some (if p.offset < 0 then -(roundNat p.offset.natAbs : Int) else roundNat p.offset.natAbs) else none,
      p.metadata, if 0 ≤ p.leaderEpoch then some p.leaderEpoch else none⟩

/-! ## The paths -/

/-- The offset that the native client seeks to, unless `seek` refuses it. -/
def seekOffset (tpo : TopicPartitionOffset OffsetArg) : Option Int :=
  let rdKafka := topicPartitionOffsetToRdKafka tpo
  match rdKafka.offset with
  | .nan => none
  | .int i =>
    if i < 0 ∧ i ≠ -2 ∧ i ≠ -3 then none else some (fromV8Object { rdKafka with offset := some (.int i) })
  | .infinity => some (fromV8Object { rdKafka with offset := some .infinity })

def commitOffset (tpo : TopicPartitionOffset OffsetArg) :
    Int := fromV8Object (topicPartitionOffsetMetadataToRdKafka tpo)

/-- The offset that `committed` reports; an `Error` has no property `offset`. -/
def committedOffset (p : NativePartition) : Option (List Char) :=
  match toV8 p with
  | some tpo => (topicPartitionOffsetMetadataToKafkaJS tpo).offset
  | none => none

/-! ## Agreement -/

def decimal (k : Nat) : DecimalText where
  chars := Nat.toDigits 10 k
  ne_nil := Nat.toDigits_ne_nil
  digits _ hc := Nat.isDigit_of_mem_toDigits (by decide) (by decide) hc

/-- The two ways to give an offset. A number is one of the doubles. -/
def OffsetArg.Denotes (a : OffsetArg) (k : Nat) : Prop := a = .text (decimal k) ∨ a = .number k ∧ IsDouble k

/-- The converters and the paths through them keep the offset `k`, which is also what `p` has committed. -/
structure Agree (k : Nat) (p : NativePartition) : Prop where
  toRdKafka : ∀ tpo : TopicPartitionOffset OffsetArg, tpo.offset.Denotes k →
    (topicPartitionOffsetToRdKafka tpo).offset = .int k
  metadataToRdKafka : ∀ tpo : TopicPartitionOffset OffsetArg, tpo.offset.Denotes k →
    (topicPartitionOffsetMetadataToRdKafka tpo).offset = some (.int k)
  toKafkaJS : ∀ tpo : TopicPartitionOffset (Option Int), tpo.offset = some (k : Int) → IsDouble k →
    (topicPartitionOffsetMetadataToKafkaJS tpo).offset = some (Nat.toDigits 10 k)
  seek : ∀ tpo : TopicPartitionOffset OffsetArg, tpo.offset.Denotes k → seekOffset tpo = some (k : Int)
  commit : ∀ tpo : TopicPartitionOffset OffsetArg, tpo.offset.Denotes k → commitOffset tpo = k
  committed : committedOffset p = some (Nat.toDigits 10 k)

/-- No other number with more zeros at its end is rounded to the same double. -/
def Plain (k : Nat) : Prop := ∀ t m, roundNat m = k → 10 ^ t ∣ m → 10 ^ t ∣ k

theorem ofDigitChars_decimal (k : Nat) : Nat.ofDigitChars 10 (decimal k).chars 0 = k :=
  Nat.ofDigitChars_ten_toDigits

theorem toDigits_injective {m n : Nat} (h : Nat.toDigits 10 m = Nat.toDigits 10 n) : m = n := by
  rw [← ofDigitChars_decimal m, ← ofDigitChars_decimal n]
  exact congrArg (fun cs => Nat.ofDigitChars 10 cs 0) h

theorem toDouble_eq_int_iff (k : Nat) : toDouble k = .int k ↔ IsDouble k := by
  unfold toDouble IsDouble
  split
  · next h =>
    rw [OffsetNumber.int.injEq, Nat.cast_inj]
    constructor
    · intro he
      exact ⟨he, he ▸ h⟩
    · exact fun he => he.1
  · next h =>
    refine iff_of_false (fun he => by cases he) fun he => h ?_
    rw [he.1]
    exact he.2

theorem number_of_denotes {a : OffsetArg} {k : Nat} (h : a.Denotes k) (hk : IsDouble k) : number a = .int k := by
  rcases h with rfl | ⟨rfl, -⟩
  · rw [number, ofDigitChars_decimal]
    exact (toDouble_eq_int_iff k).mpr hk
  · rfl

theorem truthy_of_denotes {a : OffsetArg} {k : Nat} (h : a.Denotes k) (hk : 0 < k) : a.truthy = true := by
  rcases h with rfl | ⟨rfl, -⟩
  · simp [OffsetArg.truthy, (decimal k).ne_nil]
  · simp [OffsetArg.truthy]
    omega

theorem toInt64_of_lt {k : Nat} (h : k < 2 ^ 63) : toInt64 (.int k) = k := by
  rw [toInt64]
  omega

theorem numberToString_eq_iff {k : Nat} (hk : IsDouble k) (hpos : 0 < k) (hlt : k < 2 ^ 63) :
    numberToString k = Nat.toDigits 10 k ↔ Plain k := by
  have hsmall : k < 10 ^ 21 := hlt.trans (by decide)
  rw [numberToString, if_pos hsmall]
  have hshort := shortest_eq_self_iff hk.1 21
  constructor
  · intro h t m hm hdvd
    by_cases ht : t ≤ 21
    · exact (hshort.mp (toDigits_injective h)) t ht m hm hdvd
    · -- such a multiple is far above the double, or zero
      exfalso
      rcases Nat.eq_zero_or_pos m with rfl | hm0
      · rw [roundNat_zero] at hm
        omega
      · have hbig : 2 ^ 63 ≤ m := by
          calc 2 ^ 63 ≤ 10 ^ 22 := by decide
            _ ≤ 10 ^ t := Nat.pow_le_pow_right (by decide) (by omega)
            _ ≤ m := Nat.le_of_dvd hm0 hdvd
        have hround := roundNat_mono hbig
        have hpow : roundNat (2 ^ 63) = 2 ^ 63 := by decide +kernel
        omega
  · intro h
    rw [hshort.mpr fun t _ m hm hdvd => h t m hm hdvd]

theorem committedOffset_of_nat {p : NativePartition} {k : Nat} (hp : p.offset = k) :
    committedOffset p = if p.err = true ∨ roundNat k = 0 then none else some (numberToString (roundNat k)) := by
  have hinvalid : p.offset ≠ OFFSET_INVALID := by
    rw [hp]
    unfold OFFSET_INVALID
    omega
  unfold committedOffset toV8
  cases p.err with
  | true => simp
  | false =>
    rw [if_neg (by decide), if_pos hinvalid, hp, if_neg (by omega)]
    by_cases h0 : roundNat k = 0
    · simp [topicPartitionOffsetMetadataToKafkaJS, h0]
    · simp [topicPartitionOffsetMetadataToKafkaJS, h0, intToString]

/-- The offset is kept everywhere exactly where it is positive, a 64-bit integer and a double that is written
in full, and the native client has no error for the partition. -/
theorem offsets_agree_iff {k : Nat} {p : NativePartition} (hp : p.offset = k) :
    Agree k p ↔ 0 < k ∧ k < 2 ^ 63 ∧ IsDouble k ∧ Plain k ∧ p.err = false := by
  constructor
  · intro h
    have htext := h.toRdKafka ⟨"t", 0, .text (decimal k), none, none⟩ (.inl rfl)
    have hdouble : IsDouble k := by
      rw [← toDouble_eq_int_iff]
      simpa [topicPartitionOffsetToRdKafka, number, ofDigitChars_decimal] using htext
    have hpos : 0 < k := by
      have hnum := h.metadataToRdKafka ⟨"t", 0, .number k, none, none⟩ (.inr ⟨rfl, hdouble⟩)
      rcases Nat.eq_zero_or_pos k with rfl | hpos
      · cases hnum
      · exact hpos
    have hlt : k < 2 ^ 63 := by
      have hcommit := h.commit ⟨"t", 0, .number k, none, none⟩ (.inr ⟨rfl, hdouble⟩)
      have htruthy := truthy_of_denotes (a := .number k) (.inr ⟨rfl, hdouble⟩) hpos
      simp only [commitOffset, fromV8Object, topicPartitionOffsetMetadataToRdKafka, htruthy, if_true,
        getOffsetParameter,
        number, toInt64] at hcommit
      omega
    have hcommitted := h.committed
    rw [committedOffset_of_nat hp, hdouble.1] at hcommitted
    cases herr : p.err with
    | true => simp [herr] at hcommitted
    | false =>
      rw [herr, if_neg (by simp; omega), Option.some.injEq] at hcommitted
      exact ⟨hpos, hlt, hdouble, (numberToString_eq_iff hdouble hpos hlt).mp hcommitted, rfl⟩
  · rintro ⟨hpos, hlt, hdouble, hplain, herr⟩
    have hstring := (numberToString_eq_iff hdouble hpos hlt).mpr hplain
    refine ⟨fun tpo ha => number_of_denotes ha hdouble, fun tpo ha => ?_, fun tpo ha _ => ?_, fun tpo ha => ?_,
      fun tpo ha => ?_, ?_⟩
    · rw [topicPartitionOffsetMetadataToRdKafka, truthy_of_denotes ha hpos, if_pos rfl,
        number_of_denotes ha hdouble]
    · simp only [topicPartitionOffsetMetadataToKafkaJS, ha, Option.bind_some]
      rw [if_pos (by omega), intToString, if_neg (by omega), Int.natAbs_natCast, hstring]
    · simp only [seekOffset, topicPartitionOffsetToRdKafka, number_of_denotes ha hdouble, fromV8Object,
        getOffsetParameter,
        toInt64_of_lt hlt]
      rw [if_neg (by omega)]
    · rw [commitOffset, topicPartitionOffsetMetadataToRdKafka, truthy_of_denotes ha hpos, if_pos rfl,
        number_of_denotes ha hdouble, fromV8Object, getOffsetParameter, toInt64_of_lt hlt]
    · rw [committedOffset_of_nat hp, hdouble.1, herr, if_neg (by simp; omega), hstring]

/-- All offsets up to the largest safe integer are doubles and written in full. -/
theorem plain_of_lt {k : Nat} (h : k < 2 ^ 53) : IsDouble k ∧ Plain k := by
  have hbound := h.trans_le (Nat.pow_le_pow_right Nat.two_pos (show 53 ≤ 1024 by decide))
  refine ⟨⟨roundNat_of_lt h, hbound⟩, fun t m hm hdvd => ?_⟩
  have hlt : m < 2 ^ 53 := by
    by_contra hge
    have hround := roundNat_mono (Nat.not_lt.mp hge)
    have hpow : roundNat (2 ^ 53) = 2 ^ 53 := by decide +kernel
    omega
  rw [roundNat_of_lt hlt] at hm
  exact hm ▸ hdvd

theorem offsets_agree_fortyTwo : Agree 42 ⟨"t", 0, false, 42, none, -1⟩ := by
  obtain ⟨hdouble, hplain⟩ := plain_of_lt (show 42 < 2 ^ 53 by decide)
  exact (offsets_agree_iff rfl).mpr ⟨by decide, by decide, hdouble, hplain, rfl⟩

/-- The offset 0 as a number: absent on the way to a commit, and `null` where it was committed. -/
theorem offsets_disagree_zero :
    ¬Agree 0 ⟨"t", 0, false, 0, none, -1⟩ ∧
      (topicPartitionOffsetMetadataToRdKafka ⟨"t", 0, .number 0, none, none⟩).offset = none ∧
      committedOffset ⟨"t", 0, false, 0, none, -1⟩ = none := by
  refine ⟨fun h => ?_, rfl, rfl⟩
  have hcommitted := h.committed
  cases hcommitted

end Offsets

end ConfluentKafka
