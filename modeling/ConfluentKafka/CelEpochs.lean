import ConfluentKafka.CelScalars

/-!
# Epochs

`fromEpoch` and `timestampToEpoch` of `timestamp-funcs.ts` in all four units. An instant is counted in
nanoseconds.
-/

namespace ConfluentKafka

namespace Cel

inductive EpochUnit where
  | seconds
  | fraction (unit : TimeUnit)
  deriving DecidableEq

def EpochUnit.length : EpochUnit → Int
  | .seconds => 1000000000
  | .fraction unit => unit.nanosPerUnit

def fromEpochIn (v : Int) : EpochUnit → Except CelError Timestamp
  | .seconds => checkRange ⟨v, 0⟩
  | .fraction unit => fromEpoch v unit

def timestampToEpochIn (ts : Timestamp) : EpochUnit → Except CelError Int
  | .seconds =>
    if MAX_SAFE_INTEGER < ts.seconds ∨
      ts.seconds < -MAX_SAFE_INTEGER then throw (.unsafeEpoch ts.seconds) else return ts.seconds
  | .fraction unit => timestampToEpoch ts unit

/-! ## Instants -/

def Timestamp.instant (ts : Timestamp) : Int := ts.seconds * 1000000000 + ts.nanos

/-- From the first of January of the year 1 to the last nanosecond of the year 9999. -/
def InCalendar (instant : Int) : Prop :=
  MIN_TIMESTAMP_SECONDS * 1000000000 ≤ instant ∧ instant ≤ MAX_TIMESTAMP_SECONDS * 1000000000 + 999999999

structure Timestamp.Valid (ts : Timestamp) : Prop where
  nanos_nonneg : 0 ≤ ts.nanos
  nanos_lt : ts.nanos < 1000000000
  inCalendar : InCalendar ts.instant

def SafeInteger (n : Int) : Prop := -MAX_SAFE_INTEGER ≤ n ∧ n ≤ MAX_SAFE_INTEGER

theorem checkRange_eq_ok {ts ts' : Timestamp} (h : checkRange ts = .ok ts') : ts' = ts := by
  unfold checkRange at h
  split_ifs at h
  cases h
  rfl

/-- With nanoseconds of a second, the range of the seconds is that of the instant. -/
theorem checkRange_throws_iff {ts : Timestamp} (hnonneg : 0 ≤ ts.nanos) (hlt : ts.nanos < 1000000000) :
    (∃ e, checkRange ts = .error e) ↔ ¬InCalendar ts.instant := by
  have hrange : (ts.seconds < MIN_TIMESTAMP_SECONDS ∨ MAX_TIMESTAMP_SECONDS < ts.seconds) ↔
    ¬InCalendar ts.instant := by
    simp only [InCalendar, Timestamp.instant, MIN_TIMESTAMP_SECONDS, MAX_TIMESTAMP_SECONDS]
    omega
  unfold checkRange
  by_cases h : ts.seconds < MIN_TIMESTAMP_SECONDS ∨ MAX_TIMESTAMP_SECONDS < ts.seconds
  · rw [if_pos h]
    exact ⟨fun _ => hrange.mp h, fun _ => ⟨_, rfl⟩⟩
  · rw [if_neg h, if_neg (by omega)]
    refine ⟨fun herr => ?_, fun hout => absurd (hrange.mpr hout) h⟩
    obtain ⟨e, he⟩ := herr
    cases he

def split (v : Int) : EpochUnit → Timestamp
  | .seconds => ⟨v, 0⟩
  | .fraction unit => splitEpoch v unit.perSecond unit.nanosPerUnit

theorem fromEpochIn_eq (v : Int) (unit : EpochUnit) : fromEpochIn v unit = checkRange (split v unit) := by
  cases unit <;> rfl

theorem split_spec (v : Int) (unit : EpochUnit) :
    0 ≤ (split v unit).nanos ∧ (split v unit).nanos < 1000000000 ∧ (split v unit).instant = v * unit.length := by
  cases unit with
  | seconds =>
    simp only [split, Timestamp.instant, EpochUnit.length]
    omega
  | fraction unit =>
    simp only [split, splitEpoch_eq (perSecond_pos unit), Timestamp.instant, EpochUnit.length]
    cases unit <;> simp only [TimeUnit.perSecond, TimeUnit.nanosPerUnit] <;> omega

/-! ## Floors -/

theorem length_pos (unit : EpochUnit) : 0 < unit.length := by
  cases unit with
  | seconds => decide
  | fraction unit => exact nanosPerUnit_pos unit

theorem timestampToEpochIn_eq {ts : Timestamp} (hnonneg : 0 ≤ ts.nanos) (hlt : ts.nanos < 1000000000)
    (unit : EpochUnit) :
    timestampToEpochIn ts unit =
      if MAX_SAFE_INTEGER < ts.instant / unit.length ∨ ts.instant / unit.length < -MAX_SAFE_INTEGER then
        .error (.unsafeEpoch (ts.instant / unit.length))
      else .ok (ts.instant / unit.length) := by
  cases unit with
  | seconds =>
    have hfloor : ts.instant / EpochUnit.length .seconds = ts.seconds := by
      simp only [Timestamp.instant, EpochUnit.length]
      omega
    rw [hfloor]
    rfl
  | fraction unit =>
    have hfloor : ts.instant / EpochUnit.length (.fraction unit) = ts.seconds * unit.perSecond +
      ts.nanos.tdiv unit.nanosPerUnit := by
      rw [Int.tdiv_eq_ediv_of_nonneg hnonneg]
      simp only [Timestamp.instant, EpochUnit.length]
      cases unit <;> simp only [TimeUnit.perSecond, TimeUnit.nanosPerUnit] <;> omega
    rw [hfloor]
    rfl

/-- The floor of the instant in the unit, where that is a safe integer. -/
structure Floors (ts : Timestamp) (unit : EpochUnit) : Prop where
  throws : (∃ e, timestampToEpochIn ts unit = .error e) ↔ ¬SafeInteger (ts.instant / unit.length)
  returns : ∀ n, timestampToEpochIn ts unit = .ok n → n = ts.instant / unit.length

theorem floors {ts : Timestamp} (hnonneg : 0 ≤ ts.nanos) (hlt : ts.nanos < 1000000000) (unit : EpochUnit) :
    Floors ts unit := by
  have hsafe : (MAX_SAFE_INTEGER < ts.instant / unit.length ∨ ts.instant / unit.length < -MAX_SAFE_INTEGER) ↔
      ¬SafeInteger (ts.instant / unit.length) := by
    unfold SafeInteger
    omega
  by_cases h : MAX_SAFE_INTEGER < ts.instant / unit.length ∨ ts.instant / unit.length < -MAX_SAFE_INTEGER
  · have herr := timestampToEpochIn_eq hnonneg hlt unit
    rw [if_pos h] at herr
    refine ⟨⟨fun _ => hsafe.mp h, fun _ => ⟨_, herr⟩⟩, fun n hn => ?_⟩
    rw [herr] at hn
    cases hn
  · have hok := timestampToEpochIn_eq hnonneg hlt unit
    rw [if_neg h] at hok
    refine ⟨⟨fun herr => ?_, fun hunsafe => absurd (hsafe.mpr hunsafe) h⟩, fun n hn => ?_⟩
    · obtain ⟨e, he⟩ := herr
      rw [hok] at he
      cases he
    · rw [hok] at hn
      exact (Except.ok.inj hn).symm

structure Converts (v : Int) (unit : EpochUnit) : Prop where
  throws : (∃ e, fromEpochIn v unit = .error e) ↔ ¬InCalendar (v * unit.length)
  returns : ∀ ts, fromEpochIn v unit = .ok ts → ts.Valid ∧ ts.instant = v * unit.length
  back : ∀ ts, fromEpochIn v unit = .ok ts → SafeInteger v → timestampToEpochIn ts unit = .ok v

theorem converts (v : Int) (unit : EpochUnit) : Converts v unit := by
  obtain ⟨hnonneg, hlt, hinstant⟩ := split_spec v unit
  have hthrows := checkRange_throws_iff hnonneg hlt
  rw [hinstant, ← fromEpochIn_eq] at hthrows
  have hsplit : ∀ ts, fromEpochIn v unit = .ok ts → ts = split v unit := by
    intro ts hts
    rw [fromEpochIn_eq] at hts
    exact checkRange_eq_ok hts
  refine ⟨hthrows, ?_, ?_⟩
  · intro ts hts
    have hin : InCalendar (v * unit.length) := by
      by_contra hout
      obtain ⟨e, he⟩ := hthrows.mpr hout
      rw [hts] at he
      cases he
    rw [hsplit ts hts]
    exact ⟨⟨hnonneg, hlt, hinstant ▸ hin⟩, hinstant⟩
  · intro ts hts hsafe
    have hfloor : v * unit.length / unit.length = v := Int.mul_ediv_cancel _ (ne_of_gt (length_pos unit))
    obtain ⟨hlow, hhigh⟩ := hsafe
    rw [hsplit ts hts, timestampToEpochIn_eq hnonneg hlt, hinstant, hfloor, if_neg (by omega)]

/-- Epochs are exact in both directions, and what is out of range is refused. -/
theorem epochs_exact (unit : EpochUnit) : (∀ v, Converts v unit) ∧ ∀ ts : Timestamp, ts.Valid → Floors ts unit :=
  ⟨fun v => converts v unit, fun _ hts => floors hts.nanos_nonneg hts.nanos_lt unit⟩

/-- One nanosecond before the epoch. -/
theorem epochs_exact_before : Floors ⟨-1, 999999999⟩ (.fraction .micros) :=
  (epochs_exact (.fraction .micros)).2 ⟨-1, 999999999⟩ ⟨by decide, by decide, by decide, by decide⟩

end Cel

end ConfluentKafka
