import Mathlib.Data.List.Basic
import Mathlib.Tactic.IntervalCases

/-!
# Dates and times as texts

The Gregorian calendar, extended to all years, and what a text of ISO 8601 with a year of four
digits stands for: a day since the epoch, a time of day, or both together. The fraction of the
seconds has at most nine digits.
-/

namespace ConfluentKafka

namespace Calendar

def isLeap (year : Int) : Bool := year % 4 = 0 ∧ (year % 100 ≠ 0 ∨ year % 400 = 0)

def yearLength (year : Int) : Nat := if isLeap year then 366 else 365

def monthLength (year : Int) (month : Nat) : Nat :=
  if month = 2 then if isLeap year then 29 else 28
  else if month = 4 ∨ month = 6 ∨ month = 9 ∨ month = 11 then 30
  else 31

def daysBeforeMonth (year : Int) (month : Nat) : Nat :=
  ((List.range (month - 1)).map fun i => monthLength year (i + 1)).sum

def daysBeforeYear (year : Int) : Int := 365 * (year - 1) + (year - 1) / 4 - (year - 1) / 100 + (year - 1) / 400

def epochDay (year : Int) (month day : Nat) : Int :=
  daysBeforeYear year + daysBeforeMonth year month + day - 1 - daysBeforeYear 1970

theorem daysBeforeMonth_one (year : Int) : daysBeforeMonth year 1 = 0 := rfl

theorem daysBeforeMonth_two (year : Int) : daysBeforeMonth year 2 = 31 := rfl

theorem daysBeforeYear_succ (year : Int) : daysBeforeYear (year + 1) = daysBeforeYear year + yearLength year := by
  have hlength : (yearLength year : Int) = if year % 4 = 0 ∧
    (year % 100 ≠ 0 ∨ year % 400 = 0) then 366 else 365 := by
    unfold yearLength isLeap
    split_ifs <;> simp_all
  rw [hlength]
  unfold daysBeforeYear
  split_ifs with h
  · omega
  · omega

theorem daysBeforeMonth_thirteen (year : Int) : daysBeforeMonth year 13 = yearLength year := by
  cases h : isLeap year with
  | true => simp [daysBeforeMonth, monthLength, yearLength, h, List.range_succ]
  | false => simp [daysBeforeMonth, monthLength, yearLength, h, List.range_succ]

structure Valid (year : Int) (month day : Nat) : Prop where
  month_pos : 1 ≤ month
  month_le : month ≤ 12
  day_pos : 1 ≤ day
  day_le : day ≤ monthLength year month

theorem daysBeforeMonth_succ (year : Int) {month : Nat} (h : 1 ≤ month) :
    daysBeforeMonth year (month + 1) = daysBeforeMonth year month + monthLength year month := by
  obtain ⟨m, rfl⟩ := Nat.exists_eq_add_of_le' h
  simp [daysBeforeMonth, List.range_succ]

theorem daysBeforeMonth_mono (year : Int) {m n : Nat} (h : m ≤ n) :
    daysBeforeMonth year m ≤ daysBeforeMonth year n := by
  induction h with
  | refl => exact Nat.le_refl _
  | @step k _ ih =>
    rcases Nat.eq_zero_or_pos k with rfl | hk
    · exact ih
    · rw [daysBeforeMonth_succ year hk]
      omega

theorem Valid.within_year {year : Int} {month day : Nat} (h : Valid year month day) :
    daysBeforeMonth year month + day ≤ yearLength year := by
  have hsucc := daysBeforeMonth_succ year h.month_pos
  have hmono : daysBeforeMonth year (month + 1) ≤ daysBeforeMonth year 13 :=
    daysBeforeMonth_mono year (Nat.succ_le_succ h.month_le)
  have hday := h.day_le
  rw [← daysBeforeMonth_thirteen]
  omega

theorem daysBeforeYear_mono {x y : Int} (h : x ≤ y) : daysBeforeYear x ≤ daysBeforeYear y := by
  unfold daysBeforeYear
  omega

/-- Days between two firsts of January are in the years between. -/
theorem Valid.year_bounds {year a b : Int} {month day : Nat} (h : Valid year month day)
    (ha : epochDay a 1 1 ≤ epochDay year month day) (hb : epochDay year month day < epochDay b 1 1) : a ≤ year ∧
      year < b := by
  have hyear := h.within_year
  have hday := h.day_pos
  have hsucc := daysBeforeYear_succ year
  have hone : ∀ y, daysBeforeMonth y 1 = 0 := fun _ => rfl
  unfold epochDay at ha hb
  rw [hone] at ha hb
  constructor
  · by_contra hlt
    have := daysBeforeYear_mono (x := year + 1) (y := a) (by omega)
    omega
  · by_contra hge
    have := daysBeforeYear_mono (x := b) (y := year) (by omega)
    omega

/-! ## Texts -/

def number? (cs : List Char) : Option Nat := if cs.all Char.isDigit then some (Nat.ofDigitChars 10 cs 0) else none

/-- The day of a date, `YYYY-MM-DD`. -/
def date? : List Char → Option Int
  | [y₁, y₂, y₃, y₄, '-', m₁, m₂, '-', d₁, d₂] => do
    let year ← number? [y₁, y₂, y₃, y₄]
    let month ← number? [m₁, m₂]
    let day ← number? [d₁, d₂]
    if 1 ≤ month ∧ month ≤ 12 ∧ 1 ≤ day ∧ day ≤ monthLength year month then some (epochDay year month day) else none
  | _ => none

def fraction? : List Char → Option Nat
  | [] => some 0
  | '.' :: ds => if ds ≠ [] ∧ ds.length ≤ 9 then (number? ds).map fun n => n * 10 ^ (9 - ds.length) else none
  | _ => none

def time? : List Char → Option Nat
  | h₁ :: h₂ :: ':' :: m₁ :: m₂ :: ':' :: s₁ :: s₂ :: rest => do
    let hour ← number? [h₁, h₂]
    let minute ← number? [m₁, m₂]
    let second ← number? [s₁, s₂]
    let nanos ← fraction? rest
    if hour < 24 ∧ minute < 60 ∧ second < 60 then some ((hour * 3600 + minute * 60 + second) * 1000000000 +
      nanos) else none
  | _ => none

def dateTime? (cs : List Char) : Option Int :=
  match cs.drop 10 with
  | 'T' :: time => do
    let day ← date? (cs.take 10)
    let nanos ← time? time
    return day * 86400000000000 + nanos
  | _ => none

def instant? (cs : List Char) : Option Int := if cs.getLast? = some 'Z' then dateTime? cs.dropLast else none

example : date? "2000-02-29".toList = some 11016 ∧ date? "1900-02-29".toList = none ∧
    time? "23:59:59.5".toList = some 86399500000000 ∧ instant? "1969-12-31T23:59:59.999Z".toList = some
      (-1000000) := by
  decide

theorem number?_leftpad {n w : Nat} (cs : List Char) (hcs : cs = List.leftpad w '0' (Nat.toDigits 10 n)) :
    number? cs = some n := by
  have hdigits : cs.all Char.isDigit = true := by
    rw [hcs, List.leftpad, List.all_append, Bool.and_eq_true, List.all_eq_true, List.all_eq_true]
    refine ⟨fun c hc => ?_, fun c hc => Nat.isDigit_of_mem_toDigits (by decide) (by decide) hc⟩
    rw [List.eq_of_mem_replicate hc]
    rfl
  rw [number?, if_pos hdigits, hcs, List.leftpad, Nat.ofDigitChars_append,
    Nat.ofDigitChars_replicate_zero, Nat.mul_zero,
    Nat.ofDigitChars_ten_toDigits]

theorem length_leftpad_toDigits {n w : Nat} (hw : 0 < w) (h : n < 10 ^ w) :
    (List.leftpad w '0' (Nat.toDigits 10 n)).length = w := by
  rw [List.length_leftpad]
  exact Nat.max_eq_left ((Nat.length_toDigits_le_iff (by decide) hw).mpr h)

end Calendar

end ConfluentKafka
