import ConfluentKafka.Calendar
import ConfluentKafka.VariantSafe

/-!
# Dates and times of Variants as JSON

What `toJson` writes for a date or time is a text of ISO 8601 with a year of four digits that
stands for the value, as long as the value is one that such a text can stand for.
-/

namespace ConfluentKafka

open Calendar

/-! ## The date of a day -/

section Civil

/-- The year of the day `doe` of an era, in years that begin in March: `doe` is `t` days after `c` centuries,
`q` times four years and `k` years. -/
theorem yearOfEra_eq {c q k t doe : Nat} (hc : c ≤ 3) (hq : q ≤ 24) (hk : k ≤ 3)
    (hd : doe = 36524 * c + 1461 * q + 365 * k + t) (ht : t < 365 ∨ t = 365 ∧ k = 3 ∧ (q < 24 ∨ c = 3)) :
    (doe - doe / 1460 + doe / 36524 - doe / 146096) / 365 = 100 * c + 4 * q + k := by
  have hrest : 1461 * q + 365 * k + t ≤ 36523 ∨ c = 3 ∧ doe = 146096 := by
    rcases ht with ht | ⟨rfl, rfl, h | rfl⟩
    · omega
    · omega
    · omega
  have hcentury : ∃ e, e ≤ 1 ∧ doe / 36524 = c + e ∧ doe / 146096 = e := by
    rcases hrest with h | ⟨rfl, h⟩
    · refine ⟨0, by omega, ?_, Nat.div_eq_of_lt (by omega)⟩
      rw [Nat.div_eq_iff (by omega)]
      omega
    · exact ⟨1, by omega, by rw [h], by rw [h]⟩
  have hfour : ∃ r, r ≤ t ∧ t < 365 + r ∧ doe / 1460 = 25 * c + q + r := by
    rcases Nat.lt_or_ge (24 * c + q + 365 * k + t) 1460 with h | h
    · have ht' : t < 365 := by
        rcases ht with ht | ⟨rfl, rfl, h | rfl⟩
        · omega
        · omega
        · omega
      refine ⟨0, by omega, by omega, ?_⟩
      rw [Nat.div_eq_iff (by omega)]
      omega
    · have ht' : 1 ≤ t ∧ t < 366 := by
        rcases ht with ht | ⟨rfl, rfl, h | rfl⟩
        · omega
        · omega
        · omega
      refine ⟨1, by omega, by omega, ?_⟩
      rw [Nat.div_eq_iff (by omega)]
      omega
  obtain ⟨e, he, h₁, h₂⟩ := hcentury
  obtain ⟨r, hr, hr', h₃⟩ := hfour
  rw [h₁, h₂, h₃, Nat.div_eq_iff (by omega)]
  clear ht hrest h₁ h₂ h₃
  omega

theorem dayOfEra_split {doe : Nat} (h : doe ≤ 146096) : ∃ c q k t, c ≤ 3 ∧ q ≤ 24 ∧ k ≤ 3 ∧
    doe = 36524 * c + 1461 * q + 365 * k + t ∧ (t < 365 ∨ t = 365 ∧ k = 3 ∧ (q < 24 ∨ c = 3)) := by
  obtain ⟨c, hc⟩ : ∃ c, c = min 3 (doe / 36524) := ⟨_, rfl⟩
  obtain ⟨r, hr⟩ : ∃ r, doe = 36524 * c + r := ⟨doe - 36524 * c, by omega⟩
  have hr' : r ≤ 36523 ∨ r = 36524 ∧ c = 3 := by omega
  obtain ⟨q, s, hrs, hs⟩ : ∃ q s, r = 1461 * q + s ∧ s ≤ 1460 := ⟨r / 1461, r % 1461, by omega, by omega⟩
  obtain ⟨k, hk⟩ : ∃ k, k = min 3 (s / 365) := ⟨_, rfl⟩
  have hq : q ≤ 24 := by omega
  refine ⟨c, q, k, s - 365 * k, by omega, hq, by omega, by omega, ?_⟩
  clear hc hr
  omega

def marchOffset (mp : Nat) : Nat := (153 * mp + 2) / 5

theorem daysBeforeMonth_march (year : Int) {mp : Nat} (h : mp ≤ 9) :
    daysBeforeMonth year (mp + 3) + 306 = yearLength year + marchOffset mp := by
  cases hleap : isLeap year with
  | true =>
    interval_cases mp <;> simp [daysBeforeMonth, monthLength, yearLength, hleap, List.range_succ, marchOffset]
  | false =>
    interval_cases mp <;> simp [daysBeforeMonth, monthLength, yearLength, hleap, List.range_succ, marchOffset]

theorem monthLength_march (year : Int) {mp : Nat} (h : mp ≤ 9) :
    marchOffset mp + monthLength year (mp + 3) = marchOffset (mp + 1) := by
  interval_cases mp <;> simp [monthLength, marchOffset]

def marchDate (year : Int) (doy : Nat) : Int × Nat × Nat :=
  let mp := (5 * doy + 2) / 153
  let month := if mp < 10 then mp + 3 else mp - 9
  (year + (if month ≤ 2 then 1 else 0), month, doy - (153 * mp + 2) / 5 + 1)

/-- The days from the first of March to the first of January are 306 in all years. -/
theorem marchDate_spec {year : Int} {doy : Nat} (hdoy : doy ≤ 365) (hleap : doy = 365 → isLeap (year + 1) = true) :
    Valid (marchDate year doy).1 (marchDate year doy).2.1 (marchDate year doy).2.2 ∧
      epochDay (marchDate year doy).1 (marchDate year doy).2.1 (marchDate year doy).2.2 =
        daysBeforeYear (year + 1) - 306 + doy - daysBeforeYear 1970 := by
  obtain ⟨mp, hmp⟩ : ∃ mp, mp = (5 * doy + 2) / 153 := ⟨_, rfl⟩
  have hoff : marchOffset mp ≤ doy ∧ doy < marchOffset (mp + 1) := by
    unfold marchOffset
    omega
  simp only [marchDate, ← hmp]
  by_cases hlt : mp < 10
  · have hmonth := daysBeforeMonth_march year (show mp ≤ 9 by omega)
    have hlength := monthLength_march year (show mp ≤ 9 by omega)
    have hsucc := daysBeforeYear_succ year
    simp only [if_pos hlt, show ¬mp + 3 ≤ 2 by omega, if_false, add_zero]
    unfold marchOffset at hoff hmonth hlength
    refine ⟨⟨by omega, by omega, by omega, by omega⟩, ?_⟩
    unfold epochDay
    push_cast
    omega
  · have hcases : mp = 10 ∨ mp = 11 := by omega
    rcases hcases with rfl | rfl
    · simp only [marchOffset] at hoff
      refine ⟨⟨by decide, by decide, by omega, ?_⟩, ?_⟩
      · simp [monthLength]
        omega
      · show epochDay (year + 1) 1 (doy - 306 + 1) = daysBeforeYear (year + 1) - 306 + doy - daysBeforeYear 1970
        rw [epochDay, daysBeforeMonth_one]
        omega
    · simp only [marchOffset] at hoff
      refine ⟨⟨by decide, by decide, by omega, ?_⟩, ?_⟩
      · by_cases hlast : doy = 365
        · simp [monthLength, hleap hlast, hlast]
        · simp [monthLength]
          split_ifs <;> omega
      · show epochDay (year + 1) 2 (doy - 337 + 1) = daysBeforeYear (year + 1) - 306 + doy - daysBeforeYear 1970
        rw [epochDay, daysBeforeMonth_two]
        omega

theorem daysBeforeYear_era (era : Int) {yoe : Nat} (h : yoe ≤ 399) :
    daysBeforeYear (yoe + era * 400 + 1) = 146097 * era + (365 * yoe + yoe / 4 - yoe / 100 : Nat) := by
  have h₁ : (yoe + era * 400 + 1 - 1) / 4 = (yoe / 4 : Nat) + 100 * era := by omega
  have h₂ : (yoe + era * 400 + 1 - 1) / 100 = (yoe / 100 : Nat) + 4 * era := by omega
  have h₃ : (yoe + era * 400 + 1 - 1) / 400 = era := by omega
  rw [daysBeforeYear, h₁, h₂, h₃]
  omega

theorem civilDate_eq (days : Int) : ∃ year doy, doy ≤ 365 ∧ (doy = 365 → isLeap (year + 1) = true) ∧
    civilDate days = marchDate year doy ∧ daysBeforeYear (year + 1) - 306 + doy - daysBeforeYear 1970 = days := by
  obtain ⟨era, hera⟩ : ∃ era, era = (days + 719468) / 146097 := ⟨_, rfl⟩
  obtain ⟨doe, hdoe⟩ : ∃ doe, doe = ((days + 719468) % 146097).toNat := ⟨_, rfl⟩
  have hle : doe ≤ 146096 := by omega
  have hdays : days + 719468 = 146097 * era + doe := by omega
  obtain ⟨c, q, k, t, hc, hq, hk, hsplit, ht⟩ := dayOfEra_split hle
  have hyoe := yearOfEra_eq hc hq hk hsplit ht
  obtain ⟨yoe, hy⟩ : ∃ yoe, yoe = 100 * c + 4 * q + k := ⟨_, rfl⟩
  have hfour : yoe / 4 = 25 * c + q := by omega
  have hcentury : yoe / 100 = c := by omega
  have hdoy : doe - (365 * yoe + yoe / 4 - yoe / 100) = t := by
    rw [hfour, hcentury]
    omega
  have ht' : t ≤ 365 := by
    rcases ht with ht | ht
    · exact Nat.le_of_lt ht
    · exact Nat.le_of_eq ht.1
  refine ⟨yoe + era * 400, t, ht', ?_, ?_, ?_⟩
  · intro hlast
    obtain hlt | ⟨-, rfl, hend⟩ := ht
    · exact absurd hlast (Nat.ne_of_lt hlt)
    · clear hyoe hdoy hdays hsplit hfour hcentury
      simp only [isLeap, decide_eq_true_eq]
      omega
  · unfold civilDate marchDate
    simp only [← hera, ← hdoe, hyoe, ← hy, hdoy]
  · have hepoch : daysBeforeYear 1970 = 719162 := by decide
    have hcount := daysBeforeYear_era era (show yoe ≤ 399 by omega)
    have hsum : doe = 365 * yoe + yoe / 4 - yoe / 100 + t := by
      rw [hfour, hcentury]
      omega
    clear hyoe hdoy hsplit ht hfour hcentury hy hdoe hera
    rw [hcount, hepoch]
    omega

theorem civilDate_spec (days : Int) : Valid (civilDate days).1 (civilDate days).2.1 (civilDate days).2.2 ∧
    epochDay (civilDate days).1 (civilDate days).2.1 (civilDate days).2.2 = days := by
  obtain ⟨year, doy, hdoy, hleap, heq, hdays⟩ := civilDate_eq days
  have hspec := marchDate_spec hdoy hleap
  rw [hdays] at hspec
  rw [heq]
  exact hspec

end Civil

/-! ## Texts -/

section Texts

theorem toList_pad (n w : Nat) : (pad n w).toList = List.leftpad w '0' (Nat.toDigits 10 n) := by
  simp [pad]

theorem number?_pad (n w : Nat) : number? (pad n w).toList = some n := number?_leftpad _ (toList_pad n w)

theorem length_pad {n w : Nat} (hw : 0 < w) (h : n < 10 ^ w) : (pad n w).toList.length = w := by
  rw [toList_pad]
  exact length_leftpad_toDigits hw h

theorem pad_two {n : Nat} (h : n < 100) : ∃ a b, (pad n 2).toList = [a, b] ∧ number? [a, b] = some n := by
  obtain ⟨a, b, hab⟩ := List.length_eq_two.mp (length_pad (w := 2) (by decide) h)
  exact ⟨a, b, hab, by rw [← hab, number?_pad]⟩

theorem pad_four {n : Nat} (h : n < 10000) :
    ∃ a b c d, (pad n 4).toList = [a, b, c, d] ∧ number? [a, b, c, d] = some n := by
  have hlen := length_pad (w := 4) (by decide) h
  match hlist : (pad n 4).toList, hlen with
  | [a, b, c, d], _ => exact ⟨a, b, c, d, rfl, by rw [← hlist, number?_pad]⟩

theorem monthLength_lt (year : Int) (month : Nat) : monthLength year month < 100 := by
  unfold monthLength
  split_ifs <;> decide

theorem date?_ymd {days : Int} {formatYear : Int → String}
    (hformat : ∀ year : Int, 0 ≤ year → year ≤ 9999 → formatYear year = pad year.natAbs 4)
    (hyear : 0 ≤ (civilDate days).1 ∧ (civilDate days).1 ≤ 9999) :
    date? (ymd days formatYear).toList = some days ∧ (ymd days formatYear).toList.length = 10 := by
  obtain ⟨hvalid, hdays⟩ := civilDate_spec days
  unfold ymd
  obtain ⟨⟨year, month, day⟩, hcivil⟩ : ∃ d, civilDate days = d := ⟨_, rfl⟩
  rw [hcivil] at hvalid hdays hyear ⊢
  dsimp only at hvalid hdays hyear ⊢
  have hmonth := hvalid.month_le
  have hday := hvalid.day_le
  have hlt := monthLength_lt year month
  obtain ⟨y, rfl⟩ := Int.eq_ofNat_of_zero_le hyear.1
  obtain ⟨y₁, y₂, y₃, y₄, hy, hny⟩ := pad_four (n := y) (by omega)
  obtain ⟨m₁, m₂, hm, hnm⟩ := pad_two (n := month) (by omega)
  obtain ⟨d₁, d₂, hd, hnd⟩ := pad_two (n := day) (by omega)
  rw [hformat y hyear.1 hyear.2, Int.natAbs_natCast]
  simp only [String.toList_append, hy, hm, hd]
  refine ⟨?_, rfl⟩
  show (do
    let year ← number? [y₁, y₂, y₃, y₄]
    let month ← number? [m₁, m₂]
    let day ← number? [d₁, d₂]
    if 1 ≤ month ∧ month ≤ 12 ∧ 1 ≤ day ∧ day ≤ monthLength year month then some (epochDay year month day)
    else none) = _
  rw [hny, hnm, hnd]
  show (if 1 ≤ month ∧ month ≤ 12 ∧ 1 ≤ day ∧ day ≤ monthLength y month then some
    (epochDay y month day) else none) = _
  rw [if_pos ⟨hvalid.month_pos, hmonth, hvalid.day_pos, hday⟩, hdays]

theorem fraction?_fracNanos {nanos : Nat} (h : nanos < 1000000000) : fraction? (fracNanos nanos).toList =
    some nanos := by
  have hpart : ∀ n w, 0 < w → w ≤ 9 → n < 10 ^ w → fraction? ("." ++ pad n w).toList = some (n * 10 ^ (9 - w)) := by
    intro n w hw hw' hn
    have hlen := length_pad hw hn
    have hne : (pad n w).toList ≠ [] := by
      rw [← List.length_pos_iff, hlen]
      exact hw
    have hpoint : ".".toList = ['.'] := rfl
    rw [String.toList_append, hpoint, List.singleton_append, fraction?, if_pos ⟨hne, by omega⟩, number?_pad, hlen,
      Option.map_some]
  unfold fracNanos
  split_ifs with h₀ h₁ h₂
  · rw [h₀]
    rfl
  · rw [hpart _ 3 (by decide) (by decide) (by omega)]
    exact congrArg some (by omega)
  · rw [hpart _ 6 (by decide) (by decide) (by omega)]
    exact congrArg some (by omega)
  · rw [hpart _ 9 (by decide) (by decide) (by omega)]
    exact congrArg some (by omega)

theorem time?_hms {seconds nanos : Nat} (hs : seconds < 86400) (hn : nanos < 1000000000) :
    time? (hms seconds ++ fracNanos nanos).toList = some (seconds * 1000000000 + nanos) := by
  obtain ⟨h₁, h₂, hh, hnh⟩ := pad_two (n := seconds / 3600) (by omega)
  obtain ⟨m₁, m₂, hm, hnm⟩ := pad_two (n := seconds % 3600 / 60) (by omega)
  obtain ⟨s₁, s₂, hs', hns⟩ := pad_two (n := seconds % 60) (by omega)
  have hf := fraction?_fracNanos hn
  unfold hms
  simp only [String.toList_append, hh, hm, hs']
  show (do
    let hour ← number? [h₁, h₂]
    let minute ← number? [m₁, m₂]
    let second ← number? [s₁, s₂]
    let nanos ← fraction? (fracNanos nanos).toList
    if hour < 24 ∧ minute < 60 ∧ second < 60 then
      some ((hour * 3600 + minute * 60 + second) * 1000000000 + nanos) else none) = _
  rw [hnh, hnm, hns, hf]
  have hrange : seconds / 3600 < 24 ∧ seconds % 3600 / 60 < 60 ∧ seconds % 60 < 60 := by omega
  show (if seconds / 3600 < 24 ∧ seconds % 3600 / 60 < 60 ∧ seconds % 60 < 60 then
    some ((seconds / 3600 * 3600 + seconds % 3600 / 60 * 60 + seconds % 60) * 1000000000 + nanos) else none) = _
  rw [if_pos hrange]
  exact congrArg some (by omega)

theorem dateTime?_formatDateTime {totalNanos : Int} {formatYear : Int → String}
    (hformat : ∀ year : Int, 0 ≤ year → year ≤ 9999 → formatYear year = pad year.natAbs 4)
    (hyear : 0 ≤ (civilDate (totalNanos / 1000000000 / 86400)).1 ∧
      (civilDate (totalNanos / 1000000000 / 86400)).1 ≤ 9999) :
    dateTime? (formatDateTime totalNanos formatYear).toList = some totalNanos := by
  obtain ⟨hdate, hlen⟩ := date?_ymd hformat hyear
  have htime := time?_hms (show (totalNanos / 1000000000 % 86400).toNat < 86400 by omega)
    (show (totalNanos % 1000000000).toNat < 1000000000 by omega)
  have hsplit : (formatDateTime totalNanos formatYear).toList =
      (ymd (totalNanos / 1000000000 / 86400) formatYear).toList ++ 'T' ::
        (hms (totalNanos / 1000000000 % 86400).toNat ++ fracNanos (totalNanos % 1000000000).toNat).toList := by
    simp [formatDateTime, floorDivMod_eq]
  rw [dateTime?, hsplit, List.drop_left' hlen, List.take_left' hlen]
  show (do
    let day ← date? (ymd (totalNanos / 1000000000 / 86400) formatYear).toList
    let nanos ← time? (hms (totalNanos / 1000000000 % 86400).toNat ++ fracNanos
      (totalNanos % 1000000000).toNat).toList
    return day * 86400000000000 + nanos) = _
  rw [hdate, htime]
  show some _ = some _
  exact congrArg some (by omega)

theorem formatYearIso_eq (year : Int) (h₀ : 0 ≤ year) (h₁ : year ≤ 9999) :
    formatYearIso year = pad year.natAbs 4 := by
  rw [formatYearIso, if_neg (by omega), if_neg (by omega)]

theorem formatYear04_eq (year : Int) (h₀ : 0 ≤ year) (_ : year ≤ 9999) : formatYear04 year = pad year.natAbs 4 := by
  rw [formatYear04, if_neg (by omega)]

theorem instant?_formatInstant {totalNanos : Int} (hyear : 0 ≤ (civilDate (totalNanos / 1000000000 / 86400)).1 ∧
    (civilDate (totalNanos / 1000000000 / 86400)).1 ≤ 9999) :
    instant? (formatInstant totalNanos).toList = some totalNanos := by
  have hsplit : (formatInstant totalNanos).toList = (formatDateTime totalNanos formatYearIso).toList ++ ['Z'] := by
    simp [formatInstant]
  rw [instant?, hsplit, List.getLast?_concat, if_pos rfl, List.dropLast_concat]
  exact dateTime?_formatDateTime formatYearIso_eq hyear

end Texts

/-! ## The values of a type -/

theorem year_of_days {days : Int} (h₀ : epochDay 1 1 1 ≤ days) (h₁ : days ≤ epochDay 9999 12 31) :
    0 ≤ (civilDate days).1 ∧ (civilDate days).1 ≤ 9999 := by
  obtain ⟨hvalid, hdays⟩ := civilDate_spec days
  have hend : epochDay 9999 12 31 < epochDay 10000 1 1 := by decide
  have hyear := hvalid.year_bounds (a := 1) (b := 10000) (by omega) (by omega)
  omega

inductive Temporal where
  | date
  | time
  | timestampTz
  | timestampNtz
  | timestampNanosTz
  | timestampNanosNtz

namespace Temporal

def type : Temporal → VariantType
  | .date => .DATE
  | .time => .TIME
  | .timestampTz => .TIMESTAMP_TZ
  | .timestampNtz => .TIMESTAMP_NTZ
  | .timestampNanosTz => .TIMESTAMP_NANOS_TZ
  | .timestampNanosNtz => .TIMESTAMP_NANOS_NTZ

def InRange : Temporal → Int → Prop
  | .date, days => epochDay 1 1 1 ≤ days ∧ days ≤ epochDay 9999 12 31
  | .time, micros => 0 ≤ micros ∧ micros < 86400000000
  | .timestampTz, micros | .timestampNtz, micros =>
    epochDay 1 1 1 * 86400000000 ≤ micros ∧ micros < (epochDay 9999 12 31 + 1) * 86400000000
  | .timestampNanosTz, _ | .timestampNanosNtz, _ => True

def denotes : Temporal → List Char → Option Int
  | .date, cs => date? cs
  | .time, cs => (time? cs).map Int.ofNat
  | .timestampTz, cs | .timestampNanosTz, cs => instant? cs
  | .timestampNtz, cs | .timestampNanosNtz, cs => dateTime? cs

def exact : Temporal → Int → Int
  | .date, n | .timestampNanosTz, n | .timestampNanosNtz, n => n
  | .time, n | .timestampTz, n | .timestampNtz, n => n * 1000

def format : Temporal → Int → Except VariantFault String
  | .date, n => formatDate n
  | .time, n => formatLocalTime n
  | .timestampTz, n => formatInstantMicros n
  | .timestampNtz, n => formatLocalDateTimeMicros n
  | .timestampNanosTz, n => .ok (formatInstant n)
  | .timestampNanosNtz, n => .ok (formatLocalDateTime n)

theorem format_date {days : Int} (h : InRange .date days) :
    ∃ s, format .date days = .ok s ∧ denotes .date s.toList = some days := by
  obtain ⟨h₀, h₁⟩ := h
  have hrange : ¬(days < MIN_DATE_EPOCH_DAY ∨ MAX_DATE_EPOCH_DAY < days) := by
    have : epochDay 1 1 1 = MIN_DATE_EPOCH_DAY := by decide
    have : epochDay 9999 12 31 = MAX_DATE_EPOCH_DAY := by decide
    omega
  refine ⟨ymd days formatYearIso, ?_, ?_⟩
  · rw [format, formatDate, if_neg hrange]
  · exact (date?_ymd formatYearIso_eq (year_of_days h₀ h₁)).1

theorem format_time {micros : Int} (h : InRange .time micros) :
    ∃ s, format .time micros = .ok s ∧ denotes .time s.toList = some (micros * 1000) := by
  obtain ⟨h₀, h₁⟩ := h
  have hrange : ¬(micros < MIN_TIME_MICROS ∨ MAX_TIME_MICROS < micros) := by
    unfold MIN_TIME_MICROS MAX_TIME_MICROS
    omega
  have htime := time?_hms (show (micros * 1000 / 1000000000).toNat < 86400 by omega)
    (show (micros * 1000 % 1000000000).toNat < 1000000000 by omega)
  refine ⟨hms (micros * 1000 / 1000000000).toNat ++ fracNanos (micros * 1000 % 1000000000).toNat, ?_, ?_⟩
  · rw [format, formatLocalTime, if_neg hrange, floorDivMod_eq _ (by decide)]
  · rw [denotes, htime, Option.map_some, Option.some.injEq, Int.ofNat_eq_natCast]
    push_cast
    omega

theorem year_of_nanos {nanos : Int} (h₀ : epochDay 1 1 1 * 86400000000000 ≤ nanos)
    (h₁ : nanos < (epochDay 9999 12 31 + 1) * 86400000000000) :
    0 ≤ (civilDate (nanos / 1000000000 / 86400)).1 ∧ (civilDate (nanos / 1000000000 / 86400)).1 ≤ 9999 := by
  rw [Int.ediv_ediv_of_nonneg (by decide)]
  apply year_of_days
  · omega
  · omega

theorem checkMicrosRange_eq {micros : Int} (h : InRange .timestampTz micros) :
    checkMicrosRange micros = .ok micros := by
  obtain ⟨h₀, h₁⟩ := h
  have hrange : ¬(micros < MIN_TIMESTAMP_MICROS ∨ MAX_TIMESTAMP_MICROS < micros) := by
    have : epochDay 1 1 1 * 86400000000 = MIN_TIMESTAMP_MICROS := by decide
    have : (epochDay 9999 12 31 + 1) * 86400000000 - 1 = MAX_TIMESTAMP_MICROS := by decide
    omega
  rw [checkMicrosRange, if_neg hrange]

theorem year_of_micros {micros : Int} (h : InRange .timestampTz micros) :
    0 ≤ (civilDate (micros * 1000 / 1000000000 / 86400)).1 ∧
      (civilDate (micros * 1000 / 1000000000 / 86400)).1 ≤ 9999 := by
  obtain ⟨h₀, h₁⟩ := h
  apply year_of_nanos
  · omega
  · omega

/-- An int64 of nanoseconds stays within the years 1677 to 2262. -/
theorem year_of_fitsBytes {nanos : Int} (h : FitsBytes 8 nanos) :
    0 ≤ (civilDate (nanos / 1000000000 / 86400)).1 ∧ (civilDate (nanos / 1000000000 / 86400)).1 ≤ 9999 := by
  obtain ⟨h₀, h₁⟩ := h
  have hfirst : epochDay 1 1 1 = -719162 := by decide
  have hlast : epochDay 9999 12 31 = 2932896 := by decide
  apply year_of_nanos
  · rw [hfirst]
    omega
  · rw [hlast]
    omega

theorem format_eq_ok (k : Temporal) {n : Int} (hfits : FitsBytes 8 n) (h : k.InRange n) :
    ∃ s, k.format n = .ok s ∧ k.denotes s.toList = some (k.exact n) := by
  cases k with
  | date => exact format_date h
  | time => exact format_time h
  | timestampTz =>
    refine ⟨formatInstant (n * 1000), ?_, ?_⟩
    · rw [format, formatInstantMicros, checkMicrosRange_eq h]
      rfl
    · rw [denotes, exact, instant?_formatInstant (year_of_micros h)]
  | timestampNtz =>
    refine ⟨formatLocalDateTime (n * 1000), ?_, ?_⟩
    · rw [format, formatLocalDateTimeMicros, checkMicrosRange_eq h]
      rfl
    · rw [denotes, exact, formatLocalDateTime, dateTime?_formatDateTime formatYear04_eq (year_of_micros h)]
  | timestampNanosTz =>
    refine ⟨formatInstant n, rfl, ?_⟩
    rw [denotes, exact, instant?_formatInstant (year_of_fitsBytes hfits)]
  | timestampNanosNtz =>
    refine ⟨formatLocalDateTime n, rfl, ?_⟩
    rw [denotes, exact, formatLocalDateTime, dateTime?_formatDateTime formatYear04_eq (year_of_fitsBytes hfits)]

theorem checkMicrosRange_error {micros : Int} (h : ¬InRange .timestampTz micros) :
    ∃ m, checkMicrosRange micros = .error (.variantError m) := by
  have hrange : micros < MIN_TIMESTAMP_MICROS ∨ MAX_TIMESTAMP_MICROS < micros := by
    have hmin : epochDay 1 1 1 * 86400000000 = MIN_TIMESTAMP_MICROS := by decide
    have hmax : (epochDay 9999 12 31 + 1) * 86400000000 - 1 = MAX_TIMESTAMP_MICROS := by decide
    simp only [InRange] at h
    omega
  rw [checkMicrosRange, if_pos hrange]
  exact ⟨_, rfl⟩

theorem format_eq_error (k : Temporal) {n : Int} (h : ¬k.InRange n) : ∃ m, k.format n = .error
    (.variantError m) := by
  cases k with
  | date =>
    have hrange : n < MIN_DATE_EPOCH_DAY ∨ MAX_DATE_EPOCH_DAY < n := by
      have hmin : epochDay 1 1 1 = MIN_DATE_EPOCH_DAY := by decide
      have hmax : epochDay 9999 12 31 = MAX_DATE_EPOCH_DAY := by decide
      simp only [InRange] at h
      omega
    rw [format, formatDate, if_pos hrange]
    exact ⟨_, rfl⟩
  | time =>
    have hrange : n < MIN_TIME_MICROS ∨ MAX_TIME_MICROS < n := by
      unfold MIN_TIME_MICROS MAX_TIME_MICROS
      simp only [InRange] at h
      omega
    rw [format, formatLocalTime, if_pos hrange]
    exact ⟨_, rfl⟩
  | timestampTz =>
    obtain ⟨m, hm⟩ := checkMicrosRange_error h
    rw [format, formatInstantMicros, hm]
    exact ⟨m, rfl⟩
  | timestampNtz =>
    obtain ⟨m, hm⟩ := checkMicrosRange_error h
    rw [format, formatLocalDateTimeMicros, hm]
    exact ⟨m, rfl⟩
  | timestampNanosTz => exact absurd trivial h
  | timestampNanosNtz => exact absurd trivial h

theorem exact_inj (k : Temporal) {n n' : Int} (h : k.exact n = k.exact n') : n = n' := by
  cases k <;> simp only [exact] at h <;> omega

end Temporal

namespace Variant

variable (nt : NumberText)

theorem fitsBytes_signedPayload {v : Variant} {w : Nat} {n : Int} (hw : w ≤ 8) (h : v.signedPayload w = .ok n) :
    FitsBytes 8 n := by
  obtain ⟨m, -, h⟩ := bind_eq_ok h
  have hn : signed w m = n := Except.ok.inj h
  have hpow : (256 : Int) ^ w ≤ 256 ^ 8 := pow_le_pow_right₀ (by decide) hw
  have hpos : 0 < 256 ^ w := Nat.pow_pos (by decide)
  have hlt := Int.bmod_lt (x := m) hpos
  have hge := Int.le_bmod (x := m) hpos
  rw [← hn, signed]
  unfold FitsBytes
  push_cast at hlt hge
  omega

theorem fitsBytes_getLong {v : Variant} {n : Int} (h : v.getLong = .ok n) : FitsBytes 8 n := by
  obtain ⟨ti, -, h⟩ := bind_eq_ok h
  split_ifs at h
  · exact fitsBytes_signedPayload (by decide) h
  · exact fitsBytes_signedPayload (by decide) h
  · exact fitsBytes_signedPayload (by decide) h
  · exact fitsBytes_signedPayload (by decide) h

theorem leafJson_temporal (v : Variant) (k : Temporal) :
    leafJson nt v k.type = (v.getLong >>= fun n => k.format n >>= fun s => pure (quoted s)) := by
  cases k <;> rfl

theorem toJson_temporal {v : Variant} {k : Temporal} {n : Int} (fuel : Nat) (ht : v.getType = .ok k.type)
    (hn : v.getLong = .ok n) : v.toJson nt (fuel + 1) = some ((k.format n).map quoted) := by
  have hleaf : leafJson nt v k.type = (k.format n).map quoted := by
    rw [leafJson_temporal, hn]
    show (k.format n >>= fun s => pure (quoted s)) = _
    cases k.format n <;> rfl
  rw [toJson, ht]
  cases k <;> exact congrArg some hleaf

theorem quoted_inj {s s' : String} (h : quoted s = quoted s') : s = s' := by
  have h := congrArg String.toList h
  simp only [quoted, String.toList_append, List.append_assoc] at h
  have h := List.append_cancel_left h
  exact String.toList_inj.mp (List.append_cancel_right h)

/-- The text of a date or time stands for exactly its value; only a value outside of the range of its type has
none. -/
theorem temporal_toJson_exact {v : Variant} {k : Temporal} {n : Int} (fuel : Nat) (ht : v.getType = .ok k.type)
    (hn : v.getLong = .ok n) :
    (k.InRange n → ∃ s, v.toJson nt (fuel + 1) = some (.ok (quoted s)) ∧ k.denotes s.toList = some (k.exact n)) ∧
      (¬k.InRange n → ∃ m, v.toJson nt (fuel + 1) = some (.error (.variantError m))) ∧
      ∀ (v' : Variant) (n' : Int) (fuel' : Nat), v'.getType = .ok k.type → v'.getLong = .ok n' → k.InRange n →
        k.InRange n' → v.toJson nt (fuel + 1) = v'.toJson nt (fuel' + 1) → n = n' := by
  rw [toJson_temporal nt fuel ht hn]
  refine ⟨fun hrange => ?_, fun hrange => ?_, fun v' n' fuel' ht' hn' hrange hrange' hsame => ?_⟩
  · obtain ⟨s, hs, hdenotes⟩ := k.format_eq_ok (fitsBytes_getLong hn) hrange
    refine ⟨s, ?_, hdenotes⟩
    rw [hs]
    rfl
  · obtain ⟨m, hm⟩ := k.format_eq_error hrange
    refine ⟨m, ?_⟩
    rw [hm]
    rfl
  · obtain ⟨s, hs, hdenotes⟩ := k.format_eq_ok (fitsBytes_getLong hn) hrange
    obtain ⟨s', hs', hdenotes'⟩ := k.format_eq_ok (fitsBytes_getLong hn') hrange'
    rw [toJson_temporal nt fuel' ht' hn', hs, hs', Option.some.injEq] at hsame
    -- the same text, so the same value
    have hsame : s = s' := quoted_inj (Except.ok.inj hsame)
    rw [hsame, hdenotes', Option.some.injEq] at hdenotes
    exact (k.exact_inj hdenotes).symm

def beforeEpoch : Variant := ⟨[0x48, 0xFF, 0xFF, 0xFF, 0xFF, 0xFF, 0xFF, 0xFF, 0xFF], [1, 0, 0], 0⟩

theorem temporal_toJson_exact_before_epoch :
    ∃ s, beforeEpoch.toJson ⟨fun _ => "0.0", fun _ => "0.0"⟩ 1 = some (.ok (quoted s)) ∧
      instant? s.toList = some (-1) :=
  (temporal_toJson_exact _ 0 (k := .timestampNanosTz) (n := -1) (by decide) (by decide)).1 trivial

end Variant


end ConfluentKafka
