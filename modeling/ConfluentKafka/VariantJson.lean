import ConfluentKafka.Base64
import ConfluentKafka.Variant

/-!
# Variants as JSON text

The formatting functions of `variant-utils.ts` and `toJson`. How the language writes a float is a
parameter. The recursion takes fuel for its depth and is `none` where that does not suffice.
-/

namespace ConfluentKafka

/-! ## Dates and times -/

def pad (n width : Nat) : String := String.ofList (List.leftpad width '0' (Nat.toDigits 10 n))

def fracNanos (nanos : Nat) : String :=
  if nanos = 0 then ""
  else if nanos % 1000000 = 0 then "." ++ pad (nanos / 1000000) 3
  else if nanos % 1000 = 0 then "." ++ pad (nanos / 1000) 6
  else "." ++ pad nanos 9

/-- Year, month and day of a day since the epoch, in the proleptic Gregorian calendar of `Date`.
The years of the computation begin in March. -/
def civilDate (days : Int) : Int × Nat × Nat :=
  let era := (days + 719468) / 146097
  let doe := ((days + 719468) % 146097).toNat
  let yoe := (doe - doe / 1460 + doe / 36524 - doe / 146096) / 365
  let doy := doe - (365 * yoe + yoe / 4 - yoe / 100)
  let mp := (5 * doy + 2) / 153
  let month := if mp < 10 then mp + 3 else mp - 9
  (yoe + era * 400 + (if month ≤ 2 then 1 else 0), month, doy - (153 * mp + 2) / 5 + 1)

example : civilDate 0 = (1970, 1, 1) ∧ civilDate 11016 = (2000, 2, 29) ∧ civilDate (-719162) = (1, 1, 1) ∧
    civilDate 2932896 = (9999, 12, 31) := by decide

def formatYearIso (year : Int) : String :=
  if 9999 < year then "+" ++ toString year
  else if year < 0 then "-" ++ pad year.natAbs 4
  else pad year.natAbs 4

def formatYear04 (year : Int) : String :=
  if year < 0 then "-" ++ pad year.natAbs 3
  else pad year.natAbs 4

def ymd (days : Int) (formatYear : Int → String) : String :=
  let (year, month, day) := civilDate days
  formatYear year ++ "-" ++ pad month 2 ++ "-" ++ pad day 2

def hms (seconds : Nat) : String :=
  pad (seconds / 3600) 2 ++ ":" ++ pad (seconds % 3600 / 60) 2 ++ ":" ++ pad (seconds % 60) 2

def MIN_TIMESTAMP_MICROS : Int := -62135596800000000
def MAX_TIMESTAMP_MICROS : Int := 253402300799999999

def rangeMessage (what : String) (n min max : Int) : String :=
  what ++ " (" ++ toString n ++ ") must be in range [" ++ toString min ++ ", " ++ toString max ++ "]"

def checkMicrosRange (micros : Int) : Except VariantFault Int :=
  if micros < MIN_TIMESTAMP_MICROS ∨ MAX_TIMESTAMP_MICROS < micros then
    .error (.variantError (rangeMessage "timestamp microseconds" micros MIN_TIMESTAMP_MICROS MAX_TIMESTAMP_MICROS))
  else .ok micros

def floorDivMod (n d : Int) : Int × Int :=
  let q := n.tdiv d
  let r := n.tmod d
  if r ≠ 0 ∧ (r < 0 ↔ ¬d < 0) then (q - 1, r + d) else (q, r)

theorem floorDivMod_eq (n : Int) {d : Int} (hd : 0 < d) : floorDivMod n d = (n / d, n % d) := by
  have hsum := Int.tmod_add_mul_tdiv n d
  have hlt := Int.tmod_lt_of_pos n hd
  have hgt := Int.lt_tmod_of_pos n hd
  unfold floorDivMod
  dsimp only
  generalize n.tdiv d = q at hsum ⊢
  generalize n.tmod d = r at hsum hlt hgt ⊢
  split_ifs with h
  · have hshift : r + d + d * (q - 1) = n := by
      rw [Int.mul_sub]
      omega
    obtain ⟨hq, hr⟩ := (Int.ediv_emod_unique hd).mpr ⟨hshift, by omega, by omega⟩
    rw [hq, hr]
  · obtain ⟨hq, hr⟩ := (Int.ediv_emod_unique hd).mpr ⟨hsum, by omega, by omega⟩
    rw [hq, hr]

def formatDateTime (totalNanos : Int) (formatYear : Int → String) : String :=
  let (sec, nano) := floorDivMod totalNanos 1000000000
  ymd (sec / 86400) formatYear ++ "T" ++ hms (sec % 86400).toNat ++ fracNanos nano.toNat

def formatInstant (totalNanos : Int) : String := formatDateTime totalNanos formatYearIso ++ "Z"

def formatLocalDateTime (totalNanos : Int) : String := formatDateTime totalNanos formatYear04

def formatInstantMicros (micros : Int) : Except VariantFault String := do
  return formatInstant ((← checkMicrosRange micros) * 1000)

def formatLocalDateTimeMicros (micros : Int) : Except VariantFault String := do
  return formatLocalDateTime ((← checkMicrosRange micros) * 1000)

def MIN_TIME_MICROS : Int := 0
def MAX_TIME_MICROS : Int := 86400000000 - 1

def formatLocalTime (micros : Int) : Except VariantFault String :=
  if micros < MIN_TIME_MICROS ∨ MAX_TIME_MICROS < micros then
    .error (.variantError (rangeMessage "time microseconds of day" micros MIN_TIME_MICROS MAX_TIME_MICROS))
  else
    let (secs, nano) := floorDivMod (micros * 1000) 1000000000
    .ok (hms secs.toNat ++ fracNanos nano.toNat)

def MIN_DATE_EPOCH_DAY : Int := -719162
def MAX_DATE_EPOCH_DAY : Int := 2932896

def formatDate (days : Int) : Except VariantFault String :=
  if days < MIN_DATE_EPOCH_DAY ∨ MAX_DATE_EPOCH_DAY < days then
    .error (.variantError (rangeMessage "date epoch day" days MIN_DATE_EPOCH_DAY MAX_DATE_EPOCH_DAY))
  else .ok (ymd days formatYearIso)

/-! ## Numbers and texts -/

def decimalPlainString (unscaled : Int) (scale : Nat) : String :=
  let sign := if unscaled < 0 then "-" else ""
  let digits := decimalDigits unscaled
  if scale = 0 then sign ++ String.ofList digits
  else
    let digits := if digits.length ≤ scale then List.replicate (scale - digits.length + 1) '0' ++ digits else digits
    let point := digits.length - scale
    sign ++ String.ofList (digits.take point) ++ "." ++ String.ofList (digits.drop point)

structure NumberText where
  floatToJson : BitVec 32 → String
  doubleToJson : BitVec 64 → String

def escapeChar (c : Char) : List Char :=
  if c = '"' then ['\\', '"']
  else if c = '\\' then ['\\', '\\']
  else if c.toNat = 8 then ['\\', 'b']
  else if c.toNat = 12 then ['\\', 'f']
  else if c.toNat = 10 then ['\\', 'n']
  else if c.toNat = 13 then ['\\', 'r']
  else if c.toNat = 9 then ['\\', 't']
  else if c.toNat < 32 then ['\\', 'u', '0', '0', Nat.digitChar (c.toNat / 16), Nat.digitChar (c.toNat % 16)]
  else [c]

def jsonString (cs : List Char) : String := "\"" ++ String.ofList (cs.flatMap escapeChar) ++ "\""

def quoted (s : String) : String := "\"" ++ s ++ "\""

def makeText (s : String) : Except VariantFault String :=
  if IsString s.toList then .ok s else .error .stringLength

namespace Variant

variable (nt : NumberText)

def parts {α : Type} (part : Nat → Option (Except VariantFault α)) :
    Nat → Nat → Option (Except VariantFault (List α))
  | _, 0 => some (.ok [])
  | i, n + 1 =>
    match part i with
    | none => none
    | some (.error e) => some (.error e)
    | some (.ok s) =>
      match parts part (i + 1) n with
      | none => none
      | some (.error e) => some (.error e)
      | some (.ok ss) => some (.ok (s :: ss))

def leafJson (v : Variant) : VariantType → Except VariantFault String
  | .NULL => return "null"
  | .BOOLEAN => return if ← v.getBoolean then "true" else "false"
  | .STRING => do makeText (jsonString (← v.getString))
  | .BYTE | .SHORT | .INT | .LONG => return toString (← v.getLong)
  | .FLOAT => return nt.floatToJson (← v.getFloat)
  | .DOUBLE => return nt.doubleToJson (← v.getDouble)
  | .DECIMAL4 | .DECIMAL8 | .DECIMAL16 => do
    let (unscaled, scale) ← v.getDecimalParts
    return decimalPlainString unscaled scale
  | .DATE => return quoted (← formatDate (← v.getLong))
  | .TIMESTAMP_TZ => return quoted (← formatInstantMicros (← v.getLong))
  | .TIMESTAMP_NTZ => return quoted (← formatLocalDateTimeMicros (← v.getLong))
  | .TIMESTAMP_NANOS_TZ => return quoted (formatInstant (← v.getLong))
  | .TIMESTAMP_NANOS_NTZ => return quoted (formatLocalDateTime (← v.getLong))
  | .TIME => return quoted (← formatLocalTime (← v.getLong))
  | .BINARY => do makeText (quoted (String.ofList (Base64.encode (← v.getBinary))))
  | .UUID => return quoted (String.ofList (← v.getUuid))
  | .OBJECT | .ARRAY => throw (.variantError "unsupported variant type for JSON")

def fieldText (v : Variant) (read : Variant → Option (Except VariantFault String)) (i : Nat) :
    Option (Except VariantFault String) :=
  match v.getFieldAtIndex i with
  | .error e => some (.error e)
  | .ok (key, child) =>
    match makeText (jsonString key ++ ":") with
    | .error e => some (.error e)
    | .ok name => (read child).map fun r => r.bind fun s => makeText (name ++ s)

def elementText (v : Variant) (read : Variant → Option (Except VariantFault String)) (i : Nat) :
    Option (Except VariantFault String) :=
  match v.getElementAtIndex i with
  | .error e => some (.error e)
  | .ok none => some (.error .outside)
  | .ok (some child) => read child

def toJson : Nat → Variant → Option (Except VariantFault String)
  | 0, _ => none
  | fuel + 1, v =>
    match v.getType with
    | .error e => some (.error e)
    | .ok .OBJECT =>
      match v.numObjectFields with
      | .error e => some (.error e)
      | .ok n =>
        (parts (v.fieldText (toJson fuel)) 0 n).map
          fun r => r.bind fun texts => makeText ("\x7b" ++ ",".intercalate texts ++ "\x7d")
    | .ok .ARRAY =>
      match v.numArrayElements with
      | .error e => some (.error e)
      | .ok n =>
        (parts (v.elementText (toJson fuel)) 0 n).map
          fun r => r.bind fun texts => makeText ("[" ++ ",".intercalate texts ++ "]")
    | .ok t => some (leafJson nt v t)

def getDecimal (v : Variant) : Except VariantFault String := do
  let (unscaled, scale) ← v.getDecimalParts
  return decimalPlainString unscaled scale

end Variant

end ConfluentKafka
