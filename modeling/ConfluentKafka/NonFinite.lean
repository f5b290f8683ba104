import ConfluentKafka.Binary64
import ConfluentKafka.JsonText

/-!
# JSON with numbers that are not finite

`parseJsonAllowingNonFinite`: the barewords outside of strings are rewritten to placeholder objects,
the text is parsed, and a reviver puts numbers in the places of the placeholders. If it finds more or
fewer than were written, the parse is made again with a longer key.
-/

namespace ConfluentKafka

open Json

/-! ## Numbers -/

namespace Json

def digitsValue (ds : JsString) : Nat := ds.foldl (fun n c => n * 10 + (c.toNat - 48)) 0

def exponentValue (s : JsString) : Int :=
  match s with
  | [] => 0
  | c :: ds =>
    if c = unit '-' then -(digitsValue ds : Int)
    else if c = unit '+' then digitsValue ds
    else digitsValue (c :: ds)

def literalValue (text : JsString) : ℚ :=
  let negative := text.head? = some (unit '-')
  let text := if negative then text.tail else text
  let int := text.takeWhile isDigit
  let rest := text.dropWhile isDigit
  let point := rest.head? = some (unit '.')
  let frac := if point then rest.tail.takeWhile isDigit else []
  let exponent := exponentValue ((if point then rest.tail.dropWhile isDigit else rest).tail)
  let magnitude : ℚ := digitsValue (int ++ frac) * (10 : ℚ) ^ (exponent - frac.length)
  if negative then -magnitude else magnitude

end Json

def toNumber (text : JsString) : Double := toDouble (literalValue text)

abbrev JsonValue := JsonTree Double

/-! ## `JSON.parse` and barewords -/

def NON_FINITE_LITERALS : Fin 3 → JsString × Double
  | 0 => (units "-Infinity", .infinite true)
  | 1 => (units "Infinity", .infinite false)
  | 2 => (units "NaN", .nan)

def literalNumber : Literal → Double
  | .text s => toNumber s
  | .nonFinite k => (NON_FINITE_LITERALS k).2

def sourceValue (t : Source) : JsonValue := (t.bind fun l => .number (literalNumber l)).kept

def jsonParse (text : JsString) : Option JsonValue := (Json.parse false text).map sourceValue

def isBarewordChar (c : UInt16) : Bool :=
  unit 'a' ≤ c ∧ c ≤ unit 'z' ∨ unit 'A' ≤ c ∧ c ≤ unit 'Z' ∨ unit '0' ≤ c ∧ c ≤ unit '9' ∨ c = unit '_'

def startsWithBareword (s : JsString) (k : Fin 3) : Bool :=
  let text := (NON_FINITE_LITERALS k).1
  text.isPrefixOf s && !((s.drop text.length).head?.any isBarewordChar)

def matchNonFinite (s : JsString) : Option (Fin 3) :=
  if startsWithBareword s 0 then some 0
  else if startsWithBareword s 1 then some 1
  else if startsWithBareword s 2 then some 2
  else none

def placeholder (key : JsString) (k : Fin 3) : JsString :=
  units "\x7b\"" ++ key ++ units "\":" ++ [UInt16.ofNat (48 + k.val)] ++ units "\x7d"

/-- The loop, from a position on: `skip` units of a bareword are passed over, and the flag says whether the
position is in a string. The rewritten text, and how many barewords it had. -/
def rewriteFrom (key : JsString) : Nat → Bool → JsString → JsString × Nat
  | _, _, [] => ([], 0)
  | skip + 1, inString, _ :: s => rewriteFrom key skip inString s
  | 0, true, [c] => ([c], 0)
  | 0, true, c :: d :: s =>
    if c = unit '\\' then
      let r := rewriteFrom key 0 true s
      (c :: d :: r.1, r.2)
    else
      let r := rewriteFrom key 0 (c ≠ unit '"') (d :: s)
      (c :: r.1, r.2)
  | 0, false, c :: s =>
    if c = unit '"' then
      let r := rewriteFrom key 0 true s
      (c :: r.1, r.2)
    else match matchNonFinite (c :: s) with
      | none =>
        let r := rewriteFrom key 0 false s
        (c :: r.1, r.2)
      | some k =>
        let r := rewriteFrom key ((NON_FINITE_LITERALS k).1.length - 1) false s
        (placeholder key k ++ r.1, r.2 + 1)

/-- `none` when there is nothing to rewrite. -/
def rewriteNonFinite (jsonStr key : JsString) : Option (JsString × Nat) :=
  if unit 'N' ∉ jsonStr ∧ unit 'I' ∉ jsonStr then none
  else
    let r := rewriteFrom key 0 false jsonStr
    if r.2 = 0 then none else some r

/-! ## Placeholders -/

def literalIndex : Double → Option (Fin 3)
  | .finite x => if x = 0 then some 0 else if x = 1 then some 1 else if x = 2 then some 2 else none
  | .infinite _ => none
  | .nan => none

def nonFinitePlaceholderIndex (value : JsonValue) (key : JsString) : Option (Fin 3) :=
  match value with
  | .object [(k, .number x)] => if k = key then literalIndex x else none
  | _ => none

def reviver (key : JsString) (value : JsonValue) : JsonValue × Nat :=
  match nonFinitePlaceholderIndex value key with
  | none => (value, 0)
  | some k => (.number (NON_FINITE_LITERALS k).2, 1)

mutual

/-- The values are revived before what holds them: the value, and how many placeholders it had. -/
def internalize (key : JsString) : JsonValue → JsonValue × Nat
  | .null => reviver key .null
  | .boolean b => reviver key (.boolean b)
  | .number x => reviver key (.number x)
  | .string s => reviver key (.string s)
  | .array elements =>
    let es := internalizeElements key elements
    let r := reviver key (.array es.1)
    (r.1, es.2 + r.2)
  | .object fields =>
    let fs := internalizeFields key fields
    let r := reviver key (.object fs.1)
    (r.1, fs.2 + r.2)

def internalizeElements (key : JsString) : List JsonValue → List JsonValue × Nat
  | [] => ([], 0)
  | t :: ts =>
    let r := internalize key t
    let rs := internalizeElements key ts
    (r.1 :: rs.1, r.2 + rs.2)

def internalizeFields (key : JsString) : List (JsString × JsonValue) → List (JsString × JsonValue) × Nat
  | [] => ([], 0)
  | (k, t) :: fs =>
    let r := internalize key t
    let rs := internalizeFields key fs
    ((k, r.1) :: rs.1, r.2 + rs.2)

end

/-! ## The loop -/

def placeholderKey (attempt : Nat) : JsString := units "__nonFinite__" ++ List.replicate attempt (unit '_')

/-- The attempts from one on: `none` where the fuel does not suffice, `some none` where `JSON.parse` throws. -/
def parseAttempts (jsonStr : JsString) : Nat → Nat → Option (Option JsonValue)
  | 0, _ => none
  | fuel + 1, attempt =>
    match rewriteNonFinite jsonStr (placeholderKey attempt) with
    | none => some (jsonParse jsonStr)
    | some rewritten =>
      match jsonParse rewritten.1 with
      | none => some none
      | some parsed =>
        let r := internalize (placeholderKey attempt) parsed
        if r.2 = rewritten.2 then some (some r.1) else parseAttempts jsonStr fuel (attempt + 1)

def parseJsonAllowingNonFinite (jsonStr : JsString) (fuel : Nat) : Option (Option JsonValue) :=
  parseAttempts jsonStr fuel 0

end ConfluentKafka
