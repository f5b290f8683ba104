import ConfluentKafka.NumberLiterals
import ConfluentKafka.RegExp

/-!
# Paths into a variant

The parser of `variant-path.ts`: a cursor goes over the units of a path, and each error says what it found and
in which path. The texts that it accepts are those of a grammar, which says what segments a text has. Which
units are letters and numbers is left to the version of Unicode, except in ASCII.
-/

namespace ConfluentKafka

namespace VariantPath

open Json (isDigit)
open RegExp (isAsciiLetter)

structure Categories where
  letter : UInt16 → Bool
  number : UInt16 → Bool
  letter_ascii : ∀ c : UInt16, c.toNat < 128 → letter c = isAsciiLetter c
  number_ascii : ∀ c : UInt16, c.toNat < 128 → number c = isDigit c

inductive Segment where
  | field (key : JsString)
  | index (i : Int)
  deriving DecidableEq

structure Cursor where
  src : JsString
  pos : Nat

namespace Cursor

def peek (cur : Cursor) : Option UInt16 := cur.src[cur.pos]?

def skip (cur : Cursor) : Cursor := { cur with pos := cur.pos + 1 }

theorem lt_of_peek {cur : Cursor} {c : UInt16} (h : cur.peek = some c) : cur.pos < cur.src.length :=
  (List.getElem?_eq_some_iff.mp h).1

/-- `while (cur.hasMore() && p(cur.peek())) cur.next()`. -/
def skipWhile (p : UInt16 → Bool) (cur : Cursor) : Cursor :=
  match _h : cur.peek with
  | some c => if p c then skipWhile p cur.skip else cur
  | none => cur
termination_by cur.src.length - cur.pos
decreasing_by
  have := lt_of_peek _h
  simp only [skip]
  omega

end Cursor

/-! ## The parser -/

section
variable (u : Categories)

def identStart (c : UInt16) : Bool := u.letter c || c = unit '_'

def identPart (c : UInt16) : Bool := u.letter c || u.number c || c = unit '_'

def readIdent (cur : Cursor) (path : JsString) : Except JsString (JsString × Cursor) :=
  let message := units "expected identifier (starting with a letter or '_') after '.' in variant path: " ++ path
  match cur.peek with
  | none => .error message
  | some c =>
    if identStart u c then
      let start := cur.pos
      let cur := cur.skip.skipWhile (identPart u)
      .ok ((cur.src.take cur.pos).drop start, cur)
    else .error message

def readQuoted (quote : UInt16) (path : JsString) (cur : Cursor) (out : JsString) :
    Except JsString (JsString × Cursor) :=
  match _h : cur.peek with
  | none => .error (units "unterminated quoted key in variant path: " ++ path)
  | some ch =>
    if ch = unit '\\' then
      match cur.skip.peek with
      | none => .error (units "unterminated escape at end of quoted key in variant path: " ++ path)
      | some esc =>
        -- Only the backslash and the enclosing quote are escaped.
        if esc = unit '\\' ∨ esc = quote then readQuoted quote path cur.skip.skip (out ++ [esc])
        else .error (units "unsupported escape '\\" ++ [esc] ++
          units "' in quoted key of variant path (only '\\\\' and '\\" ++
          [quote] ++ units "' are allowed): " ++ path)
    else if ch = quote then .ok (out, cur.skip)
    else readQuoted quote path cur.skip (out ++ [ch])
termination_by cur.src.length - cur.pos
decreasing_by
  all_goals
    have := Cursor.lt_of_peek _h
    simp only [Cursor.skip]
    omega

def readQuotedKey (cur : Cursor) (quote : UInt16) (path : JsString) : Except JsString (JsString × Cursor) :=
  readQuoted quote path cur.skip []

def readIndex (cur : Cursor) (path : JsString) : Except JsString (Int × Cursor) :=
  if cur.peek = some (unit '-') then .error
    (units "negative indices are not supported in variant path: " ++ path) else
    let start := cur.pos
    let cur := cur.skipWhile isDigit
    if cur.pos = start then .error (units "expected integer index in variant path: " ++ path) else
      let n := toDouble (Json.digitsValue ((cur.src.take cur.pos).drop start))
      let message := units "index out of int range in variant path: " ++ path
      match n.integer? with
      | none => .error message
      | some k => if 9007199254740991 < k.natAbs ∨ 2147483647 < k then .error message else .ok (k, cur)

/-- One round of the loop of `parseInternal`, at the unit `ch`. -/
def readSegment (ch : UInt16) (cur : Cursor) (path : JsString) : Except JsString (Segment × Cursor) :=
  if ch = unit '.' then (readIdent u cur.skip path).map fun r => (.field r.1, r.2)
  else if ch = unit '[' then
    match cur.skip.peek with
    | none => .error (units "unexpected end of input after '[' in variant path: " ++ path)
    | some c =>
      let inner :=
        if c = unit '"' ∨ c = unit '\'' then (readQuotedKey cur.skip c path).map fun r => (Segment.field r.1, r.2)
        else (readIndex cur.skip path).map fun r => (Segment.index r.1, r.2)
      inner.bind fun r =>
        if r.2.peek = some (unit ']') then .ok (r.1, r.2.skip) else .error
          (units "expected ']' in variant path: " ++ path)
  else .error (units "unexpected character '" ++ [ch] ++ units "' in variant path: " ++ path)

end

/-! ## The grammar -/

inductive QuotedBody (quote : UInt16) : JsString → JsString → Prop where
  | nil : QuotedBody quote [] []
  | unit {c : UInt16} {body key : JsString} (hbackslash : c ≠ unit '\\') (hquote : c ≠ quote)
      (h : QuotedBody quote body key) :
      QuotedBody quote (c :: body) (c :: key)
  | escape {c : UInt16} {body key : JsString} (hc : c = unit '\\' ∨ c = quote) (h : QuotedBody quote body key) :
      QuotedBody quote (unit '\\' :: c :: body) (c :: key)

inductive SegmentText (u : Categories) : JsString → Segment → Prop where
  | ident {c : UInt16} {name : JsString} (hc : identStart u c = true) (hname : name.all (identPart u) = true) :
      SegmentText u (unit '.' :: c :: name) (.field (c :: name))
  | quoted {quote : UInt16} {body key : JsString} (hquote : quote = unit '"' ∨ quote = unit '\'')
      (h : QuotedBody quote body key) :
      SegmentText u (unit '[' :: quote :: (body ++ [quote, unit ']'])) (.field key)
  | index {digits : JsString} (hne : digits ≠ []) (hdigits : digits.all isDigit = true)
      (hle : Json.digitsValue digits ≤ 2147483647) :
      SegmentText u (unit '[' :: (digits ++ [unit ']'])) (.index (Json.digitsValue digits))

inductive SegmentsText (u : Categories) : JsString → List Segment → Prop where
  | nil : SegmentsText u [] []
  | cons {text rest : JsString} {seg : Segment} {segs : List Segment} (h : SegmentText u text seg)
      (hrest : SegmentsText u rest segs) :
      SegmentsText u (text ++ rest) (seg :: segs)

def PathText (u : Categories) (path : JsString) (segs : List Segment) : Prop :=
  ∃ rest, path = unit '$' :: rest ∧ SegmentsText u rest segs

/-! ## What the parts of the parser go over -/

/-- The cursor that has gone over `done` and has `rest` before it. -/
def cursor (done rest : JsString) : Cursor := ⟨done ++ rest, done.length⟩

@[simp] theorem peek_cursor_nil (done : JsString) : (cursor done []).peek = none := by
  simp [cursor, Cursor.peek]

@[simp] theorem peek_cursor_cons (done rest : JsString) (c : UInt16) : (cursor done (c :: rest)).peek = some c := by
  simp [cursor, Cursor.peek]

@[simp] theorem skip_cursor (done rest : JsString) (c : UInt16) :
    (cursor done (c :: rest)).skip = cursor (done ++ [c]) rest := by
  simp [cursor, Cursor.skip]

theorem slice_cursor (done text rest : JsString) :
    ((cursor (done ++ text) rest).src.take (cursor (done ++ text) rest).pos).drop done.length = text := by
  unfold cursor
  rw [List.take_left, List.drop_left]

theorem skipWhile_cursor (p : UInt16 → Bool) (rest : JsString) : ∀ done : JsString,
    (cursor done rest).skipWhile p = cursor (done ++ rest.takeWhile p) (rest.dropWhile p) := by
  induction rest with
  | nil =>
    intro done
    rw [Cursor.skipWhile]
    split
    · next c h =>
      rw [peek_cursor_nil] at h
      cases h
    · simp
  | cons c rest ih =>
    intro done
    rw [Cursor.skipWhile]
    split
    · next c' h =>
      rw [peek_cursor_cons] at h
      obtain rfl : c = c' := Option.some.inj h
      split_ifs with hp
      · rw [skip_cursor, ih, List.takeWhile_cons_of_pos hp, List.dropWhile_cons_of_pos hp, List.append_assoc]
        rfl
      · rw [List.takeWhile_cons_of_neg hp, List.dropWhile_cons_of_neg hp, List.append_nil]
    · next h =>
      rw [peek_cursor_cons] at h
      cases h

/-! ### Quoted keys -/

theorem readQuoted_nil (quote : UInt16) (path done out : JsString) : readQuoted quote path (cursor done []) out =
    .error (units "unterminated quoted key in variant path: " ++ path) := by
  rw [readQuoted]
  split
  · rfl
  · next c h =>
    rw [peek_cursor_nil] at h
    cases h

theorem readQuoted_cons (quote : UInt16) (path done out rest : JsString) (ch : UInt16) :
    readQuoted quote path (cursor done (ch :: rest)) out =
      if ch = unit '\\' then
        match rest with
        | [] => .error (units "unterminated escape at end of quoted key in variant path: " ++ path)
        | esc :: rest =>
          if esc = unit '\\' ∨ esc = quote then readQuoted quote path (cursor (done ++ [ch] ++ [esc]) rest)
            (out ++ [esc])
          else .error (units "unsupported escape '\\" ++ [esc] ++
            units "' in quoted key of variant path (only '\\\\' and '\\" ++
            [quote] ++ units "' are allowed): " ++ path)
      else if ch = quote then .ok (out, cursor (done ++ [ch]) rest)
      else readQuoted quote path (cursor (done ++ [ch]) rest) (out ++ [ch]) := by
  rw [readQuoted]
  split
  · next h =>
    rw [peek_cursor_cons] at h
    cases h
  · next c h =>
    rw [peek_cursor_cons] at h
    obtain rfl : ch = c := Option.some.inj h
    rw [skip_cursor]
    cases rest with
    | nil => rw [peek_cursor_nil]
    | cons esc rest => rw [peek_cursor_cons, skip_cursor]

theorem readQuoted_body {quote : UInt16} (hquote : quote ≠ unit '\\') (path : JsString) {body key : JsString}
    (h : QuotedBody quote body key) : ∀ done out rest : JsString,
      readQuoted quote path (cursor done (body ++ quote :: rest)) out =
      .ok (out ++ key, cursor (done ++ body ++ [quote]) rest) := by
  induction h with
  | nil =>
    intro done out rest
    rw [List.nil_append, readQuoted_cons, if_neg hquote, if_pos rfl, List.append_nil, List.append_nil]
  | @unit c body key hbackslash hc h ih =>
    intro done out rest
    rw [List.cons_append, readQuoted_cons, if_neg hbackslash, if_neg hc, ih]
    simp
  | @escape c body key hc h ih =>
    intro done out rest
    rw [List.cons_append, List.cons_append, readQuoted_cons, if_pos rfl]
    dsimp only
    rw [if_pos hc, ih]
    simp

theorem readQuoted_sound {quote : UInt16} {path : JsString} (n : Nat) :
    ∀ {rest done out k : JsString} {cur : Cursor}, rest.length = n →
    readQuoted quote path (cursor done rest) out = .ok (k, cur) → ∃ body key rest', rest = body ++ quote :: rest' ∧
      QuotedBody quote body key ∧ k = out ++ key ∧ cur = cursor (done ++ body ++ [quote]) rest' := by
  induction n using Nat.strongRecOn with
  | ind n ih =>
    intro rest done out k cur hn h
    cases rest with
    | nil =>
      rw [readQuoted_nil] at h
      cases h
    | cons ch rest =>
      rw [List.length_cons] at hn
      rw [readQuoted_cons] at h
      split_ifs at h with hbackslash hquote
      · cases rest with
        | nil => cases h
        | cons esc rest =>
          rw [List.length_cons] at hn
          dsimp only at h
          split_ifs at h with hesc
          obtain ⟨body, key, rest', rfl, hbody, rfl, rfl⟩ := ih rest.length (by omega) rfl h
          exact ⟨ch :: esc :: body, esc :: key, rest', rfl, hbackslash ▸ .escape hesc hbody, by simp, by simp⟩
      · cases h
        exact ⟨[], [], rest, by rw [hquote]; rfl, .nil, (List.append_nil _).symm, by rw [hquote, List.append_nil]⟩
      · obtain ⟨body, key, rest', rfl, hbody, rfl, rfl⟩ := ih rest.length (by omega) rfl h
        exact ⟨ch :: body, ch :: key, rest', rfl, .unit hbackslash hquote hbody, by simp, by simp⟩

/-! ### Identifiers -/

section
variable {u : Categories}

theorem readIdent_cons (done rest path : JsString) (c : UInt16) : readIdent u (cursor done (c :: rest)) path =
    if identStart u c then
      .ok (c :: rest.takeWhile (identPart u), cursor (done ++ c :: rest.takeWhile (identPart u))
        (rest.dropWhile (identPart u)))
    else .error (units "expected identifier (starting with a letter or '_') after '.' in variant path: " ++
      path) := by
  have hdone : done ++ [c] ++ rest.takeWhile (identPart u) = done ++ c :: rest.takeWhile (identPart u) := by simp
  have hslice := slice_cursor done (c :: rest.takeWhile (identPart u)) (rest.dropWhile (identPart u))
  unfold readIdent
  rw [peek_cursor_cons]
  dsimp only
  rw [skip_cursor, skipWhile_cursor, hdone]
  exact if_congr Iff.rfl (congrArg (fun name => Except.ok (name, _)) hslice) rfl

theorem readIdent_nil (done path : JsString) : readIdent u (cursor done []) path =
    .error (units "expected identifier (starting with a letter or '_') after '.' in variant path: " ++ path) := by
  unfold readIdent
  rw [peek_cursor_nil]

def EndsIdent (u : Categories) (rest : JsString) : Prop := ∀ c, rest.head? = some c → identPart u c = false

theorem takeWhile_ident {name rest : JsString} (hname : name.all (identPart u) = true) (hrest : EndsIdent u rest) :
    (name ++ rest).takeWhile (identPart u) = name ∧ (name ++ rest).dropWhile (identPart u) = rest := by
  rw [List.all_eq_true] at hname
  rw [List.takeWhile_append_of_pos hname, List.dropWhile_append_of_pos hname]
  cases rest with
  | nil => exact ⟨List.append_nil name, rfl⟩
  | cons c rest =>
    have hc : ¬identPart u c = true := by rw [hrest c rfl]; exact Bool.false_ne_true
    rw [List.takeWhile_cons_of_neg hc, List.dropWhile_cons_of_neg hc, List.append_nil]
    exact ⟨rfl, rfl⟩

end

/-! ### Indices -/

theorem floor_le_roundHalfEven (x : ℚ) : ⌊x⌋ ≤ roundHalfEven x := by
  unfold roundHalfEven
  split_ifs <;> omega

/-- A number beyond the exact ones is not rounded below the least of them. -/
theorem le_roundDouble {n : Nat} (h : 2 ^ 53 ≤ n) : (2 : ℚ) ^ 52 ≤ roundDouble n := by
  have hpos : (0 : ℚ) < n := by exact_mod_cast Nat.lt_of_lt_of_le (by decide) h
  have hlog : 53 ≤ Int.log 2 |(n : ℚ)| := by
    rw [Nat.abs_cast, Int.log_natCast]
    have := Nat.le_log_of_pow_le (by decide) h
    omega
  have hplace : lastPlace 53 (-1074) n = Int.log 2 |(n : ℚ)| - 52 := by
    unfold lastPlace
    omega
  have hpower : (2 : ℚ) ^ (52 : Int) * 2 ^ lastPlace 53 (-1074) n ≤ n := by
    rw [← zpow_add₀ (by norm_num), hplace, add_sub_cancel, abs_of_pos hpos]
    exact Int.zpow_log_le_self (by decide) hpos
  have hone : (1 : ℚ) ≤ 2 ^ lastPlace 53 (-1074) n := one_le_zpow₀ (by norm_num) (by omega)
  have hfloor : (2 : Int) ^ 52 ≤ ⌊(n : ℚ) / 2 ^ lastPlace 53 (-1074) n⌋ := by
    rw [Int.le_floor, le_div_iff₀ (by positivity)]
    exact_mod_cast hpower
  have hround : ((2 : ℚ) ^ 52) ≤ roundHalfEven ((n : ℚ) / 2 ^ lastPlace 53 (-1074) n) := by
    exact_mod_cast hfloor.trans (floor_le_roundHalfEven _)
  calc (2 : ℚ) ^ 52 = 2 ^ 52 * 1 := (mul_one _).symm
    _ ≤ roundHalfEven ((n : ℚ) / 2 ^ lastPlace 53 (-1074) n) * 2 ^ lastPlace 53 (-1074) n :=
      mul_le_mul hround hone (by norm_num) (le_trans (by norm_num) hround)

theorem integer?_of_le {n : Nat} (h : n < 2 ^ 53) : (toDouble n).integer? = some (n : Int) := by
  rw [toDouble_natCast h]
  rfl

theorem lt_of_integer? {n : Nat} (h : 2147483647 < n) {k : Int} (hk : (toDouble n).integer? = some k) :
    2147483647 < k := by
  by_cases hsmall : n < 2 ^ 53
  · rw [integer?_of_le hsmall] at hk
    have := Option.some.inj hk
    omega
  · have hround := le_roundDouble (Nat.le_of_not_lt hsmall)
    unfold toDouble at hk
    split_ifs at hk
    · unfold Double.integer? at hk
      dsimp only at hk
      split_ifs at hk with hden
      have hvalue : (k : ℚ) = roundDouble n := by
        rw [← Option.some.inj hk]
        exact Rat.den_eq_one_iff _ |>.mp hden
      rw [← hvalue] at hround
      have hle : (2 : Int) ^ 52 ≤ k := by exact_mod_cast hround
      omega
    · cases hk

theorem peek_cursor (done rest : JsString) : (cursor done rest).peek = rest.head? := by
  cases rest with
  | nil => exact peek_cursor_nil done
  | cons c rest => exact peek_cursor_cons done rest c

theorem readIndex_cursor (done rest path : JsString) : readIndex (cursor done rest) path =
    if rest.head? = some (unit '-') then .error
      (units "negative indices are not supported in variant path: " ++ path)
    else if rest.takeWhile isDigit = [] then .error (units "expected integer index in variant path: " ++ path)
    else if 2147483647 < Json.digitsValue (rest.takeWhile isDigit) then
      .error (units "index out of int range in variant path: " ++ path)
    else .ok ((Json.digitsValue (rest.takeWhile isDigit) : Int),
      cursor (done ++ rest.takeWhile isDigit) (rest.dropWhile isDigit)) := by
  have hslice := slice_cursor done (rest.takeWhile isDigit) (rest.dropWhile isDigit)
  have hpos : (cursor (done ++ rest.takeWhile isDigit) (rest.dropWhile isDigit)).pos = (cursor done rest).pos ↔
      rest.takeWhile isDigit = [] := by
    unfold cursor
    rw [List.length_append, Nat.add_eq_left, List.length_eq_zero_iff]
  have hstart : (cursor done rest).pos = done.length := rfl
  unfold readIndex
  rw [peek_cursor]
  split_ifs with hminus hempty hlarge
  · rfl
  · dsimp only
    rw [skipWhile_cursor, if_pos (hpos.mpr hempty)]
  · dsimp only
    rw [skipWhile_cursor, if_neg (mt hpos.mp hempty), hstart, hslice]
    split
    · rfl
    · next k hk => rw [if_pos (Or.inr (lt_of_integer? hlarge hk))]
  · have hle : Json.digitsValue (rest.takeWhile isDigit) ≤ 2147483647 := Nat.le_of_not_lt hlarge
    dsimp only
    rw [skipWhile_cursor, if_neg (mt hpos.mp hempty), hstart, hslice,
      integer?_of_le (Nat.lt_of_le_of_lt hle (by decide))]
    dsimp only
    rw [if_neg (by omega)]

theorem takeWhile_digits {digits rest : JsString} (hdigits : digits.all isDigit = true)
    (hrest : NumberLiteral.EndsDigits rest) :
    (digits ++ rest).takeWhile isDigit = digits ∧ (digits ++ rest).dropWhile isDigit = rest :=
  ⟨NumberLiteral.takeWhile_append hdigits hrest, NumberLiteral.dropWhile_append hdigits hrest⟩

theorem head?_ne_minus {digits rest : JsString} (hne : digits ≠ []) (hdigits : digits.all isDigit = true) :
    (digits ++ rest).head? ≠ some (unit '-') := by
  obtain ⟨d, digits, rfl⟩ := List.exists_cons_of_ne_nil hne
  rw [List.all_cons, Bool.and_eq_true] at hdigits
  intro h
  rw [Option.some.inj h] at hdigits
  exact absurd hdigits.1 (by decide)

/-! ### Segments -/

section
variable {u : Categories}

theorem quote_ne_backslash {quote : UInt16} (h : quote = unit '"' ∨ quote = unit '\'') : quote ≠ unit '\\' := by
  rcases h with rfl | rfl <;> decide

theorem not_quote_of_digit {digits : JsString} (hne : digits ≠ []) (hdigits : digits.all isDigit = true)
    (rest : JsString) :
    ∃ c tail, digits ++ rest = c :: tail ∧ ¬(c = unit '"' ∨ c = unit '\'') := by
  obtain ⟨d, digits, rfl⟩ := List.exists_cons_of_ne_nil hne
  rw [List.all_cons, Bool.and_eq_true] at hdigits
  refine ⟨d, digits ++ rest, rfl, ?_⟩
  rintro (rfl | rfl)
  · exact absurd hdigits.1 (by decide)
  · exact absurd hdigits.1 (by decide)

theorem readSegment_of_text {text rest : JsString} {seg : Segment} (h : SegmentText u text seg)
    (hrest : EndsIdent u rest)
    (done path : JsString) : ∃ ch tail, text = ch :: tail ∧
      readSegment u ch (cursor done (text ++ rest)) path = .ok (seg, cursor (done ++ text) rest) := by
  cases h with
  | @ident c name hc hname =>
    refine ⟨unit '.', c :: name, rfl, ?_⟩
    obtain ⟨htake, hdrop⟩ := takeWhile_ident hname hrest
    rw [readSegment, if_pos rfl, List.cons_append, skip_cursor, List.cons_append, readIdent_cons, if_pos hc,
      htake, hdrop]
    simp [Except.map]
  | @quoted quote body key hquote h =>
    refine ⟨unit '[', quote :: (body ++ [quote, unit ']']), rfl, ?_⟩
    have hbody :=
      readQuoted_body (quote_ne_backslash hquote) path h (done ++ [unit '['] ++ [quote]) [] (unit ']' :: rest)
    rw [readSegment, if_neg (by decide), if_pos rfl, List.cons_append, skip_cursor, List.cons_append,
      peek_cursor_cons]
    dsimp only
    have hinput : body ++ [quote, unit ']'] ++ rest = body ++ quote :: unit ']' :: rest := by simp
    rw [if_pos hquote, readQuotedKey, skip_cursor, hinput, hbody]
    simp [Except.map, Except.bind]
  | @index digits hne hdigits hle =>
    refine ⟨unit '[', digits ++ [unit ']'], rfl, ?_⟩
    have hends : NumberLiteral.EndsDigits (unit ']' :: rest) := by
      intro c hc
      rw [← Option.some.inj hc]
      decide
    obtain ⟨htake, hdrop⟩ := takeWhile_digits hdigits hends
    obtain ⟨c, tail, hcons, hquote⟩ := not_quote_of_digit hne hdigits (unit ']' :: rest)
    have hread := readIndex_cursor (done ++ [unit '[']) (digits ++ unit ']' :: rest) path
    rw [if_neg (head?_ne_minus hne hdigits), htake, if_neg hne, if_neg (Nat.not_lt.mpr hle), hdrop] at hread
    rw [readSegment, if_neg (by decide), if_pos rfl, List.cons_append, skip_cursor, List.append_assoc,
      List.singleton_append, hread,
      hcons, peek_cursor_cons]
    dsimp only
    rw [if_neg hquote]
    simp [Except.map, Except.bind]

theorem map_ok {ε β γ : Type} {x : Except ε β} {f : β → γ} {y : γ} (h : x.map f = .ok y) :
    ∃ a, x = .ok a ∧ f a = y := by
  cases x with
  | error e => cases h
  | ok a => exact ⟨a, rfl, Except.ok.inj h⟩

theorem bind_ok {ε β γ : Type} {x : Except ε β} {f : β → Except ε γ} {y : γ} (h : x.bind f = .ok y) :
    ∃ a, x = .ok a ∧ f a = .ok y := by
  cases x with
  | error e => cases h
  | ok a => exact ⟨a, rfl, h⟩

theorem close_sound {done rest path : JsString} {seg seg' : Segment} {cur : Cursor}
    (h : (if (cursor done rest).peek = some (unit ']')
      then Except.ok (seg, (cursor done rest).skip)
      else .error (units "expected ']' in variant path: " ++ path)) = .ok (seg', cur)) :
    ∃ rest', rest = unit ']' :: rest' ∧ seg = seg' ∧ cur = cursor (done ++ [unit ']']) rest' := by
  split_ifs at h with hclose
  rw [peek_cursor] at hclose
  obtain ⟨rest', rfl⟩ := List.head?_eq_some_iff.mp hclose
  rw [skip_cursor] at h
  cases h
  exact ⟨rest', rfl, rfl, rfl⟩

theorem readIdent_sound {done rest path k : JsString} {cur : Cursor}
    (h : readIdent u (cursor done rest) path = .ok (k, cur)) :
    ∃ c name rest', rest = c :: (name ++ rest') ∧ identStart u c = true ∧ name.all (identPart u) = true ∧
      k = c :: name ∧
      cur = cursor (done ++ k) rest' := by
  cases rest with
  | nil =>
    rw [readIdent_nil] at h
    cases h
  | cons c rest =>
    rw [readIdent_cons] at h
    split_ifs at h with hc
    cases h
    refine ⟨c, rest.takeWhile (identPart u), rest.dropWhile (identPart u), ?_, hc, ?_, rfl, rfl⟩
    · rw [List.takeWhile_append_dropWhile]
    · rw [List.all_eq_true]
      exact fun d hd => List.mem_takeWhile_imp hd

theorem readIndex_sound {done rest path : JsString} {k : Int} {cur : Cursor}
    (h : readIndex (cursor done rest) path = .ok (k, cur)) :
    ∃ digits rest', rest = digits ++ rest' ∧ digits ≠ [] ∧ digits.all isDigit = true ∧ Json.digitsValue digits ≤
      2147483647 ∧
      k = Json.digitsValue digits ∧ cur = cursor (done ++ digits) rest' := by
  rw [readIndex_cursor] at h
  split_ifs at h with hminus hempty hlarge
  cases h
  refine ⟨rest.takeWhile isDigit, rest.dropWhile isDigit, ?_, hempty, ?_, Nat.le_of_not_lt hlarge, rfl, rfl⟩
  · rw [List.takeWhile_append_dropWhile]
  · rw [List.all_eq_true]
    exact fun d hd => List.mem_takeWhile_imp hd

theorem readSegment_sound {done rest path : JsString} {ch : UInt16} {seg : Segment} {cur : Cursor}
    (h : readSegment u ch (cursor done (ch :: rest)) path = .ok (seg, cur)) :
    ∃ text rest', ch :: rest = text ++ rest' ∧ text ≠ [] ∧ SegmentText u text seg ∧
      cur = cursor (done ++ text) rest' := by
  unfold readSegment at h
  split_ifs at h with hdot hbracket
  · rw [skip_cursor] at h
    obtain ⟨⟨k, cur'⟩, hread, heq⟩ := map_ok h
    obtain ⟨c, name, rest', rfl, hc, hname, rfl, rfl⟩ := readIdent_sound hread
    cases heq
    exact ⟨unit '.' :: c :: name,
      rest', by rw [hdot]; rfl, List.cons_ne_nil _ _, .ident hc hname, by rw [hdot]; simp⟩
  · rw [skip_cursor] at h
    cases rest with
    | nil =>
      rw [peek_cursor_nil] at h
      cases h
    | cons c rest =>
      rw [peek_cursor_cons] at h
      obtain ⟨⟨seg', cur'⟩, hinner, hclose⟩ := bind_ok h
      dsimp only at hinner hclose
      split_ifs at hinner with hquote
      · obtain ⟨⟨key, cur''⟩, hread, heq⟩ := map_ok hinner
        rw [readQuotedKey, skip_cursor] at hread
        obtain ⟨body, key', rest', rfl, hbody, rfl, rfl⟩ := readQuoted_sound _ rfl hread
        cases heq
        obtain ⟨rest'', rfl, rfl, rfl⟩ := close_sound hclose
        exact ⟨unit '[' :: c :: (body ++ [c, unit ']']), rest'', by rw [hbracket]; simp, List.cons_ne_nil _ _,
          .quoted hquote hbody,
          by rw [hbracket]; simp⟩
      · obtain ⟨⟨k, cur''⟩, hread, heq⟩ := map_ok hinner
        obtain ⟨digits, rest', hrest, hne, hdigits, hle, rfl, rfl⟩ := readIndex_sound hread
        cases heq
        obtain ⟨rest'', rfl, rfl, rfl⟩ := close_sound hclose
        exact ⟨unit '[' :: (digits ++ [unit ']']), rest'', by rw [hbracket, hrest]; simp, List.cons_ne_nil _ _,
          .index hne hdigits hle, by rw [hbracket]; simp⟩

end

/-! ## The whole path -/

theorem eq_cursor {cur : Cursor} {ch : UInt16} (h : cur.peek = some ch) :
    ∃ done rest, cur = cursor done (ch :: rest) := by
  obtain ⟨src, pos⟩ := cur
  obtain ⟨hlt, hch⟩ := List.getElem?_eq_some_iff.mp h
  refine ⟨src.take pos, src.drop (pos + 1), ?_⟩
  unfold cursor
  rw [← hch, ← List.drop_eq_getElem_cons hlt, List.take_append_drop, List.length_take,
    Nat.min_eq_left (Nat.le_of_lt hlt)]

theorem readSegment_lt {u : Categories} {cur cur' : Cursor} {ch : UInt16} {path : JsString} {seg : Segment}
    (hch : cur.peek = some ch)
    (h : readSegment u ch cur path = .ok (seg, cur')) : cur'.src.length - cur'.pos < cur.src.length - cur.pos := by
  obtain ⟨done, rest, rfl⟩ := eq_cursor hch
  obtain ⟨text, rest', hrest, hne, _, rfl⟩ := readSegment_sound h
  have hlength := List.length_pos_iff.mpr hne
  simp only [cursor, hrest, List.length_append]
  omega

section
variable (u : Categories)

def parseLoop (path : JsString) (cur : Cursor) (out : List Segment) : Except JsString (List Segment) :=
  match _hch : cur.peek with
  | none => .ok out
  | some ch =>
    match _h : readSegment u ch cur path with
    | .error e => .error e
    | .ok (seg, cur') => parseLoop path cur' (out ++ [seg])
termination_by cur.src.length - cur.pos
decreasing_by exact readSegment_lt _hch _h

def parseInternal (path : JsString) : Except JsString (List Segment) :=
  if path = [] then .error (units "variant path must start with '$'") else
    let cur : Cursor := ⟨path, 0⟩
    if cur.peek ≠ some (unit '$') then .error (units "variant path must start with '$', got: " ++ path)
    else parseLoop u path cur.skip []

end

section
variable {u : Categories}

theorem parseLoop_nil (path done : JsString) (out : List Segment) :
    parseLoop u path (cursor done []) out = .ok out := by
  rw [parseLoop]
  split
  · rfl
  · next ch h =>
    rw [peek_cursor_nil] at h
    cases h

theorem parseLoop_cons (path done rest : JsString) (ch : UInt16) (out : List Segment) :
    parseLoop u path (cursor done (ch :: rest)) out =
      (readSegment u ch (cursor done (ch :: rest)) path).bind fun r => parseLoop u path r.2 (out ++ [r.1]) := by
  rw [parseLoop]
  split
  · next h =>
    rw [peek_cursor_cons] at h
    cases h
  · next ch' h =>
    rw [peek_cursor_cons] at h
    obtain rfl : ch = ch' := Option.some.inj h
    split
    · next e he =>
      rw [he]
      rfl
    · next seg cur' hok =>
      rw [hok]
      rfl

theorem identPart_ascii {c : UInt16} (hc : c.toNat < 128) :
    identPart u c = (isAsciiLetter c || isDigit c || c = unit '_') := by
  unfold identPart
  rw [u.letter_ascii c hc, u.number_ascii c hc]

theorem endsIdent_of_segments {rest : JsString} {segs : List Segment} (h : SegmentsText u rest segs) :
    EndsIdent u rest := by
  intro c hc
  cases h with
  | nil => cases hc
  | cons h hrest =>
    cases h with
    | ident =>
      rw [← Option.some.inj hc, identPart_ascii (by decide)]
      decide
    | quoted =>
      rw [← Option.some.inj hc, identPart_ascii (by decide)]
      decide
    | index =>
      rw [← Option.some.inj hc, identPart_ascii (by decide)]
      decide

theorem parseLoop_of_segments {rest : JsString} {segs : List Segment} (h : SegmentsText u rest segs)
    (path : JsString) :
    ∀ (done : JsString) (out : List Segment), parseLoop u path (cursor done rest) out = .ok (out ++ segs) := by
  induction h with
  | nil =>
    intro done out
    rw [parseLoop_nil, List.append_nil]
  | @cons text rest seg segs h hrest ih =>
    intro done out
    obtain ⟨ch, tail, htext, hread⟩ := readSegment_of_text h (endsIdent_of_segments hrest) done path
    have hloop := parseLoop_cons (u := u) path done (tail ++ rest) ch out
    rw [← List.cons_append, ← htext, hread] at hloop
    rw [hloop]
    exact (ih (done ++ text) (out ++ [seg])).trans (by rw [List.append_assoc]; rfl)

theorem parseLoop_sound {path : JsString} (n : Nat) :
    ∀ {done rest : JsString} {out segs : List Segment}, rest.length = n →
    parseLoop u path (cursor done rest) out = .ok segs → ∃ more, segs = out ++ more ∧ SegmentsText u rest more := by
  induction n using Nat.strongRecOn with
  | ind n ih =>
    intro done rest out segs hn h
    cases rest with
    | nil =>
      rw [parseLoop_nil] at h
      cases h
      exact ⟨[], (List.append_nil _).symm, .nil⟩
    | cons ch rest =>
      rw [parseLoop_cons] at h
      obtain ⟨⟨seg, cur⟩, hread, hloop⟩ := bind_ok h
      obtain ⟨text, rest', hrest, hne, htext, rfl⟩ := readSegment_sound hread
      have hlength := congrArg List.length hrest
      have hpos := List.length_pos_iff.mpr hne
      rw [List.length_append] at hlength
      obtain ⟨more, rfl, hmore⟩ := ih rest'.length (by omega) rfl hloop
      exact ⟨seg :: more, by rw [List.append_assoc]; rfl, hrest ▸ .cons htext hmore⟩

/-- What is accepted is a text of the grammar, with its segments. -/
theorem parseInternal_eq_ok_iff {path : JsString} {segs : List Segment} :
    parseInternal u path = .ok segs ↔ PathText u path segs := by
  cases path with
  | nil =>
    refine iff_of_false (fun h => ?_) (fun ⟨rest, hpath, _⟩ => nomatch hpath)
    cases h
  | cons c path =>
    have hcursor : (⟨c :: path, 0⟩ : Cursor) = cursor [] (c :: path) := rfl
    unfold parseInternal
    rw [if_neg (List.cons_ne_nil c path), hcursor]
    dsimp only
    rw [peek_cursor_cons, skip_cursor]
    constructor
    · intro h
      split_ifs at h with hroot
      obtain ⟨more, rfl, hmore⟩ := parseLoop_sound path.length rfl h
      exact ⟨path, by rw [Option.some.inj (not_not.mp hroot)], hmore⟩
    · rintro ⟨rest, hpath, hsegs⟩
      cases hpath
      rw [if_neg (not_not.mpr rfl), parseLoop_of_segments hsegs]
      rfl

end

end VariantPath

end ConfluentKafka
