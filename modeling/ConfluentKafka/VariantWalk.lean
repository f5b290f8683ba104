import ConfluentKafka.JsMap
import ConfluentKafka.VariantPath
import ConfluentKafka.VariantSearch

/-!
# Walking along a path

`parse` with its cache, and `walk` of `variant-path.ts`. What is in the cache is what the parser makes of its
key, so that no call before changes what a path is read as. A walk takes one segment after the other, and ends
with the first that leads to no value.
-/

namespace ConfluentKafka

def Variant.jsGetFieldByKey (v : Variant) (key : JsString) (fuel : Nat) :
    Option (Except VariantFault (Option Variant)) :=
  match v.objectInfo with
  | .error e => some (.error e)
  | .ok info =>
    if info.numFields < VariantFormat.BINARY_SEARCH_THRESHOLD then some (v.jsLinearSearch info key 0 info.numFields)
    else v.binarySearch info (Utf8.encode (Utf16.scalars key)) fuel 0 ((info.numFields : Int) - 1)

theorem Variant.jsGetFieldByKey_ofChars (v : Variant) (key : List Char) (fuel : Nat) :
    v.jsGetFieldByKey (Utf16.ofChars key) fuel = v.getFieldByKey key fuel := by
  have hsame : (fun k => decide (Utf16.ofChars k = Utf16.ofChars key)) = fun k : List Char => decide (k = key) := by
    funext k
    exact decide_eq_decide.mpr ⟨Utf16.ofChars_injective, congrArg Utf16.ofChars⟩
  unfold jsGetFieldByKey getFieldByKey
  cases v.objectInfo with
  | error e => rfl
  | ok info =>
    dsimp only
    rw [jsLinearSearch, hsame, ← linearSearch_eq_scan, Utf16.scalars_ofChars]

namespace VariantPath

open Json (isDigit)

/-! ## The cache -/

def PARSE_CACHE_MAX : Nat := 1000

abbrev ParseCache := JsMap JsString (List Segment)

section
variable (u : Categories)

def parse (cache : ParseCache) (path : JsString) : Except JsString (List Segment) × ParseCache :=
  match cache.get? path with
  | some cached => (.ok cached, cache)
  | none =>
    match parseInternal u path with
    | .error message => (.error message, cache)
    | .ok segments =>
      let cache : ParseCache := if PARSE_CACHE_MAX ≤ cache.entries.length then .empty else cache
      (.ok segments, cache.set path segments)

/-- The cache holds what the parser would return, and not too much. -/
structure Cached (cache : ParseCache) : Prop where
  right : ∀ path segments, cache.get? path = some segments → parseInternal u path = .ok segments
  bounded : cache.entries.length ≤ PARSE_CACHE_MAX

end

section
variable {u : Categories}

theorem cached_empty : Cached u .empty := ⟨fun _ _ h => (nomatch h), Nat.zero_le _⟩

theorem parse_eq {cache : ParseCache} (h : Cached u cache) (path : JsString) :
    (parse u cache path).1 = parseInternal u path := by
  unfold parse
  split
  · next cached hcached => exact (h.right path cached hcached).symm
  · split
    · next message hmessage => exact hmessage.symm
    · next segments hsegments => exact hsegments.symm

theorem length_set_le (cache : ParseCache) (path : JsString) (segments : List Segment) :
    (cache.set path segments).entries.length ≤ cache.entries.length + 1 := by
  unfold JsMap.set
  split
  · exact Nat.le_of_eq (List.length_append ..)
  · dsimp only
    rw [List.length_map]
    exact Nat.le_succ _

theorem Cached.set {cache : ParseCache} (h : Cached u cache) (hroom : cache.entries.length < PARSE_CACHE_MAX)
    {path : JsString}
    {segments : List Segment} (hsegments : parseInternal u path = .ok segments) :
      Cached u (cache.set path segments) := by
  refine ⟨fun path' segments' hget => ?_, (length_set_le cache path segments).trans hroom⟩
  rw [JsMap.get?_set] at hget
  split_ifs at hget with hpath
  · rw [hpath, hsegments, Option.some.inj hget]
  · exact h.right path' segments' hget

theorem Cached.parse {cache : ParseCache} (h : Cached u cache) (path : JsString) :
    Cached u (parse u cache path).2 := by
  unfold VariantPath.parse
  split
  · exact h
  · split
    · exact h
    · next segments hsegments =>
      dsimp only
      split_ifs with hfull
      · exact cached_empty.set (by decide) hsegments
      · exact h.set (Nat.lt_of_not_le hfull) hsegments

def cacheAfter (u : Categories) (paths : List JsString) : ParseCache :=
  paths.foldl (fun cache path => (parse u cache path).2) .empty

theorem cached_cacheAfter (paths : List JsString) : Cached u (cacheAfter u paths) := by
  have hcalls : ∀ cache, Cached u cache →
      Cached u (paths.foldl (fun cache path => (VariantPath.parse u cache path).2) cache) := by
    induction paths with
    | nil => exact fun _ h => h
    | cons path paths ih => exact fun cache h => ih _ (h.parse path)
  exact hcalls .empty cached_empty

end

/-! ## Paths that are written -/

def quoteUnit (single : Bool) : UInt16 := if single then unit '\'' else unit '"'

def escaped (quote : UInt16) (key : JsString) : JsString :=
  key.flatMap fun c => if c = unit '\\' ∨ c = quote then [unit '\\', c] else [c]

def renderSegment (quote : UInt16) : Segment → JsString
  | .field key => unit '[' :: quote :: (escaped quote key ++ [quote, unit ']'])
  | .index i => unit '[' :: ((Nat.toDigits 10 i.toNat).map unit ++ [unit ']'])

def renderPath (segs : List (Segment × Bool)) : JsString :=
  unit '$' :: segs.flatMap fun p => renderSegment (quoteUnit p.2) p.1

def InRange : Segment → Prop
  | .field _ => True
  | .index i => 0 ≤ i ∧ i < 2147483648

theorem quotedBody_escaped (quote : UInt16) (key : JsString) : QuotedBody quote (escaped quote key) key := by
  induction key with
  | nil => exact .nil
  | cons c key ih =>
    unfold escaped at ih ⊢
    rw [List.flatMap_cons]
    split_ifs with hc
    · exact .escape hc ih
    · rw [not_or] at hc
      exact .unit hc.1 hc.2 ih

theorem segmentText_render {u : Categories} {seg : Segment} (h : InRange seg) (single : Bool) :
    SegmentText u (renderSegment (quoteUnit single) seg) seg := by
  cases seg with
  | field key =>
    refine .quoted ?_ (quotedBody_escaped _ key)
    cases single
    · exact Or.inl rfl
    · exact Or.inr rfl
  | index i =>
    obtain ⟨n, rfl⟩ := Int.eq_ofNat_of_zero_le h.1
    have hall : ∀ c ∈ Nat.toDigits 10 n, c.isDigit = true := fun c hc => NumberLiteral.isDigit_of_mem_toDigits hc
    have hvalue : Json.digitsValue ((Nat.toDigits 10 n).map unit) = n := by
      rw [NumberLiteral.digitsValue_map_unit hall, Nat.ofDigitChars_ten_toDigits]
    have hne : (Nat.toDigits 10 n).map unit ≠ [] := by
      rw [ne_eq, List.map_eq_nil_iff]
      exact List.ne_nil_of_length_pos Nat.length_toDigits_pos
    have hle : n ≤ 2147483647 := by
      have := h.2
      omega
    have htext := SegmentText.index (u := u) hne (NumberLiteral.all_isDigit_map_unit hall) (hvalue.le.trans hle)
    rw [hvalue] at htext
    exact htext

theorem pathText_render {u : Categories} {segs : List (Segment × Bool)} (h : ∀ p ∈ segs, InRange p.1) :
    PathText u (renderPath segs) (segs.map Prod.fst) := by
  refine ⟨_, rfl, ?_⟩
  induction segs with
  | nil => exact .nil
  | cons p segs ih =>
    rw [List.flatMap_cons, List.map_cons]
    exact .cons (segmentText_render (h p (List.mem_cons_self ..)) p.2)
      (ih fun q hq => h q (List.mem_cons_of_mem p hq))

/-! ## The walk -/

inductive WalkError where
  | path (message : JsString)
  | variant (fault : VariantFault)

/-- Where one segment leads: a field of an object, an element of an array, and else nowhere. Without a result
the search by halves still goes on. -/
def resolve (fuel : Nat) (v : Variant) : Segment → Option (Except VariantFault (Option Variant))
  | .field key =>
    match v.getType with
    | .error e => some (.error e)
    | .ok t => if t = .OBJECT then v.jsGetFieldByKey key fuel else some (.ok none)
  | .index i =>
    match v.getType with
    | .error e => some (.error e)
    | .ok t => if t = .ARRAY then some (v.getElementAtIndex i) else some (.ok none)

def walkLoop (fuel : Nat) : Option Variant → List Segment → Option (Except VariantFault (Option Variant))
  | current, [] => some (.ok current)
  | none, _ :: _ => some (.ok none)
  | some v, seg :: segs =>
    match resolve fuel v seg with
    | none => none
    | some (.error e) => some (.error e)
    | some (.ok current) => walkLoop fuel current segs

def walk (u : Categories) (cache : ParseCache) (fuel : Nat) (root : Variant) (path : JsString) :
    Option (Except WalkError (Option Variant)) × ParseCache :=
  let (parsed, cache) := parse u cache path
  match parsed with
  | .error message => (some (.error (.path message)), cache)
  | .ok segs => ((walkLoop fuel (some root) segs).map fun r => r.mapError .variant, cache)

/-- From value to value, up to the first segment that leads to none: what comes of that segment is the answer. -/
inductive Navigates (fuel : Nat) : Variant → List Segment → Option (Except VariantFault (Option Variant)) →
    Prop where
  | here (v : Variant) : Navigates fuel v [] (some (.ok (some v)))
  | on {v c : Variant} {seg : Segment} {segs : List Segment} {r : Option (Except VariantFault (Option Variant))}
      (h : resolve fuel v seg = some (.ok (some c))) (hrest : Navigates fuel c segs r) :
      Navigates fuel v (seg :: segs) r
  | stop {v : Variant} {seg : Segment} {segs : List Segment} (h : ∀ c, resolve fuel v seg ≠ some (.ok (some c))) :
      Navigates fuel v (seg :: segs) (resolve fuel v seg)

theorem walkLoop_none (fuel : Nat) (segs : List Segment) : walkLoop fuel none segs = some (.ok none) := by
  cases segs <;> rfl

theorem walkLoop_on {fuel : Nat} {v c : Variant} {seg : Segment} (h : resolve fuel v seg = some (.ok (some c)))
    (segs : List Segment) :
    walkLoop fuel (some v) (seg :: segs) = walkLoop fuel (some c) segs := by
  rw [walkLoop, h]

theorem walkLoop_stop {fuel : Nat} {v : Variant} {seg : Segment} (h : ∀ c, resolve fuel v seg ≠ some (.ok (some c)))
    (segs : List Segment) : walkLoop fuel (some v) (seg :: segs) = resolve fuel v seg := by
  rw [walkLoop]
  rcases hresolve : resolve fuel v seg with _ | e | _ | c
  · rfl
  · rfl
  · exact walkLoop_none fuel segs
  · exact absurd hresolve (h c)

theorem navigates_iff (fuel : Nat) (segs : List Segment) :
    ∀ (v : Variant) (r : Option (Except VariantFault (Option Variant))),
    Navigates fuel v segs r ↔ walkLoop fuel (some v) segs = r := by
  induction segs with
  | nil =>
    intro v r
    constructor
    · rintro ⟨⟩
      rfl
    · rintro rfl
      exact .here v
  | cons seg segs ih =>
    intro v r
    constructor
    · intro h
      cases h with
      | on h hrest => exact (walkLoop_on h segs).trans ((ih _ r).mp hrest)
      | stop h => exact walkLoop_stop h segs
    · rintro rfl
      by_cases hchild : ∃ c, resolve fuel v seg = some (.ok (some c))
      · obtain ⟨c, hc⟩ := hchild
        rw [walkLoop_on hc]
        exact .on hc ((ih c _).mpr rfl)
      · have hstop : ∀ c, resolve fuel v seg ≠ some (.ok (some c)) := fun c hc => hchild ⟨c, hc⟩
        rw [walkLoop_stop hstop]
        exact .stop hstop

theorem walk_eq (u : Categories) (cache : ParseCache) (fuel : Nat) (root : Variant) (path : JsString) :
    (walk u cache fuel root path).1 = match (parse u cache path).1 with
      | .error message => some (.error (.path message))
      | .ok segs => (walkLoop fuel (some root) segs).map fun r => r.mapError .variant := by
  unfold walk
  rcases parse u cache path with ⟨_ | _, _⟩
  · rfl
  · rfl

/-- After any calls: what is written with quoted keys and indices is read again, a path is accepted exactly if
it is of the grammar, with its segments, and a walk along it navigates from segment to segment. -/
theorem parse_and_walk (u : Categories) (paths : List JsString) :
    (∀ segs : List (Segment × Bool), (∀ p ∈ segs, InRange p.1) →
      (parse u (cacheAfter u paths) (renderPath segs)).1 = .ok (segs.map Prod.fst)) ∧
    (∀ path segs, (parse u (cacheAfter u paths) path).1 = .ok segs ↔ PathText u path segs) ∧
    (∀ path, (¬∃ segs, PathText u path segs) → ∃ message, (parse u (cacheAfter u paths) path).1 = .error message ∧
      ∀ fuel root, (walk u (cacheAfter u paths) fuel root path).1 = some (.error (.path message))) ∧
    (∀ path segs, PathText u path segs → ∀ fuel root, ∃ r, Navigates fuel root segs r ∧
      (∀ r', Navigates fuel root segs r' → r' = r) ∧
      (walk u (cacheAfter u paths) fuel root path).1 = r.map fun r => r.mapError .variant) ∧
    (cacheAfter u paths).entries.length ≤ PARSE_CACHE_MAX := by
  have hcached := cached_cacheAfter (u := u) paths
  have hparse (path : JsString) (segs : List Segment) : (parse u (cacheAfter u paths) path).1 = .ok segs ↔
      PathText u path segs := by
    rw [parse_eq hcached, parseInternal_eq_ok_iff]
  refine ⟨fun segs h => (hparse _ _).mpr (pathText_render h), hparse, ?_, ?_, hcached.bounded⟩
  · intro path hnone
    rcases hresult : (parse u (cacheAfter u paths) path).1 with message | segs
    · refine ⟨message, rfl, fun fuel root => ?_⟩
      rw [walk_eq, hresult]
    · exact absurd ⟨segs, (hparse path segs).mp hresult⟩ hnone
  · intro path segs hsegs fuel root
    refine ⟨walkLoop fuel (some root) segs, (navigates_iff fuel segs root _).mpr rfl, fun r' hr' => ?_, ?_⟩
    · exact ((navigates_iff fuel segs root r').mp hr').symm
    · rw [walk_eq, (hparse path segs).mpr hsegs]

def asciiCategories : Categories := ⟨RegExp.isAsciiLetter, isDigit, fun _ _ => rfl, fun _ _ => rfl⟩

/-- A key with a quote, a backslash and brackets, and an index, read for the second time. -/
theorem parse_and_walk_cached :
    (parse asciiCategories
      (cacheAfter asciiCategories [renderPath [(.field (units "a\"]\\."), false), (.index 7, true)]])
      (renderPath [(.field (units "a\"]\\."), false), (.index 7, true)])).1 = .ok
        [.field (units "a\"]\\."), .index 7] :=
  (parse_and_walk asciiCategories [renderPath [(.field (units "a\"]\\."), false), (.index 7, true)]]).1
    [(.field (units "a\"]\\."), false), (.index 7, true)] (by simp [InRange])

end VariantPath

end ConfluentKafka
