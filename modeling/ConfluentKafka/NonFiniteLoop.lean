import ConfluentKafka.NonFiniteParse

/-!
# Attempts

What an attempt revives: the placeholders for the barewords that are kept, and the objects of the text
that look like placeholders. A bareword that a second value for its key replaces is written and never
revived, and then no attempt ends the loop unless as many objects look like placeholders.
-/

namespace ConfluentKafka

open Json JsonTree

/-! ## Values with placeholders -/

def placed (key : JsString) : Literal → JsonValue
  | .text s => .number (toNumber s)
  | .nonFinite k => .object [(key, .number (.finite k.val))]

theorem toNumber_index (k : Fin 3) : toNumber [UInt16.ofNat (48 + k.val)] = .finite k.val := by
  have hvalue : literalValue [UInt16.ofNat (48 + k.val)] = (k.val : ℚ) := by
    match k with
    | 0 => decide +kernel
    | 1 => decide +kernel
    | 2 => decide +kernel
  rw [toNumber, hvalue]
  exact toDouble_natCast (by omega)

theorem placed_kept (key : JsString) (l : Literal) : (placed key l).kept = placed key l := by
  cases l with
  | text s => rfl
  | nonFinite k =>
    have hone : ∀ p : JsString × JsonValue, entries (properties [p]) = [p] :=
      fun p => List.perm_singleton.mp (entries_perm [p])
    rw [placed, kept, keptFields, keptFields, hone, kept]

theorem sourceValue_eq (t : Source) : sourceValue t = t.kept.bind fun l => .number (literalNumber l) :=
  kept_bind (fun _ => by rw [kept]) t

theorem sourceValue_plant (key : JsString) (t : Source) : sourceValue (plant key t) = t.kept.bind (placed key) := by
  have hplaced : ∀ l : Literal, (l.planted key).bind (fun l => .number (literalNumber l)) = placed key l := by
    intro l
    cases l with
    | text s => rfl
    | nonFinite k =>
      rw [Literal.planted, JsonTree.bind, bindFields, bindFields, JsonTree.bind, literalNumber, toNumber_index]
      rfl
  rw [sourceValue, plant, bind_bind]
  simp only [hplaced]
  exact kept_bind (placed_kept key) t

/-! ## What is revived -/

mutual

def lookalikes (key : JsString) : JsonValue → Nat
  | .array ts => lookalikesElements key ts
  | .object fs => lookalikesFields key fs + if (nonFinitePlaceholderIndex (.object fs) key).isSome then 1 else 0
  | _ => 0

def lookalikesElements (key : JsString) : List JsonValue → Nat
  | [] => 0
  | t :: ts => lookalikes key t + lookalikesElements key ts

def lookalikesFields (key : JsString) : List (JsString × JsonValue) → Nat
  | [] => 0
  | (_, t) :: fs => lookalikes key t + lookalikesFields key fs

end

section

variable (key : JsString)

theorem lookalikesElements_eq (ts : List JsonValue) : lookalikesElements key ts =
    (ts.map (lookalikes key)).sum := by
  induction ts with
  | nil => rfl
  | cons t ts ih => rw [lookalikesElements, ih, List.map_cons, List.sum_cons]

theorem lookalikesFields_eq (fs : List (JsString × JsonValue)) :
    lookalikesFields key fs = (fs.map fun p => lookalikes key p.2).sum := by
  induction fs with
  | nil => rfl
  | cons p fs ih => rw [lookalikesFields, ih, List.map_cons, List.sum_cons]

def revived (t : JsonValue) : JsonValue := (internalize key t).1

theorem internalizeElements_eq (ts : List JsonValue) :
    internalizeElements key ts = (ts.map (revived key), (ts.map fun t => (internalize key t).2).sum) := by
  induction ts with
  | nil => rfl
  | cons t ts ih =>
    rw [internalizeElements, ih]
    rfl

theorem internalizeFields_eq (fs : List (JsString × JsonValue)) :
    internalizeFields key fs = (fs.map (onValue (revived key)), (fs.map fun p => (internalize key p.2).2).sum) := by
  induction fs with
  | nil => rfl
  | cons p fs ih =>
    rw [internalizeFields, ih]
    rfl

theorem internalize_array (ts : List JsonValue) :
    internalize key (.array ts) = (.array (ts.map (revived key)), (ts.map fun t => (internalize key t).2).sum) := by
  rw [internalize, internalizeElements_eq]
  rfl

theorem internalize_object (fs : List (JsString × JsonValue)) :
    internalize key (.object fs) =
      ((reviver key (.object (fs.map (onValue (revived key))))).1,
        (fs.map fun p => (internalize key p.2).2).sum +
        (reviver key (.object (fs.map (onValue (revived key))))).2) := by
  rw [internalize, internalizeFields_eq]

theorem literalIndex_bareword (k : Fin 3) : literalIndex (NON_FINITE_LITERALS k).2 = none := by
  match k with
  | 0 => rfl
  | 1 => rfl
  | 2 => rfl

/-- No number is made that could be the number of a placeholder. -/
theorem revived_number {t : JsonValue} {x : Double} (h : revived key t = .number x) : t = .number x ∨
    literalIndex x = none := by
  cases t with
  | number y => exact .inl h
  | array ts =>
    rw [revived, internalize_array] at h
    cases h
  | object fs =>
    rw [revived, internalize_object, reviver] at h
    split at h
    · cases h
    · next k hk =>
      cases h
      exact .inr (literalIndex_bareword k)
  | _ => cases h

theorem nonFinitePlaceholderIndex_revived (fs : List (JsString × JsonValue)) :
    nonFinitePlaceholderIndex (.object (fs.map (onValue (revived key)))) key = nonFinitePlaceholderIndex
      (.object fs) key := by
  have hone : ∀ (name : JsString) (t : JsonValue), nonFinitePlaceholderIndex (.object [(name, revived key t)]) key =
      nonFinitePlaceholderIndex (.object [(name, t)]) key := by
    intro name t
    by_cases hx : ∃ x, revived key t = .number x
    · obtain ⟨x, hx⟩ := hx
      rcases revived_number key hx with rfl | hnone
      · rw [hx]
      · rw [hx]
        cases t with
        | number y =>
          cases hx
          rfl
        | _ =>
          simp only [nonFinitePlaceholderIndex]
          rw [hnone]
          split_ifs
          · rfl
          · rfl
    · have ht : ∀ x, t ≠ .number x := by
        rintro x rfl
        exact hx ⟨x, rfl⟩
      cases hrev : revived key t with
      | number x => exact absurd ⟨x, hrev⟩ hx
      | _ =>
        cases t with
        | number x => exact absurd rfl (ht x)
        | _ => rfl
  match fs with
  | [] => rfl
  | [(name, t)] => exact hone name t
  | p :: q :: fs => simp [nonFinitePlaceholderIndex]

theorem internalize_count (t : JsonValue) : (internalize key t).2 = lookalikes key t := by
  induction t using induct_mem with
  | null => rfl
  | boolean b => rfl
  | number x => rfl
  | string s => rfl
  | array ts ih =>
    rw [internalize_array, lookalikes, lookalikesElements_eq]
    exact congrArg List.sum (List.map_congr_left ih)
  | object fs ih =>
    have hsum : (fs.map fun p => (internalize key p.2).2).sum = lookalikesFields key fs := by
      rw [lookalikesFields_eq]
      exact congrArg List.sum (List.map_congr_left ih)
    rw [internalize_object, lookalikes, hsum, reviver, nonFinitePlaceholderIndex_revived]
    cases nonFinitePlaceholderIndex (.object fs) key with
    | none => rfl
    | some k => rfl

theorem revived_of_none {t : JsonValue} (h : lookalikes key t = 0) : revived key t = t := by
  induction t using induct_mem with
  | null => rfl
  | boolean b => rfl
  | number x => rfl
  | string s => rfl
  | array ts ih =>
    rw [lookalikes, lookalikesElements_eq, List.sum_eq_zero_iff_forall_eq_nat] at h
    have hts : ts.map (revived key) = ts :=
      (List.map_congr_left fun t ht => ih t ht (h _ (List.mem_map_of_mem ht))).trans (List.map_id' ts)
    rw [revived, internalize_array, hts]
  | object fs ih =>
    rw [lookalikes, Nat.add_eq_zero_iff, lookalikesFields_eq, List.sum_eq_zero_iff_forall_eq_nat] at h
    have hfs : fs.map (onValue (revived key)) = fs := by
      refine (List.map_congr_left fun p hp => ?_).trans (List.map_id' fs)
      exact congrArg (Prod.mk p.1) (ih p hp (h.1 _ (List.mem_map_of_mem hp)))
    have hnone : nonFinitePlaceholderIndex (.object fs) key = none := by
      by_contra hsome
      rw [if_pos (Option.isSome_iff_ne_none.mpr hsome)] at h
      exact absurd h.2 Nat.one_ne_zero
    rw [revived, internalize_object, hfs, reviver, hnone]

/-- The placeholders are revived to the barewords they are for. -/
theorem internalize_placed (t : Source) :
    internalize key (t.bind (placed key)) =
      ((internalize key (t.bind fun l => .number (literalNumber l))).1,
        barewords t + (internalize key (t.bind fun l => .number (literalNumber l))).2) := by
  induction t using induct_mem with
  | null => rfl
  | boolean b => rfl
  | string s => rfl
  | number l =>
    cases l with
    | text s => rfl
    | nonFinite k =>
      have hindex : literalIndex (.finite k.val) = some k := by
        match k with
        | 0 => rfl
        | 1 => rfl
        | 2 => rfl
      have hplaceholder : nonFinitePlaceholderIndex (.object [(key, .number (.finite k.val))]) key = some k := by
        rw [nonFinitePlaceholderIndex, if_pos rfl, hindex]
      have hrevived : revived key (.number (.finite k.val)) = .number (.finite k.val) := rfl
      rw [JsonTree.bind, placed, internalize_object, List.map_singleton, List.map_singleton, onValue,
        hrevived, reviver,
        hplaceholder]
      rfl
  | array ts ih =>
    simp only [JsonTree.bind, bindElements_eq, internalize_array, List.map_map]
    refine Prod.ext ?_ ?_
    · exact congrArg array (List.map_congr_left fun t ht => (congrArg Prod.fst (ih t ht)).trans rfl)
    · rw [barewords, weight, weightElements_eq, ← List.sum_map_add]
      exact congrArg List.sum (List.map_congr_left fun t ht => congrArg Prod.snd (ih t ht))
  | object fs ih =>
    simp only [JsonTree.bind, bindFields_eq, internalize_object, List.map_map]
    have hfields : fs.map (onValue (revived key) ∘ fun p => (p.1, p.2.bind (placed key))) =
        fs.map (onValue (revived key) ∘ fun p => (p.1, p.2.bind fun l => .number (literalNumber l))) :=
      List.map_congr_left fun p hp => congrArg (Prod.mk p.1) ((congrArg Prod.fst (ih p hp)).trans rfl)
    have hsum : (fs.map ((fun p => (internalize key p.2).2) ∘ fun p => (p.1, p.2.bind (placed key)))).sum =
        barewords (.object fs) +
          (fs.map ((fun p => (internalize key p.2).2) ∘ fun p =>
            (p.1, p.2.bind fun l => .number (literalNumber l)))).sum := by
      rw [barewords, weight, weightFields_eq, ← List.sum_map_add]
      exact congrArg List.sum (List.map_congr_left fun p hp => congrArg Prod.snd (ih p hp))
    rw [hfields, hsum, Nat.add_assoc]

end

/-! ## Keys -/

section

variable {key : JsString}

theorem placeholder_key {fs : List (JsString × JsonValue)}
    (h : (nonFinitePlaceholderIndex (.object fs) key).isSome) :
    ∃ x, fs = [(key, .number x)] := by
  unfold nonFinitePlaceholderIndex at h
  split at h
  · next k x heq =>
    split_ifs at h with hk
    · cases heq
      exact ⟨x, by rw [hk]⟩
    · cases h
  · cases h

/-- No key that is longer than all keys of a value is in it. -/
theorem exists_lookalikes_eq_zero (t : JsonValue) : ∃ n, ∀ key : JsString, n ≤ key.length →
    lookalikes key t = 0 := by
  induction t using induct_mem with
  | null => exact ⟨0, fun _ _ => rfl⟩
  | boolean b => exact ⟨0, fun _ _ => rfl⟩
  | number x => exact ⟨0, fun _ _ => rfl⟩
  | string s => exact ⟨0, fun _ _ => rfl⟩
  | array ts ih =>
    have hall : ∃ n, ∀ key : JsString, n ≤ key.length → lookalikesElements key ts = 0 := by
      induction ts with
      | nil => exact ⟨0, fun _ _ => rfl⟩
      | cons t ts ihts =>
        obtain ⟨n, hn⟩ := ih t List.mem_cons_self
        obtain ⟨m, hm⟩ := ihts fun t ht => ih t (List.mem_cons_of_mem _ ht)
        refine ⟨max n m, fun key hkey => ?_⟩
        rw [lookalikesElements, hn key (by omega), hm key (by omega)]
    exact hall
  | object fs ih =>
    have hall : ∃ n, ∀ key : JsString, n ≤ key.length → lookalikesFields key fs = 0 ∧ key ∉ fs.map Prod.fst := by
      induction fs with
      | nil => exact ⟨0, fun _ _ => ⟨rfl, List.not_mem_nil⟩⟩
      | cons p fs ihfs =>
        obtain ⟨n, hn⟩ := ih p List.mem_cons_self
        obtain ⟨m, hm⟩ := ihfs fun q hq => ih q (List.mem_cons_of_mem _ hq)
        refine ⟨max (max n m) (p.1.length + 1), fun key hkey => ?_⟩
        obtain ⟨hzero, hmem⟩ := hm key (by omega)
        refine ⟨by rw [lookalikesFields, hn key (by omega), hzero], ?_⟩
        rw [List.map_cons, List.mem_cons, not_or]
        refine ⟨?_, hmem⟩
        rintro rfl
        omega
    obtain ⟨n, hn⟩ := hall
    refine ⟨n, fun key hkey => ?_⟩
    obtain ⟨hzero, hmem⟩ := hn key hkey
    rw [lookalikes, hzero, if_neg]
    intro hsome
    obtain ⟨x, rfl⟩ := placeholder_key hsome
    exact hmem List.mem_cons_self

theorem length_placeholderKey (attempt : Nat) : (placeholderKey attempt).length = 13 + attempt := by
  rw [placeholderKey, List.length_append, List.length_replicate]
  rfl

theorem keyText_placeholderKey (attempt : Nat) : KeyText (placeholderKey attempt) := by
  intro c hc
  have hprefix : ∀ c ∈ units "__nonFinite__", c ≠ unit '"' ∧ c ≠ unit '\\' ∧ 32 ≤ c.toNat :=
    List.all_iff_forall_prop.mp (by decide)
  rcases List.mem_append.mp hc with hc | hc
  · exact hprefix c hc
  · obtain ⟨-, rfl⟩ := List.mem_replicate.mp hc
    decide

end

/-! ## An attempt -/

section

variable {text : JsString}

theorem rewriteNonFinite_eq_none {key : JsString} (h : rewriteNonFinite text key = none) :
    (rewriteFrom key 0 false text).2 = 0 := by
  unfold rewriteNonFinite at h
  by_cases hletters : unit 'N' ∉ text ∧ unit 'I' ∉ text
  · exact (rewrites_rewriteFrom key false text).eq_zero hletters.1 hletters.2
  · rw [if_neg hletters] at h
    dsimp only at h
    by_contra hne
    rw [if_neg hne] at h
    cases h

theorem rewriteNonFinite_eq_some {key : JsString} {r : JsString × Nat} (h : rewriteNonFinite text key = some r) :
    r = rewriteFrom key 0 false text ∧ r.2 ≠ 0 := by
  unfold rewriteNonFinite at h
  dsimp only at h
  split_ifs at h with hletters hzero
  exact ⟨(Option.some.inj h).symm, by rwa [← Option.some.inj h]⟩

theorem count_eq (attempt : Nat) {r : Source} (hr : parse true text = some r) :
    (rewriteFrom (placeholderKey attempt) 0 false text).2 = barewords r := by
  have hrewrites := rewrites_rewriteFrom (placeholderKey attempt) false text
  have hkey := keyText_placeholderKey attempt
  obtain ⟨r', hr', -, hcount⟩ := parse_of_rewritten hrewrites hkey (parse_rewritten hrewrites hkey hr)
  rw [hr] at hr'
  cases hr'
  exact hcount.symm

theorem parse_eq_none (attempt : Nat) (h : parse true text = none) :
    parse false (rewriteFrom (placeholderKey attempt) 0 false text).1 = none := by
  by_contra hsome
  obtain ⟨r', hr'⟩ := Option.ne_none_iff_exists'.mp hsome
  obtain ⟨r, hr, -⟩ :=
    parse_of_rewritten (rewrites_rewriteFrom (placeholderKey attempt) false text)
      (keyText_placeholderKey attempt) hr'
  rw [h] at hr
  cases hr

theorem parseAttempts_of_none (fuel attempt : Nat) (h : parse true text = none) :
    parseAttempts text (fuel + 1) attempt = some none := by
  have hnone := parse_eq_none attempt h
  rw [parseAttempts]
  cases hrewrite : rewriteNonFinite text (placeholderKey attempt) with
  | none =>
    have hsame := (rewrites_rewriteFrom (placeholderKey attempt) false text).eq_of_zero
      (rewriteNonFinite_eq_none hrewrite)
    rw [hsame] at hnone
    simp [jsonParse, hnone]
  | some r =>
    obtain ⟨rfl, -⟩ := rewriteNonFinite_eq_some hrewrite
    simp [jsonParse, hnone]

theorem plant_of_zero {key : JsString} {r : Source} (h : barewords r = 0) : plant key r = r := by
  refine bind_of_weight (fun l hl => ?_) h
  cases l with
  | text s => rfl
  | nonFinite k => cases hl

/-- A text without barewords is parsed as it is. -/
theorem parseAttempts_of_zero (fuel attempt : Nat) {r : Source} (hr : parse true text = some r)
    (hzero : barewords r = 0) :
    parseAttempts text (fuel + 1) attempt = some (some (sourceValue r)) := by
  have hcount := (count_eq attempt hr).trans hzero
  have hrewrites := rewrites_rewriteFrom (placeholderKey attempt) false text
  have hnone : rewriteNonFinite text (placeholderKey attempt) = none := by
    by_contra hsome
    obtain ⟨r', hr'⟩ := Option.ne_none_iff_exists'.mp hsome
    obtain ⟨rfl, hne⟩ := rewriteNonFinite_eq_some hr'
    exact hne hcount
  have hparse := parse_rewritten hrewrites (keyText_placeholderKey attempt) hr
  rw [hrewrites.eq_of_zero hcount] at hparse
  rw [parseAttempts, hnone]
  dsimp only
  rw [jsonParse, hparse, Option.map_some, plant_of_zero hzero]

/-- As many objects look like placeholders of the attempt as barewords are lost. -/
def SettlesAt (r : Source) (attempt : Nat) : Prop :=
  barewords r.kept + lookalikes (placeholderKey attempt) (sourceValue r) = barewords r

instance (r : Source) (attempt : Nat) : Decidable (SettlesAt r attempt) := inferInstanceAs (Decidable (_ = _))

/-- The attempt ends the loop if it revives as many placeholders as it has written. -/
theorem parseAttempts_succ (fuel attempt : Nat) {r : Source} (hr : parse true text = some r)
    (hne : barewords r ≠ 0) :
    parseAttempts text (fuel + 1) attempt =
      if SettlesAt r attempt then some (some (revived (placeholderKey attempt) (sourceValue r)))
      else parseAttempts text fuel (attempt + 1) := by
  have hcount := count_eq attempt hr
  have hsome : rewriteNonFinite text (placeholderKey attempt) = some
    (rewriteFrom (placeholderKey attempt) 0 false text) := by
    cases hrewrite : rewriteNonFinite text (placeholderKey attempt) with
    | none => exact absurd (hcount.symm.trans (rewriteNonFinite_eq_none hrewrite)) hne
    | some r' => rw [(rewriteNonFinite_eq_some hrewrite).1]
  have hparse := parse_rewritten (rewrites_rewriteFrom (placeholderKey attempt) false text)
    (keyText_placeholderKey attempt) hr
  have hinternalize : internalize (placeholderKey attempt) (sourceValue (plant (placeholderKey attempt) r)) =
      (revived (placeholderKey attempt) (sourceValue r),
        barewords r.kept + lookalikes (placeholderKey attempt) (sourceValue r)) := by
    rw [sourceValue_plant, internalize_placed, internalize_count, ← sourceValue_eq]
    rfl
  rw [parseAttempts, hsome]
  dsimp only
  rw [jsonParse, hparse, Option.map_some]
  dsimp only
  rw [hinternalize, hcount]
  rfl

end

/-! ## The loop -/

def Terminates (text : JsString) : Prop := ∃ fuel, (parseJsonAllowingNonFinite text fuel).isSome

theorem exists_settles_of_kept {r : Source} (h : barewords r.kept = barewords r) :
    ∃ attempt, ∀ later, attempt ≤ later → SettlesAt r later := by
  obtain ⟨n, hn⟩ := exists_lookalikes_eq_zero (sourceValue r)
  refine ⟨n, fun later hlater => ?_⟩
  rw [SettlesAt, hn (placeholderKey later) (by rw [length_placeholderKey]; omega), h, Nat.add_zero]

section

variable {text : JsString} {r : Source}

theorem revived_of_zero (hzero : barewords r = 0) :
    ∃ later, SettlesAt r later ∧ sourceValue r = revived (placeholderKey later) (sourceValue r) := by
  have hkept : barewords r.kept = 0 := weight_kept_eq_zero hzero
  obtain ⟨later, hlater⟩ := exists_settles_of_kept (hkept.trans hzero.symm)
  have hsettles := hlater later le_rfl
  refine ⟨later, hsettles, (revived_of_none _ ?_).symm⟩
  rw [SettlesAt, hkept, hzero, Nat.zero_add] at hsettles
  exact hsettles

/-- The loop ends at an attempt that settles, or before. -/
theorem parseAttempts_of_settles (hr : parse true text = some r) {attempt : Nat} (hsettles : SettlesAt r attempt)
    (fuel first : Nat)
    (hfirst : first ≤ attempt) (hfuel : attempt < first + fuel) :
    ∃ later, SettlesAt r later ∧
      parseAttempts text fuel first = some (some (revived (placeholderKey later) (sourceValue r))) := by
  induction fuel generalizing first with
  | zero => omega
  | succ fuel ih =>
    by_cases hzero : barewords r = 0
    · obtain ⟨later, hlater, heq⟩ := revived_of_zero hzero
      refine ⟨later, hlater, ?_⟩
      rw [parseAttempts_of_zero fuel first hr hzero, ← heq]
    · rw [parseAttempts_succ fuel first hr hzero]
      by_cases hnow : SettlesAt r first
      · exact ⟨first, hnow, if_pos hnow⟩
      · rw [if_neg hnow]
        have hne : first ≠ attempt := by
          rintro rfl
          exact hnow hsettles
        exact ih (first + 1) (by omega) (by omega)

theorem settles_of_isSome (hr : parse true text = some r) (hzero : barewords r ≠ 0) (fuel first : Nat)
    (h : (parseAttempts text fuel first).isSome) : ∃ attempt, SettlesAt r attempt := by
  induction fuel generalizing first with
  | zero => cases h
  | succ fuel ih =>
    rw [parseAttempts_succ fuel first hr hzero] at h
    by_cases hfirst : SettlesAt r first
    · exact ⟨first, hfirst⟩
    · rw [if_neg hfirst] at h
      exact ih (first + 1) h

end

/-- More fuel does not change what is returned. -/
theorem parseAttempts_mono {text : JsString} {fuel first : Nat} {result : Option JsonValue}
    (h : parseAttempts text fuel first = some result) {fuel' : Nat} (hle : fuel ≤ fuel') :
    parseAttempts text fuel' first = some result := by
  induction fuel generalizing first fuel' with
  | zero => cases h
  | succ fuel ih =>
    obtain ⟨more, rfl⟩ := Nat.exists_eq_add_of_le' (Nat.le_of_add_left_le hle)
    rw [parseAttempts] at h ⊢
    cases hrewrite : rewriteNonFinite text (placeholderKey first) with
    | none =>
      rw [hrewrite] at h
      exact h
    | some rewritten =>
      rw [hrewrite] at h
      dsimp only at h ⊢
      cases hparse : jsonParse rewritten.1 with
      | none =>
        rw [hparse] at h
        exact h
      | some parsed =>
        rw [hparse] at h
        dsimp only at h ⊢
        by_cases hcount : (internalize (placeholderKey first) parsed).2 = rewritten.2
        · rw [if_pos hcount] at h ⊢
          exact h
        · rw [if_neg hcount] at h ⊢
          exact ih h (by omega)

/-- The loop ends where the text is refused or an attempt settles. -/
theorem terminates_iff (text : JsString) : Terminates text ↔ ∀ r, parse true text = some r → ∃ attempt,
    SettlesAt r attempt := by
  constructor
  · intro h r hr
    obtain ⟨fuel, hfuel⟩ := h
    by_cases hzero : barewords r = 0
    · -- no bareword is lost
      obtain ⟨attempt, hattempt, -⟩ := revived_of_zero hzero
      exact ⟨attempt, hattempt⟩
    · exact settles_of_isSome hr hzero fuel 0 hfuel
  · intro h
    cases hr : parse true text with
    | none =>
      refine ⟨1, ?_⟩
      rw [parseJsonAllowingNonFinite, parseAttempts_of_none 0 0 hr]
      rfl
    | some r =>
      obtain ⟨attempt, hsettles⟩ := h r hr
      obtain ⟨later, -, heq⟩ := parseAttempts_of_settles hr hsettles (attempt + 1) 0 (Nat.zero_le _) (by omega)
      refine ⟨attempt + 1, ?_⟩
      rw [parseJsonAllowingNonFinite, heq]
      rfl

/-- A second value for a key loses the bareword of the first, and each attempt writes one more than it revives. -/
theorem terminates_duplicate_fails : ¬ Terminates (units "\x7b\"a\":NaN,\"a\":1\x7d") := by
  rw [terminates_iff]
  intro h
  have hparse : parse true (units "\x7b\"a\":NaN,\"a\":1\x7d") =
      some (.object [(units "a", .number (.nonFinite 2)), (units "a", .number (.text (units "1")))]) := rfl
  obtain ⟨attempt, hsettles⟩ := h _ hparse
  have hkept : kept (.object [(units "a", .number (.nonFinite 2)), (units "a", .number (.text (units "1")))]) =
      (.object [(units "a", .number (.text (units "1")))] : Source) := rfl
  have hnone : lookalikes (placeholderKey attempt) (.object [(units "a", .number (toNumber (units "1")))]) = 0 := by
    have hkey : units "a" ≠ placeholderKey attempt := by
      intro heq
      have hlength := congrArg List.length heq
      rw [length_placeholderKey] at hlength
      rw [show (units "a").length = 1 from rfl] at hlength
      omega
    simp [lookalikes, lookalikesFields, nonFinitePlaceholderIndex, hkey]
  have hvalue : sourceValue
    (.object [(units "a", .number (.nonFinite 2)), (units "a", .number (.text (units "1")))]) =
      .object [(units "a", .number (toNumber (units "1")))] := by
    rw [sourceValue_eq, hkept]
    rfl
  rw [SettlesAt, hkept, hvalue, hnone] at hsettles
  cases hsettles

/-- Where no key is given twice, no bareword is lost, and what is returned is the value of the text. -/
theorem parsed_of_noDuplicates {text : JsString} (h : ∀ r, parse true text = some r → r.NoDuplicates) :
    ∃ enough, ∀ fuel, enough ≤ fuel → parseJsonAllowingNonFinite text fuel = some
      ((parse true text).map sourceValue) := by
  cases hr : parse true text with
  | none =>
    refine ⟨1, fun fuel hfuel => ?_⟩
    obtain ⟨fuel, rfl⟩ := Nat.exists_eq_add_of_le' hfuel
    exact parseAttempts_of_none fuel 0 hr
  | some r =>
    have hkept : barewords r.kept = barewords r := weight_kept Literal.barewords (h r hr)
    obtain ⟨attempt, hattempt⟩ := exists_settles_of_kept hkept
    refine ⟨attempt + 1, fun fuel hfuel => ?_⟩
    obtain ⟨later, hlater, heq⟩ := parseAttempts_of_settles hr (hattempt attempt le_rfl) fuel 0
      (Nat.zero_le _) (by omega)
    -- all barewords are kept, so nothing of the text looks like a placeholder of the attempt
    have hnone : lookalikes (placeholderKey later) (sourceValue r) = 0 := by
      rw [SettlesAt, hkept] at hlater
      omega
    rw [parseJsonAllowingNonFinite, heq, revived_of_none _ hnone]
    rfl

/-- Without duplicate keys the text is read as one of the extended grammar. -/
theorem parseJsonAllowingNonFinite_eq {text : JsString} (h : ∀ r, parse true text = some r → r.NoDuplicates) :
    (∃ enough, ∀ fuel, enough ≤ fuel →
      parseJsonAllowingNonFinite text fuel = some ((parse true text).map sourceValue)) ∧
    ∀ v, jsonParse text = some v → (parse true text).map sourceValue = some v := by
  refine ⟨parsed_of_noDuplicates h, fun v hv => ?_⟩
  obtain ⟨r, hr, rfl⟩ := Option.map_eq_some_iff.mp hv
  rw [parse_extends hr]
  rfl

theorem parseJsonAllowingNonFinite_imitation :
    ∃ enough, ∀ fuel, enough ≤ fuel →
      parseJsonAllowingNonFinite (units "[NaN,\"\\\"NaN\",\x7b\"__nonFinite__\":2\x7d]") fuel =
        some (some (.array [.number .nan, .string (units "\"NaN"),
          .object [(units "__nonFinite__", .number (.finite 2))]])) := by
  have hparse : parse true (units "[NaN,\"\\\"NaN\",\x7b\"__nonFinite__\":2\x7d]") =
      some (.array [.number (.nonFinite 2), .string (units "\"NaN"),
        .object [(units "__nonFinite__", .number (.text (units "2")))]]) := rfl
  have hnodup : ∀ r, parse true (units "[NaN,\"\\\"NaN\",\x7b\"__nonFinite__\":2\x7d]") = some r →
    r.NoDuplicates := by
    intro r hr
    rw [hparse] at hr
    cases hr
    simp [NoDuplicates, noDuplicatesElements, noDuplicatesFields]
  obtain ⟨enough, henough⟩ := (parseJsonAllowingNonFinite_eq hnodup).1
  refine ⟨enough, fun fuel hfuel => ?_⟩
  have htwo : toNumber (units "2") = .finite 2 := toNumber_index 2
  rw [henough fuel hfuel, hparse, ← htwo]
  rfl

end ConfluentKafka
