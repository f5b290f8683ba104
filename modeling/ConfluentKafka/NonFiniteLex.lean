import Mathlib.Data.Bool.AllAny
import ConfluentKafka.NonFinite

/-!
# The rewritten text

The tokens of the rewritten text are the tokens of the extended grammar with a placeholder in the place
of each bareword: the loop that rewrites and the lexer agree on where strings are, and a bareword that
the loop leaves alone is followed by another value, which no grammar allows.
-/

namespace ConfluentKafka

namespace Json

/-! ## Reading in parts -/

def lexRun (extended : Bool) (st : LexState) : JsString → Option (List Token × LexState)
  | [] => some ([], st)
  | c :: s => (step extended c st).bind fun r => (lexRun extended r.2 s).map fun r' => (r.1 ++ r'.1, r'.2)

theorem lexFrom_append (extended : Bool) (st : LexState) (s s' : JsString) :
    lexFrom extended st (s ++ s') = (lexRun extended st s).bind fun r => (lexFrom extended r.2 s').map fun ts =>
      r.1 ++ ts := by
  induction s generalizing st with
  | nil => simp [lexRun]
  | cons c s ih =>
    rw [List.cons_append, lexFrom, lexRun]
    cases step extended c st with
    | none => rfl
    | some r =>
      simp only [Option.bind_some, ih]
      cases lexRun extended r.2 s with
      | none => rfl
      | some r' => simp [List.append_assoc, Function.comp_def]

theorem lexFrom_of_run {extended : Bool} {st st' : LexState} {s : JsString} {ts : List Token}
    (h : lexRun extended st s = some (ts, st')) (s' : JsString) :
    lexFrom extended st (s ++ s') = (lexFrom extended st' s').map fun ts' => ts ++ ts' := by
  rw [lexFrom_append, h, Option.bind_some]

theorem lexRun_append {extended : Bool} {st st' : LexState} {s : JsString} {ts : List Token}
    (h : lexRun extended st s = some (ts, st')) (s' : JsString) :
    lexRun extended st (s ++ s') = (lexRun extended st' s').map fun r => (ts ++ r.1, r.2) := by
  induction s generalizing st ts with
  | nil =>
    rw [lexRun, Option.some.injEq, Prod.mk.injEq] at h
    obtain ⟨rfl, rfl⟩ := h
    simp
  | cons c s ih =>
    rw [lexRun] at h
    obtain ⟨r, hr, h⟩ := Option.bind_eq_some_iff.mp h
    obtain ⟨r', hr', heq⟩ := Option.map_eq_some_iff.mp h
    obtain ⟨rfl, rfl⟩ := Prod.mk.inj heq
    rw [List.cons_append, lexRun, hr, Option.bind_some, ih hr', Option.map_map]
    simp [Function.comp_def, List.append_assoc]

theorem lexFrom_cons_eq_some {extended : Bool} {st : LexState} {c : UInt16} {s : JsString} {ts : List Token}
    (h : lexFrom extended st (c :: s) = some ts) :
    ∃ ts₁ st' ts₂, step extended c st = some (ts₁, st') ∧ lexFrom extended st' s = some ts₂ ∧ ts = ts₁ ++ ts₂ := by
  rw [lexFrom] at h
  obtain ⟨r, hr, h⟩ := Option.bind_eq_some_iff.mp h
  obtain ⟨ts₂, hts₂, rfl⟩ := Option.map_eq_some_iff.mp h
  exact ⟨r.1, r.2, ts₂, hr, hts₂, rfl⟩

theorem lexFrom_cons_of_step {extended : Bool} {st st' : LexState} {c : UInt16} {s : JsString}
    {ts₁ ts₂ : List Token}
    (hstep : step extended c st = some (ts₁, st')) (h : lexFrom extended st' s = some ts₂) :
    lexFrom extended st (c :: s) = some (ts₁ ++ ts₂) := by
  rw [lexFrom, hstep, Option.bind_some, h]
  rfl

/-! ## States -/

def Outside : LexState → Prop
  | .start | .number _ _ | .word _ _ => True
  | .string _ | .escape _ | .hex _ _ _ => False

def Inside : LexState → Prop
  | .string _ | .hex _ _ _ => True
  | .start | .number _ _ | .word _ _ | .escape _ => False

def Token.Plain (t : Token) : Prop := ∀ k, t ≠ .nonFinite k

def Plain : LexState → Prop
  | .word rest t => (∀ c ∈ rest, 97 ≤ c.toNat ∧ c.toNat ≤ 122) ∧ t.Plain
  | _ => True

section

variable {c : UInt16} {st st' : LexState} {ts : List Token}

theorem literal_plain {w : JsString × Token} (h : literal false c = some w) :
    literal true c = some w ∧ (∀ d ∈ w.1, 97 ≤ d.toNat ∧ d.toNat ≤ 122) ∧ w.2.Plain := by
  unfold literal at h ⊢
  split_ifs at h with h₁ h₂ h₃ h₄ h₅
  · cases h
    exact ⟨if_pos h₁, List.all_iff_forall_prop.mp (by decide), fun k heq => by cases heq⟩
  · cases h
    rw [if_neg h₁, if_pos h₂]
    exact ⟨rfl, List.all_iff_forall_prop.mp (by decide), fun k heq => by cases heq⟩
  · cases h
    rw [if_neg h₁, if_neg h₂, if_pos h₃]
    exact ⟨rfl, List.all_iff_forall_prop.mp (by decide), fun k heq => by cases heq⟩
  · exact absurd h₄.1 (by simp)
  · exact absurd h₅.1 (by simp)

theorem punctuator_plain {t : Token} (h : punctuator c = some t) : t.Plain := by
  unfold punctuator at h
  split_ifs at h
  all_goals
    cases h
    exact fun k heq => by cases heq

/-- What begins a token of the grammar begins it in the extended grammar too. -/
theorem start_plain (h : start false c = some (ts, st')) :
    start true c = some (ts, st') ∧ (∀ t ∈ ts, t.Plain) ∧ Plain st' := by
  unfold start at h ⊢
  by_cases hspace : isSpace c = true
  · rw [if_pos hspace] at h ⊢
    cases h
    exact ⟨rfl, by simp, trivial⟩
  rw [if_neg hspace] at h ⊢
  cases hp : punctuator c with
  | some t =>
    rw [hp] at h
    cases h
    exact ⟨rfl, by simpa using punctuator_plain hp, trivial⟩
  | none =>
    rw [hp] at h
    dsimp only at h ⊢
    by_cases hquote : c = unit '"'
    · rw [if_pos hquote] at h ⊢
      cases h
      exact ⟨rfl, by simp, trivial⟩
    rw [if_neg hquote] at h ⊢
    cases hf : Phase.first c with
    | some p =>
      rw [hf] at h
      cases h
      exact ⟨rfl, by simp, trivial⟩
    | none =>
      rw [hf] at h
      obtain ⟨w, hw, heq⟩ := Option.map_eq_some_iff.mp h
      cases heq
      obtain ⟨hext, hrest, ht⟩ := literal_plain hw
      exact ⟨by simp [hext], by simp, hrest, ht⟩

theorem step_plain (hst : Plain st) (h : step false c st = some (ts, st')) :
    step true c st = some (ts, st') ∧ (∀ t ∈ ts, t.Plain) ∧ Plain st' := by
  cases st with
  | start => exact start_plain h
  | word rest t =>
    cases rest with
    | nil => cases h
    | cons d rest =>
      cases rest with
      | nil =>
        rw [step] at h ⊢
        split at h
        · next heq =>
          cases h
          rw [if_pos heq]
          exact ⟨rfl, by simpa using hst.2, trivial⟩
        · cases h
      | cons d' rest =>
        rw [step] at h ⊢
        split at h
        · next heq =>
          cases h
          rw [if_pos heq]
          exact ⟨rfl, by simp, fun e he => hst.1 e (List.mem_cons_of_mem _ he), hst.2⟩
        · cases h
        · exact List.cons_ne_nil _ _
        · exact List.cons_ne_nil _ _
  | number p text =>
    rw [step] at h ⊢
    cases hnext : p.next c with
    | some p' =>
      rw [hnext] at h
      cases h
      exact ⟨rfl, by simp, trivial⟩
    | none =>
      rw [hnext] at h
      dsimp only at h ⊢
      by_cases hacc : p.accepting = true
      · rw [if_pos hacc] at h ⊢
        obtain ⟨r, hr, heq⟩ := Option.map_eq_some_iff.mp h
        cases heq
        obtain ⟨hext, hts, hst'⟩ := start_plain hr
        rw [hext]
        refine ⟨rfl, ?_, hst'⟩
        rw [List.forall_mem_cons]
        exact ⟨fun k heq => (by cases heq), hts⟩
      · rw [if_neg hacc, if_neg (by simp)] at h
        cases h
  | string s =>
    have htrue : step true c (.string s) = step false c (.string s) := rfl
    rw [htrue]
    refine ⟨h, ?_⟩
    rw [step] at h
    split_ifs at h
    all_goals
      cases h
      exact ⟨by simp [Token.Plain], trivial⟩
  | escape s =>
    have htrue : step true c (.escape s) = step false c (.escape s) := rfl
    rw [htrue]
    refine ⟨h, ?_⟩
    rw [step] at h
    split at h
    · cases h
      exact ⟨by simp, trivial⟩
    · obtain ⟨d, -, heq⟩ := Option.map_eq_some_iff.mp h
      cases heq
      exact ⟨by simp, trivial⟩
  | hex s digits value =>
    have htrue : step true c (.hex s digits value) = step false c (.hex s digits value) := rfl
    rw [htrue]
    refine ⟨h, ?_⟩
    rw [step] at h
    obtain ⟨d, -, heq⟩ := Option.map_eq_some_iff.mp h
    split at heq
    · cases heq
      exact ⟨by simp, trivial⟩
    · cases heq
      exact ⟨by simp, trivial⟩

theorem lexFrom_plain {s : JsString} (hst : Plain st) (h : lexFrom false st s = some ts) :
    lexFrom true st s = some ts := by
  induction s generalizing st ts with
  | nil => exact h
  | cons c s ih =>
    obtain ⟨ts₁, st₁, ts₂, hstep, hrest, rfl⟩ := lexFrom_cons_eq_some h
    obtain ⟨hext, -, hplain⟩ := step_plain hst hstep
    exact lexFrom_cons_of_step hext (ih hplain hrest)

theorem parse_extends {s : JsString} {t : Source} (h : parse false s = some t) : parse true s = some t := by
  obtain ⟨ts, hlex, hparse⟩ := Option.bind_eq_some_iff.mp h
  exact Option.bind_eq_some_iff.mpr ⟨ts, lexFrom_plain trivial hlex, hparse⟩

/-- Only two units begin what the grammar does not have. -/
theorem start_of_ne (hN : c ≠ unit 'N') (hI : c ≠ unit 'I') : start true c = start false c := by
  have hliteral : literal true c = literal false c := by
    unfold literal
    rw [if_neg (c := true = true ∧ c = unit 'I') (fun h => hI h.2), if_neg (c := true = true ∧ c = unit 'N')
      (fun h => hN h.2)]
    simp
  unfold start
  rw [hliteral]

theorem step_of_ne (hN : c ≠ unit 'N') (hI : c ≠ unit 'I') : step true c st = step false c st := by
  cases st with
  | start => exact start_of_ne hN hI
  | number p text =>
    rw [step, step, start_of_ne hN hI]
    simp [hI]
  | word rest t =>
    cases rest with
    | nil => rfl
    | cons d rest =>
      cases rest with
      | nil => rfl
      | cons d' rest => rfl
  | string s => rfl
  | escape s => rfl
  | hex s digits value => rfl

theorem start_outside {extended : Bool} (hc : c ≠ unit '"') (h : start extended c = some (ts, st')) :
    Outside st' := by
  unfold start at h
  by_cases hspace : isSpace c = true
  · rw [if_pos hspace] at h
    cases h
    trivial
  rw [if_neg hspace] at h
  cases hp : punctuator c with
  | some t =>
    rw [hp] at h
    cases h
    trivial
  | none =>
    rw [hp] at h
    dsimp only at h
    rw [if_neg hc] at h
    cases hf : Phase.first c with
    | some p =>
      rw [hf] at h
      cases h
      trivial
    | none =>
      rw [hf] at h
      obtain ⟨w, -, heq⟩ := Option.map_eq_some_iff.mp h
      cases heq
      trivial

theorem step_outside {extended : Bool} (hst : Outside st) (hc : c ≠ unit '"')
    (h : step extended c st = some (ts, st')) :
    Outside st' := by
  cases st with
  | start => exact start_outside hc h
  | word rest t =>
    cases rest with
    | nil => cases h
    | cons d rest =>
      cases rest with
      | nil =>
        rw [step] at h
        split_ifs at h
        cases h
        trivial
      | cons d' rest =>
        rw [step] at h
        · split_ifs at h
          cases h
          trivial
        · exact List.cons_ne_nil _ _
  | number p text =>
    rw [step] at h
    split at h
    · cases h
      trivial
    · split_ifs at h
      · obtain ⟨r, hr, heq⟩ := Option.map_eq_some_iff.mp h
        cases heq
        exact start_outside hc hr
      · cases h
        trivial
  | string s => exact hst.elim
  | escape s => exact hst.elim
  | hex s digits value => exact hst.elim

end

/-! ## Words -/

theorem lexFrom_word {extended : Bool} {t : Token} {s : JsString} {ts : List Token} (rest : JsString)
    (h : lexFrom extended (.word rest t) s = some ts) :
    ∃ s' ts', s = rest ++ s' ∧ lexFrom extended .start s' = some ts' ∧ ts = t :: ts' := by
  induction rest generalizing s with
  | nil =>
    cases s with
    | nil => cases h
    | cons c s => cases h
  | cons d rest ih =>
    cases s with
    | nil => cases h
    | cons c s =>
      obtain ⟨ts₁, st', ts₂, hstep, hrest, rfl⟩ := lexFrom_cons_eq_some h
      cases rest with
      | nil =>
        rw [step] at hstep
        split_ifs at hstep with hc
        cases hstep
        exact ⟨s, ts₂, by rw [hc, List.singleton_append], hrest, rfl⟩
      | cons d' rest =>
        rw [step] at hstep
        · split_ifs at hstep with hc
          cases hstep
          obtain ⟨s', ts', rfl, hs', rfl⟩ := ih hrest
          exact ⟨s', ts', by rw [hc]; rfl, hs', rfl⟩
        · exact List.cons_ne_nil _ _

theorem literal_scalar {extended : Bool} {c : UInt16} {w : JsString × Token} (h : literal extended c = some w) :
    w.2.scalar.isSome := by
  unfold literal at h
  split_ifs at h
  all_goals
    cases h
    rfl

theorem lexFrom_number {extended : Bool} {s : JsString} {ts : List Token} (p : Phase) (text : JsString)
    (h : lexFrom extended (.number p text) s = some ts) : ∃ t ts', ts = t :: ts' ∧ t.scalar.isSome := by
  induction s generalizing p text ts with
  | nil =>
    rw [lexFrom, finish] at h
    split_ifs at h
    cases h
    exact ⟨_, [], rfl, rfl⟩
  | cons c s ih =>
    obtain ⟨ts₁, st', ts₂, hstep, hrest, rfl⟩ := lexFrom_cons_eq_some h
    rw [step] at hstep
    split at hstep
    · cases hstep
      exact ih _ _ hrest
    · split_ifs at hstep
      · obtain ⟨r, -, heq⟩ := Option.map_eq_some_iff.mp hstep
        cases heq
        exact ⟨_, _, rfl, rfl⟩
      · cases hstep
        obtain ⟨s', ts', -, -, rfl⟩ := lexFrom_word _ hrest
        exact ⟨_, ts', rfl, rfl⟩

/-- What may be a part of a bareword begins a value, where it begins anything. -/
theorem lexFrom_barewordChar {extended : Bool} {c : UInt16} {s : JsString} {ts : List Token}
    (hc : isBarewordChar c = true)
    (h : lexFrom extended .start (c :: s) = some ts) : ∃ t ts', ts = t :: ts' ∧ t.scalar.isSome := by
  have hrange : 48 ≤ c.toNat ∧ c.toNat ≤ 57 ∨ 65 ≤ c.toNat ∧ c.toNat ≤ 90 ∨ 95 ≤ c.toNat ∧ c.toNat ≤ 122 := by
    simp only [isBarewordChar, UInt16.le_iff_toNat_le, ← UInt16.toNat_inj, decide_eq_true_eq] at hc
    change (97 ≤ c.toNat ∧ c.toNat ≤ 122) ∨ (65 ≤ c.toNat ∧ c.toNat ≤ 90) ∨ (48 ≤ c.toNat ∧ c.toNat ≤ 57) ∨
      c.toNat = 95 at hc
    omega
  have hne : ∀ d : UInt16, d.toNat < 48 ∨ 57 < d.toNat ∧ d.toNat < 65 ∨ 90 < d.toNat ∧ d.toNat < 95 ∨
    122 < d.toNat → c ≠ d := by
    intro d hd heq
    subst heq
    omega
  obtain ⟨ts₁, st', ts₂, hstep, hrest, rfl⟩ := lexFrom_cons_eq_some h
  have hspace : isSpace c = false := by
    simp [isSpace, hne]
  have hpunctuator : punctuator c = none := by
    unfold punctuator
    rw [if_neg (hne _ (by decide)), if_neg (hne _ (by decide)), if_neg (hne _ (by decide)),
      if_neg (hne _ (by decide)),
      if_neg (hne _ (by decide)), if_neg (hne _ (by decide))]
  rw [step, start, hspace, hpunctuator] at hstep
  dsimp only at hstep
  rw [if_neg Bool.false_ne_true, if_neg (hne _ (by decide))] at hstep
  split at hstep
  · cases hstep
    exact lexFrom_number _ _ hrest
  · obtain ⟨w, hw, heq⟩ := Option.map_eq_some_iff.mp hstep
    cases heq
    obtain ⟨s', ts', -, -, rfl⟩ := lexFrom_word _ hrest
    exact ⟨_, ts', rfl, literal_scalar hw⟩

/-! ## Barewords -/

theorem startsWithBareword_iff {s : JsString} {k : Fin 3} :
    startsWithBareword s k = true ↔
      ∃ s', s = (NON_FINITE_LITERALS k).1 ++ s' ∧ s'.head?.any isBarewordChar = false := by
  unfold startsWithBareword
  dsimp only
  rw [Bool.and_eq_true, List.isPrefixOf_iff_prefix, Bool.not_eq_true']
  constructor
  · rintro ⟨⟨s', rfl⟩, h⟩
    rw [List.drop_left] at h
    exact ⟨s', rfl, h⟩
  · rintro ⟨s', rfl, h⟩
    rw [List.drop_left]
    exact ⟨List.prefix_append _ _, h⟩

theorem startsWithBareword_of_match {s : JsString} {k : Fin 3} (h : matchNonFinite s = some k) :
    startsWithBareword s k = true := by
  unfold matchNonFinite at h
  split_ifs at h with h₀ h₁ h₂
  all_goals
    cases h
    assumption

theorem not_startsWithBareword {s : JsString} (h : matchNonFinite s = none) (k : Fin 3) :
    startsWithBareword s k = false := by
  unfold matchNonFinite at h
  split_ifs at h with h₀ h₁ h₂
  match k with
  | 0 => exact Bool.eq_false_iff.mpr h₀
  | 1 => exact Bool.eq_false_iff.mpr h₁
  | 2 => exact Bool.eq_false_iff.mpr h₂

/-- A sign before `Infinity` is a part of the bareword. -/
theorem startsWithBareword_minus (s : JsString) : startsWithBareword (unit '-' :: s) 0 = startsWithBareword s 1 :=
  rfl

def Separated (ts : List Token) : Prop := ts.IsChain fun t t' => (∃ k, t = .nonFinite k) → t'.scalar = none

/-- A bareword that is left alone is followed by what begins another value. -/
theorem startsWithBareword_of_separated {j : Fin 3} (k : Fin 3) {s : JsString} {ts : List Token}
    (h : lexFrom true .start s = some ts)
    (hsep : Separated (.nonFinite j :: ts)) : startsWithBareword ((NON_FINITE_LITERALS k).1 ++ s) k = true := by
  refine startsWithBareword_iff.mpr ⟨s, rfl, ?_⟩
  cases s with
  | nil => rfl
  | cons c s =>
    rw [List.head?_cons, Option.any_some]
    by_contra hc
    obtain ⟨t, ts', rfl, ht⟩ := lexFrom_barewordChar (Bool.not_eq_false _ ▸ hc) h
    have hnone := (List.isChain_cons_cons.mp hsep).1 ⟨j, rfl⟩
    rw [hnone] at ht
    cases ht

theorem lexRun_bareword (k : Fin 3) : lexRun true .start (NON_FINITE_LITERALS k).1 = some
    ([.nonFinite k], .start) := by
  match k with
  | 0 => rfl
  | 1 => rfl
  | 2 => rfl

theorem lexRun_string (extended : Bool) {key : JsString} (hkey : ∀ c ∈ key, c ≠ unit '"' ∧
    c ≠ unit '\\' ∧ 32 ≤ c.toNat)
    (s : JsString) : lexRun extended (.string s) key = some ([], .string (s ++ key)) := by
  induction key generalizing s with
  | nil => rw [lexRun, List.append_nil]
  | cons c key ih =>
    obtain ⟨hquote, hbackslash, hcontrol⟩ := hkey c List.mem_cons_self
    have hstep : step extended c (.string s) = some ([], .string (s ++ [c])) := by
      rw [step, if_neg hquote, if_neg hbackslash, if_neg (by omega)]
    rw [lexRun, hstep, Option.bind_some, ih fun d hd => hkey d (List.mem_cons_of_mem _ hd)]
    simp

def Token.planted (key : JsString) : Token → List Token
  | .nonFinite k => [.lbrace, .string key, .colon, .number [UInt16.ofNat (48 + k.val)], .rbrace]
  | t => [t]

theorem lexRun_placeholder {extended : Bool} {key : JsString}
    (hkey : ∀ c ∈ key, c ≠ unit '"' ∧ c ≠ unit '\\' ∧ 32 ≤ c.toNat) (k : Fin 3) :
    lexRun extended .start (placeholder key k) = some (Token.planted key (.nonFinite k), .start) := by
  have hopen : lexRun extended .start (units "\x7b\"") = some ([.lbrace], .string []) := rfl
  have hclose : lexRun extended (.string key) (units "\":") = some ([.string key, .colon], .start) := rfl
  have hnumber : lexRun extended .start ([UInt16.ofNat (48 + k.val)] ++ units "\x7d") =
      some ([.number [UInt16.ofNat (48 + k.val)], .rbrace], .start) := by
    match k with
    | 0 => rfl
    | 1 => rfl
    | 2 => rfl
  have hstring := lexRun_string extended hkey []
  rw [List.nil_append] at hstring
  have hkeyRun : lexRun extended .start (units "\x7b\"" ++ key) = some ([.lbrace], .string key) := by
    rw [lexRun_append hopen, hstring, Option.map_some, List.append_nil]
  have hcolon : lexRun extended .start (units "\x7b\"" ++ key ++ units "\":") =
      some ([.lbrace] ++ [.string key, .colon], .start) := by
    rw [lexRun_append hkeyRun, hclose, Option.map_some]
  rw [placeholder, List.append_assoc (units "\x7b\"" ++ key ++ units "\":"), lexRun_append hcolon, hnumber]
  rfl

/-! ## Where a bareword stands -/

section

variable {extended : Bool} {st st' : LexState} {c : UInt16} {s : JsString} {ts ts₀ : List Token}

theorem step_of_finish (h : finish st = some ts₀) (hnext : ∀ p : Phase, p.accepting = true → p.next c = none) :
    step extended c st = (start extended c).map fun r => (ts₀ ++ r.1, r.2) := by
  cases st with
  | start =>
    cases h
    simp [step]
  | number p text =>
    rw [finish] at h
    split_ifs at h with hp
    cases h
    rw [step, hnext p hp, if_pos hp]
    rfl
  | word rest t => cases h
  | string s => cases h
  | escape s => cases h
  | hex s digits value => cases h

theorem finish_plain (h : finish st = some ts₀) : ∀ t ∈ ts₀, t.Plain := by
  cases st with
  | start =>
    cases h
    simp
  | number p text =>
    rw [finish] at h
    split_ifs at h
    cases h
    simp [Token.Plain]
  | _ => cases h

theorem lexRun_of_finish (h : finish st = some ts₀) (hnext : ∀ p : Phase, p.accepting = true → p.next c = none) :
    lexRun extended st (c :: s) = (lexRun extended .start (c :: s)).map fun r => (ts₀ ++ r.1, r.2) := by
  rw [lexRun, lexRun, step_of_finish h hnext, step]
  cases start extended c with
  | none => rfl
  | some r =>
    simp only [Option.map_some, Option.bind_some, Option.map_map]
    exact congrArg (Option.map · _) (funext fun r' => by simp [List.append_assoc])

theorem next_eq_none {p : Phase} (hp : p.accepting = true) :
    ∀ c ∈ [unit '\x7b', unit '-', unit 'I', unit 'N'], p.next c = none := by
  cases p with
  | zero => exact List.all_iff_forall_prop.mp (by decide)
  | int => exact List.all_iff_forall_prop.mp (by decide)
  | frac => exact List.all_iff_forall_prop.mp (by decide)
  | exp => exact List.all_iff_forall_prop.mp (by decide)
  | minus => cases hp
  | dot => cases hp
  | e => cases hp
  | esign => cases hp

theorem bareword_eq_cons (k : Fin 3) :
    ∃ c s, (NON_FINITE_LITERALS k).1 = c :: s ∧ c ∈ [unit '\x7b', unit '-', unit 'I', unit 'N'] ∧ c.toNat < 97 ∧
      c ≠ unit '"' := by
  match k with
  | 0 => exact ⟨_, _, rfl, by decide, by decide, by decide⟩
  | 1 => exact ⟨_, _, rfl, by decide, by decide, by decide⟩
  | 2 => exact ⟨_, _, rfl, by decide, by decide, by decide⟩

/-- No literal goes on with a unit that is not a small letter. -/
theorem step_word {rest : JsString} {t : Token} (hrest : ∀ d ∈ rest, 97 ≤ d.toNat ∧ d.toNat ≤ 122)
    (hc : c.toNat < 97 ∨ 122 < c.toNat) : step extended c (.word rest t) = none := by
  cases rest with
  | nil => rfl
  | cons d rest =>
    have hne : c ≠ d := by
      intro heq
      have := hrest d List.mem_cons_self
      rw [← heq] at this
      omega
    cases rest with
    | nil => rw [step, if_neg hne]
    | cons d' rest =>
      rw [step, if_neg hne]
      exact List.cons_ne_nil _ _

/-- A brace is read where a value may begin. -/
theorem finish_of_brace (hout : Outside st) (hplain : Plain st) (h : step false (unit '\x7b') st = some (ts, st')) :
    ∃ ts₀, finish st = some ts₀ := by
  cases st with
  | start => exact ⟨[], rfl⟩
  | word rest t =>
    rw [step_word hplain.1 (.inr (by decide))] at h
    cases h
  | number p text =>
    by_cases hp : p.accepting = true
    · exact ⟨_, if_pos hp⟩
    · have hnext : p.next (unit '\x7b') = none := by
        cases p with
        | _ => rfl
      rw [step, hnext] at h
      simp [hp] at h
  | _ => exact hout.elim

/-- A bareword is read where a value may begin, unless its sign has been read already. -/
theorem finish_of_bareword {k : Fin 3} (hout : Outside st) (hplain : Plain st)
    (hminus : ∀ text, st = .number .minus text → k ≠ 1)
    (h : lexFrom true st ((NON_FINITE_LITERALS k).1 ++ s) = some ts) :
    ∃ ts₀, finish st = some ts₀ := by
  cases st with
  | start => exact ⟨[], rfl⟩
  | word rest t =>
    obtain ⟨c, s', hlit, -, hc, -⟩ := bareword_eq_cons k
    rw [hlit] at h
    obtain ⟨_, _, _, hstep, -, -⟩ := lexFrom_cons_eq_some h
    rw [step_word hplain.1 (.inl hc)] at hstep
    cases hstep
  | number p text =>
    by_cases hp : p.accepting = true
    · exact ⟨_, if_pos hp⟩
    -- behind an `e` a sign may stand, and then digits; behind a sign only `Infinity`
    have hnone : lexRun true (.number p text) (NON_FINITE_LITERALS k).1 = none := by
      cases p with
      | zero => exact absurd rfl hp
      | int => exact absurd rfl hp
      | frac => exact absurd rfl hp
      | exp => exact absurd rfl hp
      | minus =>
        match k, hminus text rfl with
        | 0, _ => rfl
        | 1, hne => exact absurd rfl hne
        | 2, _ => rfl
      | dot =>
        match k with
        | 0 => rfl
        | 1 => rfl
        | 2 => rfl
      | e =>
        match k with
        | 0 => rfl
        | 1 => rfl
        | 2 => rfl
      | esign =>
        match k with
        | 0 => rfl
        | 1 => rfl
        | 2 => rfl
    rw [lexFrom_append, hnone] at h
    cases h
  | string s => exact hout.elim
  | escape s => exact hout.elim
  | hex s digits value => exact hout.elim

theorem start_bareword (hc : c = unit 'N' ∨ c = unit 'I') :
    ∃ rest k, start true c = some ([], .word rest (.nonFinite k)) ∧ (NON_FINITE_LITERALS k).1 = c :: rest := by
  rcases hc with rfl | rfl
  · exact ⟨_, 2, rfl, rfl⟩
  · exact ⟨_, 1, rfl, rfl⟩

/-- A unit that the grammar does not have begins a bareword, or what a sign has begun. -/
theorem step_bareword (hout : Outside st) (hplain : Plain st) (hc : c = unit 'N' ∨ c = unit 'I')
    (hne : step true c st ≠ step false c st) :
    ∃ ts₀ rest j k, step true c st = some (ts₀, .word rest (.nonFinite j)) ∧ (NON_FINITE_LITERALS k).1 =
      c :: rest := by
  have hnext : ∀ p : Phase, p.accepting = true → p.next c = none := by
    intro p hp
    refine next_eq_none hp c ?_
    rcases hc with rfl | rfl
    · decide
    · decide
  obtain ⟨rest, k, hstart, hlit⟩ := start_bareword hc
  cases st with
  | start => exact ⟨[], rest, k, k, hstart, hlit⟩
  | word rest t =>
    have hsmall : c.toNat < 97 := by
      rcases hc with rfl | rfl
      · decide
      · decide
    exact absurd (by rw [step_word hplain.1 (.inl hsmall), step_word hplain.1 (.inl hsmall)]) hne
  | number p text =>
    by_cases hp : p.accepting = true
    · have hfinish : finish (.number p text) = some [.number text] := if_pos hp
      refine ⟨[.number text], rest, k, k, ?_, hlit⟩
      rw [step_of_finish hfinish hnext, hstart]
      rfl
    by_cases hminus : p = .minus ∧ c = unit 'I'
    · obtain ⟨rfl, rfl⟩ := hminus
      exact ⟨[], units "nfinity", 0, 1, rfl, rfl⟩
    · refine absurd ?_ hne
      rw [step, step]
      simp [hp, hminus]
  | string s => exact hout.elim
  | escape s => exact hout.elim
  | hex s digits value => exact hout.elim

/-- Where no bareword is found, there is none: behind it another value would begin. -/
theorem step_of_separated (hout : Outside st) (hplain : Plain st) (hmatch : matchNonFinite (c :: s) = none)
    (h : lexFrom true st (c :: s) = some ts) (hsep : Separated ts) : step true c st = step false c st := by
  by_contra hne
  have hc : c = unit 'N' ∨ c = unit 'I' := by
    by_contra hc
    rw [not_or] at hc
    exact hne (step_of_ne hc.1 hc.2)
  obtain ⟨ts₀, rest, j, k, hword, hlit⟩ := step_bareword hout hplain hc hne
  obtain ⟨ts₁, st', ts₂, hstep, hrest, rfl⟩ := lexFrom_cons_eq_some h
  rw [hword] at hstep
  cases hstep
  obtain ⟨s', ts', rfl, hs', rfl⟩ := lexFrom_word _ hrest
  have hstarts := startsWithBareword_of_separated k hs' hsep.right_of_append
  rw [hlit, List.cons_append, not_startsWithBareword hmatch k] at hstarts
  cases hstarts

end

end Json

end ConfluentKafka
