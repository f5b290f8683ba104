import ConfluentKafka.NonFiniteLex

/-!
# What is rewritten

The loop of the rewrite as a relation, and what it does to tokens: the text that it makes is lexed to
the tokens of the text with placeholders for barewords, and to nothing where the text is no text of the
extended grammar.
-/

namespace ConfluentKafka

open Json

/-- The loop from a position on, in a string or outside of one: what is left of the text, what it writes, and
how many barewords it finds. -/
inductive Rewrites (key : JsString) : Bool → JsString → JsString → Nat → Prop
  | done (inString : Bool) : Rewrites key inString [] [] 0
  | escape (d : UInt16) {s out : JsString} {n : Nat} (h : Rewrites key true s out n) :
      Rewrites key true (unit '\\' :: d :: s) (unit '\\' :: d :: out) n
  | inside {c : UInt16} {s out : JsString} {n : Nat} (hc : c ≠ unit '\\' ∨ s = [])
      (h : Rewrites key (decide (c ≠ unit '"')) s out n) : Rewrites key true (c :: s) (c :: out) n
  | quote {s out : JsString} {n : Nat} (h : Rewrites key true s out n) : Rewrites key false (unit '"' :: s)
    (unit '"' :: out) n
  | outside {c : UInt16} {s out : JsString} {n : Nat} (hc : c ≠ unit '"') (hmatch : matchNonFinite (c :: s) = none)
      (h : Rewrites key false s out n) : Rewrites key false (c :: s) (c :: out) n
  | bareword (k : Fin 3) {s out : JsString} {n : Nat}
    (hmatch : matchNonFinite ((NON_FINITE_LITERALS k).1 ++ s) = some k)
      (h : Rewrites key false s out n) : Rewrites key false ((NON_FINITE_LITERALS k).1 ++ s)
      (placeholder key k ++ out) (n + 1)

theorem rewriteFrom_skip (key : JsString) (inString : Bool) (w s : JsString) :
    rewriteFrom key w.length inString (w ++ s) = rewriteFrom key 0 inString s := by
  induction w with
  | nil => rfl
  | cons c w ih => rw [List.length_cons, List.cons_append, rewriteFrom, ih]

theorem rewrites_rewriteFrom (key : JsString) (inString : Bool) (s : JsString) :
    Rewrites key inString s (rewriteFrom key 0 inString s).1 (rewriteFrom key 0 inString s).2 := by
  induction hlen : s.length using Nat.strong_induction_on generalizing inString s with
  | _ n ih =>
  subst hlen
  cases s with
  | nil =>
    cases inString with
    | false => exact .done false
    | true => exact .done true
  | cons c s =>
    cases inString with
    | false =>
      by_cases hquote : c = unit '"'
      · subst hquote
        rw [rewriteFrom, if_pos rfl]
        exact .quote (ih _ (Nat.lt_succ_self _) true s rfl)
      rw [rewriteFrom, if_neg hquote]
      cases hmatch : matchNonFinite (c :: s) with
      | none => exact .outside hquote hmatch (ih _ (Nat.lt_succ_self _) false s rfl)
      | some k =>
        obtain ⟨s', hs, -⟩ := startsWithBareword_iff.mp (startsWithBareword_of_match hmatch)
        obtain ⟨d, w, hlit, -⟩ := bareword_eq_cons k
        have hd : c = d ∧ s = w ++ s' := by
          rw [hlit, List.cons_append] at hs
          exact List.cons.inj hs
        have hskip : rewriteFrom key ((NON_FINITE_LITERALS k).1.length - 1) false s =
          rewriteFrom key 0 false s' := by
          rw [hlit, hd.2]
          exact rewriteFrom_skip key false w s'
        dsimp only
        rw [hskip, hs]
        refine .bareword k (hs ▸ hmatch) (ih _ ?_ false s' rfl)
        rw [hd.2, List.length_cons, List.length_append]
        omega
    | true =>
      cases s with
      | nil => exact .inside (.inr rfl) (.done _)
      | cons d s =>
        by_cases hbackslash : c = unit '\\'
        · subst hbackslash
          rw [rewriteFrom, if_pos rfl]
          exact .escape d (ih _ (by rw [List.length_cons, List.length_cons]; omega) true s rfl)
        · rw [rewriteFrom, if_neg hbackslash]
          exact .inside (.inl hbackslash) (ih _ (Nat.lt_succ_self _) _ (d :: s) rfl)

theorem Rewrites.eq_of_zero {key s out : JsString} {inString : Bool} {n : Nat} (h : Rewrites key inString s out n)
    (hn : n = 0) :
    out = s := by
  induction h with
  | done inString => rfl
  | escape d h ih => rw [ih hn]
  | inside hc h ih => rw [ih hn]
  | quote h ih => rw [ih hn]
  | outside hc hmatch h ih => rw [ih hn]
  | bareword k hmatch h ih => exact absurd hn (Nat.succ_ne_zero _)

theorem Rewrites.eq_zero {key s out : JsString} {inString : Bool} {n : Nat} (h : Rewrites key inString s out n)
    (hN : unit 'N' ∉ s) (hI : unit 'I' ∉ s) : n = 0 := by
  induction h with
  | done inString => rfl
  | escape d h ih => exact ih (by simp_all) (by simp_all)
  | inside hc h ih => exact ih (by simp_all) (by simp_all)
  | quote h ih => exact ih (by simp_all) (by simp_all)
  | outside hc hmatch h ih => exact ih (by simp_all) (by simp_all)
  | bareword k hmatch h ih =>
    rw [List.mem_append, not_or] at hN hI
    match k with
    | 0 => exact absurd (by decide) hI.1
    | 1 => exact absurd (by decide) hI.1
    | 2 => exact absurd (by decide) hN.1

/-! ## Tokens -/

def plantTokens (key : JsString) (ts : List Token) : List Token := ts.flatMap (Token.planted key)

def Json.Token.barewords : Token → Nat
  | .nonFinite _ => 1
  | _ => 0

def barewordTokens (ts : List Token) : Nat := (ts.map Token.barewords).sum

section

variable {key : JsString} {ts ts' : List Token}

theorem plantTokens_append : plantTokens key (ts ++ ts') = plantTokens key ts ++ plantTokens key ts' :=
  List.flatMap_append

theorem barewordTokens_append : barewordTokens (ts ++ ts') = barewordTokens ts + barewordTokens ts' := by
  rw [barewordTokens, List.map_append, List.sum_append]
  rfl

theorem planted_of_plain {t : Token} (h : t.Plain) : t.planted key = [t] ∧ t.barewords = 0 := by
  cases t with
  | nonFinite k => exact absurd rfl (h k)
  | _ => exact ⟨rfl, rfl⟩

theorem plantTokens_of_plain (h : ∀ t ∈ ts, t.Plain) : plantTokens key ts = ts ∧ barewordTokens ts = 0 := by
  induction ts with
  | nil => exact ⟨rfl, rfl⟩
  | cons t ts ih =>
    obtain ⟨ht, hts⟩ := List.forall_mem_cons.mp h
    obtain ⟨hplanted, hnone⟩ : t.planted key = [t] ∧ t.barewords = 0 := planted_of_plain ht
    obtain ⟨hih, hcount⟩ := ih hts
    constructor
    · show t.planted key ++ plantTokens key ts = t :: ts
      rw [hplanted, hih]
      rfl
    · show t.barewords + barewordTokens ts = 0
      rw [hnone, hcount]

end

/-! ## Positions and states -/

/-- The state of the lexer where the loop takes a position to be in a string, or outside of one. -/
def Positioned : Bool → LexState → Prop
  | true, st => Inside st
  | false, st => Outside st ∧ Plain st

section

variable {extended : Bool} {c : UInt16} {st st' : LexState} {ts : List Token}

theorem step_inside_eq (h : Inside st) : step true c st = step false c st := by
  cases st with
  | string s => rfl
  | hex s digits value => rfl
  | _ => exact h.elim

theorem hexDigit_eq_none : hexDigit (unit '"') = none ∧ hexDigit (unit '\\') = none := by decide

theorem step_escape (hst : Inside st) (h : step extended (unit '\\') st = some (ts, st')) : ts = [] ∧ ∃ s,
    st' = .escape s := by
  cases st with
  | string s =>
    cases h
    exact ⟨rfl, s, rfl⟩
  | hex s digits value =>
    rw [step, hexDigit_eq_none.2] at h
    cases h
  | _ => exact hst.elim

theorem step_escaped {s : JsString} (h : step extended c (.escape s) = some (ts, st')) : ts = [] ∧ Inside st' := by
  rw [step] at h
  split_ifs at h
  · cases h
    exact ⟨rfl, trivial⟩
  · obtain ⟨d, -, heq⟩ := Option.map_eq_some_iff.mp h
    cases heq
    exact ⟨rfl, trivial⟩

theorem step_inside (hst : Inside st) (hc : c ≠ unit '\\') (h : step extended c st = some (ts, st')) :
    (∀ t ∈ ts, t.Plain) ∧ Positioned (decide (c ≠ unit '"')) st' := by
  by_cases hquote : c = unit '"'
  · subst hquote
    cases st with
    | string s =>
      cases h
      exact ⟨by simp [Token.Plain], trivial, trivial⟩
    | hex s digits value =>
      rw [step, hexDigit_eq_none.1] at h
      cases h
    | _ => exact hst.elim
  rw [decide_eq_true hquote]
  cases st with
  | string s =>
    rw [step, if_neg hquote, if_neg hc] at h
    split_ifs at h
    cases h
    exact ⟨by simp, trivial⟩
  | hex s digits value =>
    rw [step] at h
    obtain ⟨d, -, heq⟩ := Option.map_eq_some_iff.mp h
    split_ifs at heq
    · cases heq
      exact ⟨by simp, trivial⟩
    · cases heq
      exact ⟨by simp, trivial⟩
  | _ => exact hst.elim

theorem step_quote (hst : Outside st) (hplain : Plain st) (h : step extended (unit '"') st = some (ts, st')) :
    (∀ t ∈ ts, t.Plain) ∧ Inside st' := by
  cases st with
  | start =>
    cases h
    exact ⟨by simp, trivial⟩
  | word rest t =>
    rw [step_word hplain.1 (.inl (by decide))] at h
    cases h
  | number p text =>
    rw [step] at h
    split at h
    · next p' hp =>
      have hnone : p.next (unit '"') = none := by
        cases p with
        | _ => rfl
      rw [hnone] at hp
      cases hp
    · split_ifs at h with hp hI
      · cases h
        exact ⟨by simp [Token.Plain], trivial⟩
      · exact absurd hI.2.2 (by decide)
  | _ => exact hst.elim

end

/-! ## The two texts -/

def KeyText (key : JsString) : Prop := ∀ c ∈ key, c ≠ unit '"' ∧ c ≠ unit '\\' ∧ 32 ≤ c.toNat

/-- The tokens of the two texts, and how many barewords there are. -/
def Planted (key : JsString) (ts ts' : List Token) (n : Nat) : Prop := plantTokens key ts = ts' ∧
    barewordTokens ts = n

section

variable {key : JsString} {ts ts' ts₁ : List Token} {n : Nat}

theorem planted_nil : Planted key [] [] 0 := ⟨rfl, rfl⟩

theorem Planted.plain_append (h : Planted key ts ts' n) (hts₁ : ∀ t ∈ ts₁, t.Plain) : Planted key (ts₁ ++ ts)
    (ts₁ ++ ts') n := by
  obtain ⟨hplant, hcount⟩ : plantTokens key ts₁ = ts₁ ∧ barewordTokens ts₁ = 0 := plantTokens_of_plain hts₁
  refine ⟨?_, ?_⟩
  · rw [plantTokens_append, hplant, h.1]
  · rw [barewordTokens_append, hcount, h.2, Nat.zero_add]

theorem Planted.bareword (h : Planted key ts ts' n) (k : Fin 3) :
    Planted key (.nonFinite k :: ts) (Token.planted key (.nonFinite k) ++ ts') (n + 1) := by
  refine ⟨?_, ?_⟩
  · rw [← h.1]
    rfl
  · rw [← h.2]
    exact Nat.add_comm _ _

theorem planted_of_finish {st : LexState} (h : finish st = some ts) : Planted key ts ts 0 := by
  have hplanted : Planted key (ts ++ []) (ts ++ []) 0 := planted_nil.plain_append (finish_plain h)
  rwa [List.append_nil] at hplanted

theorem not_minus_of_inside {st : LexState} {s : JsString} (hst : Inside st) :
    ∀ text, st = .number .minus text → startsWithBareword s 1 = false := by
  intro text heq
  subst heq
  exact hst.elim

theorem start_minus {extended : Bool} {c : UInt16} {text : JsString}
    (h : start extended c = some (ts, .number .minus text)) :
    c = unit '-' := by
  unfold start at h
  by_cases hspace : isSpace c = true
  · rw [if_pos hspace] at h
    cases h
  rw [if_neg hspace] at h
  split at h
  · cases h
  · by_cases hquote : c = unit '"'
    · rw [if_pos hquote] at h
      cases h
    rw [if_neg hquote] at h
    split at h
    · next p hp =>
      cases h
      unfold Phase.first at hp
      split_ifs at hp with hc
      · exact hc
      · cases hp
      · cases hp
    · obtain ⟨w, -, heq⟩ := Option.map_eq_some_iff.mp h
      cases heq

theorem next_ne_minus {c : UInt16} (p : Phase) : p.next c ≠ some .minus := by
  intro h
  cases p with
  | _ =>
    rw [Phase.next] at h
    split_ifs at h <;> cases h

theorem eq_minus_of_step {extended : Bool} {c : UInt16} {st : LexState} {text : JsString}
    (h : step extended c st = some (ts, .number .minus text)) : c = unit '-' := by
  cases st with
  | start => exact start_minus h
  | word rest t =>
    cases rest with
    | nil => cases h
    | cons d rest =>
      cases rest with
      | nil =>
        rw [step] at h
        split_ifs at h
        cases h
      | cons d' rest =>
        rw [step] at h
        · split_ifs at h
          cases h
        · exact List.cons_ne_nil _ _
  | number p text' =>
    rw [step] at h
    split at h
    · next p' hp =>
      cases h
      exact absurd hp (next_ne_minus p)
    · split_ifs at h
      · obtain ⟨r, hr, heq⟩ := Option.map_eq_some_iff.mp h
        rw [Prod.mk.injEq] at heq
        have hstart : start extended c = some (r.1, .number .minus text) := by
          rw [← heq.2]
          exact hr
        exact start_minus hstart
      · cases h
  | string s =>
    rw [step] at h
    split_ifs at h <;> cases h
  | escape s =>
    rw [step] at h
    by_cases hu : c = unit 'u'
    · rw [if_pos hu] at h
      cases h
    · rw [if_neg hu] at h
      obtain ⟨d, -, heq⟩ := Option.map_eq_some_iff.mp h
      cases heq
  | hex s digits value =>
    rw [step] at h
    obtain ⟨d, -, heq⟩ := Option.map_eq_some_iff.mp h
    split_ifs at heq <;> cases heq

end

section

variable {key : JsString} (hkey : KeyText key) {st : LexState} {ts₀ : List Token}

theorem lexRun_bareword_of_finish (hfinish : finish st = some ts₀) (k : Fin 3) :
    lexRun true st (NON_FINITE_LITERALS k).1 = some (ts₀ ++ [.nonFinite k], .start) := by
  obtain ⟨c, s, hlit, hmem, -⟩ := bareword_eq_cons k
  rw [hlit, lexRun_of_finish hfinish fun p hp => next_eq_none hp c hmem, ← hlit, lexRun_bareword]
  rfl

include hkey

theorem lexRun_placeholder_of_finish (hfinish : finish st = some ts₀) (k : Fin 3) :
    lexRun false st (placeholder key k) = some (ts₀ ++ Token.planted key (.nonFinite k), .start) := by
  have hcons : placeholder key k = unit '\x7b' :: (placeholder key k).tail := rfl
  rw [hcons, lexRun_of_finish hfinish fun p hp => next_eq_none hp _ (by decide), ← hcons, lexRun_placeholder hkey]
  rfl

/-- Where the rewritten text has tokens, the text has them in the extended grammar. -/
theorem lex_of_rewritten {inString : Bool} {s out : JsString} {n : Nat} (h : Rewrites key inString s out n) :
    ∀ (st : LexState) (ts' : List Token), Positioned inString st → lexFrom false st out = some ts' →
      ∃ ts, lexFrom true st s = some ts ∧ Planted key ts ts' n := by
  induction h with
  | done inString =>
    intro st ts' hst hlex
    exact ⟨ts', hlex, planted_of_finish hlex⟩
  | escape d h ih =>
    intro st ts' hst hlex
    obtain ⟨ts₁, st₁, ts₂, hstep, hrest, rfl⟩ := lexFrom_cons_eq_some hlex
    obtain ⟨rfl, acc, rfl⟩ := step_escape hst hstep
    obtain ⟨ts₃, st₂, ts₄, hstep', hrest', rfl⟩ := lexFrom_cons_eq_some hrest
    obtain ⟨rfl, hst'⟩ := step_escaped hstep'
    obtain ⟨ts, hts, hplanted⟩ := ih st₂ ts₄ hst' hrest'
    refine ⟨ts, ?_, hplanted⟩
    exact lexFrom_cons_of_step (step_inside_eq hst ▸ hstep) (lexFrom_cons_of_step (by exact hstep') hts)
  | @inside c s out n hc h ih =>
    intro st ts' hst hlex
    obtain ⟨ts₁, st₁, ts₂, hstep, hrest, rfl⟩ := lexFrom_cons_eq_some hlex
    by_cases hbackslash : c = unit '\\'
    · -- a backslash at the end, and no text ends in an escape
      subst hbackslash
      have hs := hc.resolve_left fun hne => hne rfl
      subst hs
      obtain ⟨-, acc, rfl⟩ := step_escape hst hstep
      cases h
      cases hrest
    obtain ⟨hplain, hst'⟩ := step_inside hst hbackslash hstep
    obtain ⟨ts, hts, hplanted⟩ := ih st₁ ts₂ hst' hrest
    exact ⟨ts₁ ++ ts, lexFrom_cons_of_step (step_inside_eq hst ▸ hstep) hts, hplanted.plain_append hplain⟩
  | quote h ih =>
    intro st ts' hst hlex
    obtain ⟨ts₁, st₁, ts₂, hstep, hrest, rfl⟩ := lexFrom_cons_eq_some hlex
    obtain ⟨hplain, hst'⟩ := step_quote hst.1 hst.2 hstep
    obtain ⟨ts, hts, hplanted⟩ := ih st₁ ts₂ hst' hrest
    exact ⟨ts₁ ++ ts, lexFrom_cons_of_step (step_plain hst.2 hstep).1 hts, hplanted.plain_append hplain⟩
  | outside hc hmatch h ih =>
    intro st ts' hst hlex
    obtain ⟨ts₁, st₁, ts₂, hstep, hrest, rfl⟩ := lexFrom_cons_eq_some hlex
    obtain ⟨hstep', hplain, hst'⟩ := step_plain hst.2 hstep
    obtain ⟨ts, hts, hplanted⟩ := ih st₁ ts₂ ⟨step_outside hst.1 hc hstep, hst'⟩ hrest
    exact ⟨ts₁ ++ ts, lexFrom_cons_of_step hstep' hts, hplanted.plain_append hplain⟩
  | bareword k hmatch h ih =>
    intro st ts' hst hlex
    -- the placeholder begins where a value may
    obtain ⟨ts₁, st₁, ts₂, hstep, -, -⟩ := lexFrom_cons_eq_some hlex
    obtain ⟨ts₀, hfinish⟩ := finish_of_brace hst.1 hst.2 hstep
    rw [lexFrom_of_run (lexRun_placeholder_of_finish hkey hfinish k)] at hlex
    obtain ⟨ts₂, hrest, rfl⟩ := Option.map_eq_some_iff.mp hlex
    obtain ⟨ts, hts, hplanted⟩ := ih .start ts₂ ⟨trivial, trivial⟩ hrest
    refine ⟨ts₀ ++ .nonFinite k :: ts, ?_, ?_⟩
    · rw [lexFrom_of_run (lexRun_bareword_of_finish hfinish k), hts, Option.map_some, List.append_assoc]
      rfl
    · rw [List.append_assoc]
      exact (hplanted.bareword k).plain_append (finish_plain hfinish)

/-- The tokens of a text of the extended grammar, if no value follows a bareword, are those of the rewritten
text. -/
theorem lex_rewritten {inString : Bool} {s out : JsString} {n : Nat} (h : Rewrites key inString s out n) :
    ∀ (st : LexState) (ts : List Token), Positioned inString st →
      (∀ text, st = .number .minus text → startsWithBareword s 1 = false) → lexFrom true st s = some ts →
        Separated ts →
        ∃ ts', lexFrom false st out = some ts' ∧ Planted key ts ts' n := by
  induction h with
  | done inString =>
    intro st ts hst hminus hlex hsep
    exact ⟨ts, hlex, planted_of_finish hlex⟩
  | escape d h ih =>
    intro st ts hst hminus hlex hsep
    obtain ⟨ts₁, st₁, ts₂, hstep, hrest, rfl⟩ := lexFrom_cons_eq_some hlex
    obtain ⟨rfl, acc, rfl⟩ := step_escape hst hstep
    obtain ⟨ts₃, st₂, ts₄, hstep', hrest', rfl⟩ := lexFrom_cons_eq_some hrest
    obtain ⟨rfl, hst'⟩ := step_escaped hstep'
    obtain ⟨ts', hts', hplanted⟩ := ih st₂ ts₄ hst' (not_minus_of_inside hst') hrest' hsep
    refine ⟨ts', ?_, hplanted⟩
    exact lexFrom_cons_of_step (step_inside_eq hst ▸ hstep) (lexFrom_cons_of_step (by exact hstep') hts')
  | @inside c s out n hc h ih =>
    intro st ts hst hminus hlex hsep
    obtain ⟨ts₁, st₁, ts₂, hstep, hrest, rfl⟩ := lexFrom_cons_eq_some hlex
    by_cases hbackslash : c = unit '\\'
    · subst hbackslash
      have hs := hc.resolve_left fun hne => hne rfl
      subst hs
      obtain ⟨-, acc, rfl⟩ := step_escape hst hstep
      cases hrest
    obtain ⟨hplain, hst'⟩ := step_inside hst hbackslash hstep
    have hminus' : ∀ text, st₁ = .number .minus text → startsWithBareword s 1 = false := by
      intro text heq
      subst heq
      have hsign := eq_minus_of_step hstep
      subst hsign
      exact False.elim hst'
    obtain ⟨ts', hts', hplanted⟩ := ih st₁ ts₂ hst' hminus' hrest hsep.right_of_append
    exact ⟨ts₁ ++ ts', lexFrom_cons_of_step (step_inside_eq hst ▸ hstep) hts', hplanted.plain_append hplain⟩
  | @quote s out n h ih =>
    intro st ts hst hminus hlex hsep
    obtain ⟨ts₁, st₁, ts₂, hstep, hrest, rfl⟩ := lexFrom_cons_eq_some hlex
    obtain ⟨hplain, hst'⟩ := step_quote hst.1 hst.2 hstep
    obtain ⟨ts', hts', hplanted⟩ := ih st₁ ts₂ hst' (not_minus_of_inside hst') hrest hsep.right_of_append
    rw [step_of_ne (by decide) (by decide)] at hstep
    exact ⟨ts₁ ++ ts', lexFrom_cons_of_step hstep hts', hplanted.plain_append hplain⟩
  | @outside c s out n hc hmatch h ih =>
    intro st ts hst hminus hlex hsep
    have heq := step_of_separated hst.1 hst.2 hmatch hlex hsep
    obtain ⟨ts₁, st₁, ts₂, hstep, hrest, rfl⟩ := lexFrom_cons_eq_some hlex
    have hstep' := heq ▸ hstep
    obtain ⟨-, hplain, hst'⟩ := step_plain hst.2 hstep'
    have hminus' : ∀ text, st₁ = .number .minus text → startsWithBareword s 1 = false := by
      intro text heq
      subst heq
      rw [← startsWithBareword_minus, ← eq_minus_of_step hstep]
      exact not_startsWithBareword hmatch 0
    obtain ⟨ts', hts', hplanted⟩ := ih st₁ ts₂ ⟨step_outside hst.1 hc hstep, hst'⟩ hminus' hrest
      hsep.right_of_append
    exact ⟨ts₁ ++ ts', lexFrom_cons_of_step hstep' hts', hplanted.plain_append hplain⟩
  | @bareword k s out n hmatch h ih =>
    intro st ts hst hminus hlex hsep
    have hk : ∀ text, st = .number .minus text → k ≠ 1 := by
      intro text heq hk
      subst hk
      rw [startsWithBareword_of_match hmatch] at hminus
      exact absurd (hminus text heq) (by simp)
    obtain ⟨ts₀, hfinish⟩ := finish_of_bareword hst.1 hst.2 hk hlex
    rw [lexFrom_of_run (lexRun_bareword_of_finish hfinish k)] at hlex
    obtain ⟨ts₂, hrest, rfl⟩ := Option.map_eq_some_iff.mp hlex
    obtain ⟨ts', hts', hplanted⟩ := ih .start ts₂ ⟨trivial, trivial⟩ (fun text heq => by cases heq) hrest
      hsep.right_of_append
    refine ⟨ts₀ ++ Token.planted key (.nonFinite k) ++ ts', ?_, ?_⟩
    · rw [lexFrom_of_run (lexRun_placeholder_of_finish hkey hfinish k), hts', Option.map_some]
    · rw [List.append_assoc, List.append_assoc]
      exact (hplanted.bareword k).plain_append (finish_plain hfinish)

end

end ConfluentKafka
