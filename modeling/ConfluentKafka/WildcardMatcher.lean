import ConfluentKafka.RegExp

/-!
# Wildcards

`wildcard-matcher.ts`: a wildcard is translated to the text of a regular expression, which is not anchored;
the first match is compared with the whole string. What a wildcard means is a list of sets and starred sets,
and so is what the expression of one is, unless a backslash or a bracket makes it something else.
-/

namespace ConfluentKafka

namespace WildcardMatcher

open RegExp GreedyMatch

/-! ## The translation -/

/-- `globExp.replaceAll('**' + separator + '*', '**')`. -/
def replaceStars (separator : UInt16) : JsString → JsString
  | a :: b :: c :: d :: s =>
    if a = unit '*' ∧ b = unit '*' ∧ c = separator ∧ d = unit '*' then unit '*' :: unit '*' ::
      replaceStars separator s
    else a :: replaceStars separator (b :: c :: d :: s)
  | s => s

def specials : JsString := units ".+{}()|^$"

/-- What is added for a backslash, and what is left behind it. The look-ahead is for two characters. -/
def doubleSlashes : JsString → JsString × JsString
  | c :: d :: s => (units "\\\\" ++ [c], d :: s)
  | s => (units "\\\\", s)

theorem doubleSlashes_length (s : JsString) : (doubleSlashes s).2.length ≤ s.length := by
  match s with
  | [] => exact Nat.le_refl _
  | [_] => exact Nat.le_refl _
  | _ :: _ :: _ => exact Nat.le_succ _

/-- The loop of `wildcardToRegexp`. -/
def translate (separator : UInt16) : JsString → JsString
  | [] => []
  | c :: s =>
    if c = unit '*' then
      match s with
      | d :: s' =>
        if d = unit '*' then units ".*" ++ translate separator s'
        else units "[^" ++ separator :: units "]*" ++ translate separator (d :: s')
      | [] => units "[^" ++ separator :: units "]*"
    else if c = unit '?' then units "[^" ++ separator :: units "]" ++ translate separator s
    else if c ∈ specials then unit '\\' :: c :: translate separator s
    else if c = unit '\\' then (doubleSlashes s).1 ++ translate separator (doubleSlashes s).2
    else c :: translate separator s
termination_by s => s.length
decreasing_by
  all_goals simp only [List.length_cons]
  all_goals try omega
  have := doubleSlashes_length s
  omega

def wildcardToRegexp (globExp : JsString) (separator : UInt16) : JsString := translate separator
    (replaceStars separator globExp)

def wildcardMatch (str wildcardMatcher : JsString) : Bool :=
  match compile (wildcardToRegexp wildcardMatcher (unit '.')) with
  | none => false
  | some pattern => exec pattern str = some str

/-! ## What a wildcard means -/

def notSeparator : CharSet := fun d => !only (unit '.') d

def notLineTerminator : CharSet := fun d => !isLineTerminator d

/-- Two stars are any of the given characters, one star and the question mark those within a name boundary. A
backslash takes the next character as it is, and stands for itself at the end. -/
def globItems (any : CharSet) : JsString → List (Item UInt16)
  | [] => []
  | c :: s =>
    if c = unit '*' then
      match s with
      | d :: s' =>
        if d = unit '*' then .star any :: globItems any s' else .star notSeparator :: globItems any (d :: s')
      | [] => [.star notSeparator]
    else if c = unit '?' then .one notSeparator :: globItems any s
    else if c = unit '\\' then
      match s with
      | d :: s' => .one (only d) :: globItems any s'
      | [] => [.one (only c)]
    else .one (only c) :: globItems any s
termination_by s => s.length

/-- The first part of a pattern without a backslash before its last character: its text in the expression,
what it means and the pattern behind it. -/
inductive Chunk : JsString → JsString → Item UInt16 → JsString → Prop
  | many (s : JsString) : Chunk (unit '*' :: unit '*' :: s) (units ".*") (.star notLineTerminator) s
  | starred {s : JsString} (h : s.head? ≠ some (unit '*')) : Chunk (unit '*' :: s) (units "[^.]*")
    (.star notSeparator) s
  | one (s : JsString) : Chunk (unit '?' :: s) (units "[^.]") (.one notSeparator) s
  | special {c : UInt16} (h : c ∈ specials) (s : JsString) : Chunk (c :: s) [unit '\\', c] (.one (only c)) s
  | backslash : Chunk [unit '\\'] (units "\\\\") (.one (only (unit '\\'))) []
  | bracket (s : JsString) : Chunk (unit '[' :: s) (units "[") (.one (only (unit '['))) s
  | char {c : UInt16} (h : c ∉ units "*?\\[" ++ specials) (s : JsString) : Chunk (c :: s) [c] (.one (only c)) s

theorem specials_ne : ∀ c ∈ specials, c ≠ unit '*' ∧ c ≠ unit '?' ∧ c ≠ unit '\\' ∧ c ≠ unit '[' ∧
    c ≠ unit ']' := by
  have hall : (specials.all fun c => c ≠ unit '*' ∧ c ≠ unit '?' ∧ c ≠ unit '\\' ∧ c ≠ unit '[' ∧ c ≠ unit ']') =
    true := by decide
  exact fun c hc => of_decide_eq_true (List.all_eq_true.mp hall c hc)

namespace Chunk

theorem exists_of_ne_nil {p : JsString} (hne : p ≠ []) (h : unit '\\' ∉ p.dropLast) :
    ∃ text item s, Chunk p text item s := by
  cases p with
  | nil => exact absurd rfl hne
  | cons c s =>
    by_cases hspecial : c ∈ specials
    · exact ⟨_, _, _, .special hspecial s⟩
    by_cases hplain : c ∉ units "*?\\[" ++ specials
    · exact ⟨_, _, _, .char hplain s⟩
    have hmem : c ∈ units "*?\\[" := by
      rcases List.mem_append.mp (not_not.mp hplain) with hmem | hmem
      · exact hmem
      · exact absurd hmem hspecial
    have hcases : c = unit '*' ∨ c = unit '?' ∨ c = unit '\\' ∨ c = unit '[' := by
      simpa [units] using hmem
    rcases hcases with rfl | rfl | rfl | rfl
    · by_cases hstar : s.head? = some (unit '*')
      · obtain ⟨s', rfl⟩ := List.head?_eq_some_iff.mp hstar
        exact ⟨_, _, _, .many s'⟩
      · exact ⟨_, _, _, .starred hstar⟩
    · exact ⟨_, _, _, .one s⟩
    · cases s with
      | nil => exact ⟨_, _, _, .backslash⟩
      | cons d s => exact absurd List.mem_cons_self h
    · exact ⟨_, _, _, .bracket s⟩

variable {p text s : JsString} {item : Item UInt16}

theorem length_lt (h : Chunk p text item s) : s.length < p.length := by
  cases h with
  | many => exact Nat.lt_succ_of_lt (Nat.lt_succ_self _)
  | backslash => exact Nat.one_pos
  | starred => exact Nat.lt_succ_self _
  | one => exact Nat.lt_succ_self _
  | special => exact Nat.lt_succ_self _
  | bracket => exact Nat.lt_succ_self _
  | char => exact Nat.lt_succ_self _

theorem dropLast_subset (h : Chunk p text item s) : s.dropLast ⊆ p.dropLast := by
  have hcons (c : UInt16) (s : JsString) : s.dropLast ⊆ (c :: s).dropLast := by
    cases s with
    | nil => exact List.nil_subset _
    | cons d s => exact List.subset_cons_self _ _
  cases h with
  | many => exact List.Subset.trans (hcons _ _) (hcons _ _)
  | backslash => exact List.nil_subset _
  | starred => exact hcons _ _
  | one => exact hcons _ _
  | special => exact hcons _ _
  | bracket => exact hcons _ _
  | char => exact hcons _ _

theorem char_ne {c : UInt16} (h : c ∉ units "*?\\[" ++ specials) :
    c ≠ unit '*' ∧ c ≠ unit '?' ∧ c ≠ unit '\\' ∧ c ≠ unit '[' ∧ c ∉ specials := by
  refine ⟨?_, ?_, ?_, ?_, fun hmem => h (List.mem_append_right _ hmem)⟩ <;> rintro rfl <;> exact h (by decide)

theorem translate_eq (h : Chunk p text item s) : translate (unit '.') p = text ++ translate (unit '.') s := by
  rw [translate.eq_def]
  cases h with
  | many =>
    dsimp only
    rw [if_pos rfl, if_pos rfl]
  | backslash =>
    dsimp only
    rw [if_neg (by decide), if_neg (by decide), if_neg (by decide), if_pos rfl]
    rfl
  | starred hstar =>
    dsimp only
    rw [if_pos rfl]
    cases s with
    | nil => rw [translate]; rfl
    | cons d s =>
      have hd : d ≠ unit '*' := fun he => hstar (congrArg _ he)
      dsimp only
      rw [if_neg hd]
      rfl
  | one =>
    dsimp only
    rw [if_neg (by decide), if_pos rfl]
    rfl
  | special hc =>
    obtain ⟨hstar, hone, -⟩ := specials_ne _ hc
    dsimp only
    rw [if_neg hstar, if_neg hone, if_pos hc]
    rfl
  | bracket =>
    dsimp only
    rw [if_neg (by decide), if_neg (by decide), if_neg (by decide), if_neg (by decide)]
    rfl
  | char hc =>
    obtain ⟨hstar, hone, hslash, -, hspecial⟩ := char_ne hc
    dsimp only
    rw [if_neg hstar, if_neg hone, if_neg hspecial, if_neg hslash]
    rfl

theorem globItems_eq (h : Chunk p text item s) : globItems notLineTerminator p = item ::
    globItems notLineTerminator s := by
  rw [globItems.eq_def]
  cases h with
  | many =>
    dsimp only
    rw [if_pos rfl, if_pos rfl]
  | backslash =>
    dsimp only
    rw [if_neg (by decide), if_neg (by decide), if_pos rfl, globItems]
  | starred hstar =>
    dsimp only
    rw [if_pos rfl]
    cases s with
    | nil => rw [globItems]
    | cons d s =>
      have hd : d ≠ unit '*' := fun he => hstar (congrArg _ he)
      dsimp only
      rw [if_neg hd]
  | one =>
    dsimp only
    rw [if_neg (by decide), if_pos rfl]
  | special hc =>
    obtain ⟨hstar, hone, hslash, -⟩ := specials_ne _ hc
    dsimp only
    rw [if_neg hstar, if_neg hone, if_neg hslash]
  | bracket =>
    dsimp only
    rw [if_neg (by decide), if_neg (by decide), if_neg (by decide)]
  | char hc =>
    obtain ⟨hstar, hone, hslash, -⟩ := char_ne hc
    dsimp only
    rw [if_neg hstar, if_neg hone, if_neg hslash]

end Chunk

/-! ## The tokens of a pattern -/

theorem reads_dotStar (groups : Nat) : Reads groups (units ".*") (itemTokens (.star notLineTerminator)) := by
  have hdot : Reads groups [unit '.'] [.set notLineTerminator] := reads_one fun _ => rfl
  have hstar : Reads groups [unit '*'] [.quantifier .star] := reads_one fun _ => rfl
  exact hdot.append hstar

theorem reads_notSeparator (groups : Nat) : Reads groups (units "[^.]") [.set notSeparator] :=
  reads_one fun _ => rfl

theorem lexOne_char {c : UInt16} (h : c ∉ units "*?\\[" ++ specials) (groups : Nat) (s : JsString) :
    lexOne groups c s = some (.set (only c), s) := by
  obtain ⟨hstar, hone, hslash, hbracket, hspecial⟩ := Chunk.char_ne h
  have hne (d : UInt16) (hd : d ∈ specials) : c ≠ d := fun he => hspecial (he ▸ hd)
  rw [lexOne.eq_def, if_neg hslash, if_neg hbracket, if_neg (hne _ (by decide)), if_neg hstar,
    if_neg (hne _ (by decide)), if_neg hone,
    if_neg (hne _ (by decide)), if_neg (hne _ (by decide)), if_neg (hne _ (by decide)), if_neg (hne _ (by decide)),
    if_neg (hne _ (by decide))]

theorem lexOne_special {c : UInt16} (h : c ∈ specials) (groups : Nat) (s : JsString) :
    lexOne groups (unit '\\') (c :: s) = some (.set (only c), s) := by
  have hcases : c = unit '.' ∨ c = unit '+' ∨ c = unit '{' ∨ c = unit '}' ∨ c = unit '(' ∨ c = unit ')' ∨
    c = unit '|' ∨
      c = unit '^' ∨ c = unit '$' := by simpa [specials, units] using h
  rcases hcases with rfl | rfl | rfl | rfl | rfl | rfl | rfl | rfl | rfl <;> rfl

theorem Chunk.reads {p text s : JsString} {item : Item UInt16} (h : Chunk p text item s)
    (hp : p.head? ≠ some (unit '[')) (groups : Nat) :
    Reads groups text (itemTokens item) := by
  cases h with
  | many => exact reads_dotStar groups
  | starred =>
    have hstar : Reads groups [unit '*'] [.quantifier .star] := reads_one fun _ => rfl
    exact (reads_notSeparator groups).append hstar
  | one => exact reads_notSeparator groups
  | special hc => exact reads_one fun s => lexOne_special hc groups s
  | backslash => exact reads_one fun _ => rfl
  | bracket => exact absurd rfl hp
  | char hc => exact reads_one fun s => lexOne_char hc groups s

theorem Chunk.tokens_length {p text s : JsString} {item : Item UInt16} (h : Chunk p text item s) :
    (itemTokens item).length ≤ text.length := by
  cases h with
  | many => decide
  | starred => decide
  | one => decide
  | special => exact Nat.le_succ _
  | backslash => decide
  | bracket => decide
  | char => exact Nat.le_refl _

theorem Chunk.bracket_mem {p text s : JsString} {item : Item UInt16} (h : Chunk p text item s)
    (hp : p.head? ≠ some (unit '[')) :
    unit '[' ∈ p ↔ unit '[' ∈ s := by
  have hcons {c : UInt16} {s : JsString} (hc : unit '[' ≠ c) : unit '[' ∈ c :: s ↔ unit '[' ∈ s := by
    rw [List.mem_cons, or_iff_right hc]
  cases h with
  | many => rw [hcons (by decide), hcons (by decide)]
  | starred => exact hcons (by decide)
  | one => exact hcons (by decide)
  | special hc => exact hcons (specials_ne _ hc).2.2.2.1.symm
  | backslash => decide
  | bracket => exact absurd rfl hp
  | char hc => exact hcons (Chunk.char_ne hc).2.2.2.1.symm

/-- Without a bracket the expression has the items of the pattern. -/
theorem lex_translate {p : JsString} (hslash : unit '\\' ∉ p.dropLast) (hbracket : unit '[' ∉ p) (groups : Nat) :
    lex groups (translate (unit '.') p).length (translate (unit '.') p) =
      some ((globItems notLineTerminator p).flatMap itemTokens) := by
  induction hn : p.length using Nat.strong_induction_on generalizing p with
  | _ n ih =>
    by_cases hne : p = []
    · rw [hne, translate, globItems]
      rfl
    · obtain ⟨text, item, s, hchunk⟩ := Chunk.exists_of_ne_nil hne hslash
      have hhead : p.head? ≠ some (unit '[') := fun hh => hbracket (List.mem_of_mem_head? hh)
      have hslash' : unit '\\' ∉ s.dropLast := fun hmem => hslash (hchunk.dropLast_subset hmem)
      have hbracket' : unit '[' ∉ s := fun hmem => hbracket ((hchunk.bracket_mem hhead).mpr hmem)
      have hrest := ih s.length (hn ▸ hchunk.length_lt) hslash' hbracket' rfl
      have hread := hchunk.reads hhead groups (translate (unit '.') s).length (translate (unit '.') s)
      rw [hrest, Option.map_some] at hread
      have hfuel := lex_add hread (text.length - (itemTokens item).length)
      have hlen : (translate (unit '.') s).length + (itemTokens item).length +
        (text.length - (itemTokens item).length) =
          (text ++ translate (unit '.') s).length := by
        have := hchunk.tokens_length
        rw [List.length_append]
        omega
      rw [hchunk.translate_eq, hchunk.globItems_eq, List.flatMap_cons, ← hfuel, hlen]

/-! ## Two stars before a name boundary and a star -/

theorem replaceStars_ne_nil {p : JsString} (h : p ≠ []) : replaceStars (unit '.') p ≠ [] := by
  fun_cases replaceStars (unit '.') p with
  | case1 => exact List.cons_ne_nil _ _
  | case2 => exact List.cons_ne_nil _ _
  | case3 => exact h

theorem mem_replaceStars {c : UInt16} (hstar : c ≠ unit '*') (hdot : c ≠ unit '.') (p : JsString) :
    c ∈ replaceStars (unit '.') p ↔ c ∈ p := by
  fun_induction replaceStars (unit '.') p with
  | case1 a b c' d s h ih =>
    obtain ⟨rfl, rfl, rfl, rfl⟩ := h
    simp only [List.mem_cons, ih, hstar, hdot, false_or]
  | case2 a b c' d s h ih => rw [List.mem_cons, List.mem_cons, ih]
  | case3 => exact Iff.rfl

theorem mem_dropLast_cons {c d : UInt16} {s : JsString} (h : s ≠ []) : c ∈ (d :: s).dropLast ↔ c = d ∨
    c ∈ s.dropLast := by
  rw [List.dropLast_cons_of_ne_nil h, List.mem_cons]

theorem mem_dropLast_replaceStars {c : UInt16} (hstar : c ≠ unit '*') (hdot : c ≠ unit '.') (p : JsString) :
    c ∈ (replaceStars (unit '.') p).dropLast ↔ c ∈ p.dropLast := by
  fun_induction replaceStars (unit '.') p with
  | case1 a b c' d s h ih =>
    obtain ⟨rfl, rfl, rfl, rfl⟩ := h
    by_cases hs : s = []
    · subst hs
      simp [replaceStars, hstar, hdot]
    · rw [mem_dropLast_cons (List.cons_ne_nil _ _), mem_dropLast_cons (replaceStars_ne_nil hs), ih,
        mem_dropLast_cons (List.cons_ne_nil _ _), mem_dropLast_cons (List.cons_ne_nil _ _), mem_dropLast_cons
          (List.cons_ne_nil _ _),
        mem_dropLast_cons hs]
      simp only [hstar, hdot, false_or]
  | case2 a b c' d s h ih =>
    rw [mem_dropLast_cons (replaceStars_ne_nil (List.cons_ne_nil _ _)), mem_dropLast_cons
      (List.cons_ne_nil _ _), ih]
  | case3 => exact Iff.rfl

theorem replaceStars_eq_self {p : JsString} (h : ¬units "**.*" <:+: p) : replaceStars (unit '.') p = p := by
  fun_induction replaceStars (unit '.') p with
  | case1 a b c d s hstars =>
    obtain ⟨rfl, rfl, rfl, rfl⟩ := hstars
    exact absurd (List.IsPrefix.isInfix ⟨s, rfl⟩) h
  | case2 a b c d s hstars ih => rw [ih fun hrest => h (hrest.trans (List.suffix_cons _ _).isInfix)]
  | case3 => rfl

/-! ## Whole matches -/

theorem wildcardMatch_of_lex {items : List (Item UInt16)} {p : JsString}
    (h : lex (countGroups false (wildcardToRegexp p (unit '.'))) (wildcardToRegexp p (unit '.')).length
      (wildcardToRegexp p (unit '.')) =
      some (items.flatMap itemTokens)) (str : JsString) : wildcardMatch str p = true ↔ InLang items str := by
  have hcompile : compile (wildcardToRegexp p (unit '.')) = some (itemsFrame {} items).node := by
    rw [compile, h]
    exact parse_items 0 {}
  rw [wildcardMatch, hcompile]
  exact decide_eq_true_iff.trans (exec_items items str)

theorem wildcardMatch_plain {p : JsString} (hslash : unit '\\' ∉ p.dropLast) (hbracket : unit '[' ∉ p)
    (str : JsString) :
    wildcardMatch str p = true ↔ InLang (globItems notLineTerminator (replaceStars (unit '.') p)) str := by
  have hslash' : unit '\\' ∉ (replaceStars (unit '.') p).dropLast :=
    fun h => hslash ((mem_dropLast_replaceStars (by decide) (by decide) p).mp h)
  have hbracket' : unit '[' ∉ replaceStars (unit '.') p := fun h =>
    hbracket ((mem_replaceStars (by decide) (by decide) p).mp h)
  exact wildcardMatch_of_lex (lex_translate hslash' hbracket' _) str

/-- Where two sets of characters agree on a text, two stars may stand for either. -/
theorem inLang_globItems {p : JsString} {any any' : CharSet} : ∀ {s : JsString}, (∀ c ∈ s, any c = any' c) →
    (InLang (globItems any p) s ↔ InLang (globItems any' p) s) := by
  fun_induction globItems any p with
  | case1 =>
    intro s _
    rw [globItems]
  | case2 s ih =>
    intro str hs
    rw [globItems.eq_def any']
    dsimp only
    rw [if_pos rfl, if_pos rfl]
    exact inLang_star_congr hs fun u hu => ih fun c hc => hs c (hu.subset hc)
  | case3 d s hd ih =>
    intro str hs
    rw [globItems.eq_def any']
    dsimp only
    rw [if_pos rfl, if_neg hd]
    exact inLang_star_congr (fun _ _ => rfl) fun u hu => ih fun c hc => hs c (hu.subset hc)
  | case4 =>
    intro str _
    rw [globItems.eq_def any']
    exact Iff.rfl
  | case5 s hne ih =>
    intro str hs
    rw [globItems.eq_def any']
    dsimp only
    rw [if_neg hne, if_pos rfl]
    exact inLang_one_congr fun u hu => ih fun c hc => hs c (hu.subset hc)
  | case6 d s hne hne' ih =>
    intro str hs
    rw [globItems.eq_def any']
    dsimp only
    rw [if_neg hne, if_neg hne', if_pos rfl]
    exact inLang_one_congr fun u hu => ih fun c hc => hs c (hu.subset hc)
  | case7 hne hne' =>
    intro str _
    rw [globItems.eq_def any']
    exact Iff.rfl
  | case8 c s h1 h2 h3 ih =>
    intro str hs
    rw [globItems.eq_def any']
    dsimp only
    rw [if_neg h1, if_neg h2, if_neg h3]
    exact inLang_one_congr fun u hu => ih fun c hc => hs c (hu.subset hc)

/-- The first match is the whole name exactly where the name is in the language of the wildcard. -/
theorem wildcardMatch_iff {str p : JsString} (hstr : ∀ c ∈ str, isLineTerminator c = false) (hslash : unit '\\' ∉ p)
    (hbracket : unit '[' ∉ p) (hstars : ¬units "**.*" <:+: p) :
    wildcardMatch str p = true ↔ InLang (globItems (fun _ => true) p) str := by
  have hplain := wildcardMatch_plain (fun h => hslash (List.dropLast_subset p h)) hbracket str
  rw [replaceStars_eq_self hstars] at hplain
  refine hplain.trans (inLang_globItems fun c hc => ?_)
  rw [notLineTerminator, hstr c hc]
  rfl

theorem wildcardMatch_names : wildcardMatch (units "alice.bob.eve") (units "a*.b**") = true ↔
    InLang (globItems (fun _ => true) (units "a*.b**")) (units "alice.bob.eve") := by
  have hall : ((units "alice.bob.eve").all fun c => !isLineTerminator c) = true := by decide
  refine wildcardMatch_iff (fun c hc => ?_) (by decide) (by decide) (by decide)
  exact (Bool.not_eq_true' _).mp (List.all_eq_true.mp hall c hc)

/-! ## Brackets -/

def afterClass : JsString → Option JsString
  | [] => none
  | [c] => if c = unit ']' then some [] else none
  | c :: d :: s =>
    if c = unit ']' then some (d :: s)
    else if c = unit '\\' then afterClass s
    else afterClass (d :: s)

theorem afterClass_skip {c : UInt16} (h : c ≠ unit ']' ∧ c ≠ unit '\\') (s : JsString) :
    afterClass (c :: s) = afterClass s := by
  cases s with
  | nil => exact if_neg h.1
  | cons d s => rw [afterClass, if_neg h.1, if_neg h.2]

theorem afterClass_close (s : JsString) : afterClass (unit ']' :: s) = some s := by
  cases s with
  | nil => rfl
  | cons d s => rw [afterClass, if_pos rfl]

theorem afterClass_escape (d : UInt16) (s : JsString) : afterClass (unit '\\' :: d :: s) = afterClass s := by
  rw [afterClass, if_neg (by decide), if_pos rfl]

theorem afterClass_drop {n : Nat} : ∀ {s : JsString}, (∀ c ∈ s.take n, c ≠ unit ']' ∧ c ≠ unit '\\') →
    afterClass (s.drop n) = afterClass s := by
  induction n with
  | zero => exact fun _ => rfl
  | succ n ih =>
    intro s h
    cases s with
    | nil => rfl
    | cons c s =>
      rw [List.take_succ_cons] at h
      rw [List.drop_succ_cons, ih fun d hd => h d (List.mem_cons_of_mem _ hd), afterClass_skip
        (h c List.mem_cons_self)]

theorem ne_of_isAsciiLetter {c : UInt16} (h : isAsciiLetter c = true) : c ≠ unit ']' ∧ c ≠ unit '\\' := by
  constructor <;> rintro rfl <;> revert h <;> decide

theorem ne_of_isOctalDigit {c : UInt16} (h : isOctalDigit c = true) : c ≠ unit ']' ∧ c ≠ unit '\\' := by
  constructor <;> rintro rfl <;> revert h <;> decide

theorem ne_of_isDigit {c : UInt16} (h : Json.isDigit c = true) : c ≠ unit ']' ∧ c ≠ unit '\\' := by
  constructor <;> rintro rfl <;> revert h <;> decide

theorem ne_of_hexDigit {c : UInt16} {n : Nat} (h : Json.hexDigit c = some n) : c ≠ unit ']' ∧ c ≠ unit '\\' := by
  have hbracket : Json.hexDigit (unit ']') = none := by decide
  have hslash : Json.hexDigit (unit '\\') = none := by decide
  constructor
  · rintro rfl
    rw [hbracket] at h
    cases h
  · rintro rfl
    rw [hslash] at h
    cases h

theorem ne_of_hexValue {digits : JsString} : ∀ {n m : Nat},
    digits.foldlM (fun n c => (Json.hexDigit c).map fun d => 16 * n + d) n = some m → ∀ c ∈ digits, c ≠ unit ']' ∧
      c ≠ unit '\\' := by
  induction digits with
  | nil => exact fun _ _ hc => absurd hc List.not_mem_nil
  | cons c digits ih =>
    intro n m h d hd
    rw [List.foldlM_cons] at h
    obtain ⟨n', hc, hrest⟩ := Option.bind_eq_some_iff.mp h
    obtain ⟨v, hv, -⟩ := Option.map_eq_some_iff.mp hc
    rcases List.mem_cons.mp hd with rfl | hd
    · exact ne_of_hexDigit hv
    · exact ih hrest d hd

theorem afterClass_legacyOctal (first : Nat) (s : JsString) : afterClass (legacyOctal first s).2 =
    afterClass s := by
  fun_cases legacyOctal first s with
  | case1 => rfl
  | case2 c h => exact (afterClass_skip (ne_of_isOctalDigit h) _).symm
  | case3 c h d s h' => rw [afterClass_skip (ne_of_isOctalDigit h), afterClass_skip (ne_of_isOctalDigit h'.1)]
  | case4 c h d s h' => exact (afterClass_skip (ne_of_isOctalDigit h) _).symm
  | case5 => rfl

theorem afterClass_controlEscape {c : UInt16} (hc : c ≠ unit ']' ∧ c ≠ unit '\\') (s : JsString) :
    afterClass (controlEscape c s).2 = afterClass s := by
  cases s with
  | nil => exact afterClass_skip hc []
  | cons d s =>
    rw [controlEscape]
    split_ifs with hletter
    · exact (afterClass_skip (ne_of_isAsciiLetter hletter) s).symm
    · exact afterClass_skip hc _

theorem afterClass_hexEscape (width : Nat) (c : UInt16) (s : JsString) : afterClass (hexEscape width c s).2 =
    afterClass s := by
  rw [hexEscape]
  cases hhex : RegExp.hexValue (s.take width) with
  | none => rfl
  | some n =>
    dsimp only
    split_ifs
    · rfl
    · exact afterClass_drop (ne_of_hexValue hhex)

theorem afterClass_characterEscape (c : UInt16) (s : JsString) : afterClass (characterEscape c s).2 =
    afterClass s := by
  rw [characterEscape]
  split_ifs with h1 h2 h3 h4 h5 hcontrol
  · rfl
  · rfl
  · rfl
  · rfl
  · rfl
  · exact afterClass_controlEscape (by rw [hcontrol]; decide) s
  · exact afterClass_hexEscape 2 c s
  · exact afterClass_hexEscape 4 c s
  · exact afterClass_legacyOctal _ s
  · rfl

theorem afterClass_classEscape (c : UInt16) (s : JsString) : afterClass (classEscape c s).2 = afterClass s := by
  rw [classEscape.eq_def]
  cases characterClassEscape c with
  | some p => rfl
  | none =>
    dsimp only
    split_ifs with hb
    · rfl
    · cases s with
      | nil => exact afterClass_characterEscape c []
      | cons d s =>
        dsimp only
        split_ifs with hc
        · rcases hc.2 with hd | hd
          · exact (afterClass_skip (ne_of_isDigit hd) s).symm
          · exact (afterClass_skip (by rw [hd]; decide) s).symm
        · exact afterClass_characterEscape c _

theorem afterClass_classAtom {s s' : JsString} {a : ClassAtom} (hhead : s.head? ≠ some (unit ']'))
    (h : classAtom s = some (a, s')) :
    afterClass s' = afterClass s := by
  cases s with
  | nil => cases h
  | cons c s =>
    rw [classAtom.eq_def] at h
    dsimp only at h
    split_ifs at h with hc
    · cases s with
      | nil => cases h
      | cons d s =>
        have hs : s' = (classEscape d s).2 := congrArg Prod.snd (Option.some.inj h).symm
        rw [hs, afterClass_classEscape, hc, afterClass_escape]
    · obtain ⟨-, rfl⟩ := Prod.mk.inj (Option.some.inj h)
      exact (afterClass_skip ⟨fun he => hhead (congrArg _ he), hc⟩ _).symm

theorem afterClass_classRanges {fuel : Nat} : ∀ {p q : CharSet} {s s' : JsString}, classRanges fuel p s =
    some (q, s') →
    afterClass s = some s' := by
  induction fuel with
  | zero =>
    intro p q s s' h
    rw [classRanges] at h
    cases h
  | succ fuel ih =>
    intro p q s s' h
    cases s with
    | nil =>
      rw [classRanges] at h
      cases h
    | cons c s =>
      rw [classRanges.eq_def] at h
      dsimp only at h
      split_ifs at h with hc
      · obtain ⟨-, rfl⟩ := Prod.mk.inj (Option.some.inj h)
        rw [hc, afterClass_close]
      · have hhead : (c :: s).head? ≠ some (unit ']') := fun he => hc (Option.some.inj he)
        obtain ⟨⟨a, s₁⟩, hatom, h⟩ := Option.bind_eq_some_iff.mp h
        have hfirst := afterClass_classAtom hhead hatom
        cases s₁ with
        | nil => cases h
        | cons d s₂ =>
          dsimp only at h
          split_ifs at h with hdash
          · obtain ⟨⟨b, s₃⟩, hatom', h⟩ := Option.bind_eq_some_iff.mp h
            obtain ⟨range, -, h⟩ := Option.bind_eq_some_iff.mp h
            have hsecond := afterClass_classAtom hdash.2 hatom'
            rw [← hfirst, afterClass_skip (by rw [hdash.1]; decide), ← hsecond]
            exact ih h
          · rw [← hfirst]
            exact ih h

theorem afterClass_characterClass {s s' : JsString} {p : CharSet} (h : characterClass s = some (p, s')) :
    afterClass s = some s' := by
  rw [characterClass] at h
  split_ifs at h with hhead
  · obtain ⟨⟨q, s''⟩, hranges, h⟩ := Option.bind_eq_some_iff.mp h
    obtain ⟨-, rfl⟩ := Prod.mk.inj (Option.some.inj h)
    obtain ⟨s, rfl⟩ := List.head?_eq_some_iff.mp hhead
    rw [afterClass_skip (by decide)]
    exact afterClass_classRanges hranges
  · exact afterClass_classRanges h

/-- A class ends at a closing bracket of the pattern, or at that of a translated wildcard; in either case the
expression goes on with a shorter pattern. -/
theorem afterClass_translate {p rest : JsString} (hslash : unit '\\' ∉ p.dropLast)
    (h : afterClass (translate (unit '.') p) = some rest) : ∃ p', p'.length < p.length ∧ unit '\\' ∉ p'.dropLast ∧
      (rest = translate (unit '.') p' ∧ minLength (globItems notLineTerminator p') < minLength
        (globItems notLineTerminator p) ∨
        rest = unit '*' :: translate (unit '.') p' ∧
          minLength (globItems notLineTerminator p') ≤ minLength (globItems notLineTerminator p)) := by
  induction hn : p.length using Nat.strong_induction_on generalizing p with
  | _ n ih =>
    by_cases hne : p = []
    · rw [hne, translate] at h
      cases h
    · obtain ⟨text, item, s, hchunk⟩ := Chunk.exists_of_ne_nil hne hslash
      have hlt : s.length < n := hn ▸ hchunk.length_lt
      have hslash' : unit '\\' ∉ s.dropLast := fun hmem => hslash (hchunk.dropLast_subset hmem)
      have hmin : minLength (globItems notLineTerminator s) ≤ minLength (globItems notLineTerminator p) := by
        rw [hchunk.globItems_eq]
        cases item with
        | one => exact Nat.le_succ _
        | star => exact Nat.le_refl _
      have hlater (hrest : afterClass (translate (unit '.') s) = some rest) : ∃ p', p'.length < n ∧
        unit '\\' ∉ p'.dropLast ∧
          (rest = translate (unit '.') p' ∧ minLength (globItems notLineTerminator p') < minLength
            (globItems notLineTerminator p) ∨
            rest = unit '*' :: translate (unit '.') p' ∧
              minLength (globItems notLineTerminator p') ≤ minLength (globItems notLineTerminator p)) := by
        obtain ⟨p', hlen, hp', hcases⟩ := ih s.length hlt hslash' hrest rfl
        refine ⟨p', Nat.lt_trans hlen hlt, hp', ?_⟩
        rcases hcases with ⟨hr, hm⟩ | ⟨hr, hm⟩
        · exact .inl ⟨hr, Nat.lt_of_lt_of_le hm hmin⟩
        · exact .inr ⟨hr, Nat.le_trans hm hmin⟩
      have hlow (item' : Item UInt16) (hitem : item = item') (hone : minLength [item'] = 1) :
          minLength (globItems notLineTerminator s) < minLength (globItems notLineTerminator p) := by
        rw [hchunk.globItems_eq, hitem]
        cases item' with
        | one => exact Nat.lt_succ_self _
        | star => cases hone
      rw [hchunk.translate_eq] at h
      cases hchunk with
      | many =>
        have hskip : afterClass (units ".*" ++ translate (unit '.') s) = afterClass (translate (unit '.') s) :=
          (afterClass_skip (by decide) _).trans (afterClass_skip (by decide) _)
        exact hlater (hskip ▸ h)
      | starred =>
        have hclose : afterClass (units "[^.]*" ++ translate (unit '.') s) = some
          (unit '*' :: translate (unit '.') s) :=
          (afterClass_skip (by decide) _).trans
          ((afterClass_skip (by decide) _).trans ((afterClass_skip (by decide) _).trans
            (afterClass_close _)))
        rw [hclose] at h
        exact ⟨s, hlt, hslash', .inr ⟨(Option.some.inj h).symm, hmin⟩⟩
      | one =>
        have hclose : afterClass (units "[^.]" ++ translate (unit '.') s) = some (translate (unit '.') s) :=
          (afterClass_skip (by decide) _).trans
          ((afterClass_skip (by decide) _).trans ((afterClass_skip (by decide) _).trans
            (afterClass_close _)))
        rw [hclose] at h
        exact ⟨s, hlt, hslash', .inl ⟨(Option.some.inj h).symm, hlow _ rfl rfl⟩⟩
      | special hc => exact hlater ((afterClass_escape _ _).symm.trans h)
      | backslash =>
        rw [translate] at h
        cases h
      | bracket => exact hlater ((afterClass_skip (by decide) _).symm.trans h)
      | @char c hc =>
        obtain ⟨-, -, hslash, -⟩ := Chunk.char_ne hc
        by_cases hclose : c = unit ']'
        · rw [hclose] at h
          have hrest := (afterClass_close _).symm.trans h
          exact ⟨s, hlt, hslash', .inl ⟨(Option.some.inj hrest).symm, hlow _ rfl rfl⟩⟩
        · exact hlater ((afterClass_skip ⟨hclose, hslash⟩ _).symm.trans h)

/-- An expression has items that are no longer than those of the pattern, and shorter ones where there is a
bracket. -/
theorem items_of_lex {groups n : Nat} {p : JsString} {ts : List Token} (hslash : unit '\\' ∉ p.dropLast)
    (h : lex groups n (translate (unit '.') p) = some ts) : ∃ items, ts = items.flatMap itemTokens ∧
      minLength items ≤ minLength (globItems notLineTerminator p) ∧
      (unit '[' ∈ p → minLength items < minLength (globItems notLineTerminator p)) := by
  induction hn : p.length using Nat.strong_induction_on generalizing p ts n with
  | _ m ih =>
    by_cases hne : p = []
    · rw [hne, translate, lex] at h
      rw [hne, ← Option.some.inj h]
      exact ⟨[], rfl, Nat.zero_le _, fun hmem => absurd hmem List.not_mem_nil⟩
    · by_cases hhead : p.head? = some (unit '[')
      · obtain ⟨s, rfl⟩ := List.head?_eq_some_iff.mp hhead
        have hchunk := Chunk.bracket s
        have hslash' : unit '\\' ∉ s.dropLast := fun hmem => hslash (hchunk.dropLast_subset hmem)
        rw [hchunk.translate_eq] at h
        rw [hchunk.globItems_eq, minLength]
        cases n with
        | zero => cases h
        | succ n =>
          obtain ⟨⟨t, rest⟩, hone, h⟩ := Option.bind_eq_some_iff.mp h
          obtain ⟨ts', hlex, h⟩ := Option.bind_eq_some_iff.mp h
          obtain rfl := Option.some.inj h
          obtain ⟨⟨q, rest'⟩, hclass, hone⟩ := Option.map_eq_some_iff.mp hone
          obtain ⟨rfl, rfl⟩ := Prod.mk.inj hone
          obtain ⟨p', hlen, hp', ⟨rfl, hmin⟩ | ⟨rfl, hmin⟩⟩ := afterClass_translate hslash'
            (afterClass_characterClass hclass)
          · obtain ⟨items, rfl, hitems, -⟩ := ih p'.length (by rw [← hn, List.length_cons]; omega) hp' hlex rfl
            refine ⟨.one q :: items, rfl, ?_, fun _ => ?_⟩ <;> rw [minLength] <;> omega
          · have hstar : Reads groups [unit '*'] [.quantifier .star] := reads_one fun _ => rfl
            obtain ⟨ts, hlex', rfl⟩ := hstar.lex_iff hlex
            obtain ⟨items, rfl, hitems, -⟩ := ih p'.length (by rw [← hn, List.length_cons]; omega) hp' hlex' rfl
            refine ⟨.star q :: items, rfl, ?_, fun _ => ?_⟩ <;> rw [minLength] <;> omega
      · obtain ⟨text, item, s, hchunk⟩ := Chunk.exists_of_ne_nil hne hslash
        have hslash' : unit '\\' ∉ s.dropLast := fun hmem => hslash (hchunk.dropLast_subset hmem)
        rw [hchunk.translate_eq] at h
        obtain ⟨ts', hlex, rfl⟩ := (hchunk.reads hhead groups).lex_iff h
        obtain ⟨items, rfl, hitems, hless⟩ := ih s.length (hn ▸ hchunk.length_lt) hslash' hlex rfl
        rw [hchunk.globItems_eq, hchunk.bracket_mem hhead]
        refine ⟨item :: items, rfl, ?_, fun hmem => ?_⟩
        · cases item with
          | one => exact Nat.succ_le_succ hitems
          | star => exact hitems
        · cases item with
          | one => exact Nat.succ_lt_succ (hless hmem)
          | star => exact hless hmem

theorem exists_one_globItems (p : JsString) : ∀ q, .one q ∈ globItems notLineTerminator p → ∃ c, q c = true := by
  have hcons {p q : CharSet} {items : List (Item UInt16)} (hq : ∃ c, q c = true)
    (hitems : .one p ∈ items → ∃ c, p c = true)
      (h : Item.one p ∈ Item.one q :: items) : ∃ c, p c = true := by
    rcases List.mem_cons.mp h with heq | h
    · rw [Item.one.inj heq]
      exact hq
    · exact hitems h
  have hstar {p q : CharSet} {items : List (Item UInt16)} (hitems : .one p ∈ items → ∃ c, p c = true)
      (h : Item.one p ∈ Item.star q :: items) : ∃ c, p c = true := by
    rcases List.mem_cons.mp h with heq | h
    · cases heq
    · exact hitems h
  have honly (c : UInt16) : ∃ d, only c d = true := ⟨c, decide_eq_true rfl⟩
  have hother : ∃ c, notSeparator c = true := ⟨unit 'a', by decide⟩
  fun_induction globItems notLineTerminator p with
  | case1 => exact fun q h => absurd h List.not_mem_nil
  | case2 s ih => exact fun q => hstar (ih q)
  | case3 d s hd ih => exact fun q => hstar (ih q)
  | case4 => exact fun q => hstar fun h => absurd h List.not_mem_nil
  | case5 s hne ih => exact fun q => hcons hother (ih q)
  | case6 d s hne hne' ih => exact fun q => hcons (honly d) (ih q)
  | case7 => exact fun q => hcons (honly _) fun h => absurd h List.not_mem_nil
  | case8 c s h1 h2 h3 ih => exact fun q => hcons (honly c) (ih q)

def Literal (p : JsString) : Prop :=
  ∀ str, wildcardMatch str p = true ↔ InLang (globItems notLineTerminator (replaceStars (unit '.') p)) str

theorem not_literal_of_bracket {p : JsString} (hslash : unit '\\' ∉ p.dropLast) (hbracket : unit '[' ∈ p) :
    ¬Literal p := by
  intro h
  have hslash' : unit '\\' ∉ (replaceStars (unit '.') p).dropLast :=
    fun hmem => hslash ((mem_dropLast_replaceStars (by decide) (by decide) p).mp hmem)
  have hbracket' : unit '[' ∈ replaceStars (unit '.') p := (mem_replaceStars (by decide) (by decide) p).mpr hbracket
  obtain ⟨shortest, hin, -⟩ := exists_shortest (exists_one_globItems (replaceStars (unit '.') p))
  have hmatch := (h shortest).mpr hin
  cases hlex : lex (countGroups false (wildcardToRegexp p (unit '.'))) (wildcardToRegexp p (unit '.')).length
      (wildcardToRegexp p (unit '.')) with
  | none =>
    rw [wildcardMatch, compile, hlex] at hmatch
    cases hmatch
  | some ts =>
    obtain ⟨items, rfl, -, hless⟩ := items_of_lex hslash' hlex
    have hiff := wildcardMatch_of_lex hlex
    have hitems := (hiff shortest).mp hmatch
    obtain ⟨shorter, hshorter, hlen⟩ := exists_shortest fun q hq => exists_of_mem_one hq hitems
    have hmin := minLength_le ((h shorter).mp ((hiff shorter).mpr hshorter))
    exact absurd (hless hbracket') (Nat.not_lt_of_le (hlen ▸ hmin))

/-- A wildcard without an opening bracket and without a backslash before another character. -/
def Plain (p : JsString) : Prop := unit '[' ∉ p ∧ unit '\\' ∉ p.dropLast

/-- Plain wildcards mean what they match; a bracket never does, unless a backslash before another character
changes it. -/
theorem literal_of_plain (p : JsString) : (Plain p → Literal p) ∧
    (unit '\\' ∉ p.dropLast → Literal p → Plain p) := by
  refine ⟨fun h str => wildcardMatch_plain h.2 h.1 str, fun hslash h => ⟨fun hbracket => ?_, hslash⟩⟩
  exact not_literal_of_bracket hslash hbracket h

theorem wildcardToRegexp_escaped : wildcardToRegexp (units "\\a") (unit '.') = units "\\\\a" := by
  have hrest : translate (unit '.') [unit 'a'] = [unit 'a'] := by
    rw [(Chunk.char (by decide) []).translate_eq, translate]
    rfl
  rw [wildcardToRegexp, translate.eq_def]
  have hslash : replaceStars (unit '.') (units "\\a") = [unit '\\', unit 'a'] := rfl
  rw [hslash]
  dsimp only
  rw [if_neg (by decide), if_neg (by decide), if_neg (by decide), if_pos rfl, doubleSlashes]
  · rw [hrest]
    rfl
  · exact fun _ _ _ h => by cases h

theorem globItems_escaped : globItems notLineTerminator (replaceStars (unit '.') (units "\\a")) =
    [.one (only (unit 'a'))] := by
  have hslash : replaceStars (unit '.') (units "\\a") = [unit '\\', unit 'a'] := rfl
  rw [hslash, globItems.eq_def]
  dsimp only
  rw [if_neg (by decide), if_neg (by decide), if_pos rfl, globItems]

/-- The wildcard of a backslash and an `a` matches both of them, and not an `a`. -/
theorem not_literal_escaped : ¬Literal (units "\\a") := by
  intro h
  have hin : InLang (globItems notLineTerminator (replaceStars (unit '.') (units "\\a"))) (units "a") := by
    rw [globItems_escaped]
    exact ⟨_, _, rfl, by decide, rfl⟩
  have hlex : wildcardMatch (units "a") (units "\\a") = true ↔
      InLang [.one (only (unit '\\')), .one (only (unit 'a'))] (units "a") := by
    refine wildcardMatch_of_lex ?_ (units "a")
    rw [wildcardToRegexp_escaped]
    rfl
  obtain ⟨c, t, hc, hslash, -⟩ := hlex.mp ((h (units "a")).mpr hin)
  rw [← (List.cons.inj hc).1] at hslash
  exact absurd hslash (by decide)

end WildcardMatcher

end ConfluentKafka
