import Mathlib.Data.List.Basic

/-!
# Greedy matching of starred sets

Patterns of single elements and of greedy runs of elements, matched by backtracking with a continuation.
The first match that is found need not be the longest one, but it is the whole input where the whole input
is in the language.
-/

namespace GreedyMatch

inductive Item (α : Type) where
  | one (p : α → Bool)
  | star (p : α → Bool)

structure Cursor (σ α : Type) where
  rest : σ → List α
  advance : σ → σ
  rest_advance : ∀ {x c s}, rest x = c :: s → rest (advance x) = s

variable {σ α β : Type}

def InLang : List (Item α) → List α → Prop
  | [], s => s = []
  | .one p :: items, s => ∃ c t, s = c :: t ∧ p c = true ∧ InLang items t
  | .star p :: items, s => ∃ t u, s = t ++ u ∧ (∀ c ∈ t, p c = true) ∧ InLang items u

def Begins (items : List (Item α)) (s : List α) : Prop := ∃ t u, s = t ++ u ∧ InLang items t

def minLength : List (Item α) → Nat
  | [] => 0
  | .one _ :: items => minLength items + 1
  | .star _ :: items => minLength items

namespace Cursor

variable (cur : Cursor σ α)

def matchOne (p : α → Bool) (k : σ → Option β) (x : σ) : Option β :=
  match cur.rest x with
  | [] => none
  | c :: _ => if p c then k (cur.advance x) else none

def matchStar (p : α → Bool) (k : σ → Option β) : List α → σ → Option β
  | [], x => k x
  | c :: s, x => if p c then (matchStar p k s (cur.advance x)).or (k x) else k x

def matchItems : List (Item α) → (σ → Option β) → σ → Option β
  | [], k, x => k x
  | .one p :: items, k, x => cur.matchOne p (matchItems items k) x
  | .star p :: items, k, x => cur.matchStar p (matchItems items k) (cur.rest x) x

end Cursor

/-! ## Lengths -/

theorem minLength_le {items : List (Item α)} : ∀ {s : List α}, InLang items s → minLength items ≤ s.length := by
  induction items with
  | nil => exact fun _ => Nat.zero_le _
  | cons item items ih =>
    intro s h
    cases item with
    | one p =>
      obtain ⟨c, t, rfl, -, ht⟩ := h
      exact Nat.succ_le_succ (ih ht)
    | star p =>
      obtain ⟨t, u, rfl, -, hu⟩ := h
      rw [List.length_append]
      exact Nat.le_add_left_of_le (ih hu)

theorem exists_shortest {items : List (Item α)} (h : ∀ p, .one p ∈ items → ∃ c, p c = true) :
    ∃ s, InLang items s ∧ s.length = minLength items := by
  induction items with
  | nil => exact ⟨[], rfl, rfl⟩
  | cons item items ih =>
    obtain ⟨s, hs, hlen⟩ := ih fun p hp => h p (List.mem_cons_of_mem _ hp)
    cases item with
    | one p =>
      obtain ⟨c, hc⟩ := h p List.mem_cons_self
      exact ⟨c :: s, ⟨c, s, rfl, hc, hs⟩, congrArg _ hlen⟩
    | star p => exact ⟨s, ⟨[], s, rfl, fun _ hc => absurd hc List.not_mem_nil, hs⟩, hlen⟩

theorem exists_of_mem_one {items : List (Item α)} {p : α → Bool} (hp : .one p ∈ items) : ∀ {s : List α},
    InLang items s →
    ∃ c, p c = true := by
  induction items with
  | nil => cases hp
  | cons item items ih =>
    intro s h
    cases item with
    | one q =>
      obtain ⟨c, t, rfl, hc, ht⟩ := h
      rcases List.mem_cons.mp hp with heq | hp
      · cases heq
        exact ⟨c, hc⟩
      · exact ih hp ht
    | star q =>
      obtain ⟨t, u, rfl, -, hu⟩ := h
      rcases List.mem_cons.mp hp with heq | hp
      · cases heq
      · exact ih hp hu

/-! ## Other sets -/

theorem inLang_star_congr {p q : α → Bool} {items items' : List (Item α)} {s : List α} (hp : ∀ c ∈ s, p c = q c)
    (h : ∀ u, u <:+ s → (InLang items u ↔ InLang items' u)) : InLang (.star p :: items) s ↔
      InLang (.star q :: items') s := by
  constructor
  · rintro ⟨t, u, rfl, ht, hu⟩
    refine ⟨t, u, rfl, fun c hc => ?_, (h u (List.suffix_append _ _)).mp hu⟩
    rw [← hp c (List.mem_append_left _ hc)]
    exact ht c hc
  · rintro ⟨t, u, rfl, ht, hu⟩
    refine ⟨t, u, rfl, fun c hc => ?_, (h u (List.suffix_append _ _)).mpr hu⟩
    rw [hp c (List.mem_append_left _ hc)]
    exact ht c hc

theorem inLang_one_congr {p : α → Bool} {items items' : List (Item α)} {s : List α}
    (h : ∀ u, u <:+ s → (InLang items u ↔ InLang items' u)) : InLang (.one p :: items) s ↔
      InLang (.one p :: items') s := by
  constructor
  · rintro ⟨c, t, rfl, hc, ht⟩
    exact ⟨c, t, rfl, hc, (h t (List.suffix_cons _ _)).mp ht⟩
  · rintro ⟨c, t, rfl, hc, ht⟩
    exact ⟨c, t, rfl, hc, (h t (List.suffix_cons _ _)).mpr ht⟩

/-! ## The exchange of a later front for an earlier whole -/

/-- Where the input is in the language from one place on and only its front from a later one, it is in the
language from there as well. -/
theorem inLang_of_begins {items : List (Item α)} : ∀ {w s : List α}, InLang items (w ++ s) → Begins items s →
    InLang items s := by
  induction items with
  | nil =>
    intro w s hfull _
    exact (List.append_eq_nil_iff.mp hfull).2
  | cons item items ih =>
    intro w s hfull hfront
    cases item with
    | one p =>
      obtain ⟨c, t, hwhole, hc, ht⟩ := hfull
      obtain ⟨v, u, rfl, d, v', rfl, hd, hv'⟩ := hfront
      cases w with
      | nil => exact ⟨c, t, hwhole, hc, ht⟩
      | cons c' w =>
        have hrest : t = (w ++ [d]) ++ (v' ++ u) := by
          rw [(List.cons.inj hwhole).2.symm, List.append_assoc]
          rfl
        exact ⟨d, v' ++ u, rfl, hd, ih (hrest ▸ ht) ⟨v', u, rfl, hv'⟩⟩
    | star p =>
      obtain ⟨t, u, hwhole, ht, hu⟩ := hfull
      obtain ⟨v, u', rfl, t', v', rfl, ht', hv'⟩ := hfront
      rw [List.append_assoc, ← List.append_assoc] at hwhole
      rcases List.append_eq_append_iff.mp hwhole with ⟨a, hta, hrest⟩ | ⟨a, htw, hrest⟩
      · -- the earlier run goes over the later one
        refine ⟨t' ++ a, u, ?_, ?_, hu⟩
        · rw [List.append_assoc, List.append_assoc, hrest]
        · intro c hc
          rcases List.mem_append.mp hc with hc | hc
          · exact ht' c hc
          · exact ht c (hta ▸ List.mem_append_right _ hc)
      · exact ⟨t', v' ++ u', List.append_assoc _ _ _, ht', ih (hrest ▸ hu) ⟨v', u', rfl, hv'⟩⟩

namespace Cursor

variable {cur : Cursor σ α}

/-! ## What a match goes over -/

theorem matchStar_sound {p : α → Bool} {k : σ → Option β} {r : β} : ∀ {l : List α} {x : σ}, cur.rest x = l →
    cur.matchStar p k l x = some r → ∃ t y, l = t ++ cur.rest y ∧ (∀ c ∈ t, p c = true) ∧ k y = some r := by
  intro l
  induction l with
  | nil =>
    intro x hx h
    exact ⟨[], x, by rw [hx, List.append_nil], fun _ hc => absurd hc List.not_mem_nil, h⟩
  | cons c s ih =>
    intro x hx h
    have hhere : k x = some r → ∃ t y, c :: s = t ++ cur.rest y ∧ (∀ c ∈ t, p c = true) ∧ k y = some r :=
      fun hk => ⟨[], x, by rw [hx, List.nil_append], fun _ hc => absurd hc List.not_mem_nil, hk⟩
    rw [matchStar] at h
    split_ifs at h with hc
    · rcases Option.or_eq_some_iff.mp h with hrest | ⟨-, hk⟩
      · obtain ⟨t, y, hs, ht, hy⟩ := ih (cur.rest_advance hx) hrest
        refine ⟨c :: t, y, by rw [hs, List.cons_append], ?_, hy⟩
        exact List.forall_mem_cons.mpr ⟨hc, ht⟩
      · exact hhere hk
    · exact hhere h

theorem matchItems_sound {items : List (Item α)} {k : σ → Option β} {r : β} :
    ∀ {x : σ}, cur.matchItems items k x = some r →
    ∃ t y, cur.rest x = t ++ cur.rest y ∧ InLang items t ∧ k y = some r := by
  induction items with
  | nil =>
    intro x h
    exact ⟨[], x, rfl, rfl, h⟩
  | cons item items ih =>
    intro x h
    cases item with
    | one p =>
      rw [matchItems, matchOne] at h
      split at h
      · cases h
      · rename_i c s hx
        split_ifs at h with hc
        obtain ⟨t, y, hs, ht, hy⟩ := ih h
        rw [cur.rest_advance hx] at hs
        exact ⟨c :: t, y, by rw [hx, hs, List.cons_append], ⟨c, t, rfl, hc, ht⟩, hy⟩
    | star p =>
      obtain ⟨t, y, hs, ht, hy⟩ := matchStar_sound rfl h
      obtain ⟨t', y', hs', ht', hy'⟩ := ih hy
      exact ⟨t ++ t', y', by rw [hs, hs', List.append_assoc], ⟨t, t', rfl, ht, ht'⟩, hy'⟩

/-! ## The whole input -/

theorem matchStar_whole {items : List (Item α)} {p : α → Bool}
    (hitems : ∀ {x : σ}, InLang items (cur.rest x) → ∃ y, cur.matchItems items some x = some y ∧ cur.rest y = []) :
    ∀ {l : List α} {x : σ}, cur.rest x = l → InLang (.star p :: items) l →
      ∃ y, cur.matchStar p (cur.matchItems items some) l x = some y ∧ cur.rest y = [] := by
  intro l
  induction l with
  | nil =>
    rintro x hx ⟨t, u, htu, -, hu⟩
    rw [(List.append_eq_nil_iff.mp htu.symm).2, ← hx] at hu
    exact hitems hu
  | cons c s ih =>
    rintro x hx ⟨t, u, htu, ht, hu⟩
    rw [matchStar]
    cases t with
    | cons d t =>
      obtain ⟨rfl, rfl⟩ := List.cons.inj htu
      obtain ⟨y, hy, hend⟩ := ih (cur.rest_advance hx) ⟨t, u, rfl, fun c hc => ht c (List.mem_cons_of_mem _ hc), hu⟩
      rw [if_pos (ht _ List.mem_cons_self), hy]
      exact ⟨y, rfl, hend⟩
    | nil =>
      have hx' : InLang items (cur.rest x) := by rwa [hx, htu]
      obtain ⟨y, hy, hend⟩ := hitems hx'
      split_ifs with hc
      · cases hlonger : cur.matchStar p (cur.matchItems items some) s (cur.advance x) with
        | none => exact ⟨y, hy, hend⟩
        | some r =>
          -- a longer run is tried first, and what is matched behind it is the whole as well
          obtain ⟨t, z, hs, -, hz⟩ := matchStar_sound (cur.rest_advance hx) hlonger
          obtain ⟨v, z', hrest, hv, -⟩ := matchItems_sound hz
          have hfull : InLang items ((c :: t) ++ cur.rest z) := by rwa [List.cons_append, ← hs, ← hx]
          obtain ⟨y', hy', hend'⟩ := hitems (inLang_of_begins hfull ⟨v, _, hrest, hv⟩)
          rw [hz] at hy'
          exact ⟨r, rfl, Option.some.inj hy' ▸ hend'⟩
      · exact ⟨y, hy, hend⟩

/-- The first match is the whole input where that is in the language. -/
theorem matchItems_whole {items : List (Item α)} : ∀ {x : σ}, InLang items (cur.rest x) →
    ∃ y, cur.matchItems items some x = some y ∧ cur.rest y = [] := by
  induction items with
  | nil =>
    intro x h
    exact ⟨x, rfl, h⟩
  | cons item items ih =>
    intro x h
    cases item with
    | one p =>
      obtain ⟨c, t, hx, hc, ht⟩ := h
      rw [← cur.rest_advance hx] at ht
      rw [matchItems, matchOne, hx]
      dsimp only
      rw [if_pos hc]
      exact ih ht
    | star p => exact matchStar_whole ih rfl h

end Cursor

end GreedyMatch
