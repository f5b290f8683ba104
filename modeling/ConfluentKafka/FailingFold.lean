import Mathlib.Data.List.Perm.Basic

/-!
# Steps in another order

Steps that may fail, one after another. Two runs have one outcome if they end with the same value or both
fail. If any two of the steps may be swapped, the order of the steps has no influence on the outcome. Writes
to slots of a store that are apart may be swapped.
-/

namespace FailingFold

section

variable {ε α β : Type}

theorem bind_ok_iff {r : Except ε α} {f : α → Except ε β} {b : β} : r >>= f = .ok b ↔ ∃ a, r = .ok a ∧
    f a = .ok b := by
  cases r with
  | error e =>
    constructor
    · intro h
      cases h
    · rintro ⟨a, ha, _⟩
      cases ha
  | ok a =>
    constructor
    · intro h
      exact ⟨a, rfl, h⟩
    · rintro ⟨a', ha, hf⟩
      cases ha
      exact hf

theorem map_ok_iff {r : Except ε α} {f : α → β} {b : β} : r.map f = .ok b ↔ ∃ a, r = .ok a ∧ f a = b := by
  cases r with
  | error e => exact ⟨nofun, fun ⟨_, ha, _⟩ => nomatch ha⟩
  | ok a =>
    constructor
    · intro h
      exact ⟨a, rfl, Except.ok.inj h⟩
    · rintro ⟨a', ha, hf⟩
      cases ha
      exact congrArg Except.ok hf

/-! ## Outcomes -/

inductive SameOutcome : Except ε α → Except ε α → Prop where
  | value (a : α) : SameOutcome (.ok a) (.ok a)
  | failure (e e' : ε) : SameOutcome (.error e) (.error e')

theorem sameOutcome_iff {r r' : Except ε α} : SameOutcome r r' ↔ ∀ a, r = .ok a ↔ r' = .ok a := by
  constructor
  · intro h a
    cases h with
    | value b => exact Iff.rfl
    | failure e e' => exact ⟨nofun, nofun⟩
  · intro h
    cases r with
    | ok a =>
      rw [(h a).1 rfl]
      exact .value a
    | error e =>
      cases r' with
      | ok a => exact absurd ((h a).2 rfl) nofun
      | error e' => exact .failure e e'

theorem SameOutcome.refl (r : Except ε α) : SameOutcome r r := sameOutcome_iff.2 fun _ => Iff.rfl

theorem SameOutcome.trans {r r' r'' : Except ε α} (h : SameOutcome r r') (h' : SameOutcome r' r'') :
    SameOutcome r r'' :=
  sameOutcome_iff.2 fun a => (sameOutcome_iff.1 h a).trans (sameOutcome_iff.1 h' a)

theorem SameOutcome.bind {r r' : Except ε α} {f f' : α → Except ε β} (h : SameOutcome r r')
    (hf : ∀ a, SameOutcome (f a) (f' a)) : SameOutcome (r >>= f) (r' >>= f') := by
  cases h with
  | value a => exact hf a
  | failure e e' => exact .failure e e'

theorem SameOutcome.map {r r' : Except ε α} (h : SameOutcome r r') (f : α → β) :
    SameOutcome (r.map f) (r'.map f) := by
  cases h with
  | value a => exact .value (f a)
  | failure e e' => exact .failure e e'

end

/-! ## Steps that may be swapped -/

section

variable {ε α β : Type}

/-- Where one step is followed by the other without a failure, the other is followed by the one, to the same end. -/
def Swaps (F G : β → Except ε β) : Prop := ∀ s t, F s >>= G = .ok t → G s >>= F = .ok t

theorem Swaps.pure_left (G : β → Except ε β) : Swaps .ok G := by
  intro s t h
  rw [bind_ok_iff]
  exact ⟨t, h, rfl⟩

theorem Swaps.pure_right (F : β → Except ε β) : Swaps F .ok := by
  intro s t h
  obtain ⟨a, ha, h⟩ := bind_ok_iff.1 h
  cases h
  exact ha

theorem Swaps.andThen_right {F G H : β → Except ε β} (hG : Swaps F G) (hH : Swaps F H) :
    Swaps F fun s => G s >>= H := by
  intro s t h
  obtain ⟨s₁, h₁, h⟩ := bind_ok_iff.1 h
  obtain ⟨s₂, h₂, h⟩ := bind_ok_iff.1 h
  obtain ⟨s₁', h₁', h₂'⟩ := bind_ok_iff.1 (hG s s₂ (bind_ok_iff.2 ⟨s₁, h₁, h₂⟩))
  obtain ⟨s₂', hH', hF⟩ := bind_ok_iff.1 (hH s₁' t (bind_ok_iff.2 ⟨s₂, h₂', h⟩))
  rw [bind_ok_iff]
  exact ⟨s₂', bind_ok_iff.2 ⟨s₁', h₁', hH'⟩, hF⟩

theorem Swaps.andThen_left {F G H : β → Except ε β} (hF : Swaps F H) (hG : Swaps G H) :
    Swaps (fun s => F s >>= G) H := by
  intro s t h
  obtain ⟨s₂, h, hH⟩ := bind_ok_iff.1 h
  obtain ⟨s₁, h₁, h₂⟩ := bind_ok_iff.1 h
  obtain ⟨s₂', hH', h₂'⟩ := bind_ok_iff.1 (hG s₁ t (bind_ok_iff.2 ⟨s₂, h₂, hH⟩))
  obtain ⟨s₁', hH'', h₁'⟩ := bind_ok_iff.1 (hF s s₂' (bind_ok_iff.2 ⟨s₁, h₁, hH'⟩))
  rw [bind_ok_iff]
  exact ⟨s₁', hH'', bind_ok_iff.2 ⟨s₂', h₁', h₂'⟩⟩

theorem foldlM_perm_ok {step : β → α → Except ε β} {as bs : List α} (h : as.Perm bs)
    (hs : ∀ a ∈ as, ∀ b ∈ as, Swaps (step · a) (step · b)) {s t : β} (ht : as.foldlM step s = .ok t) :
    bs.foldlM step s = .ok t := by
  induction h generalizing s with
  | nil => exact ht
  | cons a _ ih =>
    rw [List.foldlM_cons] at ht ⊢
    obtain ⟨s', hstep, ht⟩ := bind_ok_iff.1 ht
    rw [bind_ok_iff]
    exact ⟨s', hstep, ih (fun b hb c hc => hs b (.tail a hb) c (.tail a hc)) ht⟩
  | swap a b l =>
    rw [List.foldlM_cons] at ht ⊢
    obtain ⟨s₁, h₁, ht⟩ := bind_ok_iff.1 ht
    rw [List.foldlM_cons] at ht
    obtain ⟨s₂, h₂, ht⟩ := bind_ok_iff.1 ht
    have hswap := hs b (.head _) a (.tail _ (.head _)) s s₂ (bind_ok_iff.2 ⟨s₁, h₁, h₂⟩)
    obtain ⟨s₁', h₁', h₂'⟩ := bind_ok_iff.1 hswap
    rw [bind_ok_iff]
    refine ⟨s₁', h₁', ?_⟩
    rw [List.foldlM_cons, bind_ok_iff]
    exact ⟨s₂, h₂', ht⟩
  | trans h₁ _ ih₁ ih₂ => exact ih₂ (fun b hb c hc => hs b (h₁.mem_iff.2 hb) c (h₁.mem_iff.2 hc)) (ih₁ hs ht)

theorem foldlM_perm {step : β → α → Except ε β} {as bs : List α} (h : as.Perm bs)
    (hs : ∀ a ∈ as, ∀ b ∈ as, Swaps (step · a) (step · b)) (s : β) : SameOutcome (as.foldlM step s)
    (bs.foldlM step s) := by
  rw [sameOutcome_iff]
  intro t
  constructor
  · exact foldlM_perm_ok h hs
  · exact foldlM_perm_ok h.symm fun b hb c hc => hs b (h.mem_iff.2 hb) c (h.mem_iff.2 hc)

/-- One element is replaced by another whose step has the same outcome. -/
theorem foldlM_congr_at {step : β → α → Except ε β} {a a' : α} (h : ∀ s, SameOutcome (step s a) (step s a'))
    (pre post : List α)
    (s : β) : SameOutcome ((pre ++ a :: post).foldlM step s) ((pre ++ a' :: post).foldlM step s) := by
  rw [List.foldlM_append, List.foldlM_append]
  refine (SameOutcome.refl _).bind fun s' => ?_
  rw [List.foldlM_cons, List.foldlM_cons]
  exact (h s').bind fun s'' => .refl _

end

/-! ## Stores -/

section

variable {ε μ φ σ : Type}

/-- A store with slots: writes to two that are apart do not see each other, and are the same in both orders. -/
structure Slots (μ φ σ : Type) (Apart : φ → φ → Prop) where
  get : μ → φ → σ
  put : μ → φ → σ → μ
  get_put {f g : φ} (h : Apart f g) (m : μ) (s : σ) : get (put m f s) g = get m g
  put_comm {f g : φ} (h : Apart f g) (m : μ) (s t : σ) : put (put m f s) g t = put (put m g t) f s

variable {Apart : φ → φ → Prop} (S : Slots μ φ σ Apart)

def Slots.modify (f : φ) (g : σ → Except ε σ) (m : μ) : Except ε μ := (g (S.get m f)).map (S.put m f)

inductive Writes (f : φ) : (μ → Except ε μ) → Prop where
  | done : Writes f .ok
  | modify (g : σ → Except ε σ) : Writes f (S.modify f g)
  | andThen {F G : μ → Except ε μ} (hF : Writes f F) (hG : Writes f G) : Writes f fun m => F m >>= G

variable {S}

theorem Writes.failed (f : φ) (e : ε) : Writes S f fun _ => .error e := .modify fun _ => .error e

theorem modify_swaps {f f' : φ} (h : Apart f f') (h' : Apart f' f) (g g' : σ → Except ε σ) :
    Swaps (S.modify f g) (S.modify f' g') := by
  intro m t hm
  obtain ⟨m₁, h₁, h₂⟩ := bind_ok_iff.1 hm
  obtain ⟨s, hs, rfl⟩ := map_ok_iff.1 h₁
  obtain ⟨s', hs', rfl⟩ := map_ok_iff.1 h₂
  rw [S.get_put h] at hs'
  rw [bind_ok_iff]
  refine ⟨S.put m f' s', map_ok_iff.2 ⟨s', hs', rfl⟩, map_ok_iff.2 ⟨s, ?_, ?_⟩⟩
  · rw [S.get_put h']
    exact hs
  · exact S.put_comm h' m s' s

theorem Writes.swaps {f f' : φ} (h : Apart f f') (h' : Apart f' f) {F G : μ → Except ε μ} (hF : Writes S f F)
    (hG : Writes S f' G) : Swaps F G := by
  induction hF with
  | done => exact .pure_left G
  | andThen _ _ ih₁ ih₂ => exact ih₁.andThen_left ih₂
  | modify g =>
    induction hG with
    | done => exact .pure_right _
    | modify g' => exact modify_swaps h h' g g'
    | andThen _ _ ih₁ ih₂ => exact ih₁.andThen_right ih₂

end

end FailingFold
