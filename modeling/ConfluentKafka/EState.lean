import Mathlib.Data.List.Basic

/-!
# Calls that change a state and may throw

A call of `EStateM` keeps the state it has reached when it throws. `Keeps` is the rule for what holds
however the calls end; the others take a sequence of calls apart.
-/

namespace ConfluentKafka

/-- What holds before the call holds after it, also where it throws. -/
def Keeps {ε σ α : Type} (I : σ → Prop) (m : EStateM ε σ α) : Prop :=
  ∀ s, I s → match m s with
    | .ok _ s' => I s'
    | .error _ s' => I s'

namespace Keeps

variable {ε σ α β : Type} {I : σ → Prop}

theorem pure (a : α) : Keeps I (Pure.pure a : EStateM ε σ α) := fun _ hs => hs

theorem throw (e : ε) : Keeps I (MonadExcept.throw e : EStateM ε σ α) := fun _ hs => hs

theorem bind {m : EStateM ε σ α} {f : α → EStateM ε σ β} (hm : Keeps I m) (hf : ∀ a, Keeps I (f a)) :
    Keeps I (m >>= f) := by
  intro s hs
  have hms := hm s hs
  show match EStateM.bind m f s with
    | .ok _ s' => I s'
    | .error _ s' => I s'
  unfold EStateM.bind
  cases h : m s with
  | ok a s' =>
    rw [h] at hms
    exact hf a s' hms
  | error e s' =>
    rw [h] at hms
    exact hms

theorem get : Keeps I (MonadState.get : EStateM ε σ σ) := fun _ hs => hs

end Keeps

theorem get_bind {ε σ α : Type} (f : σ → EStateM ε σ α) (s : σ) : (get >>= f) s = f s s := rfl

theorem bind_eq_ok_iff {ε σ α β : Type} (m : EStateM ε σ α) (f : α → EStateM ε σ β) (s s' : σ) (b : β) :
    (m >>= f) s = .ok b s' ↔ ∃ a s₁, m s = .ok a s₁ ∧ f a s₁ = .ok b s' := by
  show EStateM.bind m f s = _ ↔ _
  unfold EStateM.bind
  cases m s with
  | ok a s₁ =>
    constructor
    · exact fun h => ⟨a, s₁, rfl, h⟩
    · rintro ⟨a', s', heq, h⟩
      cases heq
      exact h
  | error e s₁ =>
    constructor
    · intro h
      cases h
    · rintro ⟨a', s', heq, h⟩
      cases heq

section

variable {ε σ α β : Type} {m : EStateM ε σ α} {f : α → EStateM ε σ β} {s s' : σ}

theorem bind_of_ok {a : α} (h : m s = .ok a s') : (m >>= f) s = f a s' := by
  show EStateM.bind m f s = _
  unfold EStateM.bind
  rw [h]

theorem bind_of_error {e : ε} (h : m s = .error e s') : (m >>= f) s = .error e s' := by
  show EStateM.bind m f s = _
  unfold EStateM.bind
  rw [h]

end

def endState {ε σ α : Type} : EStateM.Result ε σ α → σ
  | .ok _ s => s
  | .error _ s => s

end ConfluentKafka
