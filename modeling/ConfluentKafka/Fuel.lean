import Mathlib.Logic.Basic
import Mathlib.Order.Basic
import Mathlib.Order.Lattice

/-!
# Functions with fuel

A function with fuel yields a value if it returns it with enough fuel.
-/

namespace ConfluentKafka

variable {ε α β : Type}

def Yields (m : Nat → Except ε α) (a : α) : Prop := ∃ n, ∀ fuel ≥ n, m fuel = .ok a

namespace Yields

variable {m : Nat → Except ε α} {a : α} {b : β}

theorem of_ok (h : ∀ fuel, m fuel = .ok a) : Yields m a := ⟨0, fun fuel _ => h fuel⟩

theorem of_succ (h : Yields (fun fuel => m (fuel + 1)) a) : Yields m a := by
  obtain ⟨n, hn⟩ := h
  refine ⟨n + 1, fun fuel hfuel => ?_⟩
  obtain ⟨k, rfl⟩ := Nat.exists_eq_add_of_le' (Nat.le_of_add_left_le hfuel)
  exact hn k (Nat.le_of_succ_le_succ hfuel)

theorem bind {k : Nat → α → Except ε β} (hm : Yields m a) (hk : Yields (fun fuel => k fuel a) b) :
    Yields (fun fuel => m fuel >>= k fuel) b := by
  obtain ⟨n, hn⟩ := hm
  obtain ⟨n', hn'⟩ := hk
  refine ⟨max n n', fun fuel hfuel => ?_⟩
  show (m fuel >>= k fuel) = .ok b
  rw [hn fuel (le_trans (le_max_left n n') hfuel)]
  exact hn' fuel (le_trans (le_max_right n n') hfuel)

theorem map (f : α → β) (hm : Yields m a) : Yields (fun fuel => f <$> m fuel) (f a) := by
  obtain ⟨n, hn⟩ := hm
  refine ⟨n, fun fuel hfuel => ?_⟩
  show f <$> m fuel = .ok (f a)
  rw [hn fuel hfuel]
  rfl

theorem mapM_cons {f : Nat → α → Except ε β} {as : List α} {bs : List β} (h : Yields (fun fuel => f fuel a) b)
    (hs : Yields (fun fuel => as.mapM (f fuel)) bs) : Yields (fun fuel => (a :: as).mapM (f fuel)) (b :: bs) := by
  simp only [List.mapM_cons]
  exact bind h (bind hs (of_ok fun _ => rfl))

end Yields

end ConfluentKafka
