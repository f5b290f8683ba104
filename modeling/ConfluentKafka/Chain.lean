import Mathlib.Data.List.Forall2

/-!
# Composing relations along a list

`Chain R` composes the relations that `R` gives to the members of a list, from the first to
the last. Members that undo each other one by one make chains that undo each other, when the
second list runs from its end.
-/

namespace ConfluentKafka

variable {ι κ μ : Type} {R : ι → μ → μ → Prop}

inductive Chain (R : ι → μ → μ → Prop) : List ι → μ → μ → Prop where
  | nil (m : μ) : Chain R [] m m
  | cons {i : ι} {is : List ι} {m₁ m₂ m₃ : μ} : R i m₁ m₂ → Chain R is m₂ m₃ → Chain R (i :: is) m₁ m₃

/-- Whatever the first relation makes of a value, the second one turns back into it. -/
def Undoes (R : ι → μ → μ → Prop) (S : κ → μ → μ → Prop) (i : ι) (j : κ) : Prop :=
  ∀ m, ∃ m', R i m m' ∧ S j m' m

theorem Chain.append {is js : List ι} {m₁ m₂ m₃ : μ} (h₁ : Chain R is m₁ m₂) (h₂ : Chain R js m₂ m₃) :
    Chain R (is ++ js) m₁ m₃ := by
  induction h₁ with
  | nil => exact h₂
  | cons hi _ ih => exact .cons hi (ih h₂)

theorem chain_undo {S : κ → μ → μ → Prop} {is : List ι} {js : List κ} (h : List.Forall₂ (Undoes R S) is js) :
    ∀ m, ∃ m', Chain R is m m' ∧ Chain S js.reverse m' m := by
  induction h with
  | nil => exact fun m => ⟨m, .nil m, .nil m⟩
  | cons hu _ ih =>
    intro m
    obtain ⟨m₁, hi, hj⟩ := hu m
    obtain ⟨m₂, his, hjs⟩ := ih m₁
    refine ⟨m₂, .cons hi his, ?_⟩
    rw [List.reverse_cons]
    apply hjs.append
    exact .cons hj (.nil m)

/-- What a chain made is undone by a second chain, when the second relation turns back whatever the first one
related. -/
theorem Chain.undo {S : κ → μ → μ → Prop} {is : List ι} {js : List κ}
    (h : List.Forall₂ (fun i j => ∀ m m', R i m m' → S j m' m) is js) {m m' : μ} (hc : Chain R is m m') :
    Chain S js.reverse m' m := by
  induction h generalizing m with
  | nil =>
    cases hc
    exact .nil _
  | cons hback _ ih =>
    obtain _ | ⟨hi, his⟩ := hc
    rw [List.reverse_cons]
    exact (ih his).append (.cons (hback _ _ hi) (.nil _))

end ConfluentKafka
