import Mathlib.Data.List.Basic

/-!
# Labelled transition systems

A system is an initial state and a partial step function on labels. A run is
the list of its labels, with the state it ends in. Safety is proved by
`RunWhere.inv`: what holds at first and is kept by every step holds after
every run, also for the runs all of whose steps meet a condition.
-/

namespace ConfluentKafka

structure Lts (σ ε : Type) where
  init : σ
  step : σ → ε → Option σ

namespace Lts

variable {σ ε : Type} {M : Lts σ ε}

/-- Runs whose steps all meet `C`, a condition on the label and the state before the step. -/
inductive RunWhere (M : Lts σ ε) (C : σ → ε → Prop) : List ε → σ → Prop where
  | nil : RunWhere M C [] M.init
  | snoc {es : List ε} {s s' : σ} {e : ε} : RunWhere M C es s → C s e → M.step s e = some s' →
      RunWhere M C (es ++ [e]) s'

abbrev Run (M : Lts σ ε) : List ε → σ → Prop := RunWhere M fun _ _ => True

theorem RunWhere.inv {C : σ → ε → Prop} {I : σ → Prop} (h0 : I M.init)
    (hs : ∀ s e s', I s → C s e → M.step s e = some s' → I s') {es : List ε} {s : σ} (hr : RunWhere M C es s) :
    I s := by
  induction hr with
  | nil => exact h0
  | snoc _ hc hstep ih => exact hs _ _ _ ih hc hstep

theorem RunWhere.mono {C D : σ → ε → Prop} (h : ∀ s e, C s e → D s e) {es : List ε} {s : σ}
    (hr : RunWhere M C es s) : RunWhere M D es s := by
  induction hr with
  | nil => exact .nil
  | snoc _ hc hstep ih => exact ih.snoc (h _ _ hc) hstep

def exec (M : Lts σ ε) (C : σ → ε → Bool) (s : σ) : List ε → Option σ
  | [] => some s
  | e :: es => if C s e then (M.step s e).bind fun s' => exec M C s' es else none

theorem RunWhere.of_exec {C : σ → ε → Bool} {es : List ε} : ∀ {fs : List ε} {s s' : σ},
    RunWhere M (fun s e => C s e = true) es s → M.exec C s fs = some s' →
      RunWhere M (fun s e => C s e = true) (es ++ fs) s'
  | [], s, s', hr, he => by
    obtain rfl : s = s' := by simpa [exec] using he
    simpa using hr
  | f :: fs, s, s', hr, he => by
    unfold exec at he
    split at he
    · rename_i hc
      obtain ⟨s₁, h₁, h₂⟩ := Option.bind_eq_some_iff.mp he
      have := of_exec (hr.snoc hc h₁) h₂
      rwa [List.append_assoc, List.singleton_append] at this
    · cases he

theorem Run.of_exec {es : List ε} {s : σ} (h : M.exec (fun _ _ => true) M.init es = some s) : M.Run es s := by
  have := RunWhere.of_exec (C := fun _ _ => true) .nil h
  exact this.mono fun _ _ _ => trivial

end Lts

end ConfluentKafka
