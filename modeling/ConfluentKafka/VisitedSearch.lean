import Mathlib.Data.Fintype.Card
import Mathlib.Logic.Relation

/-!
# Search with a visited set

A property of the nodes of a graph is decided by checks and by visits to other nodes. The search takes a node
that is already visited, or is being visited, to have the property. It answers true exactly if all checks succeed
at the nodes that can be reached: what it has visited is closed under visits when it ends.
-/

namespace VisitedSearch

/-- A step at a node: a check of its own, or a visit to another node. -/
inductive Step (α : Type) where
  | check (ok : Bool)
  | visit (a : α)

variable {α κ : Type}

def runSteps (run : α → List κ → Option (Bool × List κ)) : List (Step α) → List κ → Option (Bool × List κ)
  | [], visited => some (true, visited)
  | .check ok :: rest, visited => if ok then runSteps run rest visited else some (false, visited)
  | .visit a :: rest, visited =>
    match run a visited with
    | none => none
    | some (false, visited) => some (false, visited)
    | some (true, visited) => runSteps run rest visited

section

variable (steps : α → List (Step α)) (key : α → κ)

def run [DecidableEq κ] : Nat → α → List κ → Option (Bool × List κ)
  | 0, _, _ => none
  | fuel + 1, a, visited =>
    if key a ∈ visited then some (true, visited) else runSteps (run fuel) (steps a) (key a :: visited)

def Agrees (a : α) : Prop := ∀ ok, .check ok ∈ steps a → ok = true

def Follows (a b : α) : Prop := .visit b ∈ steps a

def Closed (before after : List κ) : Prop :=
  ∀ b, key b ∈ after → key b ∉ before → Agrees steps b ∧ ∀ c, Follows steps b c → key c ∈ after

end

variable {steps : α → List (Step α)} {key : α → κ}

theorem runSteps_append (run : α → List κ → Option (Bool × List κ)) (l l' : List (Step α)) (visited : List κ) :
    runSteps run (l ++ l') visited =
      match runSteps run l visited with
      | none => none
      | some (false, visited) => some (false, visited)
      | some (true, visited) => runSteps run l' visited := by
  induction l generalizing visited with
  | nil => rfl
  | cons step l ih =>
    cases step with
    | check ok =>
      cases ok with
      | true => exact ih visited
      | false => rfl
    | visit a =>
      rw [List.cons_append, runSteps, runSteps]
      split
      · rfl
      · rfl
      · exact ih _

theorem Closed.refl (visited : List κ) : Closed steps key visited visited := fun _ h hnot => (hnot h).elim

theorem Closed.trans {u v w : List κ} (h : Closed steps key u v) (h' : Closed steps key v w) (hsub : v ⊆ w) :
    Closed steps key u w := by
  intro b hb hnot
  by_cases hv : key b ∈ v
  · obtain ⟨hagrees, hfollows⟩ := h b hv hnot
    exact ⟨hagrees, fun c hc => hsub (hfollows c hc)⟩
  · exact h' b hb hv

/-! ## What the answers mean -/

/-- What an answer at a node means for the visited set before and after it. -/
structure Answer (steps : α → List (Step α)) (key : α → κ) (a : α) (visited : List κ) (same : Bool)
    (visited' : List κ) : Prop where
  subset : visited ⊆ visited'
  agrees : same = true → key a ∈ visited' ∧ Closed steps key visited visited'
  disagrees : same = false → ∃ c, Relation.ReflTransGen (Follows steps) a c ∧ ¬Agrees steps c

structure StepsAnswer (steps : α → List (Step α)) (key : α → κ) (l : List (Step α)) (visited : List κ) (same : Bool)
    (visited' : List κ) : Prop where
  subset : visited ⊆ visited'
  agrees : same = true → (∀ ok, .check ok ∈ l → ok = true) ∧ (∀ c, .visit c ∈ l → key c ∈ visited') ∧
    Closed steps key visited visited'
  disagrees : same = false →
    .check false ∈ l ∨ ∃ b, .visit b ∈ l ∧ ∃ c, Relation.ReflTransGen (Follows steps) b c ∧ ¬Agrees steps c

theorem runSteps_answer {run : α → List κ → Option (Bool × List κ)}
    (hrun : ∀ a visited same visited', run a visited = some (same, visited') →
      Answer steps key a visited same visited')
    {l : List (Step α)} {visited visited' : List κ} {same : Bool}
    (h : runSteps run l visited = some (same, visited')) :
    StepsAnswer steps key l visited same visited' := by
  induction l generalizing visited with
  | nil =>
    cases h
    exact ⟨List.Subset.refl _, fun _ => ⟨nofun, nofun, Closed.refl _⟩, nofun⟩
  | cons step l ih =>
    cases step with
    | check ok =>
      cases ok with
      | true =>
        obtain ⟨hsub, hagrees, hdisagrees⟩ := ih h
        refine ⟨hsub, fun hsame => ?_, fun hsame => ?_⟩
        · obtain ⟨hchecks, hvisits, hclosed⟩ := hagrees hsame
          refine ⟨fun ok hok => ?_, fun c hc => ?_, hclosed⟩
          · cases hok with
            | head => rfl
            | tail _ hok => exact hchecks ok hok
          · cases hc with
            | tail _ hc => exact hvisits c hc
        · obtain hcheck | ⟨b, hb, hc⟩ := hdisagrees hsame
          · exact .inl (List.mem_cons_of_mem _ hcheck)
          · exact .inr ⟨b, List.mem_cons_of_mem _ hb, hc⟩
      | false =>
        cases h
        exact ⟨List.Subset.refl _, nofun, fun _ => .inl List.mem_cons_self⟩
    | visit a =>
      rw [runSteps] at h
      cases hfirst : run a visited with
      | none =>
        rw [hfirst] at h
        cases h
      | some r =>
        obtain ⟨first, visited₁⟩ := r
        rw [hfirst] at h
        obtain ⟨hsub₁, hagrees₁, hdisagrees₁⟩ := hrun a visited first visited₁ hfirst
        cases first with
        | false =>
          cases h
          exact ⟨hsub₁, nofun, fun _ => .inr ⟨a, List.mem_cons_self, hdisagrees₁ rfl⟩⟩
        | true =>
          obtain ⟨hsub, hagrees, hdisagrees⟩ := ih h
          obtain ⟨hkey, hclosed₁⟩ := hagrees₁ rfl
          refine ⟨List.Subset.trans hsub₁ hsub, fun hsame => ?_, fun hsame => ?_⟩
          · obtain ⟨hchecks, hvisits, hclosed⟩ := hagrees hsame
            refine ⟨fun ok hok => ?_, fun c hc => ?_, hclosed₁.trans hclosed hsub⟩
            · cases hok with
              | tail _ hok => exact hchecks ok hok
            · cases hc with
              | head => exact hsub hkey
              | tail _ hc => exact hvisits c hc
          · obtain hcheck | ⟨b, hb, hc⟩ := hdisagrees hsame
            · exact .inl (List.mem_cons_of_mem _ hcheck)
            · exact .inr ⟨b, List.mem_cons_of_mem _ hb, hc⟩

variable [DecidableEq κ]

/-- By induction on the fuel: a node that is being visited is closed with the nodes that its steps visit. -/
theorem run_answer (hkey : ∀ a b, key a = key b → steps a = steps b) {fuel : Nat} :
    ∀ {a : α} {visited : List κ} {same : Bool}
    {visited' : List κ}, run steps key fuel a visited = some (same, visited') →
      Answer steps key a visited same visited' := by
  induction fuel with
  | zero =>
    intro a visited same visited' h
    cases h
  | succ fuel ih =>
    intro a visited same visited' h
    rw [run] at h
    by_cases hvisited : key a ∈ visited
    · rw [if_pos hvisited] at h
      cases h
      exact ⟨List.Subset.refl _, fun _ => ⟨hvisited, Closed.refl _⟩, nofun⟩
    · rw [if_neg hvisited] at h
      obtain ⟨hsub, hagrees, hdisagrees⟩ := runSteps_answer (fun _ _ _ _ => ih) h
      refine ⟨fun k hk => hsub (List.mem_cons_of_mem _ hk), fun hsame => ?_, fun hsame => ?_⟩
      · obtain ⟨hchecks, hvisits, hclosed⟩ := hagrees hsame
        refine ⟨hsub List.mem_cons_self, fun b hb hnot => ?_⟩
        by_cases hba : key b = key a
        · have hsteps : steps b = steps a := hkey b a hba
          rw [Agrees, hsteps]
          refine ⟨hchecks, fun c hc => hvisits c ?_⟩
          rwa [Follows, hsteps] at hc
        · refine hclosed b hb fun hmem => ?_
          rcases List.mem_cons.mp hmem with heq | hmem
          · exact hba heq
          · exact hnot hmem
      · obtain hcheck | ⟨b, hb, c, hc, hnot⟩ := hdisagrees hsame
        · exact ⟨a, .refl, fun hall => Bool.false_ne_true (hall false hcheck)⟩
        · exact ⟨c, .head hb hc, hnot⟩

/-! ## The search ends -/

section

variable [Fintype α]

def unvisited (key : α → κ) (visited : List κ) : Nat := (Finset.univ.filter fun b => key b ∉ visited).card

theorem unvisited_le {visited visited' : List κ} (h : visited ⊆ visited') :
    unvisited key visited' ≤ unvisited key visited := by
  refine Finset.card_le_card fun b hb => ?_
  rw [Finset.mem_filter] at hb ⊢
  exact ⟨hb.1, fun hmem => hb.2 (h hmem)⟩

theorem unvisited_lt {a : α} {visited : List κ} (h : key a ∉ visited) : unvisited key (key a :: visited) <
    unvisited key visited := by
  refine Finset.card_lt_card ⟨fun b hb => ?_, fun hsub => ?_⟩
  · rw [Finset.mem_filter] at hb ⊢
    exact ⟨hb.1, fun hmem => hb.2 (List.mem_cons_of_mem _ hmem)⟩
  · have ha := hsub (Finset.mem_filter.mpr ⟨Finset.mem_univ a, h⟩)
    exact (Finset.mem_filter.mp ha).2 List.mem_cons_self

theorem runSteps_ends (hkey : ∀ a b, key a = key b → steps a = steps b) {fuel : Nat}
    (hrun : ∀ a visited, unvisited key visited < fuel → ∃ same visited', run steps key fuel a visited = some
      (same, visited'))
    (l : List (Step α)) {visited : List κ} (h : unvisited key visited < fuel) :
    ∃ same visited', runSteps (run steps key fuel) l visited = some (same, visited') := by
  induction l generalizing visited with
  | nil => exact ⟨true, visited, rfl⟩
  | cons step l ih =>
    cases step with
    | check ok =>
      cases ok with
      | true => exact ih h
      | false => exact ⟨false, visited, rfl⟩
    | visit a =>
      obtain ⟨same, visited', hfirst⟩ := hrun a visited h
      rw [runSteps, hfirst]
      cases same with
      | false => exact ⟨false, visited', rfl⟩
      | true => exact ih (lt_of_le_of_lt (unvisited_le (run_answer hkey hfirst).subset) h)

theorem run_ends (hkey : ∀ a b, key a = key b → steps a = steps b) {fuel : Nat} : ∀ (a : α) (visited : List κ),
    unvisited key visited < fuel → ∃ same visited', run steps key fuel a visited = some (same, visited') := by
  induction fuel with
  | zero => exact fun _ _ h => absurd h (Nat.not_lt_zero _)
  | succ fuel ih =>
    intro a visited h
    rw [run]
    by_cases hvisited : key a ∈ visited
    · rw [if_pos hvisited]
      exact ⟨true, visited, rfl⟩
    · rw [if_neg hvisited]
      exact runSteps_ends hkey ih (steps a) (lt_of_lt_of_le (unvisited_lt hvisited) (Nat.le_of_lt_succ h))

theorem run_exact (hkey : ∀ a b, key a = key b → steps a = steps b) (a : α) {fuel : Nat}
    (hfuel : Fintype.card α < fuel) :
    ∃ same visited, run steps key fuel a [] = some (same, visited) ∧
      (same = true ↔ ∀ c, Relation.ReflTransGen (Follows steps) a c → Agrees steps c) := by
  have hall : unvisited key [] < fuel := lt_of_le_of_lt (Finset.card_le_univ _) hfuel
  obtain ⟨same, visited, hrun⟩ := run_ends hkey a [] hall
  obtain ⟨-, hagrees, hdisagrees⟩ := run_answer hkey hrun
  refine ⟨same, visited, hrun, fun hsame c hc => ?_, fun h => ?_⟩
  · obtain ⟨hkeya, hclosed⟩ := hagrees hsame
    have hvisited : key c ∈ visited := by
      induction hc with
      | refl => exact hkeya
      | tail _ hstep ih => exact (hclosed _ ih List.not_mem_nil).2 _ hstep
    exact (hclosed c hvisited List.not_mem_nil).1
  · cases same with
    | true => rfl
    | false =>
      obtain ⟨c, hc, hnot⟩ := hdisagrees rfl
      exact (hnot (h c hc)).elim

end

end VisitedSearch
