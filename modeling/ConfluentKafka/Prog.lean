import ConfluentKafka.Lts

/-!
# Programs over a shared world

A program is a tree of calls, each one atomic. What it ensures is stated under interference:
before each of its calls, and before it ends, the world may have moved on as the contract's rely
says. A pool runs any number of such programs over one world, in any order of their calls.
-/

namespace ConfluentKafka

inductive Prog (Op : Type) (Ans : Op → Type) (ε α : Type) : Type where
  | ret (a : α)
  | fail (e : ε)
  | call (op : Op) (k : Ans op → Prog Op Ans ε α)

namespace Prog

variable {Op : Type} {Ans : Op → Type} {ε α β : Type}

def bind : Prog Op Ans ε α → (α → Prog Op Ans ε β) → Prog Op Ans ε β
  | ret a, f => f a
  | fail e, _ => fail e
  | call op k, f => call op fun b => (k b).bind f

def handle : Prog Op Ans ε α → (ε → Prog Op Ans ε α) → Prog Op Ans ε α
  | ret a, _ => ret a
  | fail e, h => h e
  | call op k, h => call op fun b => (k b).handle h

def result? : Prog Op Ans ε α → Option (Except ε α)
  | ret a => some (.ok a)
  | fail e => some (.error e)
  | call _ _ => none

def lift (op : Op) : Prog Op Ans ε (Ans op) := call op ret

def run {W : Type} (exec : (op : Op) → W → Ans op × W) : Prog Op Ans ε α → W → Except ε α × W
  | ret a, w => (.ok a, w)
  | fail e, w => (.error e, w)
  | call op k, w => (k (exec op w).1).run exec (exec op w).2

instance : Monad (Prog Op Ans ε) where
  pure := ret
  bind := bind

instance : MonadExcept ε (Prog Op Ans ε) where
  throw := fail
  tryCatch := handle

section Run

variable {W : Type} (exec : (op : Op) → W → Ans op × W) (w : W)

@[simp] theorem run_pure (a : α) : (pure a : Prog Op Ans ε α).run exec w = (.ok a, w) := rfl

@[simp] theorem run_throw (e : ε) : (throw e : Prog Op Ans ε α).run exec w = (.error e, w) := rfl

@[simp] theorem run_lift_bind (op : Op) (f : Ans op → Prog Op Ans ε α) :
    ((lift op : Prog Op Ans ε (Ans op)) >>= f).run exec w = (f (exec op w).1).run exec (exec op w).2 := rfl

end Run

end Prog

structure Machine (Op : Type) (Ans : Op → Type) (W I E : Type) where
  exec : I → (op : Op) → W → Ans op × W
  event : I → Op → W → E

/-- What a program relies on of the others, and what it has to establish before a call. -/
structure Contract (Op W E : Type) where
  rely : W → W → Prop
  refl : ∀ {w₁ w₂}, rely w₁ w₂ → rely w₂ w₂
  trans : ∀ {w₁ w₂ w₃}, rely w₁ w₂ → rely w₂ w₃ → rely w₁ w₃
  pre : Op → W → List E → Prop

section Rules

variable {Op : Type} {Ans : Op → Type} {W I E ε α β : Type} {M : Machine Op Ans W I E} {K : Contract Op W E}

def Ensures (M : Machine Op Ans W I E) (K : Contract Op W E) (Q : Except ε α → W → List E → Prop) :
    Prog Op Ans ε α → W → List E → Prop
  | .ret a, w, tr => ∀ w', K.rely w w' → Q (.ok a) w' tr
  | .fail e, w, tr => ∀ w', K.rely w w' → Q (.error e) w' tr
  | .call op k, w, tr => ∀ w', K.rely w w' → K.pre op w' tr ∧ ∀ i,
      Ensures M K Q (k (M.exec i op w').1) (M.exec i op w').2 (tr ++ [M.event i op w'])

variable {Q Q' : Except ε α → W → List E → Prop} {p : Prog Op Ans ε α} {w w' : W} {tr : List E}

theorem Ensures.later (h : Ensures M K Q p w tr) (hw : K.rely w w') : Ensures M K Q p w' tr := by
  cases p with
  | ret a => exact fun w'' hw'' => h w'' (K.trans hw hw'')
  | fail e => exact fun w'' hw'' => h w'' (K.trans hw hw'')
  | call op k => exact fun w'' hw'' => h w'' (K.trans hw hw'')

theorem Ensures.mono (h : Ensures M K Q p w tr) (hQ : ∀ r w tr, Q r w tr → Q' r w tr) : Ensures M K Q' p w tr := by
  induction p generalizing w tr with
  | ret a => exact fun w' hw' => hQ _ _ _ (h w' hw')
  | fail e => exact fun w' hw' => hQ _ _ _ (h w' hw')
  | call op k ih =>
    intro w' hw'
    obtain ⟨hpre, hk⟩ := h w' hw'
    exact ⟨hpre, fun i => ih _ (hk i)⟩

theorem Ensures.result (h : Ensures M K Q p w tr) (hw : K.rely w w) {r : Except ε α} (hr : p.result? = some r) :
    Q r w tr := by
  cases p with
  | ret a =>
    obtain rfl : .ok a = r := Option.some.inj hr
    exact h w hw
  | fail e =>
    obtain rfl : .error e = r := Option.some.inj hr
    exact h w hw
  | call op k => cases hr

theorem ensures_of_later (h : ∀ w', K.rely w w' → Ensures M K Q p w' tr) : Ensures M K Q p w tr := by
  cases p with
  | ret a => exact fun w' hw' => h w' hw' w' (K.refl hw')
  | fail e => exact fun w' hw' => h w' hw' w' (K.refl hw')
  | call op k => exact fun w' hw' => h w' hw' w' (K.refl hw')

/-- The rule of sequence: the second program starts where the first one ended. -/
theorem Ensures.bind {f : α → Prog Op Ans ε β} {Q : Except ε β → W → List E → Prop}
    (h : Ensures M K (fun r w tr => match r with
      | .ok a => Ensures M K Q (f a) w tr
      | .error e => Q (.error e) w tr) p w tr) : Ensures M K Q (p >>= f) w tr := by
  change Ensures M K Q (p.bind f) w tr
  induction p generalizing w tr with
  | ret a =>
    apply ensures_of_later
    intro w' hw'
    exact h w' hw'
  | fail e => exact h
  | call op k ih =>
    intro w' hw'
    obtain ⟨hpre, hk⟩ := h w' hw'
    exact ⟨hpre, fun i => ih _ (hk i)⟩

theorem Ensures.handle {g : ε → Prog Op Ans ε α}
    (h : Ensures M K (fun r w tr => match r with
      | .ok a => Q (.ok a) w tr
      | .error e => Ensures M K Q (g e) w tr) p w tr) : Ensures M K Q (tryCatch p g) w tr := by
  change Ensures M K Q (p.handle g) w tr
  induction p generalizing w tr with
  | ret a => exact h
  | fail e =>
    apply ensures_of_later
    intro w' hw'
    exact h w' hw'
  | call op k ih =>
    intro w' hw'
    obtain ⟨hpre, hk⟩ := h w' hw'
    exact ⟨hpre, fun i => ih _ (hk i)⟩

/-- Where every call keeps what the others rely on, the end of a program is later than its start
and its trace goes on from the one before it. -/
theorem Ensures.since (hexec : ∀ i op w tr, K.rely w w → K.pre op w tr → K.rely w (M.exec i op w).2)
    (h : Ensures M K Q p w tr) :
    Ensures M K (fun r w' tr' => K.rely w w' ∧ tr <+: tr' ∧ Q r w' tr') p w tr := by
  suffices ∀ w₀ tr₀, (∀ w', K.rely w w' → K.rely w₀ w') → tr₀ <+: tr →
      Ensures M K (fun r w' tr' => K.rely w₀ w' ∧ tr₀ <+: tr' ∧ Q r w' tr') p w tr from
    this w tr (fun w' hw' => hw') (List.prefix_refl tr)
  intro w₀ tr₀ hw₀ htr
  induction p generalizing w tr with
  | ret a => exact fun w' hw' => ⟨hw₀ w' hw', htr, h w' hw'⟩
  | fail e => exact fun w' hw' => ⟨hw₀ w' hw', htr, h w' hw'⟩
  | call op k ih =>
    intro w' hw'
    obtain ⟨hpre, hk⟩ := h w' hw'
    refine ⟨hpre, fun i => ih _ (hk i) (fun w'' hw'' => ?_) (htr.trans (List.prefix_append _ _))⟩
    have hstep := hexec i op w' tr (K.refl hw') hpre
    exact K.trans (hw₀ w' hw') (K.trans hstep hw'')

theorem Ensures.seq (hexec : ∀ i op w tr, K.rely w w → K.pre op w tr → K.rely w (M.exec i op w).2)
    {f : α → Prog Op Ans ε β} {Q' : Except ε β → W → List E → Prop} (h : Ensures M K Q p w tr)
    (hok : ∀ a w' tr', K.rely w w' → tr <+: tr' → Q (.ok a) w' tr' → Ensures M K Q' (f a) w' tr')
    (herr : ∀ e w' tr', K.rely w w' → tr <+: tr' → Q (.error e) w' tr' → Q' (.error e) w' tr') :
    Ensures M K Q' (p >>= f) w tr := by
  apply Ensures.bind
  apply (h.since hexec).mono
  intro r w' tr' hr
  obtain ⟨hw', htr', hq⟩ := hr
  cases r with
  | ok a => exact hok a w' tr' hw' htr' hq
  | error e => exact herr e w' tr' hw' htr' hq

def Prog.Only (S : Op → Prop) : Prog Op Ans ε α → Prop
  | .ret _ => True
  | .fail _ => True
  | .call op k => S op ∧ ∀ b, (k b).Only S

theorem Prog.Only.bind {S : Op → Prop} {f : α → Prog Op Ans ε β} (hp : p.Only S) (hf : ∀ a, (f a).Only S) :
    (p >>= f).Only S := by
  change (p.bind f).Only S
  induction p with
  | ret a => exact hf a
  | fail e => trivial
  | call op k ih => exact ⟨hp.1, fun b => ih b (hp.2 b)⟩

theorem Ensures.only {S : Op → Prop} {T : E → Prop} (hp : p.Only S) (hT : ∀ i op w, S op → T (M.event i op w))
    (h : Ensures M K Q p w tr) :
    Ensures M K (fun r w' tr' => (∃ es, tr' = tr ++ es ∧ ∀ e ∈ es, T e) ∧ Q r w' tr') p w tr := by
  induction p generalizing w tr with
  | ret a => exact fun w' hw' => ⟨⟨[], by simp, by simp⟩, h w' hw'⟩
  | fail e => exact fun w' hw' => ⟨⟨[], by simp, by simp⟩, h w' hw'⟩
  | call op k ih =>
    intro w' hw'
    obtain ⟨hpre, hk⟩ := h w' hw'
    refine ⟨hpre, fun i => (ih _ (hp.2 _) (hk i)).mono ?_⟩
    rintro r w'' tr'' ⟨⟨es, rfl, hes⟩, hq⟩
    refine ⟨⟨M.event i op w' :: es, by simp, ?_⟩, hq⟩
    intro e he
    obtain rfl | he := List.mem_cons.mp he
    · exact hT i op w' hp.1
    · exact hes e he

/-- The rule of a call: its answer is given in the world it is made in. -/
theorem ensures_lift {op : Op} {Q : Except ε (Ans op) → W → List E → Prop}
    (h : ∀ w', K.rely w w' → K.pre op w' tr ∧ ∀ i w'', K.rely (M.exec i op w').2 w'' →
      Q (.ok (M.exec i op w').1) w'' (tr ++ [M.event i op w'])) :
    Ensures M K Q (Prog.lift op) w tr := by
  intro w' hw'
  obtain ⟨hpre, hk⟩ := h w' hw'
  exact ⟨hpre, fun i w'' hw'' => hk i w'' hw''⟩

theorem ensures_lift_bind {op : Op} {f : Ans op → Prog Op Ans ε α} :
    Ensures M K Q (Prog.lift op >>= f) w tr ↔ ∀ w', K.rely w w' → K.pre op w' tr ∧ ∀ i,
      Ensures M K Q (f (M.exec i op w').1) (M.exec i op w').2 (tr ++ [M.event i op w']) :=
  Iff.rfl

end Rules

/-- Every event of a trace meets the condition, given the events before it. -/
def OkTrace {E : Type} (ok : List E → E → Prop) (tr : List E) : Prop :=
  ∀ tr₁ e tr₂, tr = tr₁ ++ e :: tr₂ → ok tr₁ e

theorem okTrace_nil {E : Type} {ok : List E → E → Prop} : OkTrace ok [] := by
  intro tr₁ e tr₂ h
  simp at h

theorem okTrace_snoc {E : Type} {ok : List E → E → Prop} {tr : List E} {e : E} :
    OkTrace ok (tr ++ [e]) ↔ OkTrace ok tr ∧ ok tr e := by
  constructor
  · intro h
    refine ⟨fun tr₁ e' tr₂ htr => h tr₁ e' (tr₂ ++ [e]) (by simp [htr]), h tr e [] rfl⟩
  · rintro ⟨htr, he⟩ tr₁ e' tr₂ h
    rcases List.eq_nil_or_concat tr₂ with rfl | ⟨tr₃, e'', rfl⟩
    · obtain ⟨rfl, h'⟩ := List.append_inj' h rfl
      obtain rfl : e = e' := by simpa using h'
      exact he
    · rw [List.concat_eq_append, ← List.cons_append, ← List.append_assoc] at h
      obtain ⟨rfl, -⟩ := List.append_inj' h rfl
      exact htr tr₁ e' tr₃ rfl

/-! ## Pools -/

/-- A started program: what was called, what is left of it, and the events of its calls. -/
structure Thread (Op : Type) (Ans : Op → Type) (ε α χ E : Type) where
  arg : χ
  prog : Prog Op Ans ε α
  trace : List E

structure Pool (Op : Type) (Ans : Op → Type) (ε α χ E W : Type) where
  world : W
  threads : List (Thread Op Ans ε α χ E)

inductive PoolLabel (χ I V : Type) where
  | spawn (c : χ)
  | step (i : Nat) (inp : I)
  | env (e : V)

/-- A machine, the programs that may be started on it, and the moves of the world by itself. -/
structure System (Op : Type) (Ans : Op → Type) (ε α χ E W I V : Type) extends Machine Op Ans W I E where
  start : χ → Prog Op Ans ε α
  env : V → W → W

namespace System

variable {Op : Type} {Ans : Op → Type} {ε α χ E W I V : Type} (S : System Op Ans ε α χ E W I V)

def step (s : Pool Op Ans ε α χ E W) : PoolLabel χ I V → Option (Pool Op Ans ε α χ E W)
  | .spawn c => some { s with threads := s.threads ++ [⟨c, S.start c, []⟩] }
  | .step i inp =>
    match s.threads[i]? with
    | some ⟨c, .call op k, tr⟩ => some
        { world := (S.exec inp op s.world).2,
          threads := s.threads.set i ⟨c, k (S.exec inp op s.world).1, tr ++ [S.event inp op s.world]⟩ }
    | _ => none
  | .env e => some { s with world := S.env e s.world }

def pool (s : Pool Op Ans ε α χ E W) : Lts (Pool Op Ans ε α χ E W) (PoolLabel χ I V) where
  init := s
  step := S.step

variable {S}

theorem step_cases {s s' : Pool Op Ans ε α χ E W} {l : PoolLabel χ I V} (h : S.step s l = some s') :
    (∃ c, l = .spawn c ∧ s' = { s with threads := s.threads ++ [⟨c, S.start c, []⟩] }) ∨
    (∃ i inp c op k tr, l = .step i inp ∧ s.threads[i]? = some ⟨c, .call op k, tr⟩ ∧
      s' = { world := (S.exec inp op s.world).2,
             threads := s.threads.set i ⟨c, k (S.exec inp op s.world).1, tr ++ [S.event inp op s.world]⟩ }) ∨
    ∃ e, l = .env e ∧ s' = { s with world := S.env e s.world } := by
  cases l with
  | spawn c =>
    left
    exact ⟨c, rfl, by simpa [step] using h.symm⟩
  | env e =>
    right; right
    exact ⟨e, rfl, by simpa [step] using h.symm⟩
  | step i inp =>
    right; left
    simp only [step] at h
    split at h
    · next c op k tr hi => exact ⟨i, inp, c, op, k, tr, rfl, hi, by simpa using h.symm⟩
    · cases h

/-- The obligations under which a contract's rely holds of every step of the pool. -/
structure Guarantee (S : System Op Ans ε α χ E W I V) (K : Contract Op W E) : Prop where
  start : ∀ c w, K.rely w w → Ensures S.toMachine K (fun _ _ _ => True) (S.start c) w []
  exec : ∀ i op w tr, K.rely w w → K.pre op w tr → K.rely w (S.exec i op w).2
  env : ∀ e w, K.rely w w → K.rely w (S.env e w)

/-- The world is good, and no started program will break it. -/
structure Kept (S : System Op Ans ε α χ E W I V) (K : Contract Op W E) (s : Pool Op Ans ε α χ E W) : Prop where
  world : K.rely s.world s.world
  threads : ∀ t ∈ s.threads, Ensures S.toMachine K (fun _ _ _ => True) t.prog s.world t.trace

variable {K L : Contract Op W E} {s s' : Pool Op Ans ε α χ E W} {l : PoolLabel χ I V}

theorem Guarantee.step (hK : Guarantee S K) (hs : Kept S K s) (h : S.step s l = some s') :
    K.rely s.world s'.world ∧ Kept S K s' := by
  obtain ⟨c, -, rfl⟩ | ⟨i, inp, c, op, k, tr, -, hi, rfl⟩ | ⟨e, -, rfl⟩ := step_cases h
  · refine ⟨hs.world, hs.world, fun t ht => ?_⟩
    obtain ht | ht := List.mem_append.mp ht
    · exact hs.threads t ht
    · rw [List.mem_singleton.mp ht]
      exact hK.start c _ hs.world
  · obtain ⟨hpre, hk⟩ := hs.threads _ (List.mem_of_getElem? hi) s.world hs.world
    have hr := hK.exec inp op s.world tr hs.world hpre
    refine ⟨hr, K.refl hr, fun t ht => ?_⟩
    obtain ht | rfl := List.mem_or_eq_of_mem_set ht
    · exact (hs.threads t ht).later hr
    · exact hk inp
  · have hr := hK.env e s.world hs.world
    exact ⟨hr, K.refl hr, fun t ht => (hs.threads t ht).later hr⟩

theorem Guarantee.run {C : Pool Op Ans ε α χ E W → PoolLabel χ I V → Prop} (hK : Guarantee S K) (hs : Kept S K s)
    {ls : List (PoolLabel χ I V)} (hr : (S.pool s).RunWhere C ls s') : Kept S K s' ∧ K.rely s.world s'.world := by
  apply hr.inv (I := fun s' => Kept S K s' ∧ K.rely s.world s'.world)
  · exact ⟨hs, hs.world⟩
  · rintro s₁ l s₂ ⟨hk, hrel⟩ - h
    obtain ⟨hr', hk'⟩ := hK.step hk h
    exact ⟨hk', K.trans hrel hr'⟩

/-- What a started program has done satisfies `J`, and what is left of it ensures `Q`. -/
def Holds (S : System Op Ans ε α χ E W I V) (K : Contract Op W E) (Q : Except ε α → W → List E → Prop)
    (J : List E → Prop) (w : W) (t : Thread Op Ans ε α χ E) : Prop :=
  J t.trace ∧ Ensures S.toMachine K Q t.prog w t.trace

section Threads

variable {Q : Except ε α → W → List E → Prop} {J : List E → Prop}
  (hJ : ∀ i op w tr, L.pre op w tr → J tr → J (tr ++ [S.event i op w]))
  (hK : Guarantee S K) (hrely : L.rely = K.rely)

include hJ hrely

theorem Holds.own (hw : K.rely s.world s.world) {c : χ} {op : Op} {k : Ans op → Prog Op Ans ε α} {tr : List E}
    (h : Holds S L Q J s.world ⟨c, .call op k, tr⟩) (i : I) :
    Holds S L Q J (S.exec i op s.world).2 ⟨c, k (S.exec i op s.world).1, tr ++ [S.event i op s.world]⟩ := by
  obtain ⟨hj, hens⟩ := h
  obtain ⟨hpre, hk⟩ := hens s.world (hrely ▸ hw)
  exact ⟨hJ i op _ _ hpre hj, hk i⟩

omit hJ in
theorem Holds.other {w w' : W} {t : Thread Op Ans ε α χ E} (h : Holds S L Q J w t) (hw : K.rely w w') :
    Holds S L Q J w' t := by
  obtain ⟨hj, hens⟩ := h
  exact ⟨hj, hens.later (hrely ▸ hw)⟩

include hK

theorem Holds.step (hs : Kept S K s) (h : S.step s l = some s') {j : Nat} {t : Thread Op Ans ε α χ E}
    (hj : s.threads[j]? = some t) (ht : Holds S L Q J s.world t) :
    ∃ t', s'.threads[j]? = some t' ∧ t'.arg = t.arg ∧ Holds S L Q J s'.world t' := by
  have hrel := (hK.step hs h).1
  obtain ⟨c, -, rfl⟩ | ⟨i, inp, c, op, k, tr, -, hi, rfl⟩ | ⟨e, -, rfl⟩ := step_cases h
  · refine ⟨t, ?_, rfl, ht⟩
    rw [List.getElem?_append_left (List.getElem?_eq_some_iff.mp hj).1]
    exact hj
  · by_cases hij : i = j
    · subst hij
      obtain rfl : _ = t := Option.some.inj (hi.symm.trans hj)
      refine ⟨_, List.getElem?_set_self (List.getElem?_eq_some_iff.mp hj).1, rfl, ?_⟩
      exact ht.own hJ hrely hs.world inp
    · refine ⟨t, ?_, rfl, ht.other hrely hrel⟩
      rw [List.getElem?_set_ne hij]
      exact hj
  · exact ⟨t, hj, rfl, ht.other hrely hrel⟩

theorem Holds.run {C : Pool Op Ans ε α χ E W → PoolLabel χ I V → Prop} (hs : Kept S K s) {j : Nat}
    {t : Thread Op Ans ε α χ E} (hj : s.threads[j]? = some t) (ht : Holds S L Q J s.world t)
    {ls : List (PoolLabel χ I V)} (hr : (S.pool s).RunWhere C ls s') :
    ∃ t', s'.threads[j]? = some t' ∧ t'.arg = t.arg ∧ Holds S L Q J s'.world t' := by
  have := hr.inv (I := fun s' => Kept S K s' ∧
    ∃ t', s'.threads[j]? = some t' ∧ t'.arg = t.arg ∧ Holds S L Q J s'.world t') ⟨hs, t, hj, rfl, ht⟩ ?_
  · exact this.2
  · rintro s₁ l s₂ ⟨hk, t₁, hj₁, harg, ht₁⟩ - h
    obtain ⟨t₂, hj₂, harg₂, ht₂⟩ := ht₁.step hJ hK hrely hk h hj₁
    exact ⟨(hK.step hk h).2, t₂, hj₂, harg₂.trans harg, ht₂⟩

theorem Guarantee.holds {C : Pool Op Ans ε α χ E W → PoolLabel χ I V → Prop} {A : χ → Prop} (hJ₀ : J [])
    (hstart : ∀ c w, A c → K.rely w w → Ensures S.toMachine L Q (S.start c) w []) {w : W} (hw : K.rely w w)
    {ls : List (PoolLabel χ I V)} (hr : (S.pool ⟨w, []⟩).RunWhere C ls s') :
    ∀ t ∈ s'.threads, A t.arg → Holds S L Q J s'.world t := by
  have := hr.inv (I := fun s' => Kept S K s' ∧ ∀ t ∈ s'.threads, A t.arg → Holds S L Q J s'.world t)
    ⟨⟨hw, by simp [pool]⟩, by simp [pool]⟩ ?_
  · exact this.2
  · rintro s₁ l s₂ ⟨hk, hall⟩ - h
    refine ⟨(hK.step hk h).2, ?_⟩
    have hrel := (hK.step hk h).1
    obtain ⟨c, -, rfl⟩ | ⟨i, inp, c, op, k, tr, -, hi, rfl⟩ | ⟨e, -, rfl⟩ := step_cases h
    · intro t ht hA
      obtain ht | ht := List.mem_append.mp ht
      · exact hall t ht hA
      · rw [List.mem_singleton.mp ht] at hA ⊢
        exact ⟨hJ₀, hstart c _ hA hk.world⟩
    · intro t ht hA
      obtain ht | rfl := List.mem_or_eq_of_mem_set ht
      · exact (hall t ht hA).other hrely hrel
      · exact (hall _ (List.mem_of_getElem? hi) hA).own hJ hrely hk.world inp
    · intro t ht hA
      exact (hall t ht hA).other hrely hrel

end Threads

/-- Where every step of a run meets a condition, every trace does. -/
theorem okTrace_run (ok : List E → E → Prop) {C : Pool Op Ans ε α χ E W → PoolLabel χ I V → Prop}
    (hC : ∀ s i inp c op k tr, C s (.step i inp) → s.threads[i]? = some ⟨c, .call op k, tr⟩ →
      ok tr (S.event inp op s.world))
    {w : W} {ls : List (PoolLabel χ I V)} (hr : (S.pool ⟨w, []⟩).RunWhere C ls s') :
    ∀ t ∈ s'.threads, OkTrace ok t.trace := by
  apply hr.inv (I := fun s' => ∀ t ∈ s'.threads, OkTrace ok t.trace)
  · simp [pool]
  · rintro s₁ l s₂ hall hc h
    obtain ⟨c, -, rfl⟩ | ⟨i, inp, c, op, k, tr, rfl, hi, rfl⟩ | ⟨e, -, rfl⟩ := step_cases h
    · intro t ht
      obtain ht | ht := List.mem_append.mp ht
      · exact hall t ht
      · rw [List.mem_singleton.mp ht]
        exact okTrace_nil
    · intro t ht
      obtain ht | rfl := List.mem_or_eq_of_mem_set ht
      · exact hall t ht
      · exact okTrace_snoc.mpr ⟨hall _ (List.mem_of_getElem? hi), hC s₁ i inp c op k tr hc hi⟩
    · exact hall

/-- A thread is never blocked: its own steps alone bring it to its end, with answers that
satisfy any condition that the world can always meet. -/
theorem exec_own {ok : List E → E → Prop} (hok : ∀ tr op w, ∃ i, ok tr (S.event i op w))
    (s₀ : Pool Op Ans ε α χ E W) {j : Nat} {c : χ} (p : Prog Op Ans ε α) :
    ∀ (s : Pool Op Ans ε α χ E W) (tr : List E), s.threads[j]? = some ⟨c, p, tr⟩ → OkTrace ok tr →
      ∃ ls s' t', (∀ l ∈ ls, ∃ i, l = .step j i) ∧ (S.pool s₀).exec (fun _ _ => true) s ls = some s' ∧
        s'.threads[j]? = some t' ∧ t'.arg = c ∧ OkTrace ok t'.trace ∧ ∃ r, t'.prog.result? = some r := by
  induction p with
  | ret a => exact fun s tr hj ht => ⟨[], s, _, by simp, rfl, hj, rfl, ht, _, rfl⟩
  | fail e => exact fun s tr hj ht => ⟨[], s, _, by simp, rfl, hj, rfl, ht, _, rfl⟩
  | call op k ih =>
    intro s tr hj ht
    obtain ⟨i, hi⟩ := hok tr op s.world
    obtain ⟨ls, s', t', hls, hex, hend⟩ := ih (S.exec i op s.world).1
      { world := (S.exec i op s.world).2,
        threads := s.threads.set j ⟨c, k (S.exec i op s.world).1, tr ++ [S.event i op s.world]⟩ }
      (tr ++ [S.event i op s.world]) (List.getElem?_set_self (List.getElem?_eq_some_iff.mp hj).1)
      (okTrace_snoc.mpr ⟨ht, hi⟩)
    refine ⟨.step j i :: ls, s', t', ?_, ?_, hend⟩
    · intro l hl
      obtain rfl | hl := List.mem_cons.mp hl
      · exact ⟨i, rfl⟩
      · exact hls l hl
    · simp only [Lts.exec, pool, step, hj, if_true, Option.bind_some]
      exact hex

end System

end ConfluentKafka
