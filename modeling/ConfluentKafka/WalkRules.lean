import ConfluentKafka.FieldWalk

/-!
# Rules for walks

An orderly walk only adds notes and leaves the stack of fields as it was, but for the types in it. Two
walks that make the same notes do the same, and a walk with fuel settles if more fuel changes nothing.
-/

namespace ConfluentKafka

def FieldContext.untyped (c : FieldContext) : FieldContext := { c with type := .NULL }

namespace Walk

variable {ν α β : Type}

/-! ## Orderly walks -/

def Orderly (m : Walk ν α) : Prop :=
  ∀ notes stack, Keeps (fun s => notes <+: s.notes ∧ s.fieldContexts.map FieldContext.untyped = stack) m

theorem Orderly.pure (a : α) : Orderly (Pure.pure a : Walk ν α) := fun _ _ => Keeps.pure a

theorem Orderly.throw (e : WalkError) : Orderly (MonadExcept.throw e : Walk ν α) := fun _ _ => Keeps.throw e

theorem Orderly.bind {m : Walk ν α} {k : α → Walk ν β} (hm : Orderly m) (hk : ∀ a, Orderly (k a)) :
    Orderly (m >>= k) :=
  fun notes stack => Keeps.bind (hm notes stack) fun a => hk a notes stack

theorem Orderly.ite {c : Prop} [Decidable c] {m m' : Walk ν α} (hm : c → Orderly m) (hm' : ¬c → Orderly m') :
    Orderly (if c then m else m') := by
  by_cases h : c
  · rw [if_pos h]
    exact hm h
  · rw [if_neg h]
    exact hm' h

theorem Orderly.note (n : ν) : Orderly (note n) :=
  fun _ _ _ hs => ⟨hs.1.trans (List.prefix_append _ _), hs.2⟩

theorem Orderly.currentField : Orderly (currentField : Walk ν (Option FieldContext)) := fun _ _ _ hs => hs

theorem Orderly.setType (type : FieldType) : Orderly (setType type : Walk ν Unit) := by
  rintro notes stack ⟨cs, ns⟩ hs
  cases cs with
  | nil => exact hs
  | cons c cs => exact hs

theorem Orderly.ofExcept (x : Except WalkError α) : Orderly (ofExcept x : Walk ν α) := by
  cases x with
  | ok a => exact Orderly.pure a
  | error e => exact Orderly.throw e

theorem Orderly.mapEach {walk : α → Walk ν β} (hwalk : ∀ v, Orderly (walk v)) (vs : List α) :
    Orderly (mapEach walk vs) := by
  induction vs with
  | nil => exact Orderly.pure []
  | cons v vs ih => exact Orderly.bind (hwalk v) fun _ => Orderly.bind ih fun _ => Orderly.pure _

theorem Orderly.mapValue {walk : α → Walk ν β} (hwalk : ∀ v, Orderly (walk v)) (entry : String × α) :
    Orderly (mapValue walk entry) := Orderly.bind (hwalk entry.2) fun _ => Orderly.pure _

theorem Orderly.mapValues {walk : α → Walk ν β} (hwalk : ∀ v, Orderly (walk v)) (entries : List (String × α)) :
    Orderly (mapValues walk entries) := Orderly.mapEach (Orderly.mapValue hwalk) entries

theorem Orderly.inField (c : FieldContext) {m : Walk ν α} (hm : Orderly m) : Orderly (inField c m) := by
  intro notes stack s hs
  have hbody := hm notes (c.untyped :: stack) { s with fieldContexts := c :: s.fieldContexts }
    ⟨hs.1, congrArg (c.untyped :: ·) hs.2⟩
  unfold Walk.inField
  cases hm : m { s with fieldContexts := c :: s.fieldContexts } with
  | ok a s' =>
    rw [hm] at hbody
    exact ⟨hbody.1, by rw [List.map_tail, hbody.2, List.tail_cons]⟩
  | error e s' =>
    rw [hm] at hbody
    exact ⟨hbody.1, by rw [List.map_tail, hbody.2, List.tail_cons]⟩

theorem Orderly.end {m : Walk ν α} (hm : Orderly m) (s : WalkState ν) :
    s.notes <+: (endState (m s)).notes ∧
      (endState (m s)).fieldContexts.map FieldContext.untyped = s.fieldContexts.map FieldContext.untyped := by
  have h := hm s.notes (s.fieldContexts.map FieldContext.untyped) s ⟨List.prefix_refl _, rfl⟩
  cases hms : m s with
  | ok a s' =>
    rw [hms] at h
    exact h
  | error e s' =>
    rw [hms] at h
    exact h

theorem Orderly.notes {m : Walk ν α} (hm : Orderly m) (s : WalkState ν) : s.notes <+: (endState (m s)).notes :=
  (hm.end s).1

theorem Orderly.notes_of_ok {m : Walk ν α} (hm : Orderly m) {s t : WalkState ν} {a : α} (h : m s = .ok a t) :
    s.notes <+: t.notes := by
  have hend := hm.notes s
  rwa [h] at hend

theorem Orderly.outside {m : Walk ν α} (hm : Orderly m) {s : WalkState ν} (hs : s.fieldContexts = []) :
    (endState (m s)).fieldContexts = [] := by
  have hend := (hm.end s).2
  rw [hs] at hend
  exact List.map_eq_nil_iff.mp hend

theorem endState_bind_of_ok {m : Walk ν α} {k : α → Walk ν β} {s t : WalkState ν} {a : α} (h : m s = .ok a t) :
    endState ((m >>= k) s) = endState (k a t) := congrArg endState (bind_of_ok h)

/-- What follows a walk only adds to its notes. -/
theorem Orderly.notes_bind {m : Walk ν α} {k : α → Walk ν β} (hk : ∀ a, Orderly (k a)) (s : WalkState ν) :
    (endState (m s)).notes <+: (endState ((m >>= k) s)).notes := by
  cases h : m s with
  | ok a t =>
    rw [endState_bind_of_ok h]
    exact (hk a).notes t
  | error e t =>
    rw [bind_of_error h]
    exact List.prefix_refl _

/-! ## Walks that make the same notes -/

def Compatible (xs ys : List ν) : Prop := xs <+: ys ∨ ys <+: xs

theorem Compatible.of_prefixes {xs ys xs' ys' : List ν} (h : Compatible xs' ys') (hx : xs <+: xs')
    (hy : ys <+: ys') :
    Compatible xs ys := by
  cases h with
  | inl h => exact List.prefix_or_prefix_of_prefix (hx.trans h) hy
  | inr h => exact List.prefix_or_prefix_of_prefix hx (hy.trans h)

theorem Compatible.last {xs : List ν} {x y : ν} (h : Compatible (xs ++ [x]) (xs ++ [y])) : x = y := by
  have hsing : [x] <+: [y] ∨ [y] <+: [x] :=
    h.imp (List.prefix_append_right_inj xs).mp (List.prefix_append_right_inj xs).mp
  cases hsing with
  | inl h => exact List.singleton_inj.mp (h.eq_of_length rfl)
  | inr h => exact (List.singleton_inj.mp (h.eq_of_length rfl)).symm

/-- Where the first walk ends well and all its notes are good, the second walk from the same state, as long as
it makes no other notes, ends well with the same state. -/
def Follows (good : ν → Prop) (R : α → α → Prop) (m m' : Walk ν α) : Prop :=
  ∀ s a t, m s = .ok a t → (∀ n ∈ t.notes, good n) → Compatible t.notes (endState (m' s)).notes →
    ∃ a', m' s = .ok a' t ∧ R a a'

namespace Follows

variable {good : ν → Prop} {R : α → α → Prop} {Q : β → β → Prop}

theorem refl (hR : ∀ a, R a a) (m : Walk ν α) : Follows good R m m := fun _ a _ h _ _ => ⟨a, h, hR a⟩

theorem pure {a a' : α} (h : R a a') : Follows good R (Pure.pure a : Walk ν α) (Pure.pure a') := by
  rintro s b t hrun - -
  cases hrun
  exact ⟨a', rfl, h⟩

theorem throw (e : WalkError) (m : Walk ν α) : Follows good R (MonadExcept.throw e) m := nofun

theorem mono {R' : α → α → Prop} {m m' : Walk ν α} (h : Follows good R m m') (himp : ∀ a a', R a a' → R' a a') :
    Follows good R' m m' := by
  intro s a t hrun hgood hcomp
  obtain ⟨a', hrun', hR⟩ := h s a t hrun hgood hcomp
  exact ⟨a', hrun', himp a a' hR⟩

theorem bind {m m' : Walk ν α} {k k' : α → Walk ν β} (hm : Follows good R m m')
    (hk : ∀ a a', R a a' → Follows good Q (k a) (k' a')) (ho : ∀ a, Orderly (k a)) (ho' : ∀ a, Orderly (k' a)) :
    Follows good Q (m >>= k) (m' >>= k') := by
  intro s b t hrun hgood hcomp
  obtain ⟨a, t₁, hm₁, hk₁⟩ := (bind_eq_ok_iff m k s t b).mp hrun
  have hnotes : t₁.notes <+: t.notes := (ho a).notes_of_ok hk₁
  obtain ⟨a', hm₁', hR⟩ := hm s a t₁ hm₁ (fun n hn => hgood n (hnotes.subset hn))
    (hcomp.of_prefixes hnotes (Orderly.notes_bind ho' s))
  rw [endState_bind_of_ok hm₁'] at hcomp
  obtain ⟨b', hk₁', hQ⟩ := hk a a' hR t₁ b t hk₁ hgood hcomp
  exact ⟨b', (bind_of_ok hm₁').trans hk₁', hQ⟩

theorem note {n n' : ν} {k k' : Walk ν β} (hk : good n → n = n' → Follows good Q k k') (ho : Orderly k)
    (ho' : Orderly k') : Follows good Q (Walk.note n >>= fun _ => k) (Walk.note n' >>= fun _ => k') := by
  intro s b t hrun hgood hcomp
  have hnotes : s.notes ++ [n] <+: t.notes := ho.notes_of_ok hrun
  have hnotes' : s.notes ++ [n'] <+: (endState ((Walk.note n' >>= fun _ => k') s)).notes :=
    ho'.notes { s with notes := s.notes ++ [n'] }
  have heq : n = n' := (hcomp.of_prefixes hnotes hnotes').last
  subst heq
  exact hk (hgood n (hnotes.subset (by simp))) rfl { s with notes := s.notes ++ [n] } b t hrun hgood hcomp

theorem inField (c : FieldContext) {m m' : Walk ν α} (h : Follows good R m m') :
    Follows good R (Walk.inField c m) (Walk.inField c m') := by
  intro s a t hrun hgood hcomp
  unfold Walk.inField at hrun
  cases hm : m { s with fieldContexts := c :: s.fieldContexts } with
  | error e t₁ =>
    rw [hm] at hrun
    cases hrun
  | ok a₁ t₁ =>
    rw [hm] at hrun
    cases hrun
    have hcomp' : Compatible t₁.notes (endState (m' { s with fieldContexts := c :: s.fieldContexts })).notes := by
      unfold Walk.inField at hcomp
      cases hm' : m' { s with fieldContexts := c :: s.fieldContexts } with
      | ok a' t' =>
        rw [hm'] at hcomp
        exact hcomp
      | error e t' =>
        rw [hm'] at hcomp
        exact hcomp
    obtain ⟨a', hm', hR⟩ := h _ a t₁ hm hgood hcomp'
    refine ⟨a', ?_, hR⟩
    unfold Walk.inField
    rw [hm']

end Follows

/-! ## Walks with enough fuel -/

/-- From some fuel on the walk always ends well and in the same way, or else always makes a note that is not
good. -/
def Settles (good : ν → Prop) (P : α → Prop) (m : Nat → Walk ν α) : Prop :=
  ∀ s, ∃ n, (∃ a t, P a ∧ ∀ fuel ≥ n, m fuel s = .ok a t) ∨
    ∀ fuel ≥ n, ∃ x ∈ (endState (m fuel s)).notes, ¬good x

namespace Settles

variable {good : ν → Prop} {P : α → Prop} {Q : β → Prop}

theorem of_ok {m : Walk ν α} (h : ∀ s, ∃ a t, P a ∧ m s = .ok a t) : Settles good P fun _ => m := by
  intro s
  obtain ⟨a, t, hP, hm⟩ := h s
  exact ⟨0, .inl ⟨a, t, hP, fun _ _ => hm⟩⟩

theorem pure {a : α} (h : P a) : Settles good P fun _ => (Pure.pure a : Walk ν α) :=
  of_ok fun s => ⟨a, s, h, rfl⟩

theorem mono {P' : α → Prop} {m : Nat → Walk ν α} (h : Settles good P m) (himp : ∀ a, P a → P' a) :
    Settles good P' m := by
  intro s
  obtain ⟨n, ⟨a, t, hP, hm⟩ | hbad⟩ := h s
  · exact ⟨n, .inl ⟨a, t, himp a hP, hm⟩⟩
  · exact ⟨n, .inr hbad⟩

theorem bind {m : Nat → Walk ν α} {k : Nat → α → Walk ν β} (hm : Settles good P m)
    (hk : ∀ a, P a → Settles good Q fun fuel => k fuel a) (ho : ∀ fuel a, Orderly (k fuel a)) :
    Settles good Q fun fuel => m fuel >>= k fuel := by
  intro s
  obtain ⟨n, ⟨a, t, hP, hm₁⟩ | hbad⟩ := hm s
  · obtain ⟨n', ⟨b, t', hQ, hk₁⟩ | hbad⟩ := hk a hP t
    · refine ⟨max n n', .inl ⟨b, t', hQ, fun fuel hfuel => ?_⟩⟩
      show (m fuel >>= k fuel) s = _
      rw [bind_of_ok (hm₁ fuel (le_trans (le_max_left n n') hfuel))]
      exact hk₁ fuel (le_trans (le_max_right n n') hfuel)
    · refine ⟨max n n', .inr fun fuel hfuel => ?_⟩
      show ∃ x ∈ (endState ((m fuel >>= k fuel) s)).notes, ¬good x
      rw [endState_bind_of_ok (hm₁ fuel (le_trans (le_max_left n n') hfuel))]
      exact hbad fuel (le_trans (le_max_right n n') hfuel)
  · refine ⟨n, .inr fun fuel hfuel => ?_⟩
    obtain ⟨x, hx, hgood⟩ := hbad fuel hfuel
    exact ⟨x, (Orderly.notes_bind (ho fuel) s).subset hx, hgood⟩

theorem note {n : ν} {k : Nat → Walk ν β} (hk : good n → Settles good Q k) (ho : ∀ fuel, Orderly (k fuel)) :
    Settles good Q fun fuel => Walk.note n >>= fun _ => k fuel := by
  by_cases hn : good n
  · intro s
    exact hk hn { s with notes := s.notes ++ [n] }
  · intro s
    refine ⟨0, .inr fun fuel _ => ⟨n, ?_, hn⟩⟩
    exact ((ho fuel).notes { s with notes := s.notes ++ [n] }).subset (by simp)

theorem inField (c : FieldContext) {m : Nat → Walk ν α} (h : Settles good P m) :
    Settles good P fun fuel => Walk.inField c (m fuel) := by
  intro s
  obtain ⟨n, ⟨a, t, hP, hm⟩ | hbad⟩ := h { s with fieldContexts := c :: s.fieldContexts }
  · refine ⟨n, .inl ⟨a, { t with fieldContexts := t.fieldContexts.tail }, hP, fun fuel hfuel => ?_⟩⟩
    show Walk.inField c (m fuel) s = _
    unfold Walk.inField
    rw [hm fuel hfuel]
  · refine ⟨n, .inr fun fuel hfuel => ?_⟩
    obtain ⟨x, hx, hgood⟩ := hbad fuel hfuel
    refine ⟨x, ?_, hgood⟩
    show x ∈ (endState (Walk.inField c (m fuel) s)).notes
    unfold Walk.inField
    cases hm : m fuel { s with fieldContexts := c :: s.fieldContexts } with
    | ok a t =>
      rw [hm] at hx
      exact hx
    | error e t =>
      rw [hm] at hx
      exact hx

theorem of_succ {m : Nat → Walk ν α} (h : Settles good P fun fuel => m (fuel + 1)) : Settles good P m := by
  intro s
  obtain ⟨n, ⟨a, t, hP, hm⟩ | hbad⟩ := h s
  · refine ⟨n + 1, .inl ⟨a, t, hP, fun fuel hfuel => ?_⟩⟩
    obtain ⟨fuel, rfl⟩ := Nat.exists_eq_add_of_le' (Nat.le_trans (Nat.le_add_left 1 n) hfuel)
    exact hm fuel (Nat.le_of_succ_le_succ hfuel)
  · refine ⟨n + 1, .inr fun fuel hfuel => ?_⟩
    obtain ⟨fuel, rfl⟩ := Nat.exists_eq_add_of_le' (Nat.le_trans (Nat.le_add_left 1 n) hfuel)
    exact hbad fuel (Nat.le_of_succ_le_succ hfuel)

end Settles

/-! ## Walks that return their value -/

theorem applyRule_eq_self {rule : WalkRule} {fieldTransform : FieldTransform β} {c : Option FieldContext} {v : β}
    (h : ∀ c, fieldTransform c v = .ok v) : applyRule rule fieldTransform c v = .ok v := by
  cases c with
  | none => rfl
  | some c => simp only [applyRule, h, ite_self]

def Returns (v : α) (m : Nat → Walk ν α) : Prop := Settles (fun _ => True) (· = v) m

namespace Returns

theorem pure (v : α) : Returns v fun _ => (Pure.pure v : Walk ν α) := Settles.pure rfl

theorem bind {v : α} {w : β} {m : Nat → Walk ν α} {k : Nat → α → Walk ν β} (hm : Returns v m)
    (hk : Returns w fun fuel => k fuel v) (ho : ∀ fuel a, Orderly (k fuel a)) : Returns w fun fuel =>
      m fuel >>= k fuel :=
  Settles.bind hm (fun a ha => by rw [ha]; exact hk) ho

/-- What a call without fuel returns does not matter. -/
theorem after {w : β} {m : Walk ν α} {k : Nat → α → Walk ν β} (hm : ∀ s, ∃ a t, m s = .ok a t)
    (hk : ∀ a, Returns w fun fuel => k fuel a) (ho : ∀ fuel a, Orderly (k fuel a)) :
    Returns w fun fuel => m >>= k fuel := by
  refine Settles.bind (P := fun _ => True) (Settles.of_ok fun s => ?_) (fun a _ => hk a) ho
  obtain ⟨a, t, hm⟩ := hm s
  exact ⟨a, t, trivial, hm⟩

theorem note {w : β} (n : ν) {k : Nat → Walk ν β} (hk : Returns w k) (ho : ∀ fuel, Orderly (k fuel)) :
    Returns w fun fuel => Walk.note n >>= fun _ => k fuel :=
  after (fun _ => ⟨(), _, rfl⟩) (fun _ => hk) fun fuel _ => ho fuel

theorem inField (c : FieldContext) {v : α} {m : Nat → Walk ν α} (h : Returns v m) :
    Returns v fun fuel => Walk.inField c (m fuel) := Settles.inField c h

theorem of_succ {v : α} {m : Nat → Walk ν α} (h : Returns v fun fuel => m (fuel + 1)) : Returns v m :=
  Settles.of_succ h

theorem mapEach {walk : Nat → α → Walk ν α} (ho : ∀ fuel v, Orderly (walk fuel v)) {vs : List α}
    (h : ∀ v ∈ vs, Returns v fun fuel => walk fuel v) : Returns vs fun fuel => Walk.mapEach (walk fuel) vs := by
  induction vs with
  | nil => exact pure []
  | cons v vs ih =>
    refine bind (h v List.mem_cons_self) (bind (ih fun w hw => h w (List.mem_cons_of_mem v hw)) (pure _) ?_) ?_
    · exact fun _ _ => Orderly.pure _
    · exact fun fuel _ => Orderly.bind (Orderly.mapEach (ho fuel) vs) fun _ => Orderly.pure _

theorem mapValues {walk : Nat → α → Walk ν α} (ho : ∀ fuel v, Orderly (walk fuel v)) {entries : List (String × α)}
    (h : ∀ entry ∈ entries, Returns entry.2 fun fuel => walk fuel entry.2) :
    Returns entries fun fuel => Walk.mapValues (walk fuel) entries := by
  unfold Walk.mapValues
  refine mapEach (fun fuel => Orderly.mapValue (ho fuel)) fun entry hentry => ?_
  exact bind (h entry hentry) (pure entry) fun _ _ => Orderly.pure _

theorem outside {v : α} {m : Nat → Walk ν α} (h : Returns v m) (ho : ∀ fuel, Orderly (m fuel)) :
    ∃ n, ∀ fuel ≥ n, ∃ notes, m fuel ⟨[], []⟩ = .ok v ⟨[], notes⟩ := by
  obtain ⟨n, ⟨a, t, rfl, hrun⟩ | hbad⟩ := h ⟨[], []⟩
  · refine ⟨n, fun fuel hfuel => ⟨t.notes, ?_⟩⟩
    have hend := (ho fuel).outside (s := ⟨[], []⟩) rfl
    rw [hrun fuel hfuel] at hend ⊢
    rw [← hend]
    rfl
  · obtain ⟨x, -, hx⟩ := hbad n (le_refl n)
    exact (hx trivial).elim

end Returns

/-- Where the walk ends well, it returns the value, and is not disturbed, or it returns a value that has grown. -/
def Rises (grown : α → α → Prop) (disturbed : Prop) (v : α) (m : Walk ν α) : Prop :=
  ∀ s r t, m s = .ok r t → (r = v ∧ ¬disturbed) ∨ grown v r

namespace Rises

variable {grown : α → α → Prop} {D D' : Prop} {v : α} {m : Walk ν α}

theorem pure (h : ¬D) : Rises grown D v (Pure.pure v : Walk ν α) := by
  intro s r t hrun
  cases hrun
  exact .inl ⟨rfl, h⟩

theorem throw (e : WalkError) : Rises grown D v (MonadExcept.throw e : Walk ν α) := nofun

theorem weaken (h : Rises grown D v m) (himp : D' → D) : Rises grown D' v m := by
  intro s r t hrun
  exact (h s r t hrun).imp_left fun hr => ⟨hr.1, fun hD => hr.2 (himp hD)⟩

theorem bind (htrans : ∀ a b c, grown a b → grown b c → grown a c) {k : α → Walk ν α} {E : α → Prop}
    (hm : Rises grown D v m) (hk : ∀ w, Rises grown (E w) w (k w)) : Rises grown (D ∨ E v) v (m >>= k) := by
  intro s r t hrun
  obtain ⟨w, t₁, hm₁, hk₁⟩ := (bind_eq_ok_iff m k s t r).mp hrun
  obtain ⟨rfl, hD⟩ | hgrown := hm s w t₁ hm₁
  · exact (hk w t₁ r t hk₁).imp_left fun hr => ⟨hr.1, not_or.mpr ⟨hD, hr.2⟩⟩
  · obtain ⟨rfl, -⟩ | hgrown' := hk w t₁ r t hk₁
    · exact .inr hgrown
    · exact .inr (htrans v w r hgrown hgrown')

theorem after {n : Walk ν β} {k : β → Walk ν α} (hk : ∀ b, Rises grown D v (k b)) : Rises grown D v (n >>= k) := by
  intro s r t hrun
  obtain ⟨b, t₁, -, hk₁⟩ := (bind_eq_ok_iff n k s t r).mp hrun
  exact hk b t₁ r t hk₁

theorem inField (c : FieldContext) (h : Rises grown D v m) : Rises grown D v (Walk.inField c m) := by
  intro s r t hrun
  unfold Walk.inField at hrun
  cases hm : m { s with fieldContexts := c :: s.fieldContexts } with
  | ok a t₁ =>
    rw [hm] at hrun
    cases hrun
    exact h _ r t₁ hm
  | error e t₁ =>
    rw [hm] at hrun
    cases hrun

theorem mapEach {walk : α → Walk ν α} {E : α → Prop} {grownAll : List α → List α → Prop}
    (hhead : ∀ v r vs rs, grown v r → (rs = vs ∨ grownAll vs rs) → grownAll (v :: vs) (r :: rs))
    (htail : ∀ v vs rs, grownAll vs rs → grownAll (v :: vs) (v :: rs))
    (hwalk : ∀ v, Rises grown (E v) v (walk v)) (vs : List α) :
    Rises grownAll (∃ v ∈ vs, E v) vs (Walk.mapEach walk vs) := by
  induction vs with
  | nil => exact pure (by simp)
  | cons v vs ih =>
    intro s rs t hrun
    obtain ⟨r, t₁, hr, hrest⟩ := (bind_eq_ok_iff _ _ s t rs).mp hrun
    obtain ⟨rs', t₂, hrs, hpure⟩ := (bind_eq_ok_iff _ _ t₁ t rs).mp hrest
    cases hpure
    obtain ⟨rfl, hE⟩ | hgrown := hwalk v s r t₁ hr
    · obtain ⟨rfl, hEs⟩ | hgrown := ih t₁ rs' t hrs
      · refine .inl ⟨rfl, ?_⟩
        rintro ⟨w, hw, hEw⟩
        cases List.mem_cons.mp hw with
        | inl h => exact hE (h ▸ hEw)
        | inr h => exact hEs ⟨w, h, hEw⟩
      · exact .inr (htail r vs rs' hgrown)
    · exact .inr (hhead v r vs rs' hgrown ((ih t₁ rs' t hrs).imp_left And.left))

end Rises

end Walk

end ConfluentKafka
