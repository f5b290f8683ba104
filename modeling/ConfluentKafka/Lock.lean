import ConfluentKafka.Lts
import Mathlib.Data.List.Count
import Mathlib.Logic.Function.Basic

/-!
# The readers-writer lock of `_common.js`

A stack is an asynchronous call stack, the value of `#asyncLocalStorage`, with
the counters of its own reentrant calls. A section is one call of `read` or
`write` on a stack; the sections of one stack need not be nested, since a task
may not await those it starts. `#zeroReadersAndWritersPromise` is resolved and
replaced in one go: the promise in place is the `gen`-th.

`lock_exclusive`: without a read inside a write the lock excludes. With one it
does not, `readInWrite_not_safe`. `lock_wakes`: who is blocked could not go on,
unless a stack upgrades or downgrades beside the others, `upgrade_not_woken`.
-/

namespace ConfluentKafka

namespace Lock

inductive Kind where
  | read
  | write
  deriving DecidableEq, Repr

inductive Phase where
  | waiting (promise : Nat)
  | inside
  | exited
  deriving DecidableEq, Repr

structure Section where
  stack : Nat
  kind : Kind
  phase : Phase
  deriving DecidableEq, Repr

structure Store where
  readers : Int
  writers : Int
  deriving DecidableEq, Repr

structure State where
  readers : Int
  writers : Int
  store : Nat → Store
  gen : Nat
  sections : List Section

namespace State

def total (s : State) : Kind → Int
  | .read => s.readers
  | .write => s.writers

def own (s : State) (a : Nat) : Kind → Int
  | .read => (s.store a).readers
  | .write => (s.store a).writers

def count (s : State) (a : Nat) (d : Int) : Kind → State
  | .read =>
    { s with
      readers := s.readers + d
      store := Function.update s.store a { s.store a with readers := (s.store a).readers + d } }
  | .write =>
    { s with
      writers := s.writers + d
      store := Function.update s.store a { s.store a with writers := (s.store a).writers + d } }

/-- What the loops of `#acquireRead` and `#acquireWrite` test. -/
def blocked (s : State) (a : Nat) : Kind → Bool
  | .read => s.writers > 0
  | .write => s.readers - (s.store a).readers > 0 ∨ s.writers - (s.store a).writers > 0

def acquire (s : State) (a : Nat) (k : Kind) : State × Phase :=
  if s.blocked a k then (s, .waiting s.gen) else (s.count a 1 k, .inside)

def notifyZeroReadersAndWriters (s : State) : State :=
  if s.readers = 0 ∧ s.writers = 0 then { s with gen := s.gen + 1 } else s

def release (s : State) (a : Nat) (k : Kind) : State := (s.count a (-1) k).notifyZeroReadersAndWriters

end State

inductive Ev where
  | begin (stack : Nat) (kind : Kind)
  | resume (i : Nat)
  | finish (i : Nat)
  deriving DecidableEq, Repr

def step (s : State) : Ev → Option State
  | .begin a k =>
    -- a read on a stack that holds the write lock returns at once, and counts nothing
    let (t, phase) := if k = .read ∧ (s.store a).writers ≠ 0 then (s, .inside) else s.acquire a k
    some { t with sections := s.sections ++ [⟨a, k, phase⟩] }
  | .resume i =>
    match s.sections[i]? with
    | some ⟨a, k, .waiting g⟩ =>
      if g < s.gen then
        let (t, phase) := s.acquire a k
        some { t with sections := s.sections.set i ⟨a, k, phase⟩ }
      else none
    | _ => none
  | .finish i =>
    match s.sections[i]? with
    | some ⟨a, k, .inside⟩ => some { s.release a k with sections := s.sections.set i ⟨a, k, .exited⟩ }
    | _ => none

def lts : Lts State Ev := ⟨⟨0, 0, fun _ => ⟨0, 0⟩, 0, []⟩, step⟩

/-! ## The counters -/

namespace State

variable (s : State) (a : Nat) (d : Int)

@[simp] theorem total_count (k k' : Kind) : (s.count a d k).total k' = s.total k' + if k' = k then d else 0 := by
  cases k <;> cases k' <;> simp [count, total]

@[simp] theorem own_count (b : Nat) (k k' : Kind) :
    (s.count a d k).own b k' = s.own b k' + if b = a ∧ k' = k then d else 0 := by
  by_cases hb : b = a
  · subst hb; cases k <;> cases k' <;> simp [count, own]
  · cases k <;> cases k' <;> simp [count, own, hb]

@[simp] theorem count_gen (k : Kind) : (s.count a d k).gen = s.gen := by cases k <;> rfl

@[simp] theorem count_sections (k : Kind) : (s.count a d k).sections = s.sections := by cases k <;> rfl

end State

theorem countP_set {α : Type} (p : α → Bool) : ∀ {l : List α} {i : Nat} {x : α} (y : α), l[i]? = some x →
    l.countP p + (if p y then 1 else 0) = (l.set i y).countP p + if p x then 1 else 0
  | [], i, x, y, h => by simp at h
  | z :: l, 0, x, y, h => by
    obtain rfl : z = x := by simpa using h
    simp only [List.set_cons_zero, List.countP_cons]
    omega
  | z :: l, i + 1, x, y, h => by
    have := countP_set p (l := l) (i := i) y (by simpa using h)
    simp only [List.set_cons_succ, List.countP_cons]
    omega

theorem countP_imp {α : Type} {p q : α → Bool} (hqp : ∀ x, q x = true → p x = true) : ∀ {l : List α},
    l.countP p ≤ l.countP q → ∀ x ∈ l, p x = true → q x = true
  | [], _, x, hx, _ => by simp at hx
  | y :: l, hle, x, hx, hp => by
    have hl : l.countP q ≤ l.countP p := List.countP_mono_left fun z _ => hqp z
    simp only [List.countP_cons] at hle
    by_cases hy : q y = true
    · rcases List.mem_cons.mp hx with rfl | hx
      · exact hy
      · exact countP_imp hqp (by simp [hy, hqp y hy] at hle; exact hle) x hx hp
    · have hpy : p y = false := by
        cases h : p y with
        | false => rfl
        | true => simp [hy, h] at hle; omega
      rcases List.mem_cons.mp hx with rfl | hx
      · rw [hpy] at hp; cases hp
      · exact countP_imp hqp (by simp [hy, hpy] at hle; exact hle) x hx hp

def holds (k : Kind) (x : Section) : Bool := x.kind = k ∧ x.phase = .inside

def holdsOn (a : Nat) (k : Kind) (x : Section) : Bool := holds k x ∧ x.stack = a

/-- The counters count the sections inside, and a writer is alone with its own stack. -/
structure Exact (s : State) : Prop where
  total : ∀ k, s.total k = s.sections.countP (holds k)
  own : ∀ a k, s.own a k = s.sections.countP (holdsOn a k)
  alone : ∀ x ∈ s.sections, ∀ y ∈ s.sections, x.kind = .write → x.phase = .inside → y.phase = .inside →
    y.stack = x.stack

/-- `l'` is `l` with one more section `y`, or with `y` in the place of one that was not inside. -/
structure Entered (l l' : List Section) (y : Section) : Prop where
  count : ∀ k, l'.countP (holds k) = l.countP (holds k) + if holds k y then 1 else 0
  countOn : ∀ a k, l'.countP (holdsOn a k) = l.countP (holdsOn a k) + if holdsOn a k y then 1 else 0
  mem : ∀ x ∈ l', x = y ∨ x ∈ l

theorem entered_append (l : List Section) (y : Section) : Entered l (l ++ [y]) y where
  count k := by simp [List.countP_append, List.countP_singleton]
  countOn a k := by simp [List.countP_append, List.countP_singleton]
  mem x hx := by simpa [or_comm] using hx

theorem entered_set {l : List Section} {i : Nat} {x : Section} (hx : l[i]? = some x) (hp : x.phase ≠ .inside)
    (y : Section) : Entered l (l.set i y) y where
  count k := by
    have := countP_set (holds k) y hx
    simpa [holds, hp] using this.symm
  countOn a k := by
    have := countP_set (holdsOn a k) y hx
    simpa [holdsOn, holds, hp] using this.symm
  mem z hz := (List.mem_or_eq_of_mem_set hz).symm

namespace Exact

variable {s : State} (hs : Exact s)
include hs

/-- Who need not wait finds no section of another stack that it must not meet. -/
theorem of_not_blocked {a : Nat} {k : Kind} (hb : s.blocked a k = false) : ∀ x ∈ s.sections, x.phase = .inside →
    x.stack = a ∨ x.kind = .read ∧ k = .read := by
  have imp : ∀ k', s.total k' - s.own a k' ≤ 0 → ∀ x ∈ s.sections, x.kind = k' → x.phase = .inside →
    x.stack = a := by
    intro k' hle x hx hk hp
    rw [hs.total, hs.own] at hle
    have := countP_imp (p := holds k') (q := holdsOn a k') (fun y hy => by simp [holdsOn] at hy; exact hy.1)
      (by omega) x hx (by simp [holds, hk, hp])
    simp [holdsOn] at this
    exact this.2
  intro x hx hp
  cases k with
  | read =>
    cases hk : x.kind with
    | read => exact .inr ⟨rfl, rfl⟩
    | write =>
      refine .inl (imp .write ?_ x hx hk hp)
      have : s.own a .write = s.sections.countP (holdsOn a .write) := hs.own a .write
      simp [State.blocked] at hb
      simp only [State.total]
      omega
  | write =>
    simp [State.blocked] at hb
    cases hk : x.kind with
    | read => exact .inl (imp .read (by simp [State.total, State.own]; omega) x hx hk hp)
    | write => exact .inl (imp .write (by simp [State.total, State.own]; omega) x hx hk hp)

theorem waits {l : List Section} {y : Section} (hl : Entered s.sections l y) (hy : y.phase ≠ .inside) :
    Exact { s with sections := l } where
  total k := by
    have := hl.count k
    simp only [holds, hy, and_false, decide_false, Bool.false_eq_true, if_false, Nat.add_zero] at this
    exact (hs.total k).trans (by rw [← this])
  own a k := by
    have := hl.countOn a k
    simp only [holdsOn, holds, hy, and_false, decide_false, Bool.false_eq_true, false_and, if_false,
      Nat.add_zero] at this
    exact (hs.own a k).trans (by rw [← this])
  alone x hx z hz hk hp hp' := by
    rcases hl.mem x hx with rfl | hx
    · exact absurd hp hy
    · rcases hl.mem z hz with rfl | hz
      · exact absurd hp' hy
      · exact hs.alone x hx z hz hk hp hp'

theorem enters {l : List Section} {a : Nat} {k : Kind} (hl : Entered s.sections l ⟨a, k, .inside⟩)
    (hb : s.blocked a k = false) : Exact { s.count a 1 k with sections := l } where
  total k' := by
    have h : (s.count a 1 k).total k' = _ := s.total_count a 1 k k'
    show (s.count a 1 k).total k' = _
    rw [h, hs.total, hl.count]
    by_cases hk : k' = k
    · simp [hk, holds]
    · simp [hk, holds, Ne.symm hk]
  own b k' := by
    have h : (s.count a 1 k).own b k' = _ := s.own_count a 1 b k k'
    show (s.count a 1 k).own b k' = _
    rw [h, hs.own, hl.countOn]
    by_cases hk : b = a ∧ k' = k
    · simp [hk, holdsOn, holds]
    · have : ¬ (k = k' ∧ a = b) := fun h => hk ⟨h.2.symm, h.1.symm⟩
      simp [hk, holdsOn, holds, this]
  alone x hx y hy hk hp hp' := by
    have hin := hs.of_not_blocked hb
    rcases hl.mem x hx with rfl | hx <;> rcases hl.mem y hy with rfl | hy
    · rfl
    · rcases hin y hy hp' with h | ⟨_, h⟩
      · exact h
      · rw [show k = .write from hk] at h; cases h
    · rcases hin x hx hp with h | ⟨h, _⟩
      · exact h.symm
      · rw [hk] at h; cases h
    · exact hs.alone x hx y hy hk hp hp'

theorem leaves {i a : Nat} {k : Kind} (hx : s.sections[i]? = some ⟨a, k, .inside⟩) :
    Exact { s.release a k with sections := s.sections.set i ⟨a, k, .exited⟩ } := by
  have hcount : ∀ k', s.total k' + (if k' = k then -1 else 0) =
      ((s.sections.set i ⟨a, k, .exited⟩).countP (holds k') : Int) := fun k' => by
    have := countP_set (holds k') ⟨a, k, .exited⟩ hx
    rw [hs.total]
    by_cases hk : k' = k
    · simp [hk, holds] at this ⊢; omega
    · simp [hk, holds, Ne.symm hk] at this ⊢; omega
  have hcountOn : ∀ b k', s.own b k' + (if b = a ∧ k' = k then -1 else 0) =
      ((s.sections.set i ⟨a, k, .exited⟩).countP (holdsOn b k') : Int) := fun b k' => by
    have := countP_set (holdsOn b k') ⟨a, k, .exited⟩ hx
    rw [hs.own]
    by_cases hk : b = a ∧ k' = k
    · simp [hk, holdsOn, holds] at this ⊢; omega
    · have hk' : ¬ (k = k' ∧ a = b) := fun h => hk ⟨h.2.symm, h.1.symm⟩
      simp [hk, holdsOn, holds, hk'] at this ⊢; omega
  have hmem : ∀ x ∈ s.sections.set i ⟨a, k, .exited⟩, x.phase = .inside → x ∈ s.sections := fun x hx' hp => by
    rcases List.mem_or_eq_of_mem_set hx' with h | rfl
    · exact h
    · cases hp
  refine ⟨fun k' => ?_, fun b k' => ?_, ?_⟩
  · have := s.total_count a (-1) k k'
    simp only [State.release, State.notifyZeroReadersAndWriters]
    split_ifs <;> exact this.trans (hcount k')
  · have := s.own_count a (-1) b k k'
    simp only [State.release, State.notifyZeroReadersAndWriters]
    split_ifs <;> exact this.trans (hcountOn b k')
  · intro x hx' y hy hk hp hp'
    exact hs.alone x (hmem x hx' hp) y (hmem y hy hp') hk hp hp'

end Exact

/-! ## Exclusion -/

/-- The condition on a step that no read starts on a stack that holds the write lock. -/
def noReadInWrite (s : State) : Ev → Bool
  | .begin a .read => (s.store a).writers = 0
  | _ => true

/-- What a step does to the lock: a section waits, goes inside or exits. -/
theorem step_cases {s t : State} {e : Ev} (hc : noReadInWrite s e = true) (h : step s e = some t) :
    (∃ l a k, Entered s.sections l ⟨a, k, .waiting s.gen⟩ ∧ s.blocked a k = true ∧ t = { s with sections := l }) ∨
    (∃ l a k, Entered s.sections l ⟨a, k, .inside⟩ ∧ s.blocked a k = false ∧
      t = { s.count a 1 k with sections := l }) ∨
    ∃ i a k, e = .finish i ∧ s.sections[i]? = some ⟨a, k, .inside⟩ ∧
      t = { s.release a k with sections := s.sections.set i ⟨a, k, .exited⟩ } := by
  cases e with
  | begin a k =>
    have hk : ¬ (k = .read ∧ (s.store a).writers ≠ 0) := fun ⟨hk, hw⟩ => by
      subst hk; simp [noReadInWrite, hw] at hc
    simp only [step, hk, if_false, State.acquire] at h
    cases hb : s.blocked a k with
    | true =>
      simp only [hb, if_true, Option.some.injEq] at h
      exact .inl ⟨_, a, k, entered_append _ _, hb, h.symm⟩
    | false =>
      simp only [hb, Bool.false_eq_true, if_false, Option.some.injEq] at h
      exact .inr (.inl ⟨_, a, k, entered_append _ _, hb, h.symm⟩)
  | resume i =>
    simp only [step] at h
    split at h
    · rename_i a k g hx
      split_ifs at h with hg
      simp only [State.acquire] at h
      cases hb : s.blocked a k with
      | true =>
        simp only [hb, if_true, Option.some.injEq] at h
        exact .inl ⟨_, a, k, entered_set hx (by simp) _, hb, h.symm⟩
      | false =>
        simp only [hb, Bool.false_eq_true, if_false, Option.some.injEq] at h
        exact .inr (.inl ⟨_, a, k, entered_set hx (by simp) _, hb, h.symm⟩)
    · cases h
  | finish i =>
    simp only [step] at h
    split at h
    · rename_i a k hx
      exact .inr (.inr ⟨i, a, k, rfl, hx, (Option.some.inj h).symm⟩)
    · cases h

theorem Exact.init : Exact lts.init where
  total k := by cases k <;> rfl
  own a k := by cases k <;> rfl
  alone x hx := by simp [lts] at hx

theorem Exact.step {s t : State} {e : Ev} (hs : Exact s) (hc : noReadInWrite s e = true)
    (h : Lock.step s e = some t) :
    Exact t := by
  obtain ⟨l, a, k, hl, _, rfl⟩ | ⟨l, a, k, hl, hb, rfl⟩ | ⟨i, a, k, _, hx, rfl⟩ := step_cases hc h
  · exact hs.waits hl (by simp)
  · exact hs.enters hl hb
  · exact hs.leaves hx

structure Safe (s : State) : Prop where
  exclusive : ∀ x ∈ s.sections, ∀ y ∈ s.sections, x.kind = .write → x.phase = .inside → y.phase = .inside →
    y.stack = x.stack
  nonneg : 0 ≤ s.readers ∧ 0 ≤ s.writers
  balanced : (∀ x ∈ s.sections, x.phase = .exited) → s.readers = 0 ∧ s.writers = 0

theorem Exact.safe {s : State} (hs : Exact s) : Safe s where
  exclusive := hs.alone
  nonneg := by
    have h₁ := hs.total .read
    have h₂ := hs.total .write
    simp only [State.total] at h₁ h₂
    omega
  balanced hx := by
    have hz : ∀ k, s.sections.countP (holds k) = 0 := fun k =>
      List.countP_eq_zero.mpr fun x hm => by simp [holds, hx x hm]
    have h₁ := hs.total .read
    have h₂ := hs.total .write
    rw [hz] at h₁ h₂
    exact ⟨h₁, h₂⟩

/-- Whatever the nesting and the interleaving, as long as no read starts on a stack that holds the write lock. -/
theorem lock_exclusive {es : List Ev} {s : State} (hr : lts.RunWhere (fun s e => noReadInWrite s e = true) es s) :
    Safe s :=
  (hr.inv Exact.init fun _ _ _ hs hc h => hs.step hc h).safe

/-- An upgrade inside a read, beside a waiting stack. -/
theorem lock_exclusive_upgrade : ∃ s, lts.RunWhere (fun s e => noReadInWrite s e = true)
      [.begin 0 .read, .begin 0 .write, .begin 1 .read, .finish 1, .finish 0, .resume 2] s ∧
    s.readers = 1 ∧ Safe s := by
  obtain ⟨s, hs, hr⟩ := Option.map_eq_some_iff.mp (show (lts.exec noReadInWrite lts.init
    [.begin 0 .read, .begin 0 .write, .begin 1 .read, .finish 1, .finish 0, .resume 2]).map (·.readers) =
      some 1 by decide)
  have hrun := Lts.RunWhere.of_exec .nil hs
  exact ⟨s, hrun, hr, lock_exclusive hrun⟩

/-- A read in a write takes one off the readers that it did not add, so that a later read counts for nothing. -/
theorem readInWrite_not_safe :
    (∃ s, lts.Run [.begin 0 .write, .begin 0 .read, .finish 1, .finish 0] s ∧ s.readers = -1 ∧
      (∀ x ∈ s.sections, x.phase = .exited) ∧ ¬ Safe s) ∧
    ∃ s, lts.Run [.begin 0 .write, .begin 0 .read, .finish 1, .finish 0, .begin 1 .read, .begin 2 .write] s ∧
      ⟨1, .read, .inside⟩ ∈ s.sections ∧ ⟨2, .write, .inside⟩ ∈ s.sections ∧ ¬ Safe s := by
  constructor
  · obtain ⟨s, hs, hx⟩ := Option.map_eq_some_iff.mp (show (lts.exec (fun _ _ => true) lts.init
      [.begin 0 .write, .begin 0 .read, .finish 1, .finish 0]).map (fun s => (s.readers, s.sections)) =
        some (-1, [⟨0, .write, .exited⟩, ⟨0, .read, .exited⟩]) by decide)
    obtain ⟨hr, hl⟩ := Prod.mk.inj hx
    refine ⟨s, Lts.Run.of_exec hs, hr, by simp [hl], fun h => ?_⟩
    have := h.nonneg.1
    omega
  · obtain ⟨s, hs, hl⟩ := Option.map_eq_some_iff.mp (show (lts.exec (fun _ _ => true) lts.init
      [.begin 0 .write, .begin 0 .read, .finish 1, .finish 0, .begin 1 .read, .begin 2 .write]).map (·.sections) =
        some [⟨0, .write, .exited⟩, ⟨0, .read, .exited⟩, ⟨1, .read, .inside⟩, ⟨2, .write, .inside⟩] by decide)
    refine ⟨s, Lts.Run.of_exec hs, by simp [hl], by simp [hl], fun h => ?_⟩
    have := h.exclusive ⟨2, .write, .inside⟩ (by simp [hl]) ⟨1, .read, .inside⟩ (by simp [hl]) rfl rfl rfl
    cases this

/-! ## Waking -/

/-- The stack could acquire: for a read there is no writer, for a write none but its own. -/
def canAcquire (s : State) (a : Nat) : Kind → Prop
  | .read => s.writers = 0
  | .write => s.readers - (s.store a).readers = 0 ∧ s.writers - (s.store a).writers = 0

/-- Who waits although it could acquire waits on a resolved promise. -/
def Woken (s : State) : Prop :=
  ∀ x ∈ s.sections, ∀ g, x.phase = .waiting g → canAcquire s x.stack x.kind → g < s.gen

def isBlocked (s : State) (k : Kind) (x : Section) : Bool := x.kind = k ∧ x.phase = .waiting s.gen

/-- The condition on a step that no read starts on a stack that holds the write lock, that no read lock is released
beside a blocked upgrade of another stack, and that no stack downgrades to its read lock beside a blocked reader. -/
def noUpgradeBeside (s : State) : Ev → Bool
  | .begin a .read => (s.store a).writers = 0
  | .finish i =>
    match s.sections[i]? with
    | some ⟨a, .read, .inside⟩ =>
      s.sections.all fun x => ¬ (isBlocked s .write x ∧ x.stack ≠ a ∧ (s.store x.stack).readers ≠ 0)
    | some ⟨a, .write, .inside⟩ =>
      (s.store a).writers ≠ 1 ∨ (s.store a).readers = 0 ∨ s.sections.all fun x => ¬ isBlocked s .read x
    | _ => true
  | _ => true

def Blocked (s : State) : Prop :=
  ∀ x ∈ s.sections, ∀ g, x.phase = .waiting g → g ≤ s.gen ∧ (g = s.gen → s.blocked x.stack x.kind = true)

theorem Blocked.woken {s : State} (hb : Blocked s) : Woken s := by
  intro x hx g hp hcan
  obtain ⟨hle, hbl⟩ := hb x hx g hp
  refine Nat.lt_of_le_of_ne hle fun hg => ?_
  have := hbl hg
  cases hk : x.kind with
  | read =>
    rw [hk] at this hcan
    simp only [State.blocked, canAcquire, decide_eq_true_eq] at this hcan
    omega
  | write =>
    rw [hk] at this hcan
    simp only [State.blocked, canAcquire, decide_eq_true_eq] at this hcan
    omega

theorem Blocked.waits {s : State} (hb : Blocked s) {l : List Section} {a : Nat} {k : Kind}
    (hl : Entered s.sections l ⟨a, k, .waiting s.gen⟩) (hk : s.blocked a k = true) :
    Blocked { s with sections := l } := by
  intro x hx g hp
  rcases hl.mem x hx with rfl | hx
  · obtain rfl : s.gen = g := by simpa using hp
    exact ⟨Nat.le_refl _, fun _ => hk⟩
  · exact hb x hx g hp

theorem blocked_read {s : State} {a : Nat} : s.blocked a .read = true ↔ 0 < s.total .write := by
  simp [State.blocked, State.total]

theorem blocked_write {s : State} {a : Nat} : s.blocked a .write = true ↔
    0 < s.total .read - s.own a .read ∨ 0 < s.total .write - s.own a .write := by
  simp [State.blocked, State.total, State.own]

theorem blocked_count {s : State} {a b : Nat} {k k' : Kind} (h : s.blocked b k' = true) :
    (s.count a 1 k).blocked b k' = true := by
  cases k' with
  | read =>
    rw [blocked_read] at h ⊢
    cases k <;> simp <;> omega
  | write =>
    rw [blocked_write] at h ⊢
    by_cases hab : b = a
    · cases k <;> simp [hab] at h ⊢ <;> omega
    · cases k <;> simp [hab] <;> omega

theorem Blocked.enters {s : State} (hb : Blocked s) {l : List Section} {a : Nat} {k : Kind}
    (hl : Entered s.sections l ⟨a, k, .inside⟩) : Blocked { s.count a 1 k with sections := l } := by
  intro x hx g hp
  rcases hl.mem x hx with rfl | hx
  · cases hp
  · obtain ⟨hle, hbl⟩ := hb x hx g hp
    simp only [State.count_gen]
    exact ⟨hle, fun hg => blocked_count (hbl hg)⟩

theorem Exact.own_le {s : State} (hs : Exact s) (a : Nat) (k : Kind) : 0 ≤ s.own a k ∧ s.own a k ≤ s.total k := by
  have : s.sections.countP (holdsOn a k) ≤ s.sections.countP (holds k) :=
    List.countP_mono_left fun x _ h => by simp [holdsOn] at h; exact h.1
  rw [hs.own, hs.total]
  omega

theorem Exact.own_pos {s : State} (hs : Exact s) {x : Section} (hx : x ∈ s.sections) (hp : x.phase = .inside) :
    0 < s.own x.stack x.kind := by
  have : 0 < s.sections.countP (holdsOn x.stack x.kind) :=
    List.countP_pos_iff.mpr ⟨x, hx, by simp [holdsOn, holds, hp]⟩
  rw [hs.own]
  omega

/-- While a stack is inside a write section, the counters are its own. -/
theorem Exact.own_of_writer {s : State} (hs : Exact s) {x : Section} (hx : x ∈ s.sections) (hk : x.kind = .write)
    (hp : x.phase = .inside) (k : Kind) : s.total k = s.own x.stack k ∧ ∀ b, b ≠ x.stack → s.own b k = 0 := by
  have hin : ∀ y ∈ s.sections, holds k y = true → y.stack = x.stack := fun y hy h =>
    hs.alone x hx y hy hk hp (by simp [holds] at h; exact h.2)
  constructor
  · rw [hs.total, hs.own]
    refine congrArg _ (List.countP_congr fun y hy => ?_)
    simp only [holdsOn, decide_eq_true_eq]
    exact ⟨fun h => ⟨h, hin y hy h⟩, And.left⟩
  · intro b hb
    rw [hs.own]
    have : s.sections.countP (holdsOn b k) = 0 := List.countP_eq_zero.mpr fun y hy h => by
      simp only [holdsOn, decide_eq_true_eq] at h
      exact hb (h.2.symm.trans (hin y hy h.1))
    rw [this]
    rfl

/-- A release that does not notify leaves every blocked section blocked. -/
theorem Exact.blocked_release {s : State} (hs : Exact s) {i a : Nat} {k : Kind}
    (hx : s.sections[i]? = some ⟨a, k, .inside⟩) (hc : noUpgradeBeside s (.finish i) = true)
    (hn : ¬ ((s.count a (-1) k).total .read = 0 ∧ (s.count a (-1) k).total .write = 0)) {x : Section}
    (hm : x ∈ s.sections) (hw : x.phase = .waiting s.gen) (hb : s.blocked x.stack x.kind = true) :
    (s.count a (-1) k).blocked x.stack x.kind = true := by
  have hin := List.mem_of_getElem? hx
  have hpos := hs.own_pos hin rfl
  obtain ⟨b, kb, pb⟩ := x
  simp only at hw hb ⊢
  have hr := hs.own_le b .read
  have hwr := hs.own_le b .write
  simp only [noUpgradeBeside, hx] at hc
  cases k with
  | read =>
    simp only [State.total_count, if_true, reduceCtorEq, if_false, Int.add_zero] at hn
    cases kb with
    | read => exact hb
    | write =>
      rw [blocked_write] at hb ⊢
      simp only [State.total_count, State.own_count, and_true, reduceCtorEq, and_false, if_true,
        if_false, Int.add_zero]
      by_cases hba : b = a
      · simp only [hba, if_true] at hb ⊢; omega
      · -- no upgrade of another stack is blocked, so that stack holds nothing
        have hzero : s.own b .read = 0 := by
          have := List.all_eq_true.mp hc _ hm
          simpa [isBlocked, hw, hba, State.own] using this
        have hnw : s.own b .write = 0 := by
          by_contra hne
          have hpos' : 0 < s.sections.countP (holdsOn b .write) := by
            rw [hs.own b .write] at hne
            omega
          obtain ⟨y, hy, hyb⟩ := List.countP_pos_iff.mp hpos'
          simp only [holdsOn, holds, decide_eq_true_eq] at hyb
          exact hba (hyb.2.symm.trans (hs.alone y hy _ hin hyb.1.1 hyb.1.2 rfl).symm)
        have := (hs.own_le a .read).2
        simp only [hba, if_false]
        omega
  | write =>
    have h₁ := hs.own_of_writer hin rfl rfl .read
    have h₂ := hs.own_of_writer hin rfl rfl .write
    simp only [State.total_count, if_true, reduceCtorEq, if_false, Int.add_zero] at hn
    cases kb with
    | read =>
      rw [blocked_read] at hb ⊢
      simp only [State.total_count, if_true]
      -- a reader is blocked, so the stack keeps a write lock or no lock at all
      have hread : (s.store a).readers = s.own a .read := rfl
      have hwrite : (s.store a).writers = s.own a .write := rfl
      simp only at h₁ h₂ hpos
      rcases of_decide_eq_true hc with hc | hc | hc
      · omega
      · omega
      · have := List.all_eq_true.mp hc _ hm
        simp [isBlocked, hw] at this
    | write =>
      rw [blocked_write] at hb ⊢
      simp only [State.total_count, State.own_count, and_true, reduceCtorEq, and_false, if_true,
        if_false, Int.add_zero]
      simp only at h₁ h₂ hpos
      by_cases hba : b = a
      · simp only [hba, if_true] at hb ⊢; omega
      · have h₃ := h₁.2 b hba
        have h₄ := h₂.2 b hba
        simp only [hba, if_false]
        omega

theorem Blocked.leaves {s : State} (hs : Exact s) (hb : Blocked s) {i a : Nat} {k : Kind}
    (hx : s.sections[i]? = some ⟨a, k, .inside⟩) (hc : noUpgradeBeside s (.finish i) = true) :
    Blocked { s.release a k with sections := s.sections.set i ⟨a, k, .exited⟩ } := by
  intro x hx' g hp
  rcases List.mem_or_eq_of_mem_set hx' with hm | rfl
  · obtain ⟨hle, hbl⟩ := hb x hm g hp
    simp only [State.release, State.notifyZeroReadersAndWriters]
    split_ifs with hn
    · simp only [State.count_gen]
      exact ⟨Nat.le_succ_of_le hle, fun hg => absurd hle (by omega)⟩
    · simp only [State.count_gen]
      refine ⟨hle, fun hg => ?_⟩
      subst hg
      exact hs.blocked_release hx hc hn hm hp (hbl rfl)
  · cases hp

theorem noReadInWrite_of_beside {s : State} {e : Ev} (hc : noUpgradeBeside s e = true) :
    noReadInWrite s e = true := by
  cases e with
  | begin a k => cases k <;> exact hc
  | resume i => rfl
  | finish i => rfl

/-- Whatever the nesting and the interleaving, as long as no read starts inside a write and no stack upgrades or
downgrades beside those it would have to wake. -/
theorem lock_wakes {es : List Ev} {s : State} (hr : lts.RunWhere (fun s e => noUpgradeBeside s e = true) es s) :
    Woken s := by
  have hinv : Exact s ∧ Blocked s := by
    refine hr.inv (I := fun s => Exact s ∧ Blocked s) ⟨Exact.init, fun x hx => by simp [lts] at hx⟩ ?_
    intro s e t ⟨hs, hb⟩ hc h
    have hc' := noReadInWrite_of_beside hc
    refine ⟨hs.step hc' h, ?_⟩
    obtain ⟨l, a, k, hl, hk, rfl⟩ | ⟨l, a, k, hl, _, rfl⟩ | ⟨i, a, k, rfl, hx, rfl⟩ := step_cases hc' h
    · exact hb.waits hl hk
    · exact hb.enters hl
    · exact hb.leaves hs hx hc
  exact hinv.2.woken

/-- A writer and a reader that wait for another stack, woken when it is done. -/
theorem lock_wakes_waiters : ∃ s, lts.RunWhere (fun s e => noUpgradeBeside s e = true)
      [.begin 0 .write, .begin 1 .write, .begin 2 .read, .finish 0] s ∧
    s.sections = [⟨0, .write, .exited⟩, ⟨1, .write, .waiting 0⟩, ⟨2, .read, .waiting 0⟩] ∧ s.gen = 1 ∧ Woken s := by
  obtain ⟨s, hs, hx⟩ := Option.map_eq_some_iff.mp (show (lts.exec noUpgradeBeside lts.init
    [.begin 0 .write, .begin 1 .write, .begin 2 .read, .finish 0]).map (fun s => (s.sections, s.gen)) =
      some ([⟨0, .write, .exited⟩, ⟨1, .write, .waiting 0⟩, ⟨2, .read, .waiting 0⟩], 1) by decide)
  have hrun := Lts.RunWhere.of_exec .nil hs
  exact ⟨s, hrun, (Prod.mk.inj hx).1, (Prod.mk.inj hx).2, lock_wakes hrun⟩

/-- Two readers, the first of which waits to write: it is not woken when the second is done. -/
theorem upgrade_not_woken : ∃ s, lts.Run [.begin 0 .read, .begin 1 .read, .begin 0 .write, .finish 1] s ∧
    s.sections = [⟨0, .read, .inside⟩, ⟨1, .read, .exited⟩, ⟨0, .write, .waiting 0⟩] ∧ s.gen = 0 ∧ ¬ Woken s := by
  obtain ⟨s, hs, hx⟩ := Option.map_eq_some_iff.mp (show (lts.exec (fun _ _ => true) lts.init
    [.begin 0 .read, .begin 1 .read, .begin 0 .write, .finish 1]).map
      (fun s => (s.sections, s.gen, s.readers, s.writers, s.store 0)) =
      some ([⟨0, .read, .inside⟩, ⟨1, .read, .exited⟩, ⟨0, .write, .waiting 0⟩], 0, 1, 0, ⟨1, 0⟩) by decide)
  simp only [Prod.mk.injEq] at hx
  obtain ⟨hl, hg, hr, hw, hst⟩ := hx
  refine ⟨s, Lts.Run.of_exec hs, hl, hg, fun h => ?_⟩
  have := h ⟨0, .write, .waiting 0⟩ (by simp [hl]) 0 rfl (by simp [canAcquire, hr, hw, hst])
  omega

end Lock

end ConfluentKafka
