import ConfluentKafka.ClientConnect

/-!
# Registered callbacks

`connect` registers the callbacks of the configuration with the native
dispatchers, `disconnect` removes them when it completes. The dispatchers of
the connection are there from the start, those of the configuration are made
by the first registration. A dispatcher calls every function it holds.
-/

namespace ConfluentKafka
namespace ClientConnect

inductive Kind where
  | rebalance
  | offsetCommit
  | tokenRefresh
  | event
  | delivery
  | queueNonEmpty
  deriving DecidableEq, Repr

abbrev Fn := Nat

abbrev Dispatchers := Kind → Option (List Fn)

def noCallbacks : Dispatchers
  | .rebalance => none
  | .offsetCommit => none
  | .tokenRefresh => none
  | _ => some []

def addCallback (k : Kind) (fn : Fn) (d : Dispatchers) : Dispatchers :=
  Function.update d k (some ((d k).getD [] ++ [fn]))

def removeCallback (k : Kind) (fn : Fn) (d : Dispatchers) : Dispatchers :=
  match d k with
  | some fns => Function.update d k (some (fns.erase fn))
  | none => d

/-- `ConfigureCallback` of the connection, its subclasses and the configuration; none when a null pointer is
followed. -/
def configureCallback (k : Kind) (fn : Fn) (add : Bool) (d : Dispatchers) : Option Dispatchers :=
  match k, add with
  | k, true => some (addCallback k fn d)
  -- here the check of the pointer is the wrong way round
  | .rebalance, false => if (d .rebalance).isNone then none else some d
  | k, false => some (removeCallback k fn d)

abbrev Config := Kind → Option Fn

def kinds : List Kind := [.rebalance, .offsetCommit, .tokenRefresh, .event, .delivery, .queueNonEmpty]

def configureCallbacks (cfg : Config) (add : Bool) : List Kind → Dispatchers → Option Dispatchers
  | [], d => some d
  | k :: rest, d =>
    match cfg k with
    | some fn => (configureCallback k fn add d).bind (configureCallbacks cfg add rest)
    | none => configureCallbacks cfg add rest d

def dispatch (d : Dispatchers) (k : Kind) : List Fn :=
  (d k).getD []

/-- The client with its dispatchers, none after a null pointer was followed. `registered` tells whether an
attempt was started since the last `disconnect` completed, `ever` whether one was started at all. -/
structure Registered where
  client : State
  dispatchers : Option Dispatchers
  registered : Bool
  ever : Bool

/-- This `connect` starts an attempt. -/
def starts (s : State) : Bool :=
  !s.isConnected && !s.isConnecting

def registeredStep (cfg : Config) (s : Registered) (e : Label) : Option Registered :=
  match s.dispatchers, step s.client e with
  | some d, some client =>
    match e with
    | .connect =>
      if starts s.client then some ⟨client, configureCallbacks cfg true kinds d, true, true⟩
      else some { s with client := client }
    | .disconnected _ => some ⟨client, configureCallbacks cfg false kinds d, false, s.ever⟩
    | _ => some { s with client := client }
  | _, _ => none

def registeredLts (cfg : Config) : Lts Registered Label where
  init := ⟨lts.init, some noCallbacks, false, false⟩
  step := registeredStep cfg

/-- Every configured callback is held at most once, and exactly once while the client is connected, so that an event
calls it exactly once. -/
def Balanced (cfg : Config) (s : Registered) : Prop :=
  ∃ d, s.dispatchers = some d ∧ ∀ k fn, cfg k = some fn →
    (dispatch d k).count fn ≤ 1 ∧ (s.client.isConnected = true → (dispatch d k).count fn = 1)

/-- An attempt starts only when the callbacks of the earlier ones were removed, and only once where a rebalance
callback is configured; a `disconnect` completes with no attempt outstanding. -/
def balancedStep (cfg : Config) (s : Registered) : Label → Bool
  | .connect => !starts s.client || !s.registered && !((cfg .rebalance).isSome && s.ever)
  | .disconnected _ =>
    s.client.none (fun g => g = .connecting || g = .metadata) && (!(cfg .rebalance).isSome || s.ever)
  | _ => true

/-! ## Connections -/

def Live (s : State) : Prop :=
  s.isConnected = true ∨ ∃ i, (s.calls i).stage = .connecting ∨ (s.calls i).stage = .metadata

theorem live_of_step {s s' : State} {e : Label} (hs : step s e = some s') (hl : Live s') :
    Live s ∨ e = .connect ∧ starts s = true := by
  cases e with
  | connect =>
    cases hs
    unfold Live connect at *
    grind [starts, State.call, State.update]
  | disconnect =>
    cases hs
    unfold Live disconnect at *
    grind [State.call, State.update]
  | connected i ok => grind [Live, step, connected, fail, State.update, State.next, State.called]
  | metadata i ok => grind [Live, step, gotMetadata, fail, ready, State.update, State.next, State.called]
  | failDisconnected i => grind [Live, step, State.update, State.next, State.called]
  | timer i => grind [Live, step, State.update, State.next, State.called]
  | disconnected i => grind [Live, step, disconnected, State.update, State.called]
  | immediate i => grind [Live, step, State.update, State.next, State.called]

theorem not_live_disconnected {s : State} {i : Nat} (h : ∀ j, (s.calls j).stage ≠ .connecting ∧
    (s.calls j).stage ≠ .metadata) :
    ¬ Live (disconnected s i) := by
  grind [Live, disconnected, State.update, State.called]

theorem used_of_step {s s' : State} {e : Label} (h : ∀ j, (s.calls j).stage ≠ .unused → j < s.count)
    (hs : step s e = some s') : ∀ j, (s'.calls j).stage ≠ .unused → j < s'.count := by
  cases e with
  | connect =>
    cases hs
    unfold connect
    grind [State.call, State.update]
  | disconnect =>
    cases hs
    unfold disconnect
    grind [State.call, State.update]
  | connected i ok => grind [step, connected, fail, State.update, State.next, State.called]
  | metadata i ok => grind [step, gotMetadata, fail, ready, State.update, State.next, State.called]
  | failDisconnected i => grind [step, State.update, State.next, State.called]
  | timer i => grind [step, State.update, State.next, State.called]
  | disconnected i => grind [step, disconnected, State.update, State.called]
  | immediate i => grind [step, State.update, State.next, State.called]

/-! ## Registration -/

def changed (add : Bool) (k : Kind) (fn : Fn) (fns : Option (List Fn)) : Option (List Fn) :=
  if add then some (fns.getD [] ++ [fn]) else if k = .rebalance then fns else fns.map (·.erase fn)

theorem configureCallback_eq {add : Bool} {k : Kind} {d : Dispatchers} (fn : Fn)
    (h : add = true ∨ k ≠ .rebalance ∨ (d k).isSome = true) :
    configureCallback k fn add d = some (Function.update d k (changed add k fn (d k))) := by
  cases add with
  | true => rfl
  | false =>
    by_cases hk : k = .rebalance
    · subst hk
      obtain ⟨fns, hd⟩ := Option.isSome_iff_exists.mp ((h.resolve_left (by simp)).resolve_left (by simp))
      simp only [configureCallback, hd, changed, Bool.false_eq_true, if_false, if_true, Option.isNone_some]
      rw [← hd, Function.update_eq_self]
    · have hc : configureCallback k fn false d = some (removeCallback k fn d) := by
        cases k with
        | rebalance => exact absurd rfl hk
        | _ => rfl
      rw [hc, removeCallback]
      cases hd : d k with
      | none =>
        have : changed false k fn none = d k := by simp [changed, hk, hd]
        rw [this, Function.update_eq_self]
      | some fns => simp [changed, hk]

theorem configureCallbacks_eq (cfg : Config) (add : Bool) (ks : List Kind) :
    ∀ (d : Dispatchers), ks.Nodup → (add = true ∨ ((cfg .rebalance).isSome = true → (d .rebalance).isSome = true)) →
      ∃ d', configureCallbacks cfg add ks d = some d' ∧
        ∀ k fn, cfg k = some fn → d' k = if k ∈ ks then changed add k fn (d k) else d k := by
  induction ks with
  | nil => intro d _ _; exact ⟨d, rfl, fun _ _ _ => rfl⟩
  | cons k ks ih =>
    intro d hn hd
    obtain ⟨hk, hn'⟩ := List.nodup_cons.mp hn
    cases hc : cfg k with
    | none =>
      obtain ⟨d', he, hd'⟩ := ih d hn' hd
      refine ⟨d', by simp only [configureCallbacks, hc, he], fun k' fn hfn => ?_⟩
      have hne : k' ≠ k := by
        rintro rfl
        rw [hc] at hfn
        cases hfn
      rw [hd' k' fn hfn]
      simp [hne]
    | some fn =>
      have hone := configureCallback_eq (k := k) fn (by
        rcases hd with hd | hd
        · exact Or.inl hd
        · refine Or.inr (or_iff_not_imp_left.mpr fun hr => ?_)
          obtain rfl := not_not.mp hr
          exact hd (by simp [hc]))
      obtain ⟨d', he, hd'⟩ := ih (Function.update d k (changed add k fn (d k))) hn' (by
        rcases hd with hd | hd
        · exact Or.inl hd
        · cases add with
          | true => exact Or.inl rfl
          | false =>
            refine Or.inr fun hr => ?_
            rw [Function.update_apply]
            split
            · rename_i hkr
              subst hkr
              simpa [changed] using hd hr
            · exact hd hr)
      refine ⟨d', by simp only [configureCallbacks, hc, hone, Option.bind_some, he], fun k' fn' hfn => ?_⟩
      rw [hd' k' fn' hfn]
      by_cases hkk : k' = k
      · subst hkk
        obtain rfl : fn = fn' := Option.some.inj (hc.symm.trans hfn)
        simp [hk]
      · simp [hkk]

theorem nodup_kinds : kinds.Nodup := by decide

theorem mem_kinds (k : Kind) : k ∈ kinds := by
  cases k <;> decide

/-! ## The balance -/

/-- The callback of the kind is held: a rebalance callback is never removed. -/
def held (s : Registered) (k : Kind) : Bool :=
  if k = .rebalance then s.ever else s.registered

structure RegisteredInv (cfg : Config) (s : Registered) : Prop where
  holds : ∃ d, s.dispatchers = some d ∧ (∀ k fn, cfg k = some fn → dispatch d k = if held s k then [fn] else []) ∧
    (s.ever = true → (cfg .rebalance).isSome = true → (d .rebalance).isSome = true)
  used : ∀ j, (s.client.calls j).stage ≠ .unused → j < s.client.count
  live : Live s.client → s.registered = true
  ever : s.registered = true → s.ever = true

theorem inv_registered_init (cfg : Config) : RegisteredInv cfg (registeredLts cfg).init := by
  refine ⟨⟨noCallbacks, rfl, ?_, ?_⟩, ?_, ?_, ?_⟩
  · intro k fn _
    cases k <;> rfl
  · simp [registeredLts]
  · simp [registeredLts, lts, unusedCall]
  · simp [Live, registeredLts, lts, unusedCall]
  · simp [registeredLts]

theorem inv_starts {cfg : Config} {s : Registered} {client : State} {d : Dispatchers}
    (hholds : ∀ k fn, cfg k = some fn → dispatch d k = if held s k then [fn] else [])
    (hreg : s.registered = false) (hone : (cfg .rebalance).isSome = true → s.ever = false)
    (hused : ∀ j, (client.calls j).stage ≠ .unused → j < client.count) :
    RegisteredInv cfg ⟨client, configureCallbacks cfg true kinds d, true, true⟩ := by
  obtain ⟨d', he, hd'⟩ := configureCallbacks_eq cfg true kinds d nodup_kinds (Or.inl rfl)
  refine ⟨⟨d', he, fun k fn hfn => ?_, fun _ hr => ?_⟩, hused, fun _ => rfl, fun _ => rfl⟩
  · have hno : held s k = false := by
      unfold held
      split
      · rename_i hk
        subst hk
        exact hone (by simp [hfn])
      · exact hreg
    have hempty := hholds k fn hfn
    simp only [hno, Bool.false_eq_true, if_false, dispatch] at hempty
    simp [dispatch, hd' k fn hfn, mem_kinds, changed, hempty, held]
  · obtain ⟨fn, hfn⟩ := Option.isSome_iff_exists.mp hr
    rw [hd' _ fn hfn, if_pos (mem_kinds _)]
    rfl

theorem inv_removed {cfg : Config} {s : Registered} {client : State} {d : Dispatchers}
    (hholds : ∀ k fn, cfg k = some fn → dispatch d k = if held s k then [fn] else [])
    (hreb : s.ever = true → (cfg .rebalance).isSome = true → (d .rebalance).isSome = true)
    (hre : (cfg .rebalance).isSome = true → s.ever = true) (hlive : ¬ Live client)
    (hused : ∀ j, (client.calls j).stage ≠ .unused → j < client.count) :
    RegisteredInv cfg ⟨client, configureCallbacks cfg false kinds d, false, s.ever⟩ := by
  obtain ⟨d', he, hd'⟩ :=
    configureCallbacks_eq cfg false kinds d nodup_kinds (Or.inr fun hr => hreb (hre hr) hr)
  refine ⟨⟨d', he, fun k fn hfn => ?_, fun hev hr => ?_⟩, hused, fun hl => absurd hl hlive, fun h => (nomatch h)⟩
  · have hk := hholds k fn hfn
    have heq := hd' k fn hfn
    rw [if_pos (mem_kinds k)] at heq
    by_cases hr : k = .rebalance
    · subst hr
      have : d' .rebalance = d .rebalance := heq
      rw [dispatch, this]
      exact hk
    · have hd : dispatch d' k = (dispatch d k).erase fn := by
        rw [dispatch, dispatch, heq]
        cases d k <;> simp [changed, hr]
      rw [hd, hk]
      simp only [held, hr, if_false]
      cases s.registered <;> simp
  · obtain ⟨fn, hfn⟩ := Option.isSome_iff_exists.mp hr
    have heq := hd' .rebalance fn hfn
    rw [if_pos (mem_kinds _)] at heq
    have : d' .rebalance = d .rebalance := heq
    rw [this]
    exact hreb hev hr

theorem inv_registered_step {cfg : Config} {s s' : Registered} {e : Label} (h : RegisteredInv cfg s)
    (hc : balancedStep cfg s e = true) (hs : registeredStep cfg s e = some s') : RegisteredInv cfg s' := by
  obtain ⟨⟨d, hd, hholds, hreb⟩, hused, hlive, hever⟩ := h
  unfold registeredStep at hs
  rw [hd] at hs
  cases hstep : step s.client e with
  | none => simp [hstep] at hs
  | some client =>
    simp only [hstep] at hs
    have hused' := used_of_step hused hstep
    have hstay : (e = .connect → starts s.client = false) →
        RegisteredInv cfg ⟨client, some d, s.registered, s.ever⟩ := by
      intro hst
      refine ⟨⟨d, rfl, hholds, hreb⟩, hused', fun hl => hlive ?_, hever⟩
      rcases live_of_step hstep hl with hl | ⟨he, hn⟩
      · exact hl
      · rw [hst he] at hn
        cases hn
    cases e with
    | connect =>
      cases hst : starts s.client with
      | true =>
        simp only [hst, if_true, Option.some.injEq] at hs
        simp only [balancedStep, hst, Bool.not_true, Bool.false_or, Bool.and_eq_true, Bool.not_eq_true',
          Bool.and_eq_false_iff] at hc
        subst hs
        exact inv_starts hholds hc.1 (fun hr => hc.2.resolve_left (by simp [hr])) hused'
      | false =>
        simp only [hst, Bool.false_eq_true, if_false, Option.some.injEq] at hs
        subst hs
        exact hstay fun _ => hst
    | disconnected i =>
      simp only [Option.some.injEq] at hs
      simp only [balancedStep, Bool.and_eq_true, none_iff, Bool.or_eq_false_iff, decide_eq_false_iff_not,
        Bool.or_eq_true, Bool.not_eq_true'] at hc
      have hnot : ¬ Live client := by
        have hdis : client = disconnected s.client i := by
          simp only [step] at hstep
          split at hstep
          · exact (Option.some.inj hstep).symm
          · cases hstep
        rw [hdis]
        refine not_live_disconnected fun j => ?_
        by_cases hj : (s.client.calls j).stage = .unused
        · simp [hj]
        · exact hc.1 j (hused j hj)
      subst hs
      exact inv_removed hholds hreb (fun hr => hc.2.resolve_left (by simp [hr])) hnot hused'
    | _ =>
      obtain rfl := Option.some.inj hs
      exact hstay (by simp)

/-- In every run whose steps meet the condition each dispatcher holds each configured callback at most once,
and exactly once while the client is connected. -/
theorem callbacks_balanced {cfg : Config} {es : List Label} {s : Registered}
    (hr : (registeredLts cfg).RunWhere (fun s e => balancedStep cfg s e = true) es s) : Balanced cfg s := by
  have h : RegisteredInv cfg s :=
    hr.inv (inv_registered_init cfg) fun _ _ _ hi hc hs => inv_registered_step hi hc hs
  obtain ⟨⟨d, hd, hholds, -⟩, -, hlive, hever⟩ := h
  refine ⟨d, hd, fun k fn hfn => ?_⟩
  rw [hholds k fn hfn]
  constructor
  · split <;> simp
  · intro hu
    have hreg := hlive (Or.inl hu)
    have : held s k = true := by
      unfold held
      split
      · exact hever hreg
      · exact hreg
    simp [this]

def producerConfig : Config
  | .event => some 7
  | .delivery => some 8
  | _ => none

theorem callbacks_balanced_reconnect :
    ∃ s, (registeredLts producerConfig).RunWhere (fun s e => balancedStep producerConfig s e = true)
      [.connect, .connected 0 true, .metadata 0 true, .disconnect, .disconnected 1, .connect, .connected 2 true] s ∧
      s.client.isConnected = true ∧ Balanced producerConfig s := by
  have hs : ∃ s, (registeredLts producerConfig).exec (balancedStep producerConfig)
    (registeredLts producerConfig).init
      [.connect, .connected 0 true, .metadata 0 true, .disconnect, .disconnected 1, .connect, .connected 2 true] =
      some s ∧ s.client.isConnected = true := ⟨_, rfl, rfl⟩
  obtain ⟨s, hs, hu⟩ := hs
  have hr := Lts.RunWhere.of_exec .nil hs
  exact ⟨s, hr, hu, callbacks_balanced hr⟩

/-- The callbacks of an attempt that fails stay registered, and the next attempt adds them again. -/
theorem callbacks_doubled_after_failure :
    ¬ ∀ (cfg : Config) (es : List Label) (s : Registered), (registeredLts cfg).Run es s → Balanced cfg s := by
  intro h
  have hs : ∃ s, (registeredLts producerConfig).exec (fun _ _ => true) (registeredLts producerConfig).init
      [.connect, .connected 0 false, .connect] = some s ∧ s.dispatchers.map (dispatch · .event) = some [7, 7] :=
    ⟨_, rfl, rfl⟩
  obtain ⟨s, hs, hd⟩ := hs
  obtain ⟨d, hsome, hb⟩ := h producerConfig _ s (Lts.Run.of_exec hs)
  rw [hsome, Option.map_some, Option.some.injEq] at hd
  have := (hb .event 7 rfl).1
  simp [hd] at this

end ClientConnect
end ConfluentKafka
