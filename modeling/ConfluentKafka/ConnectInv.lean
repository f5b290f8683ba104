import ConfluentKafka.Connect

/-!
# One client at a time

What the state and the client are in each phase of `connect`: `Stage`. From it
follows that the client of an attempt is closed before the next one is built,
and that a `disconnect` that has resolved leaves nothing behind.
-/

namespace ConfluentKafka

namespace Connect

def Quiet (c : Option Client) : Prop := ∀ x ∈ c, x.live = false

def Calm (c : Option Client) : Prop := ∀ x ∈ c, x.isConnecting = false

theorem Quiet.calm {c : Option Client} (h : Quiet c) : Calm c := fun x hx => (Bool.or_eq_false_iff.mp (h x hx)).1

theorem Calm.map {c : Option Client} (h : Calm c) {f : Client → Client}
    (hf : ∀ x, (f x).isConnecting = x.isConnecting) :
    Calm (c.map f) := by
  intro x hx
  obtain ⟨y, hy, rfl⟩ := Option.map_eq_some_iff.mp hx
  rw [hf]
  exact h y hy

theorem Quiet.map {c : Option Client} (h : Quiet c) {f : Client → Client} (hf : ∀ x, x.live = false →
    (f x).live = false) :
    Quiet (c.map f) := by
  intro x hx
  obtain ⟨y, hy, rfl⟩ := Option.map_eq_some_iff.mp hx
  exact hf y (h y hy)

theorem Calm.disconnected {c : Option Client} (h : Calm c) : Quiet (c.map Client.disconnected) := by
  intro x hx
  obtain ⟨y, hy, rfl⟩ := Option.map_eq_some_iff.mp hx
  simp [Client.live, Client.disconnected, h y hy]

theorem Calm.quiet {c : Option Client} (h : Calm c) (hn : ¬ c.any (·.isConnected) = true) : Quiet c := by
  intro x hx
  obtain rfl : c = some x := hx
  have : x.isConnected = false := by simpa using hn
  simp [Client.live, h x rfl, this]

/-! ## The phases -/

def Resting (status : Status) (c : Option Client) : Prop :=
  (status = .init ∨ status = .disconnected) ∧ Quiet c ∨ (status = .connected ∨ status = .disconnecting) ∧ Calm c

def Trying (status : Status) : Prop := status = .connecting ∨ status = .initializingTransactions

def Stage (status : Status) (abort : Option Bool) (c : Option Client) : Phase → Prop
  | .idle => abort = none ∧ Resting status c
  | .config => abort = none ∧ status = .init ∧ Quiet c
  | .resolverThrew => abort = none ∧ status = .init ∧ Quiet c
  | .attemptConfig => abort ≠ none ∧ Trying status ∧ Quiet c
  | .buildThrew => abort ≠ none ∧ status = .init ∧ Quiet c
  | .native => abort ≠ none ∧ Trying status
  | .metadata => abort ≠ none ∧ Trying status
  | .failing _ => abort ≠ none ∧ Trying status
  | .attempted _ => abort ≠ none ∧ Trying status ∧ Calm c
  | .onConnected => abort ≠ none ∧ Trying status ∧ Calm c
  | .initTransactions => abort ≠ none ∧ Trying status ∧ Calm c
  | .onConnectedSettled e => abort ≠ none ∧ (if e = none then status = .connected else Trying status) ∧ Calm c
  | .teardown _ => abort ≠ none ∧ (Trying status ∨ status = .connected ∧ abort = some true) ∧ Calm c
  | .tornDown _ => abort ≠ none ∧ (Trying status ∨ status = .connected ∧ abort = some true) ∧ Quiet c
  | .backoff => abort ≠ none ∧ Trying status ∧ Quiet c
  | .closingSerdes => abort ≠ none ∧ status = .disconnected ∧ Quiet c
  | .settled => abort = none ∧ Resting status c

def State.Staged (s : State) : Prop := Stage s.status s.connectAbort s.internalClient s.phase

structure Clients (s : State) : Prop where
  stage : s.Staged
  abandoned : ∀ c ∈ s.abandoned, c.live = false

theorem abort_false {abort : Option Bool} (h : abort ≠ none) (hn : abort ≠ some true) : abort = some false := by
  rcases abort with _ | _ | _
  · exact absurd rfl h
  · rfl
  · exact absurd rfl hn

/-! ## What a step does -/

inductive Moved (cfg : Config) (s : State) : State → Prop where
  | began (hp : s.phase = .config) :
      Moved cfg s { s with status := .connecting, connectAbort := some false, attempt := 0 }.beginAttempt
  | configThrew (hp : s.phase = .config) : Moved cfg s { s with phase := .settled }
  | resolverThrew (hp : s.phase = .config) : Moved cfg s { s with phase := .resolverThrew }
  | built (hp : s.phase = .attemptConfig) : Moved cfg s (s.build cfg)
  | buildThrew (hp : s.phase = .attemptConfig) : Moved cfg s { s with status := .init, phase := .buildThrew }
  | native (hp : s.phase = .native) :
      Moved cfg s { s.setClient fun c => { c with isConnected := true } with phase := .metadata }
  | metadataThrew (hp : s.phase = .metadata) (e : Failure) :
      Moved cfg s { s.setClient fun c => { c with isConnected := false } with phase := .failing e }
  | connected {e : Option Failure} (hp : s.phase = .native ∨ s.phase = .metadata ∨ ∃ e', s.phase = .failing e') :
      Moved cfg s { s.setClient fun c => { c with isConnecting := false } with phase := .attempted e }
  | attempted {e : Option Failure} (hp : s.phase = .attempted e) : Moved cfg s (s.attempted cfg e)
  | onConnected (hp : s.phase = .onConnected) : Moved cfg s (s.onConnected cfg)
  | transactions (hp : s.phase = .initTransactions) (e : Option Failure) :
      Moved cfg s { s with status := if e = none then .connected else s.status, phase := .onConnectedSettled e }
  | onConnectedSettled {e : Option Failure} (hp : s.phase = .onConnectedSettled e) : Moved cfg s (s.afterAttempt e)
  | torn {e : Option Failure} (hp : s.phase = .teardown e) (hc : s.internalClient.any (·.isConnected) = true) :
      Moved cfg s { s.setClient Client.disconnected with phase := .tornDown e }
  | notTorn {e : Option Failure} (hp : s.phase = .teardown e) (hc : ¬ s.internalClient.any (·.isConnected) = true) :
      Moved cfg s { s with phase := .tornDown e }
  | tornDown {e : Option Failure} (hp : s.phase = .tornDown e) : Moved cfg s (s.tornDown cfg e)
  | backedOff (hp : s.phase = .backoff) : Moved cfg s s.backedOff
  | serdesClosed (hp : s.phase = .resolverThrew ∨ s.phase = .buildThrew ∨ s.phase = .closingSerdes) :
    Moved cfg s s.finish
  | settled (hp : s.phase = .settled) : Moved cfg s { s with phase := .idle }

theorem stepConnect_moved {cfg : Config} {s t : State} {e : Ev} (h : stepConnect cfg s e = some t) :
    Moved cfg s t := by
  cases e with
  | config outcome =>
    simp only [stepConnect] at h
    split at h
    · rename_i hp; obtain rfl := Option.some.inj h; exact .began hp
    · rename_i hp; obtain rfl := Option.some.inj h; exact .configThrew hp
    · rename_i hp; obtain rfl := Option.some.inj h; exact .resolverThrew hp
    · cases h
  | build ok =>
    simp only [stepConnect] at h
    split at h
    · rename_i hp
      split_ifs at h
      · obtain rfl := Option.some.inj h; exact .built hp
      · obtain rfl := Option.some.inj h; exact .buildThrew hp
    · cases h
  | native e =>
    simp only [stepConnect] at h
    split at h
    · rename_i hp
      cases e with
      | none => obtain rfl := Option.some.inj h; exact .native hp
      | some e => obtain rfl := Option.some.inj h; exact .connected (.inl hp)
    · cases h
  | metadata e =>
    simp only [stepConnect] at h
    split at h
    · rename_i hp
      cases e with
      | none => obtain rfl := Option.some.inj h; exact .connected (.inr (.inl hp))
      | some e => obtain rfl := Option.some.inj h; exact .metadataThrew hp e
    · cases h
  | failed =>
    simp only [stepConnect] at h
    split at h
    · rename_i hp; obtain rfl := Option.some.inj h; exact .connected (.inr (.inr ⟨_, hp⟩))
    · cases h
  | attempted =>
    simp only [stepConnect] at h
    split at h
    · rename_i hp; obtain rfl := Option.some.inj h; exact .attempted hp
    · cases h
  | onConnected =>
    simp only [stepConnect] at h
    split at h
    · rename_i hp; obtain rfl := Option.some.inj h; exact .onConnected hp
    · cases h
  | transactions e =>
    simp only [stepConnect] at h
    split at h
    · rename_i hp; obtain rfl := Option.some.inj h; exact .transactions hp e
    · cases h
  | onConnectedSettled =>
    simp only [stepConnect] at h
    split at h
    · rename_i hp; obtain rfl := Option.some.inj h; exact .onConnectedSettled hp
    · cases h
  | torn =>
    simp only [stepConnect] at h
    split at h
    · rename_i hp
      split_ifs at h with hc
      · obtain rfl := Option.some.inj h; exact .torn hp hc
      · obtain rfl := Option.some.inj h; exact .notTorn hp hc
    · cases h
  | tornDown =>
    simp only [stepConnect] at h
    split at h
    · rename_i hp; obtain rfl := Option.some.inj h; exact .tornDown hp
    · cases h
  | timer =>
    simp only [stepConnect] at h
    split at h
    · rename_i hp; obtain rfl := Option.some.inj h; exact .backedOff hp
    · cases h
  | serdesClosed =>
    simp only [stepConnect] at h
    split at h
    · rename_i hp; obtain rfl := Option.some.inj h; exact .serdesClosed (.inl hp)
    · rename_i hp; obtain rfl := Option.some.inj h; exact .serdesClosed (.inr (.inl hp))
    · rename_i hp; obtain rfl := Option.some.inj h; exact .serdesClosed (.inr (.inr hp))
    · cases h
  | settle =>
    simp only [stepConnect] at h
    split at h
    · rename_i hp; obtain rfl := Option.some.inj h; exact .settled hp
    · cases h
  | _ => cases h

theorem afterAttempt_disconnects (s : State) (e : Option Failure) : (s.afterAttempt e).disconnects =
    s.disconnects := by
  unfold State.afterAttempt State.teardownFailedClient
  simp only
  split_ifs <;> rfl

theorem Moved.disconnects {cfg : Config} {s t : State} (h : Moved cfg s t) : t.disconnects = s.disconnects := by
  cases h with
  | attempted hp =>
    unfold State.attempted
    split_ifs
    · cases cfg.kind with
      | producer _ => rfl
      | consumer => exact afterAttempt_disconnects _ _
    · exact afterAttempt_disconnects _ _
  | onConnected hp => unfold State.onConnected; split_ifs <;> rfl
  | onConnectedSettled hp => exact afterAttempt_disconnects _ _
  | tornDown hp => unfold State.tornDown; split_ifs <;> rfl
  | backedOff hp => unfold State.backedOff; split_ifs <;> rfl
  | _ => rfl

inductive Called (cfg : Config) (s : State) : State → Prop where
  | resolved (h : s.status = .init ∨ s.connectAbort = none ∧ s.status.ended = true) :
      Called cfg s (s.addDisconnect .resolved s.status)
  | waits (hst : s.status ≠ .init) (ha : s.connectAbort ≠ none) :
      Called cfg s ({ s with connectAbort := some true, log := s.log ++ [Note.aborted] }.addDisconnect
        .waiting s.status)
  | locks (hk : cfg.kind = .consumer) (hst : s.status ≠ .init) (ha : s.connectAbort = none)
      (he : s.status.ended = false) (lock : Lock.State) (started : Bool) (index : Nat) :
      Called cfg s ({ s with lock, disconnectStarted := started }.addDisconnect (.lock index) s.status)
  | closes (hk : cfg.kind ≠ .consumer) (hst : s.status ≠ .init) (ha : s.connectAbort = none)
      (he : s.status.ended = false) (hc : s.internalClient.any (·.isConnected) = true) :
      Called cfg s ({ s with status := .disconnecting }.closeClient.1.addDisconnect
        { s with status := .disconnecting }.closeClient.2 s.status)
  | flushThrew (hk : cfg.kind ≠ .consumer) (hst : s.status ≠ .init) (ha : s.connectAbort = none)
      (he : s.status.ended = false) (hc : ¬ s.internalClient.any (·.isConnected) = true) :
      Called cfg s ({ s with status := .disconnecting }.addDisconnect (.serdes false) s.status)

theorem disconnect_called {cfg : Config} {s t : State} (h : s.disconnect cfg = some t) : Called cfg s t := by
  unfold State.disconnect at h
  by_cases hst : s.status = .init
  · rw [if_pos hst] at h
    obtain rfl := Option.some.inj h
    exact .resolved (.inl hst)
  rw [if_neg hst] at h
  split at h
  · rename_i hb
    obtain rfl := Option.some.inj h
    exact .waits hst (by simp [hb])
  · rename_i ha
    by_cases he : s.status.ended = true
    · rw [if_pos he] at h
      obtain rfl := Option.some.inj h
      exact .resolved (.inr ⟨ha, he⟩)
    rw [if_neg he] at h
    have he : s.status.ended = false := by simpa using he
    split at h
    · rename_i hk
      obtain ⟨lock, _, rfl⟩ := Option.map_eq_some_iff.mp h
      exact .locks hk hst ha he lock true _
    · rename_i hk
      have hk : cfg.kind ≠ .consumer := by rw [hk]; simp
      split_ifs at h with hc
      · obtain rfl := Option.some.inj h
        exact .closes hk hst ha he hc
      · obtain rfl := Option.some.inj h
        exact .flushThrew hk hst ha he hc

inductive Answered (s : State) (i : Nat) (d : Disconnect) : State → Prop where
  | waited (hp : d.phase = .waiting) (h : s.phase = .idle ∨ d.connects < s.connects) :
      Answered s i d (s.setDisconnect i d .resolved)
  | wrote {j : Nat} (hp : d.phase = .lock j) (lock : Lock.State) :
      Answered s i d ({ s with lock, status := .disconnecting }.setDisconnect i d .written)
  | unsubscribed (hp : d.phase = .written) {t : State}
      (ht : t = s.setClient fun c => { c with unsubscribes := c.unsubscribes + 1 }) :
      Answered s i d (t.closeClient.1.setDisconnect i d t.closeClient.2)
  | unsubscribeThrew (hp : d.phase = .written) :
      Answered s i d ((s.setClient fun c => { c with unsubscribes := c.unsubscribes + 1 }).setDisconnect i d
        (.serdes false))
  | closed (hp : d.phase = .closing) :
      Answered s i d ({ s.setClient Client.disconnected with status := .disconnected }.setDisconnect i d
        (.serdes true))
  | serdesClosed {ok : Bool} (hp : d.phase = .serdes ok) : Answered s i d (s.setDisconnect i d .rejected)
  | serdesResolved (hp : d.phase = .serdes true) : Answered s i d (s.setDisconnect i d .resolved)

theorem stepDisconnect_answered {s t : State} {e : Ev} (h : stepDisconnect s e = some t) :
    ∃ i d, s.disconnects[i]? = some d ∧ Answered s i d t := by
  cases e with
  | waited i =>
    simp only [stepDisconnect] at h
    split at h
    · rename_i d hd
      split_ifs at h with hw
      obtain rfl := Option.some.inj h
      exact ⟨i, d, hd, .waited hw.1 hw.2⟩
    · cases h
  | write i =>
    simp only [stepDisconnect] at h
    split at h
    · rename_i d hd
      split at h
      · rename_i hp
        obtain ⟨lock, _, rfl⟩ := Option.map_eq_some_iff.mp h
        exact ⟨i, d, hd, .wrote hp lock⟩
      · cases h
    · cases h
  | unsubscribe i ok =>
    simp only [stepDisconnect] at h
    split at h
    · rename_i d hd
      split_ifs at h with hp hok
      · obtain rfl := Option.some.inj h
        exact ⟨i, d, hd, .unsubscribed hp rfl⟩
      · obtain rfl := Option.some.inj h
        exact ⟨i, d, hd, .unsubscribeThrew hp⟩
    · cases h
  | closed i =>
    simp only [stepDisconnect] at h
    split at h
    · rename_i d hd
      split_ifs at h with hp
      obtain rfl := Option.some.inj h
      exact ⟨i, d, hd, .closed hp⟩
    · cases h
  | closedSerdes i ok =>
    simp only [stepDisconnect] at h
    split at h
    · rename_i d hd
      split at h
      · rename_i ok' hp
        obtain rfl := Option.some.inj h
        split_ifs with hok
        · rw [hok.1] at hp
          exact ⟨i, d, hd, .serdesResolved hp⟩
        · exact ⟨i, d, hd, .serdesClosed hp⟩
      · cases h
    · cases h
  | _ => cases h

theorem stepRun_eq {cfg : Config} {s t : State} {e : Ev} (h : stepRun cfg s e = some t) :
    ∃ lock run, t = { s with lock, run } := by
  cases e with
  | run =>
    simp only [stepRun] at h
    split_ifs at h
    obtain ⟨lock, _, rfl⟩ := Option.map_eq_some_iff.mp h
    exact ⟨lock, _, rfl⟩
  | runEnded =>
    obtain ⟨j, _, h⟩ := Option.bind_eq_some_iff.mp h
    split_ifs at h
    obtain ⟨lock, _, rfl⟩ := Option.map_eq_some_iff.mp h
    exact ⟨lock, _, rfl⟩
  | resume i =>
    obtain ⟨lock, _, rfl⟩ := Option.map_eq_some_iff.mp h
    exact ⟨lock, _, rfl⟩
  | _ => cases h

inductive Stepped (cfg : Config) (s : State) : Ev → State → Prop where
  | connect : Stepped cfg s .connect s.connect
  | moved {e : Ev} {t : State} (h : Moved cfg s t) : Stepped cfg s e t
  | called {t : State} (h : Called cfg s t) : Stepped cfg s .disconnect t
  | answered {e : Ev} {t : State} {i : Nat} {d : Disconnect} (hd : s.disconnects[i]? = some d)
    (h : Answered s i d t) :
      Stepped cfg s e t
  | ran {e : Ev} (lock : Lock.State) (run : Option Nat) : Stepped cfg s e { s with lock, run }

theorem step_stepped {cfg : Config} {s t : State} {e : Ev} (h : step cfg s e = some t) : Stepped cfg s e t := by
  have hran : ∀ e, stepRun cfg s e = some t → Stepped cfg s e t := fun _ h => by
    obtain ⟨lock, run, rfl⟩ := stepRun_eq h
    exact .ran lock run
  have hanswered : ∀ e, stepDisconnect s e = some t → Stepped cfg s e t := fun _ h => by
    obtain ⟨i, d, hd, h⟩ := stepDisconnect_answered h
    exact .answered hd h
  cases e with
  | connect =>
    obtain rfl := Option.some.inj h
    exact .connect
  | disconnect => exact .called (disconnect_called h)
  | run => exact hran .run h
  | runEnded => exact hran .runEnded h
  | resume i => exact hran (.resume i) h
  | waited i => exact hanswered (.waited i) h
  | write i => exact hanswered (.write i) h
  | unsubscribe i ok => exact hanswered (.unsubscribe i ok) h
  | closed i => exact hanswered (.closed i) h
  | closedSerdes i ok => exact hanswered (.closedSerdes i ok) h
  | _ =>
    simp only [step] at h
    exact .moved (stepConnect_moved h)

/-! ## The clients -/

namespace Clients

variable {cfg : Config} {s : State}

theorem teardownFailedClient (habort : s.connectAbort ≠ none)
    (hst : Trying s.status ∨ s.status = .connected ∧ s.connectAbort = some true) (hc : Calm s.internalClient)
    (hold : ∀ c ∈ s.abandoned, c.live = false) (e : Option Failure) : Clients (s.teardownFailedClient e) := by
  unfold State.teardownFailedClient
  split_ifs
  · exact ⟨⟨habort, hst, hc.map fun _ => rfl⟩, hold⟩
  · exact ⟨⟨habort, hst, hc⟩, hold⟩

/-- The attempt ends in `CONNECTED`, or its client is torn down. -/
theorem afterAttempt (habort : s.connectAbort ≠ none) {e : Option Failure}
    (hst : if e = none then s.status = .connected ∨ s.connectAbort = some true ∧
      Trying s.status else Trying s.status)
    (hc : Calm s.internalClient) (hold : ∀ c ∈ s.abandoned, c.live = false) : Clients (s.afterAttempt e) := by
  unfold State.afterAttempt
  simp only
  split_ifs with h
  · obtain ⟨rfl, ha⟩ := h
    rw [if_pos rfl] at hst
    rcases hst with hst | ⟨ha', _⟩
    · exact ⟨⟨rfl, .inr ⟨.inl hst, hc⟩⟩, hold⟩
    · rw [show s.connectAbort = some false from ha] at ha'; cases ha'
  · refine teardownFailedClient (s := { s with log := s.log ++ [e.elim Note.succeeded Note.failed] })
      habort ?_ hc hold e
    by_cases he : e = none
    · subst he
      rw [if_pos rfl] at hst
      rcases hst with hst | ⟨_, hst⟩
      · refine .inr ⟨hst, ?_⟩
        by_contra hn
        exact h ⟨rfl, abort_false habort hn⟩
      · exact .inl hst
    · rw [if_neg he] at hst
      exact .inl hst

theorem fail (habort : s.connectAbort ≠ none) (hq : Quiet s.internalClient)
    (hold : ∀ c ∈ s.abandoned, c.live = false) :
    Clients s.fail := ⟨⟨habort, rfl, hq⟩, hold⟩

theorem built (hi : Clients s) (hp : s.phase = .attemptConfig) : Clients (s.build cfg) := by
  obtain ⟨hs, hold⟩ := hi
  unfold State.Staged at hs
  rw [hp] at hs
  obtain ⟨ha, hst, hq⟩ := hs
  refine ⟨⟨ha, ?_⟩, ?_⟩
  · unfold State.build
    cases cfg.kind with
    | producer _ => exact .inl rfl
    | consumer => exact hst
  · intro c hc
    rcases List.mem_append.mp hc with hc | hc
    · exact hold c hc
    · exact hq c (Option.mem_toList.mp hc)

theorem attempted (hi : Clients s) {e : Option Failure} (hp : s.phase = .attempted e) :
    Clients (s.attempted cfg e) := by
  obtain ⟨hs, hold⟩ := hi
  unfold State.Staged at hs
  rw [hp] at hs
  obtain ⟨ha, hst, hc⟩ := hs
  unfold State.attempted
  split_ifs with hok
  · cases cfg.kind with
    | producer _ => exact ⟨⟨ha, hst, hc⟩, hold⟩
    | consumer =>
      refine afterAttempt (s := { s with status := .connected }) ha ?_ hc hold
      rw [if_pos rfl]
      exact .inl rfl
  · refine afterAttempt ha ?_ hc hold
    split_ifs with he
    · exact .inr ⟨by by_contra hn; exact hok ⟨he, abort_false ha hn⟩, hst⟩
    · exact hst

theorem onConnected (hi : Clients s) (hp : s.phase = .onConnected) : Clients (s.onConnected cfg) := by
  obtain ⟨hs, hold⟩ := hi
  unfold State.Staged at hs
  rw [hp] at hs
  obtain ⟨ha, _, hc⟩ := hs
  unfold State.onConnected
  split_ifs
  · exact ⟨⟨ha, .inr rfl, hc⟩, hold⟩
  · exact ⟨⟨ha, by rw [if_pos rfl], hc⟩, hold⟩

theorem tornDown (hi : Clients s) {e : Option Failure} (hp : s.phase = .tornDown e) :
    Clients (s.tornDown cfg e) := by
  obtain ⟨hs, hold⟩ := hi
  unfold State.Staged at hs
  rw [hp] at hs
  obtain ⟨ha, hst, hq⟩ := hs
  unfold State.tornDown
  split_ifs with hab
  · exact fail ha hq hold
  · exact fail ha hq hold
  · exact ⟨⟨ha, hst.resolve_right fun h => hab h.2, hq⟩, hold⟩

theorem backedOff (hi : Clients s) (hp : s.phase = .backoff) : Clients s.backedOff := by
  obtain ⟨hs, hold⟩ := hi
  unfold State.Staged at hs
  rw [hp] at hs
  obtain ⟨ha, hst, hq⟩ := hs
  unfold State.backedOff
  split_ifs
  · exact fail ha hq hold
  · exact ⟨⟨ha, hst, hq⟩, hold⟩

theorem serdesClosed (hi : Clients s) (hp : s.phase = .resolverThrew ∨ s.phase = .buildThrew ∨
    s.phase = .closingSerdes) :
    Clients s.finish := by
  obtain ⟨hs, hold⟩ := hi
  unfold State.Staged at hs
  refine ⟨⟨rfl, .inl ?_⟩, hold⟩
  rcases hp with hp | hp | hp <;> rw [hp] at hs
  · exact ⟨.inl hs.2.1, hs.2.2⟩
  · exact ⟨.inl hs.2.1, hs.2.2⟩
  · exact ⟨.inr hs.2.1, hs.2.2⟩

theorem moved {t : State} (hi : Clients s) (h : Moved cfg s t) : Clients t := by
  have hs := hi.stage
  have hold := hi.abandoned
  unfold State.Staged at hs
  cases h with
  | began hp =>
    rw [hp] at hs
    exact ⟨⟨by simp [State.beginAttempt], .inl rfl, hs.2.2⟩, hold⟩
  | configThrew hp =>
    rw [hp] at hs
    exact ⟨⟨hs.1, .inl ⟨.inl hs.2.1, hs.2.2⟩⟩, hold⟩
  | resolverThrew hp =>
    rw [hp] at hs
    exact ⟨hs, hold⟩
  | built hp => exact hi.built hp
  | buildThrew hp =>
    rw [hp] at hs
    exact ⟨⟨hs.1, rfl, hs.2.2⟩, hold⟩
  | native hp =>
    rw [hp] at hs
    exact ⟨hs, hold⟩
  | metadataThrew hp e =>
    rw [hp] at hs
    exact ⟨hs, hold⟩
  | connected hp =>
    have hs : s.connectAbort ≠ none ∧ Trying s.status := by
      rcases hp with hp | hp | ⟨e, hp⟩ <;> rw [hp] at hs <;> exact hs
    refine ⟨⟨hs.1, hs.2, ?_⟩, hold⟩
    intro x hx
    obtain ⟨y, _, rfl⟩ := Option.map_eq_some_iff.mp hx
    rfl
  | attempted hp => exact hi.attempted hp
  | onConnected hp => exact hi.onConnected hp
  | transactions hp e =>
    rw [hp] at hs
    obtain ⟨ha, hst, hc⟩ := hs
    refine ⟨⟨ha, ?_, hc⟩, hold⟩
    split_ifs
    · rfl
    · exact hst
  | onConnectedSettled hp =>
    rw [hp] at hs
    obtain ⟨ha, hst, hc⟩ := hs
    refine afterAttempt ha ?_ hc hold
    split_ifs at hst ⊢
    · exact .inl hst
    · exact hst
  | torn hp hcon =>
    rw [hp] at hs
    obtain ⟨ha, hst, hc⟩ := hs
    exact ⟨⟨ha, hst, hc.disconnected⟩, hold⟩
  | notTorn hp hcon =>
    rw [hp] at hs
    obtain ⟨ha, hst, hc⟩ := hs
    exact ⟨⟨ha, hst, hc.quiet hcon⟩, hold⟩
  | tornDown hp => exact hi.tornDown hp
  | backedOff hp => exact hi.backedOff hp
  | serdesClosed hp => exact hi.serdesClosed hp
  | settled hp =>
    rw [hp] at hs
    exact ⟨hs, hold⟩

end Clients

/-! ## The calls of `disconnect` -/

def State.Rests (s : State) : Prop := s.phase = .idle ∨ s.phase = .settled

/-- Nothing is connected, and nothing connects before `connect` is called again. -/
def State.Down (s : State) : Prop :=
  (s.Rests ∨ s.phase = .resolverThrew ∨ s.phase = .buildThrew) ∧ s.status ≠ .connected ∧ Quiet s.internalClient

/-- What holds while a call of `disconnect` is in a phase. -/
def DisconnectPhase.Holds (s : State) (d : Disconnect) : DisconnectPhase → Prop
  | .waiting => d.connects = s.connects → s.connectAbort = some true ∨ s.Down
  | .lock _ => s.Rests ∧ (s.status = .connected ∨ s.status.ended = true)
  | .written => s.Rests ∧ s.status.ended = true
  | .closing => s.Rests ∧ s.status.ended = true
  | .ignored => s.Rests ∧ s.status.ended = true
  | .serdes ok => s.Rests ∧ s.status.ended = true ∧ (ok = true → s.Down)
  | .resolved => d.calledIn ≠ .config → d.calledAt ≠ .disconnecting → d.connects = s.connects → s.Down
  | .rejected => True

structure Inv (s : State) : Prop where
  clients : Clients s
  connects : ∀ d ∈ s.disconnects, d.connects ≤ s.connects
  calls : ∀ d ∈ s.disconnects, d.phase.Holds s d

/-- A step that keeps what holds of the calls of `disconnect`. -/
structure Keeps (s t : State) : Prop where
  connects : t.connects = s.connects
  abort : s.connectAbort = some true → t.connectAbort = some true ∨ t.Down
  down : s.Down → t.Down
  ended : s.Rests → s.status.ended = true → t.Rests ∧ t.status.ended = true
  rests : s.Rests → s.status = .connected → t.Rests ∧ (t.status = .connected ∨ t.status.ended = true)

namespace Keeps

variable {cfg : Config} {s t : State}

theorem holds (hk : Keeps s t) {d : Disconnect} : ∀ {ph : DisconnectPhase}, ph.Holds s d → ph.Holds t d
  | .waiting, h => fun e => (h (e.trans hk.connects)).elim hk.abort fun h => .inr (hk.down h)
  | .lock _, ⟨hr, h⟩ => h.elim (hk.rests hr) fun h => ⟨(hk.ended hr h).1, .inr (hk.ended hr h).2⟩
  | .written, ⟨hr, h⟩ => hk.ended hr h
  | .closing, ⟨hr, h⟩ => hk.ended hr h
  | .ignored, ⟨hr, h⟩ => hk.ended hr h
  | .serdes _, ⟨hr, h, hd⟩ => ⟨(hk.ended hr h).1, (hk.ended hr h).2, fun e => hk.down (hd e)⟩
  | .resolved, h => fun h₁ h₂ e => hk.down (h h₁ h₂ (e.trans hk.connects))
  | .rejected, _ => trivial

/-- In the loop of the attempts only the abort matters. -/
theorem of_loop (hr : ¬ s.Rests) (hre : s.phase ≠ .resolverThrew) (hbu : s.phase ≠ .buildThrew)
    (hc : t.connects = s.connects) (ha : s.connectAbort = some true → t.connectAbort = some true ∨ t.Down) :
      Keeps s t :=
  ⟨hc, ha, fun h => (h.1.elim hr fun h => h.elim (absurd · hre) (absurd · hbu)).elim, fun h => absurd h hr,
    fun h => absurd h hr⟩

theorem teardownFailedClient (s : State) (e : Option Failure) :
    (s.teardownFailedClient e).connects = s.connects ∧ (s.teardownFailedClient e).connectAbort =
      s.connectAbort := by
  unfold State.teardownFailedClient
  split_ifs
  · exact ⟨rfl, rfl⟩
  · exact ⟨rfl, rfl⟩

theorem afterAttempt (s : State) (e : Option Failure) : (s.afterAttempt e).connects = s.connects ∧
    (s.connectAbort = some true → (s.afterAttempt e).connectAbort = some true) := by
  unfold State.afterAttempt
  simp only
  split_ifs with h
  · refine ⟨rfl, fun ha => ?_⟩
    rw [show s.connectAbort = some false from h.2] at ha; cases ha
  · obtain ⟨h₁, h₂⟩ := teardownFailedClient { s with log := s.log ++ [e.elim Note.succeeded Note.failed] } e
    exact ⟨h₁, fun ha => h₂.trans ha⟩

theorem attempted (cfg : Config) (s : State) (e : Option Failure) : (s.attempted cfg e).connects = s.connects ∧
    (s.connectAbort = some true → (s.attempted cfg e).connectAbort = some true) := by
  unfold State.attempted
  split_ifs
  · cases cfg.kind with
    | producer _ => exact ⟨rfl, id⟩
    | consumer => exact afterAttempt { s with status := .connected } none
  · exact afterAttempt s e

theorem moved (hi : Clients s) (h : Moved cfg s t) : Keeps s t := by
  have hs := hi.stage
  unfold State.Staged at hs
  cases h with
  | began hp =>
    rw [hp] at hs
    refine of_loop (by simp [State.Rests, hp]) (by simp [hp]) (by simp [hp]) rfl fun h => ?_
    rw [hs.1] at h; cases h
  | configThrew hp =>
    rw [hp] at hs
    refine of_loop (by simp [State.Rests, hp]) (by simp [hp]) (by simp [hp]) rfl fun h => ?_
    rw [hs.1] at h; cases h
  | resolverThrew hp =>
    rw [hp] at hs
    refine of_loop (by simp [State.Rests, hp]) (by simp [hp]) (by simp [hp]) rfl fun h => ?_
    rw [hs.1] at h; cases h
  | built hp => exact of_loop (by simp [State.Rests, hp]) (by simp [hp]) (by simp [hp]) rfl .inl
  | buildThrew hp =>
    rw [hp] at hs
    refine of_loop (by simp [State.Rests, hp]) (by simp [hp]) (by simp [hp]) rfl fun _ => .inr ?_
    exact ⟨.inr (.inr rfl), by simp, hs.2.2⟩
  | native hp => exact of_loop (by simp [State.Rests, hp]) (by simp [hp]) (by simp [hp]) rfl .inl
  | metadataThrew hp e => exact of_loop (by simp [State.Rests, hp]) (by simp [hp]) (by simp [hp]) rfl .inl
  | connected hp =>
    rcases hp with hp | hp | ⟨e, hp⟩ <;>
      exact of_loop (by simp [State.Rests, hp]) (by simp [hp]) (by simp [hp]) rfl .inl
  | attempted hp =>
    obtain ⟨hc, ha⟩ := attempted cfg s _
    exact of_loop (by simp [State.Rests, hp]) (by simp [hp]) (by simp [hp]) hc fun h => .inl (ha h)
  | onConnected hp =>
    unfold State.onConnected
    split_ifs <;> exact of_loop (by simp [State.Rests, hp]) (by simp [hp]) (by simp [hp]) rfl .inl
  | transactions hp e => exact of_loop (by simp [State.Rests, hp]) (by simp [hp]) (by simp [hp]) rfl .inl
  | onConnectedSettled hp =>
    obtain ⟨hc, ha⟩ := afterAttempt s _
    exact of_loop (by simp [State.Rests, hp]) (by simp [hp]) (by simp [hp]) hc fun h => .inl (ha h)
  | torn hp _ => exact of_loop (by simp [State.Rests, hp]) (by simp [hp]) (by simp [hp]) rfl .inl
  | notTorn hp _ => exact of_loop (by simp [State.Rests, hp]) (by simp [hp]) (by simp [hp]) rfl .inl
  | tornDown hp =>
    unfold State.tornDown
    split_ifs <;> exact of_loop (by simp [State.Rests, hp]) (by simp [hp]) (by simp [hp]) rfl .inl
  | backedOff hp =>
    unfold State.backedOff
    split_ifs <;> exact of_loop (by simp [State.Rests, hp]) (by simp [hp]) (by simp [hp]) rfl .inl
  | serdesClosed hp =>
    have hr : ¬ s.Rests := by rcases hp with hp | hp | hp <;> simp [State.Rests, hp]
    have hdown : s.finish.Down := by
      refine ⟨.inl (.inr rfl), ?_⟩
      rcases hp with hp | hp | hp <;> rw [hp] at hs
      · exact ⟨by simp [State.finish, hs.2.1], hs.2.2⟩
      · exact ⟨by simp [State.finish, hs.2.1], hs.2.2⟩
      · exact ⟨by simp [State.finish, hs.2.1], hs.2.2⟩
    exact ⟨rfl, fun _ => .inr hdown, fun _ => hdown, fun h => absurd h hr, fun h => absurd h hr⟩
  | settled hp =>
    exact ⟨rfl, .inl, fun h => ⟨.inl (.inl rfl), h.2⟩, fun _ h => ⟨.inl rfl, h⟩, fun _ h => ⟨.inl rfl, .inl h⟩⟩

end Keeps

theorem Stage.aborted {status : Status} {abort : Option Bool} {c : Option Client} {ph : Phase} (ha : abort ≠ none)
    (h : Stage status abort c ph) : Stage status (some true) c ph := by
  have hn : (some true : Option Bool) ≠ none := by simp
  cases ph with
  | idle => exact absurd h.1 ha
  | config => exact absurd h.1 ha
  | resolverThrew => exact absurd h.1 ha
  | settled => exact absurd h.1 ha
  | teardown e => exact ⟨hn, h.2.1.imp_right fun h => ⟨h.1, rfl⟩, h.2.2⟩
  | tornDown e => exact ⟨hn, h.2.1.imp_right fun h => ⟨h.1, rfl⟩, h.2.2⟩
  | _ => exact ⟨hn, h.2⟩

/-- Where nothing can be aborted nothing connects, unless the configuration is still to come. -/
theorem Stage.outside {s : State} (h : s.Staged) (ha : s.connectAbort = none) (hst : s.status ≠ .init) :
    s.Rests ∧ Resting s.status s.internalClient := by
  unfold State.Staged at h
  unfold State.Rests
  cases hp : s.phase with
  | idle => rw [hp] at h; exact ⟨.inl rfl, h.2⟩
  | settled => rw [hp] at h; exact ⟨.inr rfl, h.2⟩
  | config => rw [hp] at h; exact absurd h.2.1 hst
  | resolverThrew => rw [hp] at h; exact absurd h.2.1 hst
  | _ => rw [hp] at h; exact absurd ha h.1

theorem Stage.init_down {s : State} (h : s.Staged) (hst : s.status = .init) (hp : s.phase ≠ .config) : s.Down := by
  unfold State.Staged at h
  have hne : s.status ≠ .connected := by rw [hst]; simp
  have hrest : Resting s.status s.internalClient → Quiet s.internalClient := by
    rintro (h | ⟨h | h, _⟩)
    · exact h.2
    · rw [hst] at h; cases h
    · rw [hst] at h; cases h
  unfold State.Down State.Rests
  cases hph : s.phase with
  | idle => rw [hph] at h; exact ⟨.inl (.inl rfl), hne, hrest h.2⟩
  | settled => rw [hph] at h; exact ⟨.inl (.inr rfl), hne, hrest h.2⟩
  | resolverThrew => rw [hph] at h; exact ⟨.inr (.inl rfl), hne, h.2.2⟩
  | buildThrew => rw [hph] at h; exact ⟨.inr (.inr rfl), hne, h.2.2⟩
  | config => exact absurd hph hp
  | closingSerdes => rw [hph] at h; rw [hst] at h; cases h.2.1
  | onConnectedSettled e =>
    rw [hph] at h
    obtain ⟨_, h, _⟩ := h
    rw [hst] at h
    split_ifs at h
    rcases h with h | h <;> cases h
  | teardown e =>
    rw [hph, hst] at h
    rcases h.2.1 with (h | h) | ⟨h, _⟩ <;> cases h
  | tornDown e =>
    rw [hph, hst] at h
    rcases h.2.1 with (h | h) | ⟨h, _⟩ <;> cases h
  | native =>
    rw [hph, hst] at h
    rcases h.2 with h | h <;> cases h
  | metadata =>
    rw [hph, hst] at h
    rcases h.2 with h | h <;> cases h
  | failing e =>
    rw [hph, hst] at h
    rcases h.2 with h | h <;> cases h
  | _ =>
    rw [hph, hst] at h
    rcases h.2.1 with h | h <;> cases h

/-! ## Every step -/

theorem Keeps.refl (s : State) : Keeps s s := ⟨rfl, .inl, id, fun hr h => ⟨hr, h⟩, fun hr h => ⟨hr, .inl h⟩⟩

namespace Inv

variable {cfg : Config} {s t : State} (hi : Inv s)
include hi

theorem of_keeps (hc : Clients t) (hk : Keeps s t) (hd : t.disconnects = s.disconnects) : Inv t := by
  refine ⟨hc, ?_, ?_⟩
  · rw [hd, hk.connects]
    exact hi.connects
  · rw [hd]
    exact fun d hm => hk.holds (hi.calls d hm)

theorem connect : Inv s.connect := by
  unfold State.connect
  split_ifs with hp hst
  · exact hi
  · exact hi
  · have hp : s.phase = .idle := by simpa using hp
    have hst : s.status = .init := by simpa using hst
    have hs := hi.clients.stage
    have hdown := Stage.init_down hs hst (by rw [hp]; simp)
    unfold State.Staged at hs
    rw [hp] at hs
    refine ⟨⟨⟨hs.1, hst, hdown.2.2⟩, hi.clients.abandoned⟩, fun d hd => Nat.le_succ_of_le (hi.connects d hd), ?_⟩
    intro d hd
    have hlt : d.connects ≠ s.connects + 1 := Nat.ne_of_lt (Nat.lt_succ_of_le (hi.connects d hd))
    have hne : ¬ s.status.ended = true := by rw [hst]; simp [Status.ended]
    have hh := hi.calls d hd
    cases hph : d.phase with
    | waiting => exact fun e => absurd e hlt
    | lock j =>
      rw [hph] at hh
      exact hh.2.elim (fun h => by rw [hst] at h; cases h) (absurd · hne)
    | written => rw [hph] at hh; exact absurd hh.2 hne
    | closing => rw [hph] at hh; exact absurd hh.2 hne
    | ignored => rw [hph] at hh; exact absurd hh.2 hne
    | serdes ok => rw [hph] at hh; exact absurd hh.2.1 hne
    | resolved => exact fun _ _ e => absurd e hlt
    | rejected => trivial

theorem addDisconnect {u : State} (hc : Clients u) (hk : Keeps s u) (hd : u.disconnects = s.disconnects)
    (ph : DisconnectPhase) {calledAt : Status} (hh : ph.Holds u ⟨ph, u.connects, u.phase, calledAt⟩) :
    Inv (u.addDisconnect ph calledAt) := by
  have hu := hi.of_keeps hc hk hd
  refine ⟨⟨hc.stage, hc.abandoned⟩, ?_, ?_⟩
  · intro d hm
    rcases List.mem_append.mp hm with hm | hm
    · exact hu.connects d hm
    · obtain rfl := List.mem_singleton.mp hm
      exact Nat.le_refl _
  · intro d hm
    have hsame : Keeps u (u.addDisconnect ph calledAt) :=
      ⟨rfl, .inl, id, fun hr h => ⟨hr, h⟩, fun hr h => ⟨hr, .inl h⟩⟩
    rcases List.mem_append.mp hm with hm | hm
    · exact hsame.holds (hu.calls d hm)
    · obtain rfl := List.mem_singleton.mp hm
      exact hsame.holds hh

theorem called (h : Called cfg s t) : Inv t := by
  have hc := hi.clients
  have hcon : s.status ≠ .init → s.connectAbort = none → s.status.ended = false →
      s.Rests ∧ s.status = .connected ∧ Calm s.internalClient := by
    intro hst ha he
    obtain ⟨hr, hrest⟩ := Stage.outside hc.stage ha hst
    rcases hrest with ⟨h | h, _⟩ | ⟨h | h, hcalm⟩
    · exact absurd h hst
    · rw [h] at he; cases he
    · exact ⟨hr, h, hcalm⟩
    · rw [h] at he; cases he
  -- the producer leaves `CONNECTED` in the call
  have hleave : s.Rests → s.status = .connected → ∀ u : State, u.phase = s.phase → u.connects = s.connects →
      u.status = .disconnecting → Keeps s u := by
    intro hr hst u hph hcn hu
    have hru : u.Rests := by unfold State.Rests; rw [hph]; exact hr
    have hne : ¬ s.Down := fun hd => hd.2.1 hst
    refine ⟨hcn, fun ha => ?_, fun hd => absurd hd hne, fun _ _ => ⟨hru, by rw [hu]; rfl⟩, fun _ _ =>
      ⟨hru, .inr (by rw [hu]; rfl)⟩⟩
    have hs := hc.stage
    unfold State.Staged at hs
    rcases hr with hr | hr <;> rw [hr] at hs <;> rw [hs.1] at ha <;> cases ha
  have hresting : ∀ u : State, u.Rests → u.connectAbort = none → u.status = .disconnecting → Calm u.internalClient →
      u.Staged := by
    intro u hr ha hst hcalm
    unfold State.Staged
    rcases hr with hr | hr <;> rw [hr] <;> exact ⟨ha, .inr ⟨.inr hst, hcalm⟩⟩
  cases h with
  | resolved h =>
    refine hi.addDisconnect hc (.refl s) rfl .resolved ?_
    intro hin hat _
    rcases h with h | ⟨ha, he⟩
    · exact Stage.init_down hc.stage h hin
    · have hst : s.status ≠ .init := fun e => by rw [e] at he; cases he
      obtain ⟨hr, ⟨_, hq⟩ | ⟨h | h, _⟩⟩ := Stage.outside hc.stage ha hst
      · exact ⟨.inl hr, (fun e => by rw [e] at he; cases he), hq⟩
      · rw [h] at he; cases he
      · exact absurd h hat
  | waits hst ha =>
    refine hi.addDisconnect (u := { s with connectAbort := some true, log := s.log ++ [Note.aborted] })
      ⟨Stage.aborted ha hc.stage, hc.abandoned⟩ ?_ rfl .waiting fun _ => .inl rfl
    exact ⟨rfl, fun _ => .inl rfl, id, fun hr h => ⟨hr, h⟩, fun hr h => ⟨hr, .inl h⟩⟩
  | locks _ hst ha he lock started index =>
    obtain ⟨hr, hst, _⟩ := hcon hst ha he
    refine hi.addDisconnect (u := { s with lock, disconnectStarted := started }) ⟨hc.stage, hc.abandoned⟩ ?_ rfl
      (.lock index) ⟨hr, .inl hst⟩
    exact ⟨rfl, .inl, id, fun hr h => ⟨hr, h⟩, fun hr h => ⟨hr, .inl h⟩⟩
  | closes _ hst ha he _ =>
    obtain ⟨hr, hst, hcalm⟩ := hcon hst ha he
    refine hi.addDisconnect (u := { s with status := .disconnecting }.closeClient.1)
      ⟨hresting _ hr ha rfl (hcalm.map (f := Client.disconnect) fun _ => rfl), hc.abandoned⟩
        (hleave hr hst _ rfl rfl rfl) rfl _ ?_
    unfold State.closeClient
    split_ifs
    · exact ⟨hr, rfl⟩
    · exact ⟨hr, rfl⟩
  | flushThrew _ hst ha he _ =>
    obtain ⟨hr, hst, hcalm⟩ := hcon hst ha he
    exact hi.addDisconnect (u := { s with status := .disconnecting })
      ⟨hresting _ hr ha rfl hcalm, hc.abandoned⟩ (hleave hr hst _ rfl rfl rfl) rfl (.serdes false)
        ⟨hr, rfl, fun h => by cases h⟩

theorem setDisconnect {u : State} (hc : Clients u) (hk : Keeps s u) (hd : u.disconnects = s.disconnects) {i : Nat}
    {d : Disconnect} (hget : s.disconnects[i]? = some d) (ph : DisconnectPhase) (hh : ph.Holds u d) :
    Inv (u.setDisconnect i d ph) := by
  have hu := hi.of_keeps hc hk hd
  have hsame : Keeps u (u.setDisconnect i d ph) := ⟨rfl, .inl, id, fun hr h => ⟨hr, h⟩, fun hr h => ⟨hr, .inl h⟩⟩
  refine ⟨⟨hc.stage, hc.abandoned⟩, ?_, ?_⟩
  · intro x hx
    rcases List.mem_or_eq_of_mem_set hx with hx | rfl
    · exact hu.connects x hx
    · exact hu.connects d (hd ▸ List.mem_of_getElem? hget)
  · intro x hx
    rcases List.mem_or_eq_of_mem_set hx with hx | rfl
    · exact hsame.holds (hu.calls x hx)
    · have := hsame.holds hh
      cases ph <;> exact this

/-- The state where a call of `disconnect` works on the client. -/
theorem setClient (hr : s.Rests) {f : Client → Client} (hcon : ∀ x, (f x).isConnecting = x.isConnecting)
    (hlive : ∀ x, x.live = false → (f x).live = false) : Clients (s.setClient f) ∧ Keeps s (s.setClient f) := by
  have hs := hi.clients.stage
  refine ⟨⟨?_, hi.clients.abandoned⟩, rfl, .inl, fun hd => ⟨hd.1, hd.2.1, hd.2.2.map hlive⟩, fun hr h => ⟨hr, h⟩,
    fun hr h => ⟨hr, .inl h⟩⟩
  have hrest : Resting s.status s.internalClient → Resting s.status (s.internalClient.map f) := by
    rintro (⟨h, hq⟩ | ⟨h, hc⟩)
    · exact .inl ⟨h, hq.map hlive⟩
    · exact .inr ⟨h, hc.map hcon⟩
  unfold State.Staged at hs ⊢
  show Stage s.status s.connectAbort (s.internalClient.map f) s.phase
  rcases hr with hr | hr <;> rw [hr] at hs ⊢ <;> exact ⟨hs.1, hrest hs.2⟩

theorem resting (hr : s.Rests) : s.connectAbort = none ∧ Calm s.internalClient := by
  have hs := hi.clients.stage
  unfold State.Staged at hs
  have hrest : Resting s.status s.internalClient → Calm s.internalClient := by
    rintro (⟨_, hq⟩ | ⟨_, hc⟩)
    · exact hq.calm
    · exact hc
  rcases hr with hr | hr <;> rw [hr] at hs <;> exact ⟨hs.1, hrest hs.2⟩

theorem answered {i : Nat} {d : Disconnect} (hd : s.disconnects[i]? = some d) (h : Answered s i d t) : Inv t := by
  have hh := hi.calls d (List.mem_of_getElem? hd)
  cases h with
  | waited hp h =>
    rw [hp] at hh
    refine hi.setDisconnect hi.clients (.refl s) rfl hd .resolved fun _ _ e => ?_
    rcases h with h | h
    · refine (hh e).resolve_left fun ha => ?_
      rw [(hi.resting (.inl h)).1] at ha; cases ha
    · exact absurd e (Nat.ne_of_lt h)
  | wrote hp lock =>
    rw [hp] at hh
    obtain ⟨hr, hst⟩ := hh
    obtain ⟨ha, hc⟩ := hi.resting hr
    refine hi.setDisconnect (u := { s with lock, status := .disconnecting }) ⟨?_, hi.clients.abandoned⟩ ?_ rfl hd
      .written ⟨hr, rfl⟩
    · unfold State.Staged
      show Stage .disconnecting s.connectAbort s.internalClient s.phase
      rcases hr with hr | hr <;> rw [hr] <;> exact ⟨ha, .inr ⟨.inr rfl, hc⟩⟩
    · refine ⟨rfl, fun h => ?_, fun hdown => ⟨hdown.1, by simp, hdown.2.2⟩, fun hr _ => ⟨hr, rfl⟩, fun hr _ =>
        ⟨hr, .inr rfl⟩⟩
      rw [ha] at h; cases h
  | unsubscribed hp ht =>
    rw [hp] at hh
    obtain ⟨hr, hst⟩ := hh
    obtain ⟨hc, hk⟩ :=
      hi.setClient hr (f := fun c => ({ c with unsubscribes := c.unsubscribes + 1 } : Client).disconnect)
      (fun _ => rfl) (fun _ h => h)
    have hu : (s.setClient fun c => ({ c with unsubscribes := c.unsubscribes + 1 } : Client).disconnect) =
        (s.setClient fun c => { c with unsubscribes := c.unsubscribes + 1 }).closeClient.1 := by
      simp [State.setClient, State.closeClient, Function.comp_def]
    subst ht
    rw [hu] at hc hk
    refine hi.setDisconnect hc hk rfl hd _ ?_
    unfold State.closeClient
    split_ifs
    · exact ⟨hr, hst⟩
    · exact ⟨hr, hst⟩
  | unsubscribeThrew hp =>
    rw [hp] at hh
    obtain ⟨hr, hst⟩ := hh
    obtain ⟨hc, hk⟩ := hi.setClient hr (f := fun c => { c with unsubscribes := c.unsubscribes + 1 }) (fun _ => rfl)
      (fun _ h => h)
    exact hi.setDisconnect hc hk rfl hd (.serdes false) ⟨hr, hst, fun h => by cases h⟩
  | closed hp =>
    rw [hp] at hh
    obtain ⟨hr, hst⟩ := hh
    obtain ⟨ha, hc⟩ := hi.resting hr
    have hdown : ({ s.setClient Client.disconnected with status := .disconnected } : State).Down :=
      ⟨.inl hr, by simp, hc.disconnected⟩
    refine hi.setDisconnect (u := { s.setClient Client.disconnected with status := .disconnected })
      ⟨?_, hi.clients.abandoned⟩ ?_ rfl hd (.serdes true) ⟨hr, rfl, fun _ => hdown⟩
    · unfold State.Staged
      show Stage .disconnected s.connectAbort (s.internalClient.map Client.disconnected) s.phase
      rcases hr with hr | hr <;> rw [hr] <;> exact ⟨ha, .inl ⟨.inr rfl, hc.disconnected⟩⟩
    · exact ⟨rfl, fun _ => .inr hdown, fun _ => hdown, fun hr _ => ⟨hr, rfl⟩, fun hr _ => ⟨hr, .inr rfl⟩⟩
  | serdesClosed hp => exact hi.setDisconnect hi.clients (.refl s) rfl hd .rejected trivial
  | serdesResolved hp =>
    rw [hp] at hh
    exact hi.setDisconnect hi.clients (.refl s) rfl hd .resolved fun _ _ _ => hh.2.2 rfl

theorem step {e : Ev} (h : step cfg s e = some t) : Inv t := by
  cases step_stepped h with
  | connect => exact hi.connect
  | moved h => exact hi.of_keeps (hi.clients.moved h) (Keeps.moved hi.clients h) h.disconnects
  | called h => exact hi.called h
  | answered hd h => exact hi.answered hd h
  | ran lock run =>
    exact hi.of_keeps ⟨hi.clients.stage, hi.clients.abandoned⟩
      ⟨rfl, .inl, id, fun hr h => ⟨hr, h⟩, fun hr h => ⟨hr, .inl h⟩⟩ rfl

end Inv

theorem inv_init (cfg : Config) : Inv (lts cfg).init :=
  ⟨⟨⟨rfl, .inl ⟨.inl rfl, fun x h => (by cases h)⟩⟩, fun c h => (by cases h)⟩, fun d h => (by cases h),
    fun d h => by cases h⟩

end Connect

end ConfluentKafka
