import ConfluentKafka.ConnectInv

/-!
# The attempts of `connect`

Each attempt but the first follows a retriable failure, and there are at most
as many retries as configured. With the invariant of the clients this is the
life of an instance: `connect_once`.
-/

namespace ConfluentKafka

namespace Connect

def Phase.inLoop : Phase → Bool
  | .idle | .config | .resolverThrew | .buildThrew | .closingSerdes | .settled => false
  | _ => true

def Phase.mayRetry : Phase → Bool
  | .teardown e => e = some .retriable
  | .tornDown e => e = some .retriable
  | ph => ph.inLoop

def Note.open (n : Note) : Prop := n = .attempt ∨ n = .failed .retriable

structure Attempts (cfg : Config) (s : State) : Prop where
  order : s.log.Pairwise fun a b => b = .attempt → a.open
  count : s.log.count .attempt ≤ cfg.retries + 1
  start : s.phase = .config → s.log = []
  number : s.phase.inLoop = true → s.log.count .attempt = s.attempt + 1
  again : s.phase = .backoff → s.attempt < cfg.retries
  retry : s.phase.mayRetry = true → s.connectAbort = some false → ∀ n ∈ s.log, n.open

theorem order_append {log : List Note} (h : log.Pairwise fun a b => b = .attempt → a.open) {n : Note}
    (hn : n = .attempt → ∀ x ∈ log, x.open) : (log ++ [n]).Pairwise fun a b => b = .attempt → a.open := by
  refine List.pairwise_append.mpr ⟨h, List.pairwise_singleton _ _, ?_⟩
  intro a ha b hb e
  obtain rfl := List.mem_singleton.mp hb
  exact hn e a ha

namespace Attempts

variable {cfg : Config} {s t : State}

theorem goOn (hi : Attempts cfg s) (hlog : t.log = s.log) (ha : t.attempt = s.attempt)
    (hab : t.connectAbort = s.connectAbort) (hloop : t.phase.inLoop = true → s.phase.inLoop = true)
    (hmay : t.phase.mayRetry = true → s.phase.mayRetry = true) (hc : t.phase ≠ .config) (hb : t.phase ≠ .backoff) :
    Attempts cfg t := by
  refine ⟨hlog ▸ hi.order, hlog ▸ hi.count, fun h => absurd h hc, ?_, fun h => absurd h hb, ?_⟩
  · intro h
    rw [hlog, ha]
    exact hi.number (hloop h)
  · intro h hf
    rw [hlog]
    exact hi.retry (hmay h) (hab ▸ hf)

theorem stay (hi : Attempts cfg s) {ph : Phase} (hp : s.phase = ph) (hmay : ph.mayRetry = true)
    (hlog : t.log = s.log) (ha : t.attempt = s.attempt) (hab : t.connectAbort = s.connectAbort)
    (hc : t.phase ≠ .config)
    (hb : t.phase ≠ .backoff) : Attempts cfg t := by
  have hloop : ph.inLoop = true := by cases ph <;> first | rfl | cases hmay
  exact hi.goOn hlog ha hab (fun _ => hp ▸ hloop) (fun _ => hp ▸ hmay) hc hb

theorem leave (hi : Attempts cfg s) (hlog : t.log = s.log) (hloop : t.phase.inLoop = false)
    (hmay : t.phase.mayRetry = false) (hc : t.phase ≠ .config) : Attempts cfg t := by
  refine ⟨hlog ▸ hi.order, hlog ▸ hi.count, fun h => absurd h hc, ?_, ?_, ?_⟩
  · intro h; rw [hloop] at h; cases h
  · intro h; rw [h] at hloop; cases hloop
  · intro h; rw [hmay] at h; cases h

theorem beginAttempt (hopen : ∀ n ∈ s.log, n.open) (hord : s.log.Pairwise fun a b => b = .attempt → a.open)
    (hnum : s.log.count .attempt = s.attempt) (hle : s.attempt ≤ cfg.retries) : Attempts cfg s.beginAttempt := by
  have hcount : (s.log ++ [Note.attempt]).count .attempt = s.attempt + 1 := by
    rw [List.count_append, hnum]
    rfl
  refine ⟨order_append hord fun _ => hopen, ?_, fun h => (by cases h), fun _ => hcount, fun h => (by cases h), ?_⟩
  · show (s.log ++ [Note.attempt]).count .attempt ≤ _
    rw [hcount]
    omega
  · intro _ _ n hn
    rcases List.mem_append.mp hn with hn | hn
    · exact hopen n hn
    · obtain rfl := List.mem_singleton.mp hn
      exact .inl rfl

theorem afterAttempt (hi : Attempts cfg s) (hloop : s.phase.inLoop = true) (hmay : s.phase.mayRetry = true)
    (e : Option Failure) : Attempts cfg (s.afterAttempt e) := by
  have hnot : e.elim Note.succeeded Note.failed ≠ .attempt := by cases e <;> simp
  have hord := order_append hi.order (n := e.elim Note.succeeded Note.failed) fun h => absurd h hnot
  have hcount : (s.log ++ [e.elim Note.succeeded Note.failed]).count .attempt = s.log.count .attempt := by
    rw [List.count_append, List.count_singleton]
    simp [hnot]
  have hle : (s.log ++ [e.elim Note.succeeded Note.failed]).count .attempt ≤ cfg.retries + 1 := hcount ▸ hi.count
  have hdown : ∀ u : State, u.phase = .teardown e → u.log = s.log ++ [e.elim Note.succeeded Note.failed] →
      u.attempt = s.attempt → u.connectAbort = s.connectAbort → Attempts cfg u := by
    intro u hp hl ha hab
    refine ⟨hl ▸ hord, hl ▸ hle, fun h => (by rw [hp] at h; cases h), ?_, fun h => (by rw [hp] at h; cases h), ?_⟩
    · intro _
      rw [hl, ha, hcount]
      exact hi.number hloop
    · intro h hf n hn
      rw [hp] at h
      obtain rfl : e = some .retriable := by simpa [Phase.mayRetry] using h
      rw [hl] at hn
      rcases List.mem_append.mp hn with hn | hn
      · exact hi.retry hmay (hab ▸ hf) n hn
      · obtain rfl := List.mem_singleton.mp hn
        exact .inr rfl
  unfold State.afterAttempt
  simp only
  split_ifs
  · exact ⟨hord, hle, fun h => (by cases h), fun h => (by cases h), fun h => (by cases h), fun h => (by cases h)⟩
  · unfold State.teardownFailedClient
    split_ifs
    · exact hdown _ rfl rfl rfl rfl
    · exact hdown _ rfl rfl rfl rfl

theorem moved (hi : Attempts cfg s) (hab : s.phase.inLoop = true → s.connectAbort ≠ none) (h : Moved cfg s t) :
    Attempts cfg t := by
  cases h with
  | began hp =>
    have hlog := hi.start hp
    refine beginAttempt (s := { s with status := .connecting, connectAbort := some false, attempt := 0 })
      ?_ hi.order ?_
      (Nat.zero_le _)
    · intro n hn
      rw [show _ = [] from hlog] at hn; cases hn
    · show s.log.count .attempt = 0
      rw [hlog]
      rfl
  | configThrew hp => exact hi.leave rfl rfl rfl (by simp)
  | resolverThrew hp => exact hi.leave rfl rfl rfl (by simp)
  | built hp => exact hi.stay hp rfl rfl rfl rfl (by simp [State.build]) (by simp [State.build])
  | buildThrew hp => exact hi.leave rfl rfl rfl (by simp)
  | native hp => exact hi.stay hp rfl rfl rfl rfl (by simp) (by simp)
  | metadataThrew hp e => exact hi.stay hp rfl rfl rfl rfl (by simp) (by simp)
  | connected hp =>
    rcases hp with hp | hp | ⟨e, hp⟩ <;>
      exact hi.stay hp rfl rfl rfl rfl (by simp) (by simp)
  | attempted hp =>
    have hloop : s.phase.inLoop = true := by rw [hp]; rfl
    have hmay : s.phase.mayRetry = true := by rw [hp]; rfl
    unfold State.attempted
    split_ifs
    · cases cfg.kind with
      | producer _ => exact hi.goOn rfl rfl rfl (fun _ => hloop) (fun _ => hmay) (by simp) (by simp)
      | consumer =>
        have hi' : Attempts cfg { s with status := .connected } := hi.goOn rfl rfl rfl id id (by simp [hp])
          (by simp [hp])
        exact hi'.afterAttempt hloop hmay none
    · exact hi.afterAttempt hloop hmay _
  | onConnected hp =>
    unfold State.onConnected
    split_ifs <;>
      exact hi.stay hp rfl rfl rfl rfl (by simp) (by simp)
  | transactions hp e => exact hi.stay hp rfl rfl rfl rfl (by simp) (by simp)
  | onConnectedSettled hp => exact hi.afterAttempt (by rw [hp]; rfl) (by rw [hp]; rfl) _
  | torn hp _ =>
    exact hi.goOn rfl rfl rfl (by simp [hp, Phase.inLoop]) (by simp [hp, Phase.mayRetry]) (by simp) (by simp)
  | notTorn hp _ =>
    exact hi.goOn rfl rfl rfl (by simp [hp, Phase.inLoop]) (by simp [hp, Phase.mayRetry]) (by simp) (by simp)
  | tornDown hp =>
    rename_i e
    unfold State.tornDown
    split_ifs with hab hstop
    · exact hi.leave rfl rfl rfl (by simp [State.fail])
    · exact hi.leave rfl rfl rfl (by simp [State.fail])
    · obtain ⟨hlt, rfl⟩ : s.attempt < cfg.retries ∧ e = some .retriable := by
        simpa [not_or] using hstop
      refine ⟨hi.order, hi.count, fun h => (by cases h), fun _ => hi.number (by rw [hp]; rfl), fun _ => hlt,
        fun _ hf => ?_⟩
      exact hi.retry (by rw [hp]; rfl) hf
  | backedOff hp =>
    have hnum := hi.number (by rw [hp]; rfl)
    unfold State.backedOff
    split_ifs with ha
    · exact hi.leave rfl rfl rfl (by simp [State.fail])
    · refine beginAttempt (s := { s with attempt := s.attempt + 1 }) ?_ hi.order hnum (hi.again hp)
      exact hi.retry (by rw [hp]; rfl) (abort_false (hab (by rw [hp]; rfl)) ha)
  | serdesClosed hp => exact hi.leave rfl rfl rfl (by simp [State.finish])
  | settled hp => exact hi.leave rfl rfl rfl (by simp)

theorem same (hi : Attempts cfg s) (hp : t.phase = s.phase) (hlog : t.log = s.log) (ha : t.attempt = s.attempt)
    (hab : t.connectAbort = s.connectAbort) : Attempts cfg t := by
  obtain ⟨h₁, h₂, h₃, h₄, h₅, h₆⟩ := hi
  rw [← hp, ← hlog] at h₃
  rw [← hp, ← hlog, ← ha] at h₄
  rw [← hp, ← ha] at h₅
  rw [← hp, ← hab, ← hlog] at h₆
  exact ⟨hlog ▸ h₁, hlog ▸ h₂, h₃, h₄, h₅, h₆⟩

theorem connect (hi : Attempts cfg s) : Attempts cfg s.connect := by
  unfold State.connect
  split_ifs
  · exact hi
  · exact hi
  · exact ⟨List.Pairwise.nil, Nat.zero_le _, fun _ => rfl, fun h => (by cases h), fun h => (by cases h),
      fun h => by cases h⟩

theorem called (hi : Attempts cfg s) (hab : s.phase = .config → s.connectAbort = none) (h : Called cfg s t) :
    Attempts cfg t := by
  cases h with
  | waits hst ha =>
    have hcount : (s.log ++ [Note.aborted]).count .attempt = s.log.count .attempt := by
      rw [List.count_append]
      rfl
    refine ⟨order_append hi.order fun h => (by cases h), hcount ▸ hi.count, ?_, ?_, hi.again,
      fun _ h => (by cases h)⟩
    · intro h
      exact absurd (hab h) ha
    · intro h
      show (s.log ++ [Note.aborted]).count .attempt = _
      rw [hcount]
      exact hi.number h
  | _ => exact hi.same rfl rfl rfl rfl

theorem answered (hi : Attempts cfg s) {i : Nat} {d : Disconnect} (h : Answered s i d t) : Attempts cfg t := by
  cases h with
  | unsubscribed hp ht =>
    subst ht
    exact hi.same rfl rfl rfl rfl
  | _ => exact hi.same rfl rfl rfl rfl

end Attempts

theorem Clients.abort {s : State} (hc : Clients s) : (s.phase.inLoop = true → s.connectAbort ≠ none) ∧
    (s.phase = .config → s.connectAbort = none) := by
  have hs := hc.stage
  unfold State.Staged at hs
  cases hp : s.phase with
  | idle => exact ⟨fun h => (by cases h), fun h => by cases h⟩
  | settled => exact ⟨fun h => (by cases h), fun h => by cases h⟩
  | resolverThrew => exact ⟨fun h => (by cases h), fun h => by cases h⟩
  | config => rw [hp] at hs; exact ⟨fun h => (by cases h), fun _ => hs.1⟩
  | _ => rw [hp] at hs; exact ⟨fun _ => hs.1, fun h => by cases h⟩

theorem Attempts.step {cfg : Config} {s t : State} {e : Ev} (hi : Attempts cfg s) (hc : Clients s)
    (h : step cfg s e = some t) : Attempts cfg t := by
  cases step_stepped h with
  | connect => exact hi.connect
  | moved h => exact hi.moved hc.abort.1 h
  | called h => exact hi.called hc.abort.2 h
  | answered _ h => exact hi.answered h
  | ran lock run => exact hi.same rfl rfl rfl rfl

theorem inv_run {cfg : Config} {es : List Ev} {s : State} (hr : (lts cfg).Run es s) : Inv s ∧ Attempts cfg s := by
  refine Lts.RunWhere.inv (I := fun s => Inv s ∧ Attempts cfg s) ?_ ?_ hr
  · refine ⟨inv_init cfg, ?_⟩
    exact ⟨List.Pairwise.nil, Nat.zero_le _, fun _ => rfl, fun h => (by cases h), fun h => (by cases h),
      fun h => by cases h⟩
  · intro s e t ⟨hi, ha⟩ _ h
    exact ⟨hi.step h, ha.step hi.clients h⟩

/-- At most one client is live; there are at most `retries + 1` attempts, none after a success, an abort or an
error that is not retriable; and after a `disconnect` that has resolved no client is live and the state is not
`CONNECTED` until `connect` is called again, unless `disconnect` was called before `connect` had its
configuration or while another one was closing the client. -/
theorem connect_once {cfg : Config} {es : List Ev} {s : State} (hr : (lts cfg).Run es s) :
    s.clients.countP Client.live ≤ 1 ∧
    (s.log.count .attempt ≤ cfg.retries + 1 ∧
      s.log.Pairwise fun a b => b = .attempt → a = .attempt ∨ a = .failed .retriable) ∧
    ∀ d ∈ s.disconnects, d.phase = .resolved → d.calledIn ≠ .config → d.calledAt ≠ .disconnecting →
      d.connects = s.connects → (∀ c ∈ s.clients, c.live = false) ∧ s.status ≠ .connected := by
  obtain ⟨hi, ha⟩ := inv_run hr
  have hold := hi.clients.abandoned
  refine ⟨?_, ⟨ha.count, ha.order⟩, ?_⟩
  · have h₀ : s.abandoned.countP Client.live = 0 :=
      List.countP_eq_zero.mpr fun c hc => by rw [hold c hc]; simp
    have h₁ : s.internalClient.toList.countP Client.live ≤ 1 :=
      Nat.le_trans List.countP_le_length (by cases s.internalClient <;> simp)
    unfold State.clients
    rw [List.countP_append]
    omega
  · intro d hd hp hin hat hcn
    have hh := hi.calls d hd
    rw [hp] at hh
    obtain ⟨_, hst, hq⟩ := hh hin hat hcn
    refine ⟨fun c hc => ?_, hst⟩
    rcases List.mem_append.mp hc with hc | hc
    · exact hold c hc
    · exact hq c (Option.mem_toList.mp hc)

/-- A consumer is connected and called to disconnect; while its client closes it is called again. -/
def calledTwice : List Ev :=
  [.connect, .config .ok, .build true, .native none, .metadata none, .attempted, .settle, .disconnect, .write 0,
    .unsubscribe 0 true, .disconnect]

/-- The second call resolves at once, with the client still live. -/
theorem second_disconnect_early : ∃ s d, (lts ⟨.consumer, 0⟩).Run calledTwice s ∧ d ∈ s.disconnects ∧
    d.phase = .resolved ∧ 0 < d.connects ∧ d.connects = s.connects ∧ ∃ c ∈ s.clients, c.live = true := by
  have hs : ((lts ⟨.consumer, 0⟩).exec (fun _ _ => true) (lts ⟨.consumer, 0⟩).init calledTwice).map
      (fun s => (s.disconnects, s.connects, s.clients)) =
      some ([⟨.closing, 1, .idle, .connected⟩, ⟨.resolved, 1, .idle, .disconnecting⟩], 1,
        [⟨false, true, true, 1, 1⟩]) := by
    decide +kernel
  obtain ⟨s, hs, hx⟩ := Option.map_eq_some_iff.mp hs
  simp only [Prod.mk.injEq] at hx
  obtain ⟨hd, hn, hc⟩ := hx
  exact ⟨s, ⟨.resolved, 1, .idle, .disconnecting⟩, Lts.Run.of_exec hs, by rw [hd]; simp, rfl, by simp, by rw [hn],
    ⟨false, true, true, 1, 1⟩, by rw [hc]; simp, rfl⟩

/-- A transactional producer whose first attempt fails; it is called to disconnect in the second one. -/
def abortedRetry : List Ev :=
  [.connect, .config .ok, .build true, .native none, .metadata none, .attempted, .onConnected, .transactions
    (some .retriable),
    .onConnectedSettled, .torn, .tornDown, .timer, .build true, .native none, .disconnect,
      .metadata none, .attempted,
    .torn, .tornDown, .serdesClosed, .settle, .waited 0]

theorem connect_once_abortedRetry : ∃ s, (lts ⟨.producer true, 3⟩).Run abortedRetry s ∧ s.log.count .attempt = 2 ∧
    (∀ c ∈ s.clients, c.live = false) ∧ s.status ≠ .connected := by
  have hs : ((lts ⟨.producer true, 3⟩).exec (fun _ _ => true) (lts ⟨.producer true, 3⟩).init abortedRetry).map
      (fun s => (s.disconnects, s.connects, s.log.count .attempt)) =
      some ([⟨.resolved, 1, .metadata, .connecting⟩], 1, 2) := by
    decide +kernel
  obtain ⟨s, hs, hx⟩ := Option.map_eq_some_iff.mp hs
  simp only [Prod.mk.injEq] at hx
  obtain ⟨hd, hn, hc⟩ := hx
  have hr := Lts.Run.of_exec hs
  obtain ⟨h₁, h₂⟩ := (connect_once hr).2.2 ⟨.resolved, 1, .metadata, .connecting⟩ (by rw [hd]; simp) rfl
    (by simp) (by simp)
    (by rw [hn])
  exact ⟨s, hr, hc, h₁, h₂⟩

end Connect

end ConfluentKafka
